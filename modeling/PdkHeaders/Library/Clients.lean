import PdkHeaders.Library.Hoare
import PdkHeaders.Library.Refinement

set_option autoImplicit false

/-!
# Clients of a component

A client knows a component by its operations. So what every operation keeps, every client keeps,
and components whose operations end alike are the same to it.
-/
namespace PdkHeaders.Library.Clients
open PdkHeaders.Library.Execution PdkHeaders.Library.Hoare PdkHeaders.Library.Transcript
  PdkHeaders.Library.Sessions PdkHeaders.Library.Refinement

section Parts
variable {σ τ α : Type}

def onFirst (m : Exec σ α) : Exec (σ × τ) α := zoom Prod.fst (fun u s => (u, s.2)) m
def onSecond (m : Exec τ α) : Exec (σ × τ) α := zoom Prod.snd (fun v s => (s.1, v)) m

/-- However it ends, it leaves the invariant as it found it. -/
abbrev Keeps (I : σ → Prop) (m : Exec σ α) : Prop := Triple I m (fun _ => I) I

/-- What stands beside a part may be a part of the invariant. -/
theorem onFirst_keeps {I : σ → τ → Prop} {m : Exec σ α} (h : ∀ v, Keeps (I · v) m) :
    Keeps (fun s : σ × τ => I s.1 s.2) (onFirst m) := by
  intro s hs
  have hm := h s.2 s.1 hs
  cases hrun : m.run s.1 with
  | ok a u =>
    rw [hrun] at hm
    rw [onFirst, zoom_ok hrun]
    exact hm
  | error stop u =>
    rw [hrun] at hm
    rw [onFirst, zoom_error hrun]
    exact hm

theorem onSecond_keeps {I : σ → Prop} {m : Exec τ α} :
    Keeps (fun s : σ × τ => I s.1) (onSecond m) := by
  intro s hs
  cases hrun : m.run s.2 with
  | ok a v =>
    rw [onSecond, zoom_ok hrun]
    exact hs
  | error stop v =>
    rw [onSecond, zoom_error hrun]
    exact hs

/-- What every command keeps, every session keeps. -/
theorem session_keeps {ι ο : Type} {I : σ → Prop} {command : ι → Exec σ ο}
    (h : ∀ input, Keeps I (command input)) (inputs : List ι) {s : σ} (hs : I s) :
    I (after (session command) inputs s) := by
  induction inputs generalizing s with
  | nil => exact hs
  | cons input inputs ih =>
    apply ih
    have hinput := h input s hs
    unfold session
    cases hrun : (command input).run s with
    | ok answer u => rwa [hrun] at hinput
    | error stop u => rwa [hrun] at hinput

end Parts

section Clients
variable {ι ο ω σ τ α : Type} {R : σ → τ → Prop}

/-- A program that reaches a component through its operations alone. It may handle what they
throw, and what happens outside of the component. -/
inductive Client (ι ο ω α : Type) : Type 1 where
  | done (result : Except Exception α)
  | call (input : ι) (next : Except Exception ο → Client ι ο ω α)
  | outside {β : Type} (m : Exec ω β) (next : Except Exception β → Client ι ο ω α)

def finish : Except Exception α → Exec σ α
  | .ok a => pure a
  | .error e => raise e

def attempt (m : Exec σ α) : Exec σ (Except Exception α) :=
  catchAll (return .ok (← m)) fun e => return .error e

def Client.run (operation : ι → Exec σ ο) (elsewhere : ∀ β : Type, Exec ω β → Exec σ β) :
    Client ι ο ω α → Exec σ α
  | .done result => finish result
  | .call input next => do
    let result ← attempt (operation input)
    (next result).run operation elsewhere
  | .outside m next => do
    let result ← attempt (elsewhere _ m)
    (next result).run operation elsewhere

theorem finish_alike (result : Except Exception α) :
    Alike R (finish result) (finish result) := by
  intro s t hs
  cases result with
  | ok a => exact .ok a hs
  | error e => exact .error _ hs

theorem attempt_alike {m : Exec σ α} {n : Exec τ α} (h : Alike R m n) :
    Alike R (attempt m) (Clients.attempt n) :=
  .catchAll (.bind h fun _ => .pure _) fun _ => .pure _

/-- A client cannot tell components apart whose operations end alike. -/
theorem client_alike {operation : ι → Exec σ ο} {operation' : ι → Exec τ ο}
    {elsewhere : ∀ β : Type, Exec ω β → Exec σ β} {elsewhere' : ∀ β : Type, Exec ω β → Exec τ β}
    (hoperation : ∀ input, Alike R (operation input) (operation' input))
    (helsewhere : ∀ (β : Type) (m : Exec ω β), Alike R (elsewhere β m) (elsewhere' β m))
    (client : Client ι ο ω α) :
    Alike R (client.run operation elsewhere) (client.run operation' elsewhere') := by
  induction client with
  | done result => exact finish_alike result
  | call input next ih => exact .bind (attempt_alike (hoperation input)) ih
  | outside m next ih => exact .bind (attempt_alike (helsewhere _ m)) ih

theorem attempt_keeps {I : σ → Prop} {m : Exec σ α} (h : Keeps I m) : Keeps I (attempt m) :=
  .catchAll (.bind h fun _ => .pure fun _ hs => hs) fun _ => .pure fun _ hs => hs

theorem client_keeps {I : σ → Prop} {operation : ι → Exec σ ο}
    {elsewhere : ∀ β : Type, Exec ω β → Exec σ β} (hoperation : ∀ input, Keeps I (operation input))
    (helsewhere : ∀ (β : Type) (m : Exec ω β), Keeps I (elsewhere β m))
    (client : Client ι ο ω α) : Keeps I (client.run operation elsewhere) := by
  induction client with
  | done result => cases result <;> exact fun _ hs => hs
  | call input next ih => exact .bind (attempt_keeps (hoperation input)) ih
  | outside m next ih => exact .bind (attempt_keeps (helsewhere _ m)) ih

end Clients

end PdkHeaders.Library.Clients
