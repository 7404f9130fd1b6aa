import PdkHeaders.Library.Execution
import PdkHeaders.Library.Transcript

set_option autoImplicit false

/-!
# Sessions

A session runs one program for each command, and answers with what the program returns or with
what stopped it.
-/
namespace PdkHeaders.Library.Sessions
open PdkHeaders.Library.Execution PdkHeaders.Library.Transcript

section
variable {σ τ υ ι ο α : Type}

def session (command : ι → Exec σ ο) : Machine σ ι (Except Stop ο) := fun input s =>
  match (command input).run s with
  | .ok answer u => (.ok answer, u)
  | .error stop u => (.error stop, u)

/-- A program ends as another machine replies. -/
def Matches (R : σ → τ → Prop) (reply : Except Stop ο × τ) : EStateM.Result Stop σ ο → Prop
  | .ok answer u => reply.1 = .ok answer ∧ R u reply.2
  | .error stop u => reply.1 = .error stop ∧ R u reply.2

theorem session_step {R : σ → τ → Prop} {command : ι → Exec σ ο} {input : ι} {s : σ}
    {reply : Except Stop ο × τ} (h : Matches R reply ((command input).run s)) :
    (session command input s).1 = reply.1 ∧ R (session command input s).2 reply.2 := by
  unfold session
  cases hrun : (command input).run s with
  | ok answer u =>
    rw [hrun] at h
    exact ⟨h.1.symm, h.2⟩
  | error stop u =>
    rw [hrun] at h
    exact ⟨h.1.symm, h.2⟩

theorem session_simulates {R : σ → τ → Prop} {command : ι → Exec σ ο}
    {n : Machine τ ι (Except Stop ο)}
    (h : ∀ input s t, R s t → Matches R (n input t) ((command input).run s)) :
    Simulates R (session command) n := fun input s t hs => session_step (h input s t hs)

/-- Inputs that are allowed are answered alike, and the last states are related. -/
theorem session_follows {R : σ → τ → Prop} {allowed : ι → Prop} {command : ι → Exec σ ο}
    {n : Machine τ ι (Except Stop ο)}
    (h : ∀ input s t, allowed input → R s t → Matches R (n input t) ((command input).run s))
    (inputs : List ι) (hallowed : ∀ input ∈ inputs, allowed input) {s : σ} {t : τ} (hs : R s t) :
    transcript (session command) inputs s = transcript n inputs t ∧
      R (after (session command) inputs s) (after n inputs t) := by
  induction inputs generalizing s t with
  | nil => exact ⟨rfl, hs⟩
  | cons input inputs ih =>
    have hstep := session_step (h input s t (hallowed input (List.mem_cons_self ..)) hs)
    have hrest := ih (fun other hother => hallowed other (List.mem_cons_of_mem _ hother)) hstep.2
    simp only [transcript, after, hstep.1, hrest.1]
    exact ⟨trivial, hrest.2⟩

theorem simulates_trans {R : σ → τ → Prop} {S : τ → υ → Prop} {m : Machine σ ι ο}
    {n : Machine τ ι ο} {p : Machine υ ι ο} (hm : Simulates R m n) (hn : Simulates S n p) :
    Simulates (fun s u => ∃ t, R s t ∧ S t u) m p := by
  intro input s u h
  obtain ⟨t, hs, ht⟩ := h
  have hfirst := hm input s t hs
  have hsecond := hn input t u ht
  exact ⟨hfirst.1.trans hsecond.1, _, hfirst.2, hsecond.2⟩

/-- Run on a part of the state, and put back what it leaves there. -/
def zoom (part : σ → τ) (put : τ → σ → σ) (m : Exec τ α) : Exec σ α := fun s =>
  match m.run (part s) with
  | .ok a t => .ok a (put t s)
  | .error stop t => .error stop (put t s)

theorem zoom_ok {part : σ → τ} {put : τ → σ → σ} {m : Exec τ α} {s : σ} {t : τ} {a : α}
    (h : m.run (part s) = .ok a t) : (zoom part put m).run s = .ok a (put t s) := by
  simp only [zoom, EStateM.run] at h ⊢
  simp only [h]

theorem zoom_error {part : σ → τ} {put : τ → σ → σ} {m : Exec τ α} {s : σ} {t : τ} {stop : Stop}
    (h : m.run (part s) = .error stop t) :
    (zoom part put m).run s = .error stop (put t s) := by
  simp only [zoom, EStateM.run] at h ⊢
  simp only [h]

end
end PdkHeaders.Library.Sessions
