import Mathlib.Tactic.Common

set_option autoImplicit false

/-!
# Executions that return, throw or fault

A stateful computation leaves its state behind at every exit. A fault is undefined
behaviour or a failed assertion: it ends the program, and no handler sees it.
-/
namespace PdkHeaders.Library.Execution

inductive Fault where
  | assertion
  | badAccess
  | diverges
  deriving DecidableEq, Repr

inductive Exception where
  | badAlloc
  | other
  deriving DecidableEq, Repr

inductive Stop where
  | throws (e : Exception)
  | faults (f : Fault)
  deriving DecidableEq, Repr

abbrev Exec (σ α : Type) := EStateM Stop σ α

section
variable {σ α β : Type}

def fault (f : Fault) : Exec σ α := throw (.faults f)
def raise (e : Exception) : Exec σ α := throw (.throws e)

/-- An assertion is checked only in builds that compile assertions in. -/
def assert (assertions condition : Bool) : Exec σ Unit :=
  if assertions && !condition then fault .assertion else pure ()

/-- `try { body } catch (...) { handler }`. -/
def catchAll (body : Exec σ α) (handler : Exception → Exec σ α) : Exec σ α := fun s =>
  match body.run s with
  | .error (.throws e) u => (handler e).run u
  | result => result

theorem bind_ok {m : Exec σ α} {f : α → Exec σ β} {s u : σ} {a : α} (h : m.run s = .ok a u) :
    (m >>= f).run s = (f a).run u := by
  rw [EStateM.run_bind, h]

theorem bind_error {m : Exec σ α} {f : α → Exec σ β} {s u : σ} {e : Stop}
    (h : m.run s = .error e u) : (m >>= f).run s = .error e u := by
  rw [EStateM.run_bind, h]

theorem bind_eq_ok {m : Exec σ α} {f : α → Exec σ β} {s v : σ} {b : β} :
    (m >>= f).run s = .ok b v ↔ ∃ a u, m.run s = .ok a u ∧ (f a).run u = .ok b v := by
  constructor
  · intro h
    cases hm : m.run s with
    | ok a u => exact ⟨a, u, rfl, by rwa [bind_ok hm] at h⟩
    | error e u => rw [bind_error hm] at h; cases h
  · rintro ⟨a, u, hm, hf⟩
    rw [bind_ok hm, hf]

@[simp] theorem fault_run (f : Fault) (s : σ) :
    (fault f : Exec σ α).run s = .error (.faults f) s := rfl

@[simp] theorem assert_true (assertions : Bool) :
    (assert assertions true : Exec σ Unit) = pure () := by
  cases assertions <;> rfl

theorem catchAll_ok {body : Exec σ α} {handler : Exception → Exec σ α} {s u : σ} {a : α}
    (h : body.run s = .ok a u) : (catchAll body handler).run s = .ok a u := by
  simp only [catchAll, EStateM.run] at h ⊢
  simp only [h]

theorem catchAll_throws {body : Exec σ α} {handler : Exception → Exec σ α} {s u : σ}
    {e : Exception} (h : body.run s = .error (.throws e) u) :
    (catchAll body handler).run s = (handler e).run u := by
  simp only [catchAll, EStateM.run] at h ⊢
  simp only [h]

theorem catchAll_faults {body : Exec σ α} {handler : Exception → Exec σ α} {s u : σ}
    {f : Fault} (h : body.run s = .error (.faults f) u) :
    (catchAll body handler).run s = .error (.faults f) u := by
  simp only [catchAll, EStateM.run] at h ⊢
  simp only [h]

end

section Runs
variable {σ ε : Type}

def runAll (step : ε → Exec σ Unit) : List ε → Exec σ Unit
  | [] => pure ()
  | event :: events => step event >>= fun _ => runAll step events

theorem runAll_cons_ok {step : ε → Exec σ Unit} {event : ε} {events : List ε} {s v : σ} :
    (runAll step (event :: events)).run s = .ok () v ↔
      ∃ u, (step event).run s = .ok () u ∧ (runAll step events).run u = .ok () v := by
  rw [runAll, bind_eq_ok]
  exact ⟨fun ⟨_, u, h⟩ => ⟨u, h⟩, fun ⟨u, h⟩ => ⟨(), u, h⟩⟩

theorem runAll_pair (step : ε → Exec σ Unit) (first second : ε) :
    runAll step [first, second] = step first >>= fun _ => step second := by
  simp [runAll]

theorem runAll_append_ok {step : ε → Exec σ Unit} (before after : List ε) {s v : σ} :
    (runAll step (before ++ after)).run s = .ok () v ↔
      ∃ u, (runAll step before).run s = .ok () u ∧ (runAll step after).run u = .ok () v := by
  induction before generalizing s with
  | nil => simp [runAll]
  | cons event before ih =>
    rw [List.cons_append, runAll_cons_ok]
    constructor
    · rintro ⟨u, hstep, hrest⟩
      obtain ⟨w, hbefore, hafter⟩ := ih.mp hrest
      exact ⟨w, runAll_cons_ok.mpr ⟨u, hstep, hbefore⟩, hafter⟩
    · rintro ⟨w, hbefore, hafter⟩
      obtain ⟨u, hstep, hrest⟩ := runAll_cons_ok.mp hbefore
      exact ⟨u, hstep, ih.mpr ⟨w, hrest, hafter⟩⟩

end Runs

end PdkHeaders.Library.Execution
