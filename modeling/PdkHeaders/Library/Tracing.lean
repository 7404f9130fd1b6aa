import PdkHeaders.Library.Execution

set_option autoImplicit false

/-!
# Executions that note events

A traced execution is one over a state with a log. It traces a plain execution when it does the
same to the state and its events are good, and the rules below follow the text of the two.
-/
namespace PdkHeaders.Library.Tracing
open PdkHeaders.Library.Execution

section
variable {σ ε α β : Type}

abbrev Traced (σ ε α : Type) := Exec (σ × List ε) α

def note (event : ε) : Traced σ ε Unit := modify fun t => (t.1, t.2 ++ [event])

/-- An execution that notes nothing. -/
def silent (m : Exec σ α) : Traced σ ε α := fun t =>
  match m.run t.1 with
  | .ok a u => .ok a (u, t.2)
  | .error e u => .error e (u, t.2)

def withLog (log : List ε) : EStateM.Result Stop σ α → EStateM.Result Stop (σ × List ε) α
  | .ok a u => .ok a (u, log)
  | .error e u => .error e (u, log)

def Traces (good : ε → Prop) (traced : Traced σ ε α) (m : Exec σ α) : Prop :=
  ∀ s log, ∃ events, (∀ event ∈ events, good event) ∧
    traced.run (s, log) = withLog (log ++ events) (m.run s)

variable {good : ε → Prop} {traced : Traced σ ε α} {m : Exec σ α}

theorem Traces.silent (m : Exec σ α) : Traces good (silent m) m := by
  intro s log
  refine ⟨[], fun _ h => absurd h List.not_mem_nil, ?_⟩
  rw [List.append_nil]
  cases hrun : m.run s with
  | ok a u => simp only [Tracing.silent, EStateM.run] at hrun ⊢; simp only [hrun, withLog]
  | error e u => simp only [Tracing.silent, EStateM.run] at hrun ⊢; simp only [hrun, withLog]

theorem Traces.pure (a : α) : Traces good (Pure.pure a : Traced σ ε α) (Pure.pure a) := by
  intro s log
  refine ⟨[], fun _ h => absurd h List.not_mem_nil, ?_⟩
  rw [List.append_nil]
  rfl

theorem Traces.fault (f : Fault) : Traces good (fault f : Traced σ ε α) (fault f) := by
  intro s log
  refine ⟨[], fun _ h => absurd h List.not_mem_nil, ?_⟩
  rw [List.append_nil]
  rfl

/-- What follows a noted event traces what the event is about. -/
theorem Traces.note_bind {event : ε} {rest : Unit → Traced σ ε α} (hevent : good event)
    (hrest : Traces good (rest ()) m) : Traces good (note event >>= rest) m := by
  intro s log
  obtain ⟨events, hevents, hrun⟩ := hrest s (log ++ [event])
  refine ⟨event :: events, ?_, ?_⟩
  · intro other hother
    cases List.mem_cons.mp hother with
    | inl heq => rw [heq]; exact hevent
    | inr hmem => exact hevents other hmem
  · have hnote : (note event : Traced σ ε Unit).run (s, log) = .ok () (s, log ++ [event]) := rfl
    rw [bind_ok hnote, hrun, List.append_assoc, List.singleton_append]

/-- The continuations are compared only at values that the first execution can return. -/
theorem Traces.bind {f' : α → Traced σ ε β} {f : α → Exec σ β} (hm : Traces good traced m)
    (hf : ∀ a, (∃ s u, m.run s = .ok a u) → Traces good (f' a) (f a)) :
    Traces good (traced >>= f') (m >>= f) := by
  intro s log
  obtain ⟨first, hfirst, hrun⟩ := hm s log
  cases hresult : m.run s with
  | error e u =>
    rw [hresult] at hrun
    refine ⟨first, hfirst, ?_⟩
    rw [bind_error hrun, bind_error hresult]
    rfl
  | ok a u =>
    rw [hresult] at hrun
    obtain ⟨second, hsecond, hrest⟩ := hf a ⟨s, u, hresult⟩ u (log ++ first)
    refine ⟨first ++ second, ?_, ?_⟩
    · intro event hevent
      exact (List.mem_append.mp hevent).elim (hfirst event) (hsecond event)
    · rw [bind_ok hrun, bind_ok hresult, hrest, List.append_assoc]

theorem Traces.catchAll {handler' : Exception → Traced σ ε α} {handler : Exception → Exec σ α}
    (hm : Traces good traced m) (hhandler : ∀ e, Traces good (handler' e) (handler e)) :
    Traces good (catchAll traced handler') (catchAll m handler) := by
  intro s log
  obtain ⟨first, hfirst, hrun⟩ := hm s log
  cases hresult : m.run s with
  | ok a u =>
    rw [hresult] at hrun
    refine ⟨first, hfirst, ?_⟩
    rw [catchAll_ok hrun, catchAll_ok hresult]
    rfl
  | error e u =>
    rw [hresult] at hrun
    cases e with
    | faults f =>
      refine ⟨first, hfirst, ?_⟩
      rw [catchAll_faults hrun, catchAll_faults hresult]
      rfl
    | throws e =>
      obtain ⟨second, hsecond, hrest⟩ := hhandler e u (log ++ first)
      refine ⟨first ++ second, ?_, ?_⟩
      · intro event hevent
        exact (List.mem_append.mp hevent).elim (hfirst event) (hsecond event)
      · rw [catchAll_throws hrun, catchAll_throws hresult, hrest, List.append_assoc]

theorem Traces.ite {c : Prop} [Decidable c] {traced₁ traced₂ : Traced σ ε α} {m₁ m₂ : Exec σ α}
    (h₁ : c → Traces good traced₁ m₁) (h₂ : ¬ c → Traces good traced₂ m₂) :
    Traces good (if c then traced₁ else traced₂) (if c then m₁ else m₂) := by
  by_cases hc : c
  · simpa only [hc, ↓reduceIte] using h₁ hc
  · simpa only [hc, ↓reduceIte] using h₂ hc

theorem Traces.assert (assertions condition : Bool) :
    Traces good (assert assertions condition : Traced σ ε Unit) (assert assertions condition) :=
  .ite (fun _ => .fault _) fun _ => .pure _

end
end PdkHeaders.Library.Tracing
