import PdkHeaders.Library.Sessions

set_option autoImplicit false

/-!
# Executions over two states

Two executions end alike if from related states they return the same value, or stop in the same
way, and leave related states. What is built alike of such executions ends alike.
-/
namespace PdkHeaders.Library.Refinement
open PdkHeaders.Library.Execution PdkHeaders.Library.Transcript PdkHeaders.Library.Sessions

section
variable {σ τ α β : Type} {R : σ → τ → Prop}

inductive Ends (R : σ → τ → Prop) :
    EStateM.Result Stop σ α → EStateM.Result Stop τ α → Prop where
  | ok (a : α) {u : σ} {v : τ} : R u v → Ends R (.ok a u) (.ok a v)
  | error (stop : Stop) {u : σ} {v : τ} : R u v → Ends R (.error stop u) (.error stop v)

def Alike (R : σ → τ → Prop) (m : Exec σ α) (n : Exec τ α) : Prop :=
  ∀ s t, R s t → Ends R (m.run s) (n.run t)

theorem Alike.both {m : Exec σ α} {n : Exec τ α} (h : Alike R m n) {s : σ} {t : τ} (hs : R s t) :
    (∃ a u v, m.run s = .ok a u ∧ n.run t = .ok a v ∧ R u v) ∨
      ∃ stop u v, m.run s = .error stop u ∧ n.run t = .error stop v ∧ R u v := by
  have hends := h s t hs
  generalize m.run s = first at hends
  generalize n.run t = second at hends
  cases hends with
  | ok a huv => exact .inl ⟨a, _, _, rfl, rfl, huv⟩
  | error stop huv => exact .inr ⟨stop, _, _, rfl, rfl, huv⟩

theorem Alike.pure (a : α) : Alike R (Pure.pure a) (Pure.pure a) := fun _ _ hs => .ok a hs

theorem Alike.fault (f : Fault) :
    Alike R (fault f : Exec σ α) (Execution.fault f) := fun _ _ hs => .error _ hs

theorem Alike.bind {m : Exec σ α} {n : Exec τ α} {f : α → Exec σ β} {g : α → Exec τ β}
    (hm : Alike R m n) (hf : ∀ a, Alike R (f a) (g a)) : Alike R (m >>= f) (n >>= g) := by
  intro s t hs
  rcases hm.both hs with ⟨a, u, v, hrun, hrun', huv⟩ | ⟨stop, u, v, hrun, hrun', huv⟩
  · rw [bind_ok hrun, bind_ok hrun']
    exact hf a u v huv
  · rw [bind_error hrun, bind_error hrun']
    exact .error stop huv

theorem Alike.ite {c : Prop} [Decidable c] {m₁ m₂ : Exec σ α} {n₁ n₂ : Exec τ α}
    (h₁ : c → Alike R m₁ n₁) (h₂ : ¬ c → Alike R m₂ n₂) :
    Alike R (if c then m₁ else m₂) (if c then n₁ else n₂) := by
  by_cases hc : c
  · simpa only [hc, ↓reduceIte] using h₁ hc
  · simpa only [hc, ↓reduceIte] using h₂ hc

theorem Alike.assert (assertions condition : Bool) :
    Alike R (assert assertions condition : Exec σ Unit) (Execution.assert assertions condition) :=
  .ite (fun _ => .fault _) fun _ => .pure _

theorem Alike.catchAll {m : Exec σ α} {n : Exec τ α} {f : Exception → Exec σ α}
    {g : Exception → Exec τ α} (hm : Alike R m n) (hf : ∀ e, Alike R (f e) (g e)) :
    Alike R (catchAll m f) (Execution.catchAll n g) := by
  intro s t hs
  rcases hm.both hs with ⟨a, u, v, hrun, hrun', huv⟩ | ⟨stop, u, v, hrun, hrun', huv⟩
  · rw [catchAll_ok hrun, catchAll_ok hrun']
    exact .ok a huv
  · cases stop with
    | throws e =>
      rw [catchAll_throws hrun, catchAll_throws hrun']
      exact hf e u v huv
    | faults f =>
      rw [catchAll_faults hrun, catchAll_faults hrun']
      exact .error _ huv

/-- Sessions of commands that end alike answer alike. -/
theorem sessions_simulate {ι : Type} {command : ι → Exec σ α} {command' : ι → Exec τ α}
    (h : ∀ input, Alike R (command input) (command' input)) :
    Simulates R (session command) (session command') := by
  apply session_simulates
  intro input s t hs
  unfold session
  rcases (h input).both hs with ⟨a, u, v, hrun, hrun', huv⟩ | ⟨stop, u, v, hrun, hrun', huv⟩
  · rw [hrun, hrun']
    exact ⟨rfl, huv⟩
  · rw [hrun, hrun']
    exact ⟨rfl, huv⟩

end
end PdkHeaders.Library.Refinement
