import Mathlib.Tactic.Common

set_option autoImplicit false

/-!
# Machines that answer

A machine answers each input and moves on. A simulation between two machines carries whole
histories of answers over from one to the other.
-/
namespace PdkHeaders.Library.Transcript

abbrev Machine (σ ι ο : Type) := ι → σ → ο × σ

section
variable {σ τ ι ο : Type}

def after (m : Machine σ ι ο) : List ι → σ → σ
  | [], s => s
  | input :: inputs, s => after m inputs (m input s).2

def transcript (m : Machine σ ι ο) : List ι → σ → List (ι × ο)
  | [], _ => []
  | input :: inputs, s => (input, (m input s).1) :: transcript m inputs (m input s).2

@[simp] theorem after_nil (m : Machine σ ι ο) (s : σ) : after m [] s = s := rfl
@[simp] theorem transcript_nil (m : Machine σ ι ο) (s : σ) : transcript m [] s = [] := rfl

/-- What holds of the first state and its empty transcript, and is kept by each further input,
holds of every history. -/
theorem history_invariant (m : Machine σ ι ο) (I : List (ι × ο) → σ → Prop) {s : σ}
    (hstart : I [] s)
    (hstep : ∀ log u input, I log u → I (log ++ [(input, (m input u).1)]) (m input u).2)
    (inputs : List ι) : I (transcript m inputs s) (after m inputs s) := by
  have hall : ∀ log u, I log u → I (log ++ transcript m inputs u) (after m inputs u) := by
    induction inputs with
    | nil =>
      intro log u hu
      simpa only [transcript_nil, List.append_nil, after_nil] using hu
    | cons input inputs ih =>
      intro log u hu
      have hrest := ih _ _ (hstep log u input hu)
      rw [List.append_assoc, List.singleton_append] at hrest
      exact hrest
  exact hall [] s hstart

def Simulates (R : σ → τ → Prop) (m : Machine σ ι ο) (n : Machine τ ι ο) : Prop :=
  ∀ input s t, R s t → (m input s).1 = (n input t).1 ∧ R (m input s).2 (n input t).2

variable {R : σ → τ → Prop} {m : Machine σ ι ο} {n : Machine τ ι ο}

theorem Simulates.after (h : Simulates R m n) (inputs : List ι) {s : σ} {t : τ} (hs : R s t) :
    R (after m inputs s) (after n inputs t) := by
  induction inputs generalizing s t with
  | nil => exact hs
  | cons input inputs ih => exact ih (h input s t hs).2

theorem Simulates.transcript (h : Simulates R m n) (inputs : List ι) {s : σ} {t : τ}
    (hs : R s t) : transcript m inputs s = transcript n inputs t := by
  induction inputs generalizing s t with
  | nil => rfl
  | cons input inputs ih =>
    have hstep := h input s t hs
    simp only [Transcript.transcript, hstep.1, ih hstep.2]

end
end PdkHeaders.Library.Transcript
