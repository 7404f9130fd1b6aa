import PdkHeaders.Library.Execution

set_option autoImplicit false

/-!
# Histories of writes to an array

An array is what its reads return. A history of writes leaves at every index the last value
written there, so two histories with the same last writes end in the same state.
-/
namespace PdkHeaders.Library.Writes
open PdkHeaders.Library.Execution

section
variable {ι α : Type} [DecidableEq ι]

/-- The value of the last write at an index, if there is one. -/
def lastWrite (writes : List (ι × α)) (i : ι) : Option α :=
  (writes.filter fun write => write.1 = i).getLast?.map Prod.snd

theorem lastWrite_cons_self (i : ι) (a : α) (writes : List (ι × α)) :
    lastWrite ((i, a) :: writes) i = some ((lastWrite writes i).getD a) := by
  simp only [lastWrite, List.filter_cons, decide_true, ↓reduceIte, List.getLast?_cons,
    Option.map_some]
  cases (writes.filter fun write => write.1 = i).getLast? <;> rfl

theorem lastWrite_cons_of_ne {i j : ι} (h : i ≠ j) (a : α) (writes : List (ι × α)) :
    lastWrite ((i, a) :: writes) j = lastWrite writes j := by
  simp only [lastWrite, List.filter_cons, h, decide_false, Bool.false_eq_true, ↓reduceIte]

theorem lastWrite_swap {i j : ι} (h : i ≠ j) (a b : α) (writes : List (ι × α)) (k : ι) :
    lastWrite ((i, a) :: (j, b) :: writes) k = lastWrite ((j, b) :: (i, a) :: writes) k := by
  by_cases hi : i = k
  · subst hi
    rw [lastWrite_cons_self, lastWrite_cons_of_ne h.symm, lastWrite_cons_of_ne h.symm,
      lastWrite_cons_self]
  · rw [lastWrite_cons_of_ne hi]
    by_cases hj : j = k
    · subst hj
      rw [lastWrite_cons_self, lastWrite_cons_self, lastWrite_cons_of_ne hi]
    · rw [lastWrite_cons_of_ne hj, lastWrite_cons_of_ne hj, lastWrite_cons_of_ne hi]

end

section
variable {σ ι α : Type} [DecidableEq ι]
variable {valid : σ → Prop} {inRange : ι → Prop} {read : σ → ι → α} {step : ι × α → Exec σ Unit}

/-- A step writes one entry in range of the array that `read` sees, and no other entry. -/
def WritesTo (valid : σ → Prop) (inRange : ι → Prop) (read : σ → ι → α)
    (step : ι × α → Exec σ Unit) : Prop :=
  ∀ (i : ι) (a : α) (s : σ), valid s → inRange i →
    ∃ u, (step (i, a)).run s = .ok () u ∧ valid u ∧
      ∀ j, inRange j → read u j = if i = j then a else read s j

theorem runAll_writes (h : WritesTo valid inRange read step) {writes : List (ι × α)}
    (hrange : ∀ write ∈ writes, inRange write.1) {s : σ} (hs : valid s) :
    ∃ v, (runAll step writes).run s = .ok () v ∧ valid v ∧
      ∀ j, inRange j → read v j = (lastWrite writes j).getD (read s j) := by
  induction writes generalizing s with
  | nil => exact ⟨s, rfl, hs, fun _ _ => rfl⟩
  | cons write writes ih =>
    obtain ⟨i, a⟩ := write
    have hi : inRange i := hrange (i, a) (List.mem_cons_self ..)
    obtain ⟨u, hstep, hu, hread⟩ := h i a s hs hi
    obtain ⟨v, hrun, hv, hrest⟩ :=
      ih (fun write hwrite => hrange write (List.mem_cons_of_mem _ hwrite)) hu
    refine ⟨v, runAll_cons_ok.mpr ⟨u, hstep, hrun⟩, hv, ?_⟩
    intro j hj
    rw [hrest j hj, hread j hj]
    by_cases hij : i = j
    · subst hij
      rw [if_pos rfl, lastWrite_cons_self, Option.getD_some]
    · rw [if_neg hij, lastWrite_cons_of_ne hij]

/-- Where reads tell valid states apart, the last writes decide the final state. -/
theorem runAll_eq_of_lastWrite (h : WritesTo valid inRange read step)
    (hext : ∀ u v, valid u → valid v → (∀ j, inRange j → read u j = read v j) → u = v)
    {first second : List (ι × α)} (hfirst : ∀ write ∈ first, inRange write.1)
    (hsecond : ∀ write ∈ second, inRange write.1)
    (hlast : ∀ j, lastWrite first j = lastWrite second j) {s : σ} (hs : valid s) :
    (runAll step first).run s = (runAll step second).run s := by
  obtain ⟨u, hrun, hu, hread⟩ := runAll_writes h hfirst hs
  obtain ⟨v, hrun', hv, hread'⟩ := runAll_writes h hsecond hs
  have huv : u = v := by
    apply hext u v hu hv
    intro j hj
    rw [hread j hj, hread' j hj, hlast j]
  rw [hrun, hrun', huv]

theorem writes_commute (h : WritesTo valid inRange read step)
    (hext : ∀ u v, valid u → valid v → (∀ j, inRange j → read u j = read v j) → u = v)
    {i j : ι} (hi : inRange i) (hj : inRange j) (hne : i ≠ j) (a b : α) {s : σ} (hs : valid s) :
    (step (i, a) >>= fun _ => step (j, b)).run s =
      (step (j, b) >>= fun _ => step (i, a)).run s := by
  rw [← runAll_pair, ← runAll_pair]
  apply runAll_eq_of_lastWrite h hext
  · simp [hi, hj]
  · simp [hi, hj]
  · exact lastWrite_swap hne a b []
  · exact hs

end
end PdkHeaders.Library.Writes
