import Mathlib.Tactic.Common

set_option autoImplicit false

/-!
# Lists in blocks

Where each value is written as a block of `n` entries, a list of values is one flat list. What
is done to whole values is done to the flat list at the multiples of `n`, and one entry of a
block is one entry of the flat list.
-/
namespace PdkHeaders.Library.Blocks

section
variable {α β : Type} {f : α → List β} {n : ℕ}

theorem length_flatMap (hf : ∀ a, (f a).length = n) (xs : List α) :
    (xs.flatMap f).length = n * xs.length := by
  induction xs with
  | nil => rfl
  | cons a xs ih =>
    rw [List.flatMap_cons, List.length_append, hf, ih, List.length_cons, Nat.mul_succ]
    omega

theorem take_flatMap (hf : ∀ a, (f a).length = n) (xs : List α) (k : ℕ) :
    (xs.flatMap f).take (n * k) = (xs.take k).flatMap f := by
  induction xs generalizing k with
  | nil => simp
  | cons a xs ih =>
    cases k with
    | zero => simp
    | succ k =>
      rw [List.flatMap_cons, List.take_succ_cons, List.flatMap_cons, List.take_append, hf, ← ih,
        List.take_of_length_le (by rw [hf, Nat.mul_succ]; omega)]
      congr 2
      rw [Nat.mul_succ]
      omega

theorem drop_flatMap (hf : ∀ a, (f a).length = n) (xs : List α) (k : ℕ) :
    (xs.flatMap f).drop (n * k) = (xs.drop k).flatMap f := by
  induction xs generalizing k with
  | nil => simp
  | cons a xs ih =>
    cases k with
    | zero => simp
    | succ k =>
      rw [List.flatMap_cons, List.drop_succ_cons, List.drop_append, hf, ← ih,
        List.drop_eq_nil_of_le (by rw [hf, Nat.mul_succ]; omega), List.nil_append]
      congr 1
      rw [Nat.mul_succ]
      omega

/-- Entry `j` of block `k`. -/
theorem getElem?_flatMap (hf : ∀ a, (f a).length = n) (xs : List α) (k : ℕ) {j : ℕ}
    (hj : j < n) : (xs.flatMap f)[n * k + j]? = xs[k]?.bind fun a => (f a)[j]? := by
  induction xs generalizing k with
  | nil => simp
  | cons a xs ih =>
    cases k with
    | zero =>
      rw [List.flatMap_cons, Nat.mul_zero, Nat.zero_add,
        List.getElem?_append_left (by rw [hf]; exact hj)]
      rfl
    | succ k =>
      rw [List.flatMap_cons, List.getElem?_append_right (by rw [hf, Nat.mul_succ]; omega), hf,
        List.getElem?_cons_succ, ← ih]
      congr 1
      rw [Nat.mul_succ]
      omega

theorem set_flatMap (hf : ∀ a, (f a).length = n) {g : α → α} {j : ℕ} {b : β} (hj : j < n)
    (hg : ∀ a, f (g a) = (f a).set j b) (xs : List α) (k : ℕ) :
    (xs.flatMap f).set (n * k + j) b = (xs.modify k g).flatMap f := by
  induction xs generalizing k with
  | nil => simp
  | cons a xs ih =>
    cases k with
    | zero =>
      rw [List.flatMap_cons, Nat.mul_zero, Nat.zero_add, List.set_append,
        if_pos (by rw [hf]; exact hj), List.modify_zero_cons, List.flatMap_cons, hg]
    | succ k =>
      have hlate : ¬ n * (k + 1) + j < (f a).length := by rw [hf, Nat.mul_succ]; omega
      rw [List.flatMap_cons, List.set_append, if_neg hlate, List.modify_succ_cons,
        List.flatMap_cons, ← ih, hf]
      congr 2
      rw [Nat.mul_succ]
      omega

/-- Values that their blocks tell apart are told apart in the flat list. -/
theorem flatMap_inj (hf : ∀ a, (f a).length = n) (hn : n ≠ 0) {xs ys : List α}
    (hinj : ∀ a ∈ xs, ∀ b ∈ ys, f a = f b → a = b) :
    xs.flatMap f = ys.flatMap f ↔ xs = ys := by
  constructor
  · intro h
    induction xs generalizing ys with
    | nil =>
      have hlength := congrArg List.length h
      rw [length_flatMap hf, length_flatMap hf, List.length_nil, Nat.mul_zero] at hlength
      have hnil : ys.length = 0 := by
        cases Nat.mul_eq_zero.mp hlength.symm with
        | inl hzero => exact absurd hzero hn
        | inr hzero => exact hzero
      exact (List.length_eq_zero_iff.mp hnil).symm
    | cons a xs ih =>
      cases ys with
      | nil =>
        have hlength := congrArg List.length h
        rw [length_flatMap hf, List.flatMap_nil, List.length_cons, Nat.mul_succ,
          List.length_nil] at hlength
        omega
      | cons b ys =>
        rw [List.flatMap_cons, List.flatMap_cons] at h
        have hsplit := List.append_inj h ((hf a).trans (hf b).symm)
        have hhead := hinj a (List.mem_cons_self ..) b (List.mem_cons_self ..) hsplit.1
        have htail := ih (fun x hx y hy => hinj x (List.mem_cons_of_mem _ hx) y
          (List.mem_cons_of_mem _ hy)) hsplit.2
        rw [hhead, htail]
  · intro h
    rw [h]

end
end PdkHeaders.Library.Blocks
