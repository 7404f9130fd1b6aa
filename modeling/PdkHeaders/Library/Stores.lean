import Mathlib.Logic.Function.Basic
import Mathlib.Tactic.Common

set_option autoImplicit false

/-!
# Stores of cells

Cells live at addresses below a bound that only grows, so an address is never given out twice.
-/
namespace PdkHeaders.Library.Stores

structure Store (α : Type) where
  cell : ℕ → Option α
  bound : ℕ
  fresh : ∀ n, bound ≤ n → cell n = none

namespace Store
variable {α : Type} (s : Store α) (n m : ℕ) (a b : α)

def empty : Store α where
  cell _ := none
  bound := 0
  fresh _ _ := rfl

def alloc : Store α where
  cell := Function.update s.cell s.bound (some a)
  bound := s.bound + 1
  fresh n hn := by
    have hne : n ≠ s.bound := by omega
    rw [Function.update_of_ne hne]
    exact s.fresh n (by omega)

/-- Only a live cell can be modified. -/
def modify (f : α → α) : Store α where
  cell := Function.update s.cell n ((s.cell n).map f)
  bound := s.bound
  fresh m hm := by
    by_cases hmn : m = n
    · rw [hmn, Function.update_self, ← hmn, s.fresh m hm]
      rfl
    · rw [Function.update_of_ne hmn]
      exact s.fresh m hm

def free : Store α where
  cell := Function.update s.cell n none
  bound := s.bound
  fresh m hm := by
    by_cases hmn : m = n
    · rw [hmn, Function.update_self]
    · rw [Function.update_of_ne hmn]
      exact s.fresh m hm

variable {s n m a b} {f : α → α}

theorem lt_bound_of_live (h : s.cell n ≠ none) : n < s.bound := by
  by_contra hn
  exact h (s.fresh n (by omega))

theorem lt_bound (h : s.cell n = some a) : n < s.bound :=
  lt_bound_of_live (by rw [h]; exact Option.some_ne_none a)

@[simp] theorem alloc_bound : (s.alloc a).bound = s.bound + 1 := rfl
@[simp] theorem modify_bound : (s.modify n f).bound = s.bound := rfl
@[simp] theorem free_bound : (s.free n).bound = s.bound := rfl

@[simp] theorem alloc_self : (s.alloc a).cell s.bound = some a := Function.update_self _ _ _

theorem alloc_of_lt (h : m < s.bound) : (s.alloc a).cell m = s.cell m :=
  Function.update_of_ne (by omega) _ _

theorem alloc_of_some (h : s.cell m = some b) : (s.alloc a).cell m = some b :=
  (alloc_of_lt (lt_bound h)).trans h

@[simp] theorem modify_self : (s.modify n f).cell n = (s.cell n).map f :=
  Function.update_self _ _ _

theorem modify_of_ne (h : m ≠ n) : (s.modify n f).cell m = s.cell m :=
  Function.update_of_ne h _ _

@[simp] theorem free_self : (s.free n).cell n = none := Function.update_self _ _ _

theorem free_of_ne (h : m ≠ n) : (s.free n).cell m = s.cell m := Function.update_of_ne h _ _

theorem free_eq_none (h : s.cell m = none) : (s.free n).cell m = none := by
  by_cases hmn : m = n
  · rw [hmn, free_self]
  · rw [free_of_ne hmn, h]

end Store
end PdkHeaders.Library.Stores
