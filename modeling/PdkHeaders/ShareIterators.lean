import Mathlib.Algebra.Group.Int.Defs
import PdkHeaders.ChainedIterators

set_option autoImplicit false

/-!
# Share iterators

Iterators over the elements of share vectors, which are the inner iterators that chains are made
for.
-/
namespace PdkHeaders.ShareIterators
open PdkHeaders.Library.Execution PdkHeaders.ChainedIterators

/-- An iterator of `std::vector`: the vector it goes over, and how far it is from the first
element. -/
structure VectorIterator where
  vec : ℕ
  index : ℤ
  deriving DecidableEq, Repr, Inhabited

def VectorIterator.advance (it : VectorIterator) (v : ℤ) : VectorIterator := ⟨it.vec, it.index + v⟩

structure ShareIterator where
  mIt : VectorIterator
  deriving DecidableEq, Repr, Inhabited

section Operators
variable {σ : Type} (it rhs : ShareIterator) (v : ℤ)

def ShareIterator.addAssign : ShareIterator := ⟨it.mIt.advance v⟩
def ShareIterator.subAssign : ShareIterator := ⟨it.mIt.advance (-v)⟩
def ShareIterator.increment : ShareIterator := ⟨it.mIt.advance 1⟩
def ShareIterator.decrement : ShareIterator := ⟨it.mIt.advance (-1)⟩
def ShareIterator.add : ShareIterator := ⟨it.mIt.advance v⟩
def ShareIterator.sub : ShareIterator := ⟨it.mIt.advance (-v)⟩

/-- `m_it op rhs.m_it`. Iterators of different vectors must not be compared. -/
def ShareIterator.compare {α : Type} (op : ℤ → ℤ → α) : Exec σ α :=
  if it.mIt.vec = rhs.mIt.vec then pure (op it.mIt.index rhs.mIt.index) else fault .badAccess

def ShareIterator.difference : Exec σ ℤ := it.compare rhs fun i j => i - j
def ShareIterator.equal : Exec σ Bool := it.compare rhs fun i j => i = j
def ShareIterator.notEqual : Exec σ Bool := it.compare rhs fun i j => i ≠ j
def ShareIterator.lessEqual : Exec σ Bool := it.compare rhs fun i j => i ≤ j
def ShareIterator.greaterEqual : Exec σ Bool := it.compare rhs fun i j => j ≤ i
def ShareIterator.less : Exec σ Bool := it.compare rhs fun i j => i < j
def ShareIterator.greater : Exec σ Bool := it.compare rhs fun i j => j < i

def ShareIterator.getInner : VectorIterator := it.mIt

end Operators

section Steps
variable (it : ShareIterator)

theorem advance_advance (p : VectorIterator) (v u : ℤ) :
    (p.advance v).advance u = p.advance (v + u) := by
  simp only [VectorIterator.advance, Int.add_assoc]

theorem advance_zero (p : VectorIterator) : p.advance 0 = p := by
  simp only [VectorIterator.advance, Int.add_zero]

/-- The distance between iterators of one vector leads from one to the other, and every comparison
is one of the distance with zero. -/
theorem distance_decides {σ : Type} {rhs : ShareIterator} (hvec : it.mIt.vec = rhs.mIt.vec)
    (s : σ) :
    ∃ d, (it.difference rhs).run s = .ok d s ∧
      rhs.add d = it ∧ rhs.addAssign d = it ∧ it.sub d = rhs ∧ it.subAssign d = rhs ∧
      (it.equal rhs).run s = .ok (decide (d = 0)) s ∧
      (it.notEqual rhs).run s = .ok (decide (d ≠ 0)) s ∧
      (it.lessEqual rhs).run s = .ok (decide (d ≤ 0)) s ∧
      (it.greaterEqual rhs).run s = .ok (decide (0 ≤ d)) s ∧
      (it.less rhs).run s = .ok (decide (d < 0)) s ∧
      (it.greater rhs).run s = .ok (decide (0 < d)) s := by
  have hcompare : ∀ {α : Type} (op : ℤ → ℤ → α), (it.compare rhs op).run s =
      .ok (op it.mIt.index rhs.mIt.index) s := by
    intro α op
    simp [ShareIterator.compare, hvec]
  have hforth : rhs.mIt.advance (it.mIt.index - rhs.mIt.index) = it.mIt := by
    simp [VectorIterator.advance, ← hvec]
  have hback : it.mIt.advance (-(it.mIt.index - rhs.mIt.index)) = rhs.mIt := by
    simp [VectorIterator.advance, hvec]
  refine ⟨it.mIt.index - rhs.mIt.index, hcompare _, congrArg ShareIterator.mk hforth,
    congrArg ShareIterator.mk hforth, congrArg ShareIterator.mk hback,
    congrArg ShareIterator.mk hback, ?_⟩
  simp only [ShareIterator.equal, ShareIterator.notEqual, ShareIterator.lessEqual,
    ShareIterator.greaterEqual, ShareIterator.less, ShareIterator.greater, hcompare]
  simp only [EStateM.Result.ok.injEq, and_true, decide_eq_decide]
  omega

theorem decrement_increment : it.increment.decrement = it := by
  simp only [ShareIterator.increment, ShareIterator.decrement, advance_advance]
  exact congrArg ShareIterator.mk (advance_zero it.mIt)

theorem increment_decrement : it.decrement.increment = it := by
  simp only [ShareIterator.increment, ShareIterator.decrement, advance_advance]
  exact congrArg ShareIterator.mk (advance_zero it.mIt)

/-- `n` steps are one `+= n`. -/
theorem iterate_increment (n : ℕ) : ShareIterator.increment^[n] it = it.addAssign n := by
  induction n with
  | zero => exact (congrArg ShareIterator.mk (advance_zero it.mIt)).symm
  | succ n ih =>
    rw [Function.iterate_succ_apply', ih]
    simp only [ShareIterator.increment, ShareIterator.addAssign, advance_advance]
    rfl

theorem addAssign_inj {v u : ℤ} : it.addAssign v = it.addAssign u ↔ v = u := by
  simp only [ShareIterator.addAssign, VectorIterator.advance, ShareIterator.mk.injEq,
    VectorIterator.mk.injEq, true_and]
  omega

instance : InnerIterator ShareIterator where
  increment := ShareIterator.increment
  decrement := ShareIterator.decrement
  decrement_increment := decrement_increment
  increment_decrement := increment_decrement
  acyclic n it h := by
    rw [iterate_increment] at h
    have hzero : it.addAssign (n + 1 : ℕ) = it.addAssign (0 : ℕ) :=
      h.trans (iterate_increment it 0)
    have heq := (addAssign_inj it).mp hzero
    omega

end Steps

abbrev Vectors (α : Type) := ℕ → List α

section Elements
variable {α : Type} (vectors : Vectors α) (it : ShareIterator)

def element? : Option α :=
  if 0 ≤ it.mIt.index then (vectors it.mIt.vec)[it.mIt.index.toNat]? else none

def setElement (a : α) : Vectors α :=
  Function.update vectors it.mIt.vec ((vectors it.mIt.vec).set it.mIt.index.toNat a)

def readElement : Exec (Vectors α) α := do
  match element? (← get) it with
  | some a => return a
  | none => fault .badAccess

def writeElement (a : α) : Exec (Vectors α) Unit := do
  match element? (← get) it with
  | some _ => modify fun vectors => setElement vectors it a
  | none => fault .badAccess

variable {vectors it} {a b : α}

theorem readElement_run (h : element? vectors it = some a) :
    (readElement it).run vectors = .ok a vectors := by
  rw [readElement, bind_ok (EStateM.run_get vectors), h]
  rfl

theorem writeElement_run (h : element? vectors it = some b) :
    (writeElement it a).run vectors = .ok () (setElement vectors it a) := by
  rw [writeElement, bind_ok (EStateM.run_get vectors), h]
  rfl

theorem element?_setElement_self (h : element? vectors it = some b) :
    element? (setElement vectors it a) it = some a := by
  unfold element? setElement at *
  split at h
  · rename_i hindex
    have hlt : it.mIt.index.toNat < (vectors it.mIt.vec).length :=
      (List.getElem?_eq_some_iff.mp h).1
    rw [if_pos hindex, Function.update_self, List.getElem?_set_self hlt]
  · cases h

theorem element?_setElement_of_ne {other : ShareIterator} (h : element? vectors it = some b)
    (hne : other ≠ it) : element? (setElement vectors it a) other = element? vectors other := by
  unfold element? setElement at *
  split at h
  · rename_i hindex
    by_cases hvec : other.mIt.vec = it.mIt.vec
    · rw [hvec, Function.update_self]
      split
      · rename_i hother
        have hdiff : it.mIt.index.toNat ≠ other.mIt.index.toNat := by
          intro heq
          apply hne
          obtain ⟨⟨vec, i⟩⟩ := it
          obtain ⟨⟨vec', j⟩⟩ := other
          simp only at hvec heq hindex hother
          subst hvec
          have hij : j = i := by omega
          rw [hij]
        rw [List.getElem?_set_ne hdiff]
      · rfl
    · rw [Function.update_of_ne hvec]
  · cases h

end Elements

end PdkHeaders.ShareIterators
