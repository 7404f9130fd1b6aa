import PdkHeaders.ShareIterators
import PdkHeaders.ShareVecBits
import PdkHeaders.Library.Sessions

set_option autoImplicit false

/-!
# Share vectors

The operations of a flat vector of shares. Each vector of a program has a name, and iterators
into it carry that name.
-/
namespace PdkHeaders.ShareVectors
open PdkHeaders.Library.Execution PdkHeaders.Library.Sessions PdkHeaders.ShareIterators
  PdkHeaders.ShareVecBits

section Operations
variable {α : Type} (x y : ℕ)

def vecBegin : ShareIterator := ⟨⟨x, 0⟩⟩

def vecEnd (vectors : Vectors α) : ShareIterator := ⟨⟨x, (vectors x).length⟩⟩

def store (elements : List α) : Exec (Vectors α) Unit :=
  modify fun vectors => Function.update vectors x elements

/-- Iterators that go over one vector other than `x`, the second not before the first. Nothing
else may be read from while `x` changes. -/
def ValidRange (first last : ShareIterator) (length : ℕ → ℕ) : Prop :=
  first.getInner.vec ≠ x ∧ first.getInner.vec = last.getInner.vec ∧ 0 ≤ first.getInner.index ∧
    first.getInner.index ≤ last.getInner.index ∧
    last.getInner.index ≤ length last.getInner.vec

instance (first last : ShareIterator) (length : ℕ → ℕ) :
    Decidable (ValidRange x first last length) :=
  inferInstanceAs (Decidable (_ ∧ _ ∧ _ ∧ _ ∧ _))

def between (first last : ShareIterator) (elements : List α) : List α :=
  (elements.take last.getInner.index.toNat).drop first.getInner.index.toNat

def readRange (first last : ShareIterator) : Exec (Vectors α) (List α) := do
  let vectors ← get
  if ValidRange x first last (fun vec => (vectors vec).length) then
    return between first last (vectors first.getInner.vec)
  else fault .badAccess

def constructSized (size : ℕ) (defaultValue : α) : Exec (Vectors α) Unit :=
  store x (List.replicate size defaultValue)

def constructRange (first last : ShareIterator) : Exec (Vectors α) Unit := do
  store x (← readRange x first last)

/-- `ShareVec(ShareVec&& other)` leaves the other vector empty. -/
def constructMove : Exec (Vectors α) Unit := do
  if x = y then
    fault .badAccess
  else
    store x ((← get) y)
    store y []

def swap : Exec (Vectors α) Unit := do
  let vectors ← get
  store x (vectors y)
  store y (vectors x)

def size : Exec (Vectors α) ℕ := do
  return ((← get) x).length

def empty : Exec (Vectors α) Bool := do
  return ((← get) x).isEmpty

/-- New elements are `value_type {}`. -/
def resize (zero : α) (sz : ℕ) : Exec (Vectors α) Unit := do
  let elements := (← get) x
  store x (elements.take sz ++ List.replicate (sz - elements.length) zero)

def clearAndRelease : Exec (Vectors α) Unit := store x []

section
variable (assertions : Bool)

def element (i : ℕ) : Exec (Vectors α) α := do
  let vectors ← get
  assert assertions (i < (vectors x).length)
  defined (vectors x)[i]?

def assignElement (i : ℕ) (value : α) : Exec (Vectors α) Unit := do
  let vectors ← get
  assert assertions (i < (vectors x).length)
  if i < (vectors x).length then
    store x ((vectors x).set i value)
  else fault .badAccess

end

def insert (pos first last : ShareIterator) : Exec (Vectors α) Unit := do
  let elements := (← get) x
  let inserted ← readRange x first last
  let position := pos.getInner.index
  if pos.getInner.vec = x ∧ 0 ≤ position ∧ position ≤ elements.length then
    store x (elements.take position.toNat ++ inserted ++ elements.drop position.toNat)
  else fault .badAccess

def assign (first last : ShareIterator) : Exec (Vectors α) Unit := do
  store x (← readRange x first last)

def pushBack (value : α) : Exec (Vectors α) Unit := do
  store x ((← get) x ++ [value])

def assignVec : Exec (Vectors α) Unit := do
  assign x (vecBegin y) (vecEnd y (← get))

def assignFill (n : ℕ) (value : α) : Exec (Vectors α) Unit :=
  store x (List.replicate n value)

def equal [DecidableEq α] : Exec (Vectors α) Bool := do
  let vectors ← get
  return vectors x = vectors y

def notEqual [DecidableEq α] : Exec (Vectors α) Bool := do
  let vectors ← get
  return vectors x ≠ vectors y

end Operations

section Zoom
variable {T : ShareTraits} {β : Type} {vectors : Vectors T.shareType.Value} {x : ℕ}
  {m : Exec (ShareVec T) β} {vec : ShareVec T}

def onVector (x : ℕ) (m : Exec (ShareVec T) β) : Exec (Vectors T.shareType.Value) β :=
  zoom (fun vectors => ⟨vectors x⟩) (fun vec vectors => Function.update vectors x vec.mVector) m

theorem onVector_ok {b : β} (h : m.run ⟨vectors x⟩ = .ok b vec) :
    (onVector x m).run vectors = .ok b (Function.update vectors x vec.mVector) := zoom_ok h

theorem onVector_read {b : β} (h : m.run ⟨vectors x⟩ = .ok b ⟨vectors x⟩) :
    (onVector x m).run vectors = .ok b vectors := by
  rw [onVector_ok h, Function.update_eq_self]

theorem onVector_error {stop : Stop} (h : m.run ⟨vectors x⟩ = .error stop ⟨vectors x⟩) :
    (onVector x m).run vectors = .error stop vectors := by
  have hrun : (onVector x m).run vectors =
      .error stop (Function.update vectors x (vectors x)) := zoom_error h
  rwa [Function.update_eq_self] at hrun

end Zoom

end PdkHeaders.ShareVectors
