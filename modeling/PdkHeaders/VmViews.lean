import PdkHeaders.Library.ByteMemory
import PdkHeaders.Library.Sessions
import PdkHeaders.VmVector

set_option autoImplicit false

/-!
# Views of VM memory

A vector over a reference is an array of as many objects as fit into the reference. The objects
are read and assigned to in the memory of the VM, which the vectors do not own.
-/
namespace PdkHeaders.VmViews
open PdkHeaders.Library.Execution PdkHeaders.Library.Sessions PdkHeaders.Library.Transcript
  PdkHeaders.Library.ByteMemory PdkHeaders.SyscallsCommon PdkHeaders.VmVector

/-- The base class is the one of `ImmutableVmVec`, up to `const`. -/
structure MutableVmVec (Ty : Type) extends ImmutableVmVec Ty

section Vectors
variable {σ Ty : Type} [ValueTraits Ty]

variable (vec : ImmutableVmVec Ty)

def elementSize : ℕ := ValueTraits.sizeofPublicType vec.valueType

def size : ℕ := vec.mSize

def empty : Bool := vec.mSize = 0

/-- `operator []` on values, which are their object representations. It checks no bound. -/
def element (i : ℕ) : Exec Memory (List UInt8) := do
  match readObject (← get) vec.mBegin (elementSize vec) i with
  | some value => return value
  | none => fault .badAccess

def assignElement (vec : MutableVmVec Ty) (i : ℕ) (value : List UInt8) : Exec Memory Unit := do
  match readObject (← get) vec.mBegin (elementSize vec.toImmutableVmVec) i with
  | some _ =>
    modify fun mem => writeObject mem vec.mBegin (elementSize vec.toImmutableVmVec) i value
  | none => fault .badAccess

end Vectors

structure Views (Ty : Type) where
  mutables : ℕ → MutableVmVec Ty
  immutables : ℕ → ImmutableVmVec Ty

inductive Name where
  | mutable (k : ℕ)
  | immutable (k : ℕ)

def Views.get {Ty : Type} (views : Views Ty) : Name → ImmutableVmVec Ty
  | .mutable k => (views.mutables k).toImmutableVmVec
  | .immutable k => views.immutables k

section Sessions
variable {Ty : Type} [ValueTraits Ty] (views : Views Ty)

inductive Command where
  | size (name : Name)
  | empty (name : Name)
  | element (name : Name) (i : ℕ)
  | assignElement (k i : ℕ)
    (value : Vector UInt8 (elementSize (views.mutables k).toImmutableVmVec))

inductive Answer where
  | done
  | number (n : ℕ)
  | bool (b : Bool)
  | value (bytes : List UInt8)
  deriving DecidableEq

variable {views}

def perform : Command views → Exec Memory Answer
  | .size name => return .number (size (views.get name))
  | .empty name => return .bool (empty (views.get name))
  | .element name i => return .value (← element (views.get name) i)
  | .assignElement k i value => do
    assignElement (views.mutables k) i value.toList
    return .done

def InRange : Command views → Prop
  | .size _ | .empty _ => True
  | .element name i => i < size (views.get name)
  | .assignElement k i _ => i < size (views.mutables k).toImmutableVmVec

/-- An array for each vector. Vectors of the same reference share it. -/
abbrev Arrays (Ty : Type) := ImmutableVmVec Ty → List (List UInt8)

def arrayMachine [DecidableEq Ty] : Machine (Arrays Ty) (Command views) (Except Stop Answer)
  | .size name, arrays => (.ok (.number (arrays (views.get name)).length), arrays)
  | .empty name, arrays => (.ok (.bool (arrays (views.get name)).isEmpty), arrays)
  | .element name i, arrays =>
    match (arrays (views.get name))[i]? with
    | some bytes => (.ok (.value bytes), arrays)
    | none => (.error (.faults .badAccess), arrays)
  | .assignElement k i value, arrays =>
    let vec := (views.mutables k).toImmutableVmVec
    (.ok .done, Function.update arrays vec ((arrays vec).set i value.toList))

end Sessions

section Memory
variable {Ty : Type} [ValueTraits Ty]

def arraysOf (mem : Memory) : Arrays Ty := fun vec =>
  objects mem vec.mBegin (elementSize vec) vec.mSize

def bytesOf (vec : ImmutableVmVec Ty) : ℕ := elementSize vec * vec.mSize

def Apart (vec other : ImmutableVmVec Ty) : Prop :=
  vec.mBegin + bytesOf vec ≤ other.mBegin ∨ other.mBegin + bytesOf other ≤ vec.mBegin

/-- A vector that is assigned to is apart from all others but those of the same reference. -/
structure Separate (views : Views Ty) (mem : Memory) : Prop where
  mapped : ∀ name, Mapped mem (views.get name).mBegin (bytesOf (views.get name))
  apart : ∀ k name, views.get name = (views.mutables k).toImmutableVmVec ∨
    Apart (views.mutables k).toImmutableVmVec (views.get name)

variable {views : Views Ty} {mem : Memory} {arrays : Arrays Ty}

/-- The arrays are what is stored, and only the objects of mutable vectors have changed. -/
structure Stores (views : Views Ty) (initial mem : Memory) (arrays : Arrays Ty) : Prop where
  separate : Separate views mem
  objects : ∀ name, arrays (views.get name) = arraysOf mem (views.get name)
  elsewhere : ∀ p, (∀ k, p < (views.mutables k).mBegin ∨
    (views.mutables k).mBegin + bytesOf (views.mutables k).toImmutableVmVec ≤ p) →
      mem p = initial p

variable {initial : Memory}

theorem Stores.length (h : Stores views initial mem arrays) (name : Name) :
    (arrays (views.get name)).length = size (views.get name) := by
  rw [h.objects, arraysOf, length_objects, size]

theorem Stores.element (h : Stores views initial mem arrays) (name : Name) {i : ℕ}
    (hi : i < size (views.get name)) :
    (arrays (views.get name))[i]? =
      readObject mem (views.get name).mBegin (elementSize (views.get name)) i := by
  rw [h.objects]
  exact (h.separate.mapped name).object hi

theorem Stores.readable (h : Stores views initial mem arrays) (name : Name) {i : ℕ}
    (hi : i < size (views.get name)) :
    ∃ bytes, readObject mem (views.get name).mBegin (elementSize (views.get name)) i =
      some bytes := by
  rw [← h.element name hi]
  exact ⟨_, List.getElem?_eq_getElem (by rw [h.length]; exact hi)⟩

theorem writeObject_elsewhere {p q n i count : ℕ} {value : List UInt8} (hvalue : value.length = n)
    (hi : i < count) (h : q < p ∨ p + n * count ≤ q) :
    writeObject mem p n i value q = mem q := by
  have hend := object_end (n := n) hi
  apply writeBytes_outside
  omega

theorem Stores.assign [DecidableEq Ty] (h : Stores views initial mem arrays) {k i : ℕ}
    (hi : i < size (views.mutables k).toImmutableVmVec) {value : List UInt8}
    (hvalue : value.length = elementSize (views.mutables k).toImmutableVmVec) :
    let vec := (views.mutables k).toImmutableVmVec
    Stores views initial (writeObject mem vec.mBegin (elementSize vec) i value)
      (Function.update arrays vec ((arrays vec).set i value)) := by
  intro vec
  have hend : elementSize vec * i + elementSize vec ≤ bytesOf vec := object_end hi
  have harray : arrays vec = arraysOf mem vec := h.objects (.mutable k)
  have hassigned : (arrays vec).set i value =
      arraysOf (writeObject mem vec.mBegin (elementSize vec) i value) vec := by
    rw [harray]
    exact (objects_writeObject hvalue hi).symm
  refine ⟨⟨?_, h.separate.apart⟩, ?_, ?_⟩
  · intro name
    exact (h.separate.mapped name).write _ _
  · intro name
    cases h.separate.apart k name with
    | inl hsame =>
      rw [hsame, Function.update_self]
      exact hassigned
    | inr hapart =>
      by_cases hsame : views.get name = vec
      · rw [hsame, Function.update_self]
        exact hassigned
      · rw [Function.update_of_ne hsame, h.objects]
        apply Eq.symm
        apply objects_apart
        have hlength : value.length = elementSize vec := hvalue
        rw [hlength]
        cases hapart with
        | inl hbefore =>
          left
          rw [Nat.add_assoc]
          exact Nat.le_trans (Nat.add_le_add_left hend _) hbefore
        | inr hafter => exact .inr (Nat.le_trans hafter (Nat.le_add_right _ _))
  · intro p hp
    rw [writeObject_elsewhere hvalue hi (hp k), h.elsewhere p hp]

end Memory

section Runs
variable {Ty : Type} {mem : Memory}

variable [ValueTraits Ty]

theorem element_run {vec : ImmutableVmVec Ty} {i : ℕ} {bytes : List UInt8}
    (h : readObject mem vec.mBegin (elementSize vec) i = some bytes) :
    (element vec i).run mem = .ok bytes mem := by
  rw [element, bind_ok (EStateM.run_get mem), h]
  rfl

theorem assignElement_run {vec : MutableVmVec Ty} {i : ℕ} {bytes : List UInt8}
    (h : readObject mem vec.mBegin (elementSize vec.toImmutableVmVec) i = some bytes)
    (value : List UInt8) :
    (assignElement vec i value).run mem =
      .ok () (writeObject mem vec.mBegin (elementSize vec.toImmutableVmVec) i value) := by
  rw [assignElement, bind_ok (EStateM.run_get mem), h]
  rfl

end Runs

section Simulation
variable {Ty : Type} [ValueTraits Ty] [DecidableEq Ty] {views : Views Ty} {initial mem : Memory}
  {arrays : Arrays Ty}

theorem command_matches (command : Command views) (hrange : InRange command)
    (h : Stores views initial mem arrays) :
    Matches (Stores views initial) (arrayMachine command arrays)
      ((perform command).run mem) := by
  cases command with
  | size name =>
    rw [arrayMachine, h.length]
    exact ⟨rfl, h⟩
  | empty name =>
    have hempty : (arrays (views.get name)).isEmpty = empty (views.get name) := by
      rw [Bool.eq_iff_iff, List.isEmpty_iff_length_eq_zero, h.length]
      exact decide_eq_true_iff.symm
    rw [arrayMachine, hempty]
    exact ⟨rfl, h⟩
  | element name i =>
    obtain ⟨bytes, hbytes⟩ := h.readable name hrange
    rw [arrayMachine, h.element name hrange, hbytes, perform, bind_ok (element_run hbytes)]
    exact ⟨rfl, h⟩
  | assignElement k i value =>
    obtain ⟨bytes, hbytes⟩ := h.readable (.mutable k) hrange
    rw [arrayMachine, perform, bind_ok (assignElement_run hbytes _)]
    exact ⟨rfl, h.assign hrange value.length_toList⟩

end Simulation

section References
variable {Ty : Type} [ValueTraits Ty]

abbrev Typed (Ty : Type) := Ty × Reference

def viewOf (ref : Typed Ty) : ImmutableVmVec Ty :=
  ⟨ref.1, ref.2.pData, ref.2.size / ValueTraits.sizeofPublicType ref.1⟩

def viewsOf (refs crefs : ℕ → Typed Ty) : Views Ty where
  mutables k := ⟨viewOf (refs k)⟩
  immutables k := viewOf (crefs k)

/-- The references are to mapped memory, and one that is not constant overlaps another only if it
is the same with the same value type. -/
structure Granted (refs crefs : ℕ → Typed Ty) (mem : Memory) : Prop where
  mappedRefs : ∀ k, Mapped mem (refs k).2.pData (refs k).2.size
  mappedCRefs : ∀ k, Mapped mem (crefs k).2.pData (crefs k).2.size
  apart : ∀ k ref, (∃ j, ref = refs j ∨ ref = crefs j) → ref = refs k ∨
    (refs k).2.pData + (refs k).2.size ≤ ref.2.pData ∨ ref.2.pData + ref.2.size ≤ (refs k).2.pData

theorem bytesOf_le (ref : Typed Ty) : bytesOf (viewOf ref) ≤ ref.2.size := Nat.mul_div_le _ _

theorem Granted.separate {refs crefs : ℕ → Typed Ty} {mem : Memory}
    (h : Granted refs crefs mem) : Separate (viewsOf refs crefs) mem where
  mapped name := by
    cases name with
    | mutable k => exact fun j hj => h.mappedRefs k j (Nat.lt_of_lt_of_le hj (bytesOf_le (refs k)))
    | immutable k =>
      exact fun j hj => h.mappedCRefs k j (Nat.lt_of_lt_of_le hj (bytesOf_le (crefs k)))
  apart k name := by
    have hname : ∃ ref, (∃ j, ref = refs j ∨ ref = crefs j) ∧
        (viewsOf refs crefs).get name = viewOf ref := by
      cases name with
      | mutable j => exact ⟨refs j, ⟨j, .inl rfl⟩, rfl⟩
      | immutable j => exact ⟨crefs j, ⟨j, .inr rfl⟩, rfl⟩
    obtain ⟨ref, hmem, hview⟩ := hname
    rw [hview]
    rcases h.apart k ref hmem with hsame | hbefore | hafter
    · rw [hsame]
      exact .inl rfl
    · exact .inr (.inl (Nat.le_trans (Nat.add_le_add_left (bytesOf_le (refs k)) _) hbefore))
    · exact .inr (.inr (Nat.le_trans (Nat.add_le_add_left (bytesOf_le ref) _) hafter))

end References

section Instance

end Instance

end PdkHeaders.VmViews
