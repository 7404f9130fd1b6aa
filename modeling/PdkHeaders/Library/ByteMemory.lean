import Mathlib.Logic.Function.Basic
import Mathlib.Tactic.Common

set_option autoImplicit false

/-!
# Byte memory

Bytes by address, of which some are mapped. An array of objects of `n` bytes is stored one object
after another, and a store to one object leaves all bytes of the others as they are.
-/
namespace PdkHeaders.Library.ByteMemory

abbrev Memory := ℕ → Option UInt8

def readBytes (mem : Memory) : ℕ → ℕ → Option (List UInt8)
  | _, 0 => some []
  | p, n + 1 => do
    let byte ← mem p
    let bytes ← readBytes mem (p + 1) n
    return byte :: bytes

def writeBytes (mem : Memory) : ℕ → List UInt8 → Memory
  | _, [] => mem
  | p, byte :: bytes => writeBytes (Function.update mem p (some byte)) (p + 1) bytes

section Bytes
variable {mem other : Memory} {p q n : ℕ} {bytes : List UInt8}

theorem writeBytes_outside (h : q < p ∨ p + bytes.length ≤ q) :
    writeBytes mem p bytes q = mem q := by
  induction bytes generalizing mem p with
  | nil => rfl
  | cons byte bytes ih =>
    rw [List.length_cons] at h
    rw [writeBytes, ih (by omega), Function.update_of_ne (by omega)]

theorem readBytes_congr (h : ∀ j < n, mem (p + j) = other (p + j)) :
    readBytes mem p n = readBytes other p n := by
  induction n generalizing p with
  | zero => rfl
  | succ n ih =>
    have hfirst := h 0 (by omega)
    have hrest : readBytes mem (p + 1) n = readBytes other (p + 1) n := by
      apply ih
      intro j hj
      have hnext := h (j + 1) (by omega)
      rwa [← Nat.add_assoc, Nat.add_right_comm] at hnext
    rw [Nat.add_zero] at hfirst
    rw [readBytes, readBytes, hfirst, hrest]

theorem readBytes_writeBytes (mem : Memory) (p : ℕ) (bytes : List UInt8) :
    readBytes (writeBytes mem p bytes) p bytes.length = some bytes := by
  induction bytes generalizing mem p with
  | nil => rfl
  | cons byte bytes ih =>
    have hfirst : writeBytes (Function.update mem p (some byte)) (p + 1) bytes p = some byte := by
      rw [writeBytes_outside (.inl (Nat.lt_succ_self p)), Function.update_self]
    rw [List.length_cons, writeBytes, readBytes, hfirst, ih]
    rfl

theorem readBytes_apart (h : q + n ≤ p ∨ p + bytes.length ≤ q) :
    readBytes (writeBytes mem p bytes) q n = readBytes mem q n := by
  apply readBytes_congr
  intro j hj
  exact writeBytes_outside (by omega)

theorem readBytes_mapped (h : ∀ j < n, mem (p + j) ≠ none) :
    ∃ bytes, readBytes mem p n = some bytes := by
  induction n generalizing p with
  | zero => exact ⟨[], rfl⟩
  | succ n ih =>
    have hfirst := h 0 (by omega)
    obtain ⟨byte, hbyte⟩ := Option.ne_none_iff_exists'.mp hfirst
    obtain ⟨bytes, hbytes⟩ : ∃ bytes, readBytes mem (p + 1) n = some bytes := by
      apply ih
      intro j hj
      have hnext := h (j + 1) (by omega)
      rwa [← Nat.add_assoc, Nat.add_right_comm] at hnext
    rw [Nat.add_zero] at hbyte
    refine ⟨byte :: bytes, ?_⟩
    rw [readBytes, hbyte, hbytes]
    rfl

end Bytes

section Objects
variable {mem : Memory} {p q n count i : ℕ} {value : List UInt8}

/-- Object `i` of an array of objects of `n` bytes. -/
def readObject (mem : Memory) (p n i : ℕ) : Option (List UInt8) := readBytes mem (p + n * i) n

def writeObject (mem : Memory) (p n i : ℕ) (value : List UInt8) : Memory :=
  writeBytes mem (p + n * i) value

/-- The objects that are stored from `p` on. -/
def objects (mem : Memory) (p n count : ℕ) : List (List UInt8) :=
  (List.range count).map fun i => (readObject mem p n i).getD []

def Mapped (mem : Memory) (p size : ℕ) : Prop := ∀ j < size, mem (p + j) ≠ none

@[simp] theorem length_objects (mem : Memory) (p n count : ℕ) :
    (objects mem p n count).length = count := by
  rw [objects, List.length_map, List.length_range]

/-- One object ends where the next begins. -/
theorem object_end (hi : i < count) : n * i + n ≤ n * count := by
  rw [← Nat.mul_succ]
  exact Nat.mul_le_mul_left n hi

theorem Mapped.object (h : Mapped mem p (n * count)) (hi : i < count) :
    (objects mem p n count)[i]? = readObject mem p n i := by
  have hend := object_end (n := n) hi
  obtain ⟨bytes, hbytes⟩ : ∃ bytes, readBytes mem (p + n * i) n = some bytes := by
    apply readBytes_mapped
    intro j hj
    rw [Nat.add_assoc]
    exact h (n * i + j) (by omega)
  rw [objects, List.getElem?_map, List.getElem?_range hi, Option.map_some, readObject, hbytes]
  rfl

theorem Mapped.write (h : Mapped mem p n) (bytes : List UInt8) (q : ℕ) :
    Mapped (writeBytes mem q bytes) p n := by
  intro j hj
  induction bytes generalizing mem q with
  | nil => exact h j hj
  | cons byte bytes ih =>
    apply ih
    intro k hk
    by_cases hq : p + k = q
    · rw [hq, Function.update_self]
      exact Option.some_ne_none byte
    · rw [Function.update_of_ne hq]
      exact h k hk

theorem objects_writeObject (hvalue : value.length = n) (hi : i < count) :
    objects (writeObject mem p n i value) p n count = (objects mem p n count).set i value := by
  apply List.ext_getElem?
  intro k
  by_cases hk : k < count
  · rw [List.getElem?_set, length_objects, objects, objects, List.getElem?_map, List.getElem?_map,
      List.getElem?_range hk]
    by_cases hik : i = k
    · subst hik
      rw [if_pos rfl, if_pos hi, Option.map_some, readObject, writeObject]
      subst hvalue
      rw [readBytes_writeBytes]
      rfl
    · rw [if_neg hik, Option.map_some, Option.map_some, readObject, readObject, writeObject,
        readBytes_apart]
      rw [hvalue]
      cases Nat.lt_or_gt_of_ne hik with
      | inl hlt => exact .inr (by have hend := object_end (n := n) hlt; omega)
      | inr hgt => exact .inl (by have hend := object_end (n := n) hgt; omega)
  · rw [List.getElem?_eq_none (by rw [length_objects]; omega),
      List.getElem?_eq_none (by rw [List.length_set, length_objects]; omega)]

theorem objects_apart (h : q + value.length ≤ p ∨ p + n * count ≤ q) :
    objects (writeBytes mem q value) p n count = objects mem p n count := by
  apply List.map_congr_left
  intro i hi
  have hend := object_end (n := n) (List.mem_range.mp hi)
  rw [readObject, readObject, readBytes_apart]
  omega

end Objects

end PdkHeaders.Library.ByteMemory
