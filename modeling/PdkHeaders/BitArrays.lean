import PdkHeaders.Library.Blocks
import PdkHeaders.ShareVectors

set_option autoImplicit false

/-!
# Share vectors as arrays of bits

A vector of shares of `numOfBits` bits each is one flat array of bits. All operations of share
vectors are read on that array, and the bits of a share type above `numOfBits` stay zero.
-/
namespace PdkHeaders.BitArrays
open PdkHeaders.Library.Execution PdkHeaders.Library.Sessions PdkHeaders.Library.Transcript
  PdkHeaders.Library.Blocks PdkHeaders.ShareIterators PdkHeaders.ShareVecBits
  PdkHeaders.ShareVectors

section Commands
variable (T : ShareTraits)

/-- No bit above the element bits. -/
def Clean (value : T.shareType.Value) : Prop :=
  ∀ bit, T.numOfBits ≤ bit → value.getLsbD bit = false

inductive Command where
  | constructSized (x n : ℕ) (defaultValue : T.shareType.Value)
  | constructRange (x : ℕ) (first last : ShareIterator)
  | constructMove (x y : ℕ)
  | swap (x y : ℕ)
  | size (x : ℕ)
  | empty (x : ℕ)
  | resize (x sz : ℕ)
  | clearAndRelease (x : ℕ)
  | element (x i : ℕ)
  | assignElement (x i : ℕ) (value : T.shareType.Value)
  | insert (x : ℕ) (pos first last : ShareIterator)
  | assign (x : ℕ) (first last : ShareIterator)
  | pushBack (x : ℕ) (value : T.shareType.Value)
  | assignVec (x y : ℕ)
  | assignFill (x n : ℕ) (value : T.shareType.Value)
  | setBit (x i : ℕ) (value : Bool)
  | getBit (x i : ℕ)
  | equal (x y : ℕ)
  | notEqual (x y : ℕ)

variable {T} in
/-- The shares that are passed in have no bits above their element bits. -/
def Command.PassesClean : Command T → Prop
  | .constructSized _ _ value => Clean T value
  | .assignElement _ _ value => Clean T value
  | .pushBack _ value => Clean T value
  | .assignFill _ _ value => Clean T value
  | _ => True

inductive Answer where
  | done
  | share (value : T.shareType.Value)
  | bool (value : Bool)
  | number (value : ℕ)

variable {T} (intWidth : ℕ) (assertions : Bool)

def perform : Command T → Exec (Vectors T.shareType.Value) (Answer T)
  | .constructSized x n defaultValue => do
    constructSized x n defaultValue
    return .done
  | .constructRange x first last => do
    constructRange x first last
    return .done
  | .constructMove x y => do
    constructMove x y
    return .done
  | .swap x y => do
    swap x y
    return .done
  | .size x => return .number (← size x)
  | .empty x => return .bool (← empty x)
  | .resize x sz => do
    resize x 0 sz
    return .done
  | .clearAndRelease x => do
    clearAndRelease x
    return .done
  | .element x i => return .share (← element x assertions i)
  | .assignElement x i value => do
    assignElement x assertions i value
    return .done
  | .insert x pos first last => do
    insert x pos first last
    return .done
  | .assign x first last => do
    assign x first last
    return .done
  | .pushBack x value => do
    pushBack x value
    return .done
  | .assignVec x y => do
    assignVec x y
    return .done
  | .assignFill x n value => do
    assignFill x n value
    return .done
  | .setBit x i value => do
    onVector x (setBit T intWidth assertions i value)
    return .done
  | .getBit x i => return .bool (← onVector x (getBit T intWidth assertions i))
  | .equal x y => return .bool (← equal x y)
  | .notEqual x y => return .bool (← notEqual x y)

end Commands

section Machine
variable (T : ShareTraits) (assertions : Bool)

/-- The bits of each vector, those of one share after those of another. -/
abbrev Bits := ℕ → List Bool

/-- The element bits of a share, the lowest first. -/
def shareBits (value : T.shareType.Value) : List Bool :=
  (List.range T.numOfBits).map value.getLsbD

/-- The share that has these element bits. -/
def pack (bits : List Bool) : T.shareType.Value :=
  (BitVec.ofBoolListLE bits).setWidth T.shareType.width

def outOfBounds : Fault := if assertions then .assertion else .badAccess

abbrev Reply := Except Stop (Answer T) × Bits

variable {T}

def stored (bits : Bits) (x : ℕ) (array : List Bool) : Reply T :=
  (.ok .done, Function.update bits x array)

def answered (bits : Bits) (answer : Answer T) : Reply T := (.ok answer, bits)

def refused (bits : Bits) (f : Fault) : Reply T := (.error (.faults f), bits)

variable (T)

def bitRange (bits : Bits) (x : ℕ) (first last : ShareIterator) : Option (List Bool) :=
  let array := bits first.getInner.vec
  if ValidRange x first last (fun vec => (bits vec).length / T.numOfBits) then
    some ((array.take (T.numOfBits * last.getInner.index.toNat)).drop
      (T.numOfBits * first.getInner.index.toNat))
  else none

variable {T}

/-- What each operation is on arrays of bits. A share at `i` begins at bit `numOfBits * i`. -/
def bitMachine : Machine Bits (Command T) (Except Stop (Answer T))
  | .constructSized x n value, bits | .assignFill x n value, bits =>
    stored bits x (List.replicate n (shareBits T value)).flatten
  | .constructRange x first last, bits | .assign x first last, bits =>
    match bitRange T bits x first last with
    | some array => stored bits x array
    | none => refused bits .badAccess
  | .constructMove x y, bits =>
    if x = y then refused bits .badAccess
    else (.ok .done, Function.update (Function.update bits x (bits y)) y [])
  | .swap x y, bits => (.ok .done, Function.update (Function.update bits x (bits y)) y (bits x))
  | .size x, bits => answered bits (.number ((bits x).length / T.numOfBits))
  | .empty x, bits => answered bits (.bool (bits x).isEmpty)
  | .resize x sz, bits =>
    stored bits x ((bits x).take (T.numOfBits * sz) ++
      List.replicate (T.numOfBits * sz - (bits x).length) false)
  | .clearAndRelease x, bits => stored bits x []
  | .element x i, bits =>
    if T.numOfBits * i < (bits x).length then
      answered bits (.share (pack T (((bits x).drop (T.numOfBits * i)).take T.numOfBits)))
    else refused bits (outOfBounds assertions)
  | .assignElement x i value, bits =>
    if T.numOfBits * i < (bits x).length then
      stored bits x ((bits x).take (T.numOfBits * i) ++ shareBits T value ++
        (bits x).drop (T.numOfBits * (i + 1)))
    else refused bits (outOfBounds assertions)
  | .insert x pos first last, bits =>
    match bitRange T bits x first last with
    | none => refused bits .badAccess
    | some array =>
      let position := pos.getInner.index
      if pos.getInner.vec = x ∧ 0 ≤ position ∧ T.numOfBits * position ≤ (bits x).length then
        stored bits x ((bits x).take (T.numOfBits * position.toNat) ++ array ++
          (bits x).drop (T.numOfBits * position.toNat))
      else refused bits .badAccess
  | .pushBack x value, bits => stored bits x (bits x ++ shareBits T value)
  | .assignVec x y, bits => if x = y then refused bits .badAccess else stored bits x (bits y)
  | .setBit x i value, bits =>
    if i < (bits x).length then stored bits x ((bits x).set i value)
    else refused bits (outOfBounds assertions)
  | .getBit x i, bits =>
    match (bits x)[i]? with
    | some bit => answered bits (.bool bit)
    | none => refused bits (outOfBounds assertions)
  | .equal x y, bits => answered bits (.bool (bits x = bits y))
  | .notEqual x y, bits => answered bits (.bool (bits x ≠ bits y))

end Machine

section Shares
variable {T : ShareTraits} {value other : T.shareType.Value}

@[simp] theorem length_shareBits (value : T.shareType.Value) :
    (shareBits T value).length = T.numOfBits := by
  rw [shareBits, List.length_map, List.length_range]

theorem shareBits_at (value : T.shareType.Value) (bit : ℕ) :
    (shareBits T value)[bit]? = if bit < T.numOfBits then some (value.getLsbD bit) else none := by
  rw [shareBits, List.getElem?_map]
  split
  · rw [List.getElem?_range ‹_›]
    rfl
  · rw [List.getElem?_eq_none (by rw [List.length_range]; omega)]
    rfl

theorem pack_shareBits (h : Clean T value) : pack T (shareBits T value) = value := by
  apply BitVec.eq_of_getLsbD_eq
  intro bit hbit
  rw [pack, BitVec.getLsbD_setWidth, BitVec.getLsbD_ofBoolListLE, decide_eq_true hbit,
    Bool.true_and, List.getD_eq_getElem?_getD, shareBits_at]
  split
  · rfl
  · exact (h bit (by omega)).symm

theorem shareBits_inj (h : Clean T value) (h' : Clean T other)
    (hbits : shareBits T value = shareBits T other) : value = other := by
  rw [← pack_shareBits h, hbits, pack_shareBits h']

theorem shareBits_putBit {bit : ℕ} (hbit : bit < T.shareType.width) (b : Bool)
    (value : T.shareType.Value) :
    shareBits T (putBit bit b value) = (shareBits T value).set bit b := by
  apply List.ext_getElem?
  intro k
  rw [List.getElem?_set, shareBits_at, shareBits_at, putBit_bit hbit, length_shareBits]
  by_cases hk : bit = k
  · rw [if_pos hk, if_pos hk, hk]
  · rw [if_neg hk, if_neg hk]

theorem clean_putBit {bit : ℕ} (hbit : bit < T.numOfBits) (hwidth : bit < T.shareType.width)
    (b : Bool) (h : Clean T value) : Clean T (putBit bit b value) := by
  intro k hk
  rw [putBit_bit hwidth, if_neg (by omega), h k hk]

theorem clean_zero : Clean T 0 := fun _ _ => BitVec.getLsbD_zero

theorem shareBits_zero : shareBits T 0 = List.replicate T.numOfBits false := by
  apply List.ext_getElem?
  intro k
  rw [shareBits_at, List.getElem?_replicate]
  split
  · exact congrArg some BitVec.getLsbD_zero
  · rfl

end Shares

section Representation
variable {T : ShareTraits} {vectors : Vectors T.shareType.Value} {bits : Bits}

/-- The bits of the shares, which have no others. -/
structure Represents (vectors : Vectors T.shareType.Value) (bits : Bits) : Prop where
  clean : ∀ x, ∀ value ∈ vectors x, Clean T value
  flat : ∀ x, bits x = (vectors x).flatMap (shareBits T)

theorem Represents.length (h : Represents vectors bits) (x : ℕ) :
    (bits x).length = T.numOfBits * (vectors x).length := by
  rw [h.flat x, length_flatMap length_shareBits]

theorem Represents.size (h : Represents vectors bits) (x : ℕ) :
    (bits x).length / T.numOfBits = (vectors x).length := by
  rw [h.length x, Nat.mul_div_cancel_left _ (Nat.pos_of_ne_zero T.nonzero)]

theorem Represents.lt_iff (h : Represents vectors bits) (x i : ℕ) :
    T.numOfBits * i < (bits x).length ↔ i < (vectors x).length := by
  rw [h.length x]
  exact Nat.mul_lt_mul_left (Nat.pos_of_ne_zero T.nonzero)

theorem Represents.block_lt_iff (h : Represents vectors bits) (x i : ℕ) :
    i < (bits x).length ↔ i / T.numOfBits < (vectors x).length := by
  rw [h.length x, Nat.div_lt_iff_lt_mul (Nat.pos_of_ne_zero T.nonzero), Nat.mul_comm]

theorem Represents.update (h : Represents vectors bits) (x : ℕ) {elements : List T.shareType.Value}
    {array : List Bool} (hclean : ∀ value ∈ elements, Clean T value)
    (hflat : array = elements.flatMap (shareBits T)) :
    Represents (Function.update vectors x elements) (Function.update bits x array) where
  clean y := by
    by_cases hy : y = x
    · rw [hy, Function.update_self]
      exact hclean
    · rw [Function.update_of_ne hy]
      exact h.clean y
  flat y := by
    by_cases hy : y = x
    · rw [hy, Function.update_self, Function.update_self, hflat]
    · rw [Function.update_of_ne hy, Function.update_of_ne hy, h.flat y]

theorem Represents.eq_iff (h : Represents vectors bits) (x y : ℕ) :
    bits x = bits y ↔ vectors x = vectors y := by
  rw [h.flat x, h.flat y]
  apply flatMap_inj length_shareBits T.nonzero
  intro value hvalue other hother
  exact shareBits_inj (h.clean x value hvalue) (h.clean y other hother)

theorem Represents.isEmpty (h : Represents vectors bits) (x : ℕ) :
    (bits x).isEmpty = (vectors x).isEmpty := by
  have hlength := h.length x
  have hpos := Nat.pos_of_ne_zero T.nonzero
  cases hvec : vectors x with
  | nil =>
    rw [hvec, List.length_nil, Nat.mul_zero] at hlength
    rw [List.length_eq_zero_iff.mp hlength]
    rfl
  | cons value values =>
    cases hbits : bits x with
    | nil =>
      rw [hvec, hbits, List.length_cons, Nat.mul_succ, List.length_nil] at hlength
      omega
    | cons bit rest => rfl

/-- A range of shares is the range of their bits. -/
theorem Represents.range (h : Represents vectors bits) (x : ℕ) (first last : ShareIterator) :
    (∃ elements, (readRange x first last).run vectors = .ok elements vectors ∧
      bitRange T bits x first last = some (elements.flatMap (shareBits T)) ∧
      ∀ value ∈ elements, Clean T value) ∨
    ((readRange x first last).run vectors = .error (.faults .badAccess) vectors ∧
      bitRange T bits x first last = none) := by
  have hsizes : (fun vec => (bits vec).length / T.numOfBits) = fun vec => (vectors vec).length :=
    funext h.size
  unfold bitRange
  rw [readRange, bind_ok (EStateM.run_get vectors), hsizes]
  by_cases hvalid : ValidRange x first last fun vec => (vectors vec).length
  · rw [if_pos hvalid, if_pos hvalid]
    refine .inl ⟨_, rfl, ?_, ?_⟩
    · rw [between, ← drop_flatMap length_shareBits, ← take_flatMap length_shareBits, h.flat]
    · intro value hvalue
      exact h.clean _ value (List.mem_of_mem_take (List.mem_of_mem_drop hvalue))
  · rw [if_neg hvalid, if_neg hvalid]
    exact .inr ⟨rfl, rfl⟩

end Representation

section Simulation
variable {T : ShareTraits} {vectors : Vectors T.shareType.Value} {bits : Bits}
  {intWidth : ℕ} {assertions : Bool}

theorem assert_false {σ α : Type} (rest : Exec σ α) (hrest : rest = fault .badAccess) (s : σ) :
    (assert assertions false >>= fun _ => rest).run s =
      .error (.faults (outOfBounds assertions)) s := by
  subst hrest
  cases assertions <;> rfl

theorem element_run {x i : ℕ} {value : T.shareType.Value} (h : (vectors x)[i]? = some value) :
    (element x assertions i).run vectors = .ok value vectors := by
  have hlt : i < (vectors x).length := (List.getElem?_eq_some_iff.mp h).1
  rw [element, bind_ok (EStateM.run_get vectors), decide_eq_true hlt, assert_true, h]
  rfl

theorem element_outOfBounds {x i : ℕ} (h : ¬ i < (vectors x).length) :
    (element x assertions i).run vectors =
      .error (.faults (outOfBounds assertions)) vectors := by
  rw [element, bind_ok (EStateM.run_get vectors), decide_eq_false h]
  apply assert_false
  rw [List.getElem?_eq_none (by omega)]
  rfl

theorem assignElement_run {x i : ℕ} (h : i < (vectors x).length) (value : T.shareType.Value) :
    (assignElement x assertions i value).run vectors =
      .ok () (Function.update vectors x ((vectors x).set i value)) := by
  rw [assignElement, bind_ok (EStateM.run_get vectors), decide_eq_true h, assert_true, if_pos h]
  rfl

theorem assignElement_outOfBounds {x i : ℕ} (h : ¬ i < (vectors x).length)
    (value : T.shareType.Value) :
    (assignElement x assertions i value).run vectors =
      .error (.faults (outOfBounds assertions)) vectors := by
  rw [assignElement, bind_ok (EStateM.run_get vectors), decide_eq_false h]
  exact assert_false _ (if_neg h) vectors

theorem readBlock_outOfBounds {vec : ShareVec T} {blockIndex : ℕ} (h : ¬ blockIndex < vec.size) :
    (readBlock T assertions blockIndex).run vec =
      .error (.faults (outOfBounds assertions)) vec := by
  rw [readBlock, bind_ok (EStateM.run_get vec), decide_eq_false h]
  apply assert_false
  rw [List.getElem?_eq_none (Nat.le_of_not_lt h)]
  rfl

theorem getBit_outOfBounds {vec : ShareVec T} {i : ℕ} (h : ¬ i / T.numOfBits < vec.size) :
    (getBit T intWidth assertions i).run vec =
      .error (.faults (outOfBounds assertions)) vec := by
  rw [getBit, bind_error (readBlock_outOfBounds h)]

theorem setBit_outOfBounds (hunsigned : T.shareType.signed = false)
    (hbits : T.numOfBits ≤ T.shareType.width) {vec : ShareVec T} {i : ℕ}
    (h : ¬ i / T.numOfBits < vec.size) (value : Bool) :
    (setBit T intWidth assertions i value).run vec =
      .error (.faults (outOfBounds assertions)) vec := by
  rw [setBit, bind_ok (shiftedOne_run hunsigned (mod_lt_width hbits i) vec),
    bind_error (readBlock_outOfBounds h)]

/-- The bit that `getBit` reads is the one at its index in the array. -/
theorem Represents.bitAt (h : Represents vectors bits) {x i : ℕ} (hi : i < (bits x).length) :
    (bits x)[i]? = some (ShareVec.bitAt ⟨vectors x⟩ i : Bool) := by
  have hblock := (h.block_lt_iff x i).mp hi
  have hmod : i % T.numOfBits < T.numOfBits := Nat.mod_lt _ (Nat.pos_of_ne_zero T.nonzero)
  have hread := getElem?_flatMap (f := shareBits T) length_shareBits (vectors x)
    (i / T.numOfBits) hmod
  rw [Nat.div_add_mod, ← h.flat, List.getElem?_eq_getElem hblock, Option.bind_some, shareBits_at,
    if_pos hmod] at hread
  rw [hread, ShareVec.bitAt, ShareVec.blockBit, List.getElem?_eq_getElem hblock]
  rfl

theorem Represents.put (hbits : T.numOfBits ≤ T.shareType.width) (h : Represents vectors bits)
    (x i : ℕ) (value : Bool) :
    Represents (Function.update vectors x (ShareVec.put ⟨vectors x⟩ i value).mVector)
      (Function.update bits x ((bits x).set i value)) := by
  have hmod : i % T.numOfBits < T.numOfBits := Nat.mod_lt _ (Nat.pos_of_ne_zero T.nonzero)
  apply h.update
  · intro block hblock
    obtain ⟨k, hk⟩ := List.getElem?_of_mem hblock
    rw [ShareVec.put, List.getElem?_modify] at hk
    obtain ⟨old, hold, hvalue⟩ := Option.map_eq_some_iff.mp hk
    have hclean := h.clean x old (List.mem_of_getElem? hold)
    rw [← hvalue]
    split
    · exact clean_putBit hmod (mod_lt_width hbits i) value hclean
    · exact hclean
  · rw [ShareVec.put, ← set_flatMap length_shareBits hmod
      (shareBits_putBit (mod_lt_width hbits i) value), Nat.div_add_mod, h.flat]

theorem stored_matches (h : Represents vectors bits) {m : Exec (Vectors T.shareType.Value) Unit}
    {x : ℕ} {elements : List T.shareType.Value} {array : List Bool}
    (hrun : m.run vectors = .ok () (Function.update vectors x elements))
    (hclean : ∀ value ∈ elements, Clean T value)
    (hflat : array = elements.flatMap (shareBits T)) :
    Matches Represents (stored bits x array)
      ((m >>= fun _ => pure (.done : Answer T)).run vectors) := by
  rw [bind_ok hrun]
  exact ⟨rfl, h.update x hclean hflat⟩

theorem answered_matches (h : Represents vectors bits) {α : Type}
    {m : Exec (Vectors T.shareType.Value) α} {a b : α} (answer : α → Answer T)
    (hrun : m.run vectors = .ok a vectors) (hanswer : b = a) :
    Matches Represents (answered bits (answer b))
      ((m >>= fun a => pure (answer a)).run vectors) := by
  rw [bind_ok hrun, hanswer]
  exact ⟨rfl, h⟩

theorem refused_matches (h : Represents vectors bits) {α : Type}
    {m : Exec (Vectors T.shareType.Value) α}
    {rest : α → Exec (Vectors T.shareType.Value) (Answer T)} {f : Fault}
    (hrun : m.run vectors = .error (.faults f) vectors) :
    Matches Represents (refused bits f) ((m >>= rest).run vectors) := by
  rw [bind_error hrun]
  exact ⟨rfl, h⟩

theorem clean_replicate {value : T.shareType.Value} (hclean : Clean T value) (n : ℕ) :
    ∀ other ∈ List.replicate n value, Clean T other := by
  intro other hother
  rw [List.eq_of_mem_replicate hother]
  exact hclean

theorem clean_append {first second : List T.shareType.Value}
    (hfirst : ∀ value ∈ first, Clean T value) (hsecond : ∀ value ∈ second, Clean T value) :
    ∀ value ∈ first ++ second, Clean T value := by
  intro value hvalue
  cases List.mem_append.mp hvalue with
  | inl h => exact hfirst value h
  | inr h => exact hsecond value h

theorem Represents.clean_take (h : Represents vectors bits) (x n : ℕ) :
    ∀ value ∈ (vectors x).take n, Clean T value :=
  fun value hvalue => h.clean x value (List.mem_of_mem_take hvalue)

theorem Represents.clean_drop (h : Represents vectors bits) (x n : ℕ) :
    ∀ value ∈ (vectors x).drop n, Clean T value :=
  fun value hvalue => h.clean x value (List.mem_of_mem_drop hvalue)

theorem Represents.take (h : Represents vectors bits) (x n : ℕ) :
    (bits x).take (T.numOfBits * n) = ((vectors x).take n).flatMap (shareBits T) := by
  rw [h.flat, take_flatMap length_shareBits]

theorem Represents.drop (h : Represents vectors bits) (x n : ℕ) :
    (bits x).drop (T.numOfBits * n) = ((vectors x).drop n).flatMap (shareBits T) := by
  rw [h.flat, drop_flatMap length_shareBits]

theorem flatMap_singleton (value : T.shareType.Value) :
    shareBits T value = [value].flatMap (shareBits T) := by
  rw [List.flatMap_cons, List.flatMap_nil, List.append_nil]

variable (intWidth assertions)

theorem resize_matches (h : Represents vectors bits) (x sz : ℕ) :
    Matches Represents (bitMachine assertions (.resize x sz : Command T) bits)
      ((perform intWidth assertions (.resize x sz)).run vectors) := by
  apply stored_matches h rfl
  · exact clean_append (h.clean_take x sz) (clean_replicate clean_zero _)
  · rw [List.flatMap_append, h.take, List.flatMap_replicate, shareBits_zero,
      List.flatten_replicate_replicate, h.length, ← Nat.mul_sub, Nat.mul_comm T.numOfBits (_ - _)]

theorem element_matches (h : Represents vectors bits) (x i : ℕ) :
    Matches Represents (bitMachine assertions (.element x i : Command T) bits)
      ((perform intWidth assertions (.element x i)).run vectors) := by
  by_cases hi : i < (vectors x).length
  · rw [bitMachine, if_pos ((h.lt_iff x i).mpr hi)]
    apply answered_matches h _ (element_run (List.getElem?_eq_getElem hi))
    have hone : ((vectors x).drop i).take 1 = [(vectors x)[i]] := by
      rw [List.drop_eq_getElem_cons hi, List.take_succ_cons, List.take_zero]
    have hbits := take_flatMap (f := shareBits T) length_shareBits ((vectors x).drop i) 1
    rw [Nat.mul_one, hone, ← flatMap_singleton] at hbits
    rw [h.drop, hbits]
    exact pack_shareBits (h.clean x _ (List.getElem_mem hi))
  · rw [bitMachine, if_neg fun hlt => hi ((h.lt_iff x i).mp hlt)]
    exact refused_matches h (element_outOfBounds hi)

theorem assignElement_matches (h : Represents vectors bits) (x i : ℕ)
    {value : T.shareType.Value} (hvalue : Clean T value) :
    Matches Represents (bitMachine assertions (.assignElement x i value) bits)
      ((perform intWidth assertions (.assignElement x i value)).run vectors) := by
  by_cases hi : i < (vectors x).length
  · rw [bitMachine, if_pos ((h.lt_iff x i).mpr hi)]
    apply stored_matches h (assignElement_run hi value)
    · intro other hother
      cases List.mem_or_eq_of_mem_set hother with
      | inl hmem => exact h.clean x other hmem
      | inr heq => exact heq ▸ hvalue
    · rw [List.set_eq_take_append_cons_drop, if_pos hi, List.flatMap_append, List.flatMap_cons,
        h.take, h.drop, List.append_assoc]
  · rw [bitMachine, if_neg fun hlt => hi ((h.lt_iff x i).mp hlt)]
    exact refused_matches h (assignElement_outOfBounds hi value)

theorem insert_matches (h : Represents vectors bits) (x : ℕ) (pos first last : ShareIterator) :
    Matches Represents (bitMachine assertions (.insert x pos first last : Command T) bits)
      ((perform intWidth assertions (.insert x pos first last)).run vectors) := by
  cases h.range x first last with
  | inr hrange =>
    rw [bitMachine, hrange.2]
    apply refused_matches h
    rw [ShareVectors.insert, bind_ok (EStateM.run_get vectors), bind_error hrange.1]
  | inl hrange =>
    obtain ⟨inserted, hrun, hbits, hclean⟩ := hrange
    have hposition : T.numOfBits * pos.getInner.index ≤ (bits x).length ↔
        pos.getInner.index ≤ (vectors x).length := by
      have hpos := Nat.pos_of_ne_zero T.nonzero
      rw [h.length x, Int.natCast_mul]
      exact Int.mul_le_mul_left (by omega)
    rw [bitMachine, hbits]
    simp only [hposition]
    by_cases hvalid : pos.getInner.vec = x ∧ 0 ≤ pos.getInner.index ∧
        pos.getInner.index ≤ (vectors x).length
    · rw [if_pos hvalid]
      apply stored_matches h
      · rw [ShareVectors.insert, bind_ok (EStateM.run_get vectors), bind_ok hrun, if_pos hvalid]
        rfl
      · exact clean_append (clean_append (h.clean_take x _) hclean) (h.clean_drop x _)
      · rw [List.flatMap_append, List.flatMap_append, h.take, h.drop]
    · rw [if_neg hvalid]
      apply refused_matches h
      rw [ShareVectors.insert, bind_ok (EStateM.run_get vectors), bind_ok hrun, if_neg hvalid]
      rfl

theorem assign_matches (h : Represents vectors bits) (x : ℕ) (first last : ShareIterator) :
    Matches Represents (bitMachine assertions (.assign x first last : Command T) bits)
      ((perform intWidth assertions (.assign x first last)).run vectors) := by
  cases h.range x first last with
  | inl hrange =>
    obtain ⟨elements, hrun, hrange, hclean⟩ := hrange
    rw [bitMachine, hrange]
    apply stored_matches h _ hclean rfl
    rw [ShareVectors.assign, bind_ok hrun]
    rfl
  | inr hrange =>
    rw [bitMachine, hrange.2]
    apply refused_matches h
    rw [ShareVectors.assign, bind_error hrange.1]

theorem assignVec_matches (h : Represents vectors bits) (x y : ℕ) :
    Matches Represents (bitMachine assertions (.assignVec x y : Command T) bits)
      ((perform intWidth assertions (.assignVec x y)).run vectors) := by
  have hassign : (ShareVectors.assignVec x y).run vectors =
      (ShareVectors.assign x (vecBegin y) (vecEnd y vectors)).run vectors := rfl
  by_cases hxy : x = y
  · have hvalid : ¬ ValidRange x (vecBegin y) (vecEnd y vectors)
        fun vec => (vectors vec).length := fun hvalid => hvalid.1 hxy.symm
    rw [bitMachine, if_pos hxy]
    apply refused_matches h
    rw [hassign, ShareVectors.assign, readRange, bind_error]
    rw [bind_ok (EStateM.run_get vectors), if_neg hvalid]
    rfl
  · have hvalid : ValidRange x (vecBegin y) (vecEnd y vectors) fun vec => (vectors vec).length :=
      ⟨fun heq => hxy heq.symm, rfl, Int.le_refl 0, Int.natCast_nonneg _, Int.le_refl _⟩
    have hall : between (vecBegin y) (vecEnd y vectors) (vectors y) = vectors y :=
      List.take_length
    rw [bitMachine, if_neg hxy]
    apply stored_matches h _ (h.clean y) (h.flat y)
    have hread : (readRange x (vecBegin y) (vecEnd y vectors)).run vectors =
        .ok (vectors y) vectors := by
      rw [readRange, bind_ok (EStateM.run_get vectors), if_pos hvalid]
      exact congrArg (fun elements => EStateM.Result.ok elements vectors) hall
    rw [hassign, ShareVectors.assign, bind_ok hread]
    rfl

theorem command_matches (hunsigned : T.shareType.signed = false)
    (hbits : T.numOfBits ≤ T.shareType.width) (h : Represents vectors bits)
    {command : Command T} (hpasses : command.PassesClean) :
    Matches Represents (bitMachine assertions command bits)
      ((perform intWidth assertions command).run vectors) := by
  cases command with
  | constructSized x n value | assignFill x n value =>
    apply stored_matches h rfl (clean_replicate hpasses n)
    rw [List.flatMap_replicate]
  | constructRange x first last => exact assign_matches intWidth assertions h x first last
  | assign x first last => exact assign_matches intWidth assertions h x first last
  | constructMove x y =>
    by_cases hxy : x = y
    · rw [bitMachine, if_pos hxy]
      apply refused_matches h
      rw [constructMove, if_pos hxy]
      rfl
    · rw [bitMachine, if_neg hxy, perform, constructMove, if_neg hxy]
      exact ⟨rfl, (h.update x (h.clean y) (h.flat y)).update y (by simp) rfl⟩
  | swap x y => exact ⟨rfl, (h.update x (h.clean y) (h.flat y)).update y (h.clean x) (h.flat x)⟩
  | size x => exact answered_matches h .number rfl (h.size x)
  | empty x => exact answered_matches h .bool rfl (h.isEmpty x)
  | resize x sz => exact resize_matches intWidth assertions h x sz
  | clearAndRelease x => exact stored_matches h rfl (fun _ hvalue => nomatch hvalue) rfl
  | element x i => exact element_matches intWidth assertions h x i
  | assignElement x i value => exact assignElement_matches intWidth assertions h x i hpasses
  | insert x pos first last => exact insert_matches intWidth assertions h x pos first last
  | pushBack x value =>
    apply stored_matches h rfl
    · apply clean_append (h.clean x)
      intro other hother
      rw [List.mem_singleton.mp hother]
      exact hpasses
    · rw [List.flatMap_append, ← flatMap_singleton, h.flat x]
  | assignVec x y => exact assignVec_matches intWidth assertions h x y
  | setBit x i value =>
    have hblock := h.block_lt_iff x i
    by_cases hi : i < (bits x).length
    · rw [bitMachine, if_pos hi]
      have hrun : (setBit T intWidth assertions i value).run ⟨vectors x⟩ = .ok () _ :=
        setBit_run hunsigned hbits (hblock.mp hi) value
      rw [perform, bind_ok (onVector_ok hrun)]
      exact ⟨rfl, h.put hbits x i value⟩
    · rw [bitMachine, if_neg hi]
      exact refused_matches h
        (onVector_error (setBit_outOfBounds hunsigned hbits (fun hlt => hi (hblock.mpr hlt)) value))
  | getBit x i =>
    have hblock := h.block_lt_iff x i
    by_cases hi : i < (bits x).length
    · rw [bitMachine, h.bitAt hi]
      exact answered_matches h _ (onVector_read (getBit_run hunsigned hbits (hblock.mp hi))) rfl
    · rw [bitMachine, List.getElem?_eq_none (Nat.le_of_not_lt hi)]
      exact refused_matches h (onVector_error (getBit_outOfBounds fun hlt => hi (hblock.mpr hlt)))
  | equal x y =>
    exact answered_matches h .bool rfl (decide_eq_decide.mpr (h.eq_iff x y))
  | notEqual x y =>
    exact answered_matches h .bool rfl (decide_eq_decide.mpr (not_congr (h.eq_iff x y)))

end Simulation

/-- Every run of operations on share vectors is one on arrays of bits, comparisons included. -/
theorem share_vectors_are_bit_arrays (intWidth : ℕ) (assertions : Bool) (T : ShareTraits)
    (hunsigned : T.shareType.signed = false) (hbits : T.numOfBits ≤ T.shareType.width)
    (vectors : Vectors T.shareType.Value) (hclean : ∀ x, ∀ value ∈ vectors x, Clean T value)
    (commands : List (Command T)) (hcommands : ∀ command ∈ commands, command.PassesClean) :
    let bits : Bits := fun x => (vectors x).flatMap (shareBits T)
    let final := after (session (perform intWidth assertions)) commands vectors
    transcript (session (perform intWidth assertions)) commands vectors =
        transcript (bitMachine assertions) commands bits ∧
      (∀ x, ∀ value ∈ final x, Clean T value) ∧
      ∀ x, (final x).flatMap (shareBits T) = after (bitMachine assertions) commands bits x := by
  intro bits final
  have hstart : Represents vectors bits := ⟨hclean, fun _ => rfl⟩
  have hstep : ∀ (command : Command T) (s : Vectors T.shareType.Value) (t : Bits),
      command.PassesClean → Represents s t →
      Matches Represents (bitMachine assertions command t)
        ((perform intWidth assertions command).run s) :=
    fun _ _ _ hpasses h => command_matches intWidth assertions hunsigned hbits h hpasses
  obtain ⟨hanswers, hfinal⟩ := session_follows hstep commands hcommands hstart
  exact ⟨hanswers, hfinal.clean, fun x => (hfinal.flat x).symm⟩

/-- Two vectors of three bits to a share of eight, filled in different ways. -/
theorem share_vectors_are_bit_arrays_twoVectors :
    let T : ShareTraits := ⟨⟨8, false⟩, 3, by decide⟩
    let commands : List (Command T) :=
      [.resize 0 2, .setBit 0 3 true, .setBit 0 4 true, .assignFill 1 1 0#8, .pushBack 1 1#8,
        .setBit 1 4 true, .equal 0 1, .getBit 1 6]
    let final := after (session (perform 32 true)) commands fun _ => []
    (∀ value ∈ final 1, Clean T value) ∧
      (final 1).flatMap (shareBits T) = [false, false, false, true, true, false] ∧
      (transcript (session (perform 32 true)) commands fun _ => [])[6]? =
        some (.equal 0 1, .ok (.bool true)) ∧
      (transcript (session (perform 32 true)) commands fun _ => [])[7]? =
        some (.getBit 1 6, .error (.faults .assertion)) := by
  intro T commands final
  have hone : Clean T 1#8 := by
    intro bit hbit
    have hne : bit ≠ 0 := fun hzero => absurd (hzero ▸ hbit : 3 ≤ 0) (by decide)
    change (1#8).getLsbD bit = false
    simp [BitVec.getLsbD_one, hne]
  have hcommands : ∀ command ∈ commands, command.PassesClean := by
    simp only [commands, List.forall_mem_cons, Command.PassesClean]
    exact ⟨trivial, trivial, trivial, clean_zero, hone, trivial, trivial, trivial, nofun⟩
  obtain ⟨hanswers, hclean, hbits⟩ := share_vectors_are_bit_arrays 32 true T rfl (by decide)
    (fun _ => []) (fun _ _ h => nomatch h) commands hcommands
  refine ⟨hclean 1, ?_, ?_, ?_⟩
  · rw [hbits 1]
    decide
  · rw [hanswers]
    subst final commands T
    rfl
  · rw [hanswers]
    subst final commands T
    rfl

end PdkHeaders.BitArrays
