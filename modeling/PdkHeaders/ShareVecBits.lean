import PdkHeaders.Library.Integers
import PdkHeaders.Library.Writes

set_option autoImplicit false

/-! The bits of a share vector, packed `numOfBits` to a block of the share type. -/
namespace PdkHeaders.ShareVecBits
open PdkHeaders.Library.Execution PdkHeaders.Library.Integers PdkHeaders.Library.Writes

/-- The share type and the number of bits of an element type, with the static assertion of the
two operations. -/
structure ShareTraits where
  shareType : IntegerType
  numOfBits : ℕ
  nonzero : numOfBits ≠ 0

structure ShareVec (T : ShareTraits) where
  mVector : List T.shareType.Value

section
variable {T : ShareTraits}

def ShareVec.size (vec : ShareVec T) : ℕ := vec.mVector.length

/-- An operation without a value is undefined behaviour, as an access out of bounds is. -/
def defined {σ α : Type} : Option α → Exec σ α
  | some a => pure a
  | none => fault .badAccess

variable (T) (intWidth : ℕ) (assertions : Bool)

/-- `value_type (1) << amount`, of the promoted type. -/
def shiftedOne {σ : Type} (amount : ℕ) : Exec σ (T.shareType.promote intWidth).Value :=
  defined ((T.shareType.promote intWidth).shiftLeft (T.shareType.promoted intWidth 1) amount)

def readBlock (blockIndex : ℕ) : Exec (ShareVec T) T.shareType.Value := do
  let vec ← get
  assert assertions (blockIndex < vec.size)
  defined vec.mVector[blockIndex]?

def writeBlock (blockIndex : ℕ) (value : (T.shareType.promote intWidth).Value) :
    Exec (ShareVec T) Unit :=
  modify fun vec => ⟨vec.mVector.set blockIndex (T.shareType.assigned intWidth value)⟩

def setBit (i : ℕ) (value : Bool) : Exec (ShareVec T) Unit := do
  let blockIndex := i / T.numOfBits
  let shifted ← shiftedOne T intWidth (i % T.numOfBits)
  let mask := T.shareType.assigned intWidth shifted
  let block ← readBlock T assertions blockIndex
  if value then
    writeBlock T intWidth blockIndex
      (T.shareType.promoted intWidth block ||| T.shareType.promoted intWidth mask)
  else
    writeBlock T intWidth blockIndex
      (T.shareType.promoted intWidth block &&& ~~~ T.shareType.promoted intWidth mask)

def getBit (i : ℕ) : Exec (ShareVec T) Bool := do
  let bitIndex := i % T.numOfBits
  let blockIndex := i / T.numOfBits
  let block ← readBlock T assertions blockIndex
  let shifted ← shiftedOne T intWidth bitIndex
  return T.shareType.promoted intWidth block &&& shifted != 0

end

section
variable {T : ShareTraits} {intWidth : ℕ} {assertions : Bool}

def ShareVec.blockBit (vec : ShareVec T) (blockIndex bit : ℕ) : Option Bool :=
  vec.mVector[blockIndex]?.map fun block => block.getLsbD bit

/-- The bit that the two operations address by `i`. -/
def ShareVec.bitAt (vec : ShareVec T) (i : ℕ) : Bool :=
  (vec.blockBit (i / T.numOfBits) (i % T.numOfBits)).getD false

def putBit {w : ℕ} (bit : ℕ) (value : Bool) (block : BitVec w) : BitVec w :=
  if value then block ||| BitVec.twoPow w bit else block &&& ~~~ BitVec.twoPow w bit

def ShareVec.put (vec : ShareVec T) (i : ℕ) (value : Bool) : ShareVec T :=
  ⟨vec.mVector.modify (i / T.numOfBits) (putBit (i % T.numOfBits) value)⟩

theorem ShareVec.ext {u v : ShareVec T} (hsize : u.size = v.size)
    (h : ∀ blockIndex bit, u.blockBit blockIndex bit = v.blockBit blockIndex bit) : u = v := by
  obtain ⟨xs⟩ := u
  obtain ⟨ys⟩ := v
  have hlength : xs.length = ys.length := hsize
  congr 1
  apply List.ext_getElem hlength
  intro k hx hy
  apply BitVec.eq_of_getLsbD_eq
  intro bit _
  have hbit := h k bit
  simpa [blockBit, hx, hy] using hbit

theorem ShareVec.blockBit_of_lt {vec : ShareVec T} {blockIndex : ℕ} (h : blockIndex < vec.size)
    (bit : ℕ) :
    vec.blockBit blockIndex bit = some ((vec.mVector.get ⟨blockIndex, h⟩).getLsbD bit) := by
  rw [blockBit, List.getElem?_eq_getElem h]
  rfl

theorem ShareVec.blockBit_of_le {vec : ShareVec T} {blockIndex : ℕ} (h : vec.size ≤ blockIndex)
    (bit : ℕ) : vec.blockBit blockIndex bit = none := by
  rw [blockBit, List.getElem?_eq_none h, Option.map_none]

@[simp] theorem ShareVec.put_size (vec : ShareVec T) (i : ℕ) (value : Bool) :
    (vec.put i value).size = vec.size := List.length_modify _ _ _

theorem putBit_bit {w bit : ℕ} (hbit : bit < w) (value : Bool) (block : BitVec w) (k : ℕ) :
    (putBit bit value block).getLsbD k = if bit = k then value else block.getLsbD k := by
  by_cases hk : bit = k
  · subst hk
    cases value <;> simp [putBit, hbit]
  · have hmask : (BitVec.twoPow w bit).getLsbD k = false := by
      simp [BitVec.getLsbD_twoPow, hk]
    rw [if_neg hk]
    cases value with
    | true => rw [putBit, if_pos rfl, BitVec.getLsbD_or, hmask, Bool.or_false]
    | false =>
      by_cases hkw : k < w
      · rw [putBit, if_neg Bool.false_ne_true, BitVec.getLsbD_and, BitVec.getLsbD_not, hmask,
          decide_eq_true hkw, Bool.not_false, Bool.and_self, Bool.and_true]
      · have hge : w ≤ k := Nat.le_of_not_lt hkw
        rw [BitVec.getLsbD_of_ge _ _ hge, BitVec.getLsbD_of_ge _ _ hge]

theorem mod_lt_width (hbits : T.numOfBits ≤ T.shareType.width) (i : ℕ) :
    i % T.numOfBits < T.shareType.width :=
  Nat.lt_of_lt_of_le (Nat.mod_lt _ (Nat.pos_of_ne_zero T.nonzero)) hbits

theorem ShareVec.put_blockBit (hbits : T.numOfBits ≤ T.shareType.width) (vec : ShareVec T)
    (i : ℕ) (value : Bool) (blockIndex bit : ℕ) :
    (vec.put i value).blockBit blockIndex bit =
      if i / T.numOfBits = blockIndex ∧ i % T.numOfBits = bit then
        (vec.blockBit blockIndex bit).map fun _ => value
      else vec.blockBit blockIndex bit := by
  simp only [blockBit, put]
  by_cases hblock : i / T.numOfBits = blockIndex
  · subst hblock
    rw [List.getElem?_modify_eq]
    cases vec.mVector[i / T.numOfBits]? with
    | none => simp
    | some block =>
      have hput := putBit_bit (mod_lt_width hbits i) value block bit
      by_cases hbit : i % T.numOfBits = bit
      · rw [if_pos hbit] at hput
        rw [if_pos ⟨rfl, hbit⟩]
        exact congrArg some hput
      · rw [if_neg hbit] at hput
        rw [if_neg fun h => hbit h.2]
        exact congrArg some hput
  · rw [List.getElem?_modify_ne _ _ hblock, if_neg fun h => hblock h.1]

theorem shiftedOne_run {σ : Type} (hunsigned : T.shareType.signed = false) {amount : ℕ}
    (hamount : amount < T.shareType.width) (s : σ) :
    (shiftedOne T intWidth amount).run s =
      .ok (BitVec.twoPow (T.shareType.promote intWidth).width amount) s := by
  rw [shiftedOne, IntegerType.shiftLeft_one hunsigned hamount]
  rfl

theorem readBlock_run {vec : ShareVec T} {blockIndex : ℕ} {block : T.shareType.Value}
    (hblock : vec.mVector[blockIndex]? = some block) :
    (readBlock T assertions blockIndex).run vec = .ok block vec := by
  have hlt : blockIndex < vec.size := (List.getElem?_eq_some_iff.mp hblock).1
  rw [readBlock, bind_ok (EStateM.run_get vec), decide_eq_true hlt, assert_true, hblock]
  rfl

theorem getElem?_of_inRange {vec : ShareVec T} {i : ℕ} (h : i / T.numOfBits < vec.size) :
    ∃ block, vec.mVector[i / T.numOfBits]? = some block :=
  ⟨_, List.getElem?_eq_getElem h⟩

theorem getBit_run (hunsigned : T.shareType.signed = false)
    (hbits : T.numOfBits ≤ T.shareType.width) {vec : ShareVec T} {i : ℕ}
    (hi : i / T.numOfBits < vec.size) :
    (getBit T intWidth assertions i).run vec = .ok (vec.bitAt i) vec := by
  obtain ⟨block, hblock⟩ := getElem?_of_inRange hi
  have hmod := mod_lt_width hbits i
  have hbit : vec.bitAt i = block.getLsbD (i % T.numOfBits) := by
    simp only [ShareVec.bitAt, ShareVec.blockBit, hblock, Option.map_some, Option.getD_some]
  rw [getBit, bind_ok (readBlock_run hblock), bind_ok (shiftedOne_run hunsigned hmod vec),
    IntegerType.promoted_and_twoPow block hmod, hbit]
  rfl

theorem setBit_run (hunsigned : T.shareType.signed = false)
    (hbits : T.numOfBits ≤ T.shareType.width) {vec : ShareVec T} {i : ℕ}
    (hi : i / T.numOfBits < vec.size) (value : Bool) :
    (setBit T intWidth assertions i value).run vec = .ok () (vec.put i value) := by
  obtain ⟨block, hblock⟩ := getElem?_of_inRange hi
  have hmod := mod_lt_width hbits i
  have hput : vec.put i value =
      ⟨vec.mVector.set (i / T.numOfBits) (putBit (i % T.numOfBits) value block)⟩ := by
    rw [ShareVec.put, List.modify_eq_set, hblock]
    rfl
  rw [setBit, bind_ok (shiftedOne_run hunsigned hmod vec),
    IntegerType.assigned_twoPow _ hmod, bind_ok (readBlock_run hblock), hput]
  cases value with
  | true =>
    rw [if_pos rfl, writeBlock, IntegerType.assigned_or]
    rfl
  | false =>
    rw [if_neg Bool.false_ne_true, writeBlock, IntegerType.assigned_and_not]
    rfl

/-- The blocks are as many as in `initial`, and equal to its blocks above the element bits. -/
def SameOutside (initial vec : ShareVec T) : Prop :=
  vec.size = initial.size ∧ ∀ blockIndex bit, T.numOfBits ≤ bit →
    vec.blockBit blockIndex bit = initial.blockBit blockIndex bit

theorem SameOutside.put (hbits : T.numOfBits ≤ T.shareType.width) {initial vec : ShareVec T}
    (h : SameOutside initial vec) (i : ℕ) (value : Bool) :
    SameOutside initial (vec.put i value) := by
  apply And.intro
  · rw [ShareVec.put_size, h.1]
  · intro blockIndex bit hbit
    have hlt : i % T.numOfBits < T.numOfBits := Nat.mod_lt _ (Nat.pos_of_ne_zero T.nonzero)
    have hne : ¬ (i / T.numOfBits = blockIndex ∧ i % T.numOfBits = bit) := by omega
    rw [ShareVec.put_blockBit hbits, if_neg hne, h.2 blockIndex bit hbit]

theorem bitAt_put (hbits : T.numOfBits ≤ T.shareType.width) {vec : ShareVec T} {i j : ℕ}
    (hj : j / T.numOfBits < vec.size) (value : Bool) :
    (vec.put i value).bitAt j = if i = j then value else vec.bitAt j := by
  rw [ShareVec.bitAt, ShareVec.put_blockBit hbits]
  by_cases hij : i = j
  · subst hij
    rw [if_pos ⟨rfl, rfl⟩, if_pos rfl, ShareVec.blockBit_of_lt hj]
    rfl
  · have hne : ¬ (i / T.numOfBits = j / T.numOfBits ∧ i % T.numOfBits = j % T.numOfBits) := by
      rintro ⟨hdiv, hmod⟩
      apply hij
      rw [← Nat.div_add_mod i T.numOfBits, hdiv, hmod, Nat.div_add_mod]
    rw [if_neg hne, if_neg hij]
    rfl

theorem address_div {bit : ℕ} (blockIndex : ℕ) (hbit : bit < T.numOfBits) :
    (bit + T.numOfBits * blockIndex) / T.numOfBits = blockIndex := by
  rw [Nat.add_mul_div_left _ _ (by omega), Nat.div_eq_of_lt hbit, Nat.zero_add]

theorem address_mod {bit : ℕ} (blockIndex : ℕ) (hbit : bit < T.numOfBits) :
    (bit + T.numOfBits * blockIndex) % T.numOfBits = bit := by
  rw [Nat.add_mul_mod_self_left, Nat.mod_eq_of_lt hbit]

/-- The bits that `getBit` reads and those above the element bits are all there is. -/
theorem eq_of_bitAt {initial u v : ShareVec T} (hu : SameOutside initial u)
    (hv : SameOutside initial v)
    (h : ∀ j, j / T.numOfBits < initial.size → u.bitAt j = v.bitAt j) : u = v := by
  have hsize : u.size = v.size := hu.1.trans hv.1.symm
  apply ShareVec.ext hsize
  intro blockIndex bit
  by_cases hbit : T.numOfBits ≤ bit
  · rw [hu.2 blockIndex bit hbit, hv.2 blockIndex bit hbit]
  · by_cases hblock : blockIndex < u.size
    · have hdiv := address_div (T := T) blockIndex (Nat.lt_of_not_le hbit)
      have hmod := address_mod (T := T) blockIndex (Nat.lt_of_not_le hbit)
      have heq := h (bit + T.numOfBits * blockIndex) (by rw [hdiv, ← hu.1]; exact hblock)
      rw [ShareVec.bitAt, ShareVec.bitAt, hdiv, hmod] at heq
      have hx := ShareVec.blockBit_of_lt hblock bit
      rw [hsize] at hblock
      have hy := ShareVec.blockBit_of_lt hblock bit
      rw [hx, hy] at heq ⊢
      exact congrArg some heq
    · have hx := ShareVec.blockBit_of_le (Nat.le_of_not_lt hblock) bit
      rw [hsize] at hblock
      rw [hx, ShareVec.blockBit_of_le (Nat.le_of_not_lt hblock) bit]

theorem setBit_writesTo (intWidth : ℕ) (assertions : Bool)
    (hunsigned : T.shareType.signed = false) (hbits : T.numOfBits ≤ T.shareType.width)
    (initial : ShareVec T) :
    WritesTo (SameOutside initial) (fun i => i / T.numOfBits < initial.size) ShareVec.bitAt
      (fun write => setBit T intWidth assertions write.1 write.2) := by
  intro i value vec hvec hi
  have hi' : i / T.numOfBits < vec.size := by rw [hvec.1]; exact hi
  refine ⟨vec.put i value, setBit_run hunsigned hbits hi' value, hvec.put hbits i value, ?_⟩
  intro j hj
  exact bitAt_put hbits (by rw [hvec.1]; exact hj) value

/-- A share vector is an array of independent bits, whatever is promoted to `int` on the way. -/
theorem setBit_getBit_array (intWidth : ℕ) (assertions : Bool) (T : ShareTraits)
    (hunsigned : T.shareType.signed = false) (hbits : T.numOfBits ≤ T.shareType.width)
    (vec : ShareVec T) (writes : List (ℕ × Bool))
    (hrange : ∀ write ∈ writes, write.1 / T.numOfBits < vec.size) :
    ∃ after, (runAll (fun write => setBit T intWidth assertions write.1 write.2) writes).run vec =
        .ok () after ∧
      after.size = vec.size ∧
      (∀ blockIndex bit, T.numOfBits ≤ bit →
        after.blockBit blockIndex bit = vec.blockBit blockIndex bit) ∧
      (∀ j, j / T.numOfBits < vec.size →
        (getBit T intWidth assertions j).run vec = .ok (vec.bitAt j) vec ∧
        (getBit T intWidth assertions j).run after =
          .ok ((lastWrite writes j).getD (vec.bitAt j)) after) ∧
      ∀ i j a b, i / T.numOfBits < vec.size → j / T.numOfBits < vec.size → i ≠ j →
        (setBit T intWidth assertions i a >>= fun _ => setBit T intWidth assertions j b).run vec =
          (setBit T intWidth assertions j b >>= fun _ =>
            setBit T intWidth assertions i a).run vec := by
  have hwrites := setBit_writesTo intWidth assertions hunsigned hbits vec
  have hvec : SameOutside vec vec := ⟨rfl, fun _ _ _ => rfl⟩
  obtain ⟨after, hrun, hafter, hread⟩ := runAll_writes hwrites hrange hvec
  refine ⟨after, hrun, hafter.1, hafter.2, ?_, ?_⟩
  · intro j hj
    apply And.intro (getBit_run hunsigned hbits hj)
    rw [getBit_run hunsigned hbits (by rw [hafter.1]; exact hj), hread j hj]
  · intro i j a b hi hj hne
    exact writes_commute hwrites (fun u v => eq_of_bitAt) hi hj hne a b hvec

/-- Three bits to a block of eight: the last bit of one block and the first of the next. -/
theorem setBit_getBit_array_boundary :
    let T : ShareTraits := ⟨⟨8, false⟩, 3, by decide⟩
    let vec : ShareVec T := ⟨[0xaa#8, 0x55#8]⟩
    ∃ after, (runAll (fun write => setBit T 32 true write.1 write.2)
        [(2, true), (3, false), (2, true)]).run vec = .ok () after ∧
      after.size = 2 ∧ (getBit T 32 true 2).run after = .ok true after ∧
      (getBit T 32 true 3).run after = .ok false after ∧
      (getBit T 32 true 4).run after = .ok false after := by
  intro T vec
  obtain ⟨after, hrun, hsize, _, hread, _⟩ := setBit_getBit_array 32 true T rfl (by decide) vec
    [(2, true), (3, false), (2, true)] (by decide)
  have hinitial : vec.bitAt 4 = false := by simp [vec, T, ShareVec.bitAt, ShareVec.blockBit]
  exact ⟨after, hrun, hsize, (hread 2 (by decide)).2, (hread 3 (by decide)).2,
    by rw [(hread 4 (by decide)).2, hinitial]; rfl⟩

end
end PdkHeaders.ShareVecBits
