import PdkHeaders.SyscallsCommon

set_option autoImplicit false

/-! Value traits, and the vectors that wrap VM references. -/
namespace PdkHeaders.VmVector
open PdkHeaders.Library.Execution PdkHeaders.SyscallsCommon

/-- The traits of the value types that the heap and the syscalls use. -/
class ValueTraits (Ty : Type) where
  heapTypeId : Ty → UInt8
  sizeofPublicType : Ty → ℕ

instance : ValueTraits Bool where
  heapTypeId T := if T then 1 else 2
  sizeofPublicType T := if T then 1 else 8

theorem heapTypeId_injective : Function.Injective (ValueTraits.heapTypeId : Bool → UInt8) := by
  intro T U h
  cases T <;> cases U <;> first | rfl | exact absurd h (by decide)

/-- A non-owning view of VM memory as values of the public type of `valueType`. -/
structure ImmutableVmVec (Ty : Type) where
  valueType : Ty
  mBegin : Pointer
  mSize : ℕ
  deriving DecidableEq, Repr

section
variable {σ Ty : Type}

/-- `VmVecBase(T * const begin, std::size_t const size)`, with `assertReturn(begin)`. -/
def vmVecBase (assertions : Bool) (valueType : Ty) (first : Pointer) (size : ℕ) :
    Exec σ (ImmutableVmVec Ty) := do
  assert assertions (first != nullptr)
  return ⟨valueType, first, size⟩

def ImmutableVmVec.ofCReference [ValueTraits Ty] (assertions : Bool) (valueType : Ty)
    (cref : CReference) : Exec σ (ImmutableVmVec Ty) :=
  vmVecBase assertions valueType cref.pData (cref.size / ValueTraits.sizeofPublicType valueType)

end
end PdkHeaders.VmVector
