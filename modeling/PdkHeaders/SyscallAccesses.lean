import PdkHeaders.Library.Tracing
import PdkHeaders.MetaSyscalls

set_option autoImplicit false

/-!
# What the syscalls read

Readers that note each access to the arguments and references before it is made. The callbacks
note nothing.
-/
namespace PdkHeaders.SyscallAccesses
open PdkHeaders.Library.Execution PdkHeaders.Library.Tracing
open PdkHeaders.SyscallsCommon PdkHeaders.VmVector PdkHeaders.MetaSyscalls

inductive Access where
  | arg (i : ℕ)
  | countsRef (i : ℕ)
  | countsCRef (i : ℕ)
  | cref (i : ℕ)
  | vmVec (first : Pointer)
  deriving DecidableEq, Repr

section Noting
variable {σ Ty : Type}

instance [HasStderr σ] : HasStderr (σ × List Access) where
  write text t := (HasStderr.write text t.1, t.2)

def tracedCountRefsLoop (entry : ℕ → Access) : ℕ → List Reference → ℕ → Traced σ Access ℕ
  | i, [], _ => do
    note (entry i)
    fault .badAccess
  | i, ref :: rest, r => do
    note (entry i)
    if ref.pData = nullptr then pure r else tracedCountRefsLoop entry (i + 1) rest (r + 1)

/-- Only the assertion reads the first entry. -/
def tracedCountRefs (entry : ℕ → Access) (assertions : Bool) :
    Option (List Reference) → Traced σ Access ℕ
  | none => pure 0
  | some [] => fault .badAccess
  | some (ref :: rest) => do
    if assertions then
      note (entry 0)
    assert assertions (ref.pData != nullptr)
    tracedCountRefsLoop entry 1 rest 1

def noted (event : Access) {α : Type} (m : Exec σ α) : Traced σ Access α := do
  note event
  silent m

def notingReaders [HasStderr σ] [ValueTraits Ty] (assertions : Bool) (pdkIndex : ℕ)
    (input : SyscallInput) : Readers (σ × List Access) Ty pdkIndex where
  admitted := MetaSyscalls.admitted assertions pdkIndex input
    (tracedCountRefs .countsRef assertions input.refs)
    (tracedCountRefs .countsCRef assertions input.crefs) (noted (.arg 0) (readArg input.args 0))
  arg i := noted (.arg i) (readArg input.args i)
  cref i := noted (.cref i) (readCRef input.crefs i)
  vmVec L cref := noted (.vmVec cref.pData) (ImmutableVmVec.ofCReference assertions L cref)

def silentPdpi (pdpiType : PdpiType σ Ty) : PdpiType (σ × List Access) Ty where
  isComputingNode pdpi := silent (pdpiType.isComputingNode pdpi)
  isValidHandle T pdpi handle := silent (pdpiType.isValidHandle T pdpi handle)

def silentProtocol {ρ : Type} (protocol : Protocol σ Ty ρ) :
    Protocol (σ × List Access) Ty ρ where
  construct pdpi := silent (protocol.construct pdpi)
  invoke instance_ params := silent (protocol.invoke instance_ params)

end Noting

/-- The syscall itself, run with its accesses noted. -/
def tracedCall {σ Ty ρ : Type} [HasStderr σ] [ValueTraits Ty] (syscall : MetaSyscall Ty)
    (assertions : Bool) (pdkIndex : ℕ) (pdpiType : PdpiType σ Ty) (protocol : Protocol σ Ty ρ)
    (input : SyscallInput) : Traced σ Access ModuleApi0x1Error :=
  syscall.body (notingReaders assertions pdkIndex input) (silentPdpi pdpiType)
    (silentProtocol protocol)

end PdkHeaders.SyscallAccesses
