import PdkHeaders.VmVector

set_option autoImplicit false

/-!
# The meta-syscalls

The five syscall bodies and their wrappers, over an arbitrary PDPI type and arbitrary
protocols: every callback may change the state, throw or fault. What they read comes through
their readers, so that the same bodies can also be run with each access noted.
-/
namespace PdkHeaders.MetaSyscalls
open PdkHeaders.Library.Execution PdkHeaders.SyscallsCommon PdkHeaders.VmVector

/-- One argument of `Protocol::invoke`. A share vector reference is the template type the
handle is cast to, with the handle. -/
inductive Param (Ty : Type) where
  | constShareVec (T : Ty) (vec : Pointer)
  | shareVec (T : Ty) (vec : Pointer)
  | immutableVmVec (vec : ImmutableVmVec Ty)
  deriving DecidableEq, Repr

/-- The methods of `PdpiType` that the syscalls call, on the PDPI at an address. -/
structure PdpiType (σ Ty : Type) where
  isComputingNode : Pointer → Exec σ Bool
  isValidHandle : Ty → Pointer → Pointer → Exec σ Bool

/-- A protocol is constructed on the PDPI and then invoked on its arguments. -/
structure Protocol (σ Ty ρ : Type) where
  construct : Pointer → Exec σ ρ
  invoke : ρ → List (Param Ty) → Exec σ Bool

structure SyscallInput where
  args : List CodeBlock
  numArgs : ℕ
  refs : Option (List Reference)
  crefs : Option (List CReference)
  returnValue : Pointer
  c : SyscallContext

/-- How the bodies read their input: the guard they all open with, `args[i]`, `crefs[i]`, and the
vector over a reference. -/
structure Readers (σ Ty : Type) (k : ℕ) where
  admitted : SyscallArgs → PdpiVmHandles k → Exec σ (Bool × PdpiVmHandles k)
  arg : ℕ → Exec σ CodeBlock
  cref : ℕ → Exec σ CReference
  vmVec : Ty → CReference → Exec σ (ImmutableVmVec Ty)

section Plain
variable {σ Ty : Type} [HasStderr σ] (assertions : Bool) (pdkIndex : ℕ) (input : SyscallInput)

/-- `! SyscallArgs<...>::check (...) || ! handles.get (c, args)`, negated. -/
def admitted (countedRefs countedCRefs : Exec σ ℕ) (arg : Exec σ CodeBlock) (shape : SyscallArgs)
    (handles : PdpiVmHandles pdkIndex) : Exec σ (Bool × PdpiVmHandles pdkIndex) := do
  if !(← shape.checkCounts input.numArgs countedRefs countedCRefs input.returnValue) then
    return (false, handles)
  handles.getFrom assertions input.c arg

def Readers.plain [ValueTraits Ty] : Readers σ Ty pdkIndex where
  admitted := MetaSyscalls.admitted assertions pdkIndex input (countRefs assertions input.refs)
    (countRefs assertions input.crefs) (readArg input.args 0)
  arg := readArg input.args
  cref := readCRef input.crefs
  vmVec := ImmutableVmVec.ofCReference assertions

end Plain

section Bodies
variable {σ Ty ρ : Type} {k : ℕ} (read : Readers σ Ty k) (pdpiType : PdpiType σ Ty)
  (protocol : Protocol σ Ty ρ)

def handler (e : Exception) : Exec σ ModuleApi0x1Error :=
  return catchModuleApiErrors (some e)

def binaryVec (T1 T2 T3 : Ty) : Exec σ ModuleApi0x1Error := do
  let (valid, handles) ← read.admitted { numArgs := 4 } .init
  if !valid then
    return .invalidCall
  catchAll (do
    let pdpi := handles.pdpiHandle
    if !(← pdpiType.isComputingNode pdpi) then
      return .ok
    let lhsHandle := (← read.arg 1).p
    let rhsHandle := (← read.arg 2).p
    let resultHandle := (← read.arg 3).p
    if ← notM (pdpiType.isValidHandle T1 pdpi lhsHandle) <||>
        notM (pdpiType.isValidHandle T2 pdpi rhsHandle) <||>
        notM (pdpiType.isValidHandle T3 pdpi resultHandle) then
      return .generalError
    let param1 := .constShareVec T1 lhsHandle
    let param2 := .constShareVec T2 rhsHandle
    let result := .shareVec T3 resultHandle
    let instance_ ← protocol.construct pdpi
    if !(← protocol.invoke instance_ [param1, param2, result]) then
      return .generalError
    return .ok) handler

def binaryArithVec (T : Ty) : Exec σ ModuleApi0x1Error :=
  binaryVec read pdpiType protocol T T T

def relationalVec (T BoolT : Ty) : Exec σ ModuleApi0x1Error :=
  binaryVec read pdpiType protocol T T BoolT

def unaryVec (T L : Ty) : Exec σ ModuleApi0x1Error := do
  let (valid, handles) ← read.admitted { numArgs := 3 } .init
  if !valid then
    return .invalidCall
  catchAll (do
    let pdpi := handles.pdpiHandle
    if !(← pdpiType.isComputingNode pdpi) then
      return .ok
    let paramHandle := (← read.arg 1).p
    let resultHandle := (← read.arg 2).p
    if ← notM (pdpiType.isValidHandle T pdpi paramHandle) <||>
        notM (pdpiType.isValidHandle L pdpi resultHandle) then
      return .generalError
    let param := .constShareVec T paramHandle
    let result := .shareVec L resultHandle
    let instance_ ← protocol.construct pdpi
    if !(← protocol.invoke instance_ [param, result]) then
      return .generalError
    return .ok) handler

def unaryArithVec (T : Ty) : Exec σ ModuleApi0x1Error :=
  unaryVec read pdpiType protocol T T

def nullaryVec (T : Ty) : Exec σ ModuleApi0x1Error := do
  let (valid, handles) ← read.admitted { numArgs := 2 } .init
  if !valid then
    return .invalidCall
  catchAll (do
    let pdpi := handles.pdpiHandle
    if !(← pdpiType.isComputingNode pdpi) then
      return .ok
    let resultHandle := (← read.arg 1).p
    if !(← pdpiType.isValidHandle T pdpi resultHandle) then
      return .generalError
    let result := .shareVec T resultHandle
    if !(← protocol.invoke (← protocol.construct pdpi) [result]) then
      return .generalError
    return .ok) handler

def opcVec (T L : Ty) : Exec σ ModuleApi0x1Error := do
  let (valid, handles) ← read.admitted
    { numArgs := 3, needReturnValue := false, numRefs := 0, numCRefs := 1 } .init
  if !valid then
    return .invalidCall
  catchAll (do
    let pdpi := handles.pdpiHandle
    if !(← pdpiType.isComputingNode pdpi) then
      return .ok
    let param1Handle := (← read.arg 1).p
    let resultHandle := (← read.arg 2).p
    if ← notM (pdpiType.isValidHandle T pdpi param1Handle) <||>
        notM (pdpiType.isValidHandle T pdpi resultHandle) then
      return .generalError
    let param1 := .constShareVec T param1Handle
    let param2 ← read.vmVec L (← read.cref 0)
    let result := .shareVec T resultHandle
    if !(← protocol.invoke (← protocol.construct pdpi)
        [param1, .immutableVmVec param2, result]) then
      return .generalError
    return .ok) handler

def opcArithVec (T : Ty) : Exec σ ModuleApi0x1Error :=
  opcVec read pdpiType protocol T T

def compareVec (T BoolT : Ty) (flipParams : Bool) : Exec σ ModuleApi0x1Error := do
  let (valid, handles) ← read.admitted { numArgs := 4 } .init
  if !valid then
    return .invalidCall
  catchAll (do
    let pdpi := handles.pdpiHandle
    if !(← pdpiType.isComputingNode pdpi) then
      return .ok
    let param1Handle := (← read.arg (if flipParams then 2 else 1)).p
    let param2Handle := (← read.arg (if flipParams then 1 else 2)).p
    let resultHandle := (← read.arg 3).p
    if ← notM (pdpiType.isValidHandle T pdpi param1Handle) <||>
        notM (pdpiType.isValidHandle T pdpi param2Handle) <||>
        notM (pdpiType.isValidHandle BoolT pdpi resultHandle) then
      return .generalError
    let param1 := .constShareVec T param1Handle
    let param2 := .constShareVec T param2Handle
    let result := .shareVec BoolT resultHandle
    let comparisonProtocol ← protocol.construct pdpi
    if !(← protocol.invoke comparisonProtocol [param1, param2, result]) then
      return .generalError
    return .ok) handler

end Bodies

/-- The syscalls with their template arguments other than the protocol. -/
inductive MetaSyscall (Ty : Type) where
  | binaryVec (T1 T2 T3 : Ty)
  | binaryArithVec (T : Ty)
  | relationalVec (T BoolT : Ty)
  | unaryVec (T L : Ty)
  | unaryArithVec (T : Ty)
  | nullaryVec (T : Ty)
  | opcVec (T L : Ty)
  | opcArithVec (T : Ty)
  | compareVec (T BoolT : Ty) (flipParams : Bool)
  deriving DecidableEq, Repr

def MetaSyscall.body {σ Ty ρ : Type} {k : ℕ} (syscall : MetaSyscall Ty) (read : Readers σ Ty k)
    (pdpiType : PdpiType σ Ty) (protocol : Protocol σ Ty ρ) : Exec σ ModuleApi0x1Error :=
  match syscall with
  | .binaryVec T1 T2 T3 => MetaSyscalls.binaryVec read pdpiType protocol T1 T2 T3
  | .binaryArithVec T => MetaSyscalls.binaryArithVec read pdpiType protocol T
  | .relationalVec T BoolT => MetaSyscalls.relationalVec read pdpiType protocol T BoolT
  | .unaryVec T L => MetaSyscalls.unaryVec read pdpiType protocol T L
  | .unaryArithVec T => MetaSyscalls.unaryArithVec read pdpiType protocol T
  | .nullaryVec T => MetaSyscalls.nullaryVec read pdpiType protocol T
  | .opcVec T L => MetaSyscalls.opcVec read pdpiType protocol T L
  | .opcArithVec T => MetaSyscalls.opcArithVec read pdpiType protocol T
  | .compareVec T BoolT flipParams =>
    MetaSyscalls.compareVec read pdpiType protocol T BoolT flipParams

def MetaSyscall.call {σ Ty ρ : Type} [HasStderr σ] [ValueTraits Ty] (syscall : MetaSyscall Ty)
    (assertions : Bool) (pdkIndex : ℕ) (pdpiType : PdpiType σ Ty) (protocol : Protocol σ Ty ρ)
    (input : SyscallInput) : Exec σ ModuleApi0x1Error :=
  syscall.body (.plain assertions pdkIndex input) pdpiType protocol

end PdkHeaders.MetaSyscalls
