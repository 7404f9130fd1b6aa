import PdkHeaders.Library.Refinement
import PdkHeaders.MetaSyscallsDispatch

set_option autoImplicit false

/-!
# Refinement of the callbacks

A syscall is built of its callbacks and of reads of its arguments. So callbacks over related
states that end alike make syscalls that end alike.
-/
namespace PdkHeaders.SyscallRefinement
open PdkHeaders.Library.Execution PdkHeaders.Library.Refinement
open PdkHeaders.SyscallsCommon PdkHeaders.VmVector PdkHeaders.MetaSyscalls
open PdkHeaders.MetaSyscallsDispatch

section Common
variable {σ τ : Type} {R : σ → τ → Prop}

theorem countRefsLoop_alike (refs : List Reference) (r : ℕ) :
    Alike R (countRefsLoop refs r) (countRefsLoop refs r) := by
  induction refs generalizing r with
  | nil => exact .fault _
  | cons ref rest ih => exact .ite (fun _ => .pure _) fun _ => ih (r + 1)

theorem countRefs_alike (assertions : Bool) (refs : Option (List Reference)) :
    Alike R (countRefs assertions refs) (countRefs assertions refs) := by
  cases refs with
  | none => exact .pure _
  | some entries =>
    cases entries with
    | nil => exact .fault _
    | cons ref rest => exact .bind (.assert _ _) fun _ => countRefsLoop_alike rest 1

theorem check_alike (shape : SyscallArgs) (assertions : Bool) (numArgs : ℕ)
    (refs : Option (List Reference)) (crefs : Option (List CReference)) (returnValue : Pointer) :
    Alike R (shape.check assertions numArgs refs crefs returnValue)
      (shape.check assertions numArgs refs crefs returnValue) := by
  unfold SyscallArgs.check SyscallArgs.checkCounts
  apply Alike.ite fun _ => .pure _
  intro _
  apply Alike.ite fun _ => .pure _
  intro _
  apply Alike.bind (countRefs_alike assertions refs)
  intro n
  apply Alike.ite fun _ => .pure _
  intro _
  apply Alike.bind (countRefs_alike assertions crefs)
  intro m
  exact .ite (fun _ => .pure _) fun _ => .pure _

theorem readArg_alike (args : List CodeBlock) (i : ℕ) :
    Alike R (readArg args i) (readArg args i) := by
  unfold readArg
  cases args[i]? with
  | none => exact .fault _
  | some block => exact .pure _

theorem readCRef_alike (crefs : Option (List CReference)) (i : ℕ) :
    Alike R (readCRef crefs i) (readCRef crefs i) := by
  unfold readCRef
  cases crefs.bind (·[i]?) with
  | none => exact .fault _
  | some cref => exact .pure _

end Common

section Calls
variable {σ τ Ty ρ : Type} {R : σ → τ → Prop}

structure PdpiAlike (R : σ → τ → Prop) (pdpiType : PdpiType σ Ty) (pdpiType' : PdpiType τ Ty) :
    Prop where
  computing : ∀ pdpi, Alike R (pdpiType.isComputingNode pdpi) (pdpiType'.isComputingNode pdpi)
  valid : ∀ T pdpi handle,
    Alike R (pdpiType.isValidHandle T pdpi handle) (pdpiType'.isValidHandle T pdpi handle)

structure ProtocolAlike (R : σ → τ → Prop) (protocol : Protocol σ Ty ρ)
    (protocol' : Protocol τ Ty ρ) : Prop where
  construct : ∀ pdpi, Alike R (protocol.construct pdpi) (protocol'.construct pdpi)
  invoke : ∀ instance_ params,
    Alike R (protocol.invoke instance_ params) (protocol'.invoke instance_ params)

/-- What is printed keeps the states related. -/
def PrintsAlike [HasStderr σ] [HasStderr τ] (R : σ → τ → Prop) : Prop :=
  ∀ text s t, R s t → R (HasStderr.write text s) (HasStderr.write text t)

variable {pdpiType : PdpiType σ Ty} {pdpiType' : PdpiType τ Ty} {protocol : Protocol σ Ty ρ}
  {protocol' : Protocol τ Ty ρ}

theorem get_alike [HasStderr σ] [HasStderr τ] (hprints : PrintsAlike R) {k : ℕ}
    (handles : PdpiVmHandles k) (assertions : Bool) (c : SyscallContext) (args : List CodeBlock)
    (index : ℕ) :
    Alike R (handles.get assertions c args index) (handles.get assertions c args index) := by
  apply Alike.bind (readArg_alike args index)
  intro block
  cases c.getPdpiInfo block.uint64 with
  | none =>
    have hprint : Alike R (fprintf (notFoundText block.uint64))
        (fprintf (notFoundText block.uint64)) := fun s t hs => .ok () (hprints _ s t hs)
    exact .bind hprint fun _ => .pure _
  | some info =>
    apply Alike.ite fun _ => .pure _
    intro _
    exact .bind (.assert _ _) fun _ => .pure _

theorem allValid_alike (h : PdpiAlike R pdpiType pdpiType') (pdpi : Pointer)
    (handles : List (Ty × Pointer)) :
    Alike R (allValid pdpiType pdpi handles) (allValid pdpiType' pdpi handles) := by
  induction handles with
  | nil => exact .pure _
  | cons handle handles ih =>
    exact .bind (h.valid handle.1 pdpi handle.2) fun _ => .ite (fun _ => ih) fun _ => .pure _

variable [HasStderr σ] [HasStderr τ] [ValueTraits Ty] {assertions : Bool} {k : ℕ}
  {input : SyscallInput}

theorem readHandles_alike (slots : List (ℕ × Ty)) :
    Alike R (readHandles (.plain assertions k input : Readers σ Ty k) slots)
      (readHandles (.plain assertions k input : Readers τ Ty k) slots) := by
  induction slots with
  | nil => exact .pure _
  | cons slot slots ih =>
    exact .bind (readArg_alike input.args slot.1) fun _ => .bind ih fun _ => .pure _

theorem readPublic_alike (publicVec : Option Ty) :
    Alike R (readPublic (.plain assertions k input : Readers σ Ty k) publicVec)
      (readPublic (.plain assertions k input : Readers τ Ty k) publicVec) := by
  cases publicVec with
  | none => exact .pure _
  | some L =>
    apply Alike.bind (readCRef_alike input.crefs 0)
    intro cref
    exact .bind (.bind (.assert _ _) fun _ => .pure _) fun _ => .pure _

theorem runProtocol_alike (hpdpi : PdpiAlike R pdpiType pdpiType')
    (hprotocol : ProtocolAlike R protocol protocol') (sig : Signature Ty) (pdpi : Pointer) :
    Alike R (runProtocol (.plain assertions k input) pdpiType protocol sig pdpi)
      (runProtocol (.plain assertions k input) pdpiType' protocol' sig pdpi) := by
  apply Alike.bind (hpdpi.computing pdpi)
  intro computing
  apply Alike.ite fun _ => .pure _
  intro _
  apply Alike.bind (readHandles_alike sig.inputs)
  intro inputs
  apply Alike.bind (readHandles_alike [sig.output])
  intro output
  apply Alike.bind (allValid_alike hpdpi pdpi (inputs ++ output))
  intro valid
  apply Alike.ite fun _ => .pure _
  intro _
  apply Alike.bind (readPublic_alike sig.publicVec)
  intro public_
  apply Alike.bind (hprotocol.construct pdpi)
  intro instance_
  apply Alike.bind (hprotocol.invoke instance_ _)
  intro accepted
  exact .ite (fun _ => .pure _) fun _ => .pure _

theorem admitted_alike (hprints : PrintsAlike R) (shape : SyscallArgs) :
    Alike R ((Readers.plain assertions k input : Readers σ Ty k).admitted shape .init)
      ((Readers.plain assertions k input : Readers τ Ty k).admitted shape .init) := by
  apply Alike.bind (check_alike _ _ _ _ _ _)
  intro valid
  apply Alike.ite fun _ => .pure _
  exact fun _ => get_alike hprints .init assertions input.c input.args 0

theorem call_alike (hprints : PrintsAlike R) (hpdpi : PdpiAlike R pdpiType pdpiType')
    (hprotocol : ProtocolAlike R protocol protocol') (syscall : MetaSyscall Ty)
    (assertions : Bool) (k : ℕ) (input : SyscallInput) :
    Alike R (syscall.call assertions k pdpiType protocol input)
      (syscall.call assertions k pdpiType' protocol' input) := by
  rw [call_eq_dispatch, call_eq_dispatch]
  apply Alike.bind (admitted_alike hprints _)
  intro found
  apply Alike.ite fun _ => .pure _
  intro _
  apply Alike.catchAll (runProtocol_alike hpdpi hprotocol _ _)
  exact fun _ => .pure _

end Calls

end PdkHeaders.SyscallRefinement
