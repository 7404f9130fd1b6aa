import PdkHeaders.MetaSyscalls

set_option autoImplicit false

/-!
# The common text of the syscalls

The five bodies differ in their signature only. One text, parameterised by a signature, is equal
to each of them at its own signature, for arbitrary readers and arbitrary callbacks.
-/
namespace PdkHeaders.MetaSyscallsDispatch
open PdkHeaders.Library.Execution PdkHeaders.SyscallsCommon PdkHeaders.VmVector
open PdkHeaders.MetaSyscalls

/-- Argument slots with the types their handles must have, in the order of the protocol. -/
structure Signature (Ty : Type) where
  numArgs : ℕ
  numCRefs : ℕ
  inputs : List (ℕ × Ty)
  publicVec : Option Ty
  output : ℕ × Ty
  deriving DecidableEq, Repr

def Signature.shape {Ty : Type} (sig : Signature Ty) : SyscallArgs :=
  { numArgs := sig.numArgs, numCRefs := sig.numCRefs }

section Text
variable {σ Ty ρ : Type} {k : ℕ} (read : Readers σ Ty k) (pdpiType : PdpiType σ Ty)
  (protocol : Protocol σ Ty ρ)

/-- All handles are read before the first of them is inspected. -/
def readHandles : List (ℕ × Ty) → Exec σ (List (Ty × Pointer))
  | [] => pure []
  | (slot, T) :: slots => do
    let block ← read.arg slot
    let handles ← readHandles slots
    return (T, block.p) :: handles

/-- Inspection in declared order, up to the first invalid handle. -/
def allValid (pdpi : Pointer) : List (Ty × Pointer) → Exec σ Bool
  | [] => pure true
  | (T, handle) :: handles => do
    if ← pdpiType.isValidHandle T pdpi handle then
      allValid pdpi handles
    else
      return false

def readPublic : Option Ty → Exec σ (List (Param Ty))
  | none => pure []
  | some L => do
    let vec ← read.vmVec L (← read.cref 0)
    return [.immutableVmVec vec]

def parameters (inputs : List (Ty × Pointer)) (public_ : List (Param Ty))
    (output : List (Ty × Pointer)) : List (Param Ty) :=
  inputs.map (fun handle => .constShareVec handle.1 handle.2) ++ public_ ++
    output.map (fun handle => .shareVec handle.1 handle.2)

def runProtocol (signature : Signature Ty) (pdpi : Pointer) : Exec σ ModuleApi0x1Error := do
  if !(← pdpiType.isComputingNode pdpi) then
    return .ok
  let inputs ← readHandles read signature.inputs
  let output ← readHandles read [signature.output]
  if !(← allValid pdpiType pdpi (inputs ++ output)) then
    return .generalError
  let public_ ← readPublic read signature.publicVec
  let instance_ ← protocol.construct pdpi
  if !(← protocol.invoke instance_ (parameters inputs public_ output)) then
    return .generalError
  return .ok

def dispatch (signature : Signature Ty) : Exec σ ModuleApi0x1Error := do
  let (valid, handles) ← read.admitted signature.shape .init
  if !valid then
    return .invalidCall
  catchAll (runProtocol read pdpiType protocol signature handles.pdpiHandle) handler

end Text

/-- The signatures as the doc comments of the syscalls list them. -/
def signature {Ty : Type} : MetaSyscall Ty → Signature Ty
  | .binaryVec T1 T2 T3 => ⟨4, 0, [(1, T1), (2, T2)], none, (3, T3)⟩
  | .binaryArithVec T => ⟨4, 0, [(1, T), (2, T)], none, (3, T)⟩
  | .relationalVec T BoolT => ⟨4, 0, [(1, T), (2, T)], none, (3, BoolT)⟩
  | .unaryVec T L => ⟨3, 0, [(1, T)], none, (2, L)⟩
  | .unaryArithVec T => ⟨3, 0, [(1, T)], none, (2, T)⟩
  | .nullaryVec T => ⟨2, 0, [], none, (1, T)⟩
  | .opcVec T L => ⟨3, 1, [(1, T)], some L, (2, T)⟩
  | .opcArithVec T => ⟨3, 1, [(1, T)], some T, (2, T)⟩
  | .compareVec T BoolT flipParams =>
    ⟨4, 0, [(if flipParams then 2 else 1, T), (if flipParams then 1 else 2, T)], none, (3, BoolT)⟩

section Slots
variable {Ty : Type}

/-- The slots of a signature are among its arguments, and a public operand is a reference. -/
structure Signature.InRange (sig : Signature Ty) : Prop where
  positive : 0 < sig.numArgs
  inputs : ∀ slot ∈ sig.inputs, slot.1 < sig.numArgs
  output : sig.output.1 < sig.numArgs
  public_ : sig.publicVec ≠ none → 0 < sig.numCRefs

theorem signature_inRange (syscall : MetaSyscall Ty) : Signature.InRange (signature syscall) := by
  cases syscall with
  | compareVec T BoolT flipParams =>
    cases flipParams <;> constructor <;> simp [signature]
  | _ => constructor <;> simp [signature]

end Slots

section ShortCircuit
variable {σ Ty α : Type} (pdpiType : PdpiType σ Ty)

theorem ite_not_valid (valid : Bool) (rejected accepted : α) :
    (if (!valid) = true then rejected else accepted) =
      if valid = true then accepted else rejected := by
  cases valid <;> rfl

theorem notM_bind (check : Exec σ Bool) (k : Bool → Exec σ α) :
    (notM check >>= k) = check >>= fun valid => k (!valid) := by
  simp only [notM, bind_map_left]

/-- A rejected check ends the disjunction; an accepted one hands over to the others. -/
theorem orM_bind (check others : Exec σ Bool) (k : Bool → Exec σ α) :
    (orM (notM check) others >>= k) =
      check >>= fun valid => if valid then others >>= k else k true := by
  simp only [orM, bind_assoc, notM_bind]
  apply bind_congr
  intro valid
  cases valid
  · exact pure_bind _ _
  · rfl

theorem allValid_nil_bind (pdpi : Pointer) (k : Bool → Exec σ α) :
    (allValid pdpiType pdpi [] >>= k) = k true := pure_bind _ _

theorem allValid_cons_bind (pdpi : Pointer) (T : Ty) (handle : Pointer)
    (handles : List (Ty × Pointer)) (k : Bool → Exec σ α) :
    (allValid pdpiType pdpi ((T, handle) :: handles) >>= k) =
      pdpiType.isValidHandle T pdpi handle >>= fun valid =>
        if valid then allValid pdpiType pdpi handles >>= k else k false := by
  rw [allValid, bind_assoc]
  apply bind_congr
  intro valid
  cases valid
  · exact pure_bind _ _
  · rfl

end ShortCircuit

section Agreement
variable {σ Ty ρ : Type} {k : ℕ} (read : Readers σ Ty k) (pdpiType : PdpiType σ Ty)
  (protocol : Protocol σ Ty ρ)

/-- A body is the common text as soon as its `try` block runs the protocol of its signature. -/
theorem dispatch_of_body (sig : Signature Ty)
    (rest : Bool × PdpiVmHandles k → Exec σ ModuleApi0x1Error)
    (hrejected : ∀ handles, rest (false, handles) = pure .invalidCall)
    (hadmitted : ∀ handles, rest (true, handles) =
      catchAll (runProtocol read pdpiType protocol sig handles.pdpiHandle) handler) :
    (read.admitted sig.shape .init >>= rest) = dispatch read pdpiType protocol sig := by
  rw [dispatch]
  apply bind_congr
  rintro ⟨valid, handles⟩
  cases valid with
  | false => exact hrejected handles
  | true => exact hadmitted handles

theorem binaryVec_eq (T1 T2 T3 : Ty) :
    binaryVec read pdpiType protocol T1 T2 T3 =
      dispatch read pdpiType protocol ⟨4, 0, [(1, T1), (2, T2)], none, (3, T3)⟩ := by
  rw [binaryVec]
  refine dispatch_of_body read pdpiType protocol ⟨4, 0, [(1, T1), (2, T2)], none, (3, T3)⟩ _
    (fun _ => rfl) fun handles => ?_
  change catchAll _ handler = _
  congr 1
  simp only [runProtocol, readHandles, readPublic, parameters, bind_assoc, pure_bind, orM_bind,
    notM_bind, allValid_cons_bind, allValid_nil_bind, ite_not_valid, List.cons_append,
    List.nil_append, List.map_cons, List.map_nil, ↓reduceIte, Bool.false_eq_true]

theorem unaryVec_eq (T L : Ty) :
    unaryVec read pdpiType protocol T L =
      dispatch read pdpiType protocol ⟨3, 0, [(1, T)], none, (2, L)⟩ := by
  rw [unaryVec]
  refine dispatch_of_body read pdpiType protocol ⟨3, 0, [(1, T)], none, (2, L)⟩ _
    (fun _ => rfl) fun handles => ?_
  change catchAll _ handler = _
  congr 1
  simp only [runProtocol, readHandles, readPublic, parameters, bind_assoc, pure_bind, orM_bind,
    notM_bind, allValid_cons_bind, allValid_nil_bind, ite_not_valid, List.cons_append,
    List.nil_append, List.map_cons, List.map_nil, ↓reduceIte, Bool.false_eq_true]

theorem nullaryVec_eq (T : Ty) :
    nullaryVec read pdpiType protocol T =
      dispatch read pdpiType protocol ⟨2, 0, [], none, (1, T)⟩ := by
  rw [nullaryVec]
  refine dispatch_of_body read pdpiType protocol ⟨2, 0, [], none, (1, T)⟩ _
    (fun _ => rfl) fun handles => ?_
  change catchAll _ handler = _
  congr 1
  simp only [runProtocol, readHandles, readPublic, parameters, bind_assoc, pure_bind,
    allValid_cons_bind, allValid_nil_bind, ite_not_valid, List.nil_append, List.map_cons,
    List.map_nil, ↓reduceIte, Bool.false_eq_true]

theorem opcVec_eq (T L : Ty) :
    opcVec read pdpiType protocol T L =
      dispatch read pdpiType protocol ⟨3, 1, [(1, T)], some L, (2, T)⟩ := by
  rw [opcVec]
  refine dispatch_of_body read pdpiType protocol ⟨3, 1, [(1, T)], some L, (2, T)⟩ _
    (fun _ => rfl) fun handles => ?_
  change catchAll _ handler = _
  congr 1
  simp only [runProtocol, readHandles, readPublic, parameters, bind_assoc, pure_bind, orM_bind,
    notM_bind, allValid_cons_bind, allValid_nil_bind, ite_not_valid, List.cons_append,
    List.nil_append, List.map_cons, List.map_nil, ↓reduceIte, Bool.false_eq_true]

/-- Flipping the parameters flips their slots, and the order of their checks with them. -/
theorem compareVec_eq (T BoolT : Ty) (flipParams : Bool) :
    compareVec read pdpiType protocol T BoolT flipParams =
      dispatch read pdpiType protocol
        ⟨4, 0, [(if flipParams then 2 else 1, T), (if flipParams then 1 else 2, T)], none,
          (3, BoolT)⟩ := by
  rw [compareVec]
  refine dispatch_of_body read pdpiType protocol
    ⟨4, 0, [(if flipParams then 2 else 1, T), (if flipParams then 1 else 2, T)], none,
      (3, BoolT)⟩ _ (fun _ => rfl) fun handles => ?_
  change catchAll _ handler = _
  congr 1
  simp only [runProtocol, readHandles, readPublic, parameters, bind_assoc, pure_bind, orM_bind,
    notM_bind, allValid_cons_bind, allValid_nil_bind, ite_not_valid, List.cons_append,
    List.nil_append, List.map_cons, List.map_nil, ↓reduceIte, Bool.false_eq_true]

theorem body_eq_dispatch (syscall : MetaSyscall Ty) :
    syscall.body read pdpiType protocol = dispatch read pdpiType protocol (signature syscall) := by
  cases syscall with
  | binaryVec T1 T2 T3 => exact binaryVec_eq read pdpiType protocol T1 T2 T3
  | binaryArithVec T => exact binaryVec_eq read pdpiType protocol T T T
  | relationalVec T BoolT => exact binaryVec_eq read pdpiType protocol T T BoolT
  | unaryVec T L => exact unaryVec_eq read pdpiType protocol T L
  | unaryArithVec T => exact unaryVec_eq read pdpiType protocol T T
  | nullaryVec T => exact nullaryVec_eq read pdpiType protocol T
  | opcVec T L => exact opcVec_eq read pdpiType protocol T L
  | opcArithVec T => exact opcVec_eq read pdpiType protocol T T
  | compareVec T BoolT flipParams => exact compareVec_eq read pdpiType protocol T BoolT flipParams

theorem call_eq_dispatch [HasStderr σ] [ValueTraits Ty] (assertions : Bool) (pdkIndex : ℕ)
    (input : SyscallInput) (syscall : MetaSyscall Ty) :
    syscall.call assertions pdkIndex pdpiType protocol input =
      dispatch (.plain assertions pdkIndex input) pdpiType protocol (signature syscall) :=
  body_eq_dispatch _ pdpiType protocol syscall

end Agreement
end PdkHeaders.MetaSyscallsDispatch
