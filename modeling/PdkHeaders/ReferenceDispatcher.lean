import PdkHeaders.AccessRanges

set_option autoImplicit false

/-!
# The reference dispatcher

What a meta-syscall is for, in terms of its signature alone: what is counted, what is looked up,
what lies in the argument slots and in `crefs[0]`. Every syscall agrees with it.
-/
namespace PdkHeaders.ReferenceDispatcher
open PdkHeaders.Library.Execution PdkHeaders.SyscallsCommon PdkHeaders.VmVector
open PdkHeaders.MetaSyscalls PdkHeaders.MetaSyscallsDispatch PdkHeaders.AccessRanges

section Guard
variable {Ty : Type} (assertions : Bool)

/-- A counted array holds its first entry and those behind it up to a null one. Only builds with
assertions notice that the first entry is null, and an array without a null entry has no count. -/
def references : Option (List Reference) → Except Fault ℕ
  | none => .ok 0
  | some [] => .error .badAccess
  | some (first :: rest) =>
    if assertions = true ∧ first.pData = nullptr then .error .assertion
    else if rest.findIdx isNull < rest.length then .ok (rest.findIdx isNull + 1)
    else .error .badAccess

/-- No syscall takes references, or asks for a return slot. -/
def fitting (signature : Signature Ty) (input : SyscallInput) : Except Fault Bool :=
  if input.numArgs = signature.numArgs then
    match references assertions input.refs with
    | .ok 0 => (references assertions input.crefs).map (· == signature.numCRefs)
    | .ok _ => .ok false
    | .error f => .error f
  else .ok false

/-- How a call gets past the shape check and the lookup: not at all, or with a PDPI. -/
inductive Guarded where
  | faults (f : Fault)
  | invalid (text : Option String)
  | passes (pdpi : Pointer)
  deriving DecidableEq, Repr

/-- The lookup of `args[0]` yields a PDPI of PDK 0 of the calling module, or fails. -/
def lookedUp (input : SyscallInput) : Guarded :=
  match input.args[0]? with
  | none => .faults .badAccess
  | some block =>
    match input.c.getPdpiInfo block.uint64 with
    | none => .invalid ("get_pd_process_instance_handle (" ++ toString block.uint64 ++ ")\n")
    | some info =>
      if info.pdkIndex = 0 ∧ info.moduleHandle = input.c.moduleHandle then
        if assertions = true ∧ info.pdpiHandle = nullptr then .faults .assertion
        else .passes info.pdpiHandle
      else .invalid none

def guarded (signature : Signature Ty) (input : SyscallInput) : Guarded :=
  match fitting assertions signature input with
  | .error f => .faults f
  | .ok false => .invalid none
  | .ok true => lookedUp assertions input

end Guard

section Reference
variable {σ Ty ρ : Type} [ValueTraits Ty] (assertions : Bool) (pdpiType : PdpiType σ Ty)
  (protocol : Protocol σ Ty ρ) (input : SyscallInput) (signature : Signature Ty)

/-- The handles in the slots, if the argument block reaches to all of them. -/
def handlesIn (args : List CodeBlock) : List (ℕ × Ty) → Option (List (Ty × Pointer))
  | [] => some []
  | (slot, T) :: slots =>
    match args[slot]?, handlesIn args slots with
    | some block, some handles => some ((T, block.p) :: handles)
    | _, _ => none

def performed (pdpi : Pointer) : Exec σ ModuleApi0x1Error := do
  let computing ← pdpiType.isComputingNode pdpi
  if !computing then
    return .ok
  match handlesIn input.args signature.inputs, handlesIn input.args [signature.output] with
  | some inputs, some output =>
    let valid ← allValid pdpiType pdpi (inputs ++ output)
    if !valid then
      return .generalError
    let instance_ ← protocol.construct pdpi
    let accepted ← protocol.invoke instance_
      (parameters inputs (publicOperand input signature.publicVec) output)
    if !accepted then
      return .generalError
    return .ok
  | _, _ => fault .badAccess

def answered [HasStderr σ] (pass : Pointer → Exec σ ModuleApi0x1Error) :
    Guarded → Exec σ ModuleApi0x1Error
  | .faults f => fault f
  | .invalid none => pure .invalidCall
  | .invalid (some text) => do
    modify (HasStderr.write text)
    return .invalidCall
  | .passes pdpi => pass pdpi

def reference [HasStderr σ] : Exec σ ModuleApi0x1Error :=
  answered (fun pdpi => catchAll (performed pdpiType protocol input signature pdpi)
    fun e => return if e = .badAlloc then .outOfMemory else .generalError)
    (guarded assertions signature input)

end Reference

section Counts
variable {σ Ty : Type} {assertions : Bool}

/-- What is settled before anything runs. -/
def settled {α : Type} : Except Fault α → Exec σ α
  | .ok a => pure a
  | .error f => fault f

theorem countRefs_eq (refs : Option (List Reference)) :
    (countRefs assertions refs : Exec σ ℕ) = settled (references assertions refs) := by
  match refs with
  | none => rfl
  | some [] => rfl
  | some (first :: rest) =>
    rw [countRefs, references, countRefsLoop_eq, assert_not_null]
    by_cases hfirst : assertions = true ∧ first.pData = nullptr
    · rw [if_pos hfirst, if_pos hfirst]
      rfl
    · rw [if_neg hfirst, if_neg hfirst, pure_bind, Nat.add_comm]
      split <;> rfl

theorem check_eq (signature : Signature Ty) (input : SyscallInput) :
    (signature.shape.check assertions input.numArgs input.refs input.crefs input.returnValue :
      Exec σ Bool) = settled (fitting assertions signature input) := by
  unfold SyscallArgs.check SyscallArgs.checkCounts fitting
  by_cases hargs : input.numArgs = signature.numArgs
  · have hreturn : ¬ (signature.shape.needReturnValue = true ∧ input.returnValue = nullptr) :=
      fun h => Bool.false_ne_true h.1
    have hshape : ¬ input.numArgs ≠ signature.shape.numArgs := not_not_intro hargs
    rw [if_neg hshape, if_neg hreturn, if_pos hargs, countRefs_eq, countRefs_eq]
    match references assertions input.refs with
    | .error f => rfl
    | .ok (n + 1) => rfl
    | .ok 0 =>
      match references assertions input.crefs with
      | .error f => rfl
      | .ok n =>
        change (if n ≠ signature.numCRefs then pure false else pure true : Exec σ Bool) =
          pure (n == signature.numCRefs)
        by_cases hn : n = signature.numCRefs
        · rw [if_neg (not_not_intro hn), beq_iff_eq.mpr hn]
        · rw [if_pos hn, beq_eq_false_iff_ne.mpr hn]
  · have hshape : input.numArgs ≠ signature.shape.numArgs := hargs
    rw [if_pos hshape, if_neg hargs]
    rfl

/-- A counted operand is there, and present where that is asserted. -/
theorem operand_of_fitting {signature : Signature Ty} {input : SyscallInput}
    (h : fitting assertions signature input = .ok true) (hpos : 0 < signature.numCRefs) :
    OperandPresent input assertions := by
  unfold OperandPresent
  have hcount : references assertions input.crefs = .ok signature.numCRefs := by
    unfold fitting at h
    by_cases hargs : input.numArgs = signature.numArgs
    · rw [if_pos hargs] at h
      match href : references assertions input.refs with
      | .error f => rw [href] at h; cases h
      | .ok (n + 1) => rw [href] at h; cases h
      | .ok 0 =>
        rw [href] at h
        match hcref : references assertions input.crefs with
        | .error f => rw [hcref] at h; cases h
        | .ok n =>
          rw [hcref] at h
          have hn : (n == signature.numCRefs) = true := Except.ok.inj h
          rw [beq_iff_eq.mp hn]
    · rw [if_neg hargs] at h
      cases h
  match hcrefs : input.crefs with
  | none =>
    rw [hcrefs] at hcount
    have hzero : 0 = signature.numCRefs := Except.ok.inj hcount
    omega
  | some [] =>
    rw [hcrefs] at hcount
    cases hcount
  | some (cref :: rest) =>
    refine ⟨cref, rfl, fun hasserted hnull => ?_⟩
    rw [hcrefs, references, if_pos ⟨hasserted, hnull⟩] at hcount
    cases hcount

end Counts

section Agreement
variable {σ : Type}

theorem handler_eq : (handler : Exception → Exec σ ModuleApi0x1Error) =
    fun e => pure (if e = .badAlloc then .outOfMemory else .generalError) := by
  funext e
  cases e <;> rfl

variable {Ty ρ : Type} [HasStderr σ] [ValueTraits Ty] (assertions : Bool) (pdkIndex : ℕ)
  (pdpiType : PdpiType σ Ty) (protocol : Protocol σ Ty ρ) (input : SyscallInput)

theorem readHandles_at (slots : List (ℕ × Ty)) :
    readHandles (Readers.plain assertions pdkIndex input : Readers σ Ty pdkIndex) slots =
      match handlesIn input.args slots with
      | some handles => pure handles
      | none => fault .badAccess := by
  induction slots with
  | nil => rfl
  | cons slot slots ih =>
    obtain ⟨slot, T⟩ := slot
    rw [readHandles, ih, handlesIn]
    change (readArg input.args slot >>= _) = _
    unfold readArg
    cases input.args[slot]? with
    | none => rfl
    | some block =>
      cases handlesIn input.args slots with
      | none => rfl
      | some handles => rfl

theorem runProtocol_eq {signature : Signature Ty}
    (h : signature.publicVec ≠ none → OperandPresent input assertions) (pdpi : Pointer) :
    runProtocol (.plain assertions pdkIndex input) pdpiType protocol signature pdpi =
      performed pdpiType protocol input signature pdpi := by
  unfold runProtocol performed
  rw [readHandles_at, readHandles_at, readPublic_eq h]
  apply bind_congr
  intro computing
  cases computing with
  | false => rfl
  | true =>
    cases handlesIn input.args signature.inputs with
    | none => rfl
    | some inputs =>
      cases handlesIn input.args [signature.output] with
      | none => rfl
      | some output => rfl

/-- The handle object starts with the field `pdkIndex` at 0, whatever its template parameter. -/
theorem getFrom_eq {rest : Bool × PdpiVmHandles pdkIndex → Exec σ ModuleApi0x1Error}
    {pass : Pointer → Exec σ ModuleApi0x1Error}
    (hfailed : ∀ handles, rest (false, handles) = pure .invalidCall)
    (hfound : ∀ handles, rest (true, handles) = pass handles.pdpiHandle) :
    (PdpiVmHandles.init.getFrom assertions input.c (readArg input.args 0) >>= rest) =
      answered pass (lookedUp assertions input) := by
  unfold lookedUp
  cases hblock : input.args[0]? with
  | none =>
    rw [readArg, hblock]
    rfl
  | some block =>
    rw [readArg_at hblock]
    cases hinfo : input.c.getPdpiInfo block.uint64 with
    | none =>
      rw [getFrom_missing hinfo, bind_assoc]
      simp only [pure_bind, hfailed, hinfo]
      rfl
    | some info =>
      simp only [hinfo]
      by_cases hpdpi : info.pdkIndex = 0 ∧ info.moduleHandle = input.c.moduleHandle
      · have hadmits : Admits (PdpiVmHandles.init : PdpiVmHandles pdkIndex) input.c info := hpdpi
        rw [getFrom_admitted hinfo hadmits, assert_not_null, if_pos hpdpi]
        by_cases hnull : assertions = true ∧ info.pdpiHandle = nullptr
        · rw [if_pos hnull, if_pos hnull]
          rfl
        · rw [if_neg hnull, if_neg hnull, pure_bind, pure_bind, hfound]
          rfl
      · have hrefused : ¬ Admits (PdpiVmHandles.init : PdpiVmHandles pdkIndex) input.c info := hpdpi
        rw [getFrom_refused hinfo hrefused, if_neg hpdpi, pure_bind, hfailed]
        rfl

theorem dispatch_eq_reference {signature : Signature Ty}
    (hpublic : signature.publicVec ≠ none → 0 < signature.numCRefs) :
    dispatch (.plain assertions pdkIndex input) pdpiType protocol signature =
      reference assertions pdpiType protocol input signature := by
  rw [dispatch, reference, guarded]
  change (signature.shape.check assertions input.numArgs input.refs input.crefs input.returnValue
    >>= fun valid => _) >>= _ = _
  rw [check_eq, bind_assoc]
  cases hfits : fitting assertions signature input with
  | error f => rfl
  | ok fits =>
    cases fits with
    | false => rfl
    | true =>
      have hoperand : signature.publicVec ≠ none → OperandPresent input assertions :=
        fun hsome => operand_of_fitting hfits (hpublic hsome)
      change (PdpiVmHandles.init.getFrom assertions input.c (readArg input.args 0) >>= _) = _
      apply getFrom_eq
      · exact fun _ => rfl
      · intro handles
        rw [← handler_eq, ← runProtocol_eq assertions pdkIndex pdpiType protocol input hoperand]
        rfl

theorem call_eq_reference (syscall : MetaSyscall Ty) :
    syscall.call assertions pdkIndex pdpiType protocol input =
      reference assertions pdpiType protocol input (signature syscall) := by
  rw [call_eq_dispatch]
  exact dispatch_eq_reference _ _ _ _ _ (signature_inRange syscall).public_

/-- Every meta-syscall is the reference dispatcher at its own signature, as a transformer of the
whole program state, for every input and every behaviour of the callbacks. -/
theorem metaSyscalls_agree :
    let read : Readers σ Ty pdkIndex := .plain assertions pdkIndex input
    (∀ T1 T2 T3 : Ty, binaryVec read pdpiType protocol T1 T2 T3 =
      reference assertions pdpiType protocol input
        ⟨4, 0, [(1, T1), (2, T2)], none, (3, T3)⟩) ∧
    (∀ T : Ty, binaryArithVec read pdpiType protocol T =
      reference assertions pdpiType protocol input ⟨4, 0, [(1, T), (2, T)], none, (3, T)⟩) ∧
    (∀ T BoolT : Ty, relationalVec read pdpiType protocol T BoolT =
      reference assertions pdpiType protocol input
        ⟨4, 0, [(1, T), (2, T)], none, (3, BoolT)⟩) ∧
    (∀ T L : Ty, unaryVec read pdpiType protocol T L =
      reference assertions pdpiType protocol input ⟨3, 0, [(1, T)], none, (2, L)⟩) ∧
    (∀ T : Ty, unaryArithVec read pdpiType protocol T =
      reference assertions pdpiType protocol input ⟨3, 0, [(1, T)], none, (2, T)⟩) ∧
    (∀ T : Ty, nullaryVec read pdpiType protocol T =
      reference assertions pdpiType protocol input ⟨2, 0, [], none, (1, T)⟩) ∧
    (∀ T L : Ty, opcVec read pdpiType protocol T L =
      reference assertions pdpiType protocol input ⟨3, 1, [(1, T)], some L, (2, T)⟩) ∧
    (∀ T : Ty, opcArithVec read pdpiType protocol T =
      reference assertions pdpiType protocol input ⟨3, 1, [(1, T)], some T, (2, T)⟩) ∧
    (∀ T BoolT : Ty, compareVec read pdpiType protocol T BoolT false =
      reference assertions pdpiType protocol input
        ⟨4, 0, [(1, T), (2, T)], none, (3, BoolT)⟩) ∧
    ∀ T BoolT : Ty, compareVec read pdpiType protocol T BoolT true =
      reference assertions pdpiType protocol input
        ⟨4, 0, [(2, T), (1, T)], none, (3, BoolT)⟩ := by
  have hcall := call_eq_reference assertions pdkIndex pdpiType protocol input
  exact ⟨fun T1 T2 T3 => hcall (.binaryVec T1 T2 T3), fun T => hcall (.binaryArithVec T),
    fun T BoolT => hcall (.relationalVec T BoolT), fun T L => hcall (.unaryVec T L),
    fun T => hcall (.unaryArithVec T), fun T => hcall (.nullaryVec T),
    fun T L => hcall (.opcVec T L), fun T => hcall (.opcArithVec T),
    fun T BoolT => hcall (.compareVec T BoolT false),
    fun T BoolT => hcall (.compareVec T BoolT true)⟩

end Agreement
end PdkHeaders.ReferenceDispatcher
