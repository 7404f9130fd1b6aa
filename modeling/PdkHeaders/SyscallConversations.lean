import PdkHeaders.Library.Conversations
import PdkHeaders.AccessRanges
import PdkHeaders.PdkIsolation

set_option autoImplicit false

/-!
# The conversation of a syscall

A call that passes the checks asks the callbacks in the order of its signature, until one of them
refuses, throws or faults. Their replies decide the error code.
-/
namespace PdkHeaders.SyscallConversations
open PdkHeaders.Library.Execution PdkHeaders.Library.Tracing PdkHeaders.Library.Conversations
open PdkHeaders.SyscallsCommon PdkHeaders.VmVector PdkHeaders.MetaSyscalls
open PdkHeaders.MetaSyscallsDispatch PdkHeaders.SyscallTrace PdkHeaders.AccessRanges
  PdkHeaders.PdkIsolation

section Callbacks
variable {σ Ty ρ : Type}

abbrev Replies (Ty : Type) := List (Callback Ty × Reply)

instance [HasStderr σ] : HasStderr (σ × Replies Ty) where
  write text t := (HasStderr.write text t.1, t.2)

def askedPdpi (pdpiType : PdpiType σ Ty) : PdpiType (σ × Replies Ty) Ty where
  isComputingNode pdpi := asked (.isComputingNode pdpi) id (pdpiType.isComputingNode pdpi)
  isValidHandle T pdpi handle :=
    asked (.isValidHandle T pdpi handle) id (pdpiType.isValidHandle T pdpi handle)

/-- A constructor has nothing to refuse. -/
def askedProtocol (protocol : Protocol σ Ty ρ) : Protocol (σ × Replies Ty) Ty ρ where
  construct pdpi := asked (.construct pdpi) (fun _ => true) (protocol.construct pdpi)
  invoke instance_ params := asked (.invoke params) id (protocol.invoke instance_ params)

end Callbacks

section Script
variable {Ty : Type} (input : SyscallInput)

def validity (pdpi : Pointer) (handles : List (Ty × Pointer)) : List (Callback Ty) :=
  handles.map fun handle => .isValidHandle handle.1 pdpi handle.2

/-- What a call of this signature asks on the PDPI. -/
def script [ValueTraits Ty] (sig : Signature Ty) (pdpi : Pointer) : List (Callback Ty) :=
  let inputs := slotHandles input sig.inputs
  let output := slotHandles input [sig.output]
  .isComputingNode pdpi :: (validity pdpi (inputs ++ output) ++ [.construct pdpi,
    .invoke (parameters inputs (publicOperand input sig.publicVec) output)])

/-- Only a node that does not compute is content with a no. -/
def refusal : Callback Ty → ModuleApi0x1Error
  | .isComputingNode _ => .ok
  | _ => .generalError

/-- Exceptions become codes, faults end the program. -/
def caught {σ : Type} : Except Stop ModuleApi0x1Error → σ → EStateM.Result Stop σ ModuleApi0x1Error
  | .ok code, u => .ok code u
  | .error (.throws e), u => .ok (catchModuleApiErrors (some e)) u
  | .error (.faults f), u => .error (.faults f) u

end Script

section Protocols
variable {σ Ty ρ : Type} {assertions : Bool} {k : ℕ} {pdpiType : PdpiType σ Ty}
  {protocol : Protocol σ Ty ρ} {input : SyscallInput}

theorem allValid_converses {pdpi : Pointer} {handles : List (Ty × Pointer)}
    {script : List (Callback Ty)} {rest' : Bool → Traced σ (Callback Ty × Reply) ModuleApi0x1Error}
    {rest : Bool → Exec σ ModuleApi0x1Error}
    (hrest : Converses refusal .ok script (rest' true) (rest true))
    (hno' : rest' false = pure .generalError) (hno : rest false = pure .generalError) :
    Converses refusal .ok (validity pdpi handles ++ script)
      (allValid (askedPdpi pdpiType) pdpi handles >>= rest')
      (allValid pdpiType pdpi handles >>= rest) := by
  induction handles with
  | nil =>
    rw [allValid_nil_bind, allValid_nil_bind]
    exact hrest
  | cons handle handles ih =>
    obtain ⟨T, handle⟩ := handle
    rw [allValid_cons_bind, allValid_cons_bind]
    apply Converses.ask
    · intro b hb
      cases b with
      | true => exact ih
      | false => cases hb
    · intro b hb
      cases b with
      | true => cases hb
      | false => exact ⟨hno', hno⟩

theorem runProtocol_converses [HasStderr σ] [ValueTraits Ty] (sig : Signature Ty) (pdpi : Pointer)
    (hinputs : ∀ slot ∈ sig.inputs, slot.1 < input.args.length)
    (houtput : sig.output.1 < input.args.length)
    (hpublic : sig.publicVec ≠ none → OperandPresent input assertions) :
    Converses refusal .ok (script input sig pdpi)
      (runProtocol (.plain assertions k input) (askedPdpi pdpiType) (askedProtocol protocol) sig
        pdpi)
      (runProtocol (.plain assertions k input) pdpiType protocol sig pdpi) := by
  have hout : ∀ slot ∈ [sig.output], slot.1 < input.args.length := by
    intro slot hslot
    rw [List.mem_singleton.mp hslot]
    exact houtput
  unfold runProtocol script
  rw [readHandles_eq hinputs, readHandles_eq hinputs, readHandles_eq hout, readHandles_eq hout,
    readPublic_eq hpublic, readPublic_eq hpublic]
  simp only [pure_bind]
  apply Converses.ask
  · intro computing hcomputing
    cases computing with
    | false => cases hcomputing
    | true =>
      apply allValid_converses
      · apply Converses.ask
        · intro instance_ _
          apply Converses.ask
          · intro accepted haccepted
            cases accepted with
            | false => cases haccepted
            | true => exact .done
          · intro accepted haccepted
            cases accepted with
            | false => exact ⟨rfl, rfl⟩
            | true => cases haccepted
        · exact fun _ hfalse => nomatch hfalse
      · rfl
      · rfl
  · intro computing hcomputing
    cases computing with
    | false => exact ⟨rfl, rfl⟩
    | true => cases hcomputing

end Protocols

section Guard
variable {τ : Type} [HasStderr τ] {assertions : Bool} {pdkIndex index : ℕ} {input : SyscallInput}
  {handles : PdpiVmHandles pdkIndex} {block : CodeBlock}

theorem get_missing (hblock : input.args[index]? = some block)
    (hinfo : input.c.getPdpiInfo block.uint64 = none) (t : τ) :
    (handles.get assertions input.c input.args index).run t =
      .ok (false, handles) (HasStderr.write (notFoundText block.uint64) t) := by
  rw [PdpiVmHandles.get, readArg_at hblock, getFrom_missing hinfo]
  rfl

theorem get_refused {info : PdpiInfo} (hblock : input.args[index]? = some block)
    (hinfo : input.c.getPdpiInfo block.uint64 = some info)
    (hrefused : ¬ Admits handles input.c info) (t : τ) :
    (handles.get assertions input.c input.args index).run t = .ok (false, handles) t := by
  rw [PdpiVmHandles.get, readArg_at hblock, getFrom_refused hinfo hrefused]
  rfl

theorem get_admitted {info : PdpiInfo} (hblock : input.args[index]? = some block)
    (hinfo : input.c.getPdpiInfo block.uint64 = some info)
    (hadmits : Admits handles input.c info)
    (hpresent : assertions = true → info.pdpiHandle ≠ nullptr) (t : τ) :
    (handles.get assertions input.c input.args index).run t = .ok (true, ⟨info⟩) t := by
  rw [PdpiVmHandles.get, readArg_at hblock, getFrom_admitted hinfo hadmits,
    assert_present hpresent]
  rfl

end Guard

section Signatures
variable {σ : Type}

theorem caught_concluded {m : Exec σ ModuleApi0x1Error} {s u : σ}
    {result : Except Stop ModuleApi0x1Error} (hrun : m.run s = concluded result u) :
    (catchAll m handler).run s = caught result u := by
  match result with
  | .ok code => exact catchAll_ok hrun
  | .error (.throws e) =>
    rw [catchAll_throws hrun]
    rfl
  | .error (.faults f) => exact catchAll_faults hrun

end Signatures

/-- The shape that a call of this syscall must fit. -/
def FitsCall {Ty : Type} (syscall : MetaSyscall Ty) (input : SyscallInput) : Prop :=
  Fits (signature syscall).shape input.numArgs input.refs input.crefs input.returnValue

theorem shape_accepted {σ Ty : Type} {assertions : Bool} {input : SyscallInput}
    {syscall : MetaSyscall Ty} (hrefs : Terminated input.refs) (hcrefs : Terminated input.crefs)
    (hfits : FitsCall syscall input) (s : σ) :
    ShapeAccepted assertions input (signature syscall).shape s := by
  obtain ⟨b, hcheck, hiff⟩ := check_run assertions (signature syscall).shape input.numArgs hrefs
    hcrefs input.returnValue s
  rw [hiff.mpr hfits] at hcheck
  exact hcheck

/-- The call fits its shape, and the lookup yields a PDPI of PDK 0 of the calling module. -/
def Accepted {Ty : Type} (syscall : MetaSyscall Ty) (pdkIndex : ℕ) (input : SyscallInput)
    (info : PdpiInfo) : Prop :=
  FitsCall syscall input ∧ lookup input.c input.args 0 = some info ∧
    Admits (PdpiVmHandles.init : PdpiVmHandles pdkIndex) input.c info

/-- The error stream after a call: one line more for an unknown process. -/
def told {τ : Type} [HasStderr τ] : Option UInt64 → τ → τ
  | none, t => t
  | some id, t => HasStderr.write (notFoundText id) t

section Calls
variable {σ Ty ρ : Type} [HasStderr σ] [ValueTraits Ty] {assertions : Bool} {pdkIndex : ℕ}
  {pdpiType : PdpiType σ Ty} {protocol : Protocol σ Ty ρ} {input : SyscallInput}
  {syscall : MetaSyscall Ty}

theorem unfit_call (hrefs : Terminated input.refs) (hcrefs : Terminated input.crefs)
    (hunfit : ¬ FitsCall syscall input) (s : σ) :
    (syscall.call assertions pdkIndex pdpiType protocol input).run s = .ok .invalidCall s := by
  obtain ⟨b, hcheck, hfits⟩ := check_run assertions (signature syscall).shape input.numArgs hrefs
    hcrefs input.returnValue s
  have hb : b = false := by
    cases b with
    | false => rfl
    | true => exact absurd (hfits.mp rfl) hunfit
  subst hb
  rw [call_eq_dispatch]
  change (((signature syscall).shape.check assertions input.numArgs input.refs input.crefs
    input.returnValue >>= fun valid => _) >>= _).run s = _
  rw [bind_assoc, bind_ok hcheck]
  rfl

/-- A call that is not accepted asks nothing, and tells at most that a process is unknown. -/
theorem rejected_call (hrefs : Terminated input.refs) (hcrefs : Terminated input.crefs)
    (hargs : input.args.length = input.numArgs)
    (hrejected : ¬ ∃ info, Accepted syscall pdkIndex input info) :
    ∃ unknown : Option UInt64,
      (unknown ≠ none ↔ FitsCall syscall input ∧ lookup input.c input.args 0 = none) ∧
      ∀ (assertions : Bool) {τ : Type} [HasStderr τ] (pdpiType : PdpiType τ Ty)
        (protocol : Protocol τ Ty ρ) (t : τ),
        (syscall.call assertions pdkIndex pdpiType protocol input).run t =
          .ok .invalidCall (told unknown t) := by
  by_cases hfits : FitsCall syscall input
  · have hpositive := (signature_inRange syscall).positive
    have hlength : 0 < input.args.length := by
      rw [hargs, hfits.1]
      exact hpositive
    have hblock := List.getElem?_eq_getElem hlength
    have hlookup : lookup input.c input.args 0 = input.c.getPdpiInfo input.args[0].uint64 := by
      rw [lookup, hblock, Option.bind_some]
    cases hinfo : input.c.getPdpiInfo input.args[0].uint64 with
    | none =>
      refine ⟨some input.args[0].uint64, ?_, ?_⟩
      · rw [hlookup, hinfo]
        exact iff_of_true (Option.some_ne_none _) ⟨hfits, rfl⟩
      · intro assertions τ _ pdpiType protocol t
        rw [call_eq_dispatch]
        exact dispatch_rejected (shape_accepted hrefs hcrefs hfits t) (get_missing hblock hinfo t)
    | some info =>
      refine ⟨none, ?_, ?_⟩
      · rw [hlookup, hinfo]
        exact iff_of_false (fun h => h rfl) fun h => Option.some_ne_none info h.2
      · intro assertions τ _ pdpiType protocol t
        rw [call_eq_dispatch]
        have hrefused : ¬ Admits (PdpiVmHandles.init : PdpiVmHandles pdkIndex) input.c info :=
          fun hadmits => hrejected ⟨info, hfits, hlookup.trans hinfo, hadmits⟩
        exact dispatch_rejected (shape_accepted hrefs hcrefs hfits t)
          (get_refused hblock hinfo hrefused t)
  · refine ⟨none, iff_of_false (fun h => h rfl) fun h => hfits h.1, ?_⟩
    intro assertions τ _ pdpiType protocol t
    exact unfit_call hrefs hcrefs hfits t

theorem accepted_call (hrefs : Terminated input.refs) (hcrefs : Terminated input.crefs)
    (hpresent : assertions = true → input.c.HandlesPresent) {info : PdpiInfo}
    (haccepted : Accepted syscall pdkIndex input info) (s : σ) :
    (syscall.call assertions pdkIndex pdpiType protocol input).run s =
      (catchAll (runProtocol (.plain assertions pdkIndex input) pdpiType protocol
        (signature syscall) info.pdpiHandle) handler).run s := by
  obtain ⟨hfits, hlookup, hadmits⟩ := haccepted
  obtain ⟨block, hblock, hinfo⟩ := Option.bind_eq_some_iff.mp hlookup
  rw [call_eq_dispatch]
  exact dispatch_admitted (shape_accepted hrefs hcrefs hfits s)
    (get_admitted hblock hinfo hadmits (fun h => hpresent h _ info hinfo) s)

/-- Every meta-syscall is a conversation: a rejected call asks nothing, an accepted one follows
the script of its signature, and the last reply decides the code. No exception leaves it, and a
fault only from a callback. -/
theorem syscalls_converse (syscall : MetaSyscall Ty) (assertions : Bool) (pdkIndex : ℕ)
    (pdpiType : PdpiType σ Ty) (protocol : Protocol σ Ty ρ) (input : SyscallInput)
    (hrefs : Terminated input.refs) (hcrefs : Terminated input.crefs)
    (hargs : input.args.length = input.numArgs)
    (hpresent : assertions = true → input.c.HandlesPresent) (s : σ) :
    let plain := (syscall.call assertions pdkIndex pdpiType protocol input).run s
    let logged := (syscall.call assertions pdkIndex (askedPdpi pdpiType) (askedProtocol protocol)
      input).run (s, [])
    (¬ (∃ info, Accepted syscall pdkIndex input info) ∧
      ∃ unknown, (unknown ≠ none ↔ FitsCall syscall input ∧ lookup input.c input.args 0 = none) ∧
        plain = .ok .invalidCall (told unknown s) ∧
        logged = .ok .invalidCall (told unknown s, [])) ∨
    ∃ info replies u, Accepted syscall pdkIndex input info ∧
      Follows (script input (signature syscall) info.pdpiHandle) replies ∧
      plain = caught (verdict refusal .ok replies) u ∧
      logged = caught (verdict refusal .ok replies) (u, replies) := by
  intro plain logged
  by_cases haccepted : ∃ info, Accepted syscall pdkIndex input info
  · obtain ⟨info, haccepted⟩ := haccepted
    have hslots := signature_inRange syscall
    have hfits := haccepted.1
    have hnumArgs : input.args.length = (signature syscall).numArgs := hargs.trans hfits.1
    have hnumCRefs : count input.crefs = (signature syscall).numCRefs := hfits.2.2.2
    have hconverses : Converses refusal .ok (script input (signature syscall) info.pdpiHandle)
        (runProtocol (.plain assertions pdkIndex input) (askedPdpi pdpiType)
          (askedProtocol protocol) (signature syscall) info.pdpiHandle)
        (runProtocol (.plain assertions pdkIndex input) pdpiType protocol (signature syscall)
          info.pdpiHandle) := by
      apply runProtocol_converses
      · rw [hnumArgs]
        exact hslots.inputs
      · rw [hnumArgs]
        exact hslots.output
      · intro hsome
        apply operandPresent_of_count
        rw [hnumCRefs]
        exact hslots.public_ hsome
    obtain ⟨replies, u, hfollows, hplain, hlogged⟩ := hconverses s []
    refine .inr ⟨info, replies, u, haccepted, hfollows, ?_, ?_⟩
    · exact (accepted_call hrefs hcrefs hpresent haccepted s).trans (caught_concluded hplain)
    · exact (accepted_call hrefs hcrefs hpresent haccepted (s, [])).trans
        (caught_concluded hlogged)
  · obtain ⟨unknown, hunknown, hrun⟩ := rejected_call (ρ := ρ) hrefs hcrefs hargs haccepted
    have htold : told unknown (s, ([] : Replies Ty)) = (told unknown s, []) := by
      cases unknown <;> rfl
    refine .inl ⟨haccepted, unknown, hunknown, hrun assertions pdpiType protocol s, ?_⟩
    rw [← htold]
    exact hrun assertions (askedPdpi pdpiType) (askedProtocol protocol) (s, [])

end Calls

section Instance

theorem caught_ok {σ τ : Type} {result : Except Stop ModuleApi0x1Error} {u v : σ}
    {code : ModuleApi0x1Error} (h : caught result u = .ok code v) :
    u = v ∧ ∀ t : τ, caught result t = .ok code t := by
  match result with
  | .ok code =>
    cases h
    exact ⟨rfl, fun _ => rfl⟩
  | .error (.throws e) =>
    cases h
    exact ⟨rfl, fun _ => rfl⟩
  | .error (.faults f) => cases h

/-- A protocol that runs out of memory. -/
def exhaustedProtocol : Protocol (List String) Bool Unit where
  construct _ := pure ()
  invoke _ _ := raise .badAlloc

theorem syscalls_converse_exhausted :
    ∃ replies, Follows (script oneCRef (signature (.opcArithVec true)) 16) replies ∧
      ((MetaSyscall.opcArithVec true).call true 0 (askedPdpi acceptingPdpi)
        (askedProtocol exhaustedProtocol) oneCRef).run ([], []) =
          .ok .outOfMemory ([], replies) := by
  have hplain : ((MetaSyscall.opcArithVec true).call true 0 acceptingPdpi exhaustedProtocol
      oneCRef).run [] = .ok .outOfMemory [] := rfl
  rcases syscalls_converse (.opcArithVec true) true 0 acceptingPdpi exhaustedProtocol oneCRef
    terminated_none oneCRef_terminated rfl (fun _ _ _ h => by cases h; decide) [] with
    ⟨-, _, -, hrejected, -⟩ | ⟨info, replies, u, haccepted, hfollows, hverdict, hlogged⟩
  · rw [hplain] at hrejected
    cases hrejected
  · have hinfo : info.pdpiHandle = 16 := by
      cases haccepted.2.1
      rfl
    rw [hplain] at hverdict
    obtain ⟨rfl, hcode⟩ := caught_ok hverdict.symm
    rw [hinfo] at hfollows
    exact ⟨replies, hfollows, hlogged.trans (hcode _)⟩

end Instance

end PdkHeaders.SyscallConversations
