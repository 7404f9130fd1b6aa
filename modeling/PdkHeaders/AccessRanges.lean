import PdkHeaders.SyscallAccesses
import PdkHeaders.MetaSyscallsDispatch

set_option autoImplicit false

/-!
# The ranges of the accesses

A reference array is counted up to its first null entry. A syscall whose shape was checked reads
its arguments and references within the counts.
-/
namespace PdkHeaders.AccessRanges
open PdkHeaders.Library.Execution PdkHeaders.Library.Hoare PdkHeaders.Library.Tracing
open PdkHeaders.SyscallsCommon PdkHeaders.VmVector PdkHeaders.MetaSyscalls
open PdkHeaders.SyscallAccesses PdkHeaders.MetaSyscallsDispatch

def isNull (entry : Reference) : Bool := entry.pData = nullptr

/-- Null, or an array with an entry to count first and a null entry later on. -/
def Terminated (refs : Option (List Reference)) : Prop :=
  ∀ entries, refs = some entries →
    (∃ first rest, entries = first :: rest ∧ first.pData ≠ nullptr) ∧
    ∃ entry ∈ entries, entry.pData = nullptr

/-- The number of entries before the first null one. -/
def count (refs : Option (List Reference)) : ℕ := (refs.getD []).findIdx isNull

/-- The accesses that an argument block and two reference arrays allow. -/
def InRange (input : SyscallInput) : Access → Prop
  | .arg i => i < input.numArgs
  | .countsRef i => input.refs ≠ none ∧ i ≤ count input.refs
  | .countsCRef i => input.crefs ≠ none ∧ i ≤ count input.crefs
  | .cref i => i < count input.crefs ∧
    ∃ entry, input.crefs.bind (·[i]?) = some entry ∧ entry.pData ≠ nullptr
  | .vmVec first => first ≠ nullptr

section Counting
variable {σ : Type} {assertions : Bool}

theorem terminated_none : Terminated none := fun _ h => nomatch h

theorem null_in_rest {first : Reference} {rest : List Reference} (hfirst : first.pData ≠ nullptr)
    (h : ∃ entry ∈ first :: rest, entry.pData = nullptr) :
    ∃ entry ∈ rest, entry.pData = nullptr := by
  obtain ⟨entry, hentry, hnull⟩ := h
  cases List.mem_cons.mp hentry with
  | inl hhead => rw [hhead] at hnull; exact absurd hnull hfirst
  | inr htail => exact ⟨entry, htail, hnull⟩

theorem Terminated.cons {first : Reference} {rest : List Reference}
    (h : Terminated (some (first :: rest))) :
    first.pData ≠ nullptr ∧ ∃ entry ∈ rest, entry.pData = nullptr := by
  obtain ⟨⟨first', rest', heq, hfirst⟩, hnull⟩ := h _ rfl
  cases heq
  exact ⟨hfirst, null_in_rest hfirst hnull⟩

theorem not_terminated_nil : ¬ Terminated (some []) := by
  intro h
  obtain ⟨_, entry, hentry, _⟩ := h [] rfl
  cases hentry

theorem findIdx_null {entry : Reference} (h : entry.pData = nullptr) (rest : List Reference) :
    (entry :: rest).findIdx isNull = 0 := by
  rw [List.findIdx_cons, isNull, decide_eq_true h]
  rfl

theorem findIdx_not_null {entry : Reference} (h : entry.pData ≠ nullptr)
    (rest : List Reference) :
    (entry :: rest).findIdx isNull = rest.findIdx isNull + 1 := by
  rw [List.findIdx_cons, isNull, decide_eq_false h]
  rfl

theorem countRefsLoop_eq (entries : List Reference) (r : ℕ) :
    (countRefsLoop entries r : Exec σ ℕ) = if entries.findIdx isNull < entries.length then
      pure (r + entries.findIdx isNull) else fault .badAccess := by
  induction entries generalizing r with
  | nil => rfl
  | cons ref rest ih =>
    by_cases href : ref.pData = nullptr
    · have hlt : 0 < (ref :: rest).length := Nat.zero_lt_succ _
      rw [countRefsLoop, if_pos href, findIdx_null href, if_pos hlt]
      rfl
    · rw [countRefsLoop, if_neg href, ih, findIdx_not_null href, List.length_cons,
        Nat.add_right_comm, Nat.add_assoc]
      simp only [Nat.add_lt_add_iff_right]

theorem countRefsLoop_run {entries : List Reference}
    (hnull : ∃ entry ∈ entries, entry.pData = nullptr) (r : ℕ) (s : σ) :
    (countRefsLoop entries r).run s = .ok (r + entries.findIdx isNull) s := by
  have hlt : entries.findIdx isNull < entries.length := by
    obtain ⟨entry, hentry, hzero⟩ := hnull
    exact List.findIdx_lt_length_of_exists ⟨entry, hentry, decide_eq_true hzero⟩
  rw [countRefsLoop_eq, if_pos hlt]
  rfl

/-- From position `i` on, the loop reads up to the first null entry and no further. -/
theorem tracedCountRefsLoop_traces {good : Access → Prop} {entry : ℕ → Access} {i : ℕ}
    {entries : List Reference} (hnull : ∃ entry ∈ entries, entry.pData = nullptr)
    (hgood : ∀ j ≤ i + entries.findIdx isNull, good (entry j)) (r : ℕ) :
    Traces good (tracedCountRefsLoop entry i entries r : Traced σ Access ℕ)
      (countRefsLoop entries r) := by
  induction entries generalizing i r with
  | nil => simp at hnull
  | cons ref rest ih =>
    rw [tracedCountRefsLoop, countRefsLoop]
    apply Traces.note_bind (hgood i (Nat.le_add_right _ _))
    apply Traces.ite (fun _ => .pure _)
    intro href
    apply ih (null_in_rest href hnull)
    intro j hj
    apply hgood
    rw [findIdx_not_null href]
    omega

theorem countRefs_run {refs : Option (List Reference)} (h : Terminated refs) (s : σ) :
    (countRefs assertions refs).run s = .ok (count refs) s := by
  match refs with
  | none => rfl
  | some [] => exact absurd h not_terminated_nil
  | some (first :: rest) =>
    obtain ⟨hfirst, hnull⟩ := h.cons
    have hpresent : (first.pData != nullptr) = true := bne_iff_ne.mpr hfirst
    rw [countRefs, hpresent, assert_true, pure_bind, countRefsLoop_run hnull, count,
      Option.getD_some, findIdx_not_null hfirst, Nat.add_comm]

theorem tracedCountRefs_traces {good : Access → Prop} {entry : ℕ → Access}
    {refs : Option (List Reference)} (h : Terminated refs)
    (hgood : refs ≠ none → ∀ j ≤ count refs, good (entry j)) :
    Traces good (tracedCountRefs entry assertions refs : Traced σ Access ℕ)
      (countRefs assertions refs) := by
  match refs with
  | none => exact .pure _
  | some [] => exact absurd h not_terminated_nil
  | some (first :: rest) =>
    obtain ⟨hfirst, hnull⟩ := h.cons
    have hcount : count (some (first :: rest)) = rest.findIdx isNull + 1 :=
      findIdx_not_null hfirst rest
    have hread := hgood (Option.some_ne_none _)
    have hloop : Traces good (tracedCountRefsLoop entry 1 rest 1 : Traced σ Access ℕ)
        (countRefsLoop rest 1) :=
      tracedCountRefsLoop_traces hnull (fun j hj => hread j (by omega)) 1
    rw [tracedCountRefs, countRefs]
    cases assertions with
    | false => exact .bind (.assert _ _) fun _ _ => hloop
    | true =>
      apply Traces.note_bind (hread 0 (Nat.zero_le _))
      exact .bind (.assert _ _) fun _ _ => hloop

/-- What the shape check asks of a call. -/
def Fits (shape : SyscallArgs) (numArgs : ℕ) (refs : Option (List Reference))
    (crefs : Option (List CReference)) (returnValue : Pointer) : Prop :=
  numArgs = shape.numArgs ∧ (shape.needReturnValue = true → returnValue ≠ nullptr) ∧
    count refs = shape.numRefs ∧ count crefs = shape.numCRefs

theorem check_run (assertions : Bool) (shape : SyscallArgs) (numArgs : ℕ)
    {refs : Option (List Reference)} {crefs : Option (List CReference)} (hrefs : Terminated refs)
    (hcrefs : Terminated crefs) (returnValue : Pointer) (s : σ) :
    ∃ b, (shape.check assertions numArgs refs crefs returnValue).run s = .ok b s ∧
      (b = true ↔ Fits shape numArgs refs crefs returnValue) := by
  unfold SyscallArgs.check SyscallArgs.checkCounts Fits
  by_cases hargs : numArgs = shape.numArgs
  · by_cases hreturn : shape.needReturnValue = true ∧ returnValue = nullptr
    · exact ⟨false, by simp [hargs, hreturn], by simp [hreturn]⟩
    · have hreturn' : shape.needReturnValue = true → returnValue ≠ nullptr :=
        fun hneed hzero => hreturn ⟨hneed, hzero⟩
      rw [if_neg (not_not_intro hargs), if_neg hreturn, bind_ok (countRefs_run hrefs s)]
      by_cases hcount : count refs = shape.numRefs
      · rw [if_neg (not_not_intro hcount), bind_ok (countRefs_run hcrefs s)]
        by_cases hccount : count crefs = shape.numCRefs
        · rw [if_neg (not_not_intro hccount)]
          exact ⟨true, rfl, iff_of_true rfl ⟨hargs, hreturn', hcount, hccount⟩⟩
        · rw [if_pos hccount]
          exact ⟨false, rfl, iff_of_false Bool.false_ne_true fun h => hccount h.2.2.2⟩
      · rw [if_pos hcount]
        exact ⟨false, rfl, iff_of_false Bool.false_ne_true fun h => hcount h.2.2.1⟩
  · rw [if_pos hargs]
    exact ⟨false, rfl, iff_of_false Bool.false_ne_true fun h => hargs h.1⟩

end Counting

section Reads
variable {σ : Type} {assertions : Bool} {input : SyscallInput}

theorem entry_of_lt_count {refs : Option (List Reference)} {i : ℕ} (hi : i < count refs) :
    ∃ entry, refs.bind (·[i]?) = some entry ∧ entry.pData ≠ nullptr := by
  cases refs with
  | none => exact absurd hi (Nat.not_lt_zero i)
  | some entries =>
    have hlt : i < entries.length := Nat.lt_of_lt_of_le hi List.findIdx_le_length
    refine ⟨entries[i], List.getElem?_eq_getElem hlt, ?_⟩
    have hnull : isNull entries[i] = false := List.not_of_lt_findIdx hi
    exact of_decide_eq_false hnull

theorem noted_traces {α : Type} {event : Access} (hevent : InRange input event) (m : Exec σ α) :
    Traces (InRange input) (noted event m) m := .note_bind hevent (.silent m)

theorem readCRef_present {i : ℕ} (hi : i < count input.crefs) {cref : CReference} {s u : σ}
    (hrun : (readCRef input.crefs i).run s = .ok cref u) : cref.pData ≠ nullptr := by
  obtain ⟨entry, hentry, hpresent⟩ := entry_of_lt_count hi
  rw [readCRef, hentry] at hrun
  cases hrun
  exact hpresent

end Reads

section Guard
variable {σ : Type} {assertions : Bool} {pdkIndex : ℕ} {input : SyscallInput}

theorem check_traces (shape : SyscallArgs) (hrefs : Terminated input.refs)
    (hcrefs : Terminated input.crefs) :
    Traces (InRange input)
      (shape.checkCounts input.numArgs (tracedCountRefs .countsRef assertions input.refs)
        (tracedCountRefs .countsCRef assertions input.crefs) input.returnValue :
        Traced σ Access Bool)
      (shape.check assertions input.numArgs input.refs input.crefs input.returnValue) := by
  unfold SyscallArgs.check SyscallArgs.checkCounts
  apply Traces.ite (fun _ => .pure _)
  intro _
  apply Traces.ite (fun _ => .pure _)
  intro _
  apply Traces.bind (tracedCountRefs_traces hrefs fun hsome j hj => ⟨hsome, hj⟩)
  intro _ _
  apply Traces.ite (fun _ => .pure _)
  intro _
  apply Traces.bind (tracedCountRefs_traces hcrefs fun hsome j hj => ⟨hsome, hj⟩)
  intro _ _
  exact .ite (fun _ => .pure _) fun _ => .pure _

theorem check_true {shape : SyscallArgs} (hrefs : Terminated input.refs)
    (hcrefs : Terminated input.crefs) {s u : σ}
    (hrun : (shape.check assertions input.numArgs input.refs input.crefs input.returnValue).run s =
      .ok true u) :
    Fits shape input.numArgs input.refs input.crefs input.returnValue := by
  obtain ⟨b, hcheck, hfits⟩ :=
    check_run assertions shape input.numArgs hrefs hcrefs input.returnValue s
  rw [hcheck] at hrun
  cases hrun
  exact hfits.mp rfl

variable [HasStderr σ]

theorem fprintf_traces {good : Access → Prop} (text : String) :
    Traces good (fprintf text : Traced σ Access Unit) (fprintf text) := by
  intro s log
  refine ⟨[], fun _ h => absurd h List.not_mem_nil, ?_⟩
  rw [List.append_nil]
  rfl

theorem getFrom_traces (handles : PdpiVmHandles pdkIndex) (hpos : 0 < input.numArgs) :
    Traces (InRange input)
      (handles.getFrom assertions input.c (noted (.arg 0) (readArg input.args 0)) :
        Traced σ Access _)
      (handles.getFrom assertions input.c (readArg input.args 0)) := by
  have harg : InRange input (.arg 0) := hpos
  apply Traces.bind (noted_traces harg _)
  intro block _
  cases input.c.getPdpiInfo block.uint64 with
  | none => exact .bind (fprintf_traces _) fun _ _ => .pure _
  | some info =>
    apply Traces.ite (fun _ => .pure _)
    intro _
    exact .bind (.assert _ _) fun _ _ => .pure _

variable {Ty : Type} [ValueTraits Ty]

/-- The lookup runs behind the shape check, so a shape with an argument has one to look up. -/
theorem admitted_traces (hrefs : Terminated input.refs) (hcrefs : Terminated input.crefs)
    {shape : SyscallArgs} (hpos : 0 < shape.numArgs) (handles : PdpiVmHandles pdkIndex) :
    Traces (InRange input)
      ((notingReaders assertions pdkIndex input : Readers (σ × List Access) Ty pdkIndex).admitted
        shape handles)
      ((Readers.plain assertions pdkIndex input : Readers σ Ty pdkIndex).admitted
        shape handles) := by
  apply Traces.bind (check_traces shape hrefs hcrefs)
  rintro b ⟨s, u, hrun⟩
  cases b with
  | false => exact .pure _
  | true =>
    have hargs := (check_true hrefs hcrefs hrun).1
    exact getFrom_traces handles (by omega)

theorem admitted_fits (hrefs : Terminated input.refs) (hcrefs : Terminated input.crefs)
    {shape : SyscallArgs} {handles handles' : PdpiVmHandles pdkIndex} {s u : σ}
    (hrun : ((Readers.plain assertions pdkIndex input : Readers σ Ty pdkIndex).admitted
      shape handles).run s = .ok (true, handles') u) :
    Fits shape input.numArgs input.refs input.crefs input.returnValue := by
  obtain ⟨b, v, hcheck, hrest⟩ := bind_eq_ok.mp hrun
  cases b with
  | false => cases hrest
  | true => exact check_true hrefs hcrefs hcheck

end Guard

section Callbacks
variable {σ Ty : Type} {pdpiType : PdpiType σ Ty} {input : SyscallInput}

theorem allValid_traces (pdpi : Pointer) (handles : List (Ty × Pointer)) :
    Traces (InRange input) (allValid (silentPdpi pdpiType) pdpi handles)
      (allValid pdpiType pdpi handles) := by
  induction handles with
  | nil => exact .pure _
  | cons handle handles ih =>
    exact .bind (.silent _) fun _ _ => .ite (fun _ => ih) fun _ => .pure _

end Callbacks

section Syscalls
variable {σ Ty ρ : Type} [HasStderr σ] [ValueTraits Ty] {assertions : Bool} {pdkIndex : ℕ}
  {pdpiType : PdpiType σ Ty} {protocol : Protocol σ Ty ρ} {input : SyscallInput}

theorem readHandles_traces {slots : List (ℕ × Ty)}
    (hslots : ∀ slot ∈ slots, slot.1 < input.numArgs) :
    Traces (InRange input)
      (readHandles (notingReaders assertions pdkIndex input : Readers (σ × List Access) Ty _) slots)
      (readHandles (.plain assertions pdkIndex input : Readers σ Ty _) slots) := by
  induction slots with
  | nil => exact .pure _
  | cons slot slots ih =>
    have hslot : InRange input (.arg slot.1) := hslots slot (List.mem_cons_self ..)
    have hrest := ih fun other hother => hslots other (List.mem_cons_of_mem _ hother)
    exact .bind (noted_traces hslot _) fun _ _ => .bind hrest fun _ _ => .pure _

/-- The vector of a counted reference is built within its `assertReturn`. -/
theorem readPublic_traces {publicVec : Option Ty}
    (hpublic : publicVec ≠ none → 0 < count input.crefs) :
    Traces (InRange input)
      (readPublic (notingReaders assertions pdkIndex input : Readers (σ × List Access) Ty _)
        publicVec)
      (readPublic (.plain assertions pdkIndex input : Readers σ Ty _) publicVec) := by
  cases publicVec with
  | none => exact .pure _
  | some L =>
    have hzero : 0 < count input.crefs := hpublic (Option.some_ne_none L)
    have hcref : InRange input (.cref 0) := ⟨hzero, entry_of_lt_count hzero⟩
    apply Traces.bind (noted_traces hcref _)
    rintro cref ⟨s, u, hrun⟩
    have hpresent : InRange input (.vmVec cref.pData) := readCRef_present hzero hrun
    exact .bind (noted_traces hpresent _) fun _ _ => .pure _

theorem runProtocol_traces {sig : Signature Ty} (hslots : Signature.InRange sig)
    (hargs : input.numArgs = sig.numArgs) (hcount : count input.crefs = sig.numCRefs)
    (pdpi : Pointer) :
    Traces (InRange input)
      (runProtocol (notingReaders assertions pdkIndex input) (silentPdpi pdpiType)
        (silentProtocol protocol) sig pdpi)
      (runProtocol (.plain assertions pdkIndex input) pdpiType protocol sig pdpi) := by
  have hinputs : ∀ slot ∈ sig.inputs, slot.1 < input.numArgs := by
    rw [hargs]
    exact hslots.inputs
  have houtput : ∀ slot ∈ [sig.output], slot.1 < input.numArgs := by
    intro slot hslot
    rw [List.mem_singleton.mp hslot, hargs]
    exact hslots.output
  have hpublic : sig.publicVec ≠ none → 0 < count input.crefs := by
    rw [hcount]
    exact hslots.public_
  apply Traces.bind (.silent _)
  intro _ _
  apply Traces.ite (fun _ => .pure _)
  intro _
  apply Traces.bind (readHandles_traces hinputs)
  intro inputs _
  apply Traces.bind (readHandles_traces houtput)
  intro output _
  apply Traces.bind (allValid_traces pdpi (inputs ++ output))
  intro _ _
  apply Traces.ite (fun _ => .pure _)
  intro _
  apply Traces.bind (readPublic_traces hpublic)
  intro public_ _
  apply Traces.bind (.silent _)
  intro instance_ _
  apply Traces.bind (.silent _)
  intro _ _
  exact .ite (fun _ => .pure _) fun _ => .pure _

/-- What a syscall does behind its guard may use that the call fits the shape. -/
theorem dispatch_traces {sig : Signature Ty} (hslots : Signature.InRange sig)
    (hrefs : Terminated input.refs) (hcrefs : Terminated input.crefs) :
    Traces (InRange input)
      (dispatch (notingReaders assertions pdkIndex input) (silentPdpi pdpiType)
        (silentProtocol protocol) sig)
      (dispatch (.plain assertions pdkIndex input) pdpiType protocol sig) := by
  apply Traces.bind (admitted_traces hrefs hcrefs hslots.positive .init)
  rintro ⟨valid, handles⟩ ⟨s, u, hrun⟩
  cases valid with
  | false => exact .pure _
  | true =>
    obtain ⟨hargs, _, _, hcount⟩ := admitted_fits hrefs hcrefs hrun
    exact .catchAll (runProtocol_traces hslots hargs hcount _) fun _ => .pure _

theorem tracedCall_traces (syscall : MetaSyscall Ty) (hrefs : Terminated input.refs)
    (hcrefs : Terminated input.crefs) :
    Traces (InRange input) (tracedCall syscall assertions pdkIndex pdpiType protocol input)
      (syscall.call assertions pdkIndex pdpiType protocol input) := by
  rw [tracedCall, body_eq_dispatch, call_eq_dispatch]
  exact dispatch_traces (signature_inRange syscall) hrefs hcrefs

end Syscalls

section Operands
variable {Ty : Type} (input : SyscallInput)

def slotHandles (slots : List (ℕ × Ty)) : List (Ty × Pointer) :=
  slots.filterMap fun slot => input.args[slot.1]?.map fun block => (slot.2, block.p)

def publicOperand [ValueTraits Ty] (publicVec : Option Ty) : List (Param Ty) :=
  (publicVec.bind fun L => (input.crefs.bind (·[0]?)).map fun cref =>
    .immutableVmVec ⟨L, cref.pData, cref.size / ValueTraits.sizeofPublicType L⟩).toList

/-- `crefs[0]` is there, and not null where `assertReturn` looks at it. -/
def OperandPresent (assertions : Bool) : Prop :=
  ∃ cref, input.crefs.bind (·[0]?) = some cref ∧ (assertions = true → cref.pData ≠ nullptr)

theorem operandPresent_of_count (assertions : Bool) (h : 0 < count input.crefs) :
    OperandPresent input assertions := by
  obtain ⟨cref, hcref, hpresent⟩ := entry_of_lt_count h
  exact ⟨cref, hcref, fun _ => hpresent⟩

end Operands

section Operands
variable {τ Ty : Type} [HasStderr τ] [ValueTraits Ty] {assertions : Bool} {k : ℕ}
  {input : SyscallInput}

theorem readHandles_eq {slots : List (ℕ × Ty)}
    (h : ∀ slot ∈ slots, slot.1 < input.args.length) :
    readHandles (Readers.plain assertions k input : Readers τ Ty k) slots =
      pure (slotHandles input slots) := by
  induction slots with
  | nil => rfl
  | cons slot slots ih =>
    have hslot := h slot (List.mem_cons_self ..)
    have hrest := ih fun other hother => h other (List.mem_cons_of_mem _ hother)
    have hget := List.getElem?_eq_getElem hslot
    have hcons : slotHandles input (slot :: slots) =
        (slot.2, input.args[slot.1].p) :: slotHandles input slots := by
      simp only [slotHandles, List.filterMap_cons, hget, Option.map_some]
    rw [readHandles, hrest, hcons]
    simp only [Readers.plain, readArg, hget, pure_bind]

theorem readPublic_eq {publicVec : Option Ty}
    (h : publicVec ≠ none → OperandPresent input assertions) :
    readPublic (Readers.plain assertions k input : Readers τ Ty k) publicVec =
      pure (publicOperand input publicVec) := by
  cases publicVec with
  | none => rfl
  | some L =>
    obtain ⟨cref, hcref, hpresent⟩ := h (Option.some_ne_none L)
    have hassert : (assert assertions (cref.pData != nullptr) : Exec τ Unit) = pure () :=
      assert_present hpresent
    simp only [readPublic, Readers.plain, readCRef, publicOperand, ImmutableVmVec.ofCReference,
      vmVecBase, hcref, hassert, pure_bind, Option.bind_some, Option.map_some, Option.toList_some]

end Operands

section Faults
variable {σ Ty ρ : Type} {assertions : Bool} {pdkIndex : ℕ} {pdpiType : PdpiType σ Ty}
  {protocol : Protocol σ Ty ρ} {input : SyscallInput}

/-- One of the callbacks ends in this fault and this state. -/
def CallbackFaults (pdpiType : PdpiType σ Ty) (protocol : Protocol σ Ty ρ) (f : Fault) (u : σ) :
    Prop :=
  ∃ t, (∃ pdpi, (pdpiType.isComputingNode pdpi).run t = .error (.faults f) u) ∨
    (∃ T pdpi handle, (pdpiType.isValidHandle T pdpi handle).run t = .error (.faults f) u) ∨
    (∃ pdpi, (protocol.construct pdpi).run t = .error (.faults f) u) ∨
    ∃ instance_ params, (protocol.invoke instance_ params).run t = .error (.faults f) u

theorem computing_faults (pdpi : Pointer) :
    FaultsOnly (CallbackFaults pdpiType protocol) (pdpiType.isComputingNode pdpi) :=
  fun s _ _ hrun => ⟨s, .inl ⟨pdpi, hrun⟩⟩

theorem valid_faults (T : Ty) (pdpi handle : Pointer) :
    FaultsOnly (CallbackFaults pdpiType protocol) (pdpiType.isValidHandle T pdpi handle) :=
  fun s _ _ hrun => ⟨s, .inr (.inl ⟨T, pdpi, handle, hrun⟩)⟩

theorem construct_faults (pdpi : Pointer) :
    FaultsOnly (CallbackFaults pdpiType protocol) (protocol.construct pdpi) :=
  fun s _ _ hrun => ⟨s, .inr (.inr (.inl ⟨pdpi, hrun⟩))⟩

theorem invoke_faults (instance_ : ρ) (params : List (Param Ty)) :
    FaultsOnly (CallbackFaults pdpiType protocol) (protocol.invoke instance_ params) :=
  fun s _ _ hrun => ⟨s, .inr (.inr (.inr ⟨instance_, params, hrun⟩))⟩

theorem allValid_faults (pdpi : Pointer) (handles : List (Ty × Pointer)) :
    FaultsOnly (CallbackFaults pdpiType protocol) (allValid pdpiType pdpi handles) := by
  induction handles with
  | nil => exact .pure _
  | cons handle handles ih =>
    apply FaultsOnly.bind (valid_faults handle.1 pdpi handle.2)
    exact fun _ _ => .ite (fun _ => ih) fun _ => .pure _

variable [HasStderr σ] [ValueTraits Ty]

theorem runProtocol_faults {sig : Signature Ty} (hslots : Signature.InRange sig)
    (hargs : input.args.length = sig.numArgs) (hcount : count input.crefs = sig.numCRefs)
    (pdpi : Pointer) :
    FaultsOnly (CallbackFaults pdpiType protocol)
      (runProtocol (.plain assertions pdkIndex input) pdpiType protocol sig pdpi) := by
  have hinputs : ∀ slot ∈ sig.inputs, slot.1 < input.args.length := by
    rw [hargs]
    exact hslots.inputs
  have houtput : ∀ slot ∈ [sig.output], slot.1 < input.args.length := by
    intro slot hslot
    rw [List.mem_singleton.mp hslot, hargs]
    exact hslots.output
  have hpublic : sig.publicVec ≠ none → OperandPresent input assertions := fun hsome =>
    operandPresent_of_count input assertions (by rw [hcount]; exact hslots.public_ hsome)
  unfold runProtocol
  rw [readHandles_eq hinputs, readHandles_eq houtput, readPublic_eq hpublic]
  simp only [pure_bind]
  refine .bind (computing_faults pdpi) fun computing _ => .ite (fun _ => .pure _) fun _ => ?_
  refine .bind (allValid_faults pdpi _) fun valid _ => .ite (fun _ => .pure _) fun _ => ?_
  refine .bind (construct_faults pdpi) fun instance_ _ => ?_
  refine .bind (invoke_faults instance_ _) fun accepted _ => ?_
  exact .ite (fun _ => .pure _) fun _ => .pure _

/-- With an argument block of `num_args` entries nothing but a callback can fault. -/
theorem call_faults (syscall : MetaSyscall Ty) (hrefs : Terminated input.refs)
    (hcrefs : Terminated input.crefs) (hargs : input.args.length = input.numArgs)
    (hpresent : assertions = true → input.c.HandlesPresent) :
    FaultsOnly (CallbackFaults pdpiType protocol)
      (syscall.call assertions pdkIndex pdpiType protocol input) := by
  have hslots := signature_inRange syscall
  rw [call_eq_dispatch]
  apply FaultsOnly.bind
  · apply FaultsOnly.bind
    · apply FaultsOnly.returns
      intro s
      obtain ⟨b, hcheck, -⟩ := check_run assertions (signature syscall).shape input.numArgs hrefs
        hcrefs input.returnValue s
      exact ⟨b, s, hcheck⟩
    · rintro b ⟨s, u, hrun⟩
      cases b with
      | false => exact .pure _
      | true =>
        have hfits := (check_true hrefs hcrefs hrun).1
        have hpos : 0 < input.args.length := by
          rw [hargs, hfits]
          exact hslots.positive
        exact .returns (get_returns .init hpos hpresent)
  · rintro ⟨valid, handles⟩ ⟨s, u, hrun⟩
    cases valid with
    | false => exact .pure _
    | true =>
      obtain ⟨hfits, _, _, hcount⟩ := admitted_fits hrefs hcrefs hrun
      exact .catchAll (runProtocol_faults hslots (hargs.trans hfits) hcount _) fun _ => .pure _

end Faults

/-- Counting reads up to the first null entry, the shape check is exact, and every syscall reads
its arguments and references in range, so that no vector is built on a null reference and only a
callback can fault. -/
theorem accesses_in_range {σ Ty ρ : Type} [HasStderr σ] [ValueTraits Ty] (assertions : Bool)
    (pdkIndex : ℕ) (pdpiType : PdpiType σ Ty) (protocol : Protocol σ Ty ρ) (shape : SyscallArgs)
    (syscall : MetaSyscall Ty) (input : SyscallInput) (hrefs : Terminated input.refs)
    (hcrefs : Terminated input.crefs) (s : σ) :
    (∀ refs entry, Terminated refs →
      (countRefs assertions refs).run s = .ok (count refs) s ∧
      ∃ accesses, (∀ access ∈ accesses, refs ≠ none ∧ ∃ j ≤ count refs, access = entry j) ∧
        (tracedCountRefs entry assertions refs).run (s, []) = .ok (count refs) (s, accesses)) ∧
    (∃ b, (shape.check assertions input.numArgs input.refs input.crefs input.returnValue).run s =
        .ok b s ∧
      (b = true ↔ Fits shape input.numArgs input.refs input.crefs input.returnValue)) ∧
    (∃ accesses, (∀ access ∈ accesses, InRange input access) ∧
      (tracedCall syscall assertions pdkIndex pdpiType protocol input).run (s, []) =
        withLog accesses ((syscall.call assertions pdkIndex pdpiType protocol input).run s)) ∧
    (input.args.length = input.numArgs → (assertions = true → input.c.HandlesPresent) →
      FaultsOnly (CallbackFaults pdpiType protocol)
        (syscall.call assertions pdkIndex pdpiType protocol input)) := by
  apply And.intro
  · intro refs entry h
    apply And.intro (countRefs_run h s)
    have htraces : Traces (fun access => refs ≠ none ∧ ∃ j ≤ count refs, access = entry j)
        (tracedCountRefs entry assertions refs : Traced σ Access ℕ) (countRefs assertions refs) :=
      tracedCountRefs_traces h fun hsome j hj => ⟨hsome, j, hj, rfl⟩
    obtain ⟨accesses, haccesses, hrun⟩ := htraces s []
    rw [countRefs_run h s] at hrun
    exact ⟨accesses, haccesses, hrun⟩
  · apply And.intro (check_run assertions shape input.numArgs hrefs hcrefs input.returnValue s)
    apply And.intro (tracedCall_traces syscall hrefs hcrefs s [])
    exact call_faults syscall hrefs hcrefs

section Instance

/-- One public operand, for two share vectors. -/
def oneCRef : SyscallInput where
  args := [⟨1, 0⟩, ⟨0, 24⟩, ⟨0, 32⟩]
  numArgs := 3
  refs := none
  crefs := some [⟨8, 16⟩, ⟨nullptr, 0⟩]
  returnValue := nullptr
  c := { moduleHandle := 7, getPdpiInfo := fun _ => some ⟨16, 8, 0, 7⟩ }

def acceptingPdpi : PdpiType (List String) Bool where
  isComputingNode _ := pure true
  isValidHandle _ _ _ := pure true

def acceptingProtocol : Protocol (List String) Bool Unit where
  construct _ := pure ()
  invoke _ _ := pure true

theorem oneCRef_terminated : Terminated oneCRef.crefs := by
  rintro _ ⟨rfl⟩
  exact ⟨⟨_, _, rfl, by decide⟩, _, List.mem_cons_of_mem _ (List.mem_singleton_self _), rfl⟩

theorem accesses_in_range_oneCRef :
    ∃ accesses, (∀ access ∈ accesses, InRange oneCRef access) ∧
      (tracedCall (.opcArithVec true) true 0 acceptingPdpi acceptingProtocol oneCRef).run ([], []) =
        .ok .ok ([], accesses) :=
  (accesses_in_range true 0 acceptingPdpi acceptingProtocol { numArgs := 3, numCRefs := 1 }
    (.opcArithVec true) oneCRef terminated_none oneCRef_terminated []).2.2.1

example :
    (tracedCall (.opcArithVec true) true 0 acceptingPdpi acceptingProtocol oneCRef).run ([], []) =
      .ok .ok ([], [.countsCRef 0, .countsCRef 1, .arg 0, .arg 1, .arg 2, .cref 0, .vmVec 8]) := by
  rfl

end Instance
end PdkHeaders.AccessRanges
