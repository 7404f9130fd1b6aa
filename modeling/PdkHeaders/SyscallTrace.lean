import PdkHeaders.Library.Hoare
import PdkHeaders.MetaSyscallsDispatch

set_option autoImplicit false

/-!
# Recorded syscalls

The callbacks of a syscall, each noted with the state it is called in. One rule bounds what
the dispatcher, and so every meta-syscall, may note.
-/
namespace PdkHeaders.SyscallTrace
open PdkHeaders.Library.Execution PdkHeaders.Library.Hoare
open PdkHeaders.SyscallsCommon PdkHeaders.VmVector PdkHeaders.MetaSyscalls
open PdkHeaders.MetaSyscallsDispatch

inductive Callback (Ty : Type) where
  | isComputingNode (pdpi : Pointer)
  | isValidHandle (T : Ty) (pdpi handle : Pointer)
  | construct (pdpi : Pointer)
  | invoke (params : List (Param Ty))
  deriving DecidableEq, Repr

abbrev Entry (σ Ty : Type) := Callback Ty × σ
abbrev Recorded (σ Ty : Type) := σ × List (Entry σ Ty)

instance {σ Ty : Type} [HasStderr σ] : HasStderr (Recorded σ Ty) where
  write text t := (HasStderr.write text t.1, t.2)

def recordPdpi {σ Ty : Type} (pdpiType : PdpiType σ Ty) : PdpiType (Recorded σ Ty) Ty where
  isComputingNode pdpi := record (.isComputingNode pdpi) (pdpiType.isComputingNode pdpi)
  isValidHandle T pdpi handle :=
    record (.isValidHandle T pdpi handle) (pdpiType.isValidHandle T pdpi handle)

def recordProtocol {σ Ty ρ : Type} (protocol : Protocol σ Ty ρ) :
    Protocol (Recorded σ Ty) Ty ρ where
  construct pdpi := record (.construct pdpi) (protocol.construct pdpi)
  invoke instance_ params := record (.invoke params) (protocol.invoke instance_ params)

def vecHandle {Ty : Type} : Param Ty → Option (Ty × Pointer)
  | .constShareVec T vec => some (T, vec)
  | .shareVec T vec => some (T, vec)
  | .immutableVmVec _ => none

theorem vecHandle_parameters {Ty : Type} {inputs output : List (Ty × Pointer)}
    {public_ : List (Param Ty)} (hpublic : ∀ param ∈ public_, vecHandle param = none)
    {param : Param Ty} (hparam : param ∈ parameters inputs public_ output)
    {handle : Ty × Pointer} (h : vecHandle param = some handle) : handle ∈ inputs ++ output := by
  simp only [parameters, List.mem_append, List.mem_map] at hparam
  rw [List.mem_append]
  rcases hparam with (⟨input, hinput, rfl⟩ | hold) | ⟨out, hout, rfl⟩
  · cases h; exact .inl hinput
  · rw [hpublic param hold] at h; cases h
  · cases h; exact .inr hout

section Reads
variable {σ Ty : Type} [HasStderr σ] [ValueTraits Ty] {assertions : Bool} {k : ℕ}
  {input : SyscallInput}

theorem readHandles_readOnly (slots : List (ℕ × Ty)) :
    ReadOnly (readHandles (Readers.plain assertions k input : Readers σ Ty k) slots) := by
  induction slots with
  | nil => exact .pure _
  | cons slot slots ih =>
    exact .bind (readArg_readOnly input.args slot.1) fun _ => .bind ih fun _ => .pure _

/-- Past the guard a lookup is known that the object admitted. -/
theorem admitted_triple (shape : SyscallArgs) {J : σ → Prop}
    (hwrite : ∀ text s, J s → J (HasStderr.write text s)) :
    Triple J ((Readers.plain assertions k input : Readers σ Ty k).admitted shape .init)
      (fun r s => J s ∧ (r.1 = true → ∃ info, lookup input.c input.args 0 = some info ∧
        Admits (PdpiVmHandles.init : PdpiVmHandles k) input.c info ∧ r.2 = ⟨info⟩)) J := by
  refine .bind ((check_readOnly _ _ _ _ _ _).triple J) fun shapeOk => ?_
  apply Triple.ite
  · exact fun _ => .pure fun s hs => ⟨hs, fun hfalse => nomatch hfalse⟩
  · intro _
    refine (get_triple .init input.c input.args 0 hwrite).weaken (fun _ => id) ?_ fun _ => id
    rintro r s ⟨hs, ⟨-, hpost⟩ | ⟨hfalse, -⟩⟩
    · exact ⟨hs, fun _ => hpost⟩
    · exact ⟨hs, fun htrue => absurd (htrue.symm.trans hfalse) Bool.true_eq_false.mp⟩

end Reads

section Rule
variable {σ Ty ρ : Type} {assertions : Bool}
  {pdpiType : PdpiType σ Ty} {protocol : Protocol σ Ty ρ} {input : SyscallInput}

/-- What the callbacks on one PDPI guarantee: they keep `I`, an accepted handle is `Valid` until
the protocol is invoked, and every call is `good` in the state it is made in. -/
structure Discipline (pdpiType : PdpiType σ Ty) (protocol : Protocol σ Ty ρ) (pdpi : Pointer)
    (I : σ → Prop) (Valid : Ty × Pointer → σ → Prop) (good : Entry σ Ty → Prop) : Prop where
  computing : Triple I (pdpiType.isComputingNode pdpi) (fun _ => I) I
  valid : ∀ T handle (accepted : List (Ty × Pointer)),
    Triple (fun s => I s ∧ ∀ h ∈ accepted, Valid h s) (pdpiType.isValidHandle T pdpi handle)
      (fun b s => (I s ∧ ∀ h ∈ accepted, Valid h s) ∧ (b = true → Valid (T, handle) s)) I
  construct : ∀ accepted : List (Ty × Pointer),
    Triple (fun s => I s ∧ ∀ h ∈ accepted, Valid h s) (protocol.construct pdpi)
      (fun _ s => I s ∧ ∀ h ∈ accepted, Valid h s) I
  invoke : ∀ instance_ params, Triple I (protocol.invoke instance_ params) (fun _ => I) I
  goodComputing : ∀ s, I s → good (.isComputingNode pdpi, s)
  goodValid : ∀ T handle s, I s → good (.isValidHandle T pdpi handle, s)
  goodConstruct : ∀ s, I s → good (.construct pdpi, s)
  goodInvoke : ∀ params s, I s →
    (∀ param ∈ params, ∀ h, vecHandle param = some h → Valid h s) → good (.invoke params, s)

/-- The invariant of a recorded run: `I`, the handles accepted so far, and a good log. -/
def Noted (I : σ → Prop) (Valid : Ty × Pointer → σ → Prop) (good : Entry σ Ty → Prop)
    (accepted : List (Ty × Pointer)) (t : Recorded σ Ty) : Prop :=
  (I t.1 ∧ ∀ h ∈ accepted, Valid h t.1) ∧ ∀ entry ∈ t.2, good entry

def Kept (I : σ → Prop) (good : Entry σ Ty → Prop) (t : Recorded σ Ty) : Prop :=
  I t.1 ∧ ∀ entry ∈ t.2, good entry

variable {pdpi : Pointer} {I : σ → Prop} {Valid : Ty × Pointer → σ → Prop}
  {good : Entry σ Ty → Prop}

theorem Noted.kept {accepted : List (Ty × Pointer)} {t : Recorded σ Ty}
    (h : Noted I Valid good accepted t) : Kept I good t := ⟨h.1.1, h.2⟩

theorem Kept.noted {t : Recorded σ Ty} (h : Kept I good t) : Noted I Valid good [] t :=
  ⟨⟨h.1, fun _ hmem => absurd hmem List.not_mem_nil⟩, h.2⟩

theorem allValid_noted (h : Discipline pdpiType protocol pdpi I Valid good)
    (handles accepted : List (Ty × Pointer)) :
    Triple (Noted I Valid good accepted) (allValid (recordPdpi pdpiType) pdpi handles)
      (fun b t => Kept I good t ∧ (b = true → Noted I Valid good (handles ++ accepted) t))
      (Kept I good) := by
  induction handles generalizing accepted with
  | nil => exact .pure fun t ht => ⟨ht.kept, fun _ => ht⟩
  | cons handle handles ih =>
    obtain ⟨T, handle⟩ := handle
    refine .bind (record_triple (h.valid T handle accepted)
      fun s hs => h.goodValid T handle s hs.1) fun b => ?_
    cases b with
    | false => exact .pure fun t ht => ⟨⟨ht.1.1.1, ht.2⟩, fun hfalse => nomatch hfalse⟩
    | true =>
      -- the rest of the list is inspected with one more accepted handle
      refine (ih ((T, handle) :: accepted)).weaken ?_ ?_ fun _ => id
      · rintro t ⟨⟨⟨hI, hacc⟩, hT⟩, hlog⟩
        refine ⟨⟨hI, fun q hq => ?_⟩, hlog⟩
        rcases List.mem_cons.mp hq with rfl | hq
        · exact hT rfl
        · exact hacc q hq
      · rintro b t ⟨hkept, hall⟩
        refine ⟨hkept, fun hb => ⟨⟨hkept.1, fun q hq => ?_⟩, hkept.2⟩⟩
        refine (hall hb).1.2 q ?_
        simp only [List.mem_append, List.mem_cons] at hq ⊢
        tauto

variable [HasStderr σ] [ValueTraits Ty] {k : ℕ}

theorem readPublic_noted (publicVec : Option Ty) (J : Recorded σ Ty → Prop) :
    Triple J (readPublic (.plain assertions k input) publicVec)
      (fun public_ t => J t ∧ ∀ param ∈ public_, vecHandle param = none) J := by
  cases publicVec with
  | none => exact .pure fun t ht => ⟨ht, fun _ hmem => absurd hmem List.not_mem_nil⟩
  | some L =>
    refine .bind ((readCRef_readOnly input.crefs 0).triple J) fun cref => ?_
    refine .bind ((ReadOnly.bind (.assert _ _) fun _ => .pure _).triple J) fun vec => ?_
    refine .pure fun t ht => ⟨ht, fun param hparam => ?_⟩
    rw [List.mem_singleton.mp hparam]
    rfl

theorem runProtocol_kept (h : Discipline pdpiType protocol pdpi I Valid good)
    (sig : Signature Ty) :
    Triple (Kept I good) (runProtocol (.plain assertions k input) (recordPdpi pdpiType)
      (recordProtocol protocol) sig pdpi) (fun _ => Kept I good) (Kept I good) := by
  refine .bind (record_triple h.computing h.goodComputing) fun computing => ?_
  refine .ite (fun _ => .pure fun _ ht => ht) fun _ => ?_
  refine .bind ((readHandles_readOnly sig.inputs).triple _) fun inputs => ?_
  refine .bind ((readHandles_readOnly [sig.output]).triple _) fun output => ?_
  refine .bind ((allValid_noted h (inputs ++ output) []).weaken (fun _ ht => Kept.noted ht)
    (fun _ _ => id) fun _ => id) fun valid => ?_
  cases valid with
  | false => exact .pure fun t ht => ht.1
  | true =>
    rw [List.append_nil]
    refine .bind ((readPublic_noted sig.publicVec (Noted I Valid good (inputs ++ output))).weaken
      (fun t ht => ht.2 rfl) (fun _ _ => id) fun _ ht => ht.kept) fun public_ => ?_
    refine .bind (record_triple (h.construct (inputs ++ output))
      fun s hs => h.goodConstruct s hs.1).frame fun instance_ => .assume fun hpublic => ?_
    refine .bind (record_triple ((h.invoke instance_ (parameters inputs public_ output)).weaken
      (fun s (hs : I s ∧ ∀ q ∈ inputs ++ output, Valid q s) => hs.1) (fun _ _ => id) fun _ => id)
      fun s hs => ?_) fun accepted => ?_
    · exact h.goodInvoke _ s hs.1 fun param hparam q hq =>
        hs.2 q (vecHandle_parameters hpublic hparam hq)
    · exact .ite (fun _ => .pure fun _ ht => ht) fun _ => .pure fun _ ht => ht

/-- The rule: a dispatcher over disciplined callbacks keeps the invariant and a good log,
however it ends. -/
theorem dispatch_kept (k : ℕ) (hwrite : ∀ text s, I s → I (HasStderr.write text s))
    (h : ∀ info, lookup input.c input.args 0 = some info →
      Admits (PdpiVmHandles.init : PdpiVmHandles k) input.c info →
      Discipline pdpiType protocol info.pdpiHandle I Valid good)
    (sig : Signature Ty) :
    Triple (Kept I good) (dispatch (.plain assertions k input) (recordPdpi pdpiType)
      (recordProtocol protocol) sig) (fun _ => Kept I good) (Kept I good) := by
  refine .bind (admitted_triple sig.shape fun text t ht => ⟨hwrite text t.1 ht.1, ht.2⟩)
    fun r => .assume fun hadmitted => ?_
  obtain ⟨valid, handles⟩ := r
  cases valid with
  | false => exact .pure fun _ ht => ht
  | true =>
    obtain ⟨info, hinfo, hadmits, rfl⟩ := hadmitted rfl
    exact .catchAll (runProtocol_kept (h info hinfo hadmits) sig) fun _ => .pure fun _ ht => ht

end Rule

section Notes
variable {σ Ty ρ : Type} {assertions : Bool} {k : ℕ} {pdpiType : PdpiType σ Ty}
  {protocol : Protocol σ Ty ρ} {input : SyscallInput}

theorem allValid_keeps (entry : Entry σ Ty) (pdpi : Pointer) (handles : List (Ty × Pointer)) :
    Triple (fun t => entry ∈ t.2) (allValid (recordPdpi pdpiType) pdpi handles)
      (fun _ t => entry ∈ t.2) (fun t => entry ∈ t.2) := by
  induction handles with
  | nil => exact .pure fun _ ht => ht
  | cons handle handles ih =>
    exact .bind (record_keeps entry) fun b => .ite (fun _ => ih) fun _ => .pure fun _ ht => ht

theorem runProtocol_notes [HasStderr σ] [ValueTraits Ty] (sig : Signature Ty) (pdpi : Pointer)
    (s : σ) :
    Triple (fun t => t.1 = s) (runProtocol (.plain assertions k input) (recordPdpi pdpiType)
      (recordProtocol protocol) sig pdpi)
      (fun _ t => (.isComputingNode pdpi, s) ∈ t.2)
      (fun t => (.isComputingNode pdpi, s) ∈ t.2) := by
  refine .bind (record_notes s) fun computing => ?_
  refine .ite (fun _ => .pure fun _ ht => ht) fun _ => ?_
  refine .bind ((readHandles_readOnly sig.inputs).triple _) fun inputs => ?_
  refine .bind ((readHandles_readOnly [sig.output]).triple _) fun output => ?_
  refine .bind (allValid_keeps _ pdpi _) fun valid => .ite (fun _ => .pure fun _ ht => ht) ?_
  intro _
  refine .bind ((readPublic_noted sig.publicVec _).weaken (fun _ => id) (fun _ _ ht => ht.1)
    fun _ => id) fun public_ => ?_
  refine .bind (record_keeps _) fun instance_ => .bind (record_keeps _) fun accepted => ?_
  exact .ite (fun _ => .pure fun _ ht => ht) fun _ => .pure fun _ ht => ht

end Notes
end PdkHeaders.SyscallTrace
