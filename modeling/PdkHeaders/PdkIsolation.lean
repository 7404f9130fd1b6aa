import PdkHeaders.SyscallTrace

set_option autoImplicit false

/-!
# The syscall guard and the PDK it admits

The guard compares a lookup with the field `pdkIndex` of the handle object, which stays 0, and
not with the template parameter. It isolates PDKs exactly where that makes no difference.
-/
namespace PdkHeaders.PdkIsolation
open PdkHeaders.Library.Execution PdkHeaders.Library.Hoare
open PdkHeaders.SyscallsCommon PdkHeaders.VmVector PdkHeaders.MetaSyscalls
open PdkHeaders.MetaSyscallsDispatch PdkHeaders.SyscallTrace

structure GetCall where
  c : SyscallContext
  args : List CodeBlock
  index : ℕ

def getAll {σ : Type} [HasStderr σ] {k : ℕ} (assertions : Bool) :
    PdpiVmHandles k → List GetCall → Exec σ (PdpiVmHandles k)
  | handles, [] => pure handles
  | handles, call :: calls => do
    let (_, handles) ← handles.get assertions call.c call.args call.index
    getAll assertions handles calls

/-- The PDPI belongs to PDK `k` of the calling module. -/
def BelongsTo (k : ℕ) (c : SyscallContext) (info : PdpiInfo) : Prop :=
  info.pdkIndex = k ∧ info.moduleHandle = c.moduleHandle

/-- A call of `get` admits exactly the PDPIs of PDK `k` of the module, takes over the info on
success and leaves the object alone on failure. -/
def GuardCorrect {σ : Type} [HasStderr σ] {k : ℕ} (assertions : Bool) (handles : PdpiVmHandles k)
    (call : GetCall) (s : σ) : Prop :=
  ∃ found after u,
    (handles.get assertions call.c call.args call.index).run s = .ok (found, after) u ∧
    (found = true ↔
      ∃ info, lookup call.c call.args call.index = some info ∧ BelongsTo k call.c info) ∧
    (found = true → lookup call.c call.args call.index = some after.toPdpiInfo) ∧
    (found = false → after = handles)

/-- The shape check lets the syscall go on to the lookup. -/
def ShapeAccepted {σ : Type} (assertions : Bool) (input : SyscallInput) (shape : SyscallArgs)
    (s : σ) : Prop :=
  (shape.check assertions input.numArgs input.refs input.crefs input.returnValue).run s =
    .ok true s

/-- A recorded syscall of PDK `k` uses an address as a PDPI only if a PDPI of that PDK and of
the calling module is there, and does not turn such a PDPI down. -/
def SyscallIsolated {σ Ty ρ : Type} [HasStderr σ] [ValueTraits Ty] (k : ℕ) (assertions : Bool)
    (syscall : MetaSyscall Ty) (pdpiType : PdpiType σ Ty) (protocol : Protocol σ Ty ρ)
    (input : SyscallInput) (s : σ) : Prop :=
  let result := (syscall.call assertions k (recordPdpi pdpiType) (recordProtocol protocol)
    input).run (s, [])
  (∀ pdpi t, (.isComputingNode pdpi, t) ∈ (finalState result).2 →
    ∃ info, lookup input.c input.args 0 = some info ∧ BelongsTo k input.c info ∧
      pdpi = info.pdpiHandle) ∧
  (ShapeAccepted assertions input (signature syscall).shape ((s, []) : Recorded σ Ty) →
    ∀ info, lookup input.c input.args 0 = some info → BelongsTo k input.c info →
      ∀ u, result ≠ .ok .invalidCall u)

/-- PDK 0, or a lookup that meets neither PDK 0 nor PDK `k` of the calling module. -/
def Separated (k : ℕ) (c : SyscallContext) (args : List CodeBlock) (index : ℕ) : Prop :=
  k = 0 ∨ ∀ info, lookup c args index = some info → info.moduleHandle = c.moduleHandle →
    info.pdkIndex ≠ 0 ∧ info.pdkIndex ≠ k

section Guard
variable {σ : Type} [HasStderr σ] {k : ℕ} {assertions : Bool}

theorem get_pdkIndex {handles after : PdpiVmHandles k} {c : SyscallContext}
    {args : List CodeBlock} {index : ℕ} {found : Bool} {s u : σ}
    (h : (handles.get assertions c args index).run s = .ok (found, after) u) :
    after.pdkIndex = handles.pdkIndex := by
  rcases get_cases h with ⟨-, info, -, hadmits, hafter⟩ | ⟨-, hafter, -⟩
  · exact (congrArg (·.pdkIndex) hafter).trans hadmits.1
  · exact congrArg (·.pdkIndex) hafter

/-- The field starts as 0, and every success overwrites it with the value it was compared to. -/
theorem getAll_pdkIndex (calls : List GetCall) {handles after : PdpiVmHandles k} {s u : σ}
    (h : (getAll assertions handles calls).run s = .ok after u) :
    after.pdkIndex = handles.pdkIndex := by
  induction calls generalizing handles s with
  | nil => cases h; rfl
  | cons call calls ih =>
    obtain ⟨⟨found, next⟩, v, hget, hrest⟩ := bind_eq_ok.mp h
    exact (ih hrest).trans (get_pdkIndex hget)

theorem admits_iff {handles : PdpiVmHandles k} (hzero : handles.pdkIndex = 0) {c : SyscallContext}
    {info : PdpiInfo} : Admits handles c info ↔ BelongsTo 0 c info := by
  rw [Admits, BelongsTo, hzero]

theorem guardCorrect_iff {handles : PdpiVmHandles k} (hzero : handles.pdkIndex = 0)
    {call : GetCall} (hindex : call.index < call.args.length)
    (hpresent : assertions = true → call.c.HandlesPresent) (s : σ) :
    GuardCorrect assertions handles call s ↔ Separated k call.c call.args call.index := by
  obtain ⟨⟨found, after⟩, u, hget⟩ := get_returns handles hindex hpresent s
  have hpost := get_cases hget
  constructor
  · rintro ⟨found', after', u', hget', hfound, -, -⟩
    rw [hget] at hget'
    cases hget'
    by_cases hk : k = 0
    · exact .inl hk
    · refine .inr fun info hinfo hmodule => ⟨fun hindex0 => ?_, fun hindexk => ?_⟩
      · -- the guard admits a PDPI of PDK 0
        rcases hpost with ⟨rfl, -⟩ | ⟨-, -, hnone⟩
        · obtain ⟨info', hinfo', hbelongs⟩ := hfound.mp rfl
          rw [hinfo] at hinfo'
          cases hinfo'
          exact hk (hbelongs.1.symm.trans hindex0)
        · exact hnone info hinfo ((admits_iff hzero).mpr ⟨hindex0, hmodule⟩)
      · -- the guard turns a PDPI of PDK `k` down
        have htrue := hfound.mpr ⟨info, hinfo, hindexk, hmodule⟩
        rcases hpost with ⟨-, info', hinfo', hadmits, -⟩ | ⟨hfalse, -, -⟩
        · rw [hinfo] at hinfo'
          cases hinfo'
          exact hk (hindexk.symm.trans (hadmits.1.trans hzero))
        · cases htrue.symm.trans hfalse
  · intro hsep
    have hbelongs : ∀ info, lookup call.c call.args call.index = some info →
        (Admits handles call.c info ↔ BelongsTo k call.c info) := by
      intro info hinfo
      rw [admits_iff hzero]
      rcases hsep with rfl | hsep
      · exact Iff.rfl
      · constructor
        · exact fun h => absurd h.1 (hsep info hinfo h.2).1
        · exact fun h => absurd h.1 (hsep info hinfo h.2).2
    refine ⟨found, after, u, hget, ?_⟩
    rcases hpost with ⟨rfl, info, hinfo, hadmits, hafter⟩ | ⟨rfl, hafter, hnone⟩
    · refine ⟨⟨fun _ => ⟨info, hinfo, (hbelongs info hinfo).mp hadmits⟩, fun _ => rfl⟩, ?_, ?_⟩
      · intro _
        exact hinfo.trans (congrArg (fun h => some h.toPdpiInfo) hafter).symm
      · exact fun hfalse => nomatch hfalse
    · refine ⟨⟨(fun htrue => nomatch htrue), ?_⟩, (fun htrue => nomatch htrue), fun _ => hafter⟩
      rintro ⟨info, hinfo, h⟩
      exact absurd ((hbelongs info hinfo).mpr h) (hnone info hinfo)

end Guard

section Syscalls
variable {σ Ty ρ : Type} {k : ℕ} {assertions : Bool}
  {pdpiType : PdpiType σ Ty} {protocol : Protocol σ Ty ρ} {input : SyscallInput}

theorem runProtocol_valid (read : Readers σ Ty k) (sig : Signature Ty) (pdpi : Pointer) :
    Triple (fun _ => True) (runProtocol read pdpiType protocol sig pdpi)
      (fun error _ => error ≠ .invalidCall) (fun _ => True) := by
  have hdone : ∀ (b : Bool) (e e' : ModuleApi0x1Error), e ≠ .invalidCall → e' ≠ .invalidCall →
      Triple (fun _ : σ => True) (if b then pure e else pure e')
        (fun error _ => error ≠ .invalidCall) (fun _ => True) := fun b e e' he he' =>
    .ite (fun _ => .pure fun _ _ => he) fun _ => .pure fun _ _ => he'
  refine .bind .any fun computing => .ite (fun _ => .pure fun _ _ => nofun) fun _ => ?_
  refine .bind .any fun inputs => .bind .any fun output => .bind .any fun valid => ?_
  refine .ite (fun _ => .pure fun _ _ => nofun) fun _ => ?_
  exact .bind .any fun public_ => .bind .any fun instance_ => .bind .any fun accepted =>
    hdone _ _ _ nofun nofun

/-- The casts of a syscall name PDPIs of PDK 0 of the calling module. -/
def CastsPdkZero (input : SyscallInput) (entry : Entry σ Ty) : Prop :=
  ∀ pdpi, entry.1 = .isComputingNode pdpi →
    ∃ info, lookup input.c input.args 0 = some info ∧ BelongsTo 0 input.c info ∧
      pdpi = info.pdpiHandle

theorem pdpi_discipline {info : PdpiInfo} (hinfo : lookup input.c input.args 0 = some info)
    (hadmits : Admits (.init : PdpiVmHandles k) input.c info) :
    Discipline pdpiType protocol info.pdpiHandle (fun _ => True) (fun _ _ => True)
      (CastsPdkZero input) where
  computing := .any
  valid _ _ _ := Triple.any.weaken (fun _ => id)
    (fun _ _ _ => ⟨⟨trivial, fun _ _ => trivial⟩, fun _ => trivial⟩) fun _ => id
  construct _ := Triple.any.weaken (fun _ => id) (fun _ _ _ => ⟨trivial, fun _ _ => trivial⟩)
    fun _ => id
  invoke _ _ := .any
  goodComputing := by
    rintro t - pdpi ⟨rfl⟩
    exact ⟨info, hinfo, (admits_iff rfl).mp hadmits, rfl⟩
  goodValid _ _ _ _ _ h := nomatch h
  goodConstruct _ _ _ h := nomatch h
  goodInvoke _ _ _ _ _ h := nomatch h

variable [HasStderr σ] [ValueTraits Ty]

theorem dispatch_unshaped {sig : Signature Ty} {s : σ}
    (h : ¬ ShapeAccepted assertions input sig.shape s) :
    finalState ((dispatch (.plain assertions k input) pdpiType protocol sig).run s) = s := by
  have hread := check_readOnly sig.shape assertions input.numArgs input.refs input.crefs
    input.returnValue s
  change finalState (((sig.shape.check assertions input.numArgs input.refs input.crefs
    input.returnValue >>= fun valid => _) >>= _).run s) = s
  rw [bind_assoc]
  cases hrun : (sig.shape.check assertions input.numArgs input.refs input.crefs
      input.returnValue).run s with
  | error e u =>
    rw [hrun] at hread
    rw [bind_error hrun]
    exact hread
  | ok accepted u =>
    rw [hrun] at hread
    change u = s at hread
    subst hread
    rw [bind_ok hrun]
    cases accepted with
    | false => rfl
    | true => exact absurd hrun h

theorem admitted_of_shape {shape : SyscallArgs} {s : σ}
    (hshape : ShapeAccepted assertions input shape s) :
    ((Readers.plain assertions k input : Readers σ Ty k).admitted shape .init).run s =
      ((.init : PdpiVmHandles k).get assertions input.c input.args).run s := by
  change (shape.check assertions input.numArgs input.refs input.crefs input.returnValue >>=
    fun valid => _).run s = _
  rw [bind_ok hshape]
  rfl

theorem dispatch_rejected {sig : Signature Ty} {s u : σ} {handles : PdpiVmHandles k}
    (hshape : ShapeAccepted assertions input sig.shape s)
    (hget : ((.init : PdpiVmHandles k).get assertions input.c input.args).run s =
      .ok (false, handles) u) :
    (dispatch (.plain assertions k input) pdpiType protocol sig).run s = .ok .invalidCall u := by
  rw [dispatch, bind_ok ((admitted_of_shape hshape).trans hget)]
  rfl

theorem dispatch_admitted {sig : Signature Ty} {s u : σ} {handles : PdpiVmHandles k}
    (hshape : ShapeAccepted assertions input sig.shape s)
    (hget : ((.init : PdpiVmHandles k).get assertions input.c input.args).run s =
      .ok (true, handles) u) :
    (dispatch (.plain assertions k input) pdpiType protocol sig).run s =
      (catchAll (runProtocol (.plain assertions k input) pdpiType protocol sig
        handles.pdpiHandle) handler).run u := by
  rw [dispatch, bind_ok ((admitted_of_shape hshape).trans hget)]
  rfl

theorem casts_pdk_zero (sig : Signature Ty) (s : σ) {pdpi : Pointer} {t : σ}
    (h : (.isComputingNode pdpi, t) ∈ (finalState ((dispatch (.plain assertions k input)
      (recordPdpi pdpiType) (recordProtocol protocol) sig).run (s, []))).2) :
    ∃ info, lookup input.c input.args 0 = some info ∧ BelongsTo 0 input.c info ∧
      pdpi = info.pdpiHandle := by
  have hkept : Triple (Kept (fun _ => True) (CastsPdkZero input))
      (dispatch (.plain assertions k input) (recordPdpi pdpiType) (recordProtocol protocol) sig)
      (fun _ => Kept (fun _ => True) (CastsPdkZero input))
      (Kept (fun _ => True) (CastsPdkZero input)) :=
    dispatch_kept k (fun _ _ => id) (fun info hinfo hadmits => pdpi_discipline hinfo hadmits) sig
  have hstart : Kept (fun _ => True) (CastsPdkZero input) ((s, []) : Recorded σ Ty) :=
    ⟨trivial, fun _ hmem => absurd hmem List.not_mem_nil⟩
  exact (hkept.finalState hstart).2 _ h pdpi rfl

theorem get_of_lookup {info : PdpiInfo} (hinfo : lookup input.c input.args 0 = some info)
    (hpresent : assertions = true → input.c.HandlesPresent) (s : σ) :
    ∃ r u, ((.init : PdpiVmHandles k).get assertions input.c input.args).run s = .ok r u := by
  apply get_returns _ _ hpresent
  by_contra hlength
  have hnone : input.args[0]? = none := by
    rw [List.getElem?_eq_none]
    omega
  rw [lookup, hnone] at hinfo
  cases hinfo

theorem dispatch_valid {sig : Signature Ty} {info : PdpiInfo} {s : σ}
    (hshape : ShapeAccepted assertions input sig.shape s)
    (hpresent : assertions = true → input.c.HandlesPresent)
    (hinfo : lookup input.c input.args 0 = some info) (hbelongs : BelongsTo 0 input.c info) :
    ∀ u, (dispatch (.plain assertions k input) pdpiType protocol sig).run s ≠
      .ok .invalidCall u := by
  intro v hrun
  obtain ⟨⟨found, handles⟩, u, hget⟩ := get_of_lookup (k := k) hinfo hpresent s
  rcases get_cases hget with ⟨rfl, -⟩ | ⟨-, -, hnone⟩
  · rw [dispatch_admitted hshape hget] at hrun
    have hvalid : Triple (fun _ : σ => True) (catchAll (runProtocol (.plain assertions k input)
        pdpiType protocol sig handles.pdpiHandle) handler)
        (fun error _ => error ≠ .invalidCall) (fun _ => True) := by
      apply Triple.catchAll (runProtocol_valid _ sig handles.pdpiHandle)
      intro e
      apply Triple.pure
      intro _ _
      cases e <;> exact nofun
    have hne := hvalid u trivial
    rw [hrun] at hne
    exact hne rfl
  · exact hnone info hinfo ((admits_iff rfl).mpr hbelongs)

theorem dispatch_casts {sig : Signature Ty} {info : PdpiInfo} {s : σ}
    (hshape : ShapeAccepted assertions input sig.shape ((s, []) : Recorded σ Ty))
    (hpresent : assertions = true → input.c.HandlesPresent)
    (hinfo : lookup input.c input.args 0 = some info) (hbelongs : BelongsTo 0 input.c info) :
    ∃ t, (.isComputingNode info.pdpiHandle, t) ∈ (finalState ((dispatch
      (.plain assertions k input) (recordPdpi pdpiType) (recordProtocol protocol) sig).run
        (s, []))).2 := by
  obtain ⟨⟨found, handles⟩, u, hget⟩ :=
    get_of_lookup (k := k) hinfo hpresent ((s, []) : Recorded σ Ty)
  rcases get_cases hget with ⟨rfl, info', hinfo', -, rfl⟩ | ⟨-, -, hnone⟩
  · have hsame : info = info' := Option.some.inj (hinfo.symm.trans hinfo')
    subst hsame
    rw [dispatch_admitted hshape hget]
    have hnotes : Triple (fun t : Recorded σ Ty => t.1 = u.1) (catchAll (runProtocol
        (.plain assertions k input) (recordPdpi pdpiType) (recordProtocol protocol) sig
        info.pdpiHandle) handler)
        (fun _ t => (.isComputingNode info.pdpiHandle, u.1) ∈ t.2)
        (fun t => (.isComputingNode info.pdpiHandle, u.1) ∈ t.2) :=
      .catchAll (runProtocol_notes sig info.pdpiHandle u.1) fun _ => .pure fun _ ht => ht
    exact ⟨u.1, hnotes.finalState rfl⟩
  · exact absurd ((admits_iff rfl).mpr hbelongs) (hnone info hinfo)

theorem syscallIsolated_of_separated {syscall : MetaSyscall Ty} {s : σ}
    (hpresent : assertions = true → input.c.HandlesPresent)
    (hsep : Separated k input.c input.args 0) :
    SyscallIsolated k assertions syscall pdpiType protocol input s := by
  rw [SyscallIsolated, call_eq_dispatch]
  constructor
  · intro pdpi t hcast
    obtain ⟨info, hinfo, hzero, hpdpi⟩ := casts_pdk_zero (signature syscall) s hcast
    rcases hsep with rfl | hsep
    · exact ⟨info, hinfo, hzero, hpdpi⟩
    · exact absurd hzero.1 (hsep info hinfo hzero.2).1
  · intro hshape info hinfo hbelongs
    rcases hsep with rfl | hsep
    · exact dispatch_valid hshape hpresent hinfo hbelongs
    · exact absurd hbelongs.1 (hsep info hinfo hbelongs.2).2

theorem separated_of_syscallIsolated {syscall : MetaSyscall Ty} {s : σ}
    (hpresent : assertions = true → input.c.HandlesPresent)
    (hshape : ShapeAccepted assertions input (signature syscall).shape ((s, []) : Recorded σ Ty))
    (h : SyscallIsolated k assertions syscall pdpiType protocol input s) :
    Separated k input.c input.args 0 := by
  rw [SyscallIsolated, call_eq_dispatch] at h
  obtain ⟨hcasts, hvalid⟩ := h
  by_cases hk : k = 0
  · exact .inl hk
  · refine .inr fun info hinfo hmodule => ⟨fun hzero => ?_, fun hindex => ?_⟩
    · -- a PDPI of PDK 0 is cast
      obtain ⟨t, hcast⟩ := dispatch_casts hshape hpresent hinfo ⟨hzero, hmodule⟩
      obtain ⟨info', hinfo', hbelongs, -⟩ := hcasts _ t hcast
      have hsame : info = info' := Option.some.inj (hinfo.symm.trans hinfo')
      subst hsame
      exact hk (hbelongs.1.symm.trans hzero)
    · -- a PDPI of PDK `k` is turned down
      obtain ⟨⟨found, handles⟩, u, hget⟩ :=
        get_of_lookup (k := k) hinfo hpresent ((s, []) : Recorded σ Ty)
      rcases get_cases hget with ⟨-, info', hinfo', hadmits, -⟩ | ⟨rfl, -, -⟩
      · have hsame : info = info' := Option.some.inj (hinfo.symm.trans hinfo')
        subst hsame
        exact hk (hindex.symm.trans hadmits.1)
      · exact hvalid hshape info hinfo ⟨hindex, hmodule⟩ u (dispatch_rejected hshape hget)

theorem syscallIsolated_iff {syscall : MetaSyscall Ty} {s : σ}
    (hpresent : assertions = true → input.c.HandlesPresent) :
    SyscallIsolated k assertions syscall pdpiType protocol input s ↔
      ¬ ShapeAccepted assertions input (signature syscall).shape ((s, []) : Recorded σ Ty) ∨
        Separated k input.c input.args 0 := by
  constructor
  · intro h
    by_cases hshape : ShapeAccepted assertions input (signature syscall).shape
        ((s, []) : Recorded σ Ty)
    · exact .inr (separated_of_syscallIsolated hpresent hshape h)
    · exact .inl hshape
  · rintro (hshape | hsep)
    · rw [SyscallIsolated, call_eq_dispatch, dispatch_unshaped hshape]
      exact ⟨fun _ _ hmem => absurd hmem List.not_mem_nil, fun h => absurd h hshape⟩
    · exact syscallIsolated_of_separated hpresent hsep

/-- The guard of PDK `k` after any history of calls, and every syscall of PDK `k`, isolate that
PDK exactly where its lookups stay clear of PDK 0 and of PDK `k`, or `k` is 0. -/
theorem pdkIsolation_iff (k : ℕ) (assertions : Bool) :
    (∀ (history : List GetCall) (handles : PdpiVmHandles k) (s u : σ),
      (getAll assertions .init history).run s = .ok handles u →
      ∀ call : GetCall, call.index < call.args.length →
      (assertions = true → call.c.HandlesPresent) →
      ∀ v : σ, GuardCorrect assertions handles call v ↔
        Separated k call.c call.args call.index) ∧
    (∀ (syscall : MetaSyscall Ty) (pdpiType : PdpiType σ Ty) (protocol : Protocol σ Ty ρ)
      (input : SyscallInput) (s : σ), (assertions = true → input.c.HandlesPresent) →
      (SyscallIsolated k assertions syscall pdpiType protocol input s ↔
        ¬ ShapeAccepted assertions input (signature syscall).shape ((s, []) : Recorded σ Ty) ∨
          Separated k input.c input.args 0)) := by
  constructor
  · intro history handles s u hhistory call hindex hpresent v
    exact guardCorrect_iff (getAll_pdkIndex history hhistory) hindex hpresent v
  · intro syscall pdpiType protocol input s hpresent
    exact syscallIsolated_iff hpresent

end Syscalls

section Instances

def singlePdpi (pdkIndex : ℕ) : SyscallContext where
  moduleHandle := 7
  getPdpiInfo id := if id = 1 then some ⟨16, 8, pdkIndex, 7⟩ else none

theorem singlePdpi_present (pdkIndex : ℕ) : (singlePdpi pdkIndex).HandlesPresent := by
  intro id info h
  by_cases hid : id = 1
  · simp only [singlePdpi, hid, ↓reduceIte, Option.some.injEq] at h
    subst h
    exact (by decide : 16 ≠ nullptr)
  · simp only [singlePdpi, hid, ↓reduceIte, reduceCtorEq] at h

/-- A second call of the guard of PDK 0, on the PDPI its first call admitted. -/
theorem pdkIsolation_iff_pdkZero :
    GuardCorrect true (⟨⟨16, 8, 0, 7⟩⟩ : PdpiVmHandles 0) ⟨singlePdpi 0, [⟨1, 0⟩], 0⟩
      ([] : List String) :=
  ((@pdkIsolation_iff (List String) Bool Unit _ _ 0 true).1 [⟨singlePdpi 0, [⟨1, 0⟩], 0⟩] _ [] []
    rfl ⟨singlePdpi 0, [⟨1, 0⟩], 0⟩ (by decide) (fun _ => singlePdpi_present 0) []).mpr (.inl rfl)

/-- The guard of PDK 1 admits the PDPI of PDK 0. -/
theorem guard_admits_other_pdk :
    (getAll true (.init : PdpiVmHandles 1) []).run ([] : List String) = .ok .init [] ∧
      ¬ GuardCorrect true (.init : PdpiVmHandles 1) ⟨singlePdpi 0, [⟨1, 0⟩], 0⟩
        ([] : List String) := by
  refine ⟨rfl, ?_⟩
  rintro ⟨found, after, u, hget, hfound, -⟩
  have hrun : ((.init : PdpiVmHandles 1).get true (singlePdpi 0) [⟨1, 0⟩] 0).run [] =
      .ok (true, ⟨⟨16, 8, 0, 7⟩⟩) ([] : List String) := rfl
  rw [hrun] at hget
  cases hget
  obtain ⟨info, hinfo, hbelongs⟩ := hfound.mp rfl
  cases hinfo
  exact absurd hbelongs.1 (by decide)

end Instances

end PdkHeaders.PdkIsolation
