import PdkHeaders.Library.Hoare

set_option autoImplicit false

/-!
# The common syscall layer

`SyscallArgs` checks the shape of a call, `PdpiVmHandles` looks up and guards the PDPI, and
`catchModuleApiErrors` turns exceptions into error codes.
-/
namespace PdkHeaders.SyscallsCommon
open PdkHeaders.Library.Execution PdkHeaders.Library.Hoare

/-- Machine addresses; the code only compares them with each other and with null. -/
abbrev Pointer := ℕ

def nullptr : Pointer := 0

/-- The two views of a code block that the headers read, `uint64[0]` and `p[0]`. -/
structure CodeBlock where
  uint64 : UInt64
  p : Pointer
  deriving DecidableEq, Repr

structure Reference where
  pData : Pointer
  size : ℕ
  deriving DecidableEq, Repr

abbrev CReference := Reference

structure PdpiInfo where
  pdpiHandle : Pointer
  pdHandle : Pointer
  pdkIndex : ℕ
  moduleHandle : Pointer
  deriving DecidableEq, Repr

structure SyscallContext where
  moduleHandle : Pointer
  getPdpiInfo : UInt64 → Option PdpiInfo

inductive ModuleApi0x1Error where
  | ok
  | outOfMemory
  | generalError
  | invalidCall
  deriving DecidableEq, Repr

class HasStderr (σ : Type) where
  write : String → σ → σ

instance : HasStderr (List String) where
  write text s := s ++ [text]

def fprintf {σ : Type} [HasStderr σ] (text : String) : Exec σ Unit :=
  modify (HasStderr.write text)

def notFoundText (id : UInt64) : String :=
  "get_pd_process_instance_handle (" ++ toString id ++ ")\n"

section Shape
variable {σ : Type}

/-- `while ((++refs)->pData) r++`, on the entries after the current one. -/
def countRefsLoop : List Reference → ℕ → Exec σ ℕ
  | [], _ => fault .badAccess
  | ref :: rest, r => if ref.pData = nullptr then pure r else countRefsLoop rest (r + 1)

/-- A reference array is the memory readable from its first entry on. -/
def countRefs (assertions : Bool) : Option (List Reference) → Exec σ ℕ
  | none => pure 0
  | some [] => fault .badAccess
  | some (ref :: rest) => do
    assert assertions (ref.pData != nullptr)
    countRefsLoop rest 1

structure SyscallArgs where
  numArgs : ℕ
  needReturnValue : Bool := false
  numRefs : ℕ := 0
  numCRefs : ℕ := 0
  deriving DecidableEq, Repr

/-- `check`, over the two calls of `countRefs` that it makes. -/
def SyscallArgs.checkCounts (shape : SyscallArgs) (numArgs : ℕ)
    (countedRefs countedCRefs : Exec σ ℕ) (returnValue : Pointer) : Exec σ Bool := do
  if numArgs ≠ shape.numArgs then
    return false
  if shape.needReturnValue ∧ returnValue = nullptr then
    return false
  if (← countedRefs) ≠ shape.numRefs then
    return false
  if (← countedCRefs) ≠ shape.numCRefs then
    return false
  return true

def SyscallArgs.check (shape : SyscallArgs) (assertions : Bool) (numArgs : ℕ)
    (refs : Option (List Reference)) (crefs : Option (List CReference))
    (returnValue : Pointer) : Exec σ Bool :=
  shape.checkCounts numArgs (countRefs assertions refs) (countRefs assertions crefs) returnValue

def readArg (args : List CodeBlock) (i : ℕ) : Exec σ CodeBlock :=
  match args[i]? with
  | some block => pure block
  | none => fault .badAccess

def readCRef (crefs : Option (List CReference)) (i : ℕ) : Exec σ CReference :=
  match crefs.bind (·[i]?) with
  | some cref => pure cref
  | none => fault .badAccess

end Shape

/-- The template parameter names the PDK; the object's own fields are the inherited ones. -/
structure PdpiVmHandles (k : ℕ) extends PdpiInfo

namespace PdpiVmHandles
variable {σ : Type} {k : ℕ}

def init : PdpiVmHandles k where
  pdpiHandle := nullptr
  pdHandle := nullptr
  pdkIndex := 0
  moduleHandle := nullptr

/-- `get`, over its read of `args[index]`. The base class does not depend on the template
parameter, so inside the class its member `pdkIndex` hides the parameter of that name: the lookup
is compared with the object's field. The pointers `c` and `args` are not null, as the first
assertion asks. -/
def getFrom [HasStderr σ] (assertions : Bool) (handles : PdpiVmHandles k) (c : SyscallContext)
    (arg : Exec σ CodeBlock) : Exec σ (Bool × PdpiVmHandles k) := do
  let block ← arg
  match c.getPdpiInfo block.uint64 with
  | none =>
    fprintf (notFoundText block.uint64)
    return (false, handles)
  | some pdpiInfo =>
    if pdpiInfo.pdkIndex ≠ handles.pdkIndex ∨ pdpiInfo.moduleHandle ≠ c.moduleHandle then
      return (false, handles)
    assert assertions (pdpiInfo.pdpiHandle != nullptr)
    return (true, ⟨pdpiInfo⟩)

def get [HasStderr σ] (assertions : Bool) (handles : PdpiVmHandles k) (c : SyscallContext)
    (args : List CodeBlock) (index : ℕ := 0) : Exec σ (Bool × PdpiVmHandles k) :=
  handles.getFrom assertions c (readArg args index)

end PdpiVmHandles

def catchModuleApiErrors : Option Exception → ModuleApi0x1Error
  | none => .generalError
  | some .badAlloc => .outOfMemory
  | some .other => .generalError

section ReadOnly
variable {σ : Type}

theorem assert_not_null (assertions : Bool) (p : Pointer) :
    (assert assertions (p != nullptr) : Exec σ Unit) =
      if assertions = true ∧ p = nullptr then fault .assertion else pure () := by
  by_cases hp : p = nullptr
  · rw [hp]
    cases assertions <;> rfl
  · rw [bne_iff_ne.mpr hp, assert_true, if_neg fun h => hp h.2]

theorem assert_present {assertions : Bool} {p : Pointer} (h : assertions = true → p ≠ nullptr) :
    (assert assertions (p != nullptr) : Exec σ Unit) = pure () := by
  rw [assert_not_null, if_neg fun hnull => h hnull.1 hnull.2]

theorem countRefsLoop_readOnly (refs : List Reference) (r : ℕ) :
    ReadOnly (countRefsLoop refs r : Exec σ ℕ) := by
  induction refs generalizing r with
  | nil => exact .fault _
  | cons ref rest ih => exact .ite (.pure _) (ih (r + 1))

theorem countRefs_readOnly (assertions : Bool) (refs : Option (List Reference)) :
    ReadOnly (countRefs assertions refs : Exec σ ℕ) := by
  match refs with
  | none => exact .pure _
  | some [] => exact .fault _
  | some (ref :: rest) => exact .bind (.assert _ _) fun _ => countRefsLoop_readOnly rest 1

theorem check_readOnly (shape : SyscallArgs) (assertions : Bool) (numArgs : ℕ)
    (refs : Option (List Reference)) (crefs : Option (List CReference)) (returnValue : Pointer) :
    ReadOnly (shape.check assertions numArgs refs crefs returnValue : Exec σ Bool) := by
  refine .ite (.pure _) (.ite (.pure _) ?_)
  refine .bind (countRefs_readOnly assertions refs) fun n => .ite (.pure _) ?_
  exact .bind (countRefs_readOnly assertions crefs) fun m => .ite (.pure _) (.pure _)

theorem readArg_readOnly (args : List CodeBlock) (i : ℕ) :
    ReadOnly (readArg args i : Exec σ CodeBlock) := by
  unfold readArg
  split
  · exact .pure _
  · exact .fault _

theorem readCRef_readOnly (crefs : Option (List CReference)) (i : ℕ) :
    ReadOnly (readCRef crefs i : Exec σ CReference) := by
  unfold readCRef
  split
  · exact .pure _
  · exact .fault _

theorem readArg_at {args : List CodeBlock} {i : ℕ} {block : CodeBlock}
    (h : args[i]? = some block) : (readArg args i : Exec σ CodeBlock) = pure block := by
  rw [readArg, h]

theorem readArg_triple (args : List CodeBlock) (i : ℕ) (J : σ → Prop) :
    Triple J (readArg args i) (fun block s => J s ∧ args[i]? = some block) J := by
  intro s hs
  cases hblock : args[i]? with
  | none => simp only [readArg, hblock, fault_run]; exact hs
  | some block => simp only [readArg, hblock, EStateM.run_pure]; exact ⟨hs, trivial⟩

end ReadOnly

section Lookup
variable {σ : Type} [HasStderr σ] {k : ℕ} {assertions : Bool}

def lookup (c : SyscallContext) (args : List CodeBlock) (index : ℕ) : Option PdpiInfo :=
  args[index]?.bind fun block => c.getPdpiInfo block.uint64

/-- `get_pdpi_info` never yields an info without a PDPI, as `get` asserts. -/
def SyscallContext.HandlesPresent (c : SyscallContext) : Prop :=
  ∀ id info, c.getPdpiInfo id = some info → info.pdpiHandle ≠ nullptr

def Admits (handles : PdpiVmHandles k) (c : SyscallContext) (info : PdpiInfo) : Prop :=
  info.pdkIndex = handles.pdkIndex ∧ info.moduleHandle = c.moduleHandle

section Outcomes
variable {handles : PdpiVmHandles k} {c : SyscallContext} {block : CodeBlock} {info : PdpiInfo}

theorem not_admits : ¬ Admits handles c info ↔
    info.pdkIndex ≠ handles.pdkIndex ∨ info.moduleHandle ≠ c.moduleHandle :=
  not_and_or

theorem getFrom_missing (hinfo : c.getPdpiInfo block.uint64 = none) :
    (handles.getFrom assertions c (pure block) : Exec σ (Bool × PdpiVmHandles k)) = do
      fprintf (notFoundText block.uint64)
      return (false, handles) := by
  rw [PdpiVmHandles.getFrom, pure_bind, hinfo]

theorem getFrom_refused (hinfo : c.getPdpiInfo block.uint64 = some info)
    (hrefused : ¬ Admits handles c info) :
    (handles.getFrom assertions c (pure block) : Exec σ (Bool × PdpiVmHandles k)) =
      pure (false, handles) := by
  rw [PdpiVmHandles.getFrom, pure_bind, hinfo]
  exact if_pos (not_admits.mp hrefused)

theorem getFrom_admitted (hinfo : c.getPdpiInfo block.uint64 = some info)
    (hadmits : Admits handles c info) :
    (handles.getFrom assertions c (pure block) : Exec σ (Bool × PdpiVmHandles k)) = do
      assert assertions (info.pdpiHandle != nullptr)
      return (true, ⟨info⟩) := by
  rw [PdpiVmHandles.getFrom, pure_bind, hinfo]
  exact if_neg fun hrefused => not_admits.mpr hrefused hadmits

end Outcomes

/-- All that `get` can return: an admitted info, or a failure with the object unchanged. -/
def GetPost (handles : PdpiVmHandles k) (c : SyscallContext) (args : List CodeBlock) (index : ℕ)
    (r : Bool × PdpiVmHandles k) : Prop :=
  (r.1 = true ∧ ∃ info, lookup c args index = some info ∧ Admits handles c info ∧ r.2 = ⟨info⟩) ∨
  (r.1 = false ∧ r.2 = handles ∧
    ∀ info, lookup c args index = some info → ¬ Admits handles c info)

theorem get_triple (handles : PdpiVmHandles k) (c : SyscallContext) (args : List CodeBlock)
    (index : ℕ) {J : σ → Prop} (hwrite : ∀ text s, J s → J (HasStderr.write text s)) :
    Triple J (handles.get assertions c args index)
      (fun r s => J s ∧ GetPost handles c args index r) J := by
  refine .bind (readArg_triple args index J) fun block => .assume fun hblock => ?_
  have hlookup : lookup c args index = c.getPdpiInfo block.uint64 := by
    rw [lookup, hblock, Option.bind_some]
  unfold GetPost
  rw [hlookup]
  cases hinfo : c.getPdpiInfo block.uint64 with
  | none =>
    have hprint : Triple J (fprintf (notFoundText block.uint64)) (fun _ => J) J :=
      fun s hs => hwrite _ s hs
    exact .bind hprint fun _ => .pure fun s hs => ⟨hs, .inr ⟨rfl, rfl, fun _ h => nomatch h⟩⟩
  | some info =>
    refine .ite (fun hrefused => .pure fun s hs => ⟨hs, .inr ⟨rfl, rfl, ?_⟩⟩) fun hadmits => ?_
    · rintro _ ⟨rfl⟩
      exact not_admits.mpr hrefused
    · rw [← not_admits, not_not] at hadmits
      exact .bind ((ReadOnly.assert _ _).triple J) fun _ => .pure fun s hs =>
        ⟨hs, .inl ⟨rfl, info, rfl, hadmits, rfl⟩⟩

theorem get_cases {handles : PdpiVmHandles k} {c : SyscallContext} {args : List CodeBlock}
    {index : ℕ} {r : Bool × PdpiVmHandles k} {s u : σ}
    (h : (handles.get assertions c args index).run s = .ok r u) :
    GetPost handles c args index r := by
  have htriple := (get_triple handles c args index fun _ _ ht => ht :
    Triple (fun _ => True) (handles.get assertions c args index) _ _) s trivial
  rw [h] at htriple
  exact htriple.2

theorem get_returns (handles : PdpiVmHandles k) {c : SyscallContext} {args : List CodeBlock}
    {index : ℕ} (hindex : index < args.length) (hpresent : assertions = true → c.HandlesPresent)
    (s : σ) : ∃ r u, (handles.get assertions c args index).run s = .ok r u := by
  rw [PdpiVmHandles.get, readArg_at (List.getElem?_eq_getElem hindex)]
  cases hinfo : c.getPdpiInfo args[index].uint64 with
  | none =>
    rw [getFrom_missing hinfo]
    exact ⟨_, _, rfl⟩
  | some info =>
    by_cases hadmits : Admits handles c info
    · rw [getFrom_admitted hinfo hadmits,
        assert_present fun hasserted => hpresent hasserted _ info hinfo]
      exact ⟨_, _, rfl⟩
    · rw [getFrom_refused hinfo hadmits]
      exact ⟨_, _, rfl⟩

end Lookup

end PdkHeaders.SyscallsCommon
