import Mathlib.Logic.Relation
import PdkHeaders.HeapOwnership
import PdkHeaders.SyscallTrace

set_option autoImplicit false

/-!
# Type safe dispatch

A PDPI that validates handles by its share heap, under any interleaving of heap operations and
syscalls. The state is the heap with its objects, and whatever else the PDPI and the protocols
keep.
-/
namespace PdkHeaders.TypeSafeDispatch
open PdkHeaders.Library.Execution PdkHeaders.Library.Hoare
open PdkHeaders.SyscallsCommon PdkHeaders.VmVector PdkHeaders.MetaSyscalls
open PdkHeaders.MetaSyscallsDispatch PdkHeaders.SyscallTrace
open PdkHeaders.ValueHeap PdkHeaders.HeapOwnership

abbrev PdpiState (Ty π : Type) := World Ty × π

instance {Ty π : Type} [HasStderr π] : HasStderr (PdpiState Ty π) where
  write text s := (s.1, HasStderr.write text s.2)

section Assumptions
variable {Ty π ρ α : Type} [ValueTraits Ty]

def Typed (T : Ty) (obj : VectorObject Ty) : Prop := obj.type = T

def HeapEvent.Foreign : HeapEvent Ty → Bool
  | .create _ _ => true
  | .release _ => true
  | .insert _ _ _ => false
  | .erase _ _ => false

/-- Vectors come and go, but none that the heap stores. -/
def ForeignStep (w w' : World Ty) : Prop :=
  ∃ event : HeapEvent Ty, HeapEvent.Foreign event = true ∧ event.Allowed Typed w ∧
    event.run.run w = .ok () w'

/-- The callback does not change the heap, nor the vectors it stores. -/
def HeapNeutral (m : Exec (PdpiState Ty π) α) : Prop :=
  ∀ s, Relation.ReflTransGen ForeignStep s.1 (finalState (m.run s)).1

/-- Handles of the PDPI are those its heap knows, and asking it anything leaves the heap alone. -/
structure HeapPdpi (pdpiType : PdpiType (PdpiState Ty π) Ty) (pdpi : Pointer) : Prop where
  validHandle : ∀ T hndl s, (pdpiType.isValidHandle T pdpi hndl).run s =
    .ok (check s.1.1 T hndl) s
  computing : HeapNeutral (pdpiType.isComputingNode pdpi)

structure HeapProtocol (protocol : Protocol (PdpiState Ty π) Ty ρ) (pdpi : Pointer) : Prop where
  construct : HeapNeutral (protocol.construct pdpi)
  invoke : ∀ instance_ params, HeapNeutral (protocol.invoke instance_ params)

/-- The guard admits no other PDPI. -/
def OnlyPdpi (pdpi : Pointer) (k : ℕ) (input : SyscallInput) : Prop :=
  ∀ info, lookup input.c input.args 0 = some info →
    Admits (PdpiVmHandles.init : PdpiVmHandles k) input.c info → info.pdpiHandle = pdpi

/-- Runs of the heap and the syscalls, with all that the syscalls called so far. -/
inductive Run [HasStderr π] (pdpiType : PdpiType (PdpiState Ty π) Ty) (pdpi : Pointer) :
    PdpiState Ty π → List (Entry (PdpiState Ty π) Ty) → Prop where
  | init (p : π) : Run pdpiType pdpi (World.init, p) []
  | heap {s : PdpiState Ty π} {log : List (Entry (PdpiState Ty π) Ty)} {w : World Ty}
      (h : Run pdpiType pdpi s log) (event : HeapEvent Ty) (hallowed : event.Allowed Typed s.1)
      (hrun : event.run.run s.1 = .ok () w) : Run pdpiType pdpi (w, s.2) log
  | elsewhere {s : PdpiState Ty π} {log : List (Entry (PdpiState Ty π) Ty)}
      (h : Run pdpiType pdpi s log) (p : π) : Run pdpiType pdpi (s.1, p) log
  | syscall {s u : PdpiState Ty π} {log log' : List (Entry (PdpiState Ty π) Ty)} {ρ : Type}
      (h : Run pdpiType pdpi s log) (syscall : MetaSyscall Ty) (assertions : Bool) (k : ℕ)
      (protocol : Protocol (PdpiState Ty π) Ty ρ) (input : SyscallInput)
      (hprotocol : HeapProtocol protocol pdpi) (honly : OnlyPdpi pdpi k input)
      (hrun : finalState ((syscall.call assertions k (recordPdpi pdpiType)
        (recordProtocol protocol) input).run (s, log)) = (u, log')) :
      Run pdpiType pdpi u log'

/-- The handle denotes a stored vector that is live and was allocated as a `T`. -/
def Denotes (T : Ty) (hndl : Pointer) (w : World Ty) : Prop :=
  hndl ∈ w.1.mPointers ∧ ∃ obj, w.2.object hndl = some obj ∧ obj.type = T ∧
    obj.id ∈ w.2.accepted ∧ obj.id ∉ w.2.deleted

def TypeSafe (entry : Entry (PdpiState Ty π) Ty) : Prop :=
  ∀ params, entry.1 = .invoke params → ∀ param ∈ params, ∀ T hndl,
    vecHandle param = some (T, hndl) → Denotes T hndl entry.2.1

end Assumptions

section Safety
variable {Ty π ρ α : Type} [ValueTraits Ty]

theorem foreignStep_heap {w w' : World Ty} (h : ForeignStep w w') : w'.1 = w.1 := by
  obtain ⟨event, hforeign, -, hrun⟩ := h
  cases event with
  | create T vec => cases hrun; rfl
  | release vec => cases hrun; rfl
  | insert T vec allocates => cases hforeign
  | erase T vec => cases hforeign

theorem foreign_heap {w w' : World Ty} (h : Relation.ReflTransGen ForeignStep w w') :
    w'.1 = w.1 := by
  induction h with
  | refl => rfl
  | tail _ hstep ih => exact (foreignStep_heap hstep).trans ih

theorem foreign_reachable {w w' : World Ty} (h : Relation.ReflTransGen ForeignStep w w')
    (hw : Reachable Typed w) : Reachable Typed w' := by
  induction h with
  | refl => exact hw
  | tail _ hstep ih =>
    obtain ⟨event, -, hallowed, hrun⟩ := hstep
    exact .step ih hallowed hrun

def Valid (handle : Ty × Pointer) (s : PdpiState Ty π) : Prop :=
  s.1.1.mPointers.lookup handle.2 = some (ValueTraits.heapTypeId handle.1)

theorem denotes_of_valid (hinj : Function.Injective (ValueTraits.heapTypeId : Ty → UInt8))
    {T : Ty} {hndl : Pointer} {s : PdpiState Ty π} (hs : Reachable Typed s.1)
    (h : Valid (T, hndl) s) : Denotes T hndl s.1 := by
  have howns := reachable_owns hs
  obtain ⟨obj, U, hobj, haccepted, hid, htype⟩ := howns.entry hndl _ h
  have hT : U = T := hinj hid
  have hmem : hndl ∈ s.1.1.mPointers := by
    rw [← AList.lookup_isSome, h]
    rfl
  exact ⟨hmem, obj, hobj, htype.trans hT, haccepted, (howns.live hndl obj hobj).2⟩

theorem HeapNeutral.triple {m : Exec (PdpiState Ty π) α} (h : HeapNeutral m)
    (accepted : List (Ty × Pointer)) :
    Triple (fun s => Reachable Typed s.1 ∧ ∀ handle ∈ accepted, Valid handle s) m
      (fun _ s => Reachable Typed s.1 ∧ ∀ handle ∈ accepted, Valid handle s)
      (fun s => Reachable Typed s.1) := by
  intro s hs
  have hforeign := h s
  have hafter : ∀ u : PdpiState Ty π, Relation.ReflTransGen ForeignStep s.1 u.1 →
      Reachable Typed u.1 ∧ ∀ handle ∈ accepted, Valid handle u := by
    intro u hu
    refine ⟨foreign_reachable hu hs.1, fun handle hmem => ?_⟩
    rw [Valid, foreign_heap hu]
    exact hs.2 handle hmem
  cases hrun : m.run s with
  | ok a u => rw [hrun] at hforeign; exact hafter u hforeign
  | error e u => rw [hrun] at hforeign; exact (hafter u hforeign).1

theorem HeapNeutral.triple_reachable {m : Exec (PdpiState Ty π) α} (h : HeapNeutral m) :
    Triple (fun s => Reachable Typed s.1) m (fun _ s => Reachable Typed s.1)
      (fun s => Reachable Typed s.1) :=
  (h.triple []).weaken (fun _ hs => ⟨hs, fun _ hmem => absurd hmem List.not_mem_nil⟩)
    (fun _ _ hs => hs.1) fun _ hs => hs

theorem heap_discipline (hinj : Function.Injective (ValueTraits.heapTypeId : Ty → UInt8))
    {pdpiType : PdpiType (PdpiState Ty π) Ty} {protocol : Protocol (PdpiState Ty π) Ty ρ}
    {pdpi : Pointer} (hpdpi : HeapPdpi pdpiType pdpi) (hprotocol : HeapProtocol protocol pdpi) :
    Discipline pdpiType protocol pdpi (fun s => Reachable Typed s.1) Valid TypeSafe where
  computing := hpdpi.computing.triple_reachable
  valid T hndl accepted := by
    intro s hs
    rw [hpdpi.validHandle]
    exact ⟨hs, fun hcheck => check_iff.mp hcheck⟩
  construct accepted := hprotocol.construct.triple accepted
  invoke instance_ params := (hprotocol.invoke instance_ params).triple_reachable
  goodComputing _ _ _ h := nomatch h
  goodValid _ _ _ _ _ h := nomatch h
  goodConstruct _ _ _ h := nomatch h
  goodInvoke := by
    rintro params s hs hvalid _ ⟨rfl⟩ param hparam T hndl hhandle
    exact denotes_of_valid hinj hs (hvalid param hparam (T, hndl) hhandle)

variable [HasStderr π]

theorem syscall_kept (hinj : Function.Injective (ValueTraits.heapTypeId : Ty → UInt8))
    {pdpiType : PdpiType (PdpiState Ty π) Ty} {protocol : Protocol (PdpiState Ty π) Ty ρ}
    {pdpi : Pointer} (hpdpi : HeapPdpi pdpiType pdpi) (hprotocol : HeapProtocol protocol pdpi)
    (syscall : MetaSyscall Ty) (assertions : Bool) {k : ℕ} {input : SyscallInput}
    (honly : OnlyPdpi pdpi k input) :
    Triple (Kept (fun s => Reachable Typed s.1) TypeSafe)
      (syscall.call assertions k (recordPdpi pdpiType) (recordProtocol protocol) input)
      (fun _ => Kept (fun s => Reachable Typed s.1) TypeSafe)
      (Kept (fun s => Reachable Typed s.1) TypeSafe) := by
  rw [call_eq_dispatch]
  apply dispatch_kept k fun _ _ hs => hs
  intro info hinfo hadmits
  rw [honly info hinfo hadmits]
  exact heap_discipline hinj hpdpi hprotocol

theorem run_kept (hinj : Function.Injective (ValueTraits.heapTypeId : Ty → UInt8))
    {pdpiType : PdpiType (PdpiState Ty π) Ty} {pdpi : Pointer} (hpdpi : HeapPdpi pdpiType pdpi)
    {s : PdpiState Ty π} {log : List (Entry (PdpiState Ty π) Ty)}
    (h : Run pdpiType pdpi s log) :
    Kept (fun s => Reachable Typed s.1) TypeSafe (s, log) := by
  induction h with
  | init p => exact ⟨.init, fun _ hmem => absurd hmem List.not_mem_nil⟩
  | heap _ event hallowed hrun ih => exact ⟨.step ih.1 hallowed hrun, ih.2⟩
  | elsewhere _ p ih => exact ih
  | syscall _ syscall assertions k protocol input hprotocol honly hrun ih =>
    rw [← hrun]
    exact (syscall_kept hinj hpdpi hprotocol syscall assertions honly).finalState ih

/-- In every run, whatever handles the callers choose, each share vector reference that reaches
a protocol denotes a vector that is stored and live at that moment and was allocated as the
type the syscall casts the handle to. -/
theorem invoke_type_safe (hinj : Function.Injective (ValueTraits.heapTypeId : Ty → UInt8))
    {pdpiType : PdpiType (PdpiState Ty π) Ty} {pdpi : Pointer} (hpdpi : HeapPdpi pdpiType pdpi)
    {s : PdpiState Ty π} {log : List (Entry (PdpiState Ty π) Ty)}
    (h : Run pdpiType pdpi s log) :
    ∀ params t, (.invoke params, t) ∈ log → ∀ param ∈ params, ∀ T hndl,
      vecHandle param = some (T, hndl) → Denotes T hndl t.1 :=
  fun params _ hmem => (run_kept hinj hpdpi h).2 _ hmem params rfl

end Safety

section Instances

/-- A PDPI that is its heap. -/
def heapPdpi : PdpiType (PdpiState Bool (List String)) Bool where
  isComputingNode _ := pure true
  isValidHandle T _ hndl := return check (← get).1.1 T hndl

theorem heapPdpi_heap (pdpi : Pointer) : HeapPdpi heapPdpi pdpi where
  validHandle _ _ _ := rfl
  computing _ := .refl

def acceptingProtocol : Protocol (PdpiState Bool (List String)) Bool Unit where
  construct _ := pure ()
  invoke _ _ := pure true

theorem acceptingProtocol_heap (pdpi : Pointer) : HeapProtocol acceptingProtocol pdpi where
  construct _ := .refl
  invoke _ _ _ := .refl

def onePdpi : SyscallContext where
  moduleHandle := 7
  getPdpiInfo _ := some ⟨16, 8, 0, 7⟩

theorem Run.next {w : World Bool} {log : List (Entry (PdpiState Bool (List String)) Bool)}
    (h : Run heapPdpi 16 (w, []) log) (event : HeapEvent Bool) (hallowed : event.Allowed Typed w)
    (hrun : event.run.run w = .ok () (finalState (event.run.run w))) :
    Run heapPdpi 16 (finalState (event.run.run w), []) log := .heap h event hallowed hrun

theorem reusedAddress_run : Run heapPdpi 16 (reusedAddress, []) [] := by
  have hcreated : Run heapPdpi 16 (_, []) [] :=
    (Run.init []).next (.create true 5) ⟨by decide, rfl⟩ rfl
  have hinserted := hcreated.next (.insert true 5 true) (.inr ⟨⟨0, true⟩, rfl, rfl⟩) rfl
  have hrefused := hinserted.next (.erase false 5) trivial rfl
  have herased := hrefused.next (.erase true 5) trivial rfl
  have hreused := herased.next (.create false 5) ⟨by decide, rfl⟩ rfl
  have hreinserted := hreused.next (.insert false 5 true) (.inr ⟨⟨1, false⟩, rfl, rfl⟩) rfl
  have hother := hreinserted.next (.create true 6) ⟨by decide, rfl⟩ rfl
  exact hother.next (.insert true 6 false) (.inr ⟨⟨2, true⟩, rfl, rfl⟩) rfl

def invoked {Ty : Type} : Callback Ty → Option (List (Param Ty))
  | .invoke params => some params
  | _ => none

/-- A stale call under the type of the erased vector reaches no protocol, and one handle in all
three positions denotes the vector that took over its address. -/
theorem invoke_type_safe_reused :
    ∃ log, Run heapPdpi 16 (reusedAddress, []) log ∧
      log.filterMap (fun entry => invoked entry.1) =
        [[.constShareVec false 5, .constShareVec false 5, .shareVec false 5]] ∧
      Denotes false 5 reusedAddress := by
  have honly : ∀ args n, OnlyPdpi 16 0 ⟨args, n, none, none, 0, onePdpi⟩ := by
    intro args n info hinfo _
    obtain ⟨block, -, hblock⟩ := Option.bind_eq_some_iff.mp hinfo
    cases hblock
    rfl
  have hstale := Run.syscall reusedAddress_run (.unaryArithVec true) true 0 acceptingProtocol
    ⟨[⟨1, 0⟩, ⟨0, 5⟩, ⟨0, 5⟩], 3, none, none, 0, onePdpi⟩ (acceptingProtocol_heap 16)
    (honly _ _) rfl
  have hrun := Run.syscall hstale (.binaryArithVec false) true 0 acceptingProtocol
    ⟨[⟨1, 0⟩, ⟨0, 5⟩, ⟨0, 5⟩, ⟨0, 5⟩], 4, none, none, 0, onePdpi⟩ (acceptingProtocol_heap 16)
    (honly _ _) rfl
  refine ⟨_, hrun, rfl, ?_⟩
  -- the stale call and the checks before it come to seven entries
  exact invoke_type_safe heapTypeId_injective (heapPdpi_heap 16) hrun
    [.constShareVec false 5, .constShareVec false 5, .shareVec false 5] (reusedAddress, [])
    (List.mem_of_getElem? (i := 7) rfl) (.shareVec false 5) (.tail _ (.tail _ (.head _))) false 5
    rfl

end Instances

end PdkHeaders.TypeSafeDispatch
