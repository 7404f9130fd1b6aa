import PdkHeaders.Library.Clients
import PdkHeaders.TypeSafeDispatch

set_option autoImplicit false

/-!
# The lifetime of a process

A process from its construction to its destructor. Its protocols use the heap like everybody
else, their constructors only without erasing: they run when the handles of a syscall are
already validated.
-/
namespace PdkHeaders.ProcessLifetimes
open PdkHeaders.Library.Execution PdkHeaders.Library.Hoare PdkHeaders.Library.Transcript
  PdkHeaders.Library.Sessions PdkHeaders.Library.Refinement PdkHeaders.Library.Clients
open PdkHeaders.SyscallsCommon PdkHeaders.VmVector PdkHeaders.MetaSyscalls
open PdkHeaders.MetaSyscallsDispatch PdkHeaders.SyscallTrace
open PdkHeaders.ValueHeap PdkHeaders.HeapOwnership PdkHeaders.TypeSafeDispatch

section Operations
variable {Ty : Type} [ValueTraits Ty]

instance [DecidableEq Ty] (event : HeapEvent Ty) (w : World Ty) :
    Decidable (event.Allowed Typed w) :=
  match event with
  | .create _ _ => inferInstanceAs (Decidable (_ ∧ _))
  | .release vec =>
    inferInstanceAs (Decidable (∃ obj ∈ w.2.object vec, obj.id ∉ w.2.accepted))
  | .insert T vec _ =>
    inferInstanceAs (Decidable (vec = nullptr ∨ ∃ obj ∈ w.2.object vec, obj.type = T))
  | .erase _ _ => inferInstanceAs (Decidable True)

inductive Operation (Ty : Type) where
  | event (event : HeapEvent Ty)
  | check (T : Ty) (hndl : Pointer)

def Operation.Erases : Operation Ty → Prop
  | .event (.erase _ _) => True
  | _ => False

/-- The event with what it returns, and with the exception it throws. -/
def returned : HeapEvent Ty → Exec (World Ty) Bool
  | .insert T vec allocates => insertVec T vec allocates
  | .erase T vec => ValueHeap.erase Objects.delete T vec
  | event => do
    event.run
    return true

/-- A vector that the heap accepted is deleted by no other, and an inserted pointer is null or
a live object of its type. All else is undefined sooner or later. -/
def operate [DecidableEq Ty] : Operation Ty → Exec (World Ty) Bool
  | .event event => do
    if ¬ event.Allowed Typed (← get) then
      fault .badAccess
    returned event
  | .check T hndl => return check (← get).1 T hndl

/-- The world is reachable, and its heap stores the handles under their types. -/
def Holding (accepted : List (Ty × Pointer)) (w : World Ty) : Prop :=
  Reachable Typed w ∧ ∀ handle ∈ accepted,
    w.1.mPointers.lookup handle.2 = some (ValueTraits.heapTypeId handle.1)

variable {w : World Ty} {accepted : List (Ty × Pointer)}

/-- A new entry is put where no handle points. -/
theorem Holding.insert (h : Holding accepted w) {T : Ty} {vec : Pointer}
    {allocates : Bool} {w' : Objects Ty}
    (hallowed : (HeapEvent.insert T vec allocates).Allowed Typed w)
    (hfree : w.1.mPointers.lookup vec = none) (hrun : (insertVec T vec allocates).run w =
      .ok true (⟨w.1.mPointers.insert vec (ValueTraits.heapTypeId T)⟩, w')) :
    Holding accepted (⟨w.1.mPointers.insert vec (ValueTraits.heapTypeId T)⟩, w') := by
  constructor
  · apply Reachable.step h.1 hallowed
    exact catchAll_ok (by rw [bind_ok hrun]; rfl)
  · intro handle hmem
    have hstored := h.2 handle hmem
    have hne : handle.2 ≠ vec := by
      intro hvec
      rw [← hvec, hstored] at hfree
      exact Option.some_ne_none _ hfree
    exact (AList.lookup_insert_ne hne).trans hstored

theorem returned_keeps {event : HeapEvent Ty} (hallowed : event.Allowed Typed w)
    (htends : (Operation.event event).Erases → accepted = []) (h : Holding accepted w) :
    Holding accepted (finalState ((returned event).run w)) := by
  cases event with
  | create T vec => exact ⟨.step h.1 hallowed rfl, h.2⟩
  | release vec => exact ⟨.step h.1 hallowed rfl, h.2⟩
  | insert T vec allocates =>
    change Holding accepted (finalState ((insertVec T vec allocates).run w))
    rcases insertVec_cases T vec allocates w with hrun | hrun | ⟨-, hfree, hrun⟩
    · rw [hrun]
      exact h
    · rw [hrun]
      exact h
    · rw [hrun]
      exact h.insert hallowed hfree hrun
  | erase T vec =>
    obtain ⟨found, u, hrun, -⟩ := erase_owns (reachable_owns h.1) T vec
    change Holding accepted (finalState ((ValueHeap.erase Objects.delete T vec).run w))
    rw [hrun, htends trivial]
    constructor
    · exact .step h.1 hallowed (by rw [HeapEvent.run, bind_ok hrun]; rfl)
    · exact fun _ hmem => absurd hmem List.not_mem_nil

/-- An operation on the heap keeps the world reachable, and unless it erases, the handles too. -/
theorem operate_keeps [DecidableEq Ty] (op : Operation Ty)
    (htends : op.Erases → accepted = []) : Keeps (Holding accepted) (operate op) := by
  intro w h
  cases op with
  | check T hndl => exact h
  | event event =>
    by_cases hallowed : event.Allowed Typed w
    · have hkept := returned_keeps hallowed htends h
      have hrun : (operate (.event event)).run w = (returned event).run w := by
        simp [operate, hallowed]
      rw [hrun]
      cases hreturned : (returned event).run w with
      | ok b u => rwa [hreturned] at hkept
      | error stop u => rwa [hreturned] at hkept
    · have hrun : (operate (.event event)).run w = .error (.faults .badAccess) w := by
        simp [operate, hallowed]
      rw [hrun]
      exact h

/-- The destructor deletes what is left, whatever order the map iterates in. -/
theorem sweep_deletes {w : World Ty} (howns : Owns Typed w.1 w.2) {order : List Pointer}
    (horder : order.Perm w.1.mPointers.keys) :
    ∃ v, (sweep Objects.delete order).run w = .ok () (w.1, v) ∧ v.deleted.Perm w.2.accepted := by
  have hkeys : ∀ vec, vec ∈ w.1.mPointers ↔ vec ∈ order ++ [] := by
    intro vec
    rw [List.append_nil, horder.mem_iff]
    exact AList.mem_keys
  have hnodup : (order ++ []).Nodup := by
    rw [List.append_nil, horder.nodup_iff]
    exact w.1.mPointers.keys_nodup
  obtain ⟨left, v, hrun, hv, hsame, hnone⟩ := sweep_owns w.1 order [] howns hkeys hnodup
  refine ⟨v, hrun, ?_⟩
  rw [← hsame, List.perm_ext_iff_of_nodup hv.deletedOnce hv.acceptedOnce]
  intro id
  constructor
  · exact hv.deletedAccepted id
  · intro haccepted
    by_contra hdeleted
    obtain ⟨vec, -, -, -, hmem⟩ := hv.owned id haccepted hdeleted
    exact absurd ((hnone vec).mp hmem) List.not_mem_nil

end Operations

section Processes
variable {π ι ρ Ty : Type}

abbrev Tending (Ty : Type) := { op : Operation Ty // ¬ op.Erases }

/-- A constructor only tends to the heap, as the handles are validated before it runs. -/
structure ProcessProtocol (π Ty ρ : Type) where
  construct : Pointer → Client (Tending Ty) Bool π ρ
  invoke : ρ → List (Param Ty) → Client (Operation Ty) Bool π Bool

variable [ValueTraits Ty]

def Lives (s : PdpiState Ty π) : Prop := Reachable Typed s.1

theorem elsewhere_keeps {α : Type} (accepted : List (Ty × Pointer)) (m : Exec π α) :
    Keeps (fun s : PdpiState Ty π => Lives s ∧ ∀ handle ∈ accepted, Valid handle s)
      (onSecond m) :=
  onSecond_keeps (I := Holding accepted)

theorem keeps_lives {α : Type} {m : Exec (PdpiState Ty π) α}
    (h : Keeps (fun s => Lives s ∧ ∀ handle ∈ ([] : List (Ty × Pointer)), Valid handle s) m) :
    Keeps Lives m :=
  h.weaken (fun _ hs => ⟨hs, fun _ hmem => absurd hmem List.not_mem_nil⟩) (fun _ _ hs => hs.1)
    fun _ hs => hs.1

variable [DecidableEq Ty]

def ProcessProtocol.over (client : ProcessProtocol π Ty ρ) : Protocol (PdpiState Ty π) Ty ρ where
  construct pdpi :=
    (client.construct pdpi).run (fun op => onFirst (operate op.1)) fun _ => onSecond
  invoke instance_ params :=
    (client.invoke instance_ params).run (fun op => onFirst (operate op)) fun _ => onSecond

/-- There is one process, and no other at any address. -/
def processPdpi (address : Pointer) (computing : Client (Operation Ty) Bool π Bool) :
    PdpiType (PdpiState Ty π) Ty where
  isComputingNode pdpi :=
    if pdpi = address then computing.run (fun op => onFirst (operate op)) fun _ => onSecond
    else fault .badAccess
  isValidHandle T pdpi hndl :=
    if pdpi = address then return check (← get).1.1 T hndl
    else fault .badAccess

inductive Request (π ι Ty : Type) where
  | operate (op : Operation Ty)
  | elsewhere (m : Exec π Unit)
  | syscall (syscall : MetaSyscall Ty) (assertions : Bool) (k : ℕ) (protocol : ι)
    (input : SyscallInput)

inductive Response where
  | returned (b : Bool)
  | done
  | code (error : ModuleApi0x1Error)
  deriving DecidableEq, Repr

def serve [HasStderr π] (address : Pointer) (computing : Client (Operation Ty) Bool π Bool)
    (protocols : ι → ProcessProtocol π Ty ρ) :
    Request π ι Ty → Exec (Recorded (PdpiState Ty π) Ty) Response
  | .operate op => return .returned (← onFirst (onFirst (operate op)))
  | .elsewhere m => do
    onFirst (onSecond m)
    return .done
  | .syscall syscall assertions k i input =>
    return .code (← syscall.call assertions k (recordPdpi (processPdpi address computing))
      (recordProtocol (protocols i).over) input)

theorem operating_keeps (accepted : List (Ty × Pointer)) (op : Operation Ty)
    (htends : op.Erases → accepted = []) :
    Keeps (fun s : PdpiState Ty π => Lives s ∧ ∀ handle ∈ accepted, Valid handle s)
      (onFirst (operate op)) :=
  onFirst_keeps fun _ => operate_keeps op htends

theorem process_discipline (hinj : Function.Injective (ValueTraits.heapTypeId : Ty → UInt8))
    (address : Pointer) (computing : Client (Operation Ty) Bool π Bool)
    (client : ProcessProtocol π Ty ρ) (pdpi : Pointer) :
    Discipline (processPdpi address computing) client.over pdpi Lives Valid TypeSafe where
  computing := by
    apply Triple.ite
    · intro _
      apply keeps_lives
      exact client_keeps (fun op => operating_keeps [] op fun _ => rfl)
        (fun _ => elsewhere_keeps []) computing
    · exact fun _ => .fault
  valid T hndl accepted := by
    apply Triple.ite
    · exact fun _ s hs => ⟨hs, fun hcheck => check_iff.mp hcheck⟩
    · exact fun _ s hs => hs.1
  construct accepted := by
    have htends : ∀ op : Tending Ty,
        Keeps (fun s : PdpiState Ty π => Lives s ∧ ∀ handle ∈ accepted, Valid handle s)
          (onFirst (operate op.1)) :=
      fun op => operating_keeps accepted op.1 fun herases => absurd herases op.2
    have hclient := client_keeps htends (fun _ => elsewhere_keeps accepted)
      (client.construct pdpi)
    exact hclient.weaken (fun _ => id) (fun _ _ => id) fun _ hs => hs.1
  invoke instance_ params := by
    apply keeps_lives
    exact client_keeps (fun op => operating_keeps [] op fun _ => rfl)
      (fun _ => elsewhere_keeps []) (client.invoke instance_ params)
  goodComputing _ _ _ h := nomatch h
  goodValid _ _ _ _ _ h := nomatch h
  goodConstruct _ _ _ h := nomatch h
  goodInvoke := by
    rintro params s hs hvalid _ ⟨rfl⟩ param hparam T hndl hhandle
    exact denotes_of_valid hinj hs (hvalid param hparam (T, hndl) hhandle)

variable [HasStderr π]

theorem serve_keeps (hinj : Function.Injective (ValueTraits.heapTypeId : Ty → UInt8))
    (address : Pointer) (computing : Client (Operation Ty) Bool π Bool)
    (protocols : ι → ProcessProtocol π Ty ρ) (request : Request π ι Ty) :
    Keeps (Kept Lives TypeSafe) (serve address computing protocols request) := by
  have hbeside : ∀ {α : Type} {m : Exec (PdpiState Ty π) α}, Keeps Lives m →
      Keeps (Kept Lives TypeSafe) (onFirst m) := by
    intro α m hm
    apply onFirst_keeps (I := fun s log => Lives s ∧ ∀ entry ∈ log, TypeSafe entry)
    intro log
    exact .assume fun hlog => hm.weaken (fun _ => id) (fun _ _ hs => ⟨hs, hlog⟩)
      fun _ hs => ⟨hs, hlog⟩
  cases request with
  | operate op =>
    apply Triple.bind (hbeside (keeps_lives (operating_keeps [] op fun _ => rfl)))
    exact fun _ => .pure fun _ hs => hs
  | elsewhere m =>
    apply Triple.bind (hbeside (keeps_lives (elsewhere_keeps [] m)))
    exact fun _ => .pure fun _ hs => hs
  | syscall syscall assertions k i input =>
    have hcall : Keeps (Kept Lives TypeSafe) (syscall.call assertions k
        (recordPdpi (processPdpi address computing)) (recordProtocol (protocols i).over)
        input) := by
      rw [call_eq_dispatch]
      apply dispatch_kept k fun _ _ hs => hs
      exact fun info _ _ => process_discipline hinj address computing (protocols i) info.pdpiHandle
    exact .bind hcall fun _ => .pure fun _ hs => hs

/-- In every lifetime of a process, each share vector reference that reaches a protocol denotes a
stored live vector of the type it is cast to, although protocols insert and erase vectors
themselves; and every vector that the heap ever accepted is deleted once, by then or by the
destructor. -/
theorem process_lifetimes (hinj : Function.Injective (ValueTraits.heapTypeId : Ty → UInt8))
    (address : Pointer) (computing : Client (Operation Ty) Bool π Bool)
    (protocols : ι → ProcessProtocol π Ty ρ) (requests : List (Request π ι Ty)) (rest : π) :
    let final := after (session (serve address computing protocols)) requests
      ((World.init, rest), [])
    let w := final.1.1
    (∀ params t, (.invoke params, t) ∈ final.2 → ∀ param ∈ params, ∀ T hndl,
      vecHandle param = some (T, hndl) → Denotes T hndl t.1) ∧
    w.2.accepted.Nodup ∧ w.2.deleted.Nodup ∧ (∀ id ∈ w.2.deleted, id ∈ w.2.accepted) ∧
    (∀ id ∈ w.2.accepted, id ∉ w.2.deleted → Stored id w.1 w.2) ∧
    ∀ order : List Pointer, order.Perm w.1.mPointers.keys → ∃ v,
      (sweep Objects.delete order).run w = .ok () (w.1, v) ∧ v.deleted.Perm w.2.accepted := by
  intro final w
  have hkept : Kept Lives TypeSafe final := by
    apply session_keeps (serve_keeps hinj address computing protocols) requests
    exact ⟨.init, fun _ hmem => absurd hmem List.not_mem_nil⟩
  have howns : Owns Typed w.1 w.2 := reachable_owns hkept.1
  refine ⟨?_, howns.acceptedOnce, howns.deletedOnce, howns.deletedAccepted, howns.owned, ?_⟩
  · exact fun params t hmem => hkept.2 _ hmem params rfl
  · exact fun order horder => sweep_deletes howns horder

end Processes

section Instances

/-- It erases its result and puts a vector of another type at the same address. -/
def reusingProtocol : ProcessProtocol (List String) Bool Unit where
  construct _ := .done (.ok ())
  invoke _ _ := .call (.event (.erase true 5)) fun _ =>
    .call (.event (.create false 5)) fun _ => .call (.event (.insert false 5 true)) .done

theorem process_lifetimes_reused :
    let final := after (session (serve 16 (.done (.ok true)) fun _ : Unit => reusingProtocol))
      [.operate (.event (.create true 5)), .operate (.event (.insert true 5 true)),
        .syscall (.nullaryVec true) true 0 () ⟨[⟨1, 0⟩, ⟨0, 5⟩], 2, none, none, 0, onePdpi⟩]
      ((World.init, []), [])
    (∃ t, (.invoke [.shareVec true 5], t) ∈ final.2 ∧ Denotes true 5 t.1) ∧
    ∃ v, (sweep Objects.delete [5]).run final.1.1 = .ok () (final.1.1.1, v) ∧
      v.deleted.Perm [0, 1] := by
  intro final
  have hlives := process_lifetimes heapTypeId_injective 16 (.done (.ok true))
    (fun _ : Unit => reusingProtocol)
    [.operate (.event (.create true 5)), .operate (.event (.insert true 5 true)),
      .syscall (.nullaryVec true) true 0 () ⟨[⟨1, 0⟩, ⟨0, 5⟩], 2, none, none, 0, onePdpi⟩] []
  have hinvoked : (.invoke [.shareVec true 5], (insertedOnce, [])) ∈ final.2 :=
    .tail _ (.tail _ (.tail _ (.head _)))
  constructor
  · exact ⟨_, hinvoked, hlives.1 _ _ hinvoked _ (.head _) true 5 rfl⟩
  · exact hlives.2.2.2.2.2 [5] (List.Perm.refl [5])

/-- An erasing constructor would take a validated vector away from its protocol. -/
def erasingProtocol : Protocol (PdpiState Bool (List String)) Bool Unit where
  construct _ := do let _ ← onFirst (operate (.event (.erase true 5)))
  invoke _ _ := pure true

example :
    ∃ t, (.invoke [.shareVec true 5], t) ∈ (finalState (((MetaSyscall.nullaryVec true).call true 0
      (recordPdpi (processPdpi 16 (.done (.ok true)))) (recordProtocol erasingProtocol)
      ⟨[⟨1, 0⟩, ⟨0, 5⟩], 2, none, none, 0, onePdpi⟩).run ((insertedOnce, []), []))).2 ∧
      5 ∉ t.1.1.mPointers :=
  ⟨_, .tail _ (.tail _ (.tail _ (.head _))), by decide⟩

end Instances

end PdkHeaders.ProcessLifetimes
