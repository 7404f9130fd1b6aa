import PdkHeaders.AccessRanges
import PdkHeaders.Library.Clients
import PdkHeaders.SyscallRefinement
import PdkHeaders.ValueHeap

set_option autoImplicit false

/-!
# A process as a typed store

A PDPI that validates handles by its heap of share vectors, and the same PDPI over a typed map.
The state is the heap or the map, beside all that the callbacks keep elsewhere.
-/
namespace PdkHeaders.TypedStore
open PdkHeaders.Library.Execution PdkHeaders.Library.Transcript PdkHeaders.Library.Sessions
  PdkHeaders.Library.Refinement PdkHeaders.Library.Clients
open PdkHeaders.SyscallsCommon PdkHeaders.VmVector PdkHeaders.MetaSyscalls
open PdkHeaders.SyscallRefinement PdkHeaders.ValueHeap

section Processes
variable {η ω Ty α : Type}

instance [HasStderr ω] : HasStderr (η × ω) where
  write text s := (s.1, HasStderr.write text s.2)

/-- Handles are valid if the heap stores them with the type. -/
def heapProcess [ValueTraits Ty] (computing : Pointer → Exec ω Bool) :
    PdpiType (SharedValueHeap × ω) Ty where
  isComputingNode pdpi := onSecond (computing pdpi)
  isValidHandle T _ hndl := return check (← get).1 T hndl

def typedProcess [DecidableEq Ty] (computing : Pointer → Exec ω Bool) :
    PdpiType (TypedMap Ty × ω) Ty where
  isComputingNode pdpi := onSecond (computing pdpi)
  isValidHandle T _ hndl := return (← get).1 hndl = some T

/-- The operations of the heap, on the typed map. -/
def typedCall [DecidableEq Ty] (delete : Pointer → Exec ω Unit) :
    HeapCall Ty → Exec (TypedMap Ty × ω) Bool
  | .insert T vec allocates => do
    if vec = nullptr then
      return false
    if !allocates then
      raise .badAlloc
    let (m, w) ← get
    if m vec ≠ none then
      return false
    set (Function.update m vec (some T), w)
    return true
  | .erase T vec => do
    if (← get).1 vec = some T then
      onSecond (delete vec)
      modify fun s => (Function.update s.1 vec none, s.2)
      return true
    return false
  | .check T hndl => return (← get).1 hndl = some T

theorem typedCall_insert [DecidableEq Ty] (delete : Pointer → Exec ω Unit) (T : Ty)
    (vec : Pointer) (allocates : Bool) (t : TypedMap Ty × ω) :
    (typedCall delete (.insert T vec allocates)).run t =
      if vec = nullptr then .ok false t
      else if allocates = false then .error (.throws .badAlloc) t
      else if t.1 vec ≠ none then .ok false t
      else .ok true (Function.update t.1 vec (some T), t.2) := by
  by_cases hnull : vec = nullptr
  · simp [typedCall, hnull]
  · cases allocates with
    | false => simp [typedCall, hnull, raise]
    | true =>
      by_cases hstored : t.1 vec = none
      · simp only [typedCall, hnull, ↓reduceIte, Bool.not_true, Bool.false_eq_true,
          EStateM.run_bind, EStateM.run_get, ne_eq, hstored, not_true_eq_false,
          Bool.true_eq_false]
        rfl
      · simp [typedCall, hnull, hstored]

theorem typedCall_erase [DecidableEq Ty] (delete : Pointer → Exec ω Unit) (T : Ty)
    (vec : Pointer) (map : TypedMap Ty) (w : ω) :
    (typedCall delete (.erase T vec)).run (map, w) =
      if map vec = some T then
        match (delete vec).run w with
        | .ok _ v => .ok true (Function.update map vec none, v)
        | .error stop v => .error stop (map, v)
      else .ok false (map, w) := by
  by_cases hstored : map vec = some T
  · simp only [typedCall, EStateM.run_bind, EStateM.run_get, hstored, ↓reduceIte, onSecond]
    cases hdelete : (delete vec).run w with
    | ok a v =>
      rw [zoom_ok hdelete]
      rfl
    | error stop v => rw [zoom_error hdelete]
  · simp [typedCall, hstored]

/-- What is asked of a process: an operation on its heap, or a syscall with one of the
protocols. -/
inductive Request (ι Ty : Type) where
  | heap (call : HeapCall Ty)
  | syscall (syscall : MetaSyscall Ty) (protocol : ι) (input : SyscallInput)

inductive Response where
  | heap (b : Bool)
  | code (error : ModuleApi0x1Error)
  deriving DecidableEq, Repr

/-- A protocol that knows the store by its operations, as the map of the heap is private. -/
structure ClientProtocol (ω Ty ρ : Type) where
  construct : Pointer → Client (HeapCall Ty) Bool ω ρ
  invoke : ρ → List (Param Ty) → Client (HeapCall Ty) Bool ω Bool

section
variable {σ ι ρ : Type} [ValueTraits Ty] (assertions : Bool) (k : ℕ)
  (delete : Pointer → Exec ω Unit) (computing : Pointer → Exec ω Bool)
  (protocols : ι → ClientProtocol ω Ty ρ)

def ClientProtocol.over (client : ClientProtocol ω Ty ρ) (store : HeapCall Ty → Exec σ Bool)
    (elsewhere : ∀ β : Type, Exec ω β → Exec σ β) : Protocol σ Ty ρ where
  construct pdpi := (client.construct pdpi).run store elsewhere
  invoke instance_ params := (client.invoke instance_ params).run store elsewhere

def perform [HasStderr σ] (store : HeapCall Ty → Exec σ Bool)
    (elsewhere : ∀ β : Type, Exec ω β → Exec σ β) (pdpiType : PdpiType σ Ty) :
    Request ι Ty → Exec σ Response
  | .heap call => return .heap (← store call)
  | .syscall syscall i input =>
    return .code (← syscall.call assertions k pdpiType ((protocols i).over store elsewhere) input)

def performOnHeap [HasStderr ω] : Request ι Ty → Exec (SharedValueHeap × ω) Response :=
  perform assertions k protocols (HeapCall.run delete) (fun _ => onSecond) (heapProcess computing)

def performOnMap [HasStderr ω] [DecidableEq Ty] : Request ι Ty → Exec (TypedMap Ty × ω) Response :=
  perform assertions k protocols (typedCall delete) (fun _ => onSecond) (typedProcess computing)

end

end Processes

section Refinement
variable {ω Ty α : Type} [ValueTraits Ty]

/-- The heap has the ids of the types in the map, and all else is the same. -/
def Stands (s : SharedValueHeap × ω) (t : TypedMap Ty × ω) : Prop :=
  Represents s t.1 ∧ s.2 = t.2

variable {s : SharedValueHeap × ω} {t : TypedMap Ty × ω}

theorem onSecond_alike (m : Exec ω α) :
    Alike (Stands : SharedValueHeap × ω → TypedMap Ty × ω → Prop) (onSecond m) (onSecond m) := by
  intro s t hs
  obtain ⟨heap, w⟩ := s
  obtain ⟨map, w'⟩ := t
  obtain ⟨hmap, hrest⟩ := hs
  simp only at hrest
  subst hrest
  cases hrun : m.run w with
  | ok a v =>
    have hleft : (onSecond m).run (heap, w) = .ok a (heap, v) := zoom_ok hrun
    have hright : (onSecond m).run (map, w) = .ok a (map, v) := zoom_ok hrun
    rw [hleft, hright]
    exact .ok a ⟨hmap, rfl⟩
  | error stop v =>
    have hleft : (onSecond m).run (heap, w) = .error stop (heap, v) := zoom_error hrun
    have hright : (onSecond m).run (map, w) = .error stop (map, v) := zoom_error hrun
    rw [hleft, hright]
    exact .error stop ⟨hmap, rfl⟩

theorem stands_prints [HasStderr ω] :
    PrintsAlike (Stands : SharedValueHeap × ω → TypedMap Ty × ω → Prop) :=
  fun text _ _ hs => ⟨hs.1, congrArg (HasStderr.write text) hs.2⟩

variable [DecidableEq Ty]

/-- Ids that tell types apart find exactly the type of the map. -/
theorem Stands.check (hinj : Function.Injective (ValueTraits.heapTypeId : Ty → UInt8))
    (h : Stands s t) (T : Ty) (hndl : Pointer) : check s.1 T hndl = decide (t.1 hndl = some T) := by
  rw [Bool.eq_iff_iff, check_iff, decide_eq_true_iff, h.1 hndl]
  cases t.1 hndl with
  | none => simp
  | some U => simp [hinj.eq_iff]

theorem process_alike (hinj : Function.Injective (ValueTraits.heapTypeId : Ty → UInt8))
    (computing : Pointer → Exec ω Bool) :
    PdpiAlike Stands (heapProcess computing : PdpiType (SharedValueHeap × ω) Ty)
      (typedProcess computing) where
  computing pdpi := onSecond_alike (computing pdpi)
  valid T _ hndl := by
    intro s t hs
    have hcheck := hs.check hinj T hndl
    change Ends Stands (.ok (ValueHeap.check s.1 T hndl) s) (.ok (decide (t.1 hndl = some T)) t)
    rw [hcheck]
    exact .ok _ hs

/-- Every operation on the heap is the one on the map, whatever the destructor does. -/
theorem heapCall_alike (hinj : Function.Injective (ValueTraits.heapTypeId : Ty → UInt8))
    (delete : Pointer → Exec ω Unit) (call : HeapCall Ty) :
    Alike Stands (call.run delete) (typedCall delete call) := by
  intro s t hs
  obtain ⟨heap, w⟩ := s
  obtain ⟨map, w'⟩ := t
  have hcheck := hs.check hinj
  obtain ⟨hmap, hrest⟩ := hs
  simp only at hmap hrest hcheck
  subst hrest
  cases call with
  | insert T vec allocates =>
    have hlookup : heap.mPointers.lookup vec ≠ none ↔ map vec ≠ none := by
      rw [hmap vec]
      simp
    rw [HeapCall.run, insert_run, typedCall_insert]
    simp only [hlookup]
    by_cases hnull : vec = nullptr
    · simp only [hnull, ↓reduceIte]
      exact .ok false ⟨hmap, rfl⟩
    · cases allocates with
      | false =>
        simp only [hnull, ↓reduceIte]
        exact .error _ ⟨hmap, rfl⟩
      | true =>
        simp only [hnull, ↓reduceIte, Bool.true_eq_false]
        by_cases hstored : map vec ≠ none
        · rw [if_pos hstored, if_pos hstored]
          exact .ok false ⟨hmap, rfl⟩
        · rw [if_neg hstored, if_neg hstored]
          have hinserted : Represents (⟨heap.mPointers.insert vec (ValueTraits.heapTypeId T)⟩, w)
              (Function.update map vec (some T)) := by
            apply hmap.update
            · exact AList.lookup_insert _
            · exact fun p hp => AList.lookup_insert_ne hp
          exact .ok true ⟨hinserted, rfl⟩
  | erase T vec =>
    have hfound : heap.mPointers.lookup vec = some (ValueTraits.heapTypeId T) ↔
        map vec = some T := by
      rw [← check_iff, hcheck, decide_eq_true_iff]
    rw [HeapCall.run, typedCall_erase]
    by_cases hstored : map vec = some T
    · rw [erase_found delete (hfound.mpr hstored)]
      simp only [hstored, ↓reduceIte]
      cases (delete vec).run w with
      | ok _ v =>
        have herased : Represents (⟨heap.mPointers.erase vec⟩, v)
            (Function.update map vec none) := by
          apply hmap.update
          · exact AList.lookup_erase _ _
          · exact fun p hp => AList.lookup_erase_ne hp
        exact .ok true ⟨herased, rfl⟩
      | error stop v => exact .error stop ⟨hmap, rfl⟩
    · rw [erase_refused delete fun hid => hstored (hfound.mp hid)]
      simp only [hstored, ↓reduceIte]
      exact .ok false ⟨hmap, rfl⟩
  | check T hndl =>
    change Ends Stands (.ok (ValueHeap.check heap T hndl) (heap, w))
      (.ok (decide (map hndl = some T)) (map, w))
    rw [hcheck]
    exact .ok _ ⟨hmap, rfl⟩

variable {ι ρ : Type}

theorem protocol_alike (hinj : Function.Injective (ValueTraits.heapTypeId : Ty → UInt8))
    (delete : Pointer → Exec ω Unit) (client : ClientProtocol ω Ty ρ) :
    ProtocolAlike Stands (client.over (HeapCall.run delete) fun _ => onSecond)
      (client.over (typedCall delete) fun _ => onSecond) where
  construct _ := client_alike (heapCall_alike hinj delete) (fun _ => onSecond_alike) _
  invoke _ _ := client_alike (heapCall_alike hinj delete) (fun _ => onSecond_alike) _

variable [HasStderr ω]

theorem perform_alike (hinj : Function.Injective (ValueTraits.heapTypeId : Ty → UInt8))
    (assertions : Bool) (k : ℕ) (delete : Pointer → Exec ω Unit)
    (computing : Pointer → Exec ω Bool) (protocols : ι → ClientProtocol ω Ty ρ)
    (request : Request ι Ty) :
    Alike Stands (performOnHeap assertions k delete computing protocols request)
      (performOnMap assertions k delete computing protocols request) := by
  cases request with
  | heap call => exact .bind (heapCall_alike hinj delete call) fun _ => .pure _
  | syscall syscall i input =>
    apply Alike.bind
    · exact call_alike stands_prints (process_alike hinj computing)
        (protocol_alike hinj delete (protocols i)) syscall assertions k input
    · exact fun _ => .pure _

/-- A process over the heap answers every sequence of requests as one over the typed map does,
with protocols that use the store themselves, and the heap it leaves holds the types of the
map. -/
theorem heap_process_refines_typedMap
    (hinj : Function.Injective (ValueTraits.heapTypeId : Ty → UInt8)) (assertions : Bool) (k : ℕ)
    (delete : Pointer → Exec ω Unit) (computing : Pointer → Exec ω Bool)
    (protocols : ι → ClientProtocol ω Ty ρ) (requests : List (Request ι Ty)) (w : ω) :
    let onHeap := session (performOnHeap assertions k delete computing protocols)
    let onMap := session (performOnMap assertions k delete computing protocols)
    transcript onHeap requests (.empty, w) = transcript onMap requests (fun _ => none, w) ∧
    Stands (after onHeap requests (.empty, w)) (after onMap requests (fun _ => none, w)) := by
  intro onHeap onMap
  have hempty : Stands (SharedValueHeap.empty, w) ((fun _ => none : TypedMap Ty), w) :=
    ⟨fun p => AList.lookup_empty p, rfl⟩
  have hsimulates : Simulates Stands onHeap onMap :=
    sessions_simulate (perform_alike hinj assertions k delete computing protocols)
  exact ⟨hsimulates.transcript requests hempty, hsimulates.after requests hempty⟩

end Refinement

section Instance
open PdkHeaders.AccessRanges

/-- A protocol that leaves one more vector in the store. -/
def storingProtocol : ClientProtocol (List String) Bool Unit where
  construct _ := .done (.ok ())
  invoke _ _ := .call (.insert false 40 true) .done

theorem heap_process_refines_typedMap_stored :
    let requests : List (Request Unit Bool) := [.heap (.insert true 24 true),
      .syscall (.opcArithVec true) () oneCRef, .heap (.insert true 32 true),
      .syscall (.opcArithVec true) () oneCRef, .heap (.check false 40), .heap (.check true 40),
      .heap (.insert false 40 false)]
    (transcript (session (performOnHeap true 0 (fun _ => pure ()) (fun _ => pure true)
        fun _ => storingProtocol)) requests (.empty, [])).map (·.2) =
      [.ok (.heap true), .ok (.code .generalError), .ok (.heap true), .ok (.code .ok),
        .ok (.heap true), .ok (.heap false), .error (.throws .badAlloc)] := by
  intro requests
  rw [(heap_process_refines_typedMap heapTypeId_injective true 0 (fun _ => pure ())
    (fun _ => pure true) (fun _ => storingProtocol) requests []).1]
  rfl

end Instance

end PdkHeaders.TypedStore
