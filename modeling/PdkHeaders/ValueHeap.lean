import Mathlib.Data.List.AList
import PdkHeaders.Library.Transcript
import PdkHeaders.VmVector

set_option autoImplicit false

/-!
# The heap of share vectors

The map from addresses to heap type ids, and the typed partial map it stands for: which type
an address was last inserted under, as far as callers can tell.
-/
namespace PdkHeaders.ValueHeap
open PdkHeaders.Library.Execution PdkHeaders.Library.Hoare PdkHeaders.Library.Transcript
open PdkHeaders.SyscallsCommon PdkHeaders.VmVector

structure SharedValueHeap where
  mPointers : AList fun _ : Pointer => UInt8

def SharedValueHeap.empty : SharedValueHeap := ⟨∅⟩

section Operations
variable {ω Ty : Type} [ValueTraits Ty]

/-- A delete expression runs a destructor, which is not a part of the heap. -/
def deleteVec (delete : Pointer → Exec ω Unit) (vec : Pointer) :
    Exec (SharedValueHeap × ω) Unit := fun s =>
  match (delete vec).run s.2 with
  | .ok _ w => .ok () (s.1, w)
  | .error e w => .error e (s.1, w)

/-- `allocates` says whether the map gets the memory for a new entry. -/
def insert (T : Ty) (vec : Pointer) (allocates : Bool) : Exec (SharedValueHeap × ω) Bool := do
  let heapTypeId := ValueTraits.heapTypeId T
  if vec ≠ nullptr then
    -- the pair is not of the map's value type, so the entry is built before the lookup
    if !allocates then
      raise .badAlloc
    let (heap, w) ← get
    if heap.mPointers.lookup vec ≠ none then
      return false
    set (SharedValueHeap.mk (heap.mPointers.insert vec heapTypeId), w)
    return true
  return false

def erase (delete : Pointer → Exec ω Unit) (T : Ty) (vec : Pointer) :
    Exec (SharedValueHeap × ω) Bool := do
  match (← get).1.mPointers.lookup vec with
  | some i =>
    if i = ValueTraits.heapTypeId T then
      deleteVec delete vec
      modify fun s => (⟨s.1.mPointers.erase vec⟩, s.2)
      return true
    return false
  | none => return false

def check (heap : SharedValueHeap) (T : Ty) (hndl : Pointer) : Bool :=
  match heap.mPointers.lookup hndl with
  | some i => i = ValueTraits.heapTypeId T
  | none => false

/-- The destructor deletes every key, in the order the map iterates in. -/
def sweep (delete : Pointer → Exec ω Unit) (order : List Pointer) :
    Exec (SharedValueHeap × ω) Unit :=
  runAll (deleteVec delete) order

theorem deleteVec_ok {delete : Pointer → Exec ω Unit} {vec : Pointer} {w v : ω}
    (h : (delete vec).run w = .ok () v) (heap : SharedValueHeap) :
    (deleteVec delete vec).run (heap, w) = .ok () (heap, v) := by
  simp only [deleteVec, EStateM.run] at h ⊢
  simp only [h]

theorem deleteVec_error {delete : Pointer → Exec ω Unit} {vec : Pointer} {w v : ω} {e : Stop}
    (h : (delete vec).run w = .error e v) (heap : SharedValueHeap) :
    (deleteVec delete vec).run (heap, w) = .error e (heap, v) := by
  simp only [deleteVec, EStateM.run] at h ⊢
  simp only [h]

theorem insert_run (T : Ty) (vec : Pointer) (allocates : Bool) (s : SharedValueHeap × ω) :
    (insert T vec allocates).run s =
      if vec = nullptr then .ok false s
      else if allocates = false then .error (.throws .badAlloc) s
      else if s.1.mPointers.lookup vec ≠ none then .ok false s
      else .ok true (⟨s.1.mPointers.insert vec (ValueTraits.heapTypeId T)⟩, s.2) := by
  by_cases hnull : vec = nullptr
  · simp [insert, hnull]
  · cases allocates with
    | false => simp [insert, hnull, raise]
    | true =>
      by_cases hlookup : s.1.mPointers.lookup vec = none
      · simp only [insert, hnull, ne_eq, not_false_eq_true, ↓reduceIte, Bool.not_true,
          Bool.false_eq_true, EStateM.run_bind, EStateM.run_get, hlookup, not_true_eq_false,
          Bool.true_eq_false]
        rfl
      · simp [insert, hnull, hlookup]

theorem erase_refused (delete : Pointer → Exec ω Unit) {T : Ty} {vec : Pointer}
    {s : SharedValueHeap × ω}
    (h : s.1.mPointers.lookup vec ≠ some (ValueTraits.heapTypeId T)) :
    (erase delete T vec).run s = .ok false s := by
  simp only [erase, EStateM.run_bind, EStateM.run_get]
  cases hlookup : s.1.mPointers.lookup vec with
  | none => simp
  | some i =>
    have hid : i ≠ ValueTraits.heapTypeId T := by
      intro hid
      rw [hid] at hlookup
      exact h hlookup
    simp [hid]

theorem erase_found (delete : Pointer → Exec ω Unit) {T : Ty} {vec : Pointer}
    {heap : SharedValueHeap} {w : ω}
    (h : heap.mPointers.lookup vec = some (ValueTraits.heapTypeId T)) :
    (erase delete T vec).run (heap, w) =
      match (delete vec).run w with
      | .ok _ v => .ok true (⟨heap.mPointers.erase vec⟩, v)
      | .error e v => .error e (heap, v) := by
  simp only [erase, EStateM.run_bind, EStateM.run_get, h, ↓reduceIte]
  cases hdelete : (delete vec).run w with
  | ok a v => rw [deleteVec_ok hdelete]; rfl
  | error e v => rw [deleteVec_error hdelete]

theorem check_iff {heap : SharedValueHeap} {T : Ty} {hndl : Pointer} :
    check heap T hndl = true ↔ heap.mPointers.lookup hndl = some (ValueTraits.heapTypeId T) := by
  rw [check]
  cases heap.mPointers.lookup hndl <;> simp

end Operations

inductive HeapCall (Ty : Type) where
  | insert (T : Ty) (vec : Pointer) (allocates : Bool)
  | erase (T : Ty) (vec : Pointer)
  | check (T : Ty) (hndl : Pointer)
  deriving DecidableEq, Repr

inductive Answer where
  | returned (b : Bool)
  | stopped (e : Stop)
  deriving DecidableEq, Repr

abbrev TypedMap (Ty : Type) := Pointer → Option Ty

section Machines
variable {ω Ty : Type} [ValueTraits Ty]

def HeapCall.run (delete : Pointer → Exec ω Unit) : HeapCall Ty → Exec (SharedValueHeap × ω) Bool
  | .insert T vec allocates => ValueHeap.insert T vec allocates
  | .erase T vec => ValueHeap.erase delete T vec
  | .check T hndl => return ValueHeap.check (← get).1 T hndl

def answer {σ : Type} : EStateM.Result Stop σ Bool → Answer
  | .ok b _ => .returned b
  | .error e _ => .stopped e

def heapMachine (delete : Pointer → ω → ω) :
    HeapCall Ty → SharedValueHeap × ω → Answer × (SharedValueHeap × ω) := fun call s =>
  let result := (call.run fun vec => modify (delete vec)).run s
  (answer result, finalState result)

/-- The typed partial map that the heap is for. -/
def typedMachine : HeapCall Ty → TypedMap Ty → Answer × TypedMap Ty
  | .insert T vec allocates, m =>
    if vec = nullptr then (.returned false, m)
    else if allocates = false then (.stopped (.throws .badAlloc), m)
    else if m vec ≠ none then (.returned false, m)
    else (.returned true, Function.update m vec (some T))
  | .erase T vec, m =>
    if (m vec).map ValueTraits.heapTypeId = some (ValueTraits.heapTypeId T) then
      (.returned true, Function.update m vec none)
    else (.returned false, m)
  | .check T hndl, m =>
    (.returned ((m hndl).map ValueTraits.heapTypeId = some (ValueTraits.heapTypeId T) : Bool), m)

def Represents (s : SharedValueHeap × ω) (m : TypedMap Ty) : Prop :=
  ∀ p, s.1.mPointers.lookup p = (m p).map ValueTraits.heapTypeId

theorem Represents.update {heap heap' : SharedValueHeap} {w w' : ω} {m : TypedMap Ty}
    {vec : Pointer} {entry : Option Ty} (h : Represents (heap, w) m)
    (hsame : heap'.mPointers.lookup vec = entry.map ValueTraits.heapTypeId)
    (hother : ∀ p, p ≠ vec → heap'.mPointers.lookup p = heap.mPointers.lookup p) :
    Represents (heap', w') (Function.update m vec entry) := by
  intro p
  by_cases hp : p = vec
  · rw [hp, Function.update_self]
    exact hsame
  · rw [Function.update_of_ne hp]
    exact (hother p hp).trans (h p)

/-- Every operation on the heap is the operation on the typed map. -/
theorem heap_simulates (delete : Pointer → ω → ω) :
    Simulates Represents (heapMachine delete) (typedMachine : HeapCall Ty → _) := by
  intro call s m h
  obtain ⟨heap, w⟩ := s
  cases call with
  | insert T vec allocates =>
    have hlookup : heap.mPointers.lookup vec ≠ none ↔ m vec ≠ none := by
      rw [h vec]
      simp
    simp only [heapMachine, HeapCall.run, typedMachine, insert_run, hlookup]
    by_cases hnull : vec = nullptr
    · simp only [hnull, ↓reduceIte]
      exact ⟨rfl, h⟩
    · cases allocates with
      | false =>
        simp only [hnull, ↓reduceIte]
        exact ⟨rfl, h⟩
      | true =>
        simp only [hnull, ↓reduceIte, Bool.true_eq_false]
        by_cases hstored : m vec ≠ none
        · rw [if_pos hstored, if_pos hstored]
          exact ⟨rfl, h⟩
        · rw [if_neg hstored, if_neg hstored]
          refine ⟨rfl, h.update ?_ fun p hp => ?_⟩
          · exact AList.lookup_insert _
          · exact AList.lookup_insert_ne hp
  | erase T vec =>
    simp only [heapMachine, HeapCall.run, typedMachine, ← h vec]
    by_cases hfound : heap.mPointers.lookup vec = some (ValueTraits.heapTypeId T)
    · rw [erase_found _ hfound]
      simp only [hfound, ↓reduceIte]
      refine ⟨rfl, h.update ?_ fun p hp => ?_⟩
      · exact AList.lookup_erase _ _
      · exact AList.lookup_erase_ne hp
    · rw [erase_refused _ hfound]
      simp only [hfound, ↓reduceIte]
      exact ⟨rfl, h⟩
  | check T hndl =>
    refine ⟨?_, h⟩
    have hcheck : check heap T hndl =
        decide ((m hndl).map ValueTraits.heapTypeId = some (ValueTraits.heapTypeId T)) := by
      rw [Bool.eq_iff_iff, check_iff, decide_eq_true_iff, ← h hndl]
    exact congrArg Answer.returned hcheck

end Machines

section History
variable {Ty : Type}

def succeedsOn (p : Pointer) : HeapCall Ty × Answer → Bool
  | (.insert _ vec _, .returned true) => vec = p
  | (.erase _ vec, .returned true) => vec = p
  | _ => false

def latestSuccess (p : Pointer) (log : List (HeapCall Ty × Answer)) : Option (HeapCall Ty) :=
  (log.reverse.find? (succeedsOn p)).map (·.1)

/-- The type an address is currently stored under, as the answers so far tell. -/
def stored (log : List (HeapCall Ty × Answer)) (p : Pointer) : Option Ty :=
  match latestSuccess p log with
  | some (.insert T _ _) => some T
  | _ => none

theorem latestSuccess_append (p : Pointer) (log : List (HeapCall Ty × Answer))
    (entry : HeapCall Ty × Answer) : latestSuccess p (log ++ [entry]) =
      if succeedsOn p entry then some entry.1 else latestSuccess p log := by
  cases h : succeedsOn p entry <;> simp [latestSuccess, h]

theorem stored_append_insert (log : List (HeapCall Ty × Answer)) (T : Ty) (vec : Pointer)
    (allocates : Bool) : stored (log ++ [(.insert T vec allocates, .returned true)]) =
      Function.update (stored log) vec (some T) := by
  funext p
  by_cases hp : p = vec
  · subst hp
    simp [stored, latestSuccess_append, succeedsOn]
  · simp [stored, latestSuccess_append, succeedsOn, hp, Ne.symm hp]

theorem stored_append_erase (log : List (HeapCall Ty × Answer)) (T : Ty) (vec : Pointer) :
    stored (log ++ [(.erase T vec, .returned true)]) = Function.update (stored log) vec none := by
  funext p
  by_cases hp : p = vec
  · subst hp
    simp [stored, latestSuccess_append, succeedsOn]
  · simp [stored, latestSuccess_append, succeedsOn, hp, Ne.symm hp]

theorem stored_append_of_not {entry : HeapCall Ty × Answer}
    (h : ∀ p, succeedsOn p entry = false) (log : List (HeapCall Ty × Answer)) :
    stored (log ++ [entry]) = stored log := by
  funext p
  simp [stored, latestSuccess_append, h p]

theorem stored_eq_some_iff {log : List (HeapCall Ty × Answer)} {p : Pointer} {U : Ty} :
    stored log p = some U ↔ ∃ allocates, latestSuccess p log = some (.insert U p allocates) := by
  have hsame : ∀ call, latestSuccess p log = some call →
      ∃ entry : HeapCall Ty × Answer, succeedsOn p entry = true ∧ entry.1 = call := by
    intro call hcall
    obtain ⟨entry, hfind, hentry⟩ := Option.map_eq_some_iff.mp hcall
    exact ⟨entry, List.find?_some hfind, hentry⟩
  constructor
  · intro h
    rw [stored] at h
    split at h
    · rename_i T vec allocates hlatest
      obtain ⟨⟨call, answer⟩, hsucceeds, rfl⟩ := hsame _ hlatest
      cases h
      cases answer with
      | stopped e => cases hsucceeds
      | returned b =>
        cases b
        · cases hsucceeds
        · have hvec : vec = p := of_decide_eq_true hsucceeds
          exact ⟨allocates, hvec ▸ hlatest⟩
    · cases h
  · rintro ⟨allocates, h⟩
    rw [stored, h]

variable [ValueTraits Ty]

theorem typedMachine_stored (calls : List (HeapCall Ty)) :
    let log := transcript typedMachine calls fun _ => none
    let m := after typedMachine calls fun _ => none
    m = stored log ∧ m nullptr = none := by
  apply history_invariant typedMachine fun log m => m = stored log ∧ m nullptr = none
  · exact ⟨rfl, rfl⟩
  · rintro log m call ⟨rfl, hnull⟩
    cases call with
    | insert T vec allocates =>
      simp only [typedMachine]
      split_ifs with hvec
      · exact ⟨(stored_append_of_not (fun _ => rfl) log).symm, hnull⟩
      · exact ⟨(stored_append_of_not (fun _ => rfl) log).symm, hnull⟩
      · exact ⟨(stored_append_of_not (fun _ => rfl) log).symm, hnull⟩
      · exact ⟨(stored_append_insert log T vec allocates).symm,
          (Function.update_of_ne (Ne.symm hvec) _ _).trans hnull⟩
    | erase T vec =>
      simp only [typedMachine]
      split
      · refine ⟨(stored_append_erase log T vec).symm, ?_⟩
        by_cases hvec : nullptr = vec
        · subst hvec
          exact Function.update_self nullptr none (stored log)
        · exact (Function.update_of_ne hvec _ _).trans hnull
      · exact ⟨(stored_append_of_not (fun _ => rfl) log).symm, hnull⟩
    | check T hndl => exact ⟨(stored_append_of_not (fun _ => rfl) log).symm, hnull⟩

theorem typedMachine_failed {call : HeapCall Ty} {m : TypedMap Ty}
    (h : (typedMachine call m).1 ≠ .returned true) : (typedMachine call m).2 = m := by
  cases call with
  | insert T vec allocates =>
    simp only [typedMachine] at h ⊢
    split_ifs at h ⊢ <;> first | rfl | exact absurd rfl h
  | erase T vec =>
    simp only [typedMachine] at h ⊢
    split_ifs at h ⊢ <;> first | rfl | exact absurd rfl h
  | check T hndl => rfl

end History

section Refinement
variable {ω Ty : Type} [ValueTraits Ty]

theorem heap_represents (delete : Pointer → ω → ω) (calls : List (HeapCall Ty)) (w : ω) :
    Represents (after (heapMachine delete) calls (.empty, w))
      (stored (transcript (heapMachine delete) calls (.empty, w))) ∧
    stored (transcript (heapMachine delete) calls (.empty, w)) nullptr = none := by
  have hempty : Represents (SharedValueHeap.empty, w) (fun _ => none : TypedMap Ty) :=
    fun p => AList.lookup_empty p
  have htyped := typedMachine_stored calls
  rw [(heap_simulates delete).transcript calls hempty, ← htyped.1]
  exact ⟨(heap_simulates delete).after calls hempty, htyped.2⟩

theorem heap_failed (delete : Pointer → ω → ω) {s : SharedValueHeap × ω} {m : TypedMap Ty}
    (h : Represents s m) {call : HeapCall Ty}
    (hfailed : (heapMachine delete call s).1 ≠ .returned true) (later : List (HeapCall Ty)) :
    transcript (heapMachine delete) later (heapMachine delete call s).2 =
      transcript (heapMachine delete) later s := by
  have hstep := heap_simulates delete call s m h
  rw [hstep.1] at hfailed
  rw [typedMachine_failed hfailed] at hstep
  rw [(heap_simulates delete).transcript later hstep.2,
    (heap_simulates delete).transcript later h]

theorem typedMachine_insert {m : TypedMap Ty} {T : Ty} {vec : Pointer} {allocates : Bool} :
    (typedMachine (.insert T vec allocates) m).1 = .returned true ↔
      vec ≠ nullptr ∧ m vec = none ∧ allocates = true := by
  rw [typedMachine]
  split_ifs with hnull hallocates hstored
  · exact iff_of_false nofun fun h => h.1 hnull
  · exact iff_of_false nofun fun h => Bool.false_ne_true (hallocates.symm.trans h.2.2)
  · exact iff_of_false nofun fun h => hstored h.2.1
  · exact iff_of_true rfl ⟨hnull, not_not.mp hstored, eq_true_of_ne_false hallocates⟩

theorem typedMachine_erase {m : TypedMap Ty} {T : Ty} {vec : Pointer} :
    (typedMachine (.erase T vec) m).1 = .returned true ↔
      ∃ U, m vec = some U ∧ ValueTraits.heapTypeId U = ValueTraits.heapTypeId T := by
  rw [typedMachine, ← Option.map_eq_some_iff]
  split_ifs with hfound <;> simp [hfound]

theorem typedMachine_check {m : TypedMap Ty} {T : Ty} {hndl : Pointer} :
    (typedMachine (.check T hndl) m).1 = .returned true ↔
      ∃ U, m hndl = some U ∧ ValueTraits.heapTypeId U = ValueTraits.heapTypeId T := by
  rw [typedMachine, ← Option.map_eq_some_iff]
  simp

/-- The heap, told by its answers alone: null is never stored, an insert succeeds where nothing
is stored, an erase where the id is the one stored, a check where the latest success was an
insert under that id, and a failed call changes no later answer. -/
theorem heap_refines_typedMap (delete : Pointer → ω → ω) (calls : List (HeapCall Ty)) (w : ω) :
    let log := transcript (heapMachine delete) calls (.empty, w)
    let s := after (heapMachine delete) calls (.empty, w)
    (∀ p, s.1.mPointers.lookup p = (stored log p).map ValueTraits.heapTypeId) ∧
    s.1.mPointers.lookup nullptr = none ∧
    (∀ (T : Ty) vec allocates, (heapMachine delete (.insert T vec allocates) s).1 = .returned true ↔
      vec ≠ nullptr ∧ stored log vec = none ∧ allocates = true) ∧
    (∀ (T : Ty) vec, (heapMachine delete (.erase T vec) s).1 = .returned true ↔
      ∃ U, stored log vec = some U ∧ ValueTraits.heapTypeId U = ValueTraits.heapTypeId T) ∧
    (∀ call : HeapCall Ty, (heapMachine delete call s).1 ≠ .returned true →
      ∀ later : List (HeapCall Ty),
        transcript (heapMachine delete) later (heapMachine delete call s).2 =
          transcript (heapMachine delete) later s) ∧
    (∀ (T : Ty) hndl, (heapMachine delete (.check T hndl) s).1 = .returned true ↔
      ∃ U allocates, latestSuccess hndl log = some (.insert U hndl allocates) ∧
        ValueTraits.heapTypeId U = ValueTraits.heapTypeId T) ∧
    (Function.Injective (ValueTraits.heapTypeId : Ty → UInt8) → ∀ hndl (T U : Ty),
      (heapMachine delete (.check T hndl) s).1 = .returned true →
      (heapMachine delete (.check U hndl) s).1 = .returned true → T = U) := by
  intro log s
  obtain ⟨hrep, hnull⟩ := heap_represents delete calls w
  change Represents s (stored log) at hrep
  have hanswer : ∀ call : HeapCall Ty,
      (heapMachine delete call s).1 = (typedMachine call (stored log)).1 :=
    fun call => (heap_simulates delete call s (stored log) hrep).1
  have hcheck : ∀ (T : Ty) hndl, (heapMachine delete (.check T hndl) s).1 = .returned true ↔
      ∃ U, stored log hndl = some U ∧ ValueTraits.heapTypeId U = ValueTraits.heapTypeId T := by
    intro T hndl
    rw [hanswer]
    exact typedMachine_check
  refine ⟨hrep, ?_, ?_, ?_, ?_, ?_, ?_⟩
  · rw [hrep nullptr, hnull]
    rfl
  · intro T vec allocates
    rw [hanswer]
    exact typedMachine_insert
  · intro T vec
    rw [hanswer]
    exact typedMachine_erase
  · intro call hfailed later
    exact heap_failed delete hrep hfailed later
  · intro T hndl
    rw [hcheck]
    constructor
    · rintro ⟨U, hstored, hid⟩
      obtain ⟨allocates, hlatest⟩ := stored_eq_some_iff.mp hstored
      exact ⟨U, allocates, hlatest, hid⟩
    · rintro ⟨U, allocates, hlatest, hid⟩
      exact ⟨U, stored_eq_some_iff.mpr ⟨allocates, hlatest⟩, hid⟩
  · intro hinj hndl T U hT hU
    obtain ⟨V, hV, hVT⟩ := (hcheck T hndl).mp hT
    obtain ⟨V', hV', hVU⟩ := (hcheck U hndl).mp hU
    rw [hV] at hV'
    cases hV'
    exact (hinj hVT).symm.trans (hinj hVU)

/-- Stored under one type, refused under another, and, erased with a failed retry, stored
again under the other: a handle is valid for one type at a time. -/
theorem heap_refines_typedMap_reinserted :
    let calls : List (HeapCall Bool) := [.insert true 5 true, .insert false 5 true,
      .insert true 5 false, .erase false 5, .erase true 5, .insert false 5 true]
    let machine : HeapCall Bool → SharedValueHeap × Unit → Answer × (SharedValueHeap × Unit) :=
      heapMachine fun _ w => w
    let log := transcript machine calls (.empty, ())
    let s := after machine calls (.empty, ())
    log.map (·.2) = [.returned true, .returned false, .stopped (.throws .badAlloc),
      .returned false, .returned true, .returned true] ∧
    s.1.mPointers.lookup 5 = some (ValueTraits.heapTypeId false) ∧
    (machine (.erase true 5) s).1 ≠ .returned true ∧
    (machine (.insert true 5 true) s).1 ≠ .returned true ∧
    transcript machine calls (machine (.erase true 5) s).2 = transcript machine calls s ∧
    (machine (.check false 5) s).1 = .returned true ∧
    ∀ T : Bool, (machine (.check T 5) s).1 = .returned true → T = false := by
  intro calls machine log s
  obtain ⟨hstored, -, hinsert, herase, hfailed, hcheck, hunique⟩ :=
    heap_refines_typedMap (fun _ w => w) calls ()
  have hlatest : stored log 5 = some false := rfl
  have hrefused : (machine (.erase true 5) s).1 ≠ .returned true := by
    rw [ne_eq, herase]
    rintro ⟨U, hU, hid⟩
    rw [hlatest] at hU
    cases hU
    exact absurd hid (by decide)
  have hvalid : (machine (.check false 5) s).1 = .returned true :=
    (hcheck false 5).mpr ⟨false, true, rfl, rfl⟩
  refine ⟨rfl, ?_, hrefused, ?_, hfailed _ hrefused calls, hvalid, ?_⟩
  · rw [hstored, hlatest]
    rfl
  · rw [ne_eq, hinsert, hlatest]
    exact fun h => Option.some_ne_none false h.2.1
  · exact fun T hT => hunique heapTypeId_injective 5 T false hT hvalid

end Refinement

end PdkHeaders.ValueHeap
