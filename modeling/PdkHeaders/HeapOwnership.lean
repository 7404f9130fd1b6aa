import PdkHeaders.ValueHeap

set_option autoImplicit false

/-!
# What the heap owns

Vector objects have identities of their own, since an address is used again once its object is
deleted. The heap deletes each object it accepted exactly once.
-/
namespace PdkHeaders.HeapOwnership
open PdkHeaders.Library.Execution PdkHeaders.SyscallsCommon PdkHeaders.VmVector
open PdkHeaders.ValueHeap

structure VectorObject (Ty : Type) where
  id : ℕ
  type : Ty
  deriving DecidableEq, Repr

/-- The live objects by address. The lists note the objects that a successful insert handed
over, and those that the heap deleted, in order. -/
structure Objects (Ty : Type) where
  object : Pointer → Option (VectorObject Ty)
  nextId : ℕ
  accepted : List ℕ
  deleted : List ℕ

abbrev World (Ty : Type) := SharedValueHeap × Objects Ty

section Events
variable {Ty : Type} [ValueTraits Ty]

/-- Deleting an address without a live object is undefined, a null pointer apart. -/
def Objects.delete (vec : Pointer) : Exec (Objects Ty) Unit := do
  if vec ≠ nullptr then
    match (← get).object vec with
    | none => fault .badAccess
    | some obj => modify fun w =>
      { w with object := Function.update w.object vec none, deleted := w.deleted ++ [obj.id] }

def insertVec (T : Ty) (vec : Pointer) (allocates : Bool) : Exec (World Ty) Bool := do
  let accepted ← insert T vec allocates
  if accepted then
    modify fun s =>
      (s.1, { s.2 with accepted := s.2.accepted ++ (s.2.object vec).toList.map (·.id) })
  return accepted

/-- What happens to a heap and its objects. The first two are somebody else's doing. -/
inductive HeapEvent (Ty : Type) where
  | create (T : Ty) (vec : Pointer)
  | release (vec : Pointer)
  | insert (T : Ty) (vec : Pointer) (allocates : Bool)
  | erase (T : Ty) (vec : Pointer)
  deriving DecidableEq, Repr

/-- A caller outlives a refused allocation. -/
def HeapEvent.run : HeapEvent Ty → Exec (World Ty) Unit
  | .create T vec => modify fun s =>
    (s.1, { s.2 with
      object := Function.update s.2.object vec (some ⟨s.2.nextId, T⟩), nextId := s.2.nextId + 1 })
  | .release vec => modify fun s =>
    (s.1, { s.2 with object := Function.update s.2.object vec none })
  | .insert T vec allocates => catchAll (do let _ ← insertVec T vec allocates) fun _ => pure ()
  | .erase T vec => do let _ ← ValueHeap.erase Objects.delete T vec

/-- An address is given out when it is free, others delete only what the heap did not accept,
and an inserted pointer is null or a live object as promised for its static type. -/
def HeapEvent.Allowed (promise : Ty → VectorObject Ty → Prop) : HeapEvent Ty → World Ty → Prop
  | .create _ vec, s => vec ≠ nullptr ∧ s.2.object vec = none
  | .release vec, s => ∃ obj, s.2.object vec = some obj ∧ obj.id ∉ s.2.accepted
  | .insert T vec _, s => vec = nullptr ∨ ∃ obj, s.2.object vec = some obj ∧ promise T obj
  | .erase _ _, _ => True

def World.init : World Ty := (.empty, ⟨fun _ => none, 0, [], []⟩)

inductive Reachable (promise : Ty → VectorObject Ty → Prop) : World Ty → Prop where
  | init : Reachable promise World.init
  | step {s u : World Ty} {event : HeapEvent Ty} (h : Reachable promise s)
      (hallowed : event.Allowed promise s) (hrun : event.run.run s = .ok () u) :
      Reachable promise u

end Events

section Removal
variable {Ty : Type} {w : Objects Ty}

theorem object_of_remove {vec p : Pointer} {obj : VectorObject Ty}
    (h : Function.update w.object vec none p = some obj) : p ≠ vec ∧ w.object p = some obj := by
  by_cases hp : p = vec
  · rw [hp, Function.update_self] at h
    cases h
  · rw [Function.update_of_ne hp] at h
    exact ⟨hp, h⟩

theorem remove_of_none {p : Pointer} (h : w.object p = none) (vec : Pointer) :
    Function.update w.object vec none p = none := by
  by_cases hp : p = vec
  · rw [hp, Function.update_self]
  · rw [Function.update_of_ne hp, h]

theorem delete_run {vec : Pointer} {obj : VectorObject Ty} (hnull : w.object nullptr = none)
    (hobj : w.object vec = some obj) : (Objects.delete vec).run w = .ok () { w with
      object := Function.update w.object vec none, deleted := w.deleted ++ [obj.id] } := by
  have hvec : vec ≠ nullptr := by
    intro hvec
    rw [hvec, hnull] at hobj
    cases hobj
  simp only [Objects.delete, hvec, ne_eq, not_false_eq_true, ↓reduceIte, EStateM.run_bind,
    EStateM.run_get, hobj, EStateM.run_modify]

end Removal

section Invariant
variable {Ty : Type} [ValueTraits Ty]

/-- The heap owns what it accepted and has not deleted: its entries are live objects that
were accepted, every such object has an entry, and no identity is used twice. -/
structure Owns (promise : Ty → VectorObject Ty → Prop) (heap : SharedValueHeap)
    (w : Objects Ty) : Prop where
  nullFree : w.object nullptr = none
  live : ∀ vec obj, w.object vec = some obj → obj.id < w.nextId ∧ obj.id ∉ w.deleted
  apart : ∀ vec vec' obj obj', w.object vec = some obj → w.object vec' = some obj' →
    obj.id = obj'.id → vec = vec'
  entry : ∀ vec i, heap.mPointers.lookup vec = some i → ∃ obj T, w.object vec = some obj ∧
    obj.id ∈ w.accepted ∧ ValueTraits.heapTypeId T = i ∧ promise T obj
  owned : ∀ id ∈ w.accepted, id ∉ w.deleted →
    ∃ vec obj, w.object vec = some obj ∧ obj.id = id ∧ vec ∈ heap.mPointers
  acceptedOld : ∀ id ∈ w.accepted, id < w.nextId
  acceptedOnce : w.accepted.Nodup
  deletedOnce : w.deleted.Nodup
  deletedAccepted : ∀ id ∈ w.deleted, id ∈ w.accepted

variable {promise : Ty → VectorObject Ty → Prop} {heap : SharedValueHeap} {w : Objects Ty}

theorem owns_init : Owns promise .empty (⟨fun _ => none, 0, [], []⟩ : Objects Ty) where
  nullFree := rfl
  live _ _ h := nomatch h
  apart _ _ _ _ h := nomatch h
  entry vec i h := by rw [SharedValueHeap.empty, AList.lookup_empty] at h; cases h
  owned _ h := nomatch h
  acceptedOld _ h := nomatch h
  acceptedOnce := .nil
  deletedOnce := .nil
  deletedAccepted _ h := nomatch h

theorem Owns.mem_object (h : Owns promise heap w) {vec : Pointer} (hmem : vec ∈ heap.mPointers) :
    ∃ obj, w.object vec = some obj ∧ obj.id ∈ w.accepted := by
  obtain ⟨i, hi⟩ := Option.isSome_iff_exists.mp (AList.lookup_isSome.mpr hmem)
  obtain ⟨obj, -, hobj, haccepted, -⟩ := h.entry vec i hi
  exact ⟨obj, hobj, haccepted⟩

theorem Owns.accepted_mem (h : Owns promise heap w) {vec : Pointer} {obj : VectorObject Ty}
    (hobj : w.object vec = some obj) (haccepted : obj.id ∈ w.accepted) :
    vec ∈ heap.mPointers := by
  obtain ⟨vec', obj', hobj', hid, hmem⟩ := h.owned _ haccepted (h.live vec obj hobj).2
  have hvec : vec' = vec := h.apart vec' vec obj' obj hobj' hobj hid
  exact hvec ▸ hmem

theorem Owns.create (h : Owns promise heap w) {vec : Pointer} (hnull : vec ≠ nullptr)
    (hfree : w.object vec = none) (T : Ty) :
    Owns promise heap { w with
      object := Function.update w.object vec (some ⟨w.nextId, T⟩), nextId := w.nextId + 1 } := by
  have hold : ∀ p obj, w.object p = some obj →
      Function.update w.object vec (some ⟨w.nextId, T⟩) p = some obj := by
    intro p obj hobj
    have hp : p ≠ vec := by
      intro hp
      rw [hp, hfree] at hobj
      cases hobj
    rw [Function.update_of_ne hp, hobj]
  have hcases : ∀ p obj, Function.update w.object vec (some ⟨w.nextId, T⟩) p = some obj →
      (p = vec ∧ obj.id = w.nextId) ∨ w.object p = some obj := by
    intro p obj hobj
    by_cases hp : p = vec
    · rw [hp, Function.update_self] at hobj
      cases hobj
      exact .inl ⟨hp, rfl⟩
    · rw [Function.update_of_ne hp] at hobj
      exact .inr hobj
  have hnew : w.nextId ∉ w.deleted := fun hmem =>
    absurd (h.acceptedOld _ (h.deletedAccepted _ hmem)) (Nat.lt_irrefl _)
  constructor
  · exact (Function.update_of_ne (Ne.symm hnull) _ _).trans h.nullFree
  · intro p obj hobj
    rcases hcases p obj hobj with ⟨-, hid⟩ | hobj
    · rw [hid]
      exact ⟨Nat.lt_succ_self _, hnew⟩
    · have hlive := h.live p obj hobj
      exact ⟨Nat.lt_succ_of_lt hlive.1, hlive.2⟩
  · intro p p' obj obj' hobj hobj' hid
    rcases hcases p obj hobj with ⟨hp, hidNew⟩ | hobj <;>
      rcases hcases p' obj' hobj' with ⟨hp', hidNew'⟩ | hobj'
    · exact hp.trans hp'.symm
    · have hlive := (h.live p' obj' hobj').1
      omega
    · have hlive := (h.live p obj hobj).1
      omega
    · exact h.apart p p' obj obj' hobj hobj' hid
  · intro p i hi
    obtain ⟨obj, U, hobj, hrest⟩ := h.entry p i hi
    exact ⟨obj, U, hold p obj hobj, hrest⟩
  · intro id haccepted hdeleted
    obtain ⟨p, obj, hobj, hrest⟩ := h.owned id haccepted hdeleted
    exact ⟨p, obj, hold p obj hobj, hrest⟩
  · exact fun id haccepted => Nat.lt_succ_of_lt (h.acceptedOld id haccepted)
  · exact h.acceptedOnce
  · exact h.deletedOnce
  · exact h.deletedAccepted

theorem Owns.release (h : Owns promise heap w) {vec : Pointer} {obj : VectorObject Ty}
    (hobj : w.object vec = some obj) (hforeign : obj.id ∉ w.accepted) :
    Owns promise heap { w with object := Function.update w.object vec none } := by
  have hold : ∀ p obj', w.object p = some obj' → obj'.id ∈ w.accepted →
      Function.update w.object vec none p = some obj' := by
    intro p obj' hobj' haccepted
    have hp : p ≠ vec := by
      intro hp
      rw [hp, hobj] at hobj'
      cases hobj'
      exact hforeign haccepted
    rw [Function.update_of_ne hp, hobj']
  constructor
  · exact remove_of_none h.nullFree vec
  · exact fun p obj' hobj' => h.live p obj' (object_of_remove hobj').2
  · exact fun p p' obj₁ obj₂ h₁ h₂ =>
      h.apart p p' obj₁ obj₂ (object_of_remove h₁).2 (object_of_remove h₂).2
  · intro p i hi
    obtain ⟨obj', U, hobj', haccepted, hrest⟩ := h.entry p i hi
    exact ⟨obj', U, hold p obj' hobj' haccepted, haccepted, hrest⟩
  · intro id haccepted hdeleted
    obtain ⟨p, obj', hobj', rfl, hmem⟩ := h.owned id haccepted hdeleted
    exact ⟨p, obj', hold p obj' hobj' haccepted, rfl, hmem⟩
  · exact h.acceptedOld
  · exact h.acceptedOnce
  · exact h.deletedOnce
  · exact h.deletedAccepted

theorem Owns.accept (h : Owns promise heap w) {T : Ty} {vec : Pointer} {obj : VectorObject Ty}
    (hobj : w.object vec = some obj) (hpromise : promise T obj)
    (hfree : heap.mPointers.lookup vec = none) :
    Owns promise ⟨heap.mPointers.insert vec (ValueTraits.heapTypeId T)⟩
      { w with accepted := w.accepted ++ [obj.id] } := by
  have hmem : ∀ p, p ∈ heap.mPointers.insert vec (ValueTraits.heapTypeId T) ↔
      p = vec ∨ p ∈ heap.mPointers := fun p => AList.mem_insert _
  have hnew : obj.id ∉ w.accepted := by
    intro haccepted
    exact absurd (h.accepted_mem hobj haccepted) (AList.lookup_eq_none.mp hfree)
  constructor
  · exact h.nullFree
  · exact h.live
  · exact h.apart
  · intro p i hi
    by_cases hp : p = vec
    · subst hp
      have hid : some (ValueTraits.heapTypeId T) = some i := (AList.lookup_insert _).symm.trans hi
      exact ⟨obj, T, hobj, by simp, Option.some.inj hid, hpromise⟩
    · obtain ⟨obj', U, hobj', haccepted, hrest⟩ :=
        h.entry p i ((AList.lookup_insert_ne hp).symm.trans hi)
      exact ⟨obj', U, hobj', List.mem_append_left _ haccepted, hrest⟩
  · intro id haccepted hdeleted
    rcases List.mem_append.mp haccepted with hold | hlast
    · obtain ⟨p, obj', hobj', hid, hp⟩ := h.owned id hold hdeleted
      exact ⟨p, obj', hobj', hid, (hmem p).mpr (.inr hp)⟩
    · rw [List.mem_singleton.mp hlast]
      exact ⟨vec, obj, hobj, rfl, (hmem vec).mpr (.inl rfl)⟩
  · intro id haccepted
    rcases List.mem_append.mp haccepted with hold | hlast
    · exact h.acceptedOld id hold
    · rw [List.mem_singleton.mp hlast]
      exact (h.live vec obj hobj).1
  · exact List.nodup_append.mpr ⟨h.acceptedOnce, List.nodup_singleton _, by
      intro id hid id' hid' heq
      rw [heq, List.mem_singleton.mp hid'] at hid
      exact hnew hid⟩
  · exact h.deletedOnce
  · exact fun id hdeleted => List.mem_append_left _ (h.deletedAccepted id hdeleted)

theorem Owns.delete (h : Owns promise heap w) {vec : Pointer} {obj : VectorObject Ty}
    (hobj : w.object vec = some obj) (haccepted : obj.id ∈ w.accepted) :
    Owns promise ⟨heap.mPointers.erase vec⟩ { w with
      object := Function.update w.object vec none, deleted := w.deleted ++ [obj.id] } := by
  have hlive := h.live vec obj hobj
  constructor
  · exact remove_of_none h.nullFree vec
  · intro p obj' hobj'
    obtain ⟨hp, hobj'⟩ := object_of_remove hobj'
    have hlive' := h.live p obj' hobj'
    refine ⟨hlive'.1, fun hdeleted => ?_⟩
    rcases List.mem_append.mp hdeleted with hold | hlast
    · exact hlive'.2 hold
    · exact hp (h.apart p vec obj' obj hobj' hobj (List.mem_singleton.mp hlast))
  · exact fun p p' obj₁ obj₂ h₁ h₂ =>
      h.apart p p' obj₁ obj₂ (object_of_remove h₁).2 (object_of_remove h₂).2
  · intro p i hi
    have hp : p ≠ vec := by
      intro hp
      subst hp
      cases (AList.lookup_erase _ _).symm.trans hi
    obtain ⟨obj', U, hobj', hrest⟩ := h.entry p i ((AList.lookup_erase_ne hp).symm.trans hi)
    exact ⟨obj', U, (Function.update_of_ne hp _ _).trans hobj', hrest⟩
  · intro id hid hdeleted
    rw [List.mem_append, not_or, List.mem_singleton] at hdeleted
    obtain ⟨p, obj', hobj', rfl, hp⟩ := h.owned id hid hdeleted.1
    have hne : p ≠ vec := by
      intro hp
      subst hp
      rw [hobj] at hobj'
      cases hobj'
      exact hdeleted.2 rfl
    refine ⟨p, obj', (Function.update_of_ne hne _ _).trans hobj', rfl, ?_⟩
    exact AList.mem_erase.mpr ⟨hne, hp⟩
  · exact h.acceptedOld
  · exact h.acceptedOnce
  · exact List.nodup_append.mpr ⟨h.deletedOnce, List.nodup_singleton _, by
      intro id hid id' hid' heq
      rw [heq, List.mem_singleton.mp hid'] at hid
      exact hlive.2 hid⟩
  · intro id hdeleted
    rcases List.mem_append.mp hdeleted with hold | hlast
    · exact h.deletedAccepted id hold
    · rw [List.mem_singleton.mp hlast]
      exact haccepted

end Invariant

section Steps
variable {Ty : Type} [ValueTraits Ty] {promise : Ty → VectorObject Ty → Prop} {s : World Ty}

theorem erase_owns (h : Owns promise s.1 s.2) (T : Ty) (vec : Pointer) :
    ∃ found u, (ValueHeap.erase Objects.delete T vec).run s = .ok found u ∧
      Owns promise u.1 u.2 ∧ u.2.accepted = s.2.accepted ∧
      (found = true → ∃ obj, s.2.object vec = some obj ∧
        u.2.deleted = s.2.deleted ++ [obj.id]) ∧
      (found = false → u = s) := by
  by_cases hfound : s.1.mPointers.lookup vec = some (ValueTraits.heapTypeId T)
  · obtain ⟨obj, -, hobj, haccepted, -⟩ := h.entry vec _ hfound
    have hrun := erase_found (w := s.2) Objects.delete hfound
    rw [delete_run h.nullFree hobj] at hrun
    exact ⟨true, _, hrun, h.delete hobj haccepted, rfl, fun _ => ⟨obj, hobj, rfl⟩, nofun⟩
  · exact ⟨false, s, erase_refused _ hfound, h, rfl, nofun, fun _ => rfl⟩

/-- Refused, out of memory, or handed over to a free entry. -/
theorem insertVec_cases (T : Ty) (vec : Pointer) (allocates : Bool) (s : World Ty) :
    (insertVec T vec allocates).run s = .ok false s ∨
    (insertVec T vec allocates).run s = .error (.throws .badAlloc) s ∨
    (vec ≠ nullptr ∧ s.1.mPointers.lookup vec = none ∧ (insertVec T vec allocates).run s =
      .ok true (⟨s.1.mPointers.insert vec (ValueTraits.heapTypeId T)⟩, { s.2 with
        accepted := s.2.accepted ++ (s.2.object vec).toList.map (·.id) })) := by
  have hinsert := insert_run T vec allocates s
  by_cases hnull : vec = nullptr
  · rw [if_pos hnull] at hinsert
    exact .inl (by rw [insertVec, bind_ok hinsert]; rfl)
  · rw [if_neg hnull] at hinsert
    cases allocates with
    | false => exact .inr (.inl (by rw [insertVec, bind_error hinsert]))
    | true =>
      rw [if_neg Bool.true_eq_false.mp] at hinsert
      by_cases hstored : s.1.mPointers.lookup vec ≠ none
      · rw [if_pos hstored] at hinsert
        exact .inl (by rw [insertVec, bind_ok hinsert]; rfl)
      · rw [if_neg hstored] at hinsert
        exact .inr (.inr ⟨hnull, not_not.mp hstored, by rw [insertVec, bind_ok hinsert]; rfl⟩)

theorem insertVec_owns (h : Owns promise s.1 s.2) {T : Ty} {vec : Pointer}
    (hlive : vec = nullptr ∨ ∃ obj, s.2.object vec = some obj ∧ promise T obj)
    (allocates : Bool) :
    ((insertVec T vec allocates).run s = .ok false s) ∨
    ((insertVec T vec allocates).run s = .error (.throws .badAlloc) s) ∨
    ∃ u, (insertVec T vec allocates).run s = .ok true u ∧ Owns promise u.1 u.2 := by
  rcases insertVec_cases T vec allocates s with hrun | hrun | ⟨hnull, hfree, hrun⟩
  · exact .inl hrun
  · exact .inr (.inl hrun)
  · obtain ⟨obj, hobj, hpromise⟩ := hlive.resolve_left hnull
    refine .inr (.inr ⟨_, hrun, ?_⟩)
    have haccept := h.accept hobj hpromise hfree
    simpa only [hobj, Option.toList_some, List.map_cons, List.map_nil] using haccept

/-- No allowed event faults, and each keeps what the heap owns. -/
theorem run_owns (h : Owns promise s.1 s.2) {event : HeapEvent Ty}
    (hallowed : event.Allowed promise s) :
    ∃ u, event.run.run s = .ok () u ∧ Owns promise u.1 u.2 := by
  cases event with
  | create T vec => exact ⟨_, rfl, h.create hallowed.1 hallowed.2 T⟩
  | release vec =>
    obtain ⟨obj, hobj, hforeign⟩ := hallowed
    exact ⟨_, rfl, h.release hobj hforeign⟩
  | insert T vec allocates =>
    rcases insertVec_owns h hallowed allocates with hrun | hrun | ⟨u, hrun, hu⟩
    · exact ⟨s, catchAll_ok (by rw [bind_ok hrun]; rfl), h⟩
    · exact ⟨s, by rw [HeapEvent.run, catchAll_throws (bind_error hrun)]; rfl, h⟩
    · exact ⟨u, catchAll_ok (by rw [bind_ok hrun]; rfl), hu⟩
  | erase T vec =>
    obtain ⟨found, u, hrun, hu, -⟩ := erase_owns h T vec
    exact ⟨u, by rw [HeapEvent.run, bind_ok hrun]; rfl, hu⟩

theorem reachable_owns (h : Reachable promise s) : Owns promise s.1 s.2 := by
  induction h with
  | init => exact owns_init
  | step _ hallowed hrun ih =>
    obtain ⟨u, hu, howns⟩ := run_owns ih hallowed
    rw [hrun] at hu
    cases hu
    exact howns

def Stored (id : ℕ) (heap : SharedValueHeap) (w : Objects Ty) : Prop :=
  ∃ vec obj, w.object vec = some obj ∧ obj.id = id ∧ vec ∈ heap.mPointers

/-- A part of the destructor's sweep. The map keeps its entries meanwhile: `left` has those that
are still to be deleted. -/
theorem sweep_owns (heap : SharedValueHeap) (order rest : List Pointer) {left : SharedValueHeap}
    {w : Objects Ty} (h : Owns promise left w)
    (hleft : ∀ vec, vec ∈ left.mPointers ↔ vec ∈ order ++ rest)
    (hnodup : (order ++ rest).Nodup) :
    ∃ left' v, (sweep Objects.delete order).run (heap, w) = .ok () (heap, v) ∧
      Owns promise left' v ∧ v.accepted = w.accepted ∧
      ∀ vec, vec ∈ left'.mPointers ↔ vec ∈ rest := by
  induction order generalizing left w with
  | nil => exact ⟨left, w, rfl, h, rfl, hleft⟩
  | cons vec order ih =>
    rw [List.cons_append, List.nodup_cons] at hnodup
    obtain ⟨obj, hobj, haccepted⟩ := h.mem_object ((hleft vec).mpr List.mem_cons_self)
    have hdelete := deleteVec_ok (delete_run h.nullFree hobj) heap
    have hnext : ∀ p, p ∈ left.mPointers.erase vec ↔ p ∈ order ++ rest := by
      intro p
      rw [AList.mem_erase, hleft, List.cons_append, List.mem_cons]
      constructor
      · rintro ⟨hne, hp | hp⟩
        · exact absurd hp hne
        · exact hp
      · exact fun hp => ⟨fun hvec => hnodup.1 (hvec ▸ hp), .inr hp⟩
    obtain ⟨left', v, hrun, hv, hsame, hrest⟩ := ih (h.delete hobj haccepted) hnext hnodup.2
    exact ⟨left', v, runAll_cons_ok.mpr ⟨_, hdelete, hrun⟩, hv, hsame, hrest⟩

/-- The heap deletes every object it accepted exactly once, by the erase that succeeds on it or
in the destructor, whatever the order of its sweep; until then the object is live and stored.
It deletes nothing else. -/
theorem deleted_exactly_once (h : Reachable (fun _ _ => True) s) :
    (∀ event : HeapEvent Ty, event.Allowed (fun _ _ => True) s →
      ∃ u, event.run.run s = .ok () u) ∧
    (∀ (T : Ty) vec, ∃ found u, (ValueHeap.erase Objects.delete T vec).run s = .ok found u ∧
      (found = true → ∃ obj, s.2.object vec = some obj ∧
        u.2.deleted = s.2.deleted ++ [obj.id]) ∧
      (found = false → u = s)) ∧
    s.2.accepted.Nodup ∧ s.2.deleted.Nodup ∧ (∀ id ∈ s.2.deleted, id ∈ s.2.accepted) ∧
    (∀ id ∈ s.2.accepted, id ∉ s.2.deleted → Stored id s.1 s.2) ∧
    ∀ order rest : List Pointer, (order ++ rest).Perm s.1.mPointers.keys → ∃ v w,
      (sweep Objects.delete order).run s = .ok () (s.1, v) ∧
      v.deleted.Nodup ∧ (∀ id ∈ v.deleted, id ∈ s.2.accepted) ∧
      (∀ id ∈ s.2.accepted, id ∉ v.deleted → Stored id s.1 v) ∧
      (sweep Objects.delete (order ++ rest)).run s = .ok () (s.1, w) ∧
      w.deleted.Perm s.2.accepted := by
  have howns := reachable_owns h
  refine ⟨?_, ?_, howns.acceptedOnce, howns.deletedOnce, howns.deletedAccepted, howns.owned, ?_⟩
  · intro event hallowed
    obtain ⟨u, hu, -⟩ := run_owns howns hallowed
    exact ⟨u, hu⟩
  · intro T vec
    obtain ⟨found, u, hrun, -, -, hfound, hrefused⟩ := erase_owns howns T vec
    exact ⟨found, u, hrun, hfound, hrefused⟩
  · intro order rest hperm
    have hnodup : (order ++ rest).Nodup := hperm.nodup_iff.mpr s.1.mPointers.keys_nodup
    have hkeys : ∀ vec, vec ∈ s.1.mPointers ↔ vec ∈ order ++ rest :=
      fun vec => AList.mem_keys.trans hperm.mem_iff.symm
    obtain ⟨left, v, hrun, hv, hsame, hrest⟩ :=
      sweep_owns s.1 order rest howns hkeys hnodup
    obtain ⟨none', w, hlast, hw, hsame', hnone⟩ := sweep_owns s.1 rest [] hv
      (by simpa using hrest) (by simpa using (List.nodup_append.mp hnodup).2.1)
    refine ⟨v, w, hrun, hv.deletedOnce, ?_, ?_, ?_, ?_⟩
    · exact fun id hid => hsame ▸ hv.deletedAccepted id hid
    · intro id haccepted hdeleted
      obtain ⟨vec, obj, hobj, hid, hmem⟩ := hv.owned id (hsame ▸ haccepted) hdeleted
      exact ⟨vec, obj, hobj, hid, (hkeys vec).mpr (List.mem_append_right _ ((hrest vec).mp hmem))⟩
    · exact (runAll_append_ok order rest).mpr ⟨_, hrun, hlast⟩
    · rw [← hsame, ← hsame']
      refine (List.perm_ext_iff_of_nodup hw.deletedOnce hw.acceptedOnce).mpr fun id => ?_
      refine ⟨hw.deletedAccepted id, fun haccepted => ?_⟩
      by_contra hdeleted
      -- no entry is left to hold the object
      obtain ⟨vec, -, -, -, hmem⟩ := hw.owned id haccepted hdeleted
      exact absurd ((hnone vec).mp hmem) List.not_mem_nil

end Steps

section Instances
open PdkHeaders.Library.Hoare

def insertedOnce : World Bool :=
  finalState ((HeapEvent.insert true 5 true).run.run
    (finalState ((HeapEvent.create true 5).run.run World.init)))

theorem insertedOnce_reachable {promise : Bool → VectorObject Bool → Prop}
    (h : promise true ⟨0, true⟩) : Reachable promise insertedOnce := by
  have hcreate : (HeapEvent.create true 5).Allowed promise World.init := ⟨by decide, rfl⟩
  have hinsert : (HeapEvent.insert true 5 true).Allowed promise
      (finalState ((HeapEvent.create true 5).run.run World.init)) := .inr ⟨⟨0, true⟩, rfl, h⟩
  exact .step (.step .init hcreate rfl) hinsert rfl

/-- The vector at address 5 is erased, and the address used again for a vector of the other type.
The vector at address 6 stays with its owner, as there is no memory for its entry. -/
def reusedAddress : World Bool :=
  [.erase false 5, .erase true 5, .create false 5, .insert false 5 true, .create true 6,
    .insert true 6 false].foldl
    (fun w (event : HeapEvent Bool) => finalState (event.run.run w)) insertedOnce

theorem Reachable.next {promise : Bool → VectorObject Bool → Prop} {s : World Bool}
    (h : Reachable promise s) (event : HeapEvent Bool) (hallowed : event.Allowed promise s)
    (hrun : event.run.run s = .ok () (finalState (event.run.run s))) :
    Reachable promise (finalState (event.run.run s)) := .step h hallowed hrun

theorem reusedAddress_reachable {promise : Bool → VectorObject Bool → Prop}
    (h : ∀ id T, promise T ⟨id, T⟩) : Reachable promise reusedAddress := by
  have hrefused := (insertedOnce_reachable (h 0 true)).next (.erase false 5) trivial rfl
  have herased := hrefused.next (.erase true 5) trivial rfl
  have hcreated := herased.next (.create false 5) ⟨by decide, rfl⟩ rfl
  have hinserted := hcreated.next (.insert false 5 true) (.inr ⟨⟨1, false⟩, rfl, h 1 false⟩) rfl
  have hother := hinserted.next (.create true 6) ⟨by decide, rfl⟩ rfl
  exact hother.next (.insert true 6 false) (.inr ⟨⟨2, true⟩, rfl, h 2 true⟩) rfl

/-- The erase deleted the first vector, the destructor deletes the second, and neither the third. -/
theorem deleted_exactly_once_reused :
    reusedAddress.2.deleted = [0] ∧ Stored 1 reusedAddress.1 reusedAddress.2 ∧
      (∃ found u, (ValueHeap.erase Objects.delete true 5).run reusedAddress = .ok found u ∧
        found = false ∧ u = reusedAddress) ∧
      ∃ w, (sweep Objects.delete [5]).run reusedAddress = .ok () (reusedAddress.1, w) ∧
        w.deleted.Perm [0, 1] := by
  obtain ⟨-, herase, -, -, -, hstored, hsweep⟩ :=
    deleted_exactly_once (reusedAddress_reachable fun _ _ => trivial)
  refine ⟨rfl, hstored 1 (by decide) (by decide), ?_, ?_⟩
  · obtain ⟨found, u, hrun, -, hrefused⟩ := herase true 5
    have hfound : found = false := by
      cases hrun
      rfl
    exact ⟨found, u, hrun, hfound, hrefused hfound⟩
  · obtain ⟨-, w, -, -, -, -, hrun, hdeleted⟩ := hsweep [5] [] (by decide)
    exact ⟨w, hrun, hdeleted⟩

end Instances

end PdkHeaders.HeapOwnership
