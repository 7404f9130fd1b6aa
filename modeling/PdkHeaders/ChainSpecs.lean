import PdkHeaders.IteratorChain
import PdkHeaders.Library.Paths

set_option autoImplicit false

/-!
# What the chain operations do

A chain holds the items on the path from its head. Each operation changes one chain, and says
which items that chain holds afterwards.
-/
namespace PdkHeaders.ChainSpecs
open PdkHeaders.Library.Execution PdkHeaders.Library.Stores PdkHeaders.Library.Paths
open PdkHeaders.IteratorChain

abbrev Items (Iter : Type) := List (ℕ × ChainItem Iter)

section Holds
variable {Iter : Type}

def NextPath (w : World Iter) : Option ℕ → Items Iter → Option ℕ → Prop :=
  Path w.items.cell (·.next)

/-- The chain leads from its head along `next` through these items, to its tail. -/
def Holds (w : World Iter) (c : ℕ) (items : Items Iter) : Prop :=
  ∃ chain, w.chain c = some chain ∧ NextPath w chain.mBegin items none ∧
    chain.mEnd = (addresses items).getLast?

variable {w u : World Iter} {c d : ℕ} {items items' : Items Iter}

theorem Holds.unique (h : Holds w c items) (h' : Holds w c items') : items = items' := by
  obtain ⟨chain, hchain, hpath, -⟩ := h
  obtain ⟨chain', hchain', hpath', -⟩ := h'
  rw [hchain] at hchain'
  cases hchain'
  exact hpath.unique hpath'

theorem Holds.chain_of_cons {n : ℕ} {a : ChainItem Iter} (h : Holds w c ((n, a) :: items)) :
    ∃ last, w.chain c = some ⟨some n, some last⟩ ∧
      NextPath w (some n) ((n, a) :: items) none := by
  obtain ⟨⟨first, last⟩, hchain, hpath, hlast⟩ := h
  obtain rfl : first = some n := hpath.start_of_cons
  rw [addresses_cons, List.getLast?_cons] at hlast
  obtain rfl : last = some _ := hlast
  exact ⟨_, hchain, hpath⟩

theorem Holds.live (h : Holds w c items) : w.chain c ≠ none := by
  obtain ⟨chain, hchain, -⟩ := h
  rw [hchain]
  simp

theorem Holds.nodup (h : Holds w c items) : (addresses items).Nodup := by
  obtain ⟨chain, -, hpath, -⟩ := h
  exact hpath.nodup

theorem Holds.cell_eq (h : Holds w c items) {n : ℕ} {a : ChainItem Iter} (hmem : (n, a) ∈ items) :
    w.items.cell n = some a := by
  obtain ⟨chain, -, hpath, -⟩ := h
  exact hpath.cell_eq hmem

theorem Holds.cell_ne_none (h : Holds w c items) {n : ℕ} (hmem : n ∈ addresses items) :
    w.items.cell n ≠ none := by
  obtain ⟨chain, -, hpath, -⟩ := h
  obtain ⟨a, ha, -⟩ := hpath.cell_of_address hmem
  rw [ha]
  exact Option.some_ne_none a

theorem Holds.lt_bound (h : Holds w c items) {n : ℕ} (hmem : n ∈ addresses items) :
    n < w.items.bound := Store.lt_bound_of_live (h.cell_ne_none hmem)

theorem Holds.length_lt_fuel (h : Holds w c items) : items.length < fuel w := by
  obtain ⟨chain, -, hpath, -⟩ := h
  have hle := hpath.length_le fun _ _ => Store.lt_bound
  unfold fuel
  omega

theorem Holds.frame (h : Holds w c items) (hchain : u.chain c = w.chain c)
    (hcells : ∀ n ∈ addresses items, u.items.cell n = w.items.cell n) : Holds u c items := by
  obtain ⟨chain, hw, hpath, hend⟩ := h
  exact ⟨chain, hchain.trans hw, hpath.frame hcells, hend⟩

end Holds

section Links
variable {Iter : Type} {w : World Iter} {l : Link} {p q : Option ℕ} {n : ℕ} {a : ChainItem Iter}

theorem linkValue_alloc (h : w.linkValue l = some p) : (w.allocItem a).linkValue l = some p := by
  cases l with
  | mBegin c => exact h
  | next n =>
    obtain ⟨item, hitem, rfl⟩ := Option.map_eq_some_iff.mp h
    simp only [World.linkValue, allocItem_items, Store.alloc_of_some hitem, Option.map_some]

theorem setLink_cell (h : l ≠ .next n) : (w.setLink l p).items.cell n = w.items.cell n := by
  cases l with
  | mBegin c => rfl
  | next m =>
    have hne : n ≠ m := fun heq => h (congrArg Link.next heq.symm)
    exact Store.modify_of_ne hne

theorem setLink_next_cell (h : w.items.cell n = some a) :
    (w.setLink (.next n) p).items.cell n = some { a with next := p } := by
  simp [World.setLink, h]

theorem link_lt_bound (h : w.linkValue (.next n) = some p) : n < w.items.bound := by
  obtain ⟨item, hitem, -⟩ := Option.map_eq_some_iff.mp h
  exact Store.lt_bound hitem

theorem setLink_chain_next : (w.setLink (.next n) p).chain = w.chain := rfl

end Links

section Clones
variable {Iter : Type}

/-- Copies of the items at consecutive addresses; only `next` is theirs, all else is the
source's. -/
def clones : ℕ → Items Iter → Items Iter
  | _, [] => []
  | m, (_, a) :: rest =>
    (m, { a with next := if rest.isEmpty then none else some (m + 1) }) :: clones (m + 1) rest

def cloned (w : World Iter) (op : Link) (a : ChainItem Iter) : World Iter :=
  (w.allocItem a).setLink op (some w.items.bound)

variable {w : World Iter} {op ip : Link} {p : Option ℕ} {n k : ℕ} {a : ChainItem Iter}

theorem cloned_bound : (cloned w op a).items.bound = w.items.bound + 1 := by
  simp [cloned]

theorem cloned_op (hop : w.linkValue op = some p) :
    (cloned w op a).linkValue op = some (some w.items.bound) :=
  setLink_self (by rw [linkValue_alloc hop]; rfl)

theorem cloned_self (hop : w.linkValue op = some p) :
    (cloned w op a).items.cell w.items.bound = some a := by
  have hne : op ≠ .next w.items.bound := by
    rintro rfl
    exact absurd (link_lt_bound hop) (Nat.lt_irrefl _)
  rw [cloned, setLink_cell hne]
  exact Store.alloc_self

theorem cloned_of_lt (hk : k < w.items.bound) (hop : op ≠ .next k) :
    (cloned w op a).items.cell k = w.items.cell k := by
  rw [cloned, setLink_cell hop]
  exact Store.alloc_of_lt hk

theorem cloned_chain : (cloned w op a).chain = (w.setLink op (some w.items.bound)).chain := by
  cases op <;> rfl

theorem cloned_cell (hk : k < w.items.bound) :
    (cloned w op a).items.cell k = (w.setLink op (some w.items.bound)).items.cell k := by
  by_cases hop : op = .next k
  · subst hop
    simp [cloned, World.setLink, Store.alloc_of_lt hk]
  · rw [cloned_of_lt hk hop, setLink_cell hop]

/-- Whether the cursors coincide or not, the source cursor still points to an item with the
source's `next`. -/
theorem cloned_ip (hop : w.linkValue op = some p) (hip : w.linkValue ip = some (some n))
    (ha : w.items.cell n = some a) (hsep : op ≠ .next n) :
    ∃ q, (cloned w op a).linkValue ip = some (some q) ∧
      (cloned w op a).linkValue (.next q) = some a.next := by
  by_cases heq : ip = op
  · subst heq
    refine ⟨w.items.bound, cloned_op hop, ?_⟩
    rw [World.linkValue, cloned_self hop]
    rfl
  · refine ⟨n, ?_, ?_⟩
    · rw [cloned, setLink_of_ne heq, linkValue_alloc hip]
    · rw [World.linkValue, cloned_of_lt (Store.lt_bound ha) hsep, ha]
      rfl

/-- A round that does not fail copies the item and moves both cursors on. -/
theorem assignLoop_round (failsAt : Option ℕ) (fuel round : ℕ)
    (hfails : failsAt ≠ some round) (hop : w.linkValue op = some p)
    (hip : w.linkValue ip = some (some n)) (ha : w.items.cell n = some a) (hsep : op ≠ .next n) :
    ∃ q, (cloned w op a).linkValue (.next q) = some a.next ∧
      (assignLoop failsAt (fuel + 1) round op ip).run w =
        (if a.next = none then
          (do
            writeLink (.next (← deref (← readLink op))) none
            return .finished op : Exec (World Iter) LoopExit)
        else do
          assignLoop failsAt fuel (round + 1) (.next (← deref (← readLink op)))
            (.next q)).run (cloned w op a) := by
  obtain ⟨q, hq, hnext⟩ := cloned_ip hop hip ha hsep
  refine ⟨q, hnext, ?_⟩
  rw [assignLoop, if_neg hfails, bind_ok (readLink_run hip), deref_some, pure_bind,
    bind_ok (readItem_run ha), bind_ok (newItem_run w a),
    bind_ok (writeLink_run (linkValue_alloc hop) _)]
  change (readLink ip >>= _).run (cloned w op a) = _
  rw [bind_ok (readLink_run hq), deref_some, pure_bind, bind_ok (readLink_run hnext)]

theorem assignLoop_continues (failsAt : Option ℕ) (fuel round : ℕ)
    (hfails : failsAt ≠ some round) (hop : w.linkValue op = some p)
    (hip : w.linkValue ip = some (some n)) (ha : w.items.cell n = some a) (hsep : op ≠ .next n)
    (hnext : a.next ≠ none) :
    ∃ q, (cloned w op a).linkValue (.next q) = some a.next ∧
      (assignLoop failsAt (fuel + 1) round op ip).run w =
        (assignLoop failsAt fuel (round + 1) (.next w.items.bound) (.next q)).run
          (cloned w op a) := by
  obtain ⟨q, hq, hrun⟩ := assignLoop_round failsAt fuel round hfails hop hip ha hsep
  refine ⟨q, hq, ?_⟩
  rw [hrun, if_neg hnext, bind_ok (readLink_run (cloned_op hop)), deref_some, pure_bind]

theorem assignLoop_last (failsAt : Option ℕ) (fuel round : ℕ)
    (hfails : failsAt ≠ some round) (hop : w.linkValue op = some p)
    (hip : w.linkValue ip = some (some n)) (ha : w.items.cell n = some a) (hsep : op ≠ .next n)
    (hnext : a.next = none) :
    (assignLoop failsAt (fuel + 1) round op ip).run w =
      .ok (.finished op) ((cloned w op a).setLink (.next w.items.bound) none) := by
  obtain ⟨q, hq, hrun⟩ := assignLoop_round failsAt fuel round hfails hop hip ha hsep
  have hself : (cloned w op a).linkValue (.next w.items.bound) = some a.next := by
    rw [World.linkValue, cloned_self hop]
    rfl
  rw [hrun, if_pos hnext, bind_ok (readLink_run (cloned_op hop)), deref_some, pure_bind,
    bind_ok (writeLink_run hself _)]
  rfl

theorem cloned_path {rest : Items Iter} (hrest : NextPath w p rest none)
    (hsep : ∀ k ∈ addresses rest, op ≠ .next k) : NextPath (cloned w op a) p rest none := by
  apply hrest.frame
  intro k hk
  obtain ⟨b, hb, -⟩ := hrest.cell_of_address hk
  exact cloned_of_lt (Store.lt_bound hb) (hsep k hk)

/-- Without failures the loop copies all that is left of the source, and leaves `op` pointing to
the last copy. -/
theorem assignLoop_finishes (rest : Items Iter) (fuel round : ℕ) (hfuel : rest.length < fuel)
    (hop : w.linkValue op = some p) (hip : w.linkValue ip = some (some n))
    (hpath : NextPath w (some n) ((n, a) :: rest) none)
    (hsep : ∀ k ∈ addresses ((n, a) :: rest), op ≠ .next k) :
    ∃ op' u, (assignLoop none fuel round op ip).run w = .ok (.finished op') u ∧
      u.linkValue op' = some (some (w.items.bound + rest.length)) ∧
      u.items.bound = w.items.bound + rest.length + 1 ∧
      u.chain = (w.setLink op (some w.items.bound)).chain ∧
      (∀ k, k < w.items.bound → u.items.cell k =
        (w.setLink op (some w.items.bound)).items.cell k) ∧
      NextPath u (some w.items.bound) (clones w.items.bound ((n, a) :: rest)) none := by
  induction rest generalizing fuel round w op ip p n a with
  | nil =>
    obtain ⟨fuel, rfl⟩ := Nat.exists_eq_succ_of_ne_zero (by omega : fuel ≠ 0)
    have hnext : a.next = none := hpath.2.2
    have hsep' : op ≠ .next n := hsep n (by simp)
    have hbound : op ≠ .next w.items.bound := by
      rintro rfl
      exact absurd (link_lt_bound hop) (Nat.lt_irrefl _)
    refine ⟨op, _, assignLoop_last none fuel round nofun hop hip hpath.2.1 hsep' hnext,
      ?_, ?_, ?_, ?_, ?_⟩
    · rw [setLink_of_ne hbound]
      exact cloned_op hop
    · rw [setLink_bound]
      exact cloned_bound
    · rw [setLink_chain_next, cloned_chain]
    · intro k hk
      have hne : Link.next w.items.bound ≠ .next k := by
        intro heq
        cases heq
        omega
      rw [setLink_cell hne, cloned_cell hk]
    · exact ⟨rfl, setLink_next_cell (cloned_self hop), rfl⟩
  | cons item rest ih =>
    obtain ⟨n', a'⟩ := item
    obtain ⟨fuel, rfl⟩ := Nat.exists_eq_succ_of_ne_zero (by omega : fuel ≠ 0)
    have hnext : a.next = some n' := hpath.2.2.1
    have hsep' : op ≠ .next n := hsep n (by simp)
    obtain ⟨q, hq, hrun⟩ := assignLoop_continues none fuel round nofun hop hip
      hpath.2.1 hsep' (by rw [hnext]; simp)
    have hself := cloned_self (a := a) hop
    have hop' : (cloned w op a).linkValue (.next w.items.bound) = some a.next := by
      rw [World.linkValue, hself]
      rfl
    have hpath' : NextPath (cloned w op a) a.next ((n', a') :: rest) none :=
      cloned_path hpath.2.2 fun k hk => hsep k (List.mem_cons_of_mem _ hk)
    have hold : ∀ k ∈ addresses ((n', a') :: rest), k < w.items.bound := by
      intro k hk
      obtain ⟨b, hb, -⟩ := hpath.2.2.cell_of_address hk
      exact Store.lt_bound hb
    obtain ⟨op', u, hloop, hlast, hbound, hchain, hcells, hcopies⟩ := ih fuel (round + 1)
      (by simp only [List.length_cons] at hfuel; omega) hop' (hnext ▸ hq) (hnext ▸ hpath')
      (fun k hk heq => by cases heq; exact absurd (hold _ hk) (Nat.lt_irrefl _))
    rw [cloned_bound] at hlast hbound hchain hcells hcopies
    refine ⟨op', u, hrun.trans hloop, ?_, ?_, ?_, ?_, rfl, ?_, ?_⟩
    · rw [hlast, List.length_cons]
      congr 2
      omega
    · rw [hbound, List.length_cons]
      omega
    · rw [hchain, setLink_chain_next, cloned_chain]
    · intro k hk
      have hne : Link.next w.items.bound ≠ .next k := by
        intro heq
        cases heq
        omega
      rw [hcells k (by omega), setLink_cell hne, cloned_cell hk]
    · rw [hcells _ (by omega), setLink_next_cell hself]
      rfl
    · exact hcopies

theorem assignLoop_throws_now (fuel round : ℕ) (op ip : Link) (w : World Iter) :
    (assignLoop (some round) (fuel + 1) round op ip).run w = .ok (.threw op) w := by
  rw [assignLoop, if_pos rfl]
  rfl

/-- A later allocation that fails leaves `op` pointing to the link of the last copy, which is
still a copy of the source's link. -/
theorem assignLoop_throws_later (k : ℕ) (rest : Items Iter) (fuel round : ℕ) (hk : k < rest.length)
    (hfuel : rest.length < fuel) (hop : w.linkValue op = some p)
    (hip : w.linkValue ip = some (some n)) (hpath : NextPath w (some n) ((n, a) :: rest) none)
    (hsep : ∀ m ∈ addresses ((n, a) :: rest), op ≠ .next m) :
    ∃ op' u m, (assignLoop (some (round + (k + 1))) fuel round op ip).run w =
      .ok (.threw op') u ∧ u.linkValue op' = some (some m) ∧ m ∈ addresses rest := by
  induction rest generalizing k fuel round w op ip p n a with
  | nil => cases hk
  | cons item rest ih =>
    obtain ⟨n', a'⟩ := item
    obtain ⟨fuel, rfl⟩ := Nat.exists_eq_succ_of_ne_zero (by omega : fuel ≠ 0)
    rw [List.length_cons] at hk hfuel
    have hround : some (round + (k + 1)) ≠ some round := by
      intro heq
      have heq' := Option.some.inj heq
      omega
    have hnext : a.next = some n' := hpath.2.2.1
    obtain ⟨q, hq, hrun⟩ := assignLoop_continues (some (round + (k + 1))) fuel round hround hop
      hip hpath.2.1 (hsep n (by simp)) (by rw [hnext]; simp)
    have hop' : (cloned w op a).linkValue (.next w.items.bound) = some a.next := by
      rw [World.linkValue, cloned_self hop]
      rfl
    cases k with
    | zero =>
      obtain ⟨fuel, rfl⟩ := Nat.exists_eq_succ_of_ne_zero (by omega : fuel ≠ 0)
      refine ⟨_, _, n', hrun.trans (assignLoop_throws_now _ _ _ _ _), ?_, by simp⟩
      rw [hop', hnext]
    | succ k =>
      have hpath' : NextPath (cloned w op a) a.next ((n', a') :: rest) none :=
        cloned_path hpath.2.2 fun m hm => hsep m (List.mem_cons_of_mem _ hm)
      have hold : ∀ m ∈ addresses ((n', a') :: rest), Link.next w.items.bound ≠ .next m := by
        intro m hm heq
        cases heq
        obtain ⟨b, hb, -⟩ := hpath.2.2.cell_of_address hm
        exact absurd (Store.lt_bound hb) (Nat.lt_irrefl _)
      obtain ⟨op', u, m, hloop, hvalue, hmem⟩ := ih k fuel (round + 1) (by omega) (by omega) hop'
        (hnext ▸ hq) (hnext ▸ hpath') hold
      have harith : round + 1 + (k + 1) = round + (k + 1 + 1) := by omega
      rw [harith] at hloop
      exact ⟨op', u, m, hrun.trans hloop, hvalue, List.mem_cons_of_mem _ hmem⟩

end Clones

section Destruction
variable {Iter : Type} {w : World Iter} {start : Option ℕ}

theorem destroyInner_step (fuel : ℕ) {n : ℕ} {a : ChainItem Iter}
    (ha : w.items.cell n = some a) : (destroyInner (fuel + 1) (some n)).run w =
      (destroyInner fuel a.next).run (w.freeItem n) := by
  rw [destroyInner, bind_ok (readItem_run ha), bind_ok (deleteItem_run ha)]

theorem destroyInner_path (items : Items Iter) (fuel : ℕ) (hfuel : items.length < fuel)
    (hpath : NextPath w start items none) :
    ∃ u, (destroyInner fuel start).run w = .ok () u ∧ u.chain = w.chain ∧
      u.items.bound = w.items.bound ∧
      (∀ k, k ∉ addresses items → u.items.cell k = w.items.cell k) ∧
      ∀ k ∈ addresses items, u.items.cell k = none := by
  induction items generalizing fuel w start with
  | nil =>
    have hstart : start = none := hpath
    subst hstart
    cases fuel <;> exact ⟨w, rfl, rfl, rfl, fun _ _ => rfl, nofun⟩
  | cons item items ih =>
    obtain ⟨n, a⟩ := item
    obtain ⟨fuel, rfl⟩ := Nat.exists_eq_succ_of_ne_zero (by omega : fuel ≠ 0)
    have hnodup : n ∉ addresses items := (List.nodup_cons.mp hpath.nodup).1
    obtain ⟨rfl, ha, hrest⟩ := hpath
    have hrest' : NextPath (w.freeItem n) a.next items none := by
      apply hrest.frame
      intro k hk
      exact Store.free_of_ne fun heq => hnodup (heq ▸ hk)
    obtain ⟨u, hrun, hchain, hbound, hother, hfreed⟩ := ih fuel (Nat.lt_of_succ_lt_succ hfuel)
      hrest'
    refine ⟨u, (destroyInner_step fuel ha).trans hrun, hchain, hbound, ?_, ?_⟩
    · intro k hk
      rw [addresses_cons, List.mem_cons, not_or] at hk
      rw [hother k hk.2]
      exact Store.free_of_ne hk.1
    · intro k hk
      by_cases hmem : k ∈ addresses items
      · exact hfreed k hmem
      · have hkn : k = n := (List.mem_cons.mp hk).resolve_right hmem
        rw [hother k hmem, hkn]
        exact Store.free_self

/-- Wherever it starts, destruction faults or brings the first node down with it. -/
theorem destroyInner_cases (fuel : ℕ) (start : Option ℕ) (w : World Iter) :
    (∃ u, (destroyInner fuel start).run w = .ok () u ∧
      (∀ k, w.items.cell k = none → u.items.cell k = none) ∧
      ∀ n, start = some n → w.items.cell n ≠ none ∧ u.items.cell n = none) ∨
    ∃ f u, (destroyInner fuel start).run w = .error (.faults f) u := by
  induction fuel generalizing start w with
  | zero =>
    cases start with
    | none => exact .inl ⟨w, rfl, fun _ h => h, nofun⟩
    | some n => exact .inr ⟨_, _, rfl⟩
  | succ fuel ih =>
    cases start with
    | none => exact .inl ⟨w, rfl, fun _ h => h, nofun⟩
    | some n =>
      cases ha : w.items.cell n with
      | none =>
        refine .inr ⟨.badAccess, w, ?_⟩
        rw [destroyInner, bind_error (readItem_dead ha)]
      | some a =>
        rw [destroyInner_step fuel ha]
        rcases ih a.next (w.freeItem n) with ⟨u, hrun, hdead, -⟩ | hfault
        · refine .inl ⟨u, hrun, fun k hk => hdead k (Store.free_eq_none hk), ?_⟩
          intro m hm
          cases hm
          exact ⟨by rw [ha]; simp, hdead n Store.free_self⟩
        · exact .inr hfault

end Destruction

section Push
variable {Iter α : Type} {w : World Iter} {op : Link} {m : ℕ} {a : ChainItem Iter}

/-- The state of a `push_back` between its assignments to fields: `op` points to the new node. -/
structure Pushing (w : World Iter) (op : Link) (m : ℕ) (a : ChainItem Iter) (c : ℕ)
    (chain : Chain) : Prop where
  link : w.linkValue op = some (some m)
  cell : w.items.cell m = some a
  chain : w.chain c = some chain

theorem Pushing.setField {c : ℕ} {chain : Chain} (h : Pushing w op m a c chain)
    (hne : op ≠ .next m) (f : ChainItem Iter → ChainItem Iter) :
    Pushing (w.modifyItem m f) op m (f a) c chain where
  link := by
    cases op with
    | mBegin c => exact h.link
    | next n =>
      have hn : n ≠ m := fun heq => hne (congrArg Link.next heq)
      rw [World.linkValue, modifyItem_items, Store.modify_of_ne hn]
      exact h.link
  cell := by rw [modifyItem_items, Store.modify_self, h.cell, Option.map_some]
  chain := h.chain

theorem Pushing.setField_run {c : ℕ} {chain : Chain} (h : Pushing w op m a c chain)
    (f : ChainItem Iter → ChainItem Iter) (rest : Exec (World Iter) α) :
    (do modifyItem (← deref (← readLink op)) f; rest).run w =
      rest.run (w.modifyItem m f) := by
  rw [bind_ok (readLink_run h.link), deref_some, pure_bind, bind_ok (modifyItem_run h.cell f)]

theorem pushThrough_run [Inhabited Iter] {c : ℕ} {chain : Chain} {p : Option ℕ}
    (hop : w.linkValue op = some p) (rangeBegin rangeEnd : Iter)
    (hchain : (cloned w op ⟨default, default, none, none⟩).chain c = some chain) :
    ∃ u, (pushThrough op c rangeBegin rangeEnd false).run w = .ok () u ∧
      u.chain c = some { chain with mEnd := some w.items.bound } ∧
      (∀ d, d ≠ c → u.chain d = (w.setLink op (some w.items.bound)).chain d) ∧
      u.items.bound = w.items.bound + 1 ∧
      u.items.cell w.items.bound = some ⟨rangeBegin, rangeEnd, none, chain.mEnd⟩ ∧
      ∀ k, k ≠ w.items.bound →
        u.items.cell k = (cloned w op ⟨default, default, none, none⟩).items.cell k := by
  have hne : op ≠ .next w.items.bound := by
    rintro rfl
    exact absurd (link_lt_bound hop) (Nat.lt_irrefl _)
  rw [pushThrough, bind_ok (newItem_run w _), bind_ok (writeLink_run (linkValue_alloc hop) _)]
  change ∃ u, EStateM.run _ (cloned w op _) = _ ∧ _
  have h₁ : Pushing _ op _ ⟨default, default, none, none⟩ c chain :=
    ⟨cloned_op hop, cloned_self hop, hchain⟩
  have h₂ := h₁.setField hne fun item => { item with rangeBegin := rangeBegin }
  have h₃ := h₂.setField hne fun item => { item with rangeEnd := rangeEnd }
  have h₄ := h₃.setField hne fun item => { item with prev := chain.mEnd }
  have h₅ := h₄.setField hne fun item => { item with next := none }
  rw [h₁.setField_run, h₂.setField_run, bind_ok (readChain_run h₃.chain), h₃.setField_run,
    h₄.setField_run, bind_ok (readLink_run h₅.link)]
  refine ⟨_, modifyChain_run h₅.chain _, ?_, ?_, ?_, h₅.cell, ?_⟩
  · simp only [modifyChain_self, modifyItem_chain, hchain, Option.map_some]
  · intro d hd
    rw [modifyChain_of_ne hd]
    exact congrFun cloned_chain d
  · exact cloned_bound
  · intro k hk
    simp only [modifyChain_items, modifyItem_items, Store.modify_of_ne hk]

end Push

section Specs
variable {Iter : Type} {w u : World Iter} {c : ℕ} {items : Items Iter}

/-- An operation on the chain `c` may change the nodes in `touched`, and leaves the chain with
`new`: nodes it touched, or nodes it allocated. -/
structure Effect (w u : World Iter) (c : ℕ) (touched : List ℕ) (new : Items Iter) : Prop where
  chains : ∀ d, d ≠ c → u.chain d = w.chain d
  cells : ∀ n, n < w.items.bound → n ∉ touched → u.items.cell n = w.items.cell n
  bound : w.items.bound ≤ u.items.bound
  live : ∀ n, u.items.cell n ≠ none → n ∈ addresses new ∨ (n < w.items.bound ∧ n ∉ touched)
  fresh : ∀ n ∈ addresses new, n ∈ touched ∨ w.items.bound ≤ n

theorem construct_spec (c : ℕ) (w : World Iter) : ∃ u, (construct c).run w = .ok () u ∧
    Effect w u c [] [] ∧ Holds u c [] := by
  refine ⟨w.putChain c ⟨none, none⟩, rfl, ?_, ⟨_, putChain_self, rfl, rfl⟩⟩
  constructor
  · exact fun d hd => putChain_of_ne hd
  · exact fun _ _ _ => rfl
  · exact Nat.le_refl _
  · exact fun n hn => .inr ⟨Store.lt_bound_of_live hn, List.not_mem_nil⟩
  · exact nofun

theorem destroy_spec (h : Holds w c items) : ∃ u, (destroy c).run w = .ok () u ∧
    Effect w u c (addresses items) [] ∧ u.chain c = none := by
  have hfuel := h.length_lt_fuel
  obtain ⟨chain, hchain, hpath, -⟩ := h
  obtain ⟨u, hrun, hchains, hbound, hother, hfreed⟩ := destroyInner_path items (fuel w) hfuel hpath
  refine ⟨u.dropChain c, ?_, ?_, dropChain_self⟩
  · rw [destroy, bind_ok (readChain_run hchain), bind_ok (EStateM.run_get w), bind_ok hrun]
    rfl
  · constructor
    · exact fun d hd => (dropChain_of_ne hd).trans (congrFun hchains d)
    · exact fun n _ hn => hother n hn
    · exact Nat.le_of_eq hbound.symm
    · intro n hn
      have hlt : n < u.items.bound := Store.lt_bound_of_live hn
      exact .inr ⟨hbound ▸ hlt, fun hmem => hn (hfreed n hmem)⟩
    · exact nofun

/-- The items of a chain, the last of them linked to a further node. -/
def linkLast (m : ℕ) (items : Items Iter) : Items Iter :=
  items.dropLast ++ (items.getLast?.map fun item => (item.1, { item.2 with next := some m })).toList

def pushed (m : ℕ) (rangeBegin rangeEnd : Iter) (items : Items Iter) : Items Iter :=
  linkLast m items ++ [(m, ⟨rangeBegin, rangeEnd, none, (addresses items).getLast?⟩)]

theorem linkLast_concat (m n : ℕ) (a : ChainItem Iter) (items : Items Iter) :
    linkLast m (items ++ [(n, a)]) = items ++ [(n, { a with next := some m })] := by
  simp [linkLast]

theorem linkLast_addresses (m : ℕ) (items : Items Iter) :
    addresses (linkLast m items) = addresses items := by
  rcases List.eq_nil_or_concat items with rfl | ⟨before, ⟨n, a⟩, rfl⟩
  · rfl
  · rw [List.concat_eq_append, linkLast_concat]
    simp

theorem pushed_addresses (m : ℕ) (rangeBegin rangeEnd : Iter) (items : Items Iter) :
    addresses (pushed m rangeBegin rangeEnd items) = addresses items ++ [m] := by
  rw [pushed, addresses_append, linkLast_addresses]
  rfl

/-- Pushing through a link of the chain adds one node, behind that link. -/
theorem pushThrough_spec [Inhabited Iter] (items : Items Iter) {op : Link} {chain : Chain}
    {p : Option ℕ} (hop : w.linkValue op = some p) (hchain : w.chain c = some chain)
    (hhead : ∀ d, op = .mBegin d → d = c) (hnode : ∀ n, op = .next n → n ∈ addresses items)
    (rangeBegin rangeEnd : Iter) :
    ∃ u, (pushThrough op c rangeBegin rangeEnd false).run w = .ok () u ∧
      u.chain c = some ⟨if op = .mBegin c then some w.items.bound else chain.mBegin,
        some w.items.bound⟩ ∧
      u.items.cell w.items.bound = some ⟨rangeBegin, rangeEnd, none, chain.mEnd⟩ ∧
      (∀ n, n < w.items.bound →
        u.items.cell n = (w.setLink op (some w.items.bound)).items.cell n) ∧
      Effect w u c (addresses items) (pushed w.items.bound rangeBegin rangeEnd items) := by
  have hcloned : (cloned w op ⟨default, default, none, none⟩).chain c =
      some ⟨if op = .mBegin c then some w.items.bound else chain.mBegin, chain.mEnd⟩ := by
    rw [cloned_chain]
    cases op with
    | mBegin d =>
      have hd := hhead d rfl
      subst hd
      simp [World.setLink, hchain]
    | next n => simpa [World.setLink] using hchain
  obtain ⟨u, hrun, hc, hother, hbound, hnew, hcells⟩ :=
    pushThrough_run hop rangeBegin rangeEnd hcloned
  have hold : ∀ n, n < w.items.bound →
      u.items.cell n = (w.setLink op (some w.items.bound)).items.cell n := by
    intro n hn
    rw [hcells n (by omega), cloned_cell hn]
  refine ⟨u, hrun, hc, hnew, hold, ?_⟩
  constructor
  · intro d hd
    rw [hother d hd]
    cases op with
    | mBegin d' =>
      have hd' := hhead d' rfl
      subst hd'
      exact modifyChain_of_ne hd
    | next n => rfl
  · intro n hn hmem
    rw [hold n hn]
    exact setLink_cell fun heq => hmem (hnode n heq)
  · omega
  · intro n hn
    have hlt : n < u.items.bound := Store.lt_bound_of_live hn
    rw [pushed_addresses]
    by_cases hmem : n ∈ addresses items
    · exact .inl (List.mem_append_left _ hmem)
    · by_cases heq : n = w.items.bound
      · exact .inl (by simp [heq])
      · exact .inr ⟨by omega, hmem⟩
  · intro n hn
    rw [pushed_addresses, List.mem_append, List.mem_singleton] at hn
    rcases hn with hold | rfl
    · exact .inl hold
    · exact .inr (Nat.le_refl _)

theorem pushBack_spec [Inhabited Iter] (assertions : Bool) (h : Holds w c items)
    (rangeBegin rangeEnd : Iter) :
    ∃ u, (pushBack assertions c rangeBegin rangeEnd false).run w = .ok () u ∧
      Effect w u c (addresses items) (pushed w.items.bound rangeBegin rangeEnd items) ∧
      Holds u c (pushed w.items.bound rangeBegin rangeEnd items) := by
  obtain ⟨⟨first, last⟩, hchain, hpath, hlast⟩ := h
  rcases List.eq_nil_or_concat items with rfl | ⟨before, ⟨n, a⟩, rfl⟩
  · -- the head link of an empty chain
    obtain rfl : first = none := hpath
    obtain rfl : last = none := hlast
    have hop : w.linkValue (.mBegin c) = some none := by simp [World.linkValue, hchain]
    obtain ⟨u, hrun, hc, hnew, -, heffect⟩ := pushThrough_spec [] hop hchain
      (fun d hd => by cases hd; rfl) (fun m hm => absurd hm (mBegin_ne_next c m))
      rangeBegin rangeEnd
    refine ⟨u, ?_, heffect, ⟨_, hc, ?_, rfl⟩⟩
    · rw [pushBack, bind_ok (readChain_run hchain)]
      simpa using hrun
    · exact ⟨by simp, hnew, rfl⟩
  · -- the link out of the last node
    rw [List.concat_eq_append] at hpath hlast ⊢
    obtain rfl : last = some n := by simpa using hlast
    obtain ⟨mid, hbefore, hmid, ha, hnext⟩ := hpath.split
    have hop : w.linkValue (.next n) = some none := by
      rw [World.linkValue, ha]
      exact congrArg some hnext
    have hfirst : first.isSome := by
      have hstart : first = _ := hpath.start_eq
      rw [hstart]
      cases before <;> rfl
    obtain ⟨u, hrun, hc, hnew, hold, heffect⟩ := pushThrough_spec (before ++ [(n, a)])
      hop hchain (fun d hd => absurd hd.symm (mBegin_ne_next d n)) (fun m hm => by cases hm; simp)
      rangeBegin rangeEnd
    have hnodup := hpath.nodup
    have hcells : ∀ m ∈ addresses before, u.items.cell m = w.items.cell m := by
      intro m hm
      obtain ⟨b, hb, -⟩ := hbefore.cell_of_address hm
      rw [hold m (Store.lt_bound hb), setLink_cell]
      rintro ⟨rfl⟩
      rw [addresses_append, List.nodup_append] at hnodup
      exact hnodup.2.2 n hm n (by simp) rfl
    refine ⟨u, ?_, heffect, ⟨_, hc, ?_, ?_⟩⟩
    · rw [pushBack, bind_ok (readChain_run hchain)]
      simpa [hfirst] using hrun
    · rw [pushed, linkLast_concat, List.append_assoc]
      refine (hbefore.frame hcells).append ⟨hmid, ?_, rfl, ?_, rfl⟩
      · rw [hold n (Store.lt_bound ha), setLink_next_cell ha]
      · simpa using hnew
    · rw [pushed_addresses]
      simp

/-- The first item of a chain has no predecessor, as `assignInner` asserts of its source. -/
def HeadPrev (items : Items Iter) : Prop := ∀ item, items.head? = some item → item.2.prev = none

theorem clones_addresses (m : ℕ) (items : Items Iter) :
    addresses (clones m items) = List.range' m items.length := by
  induction items generalizing m with
  | nil => rfl
  | cons item rest ih =>
    obtain ⟨n, a⟩ := item
    rw [clones, addresses_cons, ih, List.length_cons, List.range'_succ]

theorem mem_clones {m k : ℕ} {items : Items Iter} :
    k ∈ addresses (clones m items) ↔ m ≤ k ∧ k < m + items.length := by
  rw [clones_addresses, List.mem_range'_1]

theorem clones_last (m : ℕ) (item : ℕ × ChainItem Iter) (rest : Items Iter) :
    (addresses (clones m (item :: rest))).getLast? = some (m + rest.length) := by
  rw [clones_addresses, List.length_cons, List.range'_concat]
  simp

theorem Effect.of_clones {t : ℕ} (hchains : ∀ d, d ≠ t → u.chain d = w.chain d)
    (hcells : ∀ n, n < w.items.bound → u.items.cell n = w.items.cell n)
    (hbound : u.items.bound = w.items.bound + items.length) :
    Effect w u t [] (clones w.items.bound items) := by
  constructor
  · exact hchains
  · exact fun n hn _ => hcells n hn
  · omega
  · intro n hn
    have hlt : n < u.items.bound := Store.lt_bound_of_live hn
    by_cases hold : n < w.items.bound
    · exact .inr ⟨hold, List.not_mem_nil⟩
    · exact .inl (mem_clones.mpr ⟨by omega, by omega⟩)
  · exact fun n hn => .inr (mem_clones.mp hn).1

theorem assignInner_spec (assertions : Bool) {t v : ℕ} {chain : Chain} (hv : Holds w v items)
    (hhead : HeadPrev items) (ht : w.chain t = some chain) :
    ∃ u, (assignInner assertions t v none).run w = .ok () u ∧
      Effect w u t [] (clones w.items.bound items) ∧ Holds u t (clones w.items.bound items) := by
  have hfuel := hv.length_lt_fuel
  cases items with
  | nil =>
    obtain ⟨⟨first, last⟩, hsource, hpath, hlast⟩ := hv
    obtain rfl : first = none := hpath
    obtain rfl : last = none := hlast
    refine ⟨w.modifyChain t fun _ => ⟨none, none⟩, ?_, ?_, ⟨⟨none, none⟩, ?_, rfl, rfl⟩⟩
    · rw [assignInner, bind_ok (readChain_run hsource)]
      simpa using modifyChain_run ht fun _ => ⟨none, none⟩
    · exact .of_clones (fun d hd => modifyChain_of_ne hd) (fun _ _ => rfl) rfl
    · rw [modifyChain_self, ht, Option.map_some]
  | cons item rest =>
    obtain ⟨n, a⟩ := item
    obtain ⟨last, hsource, hpath⟩ := hv.chain_of_cons
    have hprev : a.prev = none := hhead (n, a) rfl
    have hop : w.linkValue (.mBegin t) = some chain.mBegin := by simp [World.linkValue, ht]
    have hip : w.linkValue (.mBegin v) = some (some n) := by simp [World.linkValue, hsource]
    obtain ⟨op', u, hloop, hvalue, hbound, hchain, hcells, hcopies⟩ :=
      assignLoop_finishes rest (fuel w) 0 (by simp only [List.length_cons] at hfuel; omega) hop hip
        hpath fun k _ => mBegin_ne_next t k
    have hut : u.chain t = some ⟨some w.items.bound, chain.mEnd⟩ := by
      rw [hchain]
      simp [World.setLink, ht]
    refine ⟨u.modifyChain t fun chain =>
      { chain with mEnd := some (w.items.bound + rest.length) }, ?_, ?_,
      ⟨⟨some w.items.bound, some (w.items.bound + rest.length)⟩, ?_, hcopies, ?_⟩⟩
    · rw [assignInner, bind_ok (readChain_run hsource)]
      simp only [Option.isSome_some, assert_true, pure_bind]
      rw [bind_ok (readItem_run hpath.2.1)]
      simp only [hprev, Option.isNone_none, assert_true, pure_bind]
      rw [bind_ok (EStateM.run_get w), bind_ok hloop]
      simp only
      rw [bind_ok (readLink_run hvalue)]
      exact modifyChain_run hut _
    · apply Effect.of_clones
      · intro d hd
        rw [modifyChain_of_ne hd, hchain]
        exact modifyChain_of_ne hd
      · exact hcells
      · rw [modifyChain_items, hbound, List.length_cons]
        omega
    · rw [modifyChain_self, hut, Option.map_some]
    · rw [clones_last]

theorem assign_spec (assertions : Bool) {t v : ℕ} {chain : Chain} (hv : Holds w v items)
    (hhead : HeadPrev items) (ht : w.chain t = some chain) :
    ∃ u, (assign assertions t v none).run w = .ok () u ∧
      Effect w u t [] (clones w.items.bound items) ∧ Holds u t (clones w.items.bound items) := by
  obtain ⟨u, hrun, heffect, hholds⟩ := assignInner_spec assertions hv hhead ht
  refine ⟨u, ?_, heffect, hholds⟩
  rw [assign, bind_ok (readChain_run ht)]
  exact catchAll_ok hrun

theorem copyConstruct_spec (assertions : Bool) {t v : ℕ} (hv : Holds w v items)
    (hhead : HeadPrev items) (ht : w.chain t = none) (raw : Chain) :
    ∃ u, (copyConstruct assertions t v raw none).run w = .ok () u ∧
      Effect w u t [] (clones w.items.bound items) ∧ Holds u t (clones w.items.bound items) := by
  have hne : v ≠ t := by
    rintro rfl
    obtain ⟨chain, hchain, -⟩ := hv
    rw [ht] at hchain
    cases hchain
  have hv' : Holds (w.putChain t raw) v items := hv.frame (putChain_of_ne hne) fun _ _ => rfl
  obtain ⟨u, hrun, heffect, hholds⟩ :=
    assignInner_spec assertions hv' hhead putChain_self
  refine ⟨u, ?_, ?_, hholds⟩
  · have hput : (modify fun w => w.putChain t raw : Exec (World Iter) Unit).run w =
      .ok () (w.putChain t raw) := rfl
    rw [copyConstruct, bind_ok hput]
    exact catchAll_ok hrun
  · constructor
    · exact fun d hd => (heffect.chains d hd).trans (putChain_of_ne hd)
    · exact heffect.cells
    · exact heffect.bound
    · exact heffect.live
    · exact heffect.fresh

end Specs

end PdkHeaders.ChainSpecs
