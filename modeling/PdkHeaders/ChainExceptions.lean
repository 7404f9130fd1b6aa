import PdkHeaders.ChainAccounting

set_option autoImplicit false

/-!
# Failed allocations in chain copies

The handler in `assignInner` destroys what the link holds that the failed allocation was to
overwrite: the old head, or a link still copied from the source.
-/
namespace PdkHeaders.ChainExceptions
open PdkHeaders.Library.Execution PdkHeaders.Library.Stores PdkHeaders.Library.Paths
open PdkHeaders.IteratorChain PdkHeaders.ChainSpecs PdkHeaders.ChainAccounting

section
variable {Iter : Type} {w u : World Iter} {items : Items Iter} {t s k : ℕ} {chain : Chain}

/-- The assignment whose allocation `k` fails throws and leaves both chains with their nodes as
they were, and no node it allocated. -/
def AssignRollsBack (assertions : Bool) (t s k : ℕ) (w : World Iter) : Prop :=
  ∃ u, (assign assertions t s (some k)).run w = .error (.throws .badAlloc) u ∧
    u.chain t = w.chain t ∧ u.chain s = w.chain s ∧
    (∀ items, Holds w t items → ∀ n ∈ addresses items, u.items.cell n = w.items.cell n) ∧
    (∀ items, Holds w s items → ∀ n ∈ addresses items, u.items.cell n = w.items.cell n) ∧
    ∀ n, w.items.bound ≤ n → u.items.cell n = none

/-- The copy construction whose allocation `k` fails throws, frees the nodes it allocated and
no others, and leaves the source alone. -/
def CopyRollsBack (assertions : Bool) (t s : ℕ) (raw : Chain) (k : ℕ) (w : World Iter) : Prop :=
  ∃ u, (copyConstruct assertions t s raw (some k)).run w = .error (.throws .badAlloc) u ∧
    u.chain s = w.chain s ∧ ∀ n, u.items.cell n = w.items.cell n

/-- The handler runs on the target's old head in the first round, and on a node of the source
in all others. -/
theorem assignInner_throws (assertions : Bool) (hs : Holds w s items) (hhead : HeadPrev items)
    (ht : w.chain t = some chain) (hk : k < items.length) :
    ∃ u p, (assignInner assertions t s (some k)).run w =
        (do destroyInner (fuel u) p; raise .badAlloc : Exec (World Iter) Unit).run u ∧
      (k = 0 → u = w ∧ p = chain.mBegin) ∧
      (k ≠ 0 → ∃ m ∈ addresses items, p = some m) := by
  have hfuel := hs.length_lt_fuel
  obtain ⟨⟨n, a⟩, rest, rfl⟩ := List.exists_cons_of_length_pos (by omega : 0 < items.length)
  obtain ⟨last, hsource, hpath⟩ := hs.chain_of_cons
  have hprev : a.prev = none := hhead (n, a) rfl
  have hop : w.linkValue (.mBegin t) = some chain.mBegin := by simp [World.linkValue, ht]
  have hip : w.linkValue (.mBegin s) = some (some n) := by simp [World.linkValue, hsource]
  have hrun : ∀ op u p, (assignLoop (some k) (fuel w) 0 (.mBegin t) (.mBegin s)).run w =
      .ok (.threw op) u → u.linkValue op = some p →
      (assignInner assertions t s (some k)).run w =
        (do destroyInner (fuel u) p; raise .badAlloc : Exec (World Iter) Unit).run u := by
    intro op u p hloop hvalue
    rw [assignInner, bind_ok (readChain_run hsource)]
    simp only [Option.isSome_some, assert_true, pure_bind]
    rw [bind_ok (readItem_run hpath.2.1)]
    simp only [hprev, Option.isNone_none, assert_true, pure_bind]
    rw [bind_ok (EStateM.run_get w), bind_ok hloop]
    simp only
    rw [bind_ok (EStateM.run_get u), bind_ok (readLink_run hvalue)]
  cases k with
  | zero =>
    exact ⟨w, chain.mBegin, hrun _ _ _ (assignLoop_throws_now _ _ _ _ _) hop,
      fun _ => ⟨rfl, rfl⟩, fun h => absurd rfl h⟩
  | succ k =>
    rw [List.length_cons] at hk hfuel
    obtain ⟨op, u, m, hloop, hvalue, hmem⟩ := assignLoop_throws_later k rest (fuel w) 0
      (by omega) (by omega) hop hip hpath fun m _ => mBegin_ne_next t m
    rw [Nat.zero_add] at hloop
    exact ⟨u, some m, hrun _ _ _ hloop hvalue, fun h => absurd h (Nat.succ_ne_zero k),
      fun _ => ⟨m, List.mem_cons_of_mem _ hmem, rfl⟩⟩

theorem destroyed_lost {body : Exec (World Iter) Unit}
    {handler : Exception → Exec (World Iter) Unit} {v : World Iter} {m : ℕ} (hbody : body.run w =
      (do destroyInner (fuel v) (some m); raise .badAlloc : Exec (World Iter) Unit).run v)
    (hhandler : ∀ v u, (handler .badAlloc).run v = .error (.throws .badAlloc) u →
      u.items = v.items)
    (hrun : (catchAll body handler).run w = .error (.throws .badAlloc) u) :
    v.items.cell m ≠ none ∧ u.items.cell m = none := by
  rcases destroyInner_cases (fuel v) (some m) v with ⟨v', hdestroy, -, hlost⟩ | ⟨f, v', hfault⟩
  · rw [bind_ok hdestroy] at hbody
    rw [catchAll_throws hbody] at hrun
    obtain ⟨hlive, hdead⟩ := hlost m rfl
    exact ⟨hlive, hhandler v' u hrun ▸ hdead⟩
  · rw [bind_error hfault] at hbody
    rw [catchAll_faults hbody] at hrun
    cases hrun

theorem restore_items (t : ℕ) (old : Chain) (v u : World Iter)
    (h : (do modifyChain t (fun _ => old); raise .badAlloc : Exec (World Iter) Unit).run v =
      .error (.throws .badAlloc) u) : u.items = v.items := by
  cases hchain : v.chain t with
  | none =>
    have hfault : (modifyChain t fun _ => old).run v = .error (.faults .badAccess) v := by
      simp only [modifyChain, readChain, EStateM.run_bind, EStateM.run_get, hchain, fault_run]
    rw [bind_error hfault] at h
    cases h
  | some chain =>
    rw [bind_ok (modifyChain_run hchain _)] at h
    cases h
    rfl

theorem assignRollsBack_iff (assertions : Bool) (hw : WellFormed w) (hs : Holds w s items)
    (hk : k < items.length) (ht : w.chain t ≠ none) :
    AssignRollsBack assertions t s k w ↔ k = 0 ∧ Holds w t [] := by
  obtain ⟨items', hitems', hhead⟩ := hw.holds s hs.live
  rw [hitems'.unique hs] at hhead
  obtain ⟨former, hformer, -⟩ := hw.holds t ht
  obtain ⟨chain, hchain, hpath, hlast⟩ := id hformer
  obtain ⟨v, p, hinner, hfirst, hlater⟩ := assignInner_throws assertions hs hhead hchain hk
  constructor
  · intro hback
    obtain ⟨u, hrun, -, -, hnodes, hsource, -⟩ := hback
    rw [assign, bind_ok (readChain_run hchain)] at hrun
    have hkept : ∀ m, p = some m → u.items.cell m = w.items.cell m → w.items.cell m = none := by
      intro m hm hsame
      rw [hm] at hinner
      rw [← hsame]
      exact (destroyed_lost hinner (restore_items t chain) hrun).2
    by_cases hzero : k = 0
    · refine ⟨hzero, ?_⟩
      obtain ⟨rfl, rfl⟩ := hfirst hzero
      cases former with
      | nil => exact hformer
      | cons item rest =>
        -- the target's first node is gone
        have hmem : item.1 ∈ addresses (item :: rest) := List.mem_cons_self
        have hdead := hkept item.1 hpath.start_of_cons (hnodes _ hformer _ hmem)
        exact absurd hdead (hformer.cell_ne_none hmem)
    · obtain ⟨m, hmem, rfl⟩ := hlater hzero
      exact absurd (hkept m rfl (hsource items hs m hmem)) (hs.cell_ne_none hmem)
  · intro hempty
    obtain ⟨hzero, hnil⟩ := hempty
    obtain ⟨rfl, rfl⟩ := hfirst hzero
    obtain rfl := hformer.unique hnil
    have hnull : chain.mBegin = none := hpath
    rw [hnull] at hinner
    have hdestroy : (destroyInner (fuel v) none).run v = .ok () v := rfl
    rw [bind_ok hdestroy] at hinner
    refine ⟨v.modifyChain t fun _ => chain, ?_, ?_, ?_, fun _ _ _ _ => rfl, fun _ _ _ _ => rfl,
      fun n hn => v.items.fresh n hn⟩
    · rw [assign, bind_ok (readChain_run hchain), catchAll_throws hinner,
        bind_ok (modifyChain_run hchain _)]
      rfl
    · rw [modifyChain_self, hchain, Option.map_some]
    · by_cases hst : s = t
      · subst hst
        rw [modifyChain_self, hchain, Option.map_some]
      · exact modifyChain_of_ne hst

theorem copyRollsBack_iff (assertions : Bool) (hw : WellFormed w) (hs : Holds w s items)
    (hk : k < items.length) (ht : w.chain t = none) (raw : Chain) :
    CopyRollsBack assertions t s raw k w ↔ k = 0 ∧ raw.mBegin = none := by
  obtain ⟨items', hitems', hhead⟩ := hw.holds s hs.live
  rw [hitems'.unique hs] at hhead
  have hne : s ≠ t := fun heq => hs.live (heq ▸ ht)
  have hs' : Holds (w.putChain t raw) s items := hs.frame (putChain_of_ne hne) fun _ _ => rfl
  have hput : (modify fun w => w.putChain t raw : Exec (World Iter) Unit).run w =
    .ok () (w.putChain t raw) := rfl
  obtain ⟨v, p, hinner, hfirst, hlater⟩ :=
    assignInner_throws assertions hs' hhead putChain_self hk
  constructor
  · intro hback
    obtain ⟨u, hrun, -, hnodes⟩ := hback
    rw [copyConstruct, bind_ok hput] at hrun
    have hlost : ∀ m, p = some m → v.items.cell m ≠ none ∧ w.items.cell m = none := by
      intro m hm
      rw [hm] at hinner
      rw [← hnodes m]
      refine destroyed_lost hinner (fun v u h => ?_) hrun
      cases h
      rfl
    by_cases hzero : k = 0
    · obtain ⟨rfl, rfl⟩ := hfirst hzero
      refine ⟨hzero, ?_⟩
      cases hnull : raw.mBegin with
      | none => rfl
      | some m =>
        obtain ⟨hlive, hdead⟩ := hlost m hnull
        exact absurd hdead hlive
    · obtain ⟨m, hmem, rfl⟩ := hlater hzero
      exact absurd (hlost m rfl).2 (hs.cell_ne_none hmem)
  · intro hempty
    obtain ⟨hzero, hnull⟩ := hempty
    obtain ⟨rfl, rfl⟩ := hfirst hzero
    rw [hnull] at hinner
    have hdestroy : (destroyInner (fuel (w.putChain t raw)) none).run (w.putChain t raw) =
      .ok () (w.putChain t raw) := rfl
    rw [bind_ok hdestroy] at hinner
    refine ⟨(w.putChain t raw).dropChain t, ?_, ?_, fun _ => rfl⟩
    · rw [copyConstruct, bind_ok hput, catchAll_throws hinner]
      rfl
    · rw [dropChain_of_ne hne, putChain_of_ne hne]

variable [Inhabited Iter]

/-- A failed assignment or copy rolls back exactly when the first allocation fails and the head
link it was to overwrite is null. -/
theorem rollsBack_iff (assertions : Bool) (h : Reaches assertions (fun w op => op.Legal w) w)
    (hs : Holds w s items) (hk : k < items.length) :
    (∀ t, w.chain t ≠ none →
      (AssignRollsBack assertions t s k w ↔ k = 0 ∧ Holds w t [])) ∧
    ∀ t raw, w.chain t = none →
      (CopyRollsBack assertions t s raw k w ↔ k = 0 ∧ raw.mBegin = none) := by
  have hw := reaches_wellFormed (fun _ _ h => h) h
  exact ⟨fun t ht => assignRollsBack_iff assertions hw hs hk ht,
    fun t raw ht => copyRollsBack_iff assertions hw hs hk ht raw⟩

end

section Instances

/-- The first allocation fails in an assignment to an empty chain. -/
theorem rollsBack_iff_first : AssignRollsBack true 1 0 0
    (stateAfter [.construct 0, .pushBack 0 0 1, .pushBack 0 1 2, .construct 1]) := by
  have hempty : Holds (stateAfter [.construct 0, .pushBack 0 0 1, .pushBack 0 1 2, .construct 1]) 1
      [] := ⟨⟨none, none⟩, rfl, rfl, rfl⟩
  exact ((rollsBack_iff true twoSegments_reached twoSegments_holds (by decide)).1 1
    (fun h : some _ = none => nomatch h)).mpr ⟨rfl, hempty⟩

/-- The second allocation fails in the same assignment. -/
theorem assign_destroys_source :
    Reaches true (fun w op => op.Legal w)
      (stateAfter [.construct 0, .pushBack 0 0 1, .pushBack 0 1 2, .construct 1]) ∧
    ¬ AssignRollsBack true 1 0 1
      (stateAfter [.construct 0, .pushBack 0 0 1, .pushBack 0 1 2, .construct 1]) := by
  refine ⟨twoSegments_reached, fun hback => ?_⟩
  obtain ⟨u, hrun, -, -, -, hsource, -⟩ := hback
  have hdead : u.items.cell 1 = none := by
    cases hrun
    rfl
  have hsame := hsource _ twoSegments_holds 1 (by decide)
  rw [hdead] at hsame
  cases hsame

end Instances

end PdkHeaders.ChainExceptions
