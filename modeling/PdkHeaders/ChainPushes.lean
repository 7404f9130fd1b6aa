import PdkHeaders.ChainCopies

set_option autoImplicit false

/-!
# Chains built under allocation failure

A chain that only `push_back` has written to is doubly linked. A call whose allocation fails
throws before it writes anything.
-/
namespace PdkHeaders.ChainPushes
open PdkHeaders.Library.Execution PdkHeaders.Library.Stores PdkHeaders.Library.Paths
open PdkHeaders.IteratorChain PdkHeaders.ChainSpecs PdkHeaders.ChainAccounting
open PdkHeaders.ChainCopies

/-- A call of `push_back`, and whether its allocation fails. -/
structure Push (Iter : Type) where
  rangeBegin : Iter
  rangeEnd : Iter
  fails : Bool
  deriving DecidableEq, Repr

/-- The segments of the calls that succeed. -/
def succeeded {Iter : Type} (pushes : List (Push Iter)) : List (Iter × Iter) :=
  (pushes.filter fun push => !push.fails).map fun push => (push.rangeBegin, push.rangeEnd)

/-- A call whose exception is caught outside. -/
def attempt {Iter : Type} [Inhabited Iter] (assertions : Bool) (c : ℕ) (push : Push Iter) :
    Exec (World Iter) Unit :=
  catchAll (pushBack assertions c push.rangeBegin push.rangeEnd push.fails) fun _ => pure ()

section Links
variable {Iter : Type}

/-- The nodes of a chain, linked in both directions between its head and its tail. -/
structure DoublyLinked (w : World Iter) (chain : Chain) (items : Items Iter) : Prop where
  ends : chain.mBegin = none ↔ chain.mEnd = none
  forward : NextPath w chain.mBegin items none
  tail : chain.mEnd = (addresses items).getLast?
  backward : Path w.items.cell (·.prev) chain.mEnd items.reverse none
  inverse : ∀ n a m b, (n, a) ∈ items → (m, b) ∈ items → (a.next = some m ↔ b.prev = some n)
  head : HeadPrev items
  nodup : (addresses items).Nodup

variable {w u : World Iter} {c : ℕ} {items : Items Iter}

theorem ends_null_iff (h : Holds w c items) {chain : Chain} (hchain : w.chain c = some chain) :
    chain.mBegin = none ↔ chain.mEnd = none := by
  obtain ⟨chain', hchain', hpath, hlast⟩ := h
  rw [hchain] at hchain'
  cases hchain'
  rw [hpath.start_eq, hlast, List.head?_eq_none_iff, List.getLast?_eq_none_iff]

theorem headPrev_of_backwardWalk (h : BackwardWalk w c items.reverse) : HeadPrev items := by
  intro item hitem
  obtain ⟨chain, -, hpath⟩ := h
  cases items with
  | nil => cases hitem
  | cons first rest =>
    cases hitem
    rw [List.reverse_cons] at hpath
    obtain ⟨mid, -, -, -, hprev⟩ := hpath.split
    exact hprev

theorem doublyLinked (h : Holds w c items) (hback : BackwardWalk w c items.reverse) :
    ∃ chain, w.chain c = some chain ∧ DoublyLinked w chain items := by
  obtain ⟨chain, hchain, hpath, hlast⟩ := id h
  obtain ⟨chain', hchain', hprev⟩ := id hback
  rw [hchain] at hchain'
  cases hchain'
  refine ⟨chain, hchain, ?_⟩
  constructor
  · exact ends_null_iff h hchain
  · exact hpath
  · exact hlast
  · exact hprev
  · intro n a m b ha hb
    exact hpath.inverse hprev ha hb
  · exact headPrev_of_backwardWalk hback
  · exact hpath.nodup

/-- The new node leads back to the former tail, and from there on nothing has changed. -/
theorem backwardWalk_pushed {m : ℕ} {rangeBegin rangeEnd : Iter} (h : Holds w c items)
    (hback : BackwardWalk w c items.reverse)
    (hu : Holds u c (pushed m rangeBegin rangeEnd items)) :
    BackwardWalk u c (pushed m rangeBegin rangeEnd items).reverse := by
  obtain ⟨chain, hchain, -, hlast⟩ := id hu
  rw [pushed_addresses, List.getLast?_concat] at hlast
  have hnew : u.items.cell m = some ⟨rangeBegin, rangeEnd, none, (addresses items).getLast?⟩ :=
    hu.cell_eq (by simp [pushed])
  refine ⟨chain, hchain, ?_⟩
  rcases List.eq_nil_or_concat items with rfl | ⟨before, ⟨n, a⟩, rfl⟩
  · exact ⟨hlast, hnew, rfl⟩
  · rw [List.concat_eq_append] at h hback hu hnew ⊢
    rw [pushed, linkLast_concat] at hu ⊢
    rw [List.reverse_append, List.reverse_append]
    obtain ⟨former, -, hprev⟩ := hback
    rw [List.reverse_append] at hprev
    have hcells : ∀ k ∈ addresses before.reverse, u.items.cell k = w.items.cell k := by
      intro k hk
      obtain ⟨⟨k, b⟩, hmem, rfl⟩ := List.mem_map.mp hk
      have hmem' : (k, b) ∈ before := List.mem_reverse.mp hmem
      have hnow : u.items.cell k = some b := hu.cell_eq (by simp [hmem'])
      have hthen : w.items.cell k = some b := h.cell_eq (by simp [hmem'])
      exact hnow.trans hthen.symm
    have hnode : u.items.cell n = some { a with next := some m } := hu.cell_eq (by simp)
    refine ⟨hlast, hnew, ?_, hnode, hprev.2.2.frame hcells⟩
    simp

theorem segments_pushed (m : ℕ) (rangeBegin rangeEnd : Iter) (items : Items Iter) :
    segments (pushed m rangeBegin rangeEnd items) = segments items ++ [(rangeBegin, rangeEnd)] := by
  rcases List.eq_nil_or_concat items with rfl | ⟨before, ⟨n, a⟩, rfl⟩
  · rfl
  · rw [List.concat_eq_append, pushed, linkLast_concat]
    simp [segments]

end Links

section Pushes
variable {Iter : Type} [Inhabited Iter] {w : World Iter} {c : ℕ} {items : Items Iter}

/-- The allocation comes before the first write. -/
theorem pushBack_fails (assertions : Bool) (h : Holds w c items) (rangeBegin rangeEnd : Iter) :
    (pushBack assertions c rangeBegin rangeEnd true).run w = .error (.throws .badAlloc) w := by
  obtain ⟨chain, hchain, -⟩ := id h
  have hends := ends_null_iff h hchain
  rw [pushBack, bind_ok (readChain_run hchain)]
  cases hlast : chain.mEnd with
  | none =>
    rw [hends.mpr hlast]
    simp only [Option.isNone_none, assert_true, pure_bind]
    rfl
  | some last =>
    obtain ⟨first, hfirst⟩ := Option.ne_none_iff_exists'.mp fun hnone => by
      rw [hends.mp hnone] at hlast
      cases hlast
    rw [hfirst]
    simp only [Option.isSome_some, assert_true, pure_bind]
    rfl

theorem attempt_spec (assertions : Bool) (h : Holds w c items)
    (hback : BackwardWalk w c items.reverse) (push : Push Iter) :
    ∃ u items', (attempt assertions c push).run w = .ok () u ∧ Holds u c items' ∧
      BackwardWalk u c items'.reverse ∧ segments items' = segments items ++ succeeded [push] := by
  obtain ⟨rangeBegin, rangeEnd, fails⟩ := push
  cases fails with
  | true =>
    refine ⟨w, items, ?_, h, hback, (List.append_nil _).symm⟩
    rw [attempt, catchAll_throws (pushBack_fails assertions h rangeBegin rangeEnd)]
    rfl
  | false =>
    obtain ⟨u, hrun, -, hholds⟩ := pushBack_spec assertions h rangeBegin rangeEnd
    exact ⟨u, _, catchAll_ok hrun, hholds, backwardWalk_pushed h hback hholds,
      segments_pushed _ _ _ _⟩

theorem attempts_spec (assertions : Bool) (pushes : List (Push Iter)) (h : Holds w c items)
    (hback : BackwardWalk w c items.reverse) :
    ∃ u items', (runAll (attempt assertions c) pushes).run w = .ok () u ∧ Holds u c items' ∧
      BackwardWalk u c items'.reverse ∧
      segments items' = segments items ++ succeeded pushes := by
  induction pushes generalizing w items with
  | nil => exact ⟨w, items, rfl, h, hback, (List.append_nil _).symm⟩
  | cons push pushes ih =>
    obtain ⟨v, mid, hstep, hv, hbackV, hmid⟩ := attempt_spec assertions h hback push
    obtain ⟨u, items', hrun, hu, hbackU, hsegments⟩ := ih hv hbackV
    refine ⟨u, items', runAll_cons_ok.mpr ⟨v, hstep, hrun⟩, hu, hbackU, ?_⟩
    have hsucceeded : succeeded (push :: pushes) = succeeded [push] ++ succeeded pushes := by
      rw [succeeded, succeeded, succeeded, ← List.map_append, ← List.filter_append]
      rfl
    rw [hsegments, hmid, hsucceeded, List.append_assoc]

/-- Whichever of its allocations fail, a chain is doubly linked with the segments of the calls
that succeed, and a further call that fails leaves it and its nodes as they are. -/
theorem pushes_wellLinked (assertions : Bool) (c : ℕ) (pushes : List (Push Iter))
    (w : World Iter) :
    ∃ u chain items,
      (construct c >>= fun _ => runAll (attempt assertions c) pushes).run w = .ok () u ∧
      u.chain c = some chain ∧ DoublyLinked u chain items ∧
      segments items = succeeded pushes ∧
      ∀ rangeBegin rangeEnd, (pushBack assertions c rangeBegin rangeEnd true).run u =
        .error (.throws .badAlloc) u := by
  obtain ⟨v, hconstruct, -, hempty⟩ := construct_spec c w
  have hback : BackwardWalk v c ([] : Items Iter).reverse := by
    obtain ⟨chain, hchain, -, hlast⟩ := hempty
    exact ⟨chain, hchain, hlast⟩
  obtain ⟨u, items, hrun, hholds, hbackU, hsegments⟩ :=
    attempts_spec assertions pushes hempty hback
  obtain ⟨chain, hchain, hlinked⟩ := doublyLinked hholds hbackU
  refine ⟨u, chain, items, ?_, hchain, hlinked, hsegments, pushBack_fails assertions hholds⟩
  rw [bind_ok hconstruct, hrun]

end Pushes
end PdkHeaders.ChainPushes
