import PdkHeaders.ChainedIterators

set_option autoImplicit false

/-!
# Positions of a chain

The positions that the steps of an iterator reach, and that its two steps undo each other there.
-/
namespace PdkHeaders.ChainPositions
open PdkHeaders.Library.Execution PdkHeaders.IteratorChain PdkHeaders.ChainSpecs
open PdkHeaders.ChainedIterators InnerIterator

section Positions
variable {Iter : Type} [InnerIterator Iter]

/-- The position is one inside the range of its node. -/
def Dereferenceable (w : World Iter) (q : ChainedIterator Iter) : Prop :=
  ∃ n item i j, q.mChain = some n ∧ w.items.cell n = some item ∧
    increment^[i] item.rangeBegin = q.mIt ∧ increment^[j + 1] q.mIt = item.rangeEnd

/-- Where `++` at dereferenceable positions and `--` to dereferenceable positions lead from
`begin()` and `end()`. -/
inductive Reached [DecidableEq Iter] (w : World Iter) (c : ℕ) : ChainedIterator Iter → Prop where
  | ofBegin {q : ChainedIterator Iter} (h : (chainBegin c).run w = .ok q w) : Reached w c q
  | ofEnd {q : ChainedIterator Iter} (h : (chainEnd c).run w = .ok q w) : Reached w c q
  | increase {q q' : ChainedIterator Iter} (h : Reached w c q) (hq : Dereferenceable w q)
      (hrun : (increaseInner q).run w = .ok q' w) : Reached w c q'
  | decrease {q q' : ChainedIterator Iter} (h : Reached w c q)
      (hrun : (decreaseInner q).run w = .ok q' w) (hq' : Dereferenceable w q') : Reached w c q'

/-- No position at the end of a range with elements is one, unless no node follows. -/
inductive Canonical (nodes : List (ℕ × Range Iter)) : ChainedIterator Iter → Prop where
  | nowhere (h : nodes = []) : Canonical nodes ⟨default, none⟩
  | within {before after : List (ℕ × Range Iter)} {n : ℕ} {r : Range Iter} (j : ℕ)
      (hnodes : nodes = before ++ (n, r) :: after)
      (hj : j < r.length ∨ (j = r.length ∧ (after = [] ∨ r.length = 0))) :
      Canonical nodes (position n r j)

variable {nodes before after : List (ℕ × Range Iter)} {c n m j : ℕ} {r r' : Range Iter}
  {w : World Iter} {q q' : ChainedIterator Iter}

theorem dereferenceable_iff (h : Holds w c (doubly none nodes))
    (hnodes : nodes = before ++ (n, r) :: after) :
    Dereferenceable w (position n r j) ↔ j < r.length := by
  have hcell := cell_of_doubly h hnodes
  constructor
  · rintro ⟨n', item, i, k, hn, hitem, -, hend⟩
    cases hn
    rw [hcell] at hitem
    cases hitem
    have hlength : increment^[k + 1 + j] r.first = increment^[r.length] r.first := by
      rw [Function.iterate_add_apply]
      exact hend
    have hk := (iterate_eq_iff r.first _ _).mp hlength
    omega
  · intro hj
    refine ⟨n, _, j, r.length - j - 1, rfl, hcell, rfl, ?_⟩
    have hsum : r.length - j - 1 + 1 + j = r.length := by omega
    change increment^[r.length - j - 1 + 1] (increment^[j] r.first) = increment^[r.length] r.first
    rw [← Function.iterate_add_apply, hsum]

theorem not_dereferenceable_before (h : Holds w c (doubly none nodes))
    (hnodes : nodes = before ++ (n, r) :: after) :
    ¬ Dereferenceable w (⟨decrement r.first, some n⟩ : ChainedIterator Iter) := by
  rintro ⟨n', item, i, k, hn, hitem, hbegin, -⟩
  cases hn
  rw [cell_of_doubly h hnodes] at hitem
  cases hitem
  have hcycle : increment^[i + 1] r.first = r.first := by
    rw [Function.iterate_succ_apply', hbegin, increment_decrement]
  exact acyclic i r.first hcycle

theorem canonical_start (hnodes : nodes = before ++ (n, r) :: after) :
    Canonical nodes (position n r 0) := by
  refine .within 0 hnodes ?_
  rcases Nat.eq_zero_or_pos r.length with hempty | hpos
  · exact .inr ⟨hempty.symm, .inr hempty⟩
  · exact .inl hpos

variable [DecidableEq Iter]

/-- A step on from a dereferenceable position stays canonical, and the step back undoes it. -/
theorem increase_decrease (h : Holds w c (doubly none nodes)) (hq : Canonical nodes q)
    (hderef : Dereferenceable w q) :
    ∃ q', (increaseInner q).run w = .ok q' w ∧ Canonical nodes q' ∧
      (decreaseInner q').run w = .ok q w := by
  cases hq with
  | nowhere =>
    obtain ⟨n, -, -, -, hn, -⟩ := hderef
    cases hn
  | @within before after n r j hnodes hj =>
    have hinside := (dereferenceable_iff h hnodes).mp hderef
    by_cases hstays : j + 1 ≠ r.length ∨ after = []
    · refine ⟨_, increaseInner_inside h hnodes hstays, .within (j + 1) hnodes ?_,
        decreaseInner_inside h hnodes⟩
      rcases hstays with hmore | hend
      · exact .inl (by omega)
      · by_cases hmore : j + 1 < r.length
        · exact .inl hmore
        · exact .inr ⟨by omega, .inl hend⟩
    · -- the step enters the next range, whose first position leads back
      obtain ⟨hlength, hafter⟩ := not_or.mp hstays
      rw [not_not] at hlength
      obtain ⟨⟨m, r'⟩, after, rfl⟩ := List.exists_cons_of_ne_nil hafter
      have hnodes' : nodes = (before ++ [(n, r)]) ++ (m, r') :: after :=
        hnodes.trans (List.append_cons _ _ _)
      have hback := decreaseInner_hop h hnodes
      rw [decrement_last hlength.symm] at hback
      exact ⟨_, increaseInner_hop h hnodes hlength, canonical_start hnodes', hback⟩

theorem decrease_increase (h : Holds w c (doubly none nodes)) (hq : Canonical nodes q)
    (hrun : (decreaseInner q).run w = .ok q' w) (hderef : Dereferenceable w q') :
    Canonical nodes q' ∧ (increaseInner q').run w = .ok q w := by
  cases hq with
  | nowhere =>
    cases hrun
    obtain ⟨n, -, -, -, hn, -⟩ := hderef
    cases hn
  | @within before after n r j hnodes hj =>
    cases j with
    | succ j =>
      rw [decreaseInner_inside h hnodes] at hrun
      cases hrun
      refine ⟨.within j hnodes (.inl (by omega)), increaseInner_inside h hnodes ?_⟩
      rcases hj with hinside | ⟨hlength, hend | hempty⟩
      · exact .inl (by omega)
      · exact .inr hend
      · omega
    | zero =>
      rcases List.eq_nil_or_concat before with rfl | ⟨before, ⟨m, r'⟩, rfl⟩
      · rw [decreaseInner_first h hnodes] at hrun
        cases hrun
        exact absurd hderef (not_dereferenceable_before h hnodes)
      · rw [List.concat_eq_append] at hnodes
        have hnodes' : nodes = before ++ (m, r') :: (n, r) :: after :=
          hnodes.trans (List.append_cons _ _ _).symm
        rw [decreaseInner_hop h hnodes'] at hrun
        cases hrun
        cases hlength : r'.length with
        | zero =>
          have hlast : r'.last = r'.first := by rw [Range.last, hlength]; rfl
          rw [hlast] at hderef
          exact absurd hderef (not_dereferenceable_before h hnodes')
        | succ k =>
          rw [decrement_last hlength]
          exact ⟨.within k hnodes' (.inl (by omega)), increaseInner_hop h hnodes' hlength.symm⟩

theorem canonical_of_reached (h : Holds w c (doubly none nodes)) (hq : Reached w c q) :
    Canonical nodes q := by
  induction hq with
  | ofBegin hrun =>
    cases nodes with
    | nil =>
      rw [chainBegin_empty h] at hrun
      cases hrun
      exact .nowhere rfl
    | cons node after =>
      have hnodes : node :: after = [] ++ (node.1, node.2) :: after := rfl
      rw [chainBegin_spec h hnodes] at hrun
      cases hrun
      exact canonical_start hnodes
  | ofEnd hrun =>
    rcases List.eq_nil_or_concat nodes with rfl | ⟨before, ⟨n, r⟩, hnodes⟩
    · rw [chainEnd_empty h] at hrun
      cases hrun
      exact .nowhere rfl
    · rw [List.concat_eq_append] at hnodes
      rw [chainEnd_spec h hnodes] at hrun
      cases hrun
      exact .within r.length hnodes (.inr ⟨rfl, .inl rfl⟩)
  | increase _ hderef hrun ih =>
    obtain ⟨q', hrun', hq', -⟩ := increase_decrease h ih hderef
    rw [hrun] at hrun'
    cases hrun'
    exact hq'
  | decrease _ hrun hderef ih => exact (decrease_increase h ih hrun hderef).1

/-- On a chain built by `push_back` from any ranges, `++` and `--` are inverse to each other. -/
theorem steps_inverse (assertions : Bool) (c : ℕ) (ranges : List (Range Iter)) (w : World Iter) :
    ∃ u, (do construct c; pushAll assertions c ranges : Exec (World Iter) Unit).run w = .ok () u ∧
      ∀ q, Reached u c q →
        (Dereferenceable u q → ∃ q', (increaseInner q).run u = .ok q' u ∧
          (decreaseInner q').run u = .ok q u) ∧
        ∀ q', (decreaseInner q).run u = .ok q' u → Dereferenceable u q' →
          (increaseInner q').run u = .ok q u := by
  obtain ⟨u, nodes, hrun, hholds, -⟩ := build_spec assertions c ranges w
  refine ⟨u, hrun, fun q hq => ?_⟩
  have hcanonical := canonical_of_reached hholds hq
  constructor
  · intro hderef
    obtain ⟨q', hincrease, -, hdecrease⟩ := increase_decrease hholds hcanonical hderef
    exact ⟨q', hincrease, hdecrease⟩
  · intro q' hdecrease hderef
    exact (decrease_increase hholds hcanonical hdecrease hderef).2

end Positions

section Instances

/-- Out of a range, into an empty one behind it and back. -/
theorem steps_inverse_emptyRange :
    ∃ u, (do construct 0; pushAll true 0 [⟨0, 1⟩, ⟨7, 0⟩, ⟨3, 2⟩] : Exec (World ℤ) Unit).run
        World.init = .ok () u ∧
      (∃ q', (increaseInner ⟨0, some 0⟩).run u = .ok q' u ∧
        (decreaseInner q').run u = .ok ⟨0, some 0⟩ u) ∧
      (increaseInner ⟨0, some 0⟩).run u = .ok ⟨7, some 1⟩ u := by
  obtain ⟨u, hrun, hinverse⟩ :=
    steps_inverse true 0 [⟨0, 1⟩, ⟨7, 0⟩, ⟨3, 2⟩] (World.init : World ℤ)
  cases hrun
  have hbegin := hinverse ⟨0, some 0⟩ (.ofBegin rfl)
  have hnext := hinverse ⟨7, some 1⟩
    (.increase (.ofBegin rfl) ⟨0, _, 0, 0, rfl, rfl, rfl, rfl⟩ rfl)
  exact ⟨_, rfl, hbegin.1 ⟨0, _, 0, 0, rfl, rfl, rfl, rfl⟩,
    hnext.2 ⟨0, some 0⟩ rfl ⟨0, _, 0, 0, rfl, rfl, rfl, rfl⟩⟩

end Instances

end PdkHeaders.ChainPositions
