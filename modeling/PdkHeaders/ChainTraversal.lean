import PdkHeaders.ChainedIterators

set_option autoImplicit false

/-!
# Traversals of a chain

Walking a chain from `begin` to `end` and back, and the chains on which that visits the
concatenation of the ranges.
-/
namespace PdkHeaders.ChainTraversal
open PdkHeaders.Library.Execution PdkHeaders.IteratorChain PdkHeaders.ChainSpecs
open PdkHeaders.ChainedIterators InnerIterator

section Loops
variable {Iter : Type} [InnerIterator Iter] [DecidableEq Iter]

/-- `while (q != last) { *q; ++q; }`, with the positions it dereferences, one a step. -/
def forwardLoop : ℕ → ChainedIterator Iter → ChainedIterator Iter → Exec (World Iter) (List Iter)
  | 0, q, last => if q = last then return [] else fault .diverges
  | steps + 1, q, last =>
    if q = last then return [] else do
      let q' ← increaseInner q
      return q.mIt :: (← forwardLoop steps q' last)

/-- `--q; *q;` a number of times, with where it ends and the positions it dereferences. -/
def backwardLoop : ℕ → ChainedIterator Iter → Exec (World Iter) (ChainedIterator Iter × List Iter)
  | 0, q => return (q, [])
  | steps + 1, q => do
    let q' ← decreaseInner q
    let (first, visited) ← backwardLoop steps q'
    return (first, q'.mIt :: visited)

def concatenation (ranges : List (Range Iter)) : List Iter := ranges.flatMap Range.elements

def totalLength : List (Range Iter) → ℕ
  | [] => 0
  | r :: ranges => r.length + totalLength ranges

/-- In as many steps as the ranges have elements, `++` leads from `begin()` to `end()` through
their concatenation, and `--` leads back through its reverse. -/
def TraversalCorrect (w : World Iter) (c : ℕ) (ranges : List (Range Iter)) : Prop :=
  ∃ first last, (chainBegin c).run w = .ok first w ∧ (chainEnd c).run w = .ok last w ∧
    (forwardLoop (totalLength ranges) first last).run w = .ok (concatenation ranges) w ∧
    (backwardLoop (totalLength ranges) last).run w = .ok (first, (concatenation ranges).reverse) w

variable {w u : World Iter} {q q' last first : ChainedIterator Iter} {visited : List Iter}
  {steps : ℕ}

theorem forwardLoop_done (steps : ℕ) (q : ChainedIterator Iter) (w : World Iter) :
    (forwardLoop steps q q).run w = .ok [] w := by
  cases steps <;> rw [forwardLoop, if_pos rfl] <;> rfl

theorem forwardLoop_step (hne : q ≠ last) (hstep : (increaseInner q).run w = .ok q' w)
    (hloop : (forwardLoop steps q' last).run w = .ok visited w) :
    (forwardLoop (steps + 1) q last).run w = .ok (q.mIt :: visited) w := by
  rw [forwardLoop, if_neg hne, bind_ok hstep, bind_ok hloop]
  rfl

theorem backwardLoop_step (hstep : (decreaseInner q).run w = .ok q' w)
    (hloop : (backwardLoop steps q').run w = .ok (first, visited) w) :
    (backwardLoop (steps + 1) q).run w = .ok (first, q'.mIt :: visited) w := by
  rw [backwardLoop, bind_ok hstep, bind_ok hloop]
  rfl

/-- A loop does not end that cannot leave a set of positions without `last`. -/
theorem forwardLoop_diverges {S : ChainedIterator Iter → Prop} (hlast : ∀ q, S q → q ≠ last)
    (hstep : ∀ q, S q → ∃ q', (increaseInner q).run w = .ok q' w ∧ S q') (steps : ℕ) (hq : S q) :
    (forwardLoop steps q last).run w = .error (.faults .diverges) w := by
  induction steps generalizing q with
  | zero =>
    rw [forwardLoop, if_neg (hlast q hq)]
    rfl
  | succ steps ih =>
    obtain ⟨q', hrun, hq'⟩ := hstep q hq
    rw [forwardLoop, if_neg (hlast q hq), bind_ok hrun]
    exact bind_error (ih hq')

end Loops

section Sums
variable {Iter : Type} {nodes before : List (ℕ × Range Iter)} {n : ℕ} {r : Range Iter}

def lengthOf (nodes : List (ℕ × Range Iter)) : ℕ := totalLength (nodes.map (·.2))

@[simp] theorem lengthOf_nil : lengthOf ([] : List (ℕ × Range Iter)) = 0 := rfl
@[simp] theorem lengthOf_cons : lengthOf ((n, r) :: nodes) = r.length + lengthOf nodes := rfl
@[simp] theorem lengthOf_concat : lengthOf (nodes ++ [(n, r)]) = lengthOf nodes + r.length := by
  induction nodes with
  | nil => rw [List.nil_append, lengthOf_cons, lengthOf_nil, Nat.zero_add, Nat.add_zero]
  | cons node nodes ih =>
    obtain ⟨m, r'⟩ := node
    rw [List.cons_append, lengthOf_cons, ih, lengthOf_cons]
    omega

theorem last_of_nodes {l : ℕ} {s : Range Iter} (hnodes : nodes = before ++ [(n, r)])
    (hlast : nodes.getLast? = some (l, s)) : n = l ∧ r = s := by
  rw [hnodes, List.getLast?_concat] at hlast
  cases hlast
  exact ⟨rfl, rfl⟩

theorem mem_dropLast_of_append {α : Type} {before after : List α} {a : α} (h : after ≠ []) :
    a ∈ (before ++ a :: after).dropLast := by
  rw [List.dropLast_append_of_ne_nil (List.cons_ne_nil _ _), List.dropLast_cons_of_ne_nil h]
  simp

theorem start_inside {after : List (ℕ × Range Iter)} (hnodes : nodes = before ++ (n, r) :: after)
    (hfull : ∀ node ∈ nodes.dropLast, node.2.length ≠ 0) :
    0 < r.length ∨ (0 = r.length ∧ after = []) := by
  by_cases hend : after = []
  · rcases Nat.eq_zero_or_pos r.length with hempty | hpos
    · exact .inr ⟨hempty.symm, hend⟩
    · exact .inl hpos
  · have hlength := hfull (n, r) (hnodes ▸ mem_dropLast_of_append hend)
    exact .inl (Nat.pos_of_ne_zero hlength)

variable [InnerIterator Iter]

def elementsOf (nodes : List (ℕ × Range Iter)) : List Iter := concatenation (nodes.map (·.2))

@[simp] theorem elementsOf_concat :
    elementsOf (nodes ++ [(n, r)]) = elementsOf nodes ++ r.elements := by
  simp [elementsOf, concatenation]

end Sums

section Segments
variable {Iter : Type} [InnerIterator Iter]
variable {nodes before after : List (ℕ × Range Iter)} {c n m l j k : ℕ} {r r' s : Range Iter}
  {w : World Iter}

theorem iterate_rest (it : Iter) (hj : j < k) :
    List.iterate increment (increment^[j] it) (k - j) =
      increment^[j] it :: List.iterate increment (increment^[j + 1] it) (k - (j + 1)) := by
  have hsub : k - j = k - (j + 1) + 1 := by omega
  rw [hsub, List.iterate, ← Function.iterate_succ_apply' increment]

theorem iterate_concat (it : Iter) (j : ℕ) :
    List.iterate increment it (j + 1) = List.iterate increment it j ++ [increment^[j] it] := by
  rw [List.iterate_add]
  rfl

theorem position_eq_iff : position n r j = position n r k ↔ j = k := by
  rw [← iterate_eq_iff r.first j k]
  simp [position]

theorem position_ne_last (h : Holds w c (doubly none nodes))
    (hnodes : nodes = before ++ (n, r) :: after) (hlast : nodes.getLast? = some (l, s))
    (hafter : after ≠ []) : position n r j ≠ position l s k := by
  have hnodup := h.nodup
  rw [doubly_addresses, hnodes, List.map_append, List.nodup_append] at hnodup
  have hmem : (l, s) ∈ after := by
    rw [hnodes, List.getLast?_append_of_ne_nil _ (List.cons_ne_nil _ _),
      List.getLast?_cons_of_ne_nil hafter] at hlast
    exact List.mem_of_getLast? hlast
  have hnot : n ∉ after.map (·.1) := (List.nodup_cons.mp hnodup.2.1).1
  intro heq
  have hl : n = l := Option.some.inj (congrArg ChainedIterator.mChain heq)
  exact hnot (List.mem_map.mpr ⟨(l, s), hmem, hl.symm⟩)

theorem position_ne_end (h : Holds w c (doubly none nodes))
    (hnodes : nodes = before ++ (n, r) :: after) (hlast : nodes.getLast? = some (l, s))
    (hj : j < r.length) : position n r j ≠ position l s s.length := by
  by_cases hafter : after = []
  · subst hafter
    obtain ⟨rfl, rfl⟩ := last_of_nodes hnodes hlast
    intro heq
    have hlength := position_eq_iff.mp heq
    omega
  · exact position_ne_last h hnodes hlast hafter

/-- A position from which `++` never gets past an empty range: at or before the node of one that
is not the last, and not at the end of a range that has elements. -/
inductive Stuck (nodes : List (ℕ × Range Iter)) : ChainedIterator Iter → Prop where
  | ahead {before after : List (ℕ × Range Iter)} {n : ℕ} {r : Range Iter} (j : ℕ)
      (hnodes : nodes = before ++ (n, r) :: after) (hj : j < r.length ∨ r.length = 0)
      (hempty : ∃ node ∈ ((n, r) :: after).dropLast, node.2.length = 0) :
      Stuck nodes (position n r j)

theorem stuck_ne_end {q : ChainedIterator Iter} (h : Holds w c (doubly none nodes))
    (hlast : nodes.getLast? = some (l, s)) (hq : Stuck nodes q) : q ≠ position l s s.length := by
  cases hq with
  | ahead j hnodes hj hempty =>
    refine position_ne_last h hnodes hlast ?_
    rintro rfl
    obtain ⟨node, hnode, -⟩ := hempty
    cases hnode

variable [DecidableEq Iter]

/-- Where all ranges but the last have elements, the loop goes through what is left of the range
it is in and through the ranges after it. -/
theorem forwardLoop_run (steps : ℕ) (h : Holds w c (doubly none nodes))
    (hnodes : nodes = before ++ (n, r) :: after) (hlast : nodes.getLast? = some (l, s))
    (hfull : ∀ node ∈ nodes.dropLast, node.2.length ≠ 0)
    (hj : j < r.length ∨ (j = r.length ∧ after = []))
    (hsteps : steps = r.length - j + lengthOf after) :
    (forwardLoop steps (position n r j) (position l s s.length)).run w = .ok
      (List.iterate increment (increment^[j] r.first) (r.length - j) ++ elementsOf after) w := by
  induction steps generalizing before n r after j with
  | zero =>
    obtain ⟨rfl, rfl⟩ : j = r.length ∧ after = [] := by
      rcases hj with hinside | hend
      · omega
      · exact hend
    obtain ⟨rfl, rfl⟩ := last_of_nodes hnodes hlast
    rw [forwardLoop_done, Nat.sub_self]
    rfl
  | succ steps ih =>
    rcases hj with hinside | ⟨rfl, rfl⟩
    · have hne := position_ne_end h hnodes hlast hinside
      rw [iterate_rest _ hinside, List.cons_append]
      by_cases hhop : j + 1 ≠ r.length ∨ after = []
      · have hj' : j + 1 < r.length ∨ (j + 1 = r.length ∧ after = []) := by
          rcases hhop with hmore | hend
          · exact .inl (by omega)
          · by_cases hmore : j + 1 < r.length
            · exact .inl hmore
            · exact .inr ⟨by omega, hend⟩
        exact forwardLoop_step hne (increaseInner_inside h hnodes hhop)
          (ih hnodes hj' (by omega))
      · obtain ⟨hlength, hafter⟩ := not_or.mp hhop
        rw [not_not] at hlength
        obtain ⟨⟨m, r'⟩, after, rfl⟩ := List.exists_cons_of_ne_nil hafter
        have hnodes' : nodes = (before ++ [(n, r)]) ++ (m, r') :: after :=
          hnodes.trans (List.append_cons _ _ _)
        have hrest := ih hnodes' (start_inside hnodes' hfull)
          (by rw [lengthOf_cons] at hsteps; omega)
        rw [hlength, Nat.sub_self]
        exact forwardLoop_step hne (increaseInner_hop h hnodes hlength) hrest
    · rw [Nat.sub_self, lengthOf_nil] at hsteps
      omega

/-- Where the ranges before it have elements, the walk back goes through the steps into a range
and through the ranges before it. -/
theorem backwardLoop_run (steps : ℕ) (h : Holds w c (doubly none nodes))
    (hnodes : nodes = before ++ (n, r) :: after) (hfirst : nodes.head? = some (m, r'))
    (hfull : ∀ node ∈ before, node.2.length ≠ 0) (hsteps : steps = lengthOf before + j) :
    (backwardLoop steps (position n r j)).run w =
      .ok (position m r' 0, (elementsOf before ++ List.iterate increment r.first j).reverse) w := by
  induction steps generalizing before n r after j with
  | zero =>
    obtain rfl : j = 0 := by omega
    have hbefore : before = [] := by
      rcases List.eq_nil_or_concat before with hnil | ⟨before, ⟨k, s⟩, rfl⟩
      · exact hnil
      · have hlength := hfull (k, s) (by simp)
        rw [List.concat_eq_append, lengthOf_concat] at hsteps
        exact absurd (by omega : s.length = 0) hlength
    subst hbefore
    rw [hnodes] at hfirst
    cases hfirst
    rfl
  | succ steps ih =>
    cases j with
    | succ j =>
      have hrest := ih (j := j) hnodes hfull (by omega)
      rw [iterate_concat, ← List.append_assoc, List.reverse_concat]
      exact backwardLoop_step (decreaseInner_inside h hnodes) hrest
    | zero =>
      rcases List.eq_nil_or_concat before with rfl | ⟨before, ⟨k, s⟩, rfl⟩
      · rw [lengthOf_nil] at hsteps
        omega
      · rw [List.concat_eq_append] at hnodes hfull hsteps ⊢
        have hnodes' : nodes = before ++ (k, s) :: (n, r) :: after :=
          hnodes.trans (List.append_cons _ _ _).symm
        obtain ⟨i, hi⟩ : ∃ i, s.length = i + 1 :=
          Nat.exists_eq_succ_of_ne_zero (hfull (k, s) (by simp))
        have hrest := ih (j := i) hnodes' (fun node hnode => hfull node (by simp [hnode]))
          (by rw [lengthOf_concat] at hsteps; omega)
        have hstep := decreaseInner_hop h hnodes'
        rw [decrement_last hi] at hstep
        have helements : s.elements = List.iterate increment s.first (i + 1) := by
          rw [Range.elements, ← hi]
        rw [elementsOf_concat, helements, List.iterate, List.append_nil, iterate_concat,
          ← List.append_assoc, List.reverse_concat]
        exact backwardLoop_step hstep hrest

theorem stuck_step {q : ChainedIterator Iter} (h : Holds w c (doubly none nodes))
    (hq : Stuck nodes q) :
    ∃ q', (increaseInner q).run w = .ok q' w ∧ Stuck nodes q' := by
  cases hq with
  | @ahead before after n r j hnodes hj hempty =>
    by_cases hhop : j + 1 = r.length
    · cases after with
      | nil =>
        obtain ⟨node, hnode, -⟩ := hempty
        cases hnode
      | cons next after =>
        obtain ⟨m, r'⟩ := next
        have hnodes' : nodes = (before ++ [(n, r)]) ++ (m, r') :: after :=
          hnodes.trans (List.append_cons _ _ _)
        refine ⟨_, increaseInner_hop h hnodes hhop,
          .ahead 0 hnodes' (by omega) ?_⟩
        obtain ⟨node, hnode, hlength⟩ := hempty
        rw [List.dropLast_cons_of_ne_nil (List.cons_ne_nil _ _)] at hnode
        rcases List.mem_cons.mp hnode with rfl | hlater
        · simp only at hlength
          omega
        · exact ⟨node, hlater, hlength⟩
    · exact ⟨_, increaseInner_inside h hnodes (.inl hhop),
        .ahead (j + 1) hnodes (by omega) hempty⟩

theorem traversal_of_holds (h : Holds w c (doubly none nodes)) :
    TraversalCorrect w c (nodes.map (·.2)) ↔ ∀ node ∈ nodes.dropLast, node.2.length ≠ 0 := by
  rcases List.eq_nil_or_concat nodes with rfl | ⟨front, ⟨l, s⟩, hnodes⟩
  · refine ⟨fun _ => nofun, fun _ => ?_⟩
    exact ⟨_, _, chainBegin_empty h, chainEnd_empty h, forwardLoop_done _ _ _, rfl⟩
  · rw [List.concat_eq_append] at hnodes
    obtain ⟨⟨m, r⟩, after, hcons⟩ : ∃ node after, nodes = [] ++ node :: after :=
      List.exists_cons_of_ne_nil (hnodes ▸ by simp)
    have hbegin := chainBegin_spec h hcons
    have hend := chainEnd_spec h hnodes
    have hlast : nodes.getLast? = some (l, s) := by rw [hnodes, List.getLast?_concat]
    constructor
    · rintro ⟨first, last, hfirst, hlast', hforward, -⟩ node hnode hlength
      obtain rfl : first = position m r 0 := by rw [hbegin] at hfirst; cases hfirst; rfl
      obtain rfl : last = position l s s.length := by rw [hend] at hlast'; cases hlast'; rfl
      rw [hcons] at hnode
      have hstuck : Stuck nodes (position m r 0) := .ahead 0 hcons (by omega) ⟨node, hnode, hlength⟩
      rw [forwardLoop_diverges (fun q => stuck_ne_end h hlast) (fun q => stuck_step h) _ hstuck]
        at hforward
      cases hforward
    · intro hfull
      refine ⟨_, _, hbegin, hend, ?_, ?_⟩
      · have hrun := forwardLoop_run (totalLength (nodes.map (·.2))) h hcons hlast hfull
          (start_inside hcons hfull) (by rw [hcons]; exact lengthOf_cons)
        rw [hrun, hcons]
        rfl
      · have hfirst : nodes.head? = some (m, r) := by rw [hcons]; rfl
        have hback := backwardLoop_run (totalLength (nodes.map (·.2))) (j := s.length) h hnodes
          hfirst (fun node hnode => hfull node (by rwa [hnodes, List.dropLast_concat]))
          (by rw [hnodes]; exact lengthOf_concat)
        have helements : concatenation (nodes.map (·.2)) = elementsOf front ++ s.elements := by
          rw [hnodes]
          exact elementsOf_concat
        rw [hback, helements]
        rfl

/-- The traversals of a chain, built by `push_back` from any ranges, are those of their
concatenation exactly when no range but the last is empty. -/
theorem traversal_iff (assertions : Bool) (c : ℕ) (ranges : List (Range Iter)) (w : World Iter) :
    ∃ u, (do construct c; pushAll assertions c ranges : Exec (World Iter) Unit).run w = .ok () u ∧
      (TraversalCorrect u c ranges ↔ ∀ r ∈ ranges.dropLast, r.length ≠ 0) := by
  obtain ⟨u, nodes, hrun, hholds, rfl⟩ := build_spec assertions c ranges w
  refine ⟨u, hrun, (traversal_of_holds hholds).trans ?_⟩
  rw [← List.map_dropLast]
  simp only [List.forall_mem_map]

end Segments

section Instances

/-- The first of two ranges is empty: the loop starts at its end and runs past it. -/
theorem leading_empty_range_is_entered :
    ∃ u, (do construct 0; pushAll true 0 [⟨0, 0⟩, ⟨0, 1⟩] : Exec (World ℤ) Unit).run World.init =
        .ok () u ∧ ¬ TraversalCorrect u 0 [⟨0, 0⟩, ⟨0, 1⟩] := by
  refine ⟨_, rfl, ?_⟩
  rintro ⟨first, last, hfirst, hlast, hforward, -⟩
  cases hfirst
  cases hlast
  cases hforward

end Instances

end PdkHeaders.ChainTraversal
