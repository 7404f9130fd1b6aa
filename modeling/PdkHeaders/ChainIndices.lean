import PdkHeaders.ChainTraversal

set_option autoImplicit false

/-!
# Positions by their index

On a chain whose ranges all have elements, the last one apart, an iterator is an index into the
concatenation of the ranges.
-/
namespace PdkHeaders.ChainIndices
open PdkHeaders.Library.Execution PdkHeaders.IteratorChain PdkHeaders.ChainSpecs
open PdkHeaders.ChainedIterators PdkHeaders.ChainTraversal InnerIterator

section Operators
variable {Iter : Type} [DecidableEq Iter] (q rhs : ChainedIterator Iter)

/-- `operator==`, which compares the inner iterators of one node only. -/
def equal : Bool := q.mChain = rhs.mChain && q.mIt = rhs.mIt

def notEqual : Bool := q.mChain ≠ rhs.mChain || q.mIt ≠ rhs.mIt

/-- `q++`: a copy of the old iterator, with the new one. -/
def postIncrement [InnerIterator Iter] :
    Exec (World Iter) (ChainedIterator Iter × ChainedIterator Iter) := do
  let r := q
  let next ← increaseInner q
  return (r, next)

def postDecrement [InnerIterator Iter] :
    Exec (World Iter) (ChainedIterator Iter × ChainedIterator Iter) := do
  let r := q
  let prev ← decreaseInner q
  return (r, prev)

theorem equal_eq : equal q rhs = decide (q = rhs) := by
  obtain ⟨it, chain⟩ := q
  obtain ⟨it', chain'⟩ := rhs
  simp only [equal, ChainedIterator.mk.injEq, Bool.decide_and, Bool.and_comm]

theorem notEqual_eq : notEqual q rhs = !equal q rhs := by
  simp only [notEqual, equal, ne_eq, decide_not, Bool.not_and]

end Operators

section Sums
variable {Iter : Type} {nodes before before' mid after after' : List (ℕ × Range Iter)} {n n' : ℕ}
  {r r' : Range Iter}

/-- All nodes but the last have elements. -/
def Full (nodes : List (ℕ × Range Iter)) : Prop := ∀ node ∈ nodes.dropLast, node.2.length ≠ 0

theorem lengthOf_append : lengthOf (before ++ after) = lengthOf before + lengthOf after := by
  induction before with
  | nil => rw [List.nil_append, lengthOf_nil, Nat.zero_add]
  | cons node before ih =>
    obtain ⟨n, r⟩ := node
    rw [List.cons_append, lengthOf_cons, lengthOf_cons, ih, Nat.add_assoc]

theorem Full.earlier (h : Full nodes) (hnodes : nodes = before ++ (n, r) :: after) :
    ∀ node ∈ before, node.2.length ≠ 0 := by
  intro node hnode
  apply h
  rw [hnodes, List.dropLast_append_of_ne_nil (List.cons_ne_nil _ _)]
  exact List.mem_append_left _ hnode

theorem Full.lt_or_last (h : Full nodes) (hnodes : nodes = before ++ (n, r) :: after) :
    0 < r.length ∨ (0 = r.length ∧ after = []) := start_inside hnodes h

theorem lengthOf_prefix_le (hnodes : nodes = before ++ (n, r) :: after) :
    lengthOf before + r.length ≤ lengthOf nodes := by
  rw [hnodes, lengthOf_append, lengthOf_cons]
  omega

/-- Two nodes of a chain are one and the same, or one comes first. -/
theorem node_order (hnodes : nodes = before ++ (n, r) :: after)
    (hnodes' : nodes = before' ++ (n', r') :: after') :
    (before = before' ∧ n = n' ∧ r = r') ∨ (∃ mid, before' = before ++ (n, r) :: mid) ∨
      ∃ mid, before = before' ++ (n', r') :: mid := by
  rcases List.append_eq_append_iff.mp (hnodes.symm.trans hnodes') with
    ⟨mid, hbefore, hafter⟩ | ⟨mid, hbefore, hafter⟩
  · cases mid with
    | nil =>
      cases hafter
      exact .inl ⟨by rw [hbefore, List.append_nil], rfl, rfl⟩
    | cons node mid =>
      cases hafter
      exact .inr (.inl ⟨mid, hbefore⟩)
  · cases mid with
    | nil =>
      cases hafter
      exact .inl ⟨by rw [hbefore, List.append_nil], rfl, rfl⟩
    | cons node mid =>
      cases hafter
      exact .inr (.inr ⟨mid, hbefore⟩)

end Sums

section Indices
variable {Iter : Type} [InnerIterator Iter]
variable {nodes before before' mid after after' : List (ℕ × Range Iter)} {c n n' i i' j j' : ℕ}
  {r r' : Range Iter} {w : World Iter} {q q' : ChainedIterator Iter}

/-- The iterator at an index: in the range that holds the element of that index, or at the end
of the last one. -/
inductive At (nodes : List (ℕ × Range Iter)) (i : ℕ) (q : ChainedIterator Iter) : Prop where
  | nowhere (hnodes : nodes = []) (hi : i = 0) (hq : q = ⟨default, none⟩)
  | within {before after : List (ℕ × Range Iter)} {n : ℕ} {r : Range Iter} (j : ℕ)
      (hnodes : nodes = before ++ (n, r) :: after)
      (hj : j < r.length ∨ (j = r.length ∧ after = [])) (hi : i = lengthOf before + j)
      (hq : q = position n r j)

theorem At.le (h : At nodes i q) : i ≤ lengthOf nodes := by
  cases h with
  | nowhere hnodes hi hq => omega
  | within j hnodes hj hi hq =>
    have hle := lengthOf_prefix_le hnodes
    omega

theorem elementsOf_append :
    elementsOf (before ++ after) = elementsOf before ++ elementsOf after := by
  simp [elementsOf, concatenation]

theorem elementsOf_cons : elementsOf ((n, r) :: after) = r.elements ++ elementsOf after := rfl

theorem length_elements (r : Range Iter) : r.elements.length = r.length := by
  rw [Range.elements, List.length_iterate]

theorem length_elementsOf (nodes : List (ℕ × Range Iter)) :
    (elementsOf nodes).length = lengthOf nodes := by
  induction nodes with
  | nil => rfl
  | cons node nodes ih =>
    obtain ⟨n, r⟩ := node
    rw [elementsOf_cons, List.length_append, length_elements, ih, lengthOf_cons]

/-- Where an iterator points is the element of its index. -/
theorem At.element (h : At nodes i q) (hi : i < lengthOf nodes) :
    (elementsOf nodes)[i]? = some q.mIt := by
  cases h with
  | nowhere hnodes _ _ =>
    rw [hnodes, lengthOf_nil] at hi
    omega
  | @within before after n r j hnodes hj hij hq =>
    have hinside : j < r.length := by
      rcases hj with hinside | ⟨hlength, hlast⟩
      · exact hinside
      · rw [hnodes, hlast, lengthOf_concat] at hi
        omega
    have helements : r.elements[j]? = some (increment^[j] r.first) := by
      rw [Range.elements]
      exact List.getElem?_iterate increment r.first r.length j hinside
    have hlt : j < r.elements.length := by rwa [length_elements]
    rw [hnodes, hij, hq, elementsOf_append, ← length_elementsOf,
      List.getElem?_append_right (by omega),
      Nat.add_sub_cancel_left, elementsOf_cons, List.getElem?_append_left hlt]
    exact helements

theorem at_start (hfull : Full nodes) (hnodes : nodes = before ++ (n, r) :: after) :
    At nodes (lengthOf before) (position n r 0) :=
  .within 0 hnodes (hfull.lt_or_last hnodes) rfl rfl

theorem at_begin (h : Holds w c (doubly none nodes)) (hfull : Full nodes) :
    ∃ q, (chainBegin c).run w = .ok q w ∧ At nodes 0 q := by
  cases nodes with
  | nil => exact ⟨_, chainBegin_empty h, .nowhere rfl rfl rfl⟩
  | cons node after =>
    have hnodes : node :: after = [] ++ (node.1, node.2) :: after := rfl
    exact ⟨_, chainBegin_spec h hnodes, at_start hfull hnodes⟩

theorem at_end (h : Holds w c (doubly none nodes)) :
    ∃ q, (chainEnd c).run w = .ok q w ∧ At nodes (lengthOf nodes) q := by
  rcases List.eq_nil_or_concat nodes with rfl | ⟨before, ⟨n, r⟩, hnodes⟩
  · exact ⟨_, chainEnd_empty h, .nowhere rfl rfl rfl⟩
  · rw [List.concat_eq_append] at hnodes
    refine ⟨_, chainEnd_spec h hnodes, .within r.length hnodes (.inr ⟨rfl, rfl⟩) ?_ rfl⟩
    rw [hnodes, lengthOf_concat]

theorem nodes_apart (h : Holds w c (doubly none nodes))
    (hnodes : nodes = (before ++ (n, r) :: mid) ++ (n', r') :: after) : n ≠ n' := by
  have hnodup := h.nodup
  rw [doubly_addresses, hnodes, List.append_assoc, List.cons_append, List.map_append,
    List.nodup_append] at hnodup
  have hnot := (List.nodup_cons.mp hnodup.2.1).1
  intro heq
  apply hnot
  simp [heq]

/-- Of two positions in different nodes, the one in the earlier node has the smaller index. -/
theorem earlier_node (h : Holds w c (doubly none nodes))
    (hnodes : nodes = before ++ (n, r) :: after) (hj : j < r.length ∨ (j = r.length ∧ after = []))
    (hnodes' : nodes = (before ++ (n, r) :: mid) ++ (n', r') :: after') (k : ℕ) :
    lengthOf before + j < lengthOf (before ++ (n, r) :: mid) + k ∧
      position n r j ≠ position n' r' k := by
  have hafter : after = mid ++ (n', r') :: after' := by
    have heq := hnodes.symm.trans hnodes'
    rw [List.append_assoc, List.append_cancel_left_eq, List.cons_append, List.cons.injEq] at heq
    exact heq.2
  constructor
  · have hinside : j < r.length := by
      rcases hj with hinside | ⟨-, hlast⟩
      · exact hinside
      · rw [hlast] at hafter
        simp at hafter
    rw [lengthOf_append, lengthOf_cons]
    omega
  · intro heq
    exact nodes_apart h hnodes' (Option.some.inj (congrArg ChainedIterator.mChain heq))

theorem at_eq_iff (h : Holds w c (doubly none nodes)) (hq : At nodes i q) (hq' : At nodes i' q') :
    q = q' ↔ i = i' := by
  cases hq with
  | nowhere hnodes hi hqeq =>
    cases hq' with
    | nowhere _ hi' hqeq' => rw [hi, hi', hqeq, hqeq']; simp
    | within j hnodes' _ _ _ =>
      rw [hnodes] at hnodes'
      simp at hnodes'
  | @within before after n r j hnodes hj hi hqeq =>
    cases hq' with
    | nowhere hnodes' _ _ =>
      rw [hnodes'] at hnodes
      simp at hnodes
    | @within before' after' n' r' j' hnodes' hj' hi' hqeq' =>
      subst hi hi' hqeq hqeq'
      rcases node_order hnodes hnodes' with ⟨rfl, rfl, rfl⟩ | ⟨mid, rfl⟩ | ⟨mid, rfl⟩
      · rw [position_eq_iff]
        omega
      · have hearlier := earlier_node h hnodes hj hnodes' j'
        exact iff_of_false hearlier.2 (Nat.ne_of_lt hearlier.1)
      · have hearlier := earlier_node h hnodes' hj' hnodes j
        exact iff_of_false (Ne.symm hearlier.2) (Nat.ne_of_gt hearlier.1)

variable [DecidableEq Iter]

theorem at_increase (h : Holds w c (doubly none nodes)) (hfull : Full nodes) (hq : At nodes i q)
    (hi : i < lengthOf nodes) :
    ∃ q', (increaseInner q).run w = .ok q' w ∧ At nodes (i + 1) q' := by
  cases hq with
  | nowhere hnodes _ _ =>
    rw [hnodes, lengthOf_nil] at hi
    omega
  | @within before after n r j hnodes hj hij hqeq =>
    subst hij hqeq
    have hinside : j < r.length := by
      rcases hj with hinside | ⟨hlength, hlast⟩
      · exact hinside
      · rw [hnodes, hlast, lengthOf_concat] at hi
        omega
    by_cases hstays : j + 1 ≠ r.length ∨ after = []
    · refine ⟨_, increaseInner_inside h hnodes hstays, .within (j + 1) hnodes ?_ rfl rfl⟩
      by_cases hmore : j + 1 < r.length
      · exact .inl hmore
      · have hlength : j + 1 = r.length := by omega
        exact .inr ⟨hlength, hstays.resolve_left (not_not_intro hlength)⟩
    · -- the step enters the next node, at the index of its first element
      obtain ⟨hlength, hafter⟩ := not_or.mp hstays
      rw [not_not] at hlength
      obtain ⟨⟨m, r'⟩, after, rfl⟩ := List.exists_cons_of_ne_nil hafter
      have hnodes' : nodes = (before ++ [(n, r)]) ++ (m, r') :: after :=
        hnodes.trans (List.append_cons _ _ _)
      have hstart := at_start hfull hnodes'
      rw [lengthOf_concat, ← hlength, ← Nat.add_assoc] at hstart
      exact ⟨_, increaseInner_hop h hnodes hlength, hstart⟩

theorem at_decrease (h : Holds w c (doubly none nodes)) (hfull : Full nodes)
    (hq : At nodes (i + 1) q) :
    ∃ q', (decreaseInner q).run w = .ok q' w ∧ At nodes i q' := by
  cases hq with
  | nowhere _ hi _ => omega
  | @within before after n r j hnodes hj hij hqeq =>
    subst hqeq
    cases j with
    | succ j =>
      exact ⟨_, decreaseInner_inside h hnodes, .within j hnodes (.inl (by omega)) (by omega) rfl⟩
    | zero =>
      rcases List.eq_nil_or_concat before with rfl | ⟨before, ⟨m, r'⟩, rfl⟩
      · rw [lengthOf_nil] at hij
        omega
      · rw [List.concat_eq_append] at hnodes hij
        have hlength : r'.length ≠ 0 := hfull.earlier hnodes (m, r') (by simp)
        obtain ⟨k, hk⟩ := Nat.exists_eq_succ_of_ne_zero hlength
        have hnodes' : nodes = before ++ (m, r') :: (n, r) :: after :=
          hnodes.trans (List.append_cons _ _ _).symm
        have hstep := decreaseInner_hop h hnodes'
        rw [decrement_last hk] at hstep
        rw [lengthOf_concat] at hij
        exact ⟨_, hstep, .within k hnodes' (.inl (by omega)) (by omega) rfl⟩

end Indices

end PdkHeaders.ChainIndices
