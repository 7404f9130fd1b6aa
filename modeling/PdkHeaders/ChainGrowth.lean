import PdkHeaders.ChainIndices
import PdkHeaders.ChainPushes
import PdkHeaders.Library.Sessions

set_option autoImplicit false

/-!
# Iterators of a growing chain

What becomes of the iterators of a chain while ranges are pushed onto it, wherever they have been
moved to.
-/
namespace PdkHeaders.ChainGrowth
open PdkHeaders.Library.Execution PdkHeaders.Library.Transcript PdkHeaders.Library.Sessions
open PdkHeaders.IteratorChain PdkHeaders.ChainSpecs PdkHeaders.ChainPushes
open PdkHeaders.ChainedIterators PdkHeaders.ChainTraversal PdkHeaders.ChainIndices InnerIterator

section Places
variable {Iter : Type} [InnerIterator Iter]

/-- Where an iterator stands: at an element, some steps past the end of the first `i` elements,
some steps ahead of the first of them, or on no chain at all. -/
inductive Place (Iter : Type) where
  | element (i : ℕ)
  | past (i d : ℕ)
  | ahead (d : ℕ)
  | nowhere (it : Iter)
  deriving DecidableEq, Repr

def Place.next (length : ℕ) : Place Iter → Place Iter
  | .element i => if i + 1 = length then .past (i + 1) 0 else .element (i + 1)
  | .past i d => .past i (d + 1)
  | .ahead 0 => .element 0
  | .ahead (d + 1) => .ahead d
  | .nowhere it => .nowhere (increment it)

def Place.prev : Place Iter → Place Iter
  | .element 0 => .ahead 0
  | .element (i + 1) => .element i
  | .past i 0 => .element (i - 1)
  | .past i (d + 1) => .past i d
  | .ahead d => .ahead (d + 1)
  | .nowhere it => .nowhere (decrement it)

def firstPlace (elements : List Iter) : Place Iter :=
  if elements = [] then .nowhere default else .element 0

def lastPlace (elements : List Iter) : Place Iter :=
  if elements = [] then .nowhere default else .past elements.length 0

/-- The position that the iterator points to. -/
def Place.position (elements : List Iter) : Place Iter → Option Iter
  | .element i => elements[i]?
  | .past i d => elements[i - 1]?.map increment^[d + 1]
  | .ahead d => elements[0]?.map decrement^[d + 1]
  | .nowhere it => some it

end Places

section Commands
variable {Iter : Type}

/-- Commands to a chain and to the iterators of it that a program keeps. An allocation of
`pushBack` may fail. -/
inductive Command (Iter : Type) where
  | pushBack (r : Range Iter) (fails : Bool)
  | moveBegin (k : ℕ)
  | moveEnd (k : ℕ)
  | copy (j k : ℕ)
  | increase (k : ℕ)
  | decrease (k : ℕ)
  | equal (j k : ℕ)
  | getInner (k : ℕ)

/-- Whatever enters the chain has an element. -/
def Command.Full (command : Command Iter) : Prop :=
  ∀ r, command = .pushBack r false → r.length ≠ 0

inductive Answer (Iter : Type) where
  | done
  | truth (b : Bool)
  | inner (it : Iter)
  deriving DecidableEq, Repr

abbrev GrowthState (Iter : Type) := World Iter × (ℕ → ChainedIterator Iter)

def onChain {β : Type} (m : Exec (World Iter) β) : Exec (GrowthState Iter) β :=
  zoom Prod.fst (fun w s => (w, s.2)) m

def setCursor (k : ℕ) (q : ChainedIterator Iter) : Exec (GrowthState Iter) Unit :=
  modify fun s => (s.1, Function.update s.2 k q)

theorem onChain_run {β : Type} {m : Exec (World Iter) β} {b : β} {s : GrowthState Iter}
    (hrun : m.run s.1 = .ok b s.1) : (onChain m).run s = .ok b s := by
  rw [onChain, zoom_ok hrun]

variable [InnerIterator Iter] [DecidableEq Iter]

def Command.run (assertions : Bool) (c : ℕ) : Command Iter → Exec (GrowthState Iter) (Answer Iter)
  | .pushBack r fails => do
    onChain (IteratorChain.pushBack assertions c r.first r.last fails)
    return .done
  | .moveBegin k => do
    setCursor k (← onChain (chainBegin c))
    return .done
  | .moveEnd k => do
    setCursor k (← onChain (chainEnd c))
    return .done
  | .copy j k => do
    setCursor j ((← get).2 k)
    return .done
  | .increase k => do
    setCursor k (← onChain (increaseInner ((← get).2 k)))
    return .done
  | .decrease k => do
    setCursor k (← onChain (decreaseInner ((← get).2 k)))
    return .done
  | .equal j k => do
    let s ← get
    return .truth (ChainIndices.equal (s.2 j) (s.2 k))
  | .getInner k => do
    return .inner ((← get).2 k).mIt

/-- A growing list of elements, and the places of the iterators on it. -/
def growthMachine : Machine (List Iter × (ℕ → Place Iter)) (Command Iter)
    (Except Stop (Answer Iter)) := fun command s =>
  match command with
  | .pushBack r fails =>
    if fails then (.error (.throws .badAlloc), s) else (.ok .done, s.1 ++ r.elements, s.2)
  | .moveBegin k => (.ok .done, s.1, Function.update s.2 k (firstPlace s.1))
  | .moveEnd k => (.ok .done, s.1, Function.update s.2 k (lastPlace s.1))
  | .copy j k => (.ok .done, s.1, Function.update s.2 j (s.2 k))
  | .increase k => (.ok .done, s.1, Function.update s.2 k ((s.2 k).next s.1.length))
  | .decrease k => (.ok .done, s.1, Function.update s.2 k (s.2 k).prev)
  | .equal j k => (.ok (.truth (s.2 j = s.2 k)), s)
  | .getInner k => (.ok (.inner (((s.2 k).position s.1).getD default)), s)

end Commands

section Nodes
variable {Iter : Type} {nodes before after : List (ℕ × Range Iter)} {n : ℕ} {r : Range Iter}

def AllFull (nodes : List (ℕ × Range Iter)) : Prop := ∀ node ∈ nodes, node.2.length ≠ 0

theorem AllFull.pos (h : AllFull nodes) (hnodes : nodes = before ++ (n, r) :: after) :
    0 < r.length := by
  have hne : r.length ≠ 0 := h (n, r) (by rw [hnodes]; simp)
  omega

theorem AllFull.append (h : AllFull nodes) (hr : r.length ≠ 0) (n : ℕ) :
    AllFull (nodes ++ [(n, r)]) := by
  intro node hnode
  rcases List.mem_append.mp hnode with hold | hnew
  · exact h node hold
  · rw [List.mem_singleton.mp hnew]
    exact hr

theorem AllFull.lengthOf_eq_zero (h : AllFull nodes) : lengthOf nodes = 0 ↔ nodes = [] := by
  cases nodes with
  | nil => simp
  | cons node nodes =>
    obtain ⟨n, r⟩ := node
    have hnodes : (n, r) :: nodes = [] ++ (n, r) :: nodes := rfl
    have hpos := h.pos hnodes
    rw [lengthOf_cons]
    simp
    omega

end Nodes

section Standing
variable {Iter : Type} [InnerIterator Iter]
variable {nodes before before' mid after after' : List (ℕ × Range Iter)} {c n n' d i i' j j' m : ℕ}
  {r r' : Range Iter} {w : World Iter} {p p' : Place Iter} {q q' : ChainedIterator Iter}

/-- The iterator of a place on a chain. -/
inductive Stands (nodes : List (ℕ × Range Iter)) : Place Iter → ChainedIterator Iter → Prop where
  | element {before after : List (ℕ × Range Iter)} {n : ℕ} {r : Range Iter} (j i : ℕ)
      (hnodes : nodes = before ++ (n, r) :: after) (hj : j < r.length)
      (hi : i = lengthOf before + j) : Stands nodes (.element i) (position n r j)
  | past {before after : List (ℕ × Range Iter)} {n : ℕ} {r : Range Iter} (d i : ℕ)
      (hnodes : nodes = before ++ (n, r) :: after) (hi : i = lengthOf before + r.length) :
      Stands nodes (.past i d) (position n r (r.length + d))
  | ahead {after : List (ℕ × Range Iter)} {n : ℕ} {r : Range Iter} (d : ℕ)
      (hnodes : nodes = [] ++ (n, r) :: after) :
      Stands nodes (.ahead d) ⟨decrement^[d + 1] r.first, some n⟩
  | nowhere (it : Iter) : Stands nodes (.nowhere it) ⟨it, none⟩

/-- Growth moves no iterator. -/
theorem Stands.append (h : Stands nodes p q) (more : List (ℕ × Range Iter)) :
    Stands (nodes ++ more) p q := by
  cases h with
  | @element before after n r j i hnodes hj hi =>
    have hmore : nodes ++ more = before ++ (n, r) :: (after ++ more) := by rw [hnodes]; simp
    exact .element j i hmore hj hi
  | @past before after n r d i hnodes hi =>
    have hmore : nodes ++ more = before ++ (n, r) :: (after ++ more) := by rw [hnodes]; simp
    exact .past d i hmore hi
  | @ahead after n r d hnodes =>
    have hmore : nodes ++ more = [] ++ (n, r) :: (after ++ more) := by rw [hnodes]; simp
    exact .ahead d hmore
  | nowhere it => exact .nowhere it

theorem iterate_undone (it : Iter) (d : ℕ) : increment^[d] (decrement^[d] it) = it :=
  Function.LeftInverse.iterate increment_decrement d it

/-- Going on never leads ahead of where it started. -/
theorem iterate_ne_ahead (it : Iter) (k d : ℕ) : increment^[k] it ≠ decrement^[d + 1] it := by
  intro h
  have hcycle : increment^[d + 1 + k] it = it := by
    rw [Function.iterate_add_apply, h, iterate_undone]
  rw [Nat.add_right_comm] at hcycle
  exact acyclic (d + k) it hcycle

theorem iterate_decrement_eq_iff (it : Iter) (d d' : ℕ) :
    decrement^[d] it = decrement^[d'] it ↔ d = d' := by
  constructor
  · intro h
    -- both lead back to the start, one of them too far if they differ
    have hback : increment^[d' + d] (decrement^[d] it) = increment^[d' + d] (decrement^[d'] it) :=
      congrArg _ h
    rw [Function.iterate_add_apply, iterate_undone, Nat.add_comm, Function.iterate_add_apply,
      iterate_undone] at hback
    exact ((iterate_eq_iff it d' d).mp hback).symm
  · exact fun h => h ▸ rfl

/-- An item is in one place of the list. -/
theorem same_node (h : Holds w c (doubly none nodes)) (hnodes : nodes = before ++ (n, r) :: after)
    (hnodes' : nodes = before' ++ (n', r') :: after') (hchain : some n = some n') :
    before = before' ∧ n = n' ∧ r = r' := by
  cases hchain
  rcases node_order hnodes hnodes' with ⟨hbefore, -, hr⟩ | ⟨mid, rfl⟩ | ⟨mid, rfl⟩
  · exact ⟨hbefore, rfl, hr⟩
  · exact absurd rfl (nodes_apart h hnodes')
  · exact absurd rfl (nodes_apart h hnodes)

/-- A place on the chain has one iterator. -/
theorem Stands.unique (hfull : AllFull nodes) (hq : Stands nodes p q) (hq' : Stands nodes p q') :
    q = q' := by
  cases hq with
  | @element before after n r j i hnodes hj hi =>
    cases hq' with
    | @element before' after' n' r' j' i' hnodes' hj' hi' =>
      rcases node_order hnodes hnodes' with ⟨rfl, rfl, rfl⟩ | ⟨mid, hlater⟩ | ⟨mid, hlater⟩
      · rw [position_eq_iff]
        omega
      · have hle := lengthOf_prefix_le hlater
        omega
      · have hle := lengthOf_prefix_le hlater
        omega
  | @past before after n r d i hnodes hi =>
    cases hq' with
    | @past before' after' n' r' d' i' hnodes' hi' =>
      have hpos := hfull.pos hnodes
      have hpos' := hfull.pos hnodes'
      rcases node_order hnodes hnodes' with ⟨rfl, rfl, rfl⟩ | ⟨mid, hlater⟩ | ⟨mid, hlater⟩
      · rfl
      · have hle := lengthOf_prefix_le hlater
        omega
      · have hle := lengthOf_prefix_le hlater
        omega
  | ahead d hnodes =>
    cases hq' with
    | ahead d' hnodes' =>
      cases hnodes.symm.trans hnodes'
      rfl
  | nowhere it =>
    cases hq' with
    | nowhere it' => rfl

/-- And an iterator has one place. -/
theorem Stands.place_eq (h : Holds w c (doubly none nodes)) (hq : Stands nodes p q)
    (hq' : Stands nodes p' q') (heq : q = q') : p = p' := by
  have hchain := congrArg ChainedIterator.mChain heq
  have hit := congrArg ChainedIterator.mIt heq
  cases hq with
  | @element before after n r j i hnodes hj hi =>
    cases hq' with
    | @element before' after' n' r' j' i' hnodes' hj' hi' =>
      obtain ⟨rfl, rfl, rfl⟩ := same_node h hnodes hnodes' hchain
      have hjj : j = j' := (iterate_eq_iff _ _ _).mp hit
      rw [hi, hi', hjj]
    | @past before' after' n' r' d i' hnodes' hi' =>
      obtain ⟨rfl, rfl, rfl⟩ := same_node h hnodes hnodes' hchain
      have hjj : j = r.length + d := (iterate_eq_iff _ _ _).mp hit
      omega
    | @ahead after' n' r' d hnodes' =>
      obtain ⟨rfl, rfl, rfl⟩ := same_node h hnodes hnodes' hchain
      exact absurd hit (iterate_ne_ahead _ _ _)
    | nowhere it => cases hchain
  | @past before after n r d i hnodes hi =>
    cases hq' with
    | @element before' after' n' r' j' i' hnodes' hj' hi' =>
      obtain ⟨rfl, rfl, rfl⟩ := same_node h hnodes hnodes' hchain
      have hjj : r.length + d = j' := (iterate_eq_iff _ _ _).mp hit
      omega
    | @past before' after' n' r' d' i' hnodes' hi' =>
      obtain ⟨rfl, rfl, rfl⟩ := same_node h hnodes hnodes' hchain
      have hdd : r.length + d = r.length + d' := (iterate_eq_iff _ _ _).mp hit
      rw [hi, hi', Nat.add_left_cancel hdd]
    | @ahead after' n' r' d' hnodes' =>
      obtain ⟨rfl, rfl, rfl⟩ := same_node h hnodes hnodes' hchain
      exact absurd hit (iterate_ne_ahead _ _ _)
    | nowhere it => cases hchain
  | @ahead after n r d hnodes =>
    cases hq' with
    | @element before' after' n' r' j' i' hnodes' hj' hi' =>
      obtain ⟨rfl, rfl, rfl⟩ := same_node h hnodes hnodes' hchain
      exact absurd hit.symm (iterate_ne_ahead _ _ _)
    | @past before' after' n' r' d' i' hnodes' hi' =>
      obtain ⟨rfl, rfl, rfl⟩ := same_node h hnodes hnodes' hchain
      exact absurd hit.symm (iterate_ne_ahead _ _ _)
    | @ahead after' n' r' d' hnodes' =>
      cases hnodes.symm.trans hnodes'
      have hdd := (iterate_decrement_eq_iff r.first (d + 1) (d' + 1)).mp hit
      rw [Nat.succ.inj hdd]
    | nowhere it => cases hchain
  | nowhere it =>
    cases hq' with
    | element j' i' hnodes' hj' hi' => cases hchain
    | past d' i' hnodes' hi' => cases hchain
    | ahead d' hnodes' => cases hchain
    | nowhere it' =>
      cases hit
      rfl

theorem stands_eq_iff (h : Holds w c (doubly none nodes)) (hfull : AllFull nodes)
    (hq : Stands nodes p q) (hq' : Stands nodes p' q') : q = q' ↔ p = p' := by
  constructor
  · exact hq.place_eq h hq'
  · intro hp
    subst hp
    exact hq.unique hfull hq'

theorem AllFull.elementsOf_eq_nil (h : AllFull nodes) : elementsOf nodes = [] ↔ nodes = [] := by
  rw [← List.length_eq_zero_iff, length_elementsOf, h.lengthOf_eq_zero]

theorem Stands.position (h : AllFull nodes) (hq : Stands nodes p q) :
    p.position (elementsOf nodes) = some q.mIt := by
  cases hq with
  | @element before after n r j i hnodes hj hi =>
    have hlt := lengthOf_prefix_le hnodes
    exact (At.within j hnodes (.inl hj) hi rfl).element (by omega)
  | @past before after n r d i hnodes hi =>
    have hlt := lengthOf_prefix_le hnodes
    have hpos := h.pos hnodes
    have hlast := (At.within (r.length - 1) hnodes (.inl (by omega)) rfl rfl).element (by omega)
    have hindex : i - 1 = lengthOf before + (r.length - 1) := by omega
    have hsum : d + 1 + (r.length - 1) = r.length + d := by omega
    rw [Place.position, hindex, hlast, Option.map_some]
    simp only [ChainedIterators.position]
    rw [← Function.iterate_add_apply, hsum]
  | @ahead after n r d hnodes =>
    have hlt := lengthOf_prefix_le hnodes
    have hpos := h.pos hnodes
    have hfirst := (At.within 0 hnodes (.inl hpos) rfl rfl).element (by omega)
    rw [lengthOf_nil] at hfirst
    rw [Place.position, hfirst]
    rfl
  | nowhere it => rfl

theorem stands_begin (h : Holds w c (doubly none nodes)) (hfull : AllFull nodes) :
    ∃ q, (chainBegin c).run w = .ok q w ∧ Stands nodes (firstPlace (elementsOf nodes)) q := by
  have hnil := hfull.elementsOf_eq_nil
  cases nodes with
  | nil => exact ⟨_, chainBegin_empty h, .nowhere default⟩
  | cons node after =>
    have hnodes : node :: after = [] ++ (node.1, node.2) :: after := rfl
    have hne : elementsOf (node :: after) ≠ [] := fun h => by simpa using hnil.mp h
    rw [firstPlace, if_neg hne]
    exact ⟨_, chainBegin_spec h hnodes, .element 0 0 hnodes (hfull.pos hnodes) rfl⟩

theorem stands_end (h : Holds w c (doubly none nodes)) (hfull : AllFull nodes) :
    ∃ q, (chainEnd c).run w = .ok q w ∧ Stands nodes (lastPlace (elementsOf nodes)) q := by
  have hnil := hfull.elementsOf_eq_nil
  rcases List.eq_nil_or_concat nodes with rfl | ⟨before, ⟨n, r⟩, hnodes⟩
  · exact ⟨_, chainEnd_empty h, .nowhere default⟩
  · rw [List.concat_eq_append] at hnodes
    have hne : elementsOf nodes ≠ [] := by
      intro hempty
      rw [hnil.mp hempty] at hnodes
      simp at hnodes
    have hlength : (elementsOf nodes).length = lengthOf before + r.length := by
      rw [length_elementsOf, hnodes, lengthOf_concat]
    rw [lastPlace, if_neg hne]
    exact ⟨_, chainEnd_spec h hnodes, .past 0 _ hnodes hlength⟩

variable [DecidableEq Iter]

theorem stands_increase (h : Holds w c (doubly none nodes)) (hfull : AllFull nodes)
    (hq : Stands nodes p q) :
    ∃ q', (increaseInner q).run w = .ok q' w ∧ Stands nodes (p.next (lengthOf nodes)) q' := by
  cases hq with
  | @element before after n r j i hnodes hj hi =>
    have hle := lengthOf_prefix_le hnodes
    by_cases hinside : j + 1 < r.length
    · have hne : i + 1 ≠ lengthOf nodes := by omega
      rw [Place.next, if_neg hne]
      exact ⟨_, increaseInner_inside h hnodes (.inl (by omega)),
        .element (j + 1) (i + 1) hnodes hinside (by omega)⟩
    · have hlast : j + 1 = r.length := by omega
      cases after with
      | nil =>
        have heq : i + 1 = lengthOf nodes := by
          rw [hnodes, lengthOf_concat]
          omega
        rw [Place.next, if_pos heq]
        refine ⟨_, increaseInner_inside h hnodes (.inr rfl), ?_⟩
        rw [hlast]
        exact .past 0 (i + 1) hnodes (by omega)
      | cons node after =>
        obtain ⟨m, r'⟩ := node
        have hnodes' : nodes = (before ++ [(n, r)]) ++ (m, r') :: after :=
          hnodes.trans (List.append_cons _ _ _)
        have hpos := hfull.pos hnodes'
        have hle' := lengthOf_prefix_le hnodes'
        rw [lengthOf_concat] at hle'
        have hne : i + 1 ≠ lengthOf nodes := by omega
        rw [Place.next, if_neg hne]
        exact ⟨_, increaseInner_hop h hnodes hlast,
          .element 0 (i + 1) hnodes' hpos (by rw [lengthOf_concat]; omega)⟩
  | @past before after n r d i hnodes hi =>
    exact ⟨_, increaseInner_inside h hnodes (.inl (by omega)), .past (d + 1) i hnodes hi⟩
  | @ahead after n r d hnodes =>
    have hcell := cell_of_doubly h hnodes
    have hback : increment (decrement^[d + 1] r.first) = decrement^[d] r.first := by
      rw [Function.iterate_succ_apply', increment_decrement]
    cases d with
    | zero =>
      have hpos := hfull.pos hnodes
      have hlast : increment (decrement^[0 + 1] r.first) ≠ r.last := by
        rw [hback]
        exact fun heq => absurd ((iterate_eq_iff r.first 0 r.length).mp heq) (by omega)
      refine ⟨_, increaseInner_stays hcell (.inl hlast), ?_⟩
      rw [hback]
      exact .element 0 0 hnodes hpos rfl
    | succ d =>
      have hlast : increment (decrement^[d + 1 + 1] r.first) ≠ r.last := by
        rw [hback]
        exact fun heq => iterate_ne_ahead r.first r.length d heq.symm
      refine ⟨_, increaseInner_stays hcell (.inl hlast), ?_⟩
      rw [hback]
      exact .ahead d hnodes
  | nowhere it => exact ⟨_, rfl, .nowhere _⟩

theorem stands_decrease (h : Holds w c (doubly none nodes)) (hfull : AllFull nodes)
    (hq : Stands nodes p q) :
    ∃ q', (decreaseInner q).run w = .ok q' w ∧ Stands nodes p.prev q' := by
  cases hq with
  | @element before after n r j i hnodes hj hi =>
    cases j with
    | succ j =>
      subst hi
      exact ⟨_, decreaseInner_inside h hnodes, .element j _ hnodes (by omega) rfl⟩
    | zero =>
      rcases List.eq_nil_or_concat before with rfl | ⟨before, ⟨m, r'⟩, rfl⟩
      · subst hi
        exact ⟨_, decreaseInner_first h hnodes, .ahead 0 hnodes⟩
      · rw [List.concat_eq_append] at hnodes hi
        have hnodes' : nodes = before ++ (m, r') :: (n, r) :: after :=
          hnodes.trans (List.append_cons _ _ _).symm
        have hpos := hfull.pos hnodes'
        obtain ⟨k, hk⟩ := Nat.exists_eq_succ_of_ne_zero (Nat.ne_of_gt hpos)
        have hstep := decreaseInner_hop h hnodes'
        rw [decrement_last hk] at hstep
        rw [lengthOf_concat, hk] at hi
        subst hi
        exact ⟨_, hstep, .element k _ hnodes' (by omega) rfl⟩
  | @past before after n r d i hnodes hi =>
    cases d with
    | zero =>
      have hpos := hfull.pos hnodes
      have hlast : r.length + 0 = r.length - 1 + 1 := by omega
      rw [hlast]
      exact ⟨_, decreaseInner_inside h hnodes,
        .element (r.length - 1) (i - 1) hnodes (by omega) (by omega)⟩
    | succ d =>
      exact ⟨_, decreaseInner_inside h hnodes, .past d i hnodes hi⟩
  | @ahead after n r d hnodes =>
    have hcell := cell_of_doubly h hnodes
    have hfirst : decrement^[d + 1] r.first ≠ r.first := fun heq =>
      iterate_ne_ahead r.first 0 d heq.symm
    refine ⟨_, decreaseInner_stays hcell (.inl hfirst), ?_⟩
    rw [← Function.iterate_succ_apply' decrement]
    exact .ahead (d + 1) hnodes
  | nowhere it => exact ⟨_, rfl, .nowhere _⟩

end Standing

section Growth
variable {Iter : Type} [InnerIterator Iter] {nodes : List (ℕ × Range Iter)} {c k : ℕ}
  {w : World Iter} {s : GrowthState Iter} {t : List Iter × (ℕ → Place Iter)} {p : Place Iter}
  {q : ChainedIterator Iter}

/-- The chain holds the elements, and its iterators stand at their places. -/
structure Grown (c : ℕ) (nodes : List (ℕ × Range Iter)) (s : GrowthState Iter)
    (t : List Iter × (ℕ → Place Iter)) : Prop where
  holds : Holds s.1 c (doubly none nodes)
  full : AllFull nodes
  elements : t.1 = elementsOf nodes
  stands : ∀ k, Stands nodes (t.2 k) (s.2 k)

theorem Grown.set (h : Grown c nodes s t) (hq : Stands nodes p q) (k : ℕ) :
    Grown c nodes (s.1, Function.update s.2 k q) (t.1, Function.update t.2 k p) where
  holds := h.holds
  full := h.full
  elements := h.elements
  stands j := by
    by_cases hj : j = k
    · subst hj
      simpa only [Function.update_self] using hq
    · simpa only [Function.update_of_ne hj] using h.stands j

variable [DecidableEq Iter]

theorem command_matches (assertions : Bool) {command : Command Iter} (hcommand : command.Full)
    (h : Grown c nodes s t) :
    Matches (fun s t => ∃ nodes, Grown c nodes s t) (growthMachine command t)
      ((command.run assertions c).run s) := by
  have hlength : t.1.length = lengthOf nodes := by rw [h.elements, length_elementsOf]
  cases command with
  | pushBack r fails =>
    cases fails with
    | true =>
      have hpush := pushBack_fails assertions h.holds r.first r.last
      have hrun : (onChain (IteratorChain.pushBack assertions c r.first r.last true)).run s =
          .error (.throws .badAlloc) s := zoom_error hpush
      rw [Command.run, bind_error hrun]
      exact ⟨rfl, nodes, h⟩
    | false =>
      obtain ⟨u, hpush, -, hholds⟩ := pushBack_spec assertions h.holds r.first r.last
      rw [pushed_doubly] at hholds
      have hrun : (onChain (IteratorChain.pushBack assertions c r.first r.last false)).run s =
          .ok () (u, s.2) := zoom_ok hpush
      rw [Command.run, bind_ok hrun]
      refine ⟨rfl, _, hholds, h.full.append (hcommand r rfl) _, ?_, fun k => (h.stands k).append _⟩
      rw [elementsOf_concat, ← h.elements]
      rfl
  | moveBegin k =>
    obtain ⟨q, hrun, hq⟩ := stands_begin h.holds h.full
    rw [← h.elements] at hq
    rw [Command.run, bind_ok (onChain_run hrun)]
    exact ⟨rfl, nodes, h.set hq k⟩
  | moveEnd k =>
    obtain ⟨q, hrun, hq⟩ := stands_end h.holds h.full
    rw [← h.elements] at hq
    rw [Command.run, bind_ok (onChain_run hrun)]
    exact ⟨rfl, nodes, h.set hq k⟩
  | copy j k =>
    rw [Command.run, bind_ok (EStateM.run_get s)]
    exact ⟨rfl, nodes, h.set (h.stands k) j⟩
  | increase k =>
    obtain ⟨q, hrun, hq⟩ := stands_increase h.holds h.full (h.stands k)
    rw [← hlength] at hq
    rw [Command.run, bind_ok (EStateM.run_get s), bind_ok (onChain_run hrun)]
    exact ⟨rfl, nodes, h.set hq k⟩
  | decrease k =>
    obtain ⟨q, hrun, hq⟩ := stands_decrease h.holds h.full (h.stands k)
    rw [Command.run, bind_ok (EStateM.run_get s), bind_ok (onChain_run hrun)]
    exact ⟨rfl, nodes, h.set hq k⟩
  | equal j k =>
    have heq := stands_eq_iff h.holds h.full (h.stands j) (h.stands k)
    rw [Command.run, bind_ok (EStateM.run_get s)]
    refine ⟨?_, nodes, h⟩
    simp only [growthMachine, equal_eq, heq]
  | getInner k =>
    have hposition := (h.stands k).position h.full
    rw [Command.run, bind_ok (EStateM.run_get s)]
    refine ⟨?_, nodes, h⟩
    simp only [growthMachine, h.elements, hposition, Option.getD_some]

/-- Pushing ranges, each with an element, moves no iterator. One at an element goes on into the new
ranges, while what was `end()` before a push is past its elements for good: the steps on from it
lead ever further from the chain, and the steps back lead to the last of those elements. -/
theorem iterators_of_growing_chain (assertions : Bool) (c : ℕ) (w : World Iter) :
    ∃ u, (construct c).run w = .ok () u ∧
      ∀ commands : List (Command Iter), (∀ command ∈ commands, command.Full) →
        transcript (session (Command.run assertions c)) commands (u, fun _ => ⟨default, none⟩) =
          transcript growthMachine commands ([], fun _ => .nowhere default) := by
  obtain ⟨u, hrun, -, hempty⟩ := construct_spec c w
  refine ⟨u, hrun, fun commands hcommands => ?_⟩
  have hstart : ∃ nodes, Grown c nodes ((u, fun _ => ⟨default, none⟩) : GrowthState Iter)
      ([], fun _ => .nowhere default) :=
    ⟨[], hempty, nofun, rfl, fun _ => .nowhere default⟩
  have hstep : ∀ (command : Command Iter) (s : GrowthState Iter)
      (t : List Iter × (ℕ → Place Iter)), command.Full → (∃ nodes, Grown c nodes s t) →
      Matches (fun s t => ∃ nodes, Grown c nodes s t) (growthMachine command t)
        ((command.run assertions c).run s) :=
    fun _ _ _ hcommand h => h.elim fun _ hgrown => command_matches assertions hcommand hgrown
  exact (session_follows hstep commands hcommands hstart).1

/-- The former `end()` steps off the chain, and back to the last element that it was behind. -/
theorem iterators_of_growing_chain_formerEnd :
    ∃ u, (construct 0).run (World.init : World ℤ) = .ok () u ∧
      (transcript (session (Command.run true 0)) [.pushBack ⟨0, 2⟩ false, .moveEnd 0,
        .pushBack ⟨9, 0⟩ true, .pushBack ⟨7, 1⟩ false, .increase 0, .getInner 0, .decrease 0,
        .decrease 0, .getInner 0, .increase 0, .getInner 0] (u, fun _ => ⟨default, none⟩)).map
          (·.2) = [.ok .done, .ok .done, .error (.throws .badAlloc), .ok .done, .ok .done,
            .ok (.inner 3), .ok .done, .ok .done, .ok (.inner 1), .ok .done, .ok (.inner 7)] := by
  obtain ⟨u, hrun, hanswers⟩ := iterators_of_growing_chain true 0 (World.init : World ℤ)
  refine ⟨u, hrun, ?_⟩
  rw [hanswers]
  · rfl
  · intro command hcommand r hr
    subst hr
    have hpushed : r = ⟨0, 2⟩ ∨ r = ⟨7, 1⟩ := by simpa using hcommand
    rcases hpushed with rfl | rfl
    · decide
    · decide

end Growth

section Loops
variable {Iter : Type} [InnerIterator Iter]
variable {nodes before after : List (ℕ × Range Iter)} {c i j n : ℕ} {r : Range Iter}
  {w : World Iter} {p : Place Iter} {q last : ChainedIterator Iter}

/-- The places from which going on does not lead to `end()`. -/
def Place.Lost (length : ℕ) : Place Iter → Prop
  | .past i _ => i < length
  | .nowhere _ => True
  | _ => False

theorem Place.Lost.next {length : ℕ} (h : p.Lost length) : (p.next length).Lost length := by
  cases p with
  | element i => exact h.elim
  | past i d => exact h
  | ahead d => exact h.elim
  | nowhere it => trivial

theorem lastPlace_not_lost {elements : List Iter} (h : elements ≠ []) :
    ¬ (lastPlace elements).Lost elements.length := by
  rw [lastPlace, if_neg h]
  exact Nat.lt_irrefl _

theorem drop_elements (hj : j ≤ r.length) :
    r.elements.drop j = List.iterate increment (increment^[j] r.first) (r.length - j) := by
  have hsum : r.length = j + (r.length - j) := by omega
  have hlength : (List.iterate increment r.first j).length = j := List.length_iterate ..
  rw [Range.elements]
  nth_rewrite 1 [hsum]
  rw [List.iterate_add, List.drop_left' hlength]

theorem drop_elementsOf (hnodes : nodes = before ++ (n, r) :: after) (hj : j ≤ r.length) :
    (elementsOf nodes).drop (lengthOf before + j) =
      List.iterate increment (increment^[j] r.first) (r.length - j) ++ elementsOf after := by
  have hle : j ≤ r.elements.length := by rwa [length_elements]
  rw [hnodes, elementsOf_append, elementsOf_cons, ← length_elementsOf, ← List.drop_drop,
    List.drop_left, List.drop_append_of_le_length hle, drop_elements hj]

/-- Pushes leave the nodes that are there in front. -/
theorem pushAll_append (assertions : Bool) (more : List (Range Iter))
    (h : Holds w c (doubly none nodes)) :
    ∃ u nodes', (pushAll assertions c more).run w = .ok () u ∧
      Holds u c (doubly none (nodes ++ nodes')) ∧ nodes'.map (·.2) = more := by
  induction more generalizing w nodes with
  | nil => exact ⟨w, [], rfl, by rwa [List.append_nil], rfl⟩
  | cons r more ih =>
    obtain ⟨v, hrun, -, hholds⟩ := pushBack_spec assertions h r.first r.last
    rw [pushed_doubly] at hholds
    obtain ⟨u, nodes', hrest, hu, hranges⟩ := ih hholds
    refine ⟨u, (w.items.bound, r) :: nodes', runAll_cons_ok.mpr ⟨v, hrun, hrest⟩, ?_, ?_⟩
    · rw [List.append_cons]
      exact hu
    · rw [List.map_cons, hranges]

variable [DecidableEq Iter]

/-- `++` a number of times. -/
def advance : ℕ → ChainedIterator Iter → Exec (World Iter) (ChainedIterator Iter)
  | 0, q => return q
  | steps + 1, q => do advance steps (← increaseInner q)

theorem advance_stands (h : Holds w c (doubly none nodes)) (hfull : AllFull nodes) (steps : ℕ)
    (hq : Stands nodes (.element i) q) (hsteps : i + steps < lengthOf nodes) :
    ∃ q', (advance steps q).run w = .ok q' w ∧ Stands nodes (.element (i + steps)) q' := by
  induction steps generalizing i q with
  | zero => exact ⟨q, rfl, hq⟩
  | succ steps ih =>
    obtain ⟨q', hrun, hq'⟩ := stands_increase h hfull hq
    have hne : i + 1 ≠ lengthOf nodes := by omega
    rw [Place.next, if_neg hne] at hq'
    obtain ⟨q'', hrest, hq''⟩ := ih hq' (by omega)
    rw [Nat.add_right_comm] at hq''
    exact ⟨q'', by rw [advance, bind_ok hrun, hrest], hq''⟩

theorem loop_of_element (h : Holds w c (doubly none nodes)) (hfull : AllFull nodes)
    (hq : Stands nodes (.element i) q) (hlast : (chainEnd c).run w = .ok last w) :
    (forwardLoop (lengthOf nodes - i) q last).run w = .ok ((elementsOf nodes).drop i) w := by
  cases hq with
  | @element before after n r j i hnodes hj hi =>
    rcases List.eq_nil_or_concat nodes with rfl | ⟨front, ⟨l, s⟩, hconcat⟩
    · simp at hnodes
    · rw [List.concat_eq_append] at hconcat
      rw [chainEnd_spec h hconcat] at hlast
      cases hlast
      have hdropLast : ∀ node ∈ nodes.dropLast, node.2.length ≠ 0 := fun node hnode =>
        hfull node (List.dropLast_subset _ hnode)
      have hlength : lengthOf nodes - i = r.length - j + lengthOf after := by
        rw [hnodes, lengthOf_append, lengthOf_cons]
        omega
      rw [forwardLoop_run _ h hnodes (by rw [hconcat, List.getLast?_concat]) hdropLast (.inl hj)
        hlength, hi, drop_elementsOf hnodes (Nat.le_of_lt hj)]

theorem loop_of_lost (h : Holds w c (doubly none nodes)) (hfull : AllFull nodes)
    (hne : nodes ≠ []) (hq : Stands nodes p q) (hp : p.Lost (lengthOf nodes))
    (hlast : (chainEnd c).run w = .ok last w) (steps : ℕ) :
    (forwardLoop steps q last).run w = .error (.faults .diverges) w := by
  obtain ⟨last', hrun, hplace⟩ := stands_end h hfull
  rw [hlast] at hrun
  cases hrun
  have helements : elementsOf nodes ≠ [] := fun hnil => hne (hfull.elementsOf_eq_nil.mp hnil)
  have hnot := lastPlace_not_lost helements
  rw [length_elementsOf] at hnot
  apply forwardLoop_diverges (S := fun q => ∃ p, Stands nodes p q ∧ p.Lost (lengthOf nodes))
  · intro q hq heq
    obtain ⟨p, hstands, hlost⟩ := hq
    rw [hstands.place_eq h hplace heq] at hlost
    exact hnot hlost
  · intro q hq
    obtain ⟨p, hstands, hlost⟩ := hq
    obtain ⟨q', hrun, hq'⟩ := stands_increase h hfull hstands
    exact ⟨q', hrun, _, hq', hlost.next⟩
  · exact ⟨p, hq, hp⟩

/-- After more ranges were pushed, a loop from an iterator to an element visits what is left of
the old ranges and all of the new ones. A loop from the former `end()` does not end. -/
theorem loops_after_growth (assertions : Bool) (c : ℕ) (ranges more : List (Range Iter))
    (w : World Iter) (hfull : ∀ r ∈ ranges ++ more, r.length ≠ 0) (hmore : more ≠ []) :
    ∃ u v first formerEnd last,
      (do construct c; pushAll assertions c ranges : Exec (World Iter) Unit).run w = .ok () u ∧
      (chainBegin c).run u = .ok first u ∧ (chainEnd c).run u = .ok formerEnd u ∧
      (pushAll assertions c more).run u = .ok () v ∧ (chainEnd c).run v = .ok last v ∧
      (∀ i < totalLength ranges, ∃ q, (advance i first).run u = .ok q u ∧
        (forwardLoop (totalLength (ranges ++ more) - i) q last).run v =
          .ok ((concatenation (ranges ++ more)).drop i) v) ∧
      ∀ steps, (forwardLoop steps formerEnd last).run v = .error (.faults .diverges) v := by
  obtain ⟨u, nodes, hbuild, hu, hranges⟩ := build_spec assertions c ranges w
  obtain ⟨v, nodes', hpush, hv, hmore'⟩ := pushAll_append assertions more hu
  have hall : (nodes ++ nodes').map (·.2) = ranges ++ more := by
    rw [List.map_append, hranges, hmore']
  have hfull' : AllFull (nodes ++ nodes') := fun node hnode =>
    hfull node.2 (hall ▸ List.mem_map_of_mem hnode)
  have hfullU : AllFull nodes := fun node hnode => hfull' node (List.mem_append_left _ hnode)
  have hlength : lengthOf (nodes ++ nodes') = totalLength (ranges ++ more) :=
    congrArg totalLength hall
  have helements : elementsOf (nodes ++ nodes') = concatenation (ranges ++ more) :=
    congrArg concatenation hall
  obtain ⟨first, hfirst, hbegin⟩ := stands_begin hu hfullU
  obtain ⟨formerEnd, hformer, hend⟩ := stands_end hu hfullU
  obtain ⟨last, hlast, -⟩ := stands_end hv hfull'
  refine ⟨u, v, first, formerEnd, last, hbuild, hfirst, hformer, hpush, hlast, ?_, ?_⟩
  · intro i hi
    have hi' : i < lengthOf nodes := by rwa [lengthOf, hranges]
    have hne : elementsOf nodes ≠ [] := by
      rw [← List.length_pos_iff, length_elementsOf]
      omega
    rw [firstPlace, if_neg hne] at hbegin
    obtain ⟨q, hadvance, hq⟩ := advance_stands hu hfullU i hbegin (by omega)
    rw [Nat.zero_add] at hq
    have hloop := loop_of_element hv hfull' (hq.append nodes') hlast
    rw [hlength, helements] at hloop
    exact ⟨q, hadvance, hloop⟩
  · intro steps
    have hnodes' : nodes' ≠ [] := by
      rintro rfl
      exact hmore hmore'.symm
    have hpos : 0 < lengthOf nodes' := by
      have hfullMore : AllFull nodes' := fun node hnode =>
        hfull' node (List.mem_append_right _ hnode)
      exact Nat.pos_of_ne_zero fun h => hnodes' (hfullMore.lengthOf_eq_zero.mp h)
    have hlost : (lastPlace (elementsOf nodes)).Lost (lengthOf (nodes ++ nodes')) := by
      unfold lastPlace
      split
      · trivial
      · rw [Place.Lost, length_elementsOf, lengthOf_append]
        omega
    exact loop_of_lost hv hfull' (by simp [hnodes']) (hend.append nodes') hlost hlast steps

end Loops

section Instances

/-- One range of two elements, and another behind it. -/
theorem loops_after_growth_twoRanges :
    ∃ u v first formerEnd last,
      (do construct 0; pushAll true 0 [⟨0, 2⟩] : Exec (World ℤ) Unit).run World.init = .ok () u ∧
      (chainBegin 0).run u = .ok first u ∧ (chainEnd 0).run u = .ok formerEnd u ∧
      (pushAll true 0 [⟨7, 1⟩]).run u = .ok () v ∧ (chainEnd 0).run v = .ok last v ∧
      (∃ q, (advance 1 first).run u = .ok q u ∧ (forwardLoop 2 q last).run v = .ok [1, 7] v) ∧
      (forwardLoop 9 formerEnd last).run v = .error (.faults .diverges) v := by
  obtain ⟨u, v, first, formerEnd, last, hbuild, hfirst, hformer, hpush, hlast, hloop, hlost⟩ :=
    loops_after_growth true 0 [⟨(0 : ℤ), 2⟩] [⟨7, 1⟩] World.init (by simp) (by simp)
  exact ⟨u, v, first, formerEnd, last, hbuild, hfirst, hformer, hpush, hlast,
    hloop 1 (by decide), hlost 9⟩

end Instances

end PdkHeaders.ChainGrowth
