import Mathlib.Data.List.Iterate
import PdkHeaders.ChainSpecs

set_option autoImplicit false

/-!
# Chained iterators

The iterator over the ranges of a chain, and where its steps lead on a chain that was built by
`push_back` alone.
-/
namespace PdkHeaders.ChainedIterators
open PdkHeaders.Library.Execution PdkHeaders.Library.Stores PdkHeaders.Library.Paths
open PdkHeaders.IteratorChain PdkHeaders.ChainSpecs

/-- The inner iterators: two steps that undo each other, and no way back to a position by
going on. -/
class InnerIterator (Iter : Type) extends Inhabited Iter where
  increment : Iter → Iter
  decrement : Iter → Iter
  decrement_increment : ∀ it, decrement (increment it) = it
  increment_decrement : ∀ it, increment (decrement it) = it
  acyclic : ∀ n it, increment^[n + 1] it ≠ it

open InnerIterator

instance : InnerIterator ℤ where
  increment it := it + 1
  decrement it := it - 1
  decrement_increment it := by omega
  increment_decrement it := by omega
  acyclic n it := by
    have hadd : ∀ m : ℕ, (fun it : ℤ => it + 1)^[m] it = it + m := by
      intro m
      induction m with
      | zero => simp
      | succ m ih =>
        rw [Function.iterate_succ_apply', ih]
        push_cast
        omega
    rw [hadd]
    push_cast
    omega

structure ChainedIterator (Iter : Type) where
  mIt : Iter
  mChain : Option ℕ
  deriving DecidableEq, Repr

section Steps
variable {Iter : Type} [InnerIterator Iter] [DecidableEq Iter]

def increaseInner (q : ChainedIterator Iter) : Exec (World Iter) (ChainedIterator Iter) := do
  let mIt := increment q.mIt
  match q.mChain with
  | none => return ⟨mIt, none⟩
  | some n =>
    let node ← readItem n
    if mIt = node.rangeEnd then
      match node.next with
      | some next => return ⟨(← readItem next).rangeBegin, some next⟩
      | none => return ⟨mIt, some n⟩
    return ⟨mIt, some n⟩

def decreaseInner (q : ChainedIterator Iter) : Exec (World Iter) (ChainedIterator Iter) := do
  match q.mChain with
  | none => return ⟨decrement q.mIt, none⟩
  | some n =>
    let node ← readItem n
    if q.mIt = node.rangeBegin then
      match node.prev with
      | some prev => return ⟨decrement (← readItem prev).rangeEnd, some prev⟩
      | none => return ⟨decrement q.mIt, some n⟩
    return ⟨decrement q.mIt, some n⟩

def chainBegin (c : ℕ) : Exec (World Iter) (ChainedIterator Iter) := do
  match (← readChain c).mBegin with
  | some n => return ⟨(← readItem n).rangeBegin, some n⟩
  | none => return ⟨default, none⟩

def chainEnd (c : ℕ) : Exec (World Iter) (ChainedIterator Iter) := do
  match (← readChain c).mEnd with
  | some n => return ⟨(← readItem n).rangeEnd, some n⟩
  | none => return ⟨default, none⟩

variable {w : World Iter} {it : Iter} {n m : ℕ} {item item' : ChainItem Iter}

theorem increaseInner_stays (hitem : w.items.cell n = some item)
    (hit : increment it ≠ item.rangeEnd ∨ item.next = none) :
    (increaseInner ⟨it, some n⟩).run w = .ok ⟨increment it, some n⟩ w := by
  rw [increaseInner, bind_ok (readItem_run hitem)]
  rcases hit with hinside | hlast
  · rw [if_neg hinside]
    rfl
  · rw [hlast]
    split <;> rfl

theorem increaseInner_hops (hitem : w.items.cell n = some item)
    (hit : increment it = item.rangeEnd) (hnext : item.next = some m)
    (hitem' : w.items.cell m = some item') :
    (increaseInner ⟨it, some n⟩).run w = .ok ⟨item'.rangeBegin, some m⟩ w := by
  rw [increaseInner, bind_ok (readItem_run hitem), if_pos hit, hnext]
  simp only
  rw [bind_ok (readItem_run hitem')]
  rfl

theorem decreaseInner_stays (hitem : w.items.cell n = some item)
    (hit : it ≠ item.rangeBegin ∨ item.prev = none) :
    (decreaseInner ⟨it, some n⟩).run w = .ok ⟨decrement it, some n⟩ w := by
  rw [decreaseInner, bind_ok (readItem_run hitem)]
  rcases hit with hinside | hfirst
  · rw [if_neg hinside]
    rfl
  · rw [hfirst]
    split <;> rfl

theorem decreaseInner_hops (hitem : w.items.cell n = some item)
    (hit : it = item.rangeBegin) (hprev : item.prev = some m)
    (hitem' : w.items.cell m = some item') :
    (decreaseInner ⟨it, some n⟩).run w = .ok ⟨decrement item'.rangeEnd, some m⟩ w := by
  rw [decreaseInner, bind_ok (readItem_run hitem), if_pos hit, hprev]
  simp only
  rw [bind_ok (readItem_run hitem')]
  rfl

end Steps

theorem linkLast_cons_cons {Iter : Type} (m : ℕ) (item item' : ℕ × ChainItem Iter)
    (rest : Items Iter) :
    linkLast m (item :: item' :: rest) = item :: linkLast m (item' :: rest) := by
  simp [linkLast]

/-- The last of a list, or what comes before it. -/
theorem getLast_or_cons (n : ℕ) (ns : List ℕ) (p : Option ℕ) :
    (n :: ns).getLast?.or p = ns.getLast?.or (some n) := by
  rw [List.getLast?_cons]
  cases ns.getLast? <;> rfl

section Ranges
variable {Iter : Type} [InnerIterator Iter]

theorem increment_injective : Function.Injective (increment : Iter → Iter) :=
  Function.LeftInverse.injective decrement_increment

theorem iterate_eq_iff (it : Iter) (i j : ℕ) :
    increment^[i] it = increment^[j] it ↔ i = j := by
  constructor
  · intro h
    by_contra hne
    rcases Nat.lt_or_gt_of_ne hne with hlt | hlt
    · have hcancel := Function.iterate_cancel increment_injective h.symm
      obtain ⟨m, hm⟩ := Nat.exists_eq_succ_of_ne_zero (by omega : j - i ≠ 0)
      rw [hm] at hcancel
      exact acyclic m it hcancel
    · have hcancel := Function.iterate_cancel increment_injective h
      obtain ⟨m, hm⟩ := Nat.exists_eq_succ_of_ne_zero (by omega : i - j ≠ 0)
      rw [hm] at hcancel
      exact acyclic m it hcancel
  · exact fun h => h ▸ rfl

/-- A valid range, by its first position and its length. -/
structure Range (Iter : Type) where
  first : Iter
  length : ℕ
  deriving DecidableEq, Repr

def Range.last (r : Range Iter) : Iter := increment^[r.length] r.first

def Range.elements (r : Range Iter) : List Iter := List.iterate increment r.first r.length

def pushAll (assertions : Bool) (c : ℕ) (ranges : List (Range Iter)) : Exec (World Iter) Unit :=
  runAll (fun r => pushBack assertions c r.first r.last false) ranges

/-- The items of nodes that are linked both ways; `p` is what comes before them. -/
def doubly : Option ℕ → List (ℕ × Range Iter) → Items Iter
  | _, [] => []
  | p, (n, r) :: rest =>
    (n, ⟨r.first, r.last, (rest.map (·.1)).head?, p⟩) :: doubly (some n) rest

variable {nodes before after : List (ℕ × Range Iter)} {c n m j : ℕ} {r r' : Range Iter}
  {w : World Iter}

theorem doubly_addresses (p : Option ℕ) (nodes : List (ℕ × Range Iter)) :
    addresses (doubly p nodes) = nodes.map (·.1) := by
  induction nodes generalizing p with
  | nil => rfl
  | cons node rest ih =>
    obtain ⟨n, r⟩ := node
    rw [doubly, addresses_cons, ih, List.map_cons]

theorem linkLast_doubly (m : ℕ) (r : Range Iter) (p : Option ℕ) (nodes : List (ℕ × Range Iter)) :
    linkLast m (doubly p nodes) ++
      [(m, ⟨r.first, r.last, none, (nodes.map (·.1)).getLast?.or p⟩)] =
      doubly p (nodes ++ [(m, r)]) := by
  induction nodes generalizing p with
  | nil => rfl
  | cons node rest ih =>
    obtain ⟨n, r'⟩ := node
    have hrest := ih (some n)
    cases rest with
    | nil => rfl
    | cons node' rest =>
      rw [List.map_cons, getLast_or_cons, List.cons_append, doubly, doubly, linkLast_cons_cons,
        List.cons_append]
      exact congrArg _ hrest

theorem pushed_doubly (m : ℕ) (r : Range Iter) (nodes : List (ℕ × Range Iter)) :
    pushed m r.first r.last (doubly none nodes) = doubly none (nodes ++ [(m, r)]) := by
  rw [← linkLast_doubly, pushed, doubly_addresses, Option.or_none]

theorem pushAll_spec (assertions : Bool) (ranges : List (Range Iter))
    (h : Holds w c (doubly none nodes)) :
    ∃ u nodes', (pushAll assertions c ranges).run w = .ok () u ∧
      Holds u c (doubly none nodes') ∧ nodes'.map (·.2) = nodes.map (·.2) ++ ranges := by
  induction ranges generalizing w nodes with
  | nil => exact ⟨w, nodes, rfl, h, (List.append_nil _).symm⟩
  | cons r ranges ih =>
    obtain ⟨v, hrun, -, hholds⟩ := pushBack_spec assertions h r.first r.last
    rw [pushed_doubly] at hholds
    obtain ⟨u, nodes', hrest, hu, hranges⟩ := ih hholds
    refine ⟨u, nodes', runAll_cons_ok.mpr ⟨v, hrun, hrest⟩, hu, ?_⟩
    rw [hranges]
    simp

theorem build_spec (assertions : Bool) (c : ℕ) (ranges : List (Range Iter)) (w : World Iter) :
    ∃ u nodes, (do construct c; pushAll assertions c ranges : Exec (World Iter) Unit).run w =
        .ok () u ∧ Holds u c (doubly none nodes) ∧ nodes.map (·.2) = ranges := by
  obtain ⟨v, hconstruct, -, hempty⟩ := construct_spec c w
  have hempty' : Holds v c (doubly none ([] : List (ℕ × Range Iter))) := hempty
  obtain ⟨u, nodes, hrun, hholds, hranges⟩ := pushAll_spec assertions ranges hempty'
  exact ⟨u, nodes, by rw [bind_ok hconstruct, hrun], hholds, hranges⟩

theorem cell_of_doubly (h : Holds w c (doubly none nodes))
    (hnodes : nodes = before ++ (n, r) :: after) :
    w.items.cell n =
      some ⟨r.first, r.last, (after.map (·.1)).head?, (before.map (·.1)).getLast?⟩ := by
  have hmem : ∀ p : Option ℕ, (n, ChainItem.mk r.first r.last (after.map (·.1)).head?
      ((before.map (·.1)).getLast?.or p)) ∈ doubly p (before ++ (n, r) :: after) := by
    clear h hnodes
    induction before with
    | nil => exact fun p => List.mem_cons_self
    | cons node before ih =>
      intro p
      obtain ⟨k, s⟩ := node
      rw [List.map_cons, getLast_or_cons]
      exact List.mem_cons_of_mem _ (ih (some k))
  have hitem := hmem none
  rw [Option.or_none, ← hnodes] at hitem
  exact h.cell_eq hitem

/-- The position that many steps into the range of a node. -/
def position (n : ℕ) (r : Range Iter) (j : ℕ) : ChainedIterator Iter :=
  ⟨increment^[j] r.first, some n⟩

theorem decrement_last {k : ℕ} (hk : r.length = k + 1) :
    (⟨decrement r.last, some n⟩ : ChainedIterator Iter) = position n r k := by
  rw [Range.last, hk, Function.iterate_succ_apply', decrement_increment, position]

theorem chainBegin_empty (h : Holds w c (doubly none ([] : List (ℕ × Range Iter)))) :
    (chainBegin c).run w = .ok ⟨default, none⟩ w := by
  obtain ⟨chain, hchain, hbegin, -⟩ := h
  rw [chainBegin, bind_ok (readChain_run hchain), hbegin]
  rfl

theorem chainBegin_spec (h : Holds w c (doubly none nodes))
    (hnodes : nodes = [] ++ (n, r) :: after) :
    (chainBegin c).run w = .ok (position n r 0) w := by
  obtain ⟨chain, hchain, hpath, -⟩ := id h
  have hbegin := hpath.start_eq
  rw [doubly_addresses, hnodes, List.nil_append, List.map_cons, List.head?_cons] at hbegin
  rw [chainBegin, bind_ok (readChain_run hchain), hbegin]
  simp only
  rw [bind_ok (readItem_run (cell_of_doubly h hnodes))]
  rfl

theorem chainEnd_empty (h : Holds w c (doubly none ([] : List (ℕ × Range Iter)))) :
    (chainEnd c).run w = .ok ⟨default, none⟩ w := by
  obtain ⟨chain, hchain, -, hend⟩ := h
  rw [chainEnd, bind_ok (readChain_run hchain), hend]
  rfl

theorem chainEnd_spec (h : Holds w c (doubly none nodes)) (hnodes : nodes = before ++ [(n, r)]) :
    (chainEnd c).run w = .ok (position n r r.length) w := by
  obtain ⟨chain, hchain, -, hend⟩ := id h
  rw [doubly_addresses, hnodes, List.map_append, List.map_cons, List.map_nil,
    List.getLast?_concat] at hend
  rw [chainEnd, bind_ok (readChain_run hchain), hend]
  simp only
  rw [bind_ok (readItem_run (cell_of_doubly h hnodes))]
  rfl

variable [DecidableEq Iter]

theorem increaseInner_inside (h : Holds w c (doubly none nodes))
    (hnodes : nodes = before ++ (n, r) :: after) (hj : j + 1 ≠ r.length ∨ after = []) :
    (increaseInner (position n r j)).run w = .ok (position n r (j + 1)) w := by
  have hstays : increment (increment^[j] r.first) ≠ r.last ∨ (after.map (·.1)).head? = none := by
    rcases hj with hinside | hlast
    · left
      rw [← Function.iterate_succ_apply' increment, Range.last]
      exact fun heq => hinside ((iterate_eq_iff r.first _ _).mp heq)
    · right
      rw [hlast]
      rfl
  rw [position, increaseInner_stays (cell_of_doubly h hnodes) hstays,
    ← Function.iterate_succ_apply' increment]
  rfl

theorem increaseInner_hop (h : Holds w c (doubly none nodes))
    (hnodes : nodes = before ++ (n, r) :: (m, r') :: after) (hj : j + 1 = r.length) :
    (increaseInner (position n r j)).run w = .ok (position m r' 0) w := by
  have hnodes' : nodes = (before ++ [(n, r)]) ++ (m, r') :: after :=
    hnodes.trans (List.append_cons _ _ _)
  have hend : increment (increment^[j] r.first) = r.last := by
    rw [Range.last, ← hj, Function.iterate_succ_apply']
  exact increaseInner_hops (cell_of_doubly h hnodes) hend rfl (cell_of_doubly h hnodes')

theorem decreaseInner_inside (h : Holds w c (doubly none nodes))
    (hnodes : nodes = before ++ (n, r) :: after) :
    (decreaseInner (position n r (j + 1))).run w = .ok (position n r j) w := by
  rw [position, decreaseInner_stays (cell_of_doubly h hnodes) (.inl (acyclic j r.first)),
    Function.iterate_succ_apply', decrement_increment]
  rfl

theorem decreaseInner_hop (h : Holds w c (doubly none nodes))
    (hnodes : nodes = before ++ (m, r') :: (n, r) :: after) :
    (decreaseInner (position n r 0)).run w = .ok ⟨decrement r'.last, some m⟩ w := by
  have hnodes' : nodes = (before ++ [(m, r')]) ++ (n, r) :: after :=
    hnodes.trans (List.append_cons _ _ _)
  exact decreaseInner_hops (cell_of_doubly h hnodes') rfl (by simp) (cell_of_doubly h hnodes)

theorem decreaseInner_first (h : Holds w c (doubly none nodes))
    (hnodes : nodes = [] ++ (n, r) :: after) :
    (decreaseInner (position n r 0)).run w = .ok ⟨decrement r.first, some n⟩ w :=
  decreaseInner_stays (cell_of_doubly h hnodes) (.inr rfl)

end Ranges

end PdkHeaders.ChainedIterators
