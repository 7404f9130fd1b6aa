import PdkHeaders.ChainAccounting

set_option autoImplicit false

/-!
# Value semantics of chain copies

A copy takes over the `prev` links of its source. It is a value of its own when there is no
second node to take one over.
-/
namespace PdkHeaders.ChainCopies
open PdkHeaders.Library.Execution PdkHeaders.Library.Stores PdkHeaders.Library.Paths
open PdkHeaders.IteratorChain PdkHeaders.ChainSpecs PdkHeaders.ChainAccounting

section Walks
variable {Iter : Type}

/-- What following `next` from the head of a chain visits. -/
def ForwardWalk (w : World Iter) (c : ℕ) (items : Items Iter) : Prop :=
  ∃ chain, w.chain c = some chain ∧ Path w.items.cell (·.next) chain.mBegin items none

def BackwardWalk (w : World Iter) (c : ℕ) (items : Items Iter) : Prop :=
  ∃ chain, w.chain c = some chain ∧ Path w.items.cell (·.prev) chain.mEnd items none

def SameWalks (c : ℕ) (w u : World Iter) : Prop := ∀ items,
  (ForwardWalk w c items ↔ ForwardWalk u c items) ∧
  (BackwardWalk w c items ↔ BackwardWalk u c items)

def segments (items : Items Iter) : List (Iter × Iter) :=
  items.map fun item => (item.2.rangeBegin, item.2.rangeEnd)

def links (chain : Chain) (items : Items Iter) : List (Option ℕ) :=
  chain.mBegin :: chain.mEnd :: items.flatMap fun item => [item.2.next, item.2.prev]

/-- Any number of operations on other chains than `c`. -/
inductive Elsewhere [Inhabited Iter] (assertions : Bool) (c : ℕ) :
    World Iter → World Iter → Prop where
  | refl (w : World Iter) : Elsewhere assertions c w w
  | step {w u v : World Iter} {op : Op Iter} (h : Elsewhere assertions c w u)
      (hlegal : op.Legal u) (htarget : op.target ≠ c)
      (hrun : (op.run assertions).run u = .ok () v) : Elsewhere assertions c w v

/-- The copy `t` has the segments of `s`, can be walked both ways, shares no node with `s` or
with what `t` held, and neither of the two is affected by operations on other chains. -/
structure FaithfulCopy [Inhabited Iter] (assertions : Bool) (t s : ℕ) (w u : World Iter) :
    Prop where
  sameSegments : ∃ source items, ForwardWalk w s source ∧ ForwardWalk u t items ∧
    segments items = segments source
  opposite : ∀ items, ForwardWalk u t items → BackwardWalk u t items.reverse
  separate : ∀ former items chain n, ForwardWalk w s former ∨ ForwardWalk w t former →
    ForwardWalk u t items → u.chain t = some chain → some n ∈ links chain items →
    n ∉ addresses former
  unaffected : ∀ v, Elsewhere assertions t u v → SameWalks t u v
  sourceUnaffected : ∀ v, Elsewhere assertions s u v → SameWalks s u v

variable {w u v : World Iter} {c t s : ℕ} {items items' source : Items Iter}

theorem forwardWalk_of_holds (h : Holds w c items) : ForwardWalk w c items := by
  obtain ⟨chain, hchain, hpath, -⟩ := h
  exact ⟨chain, hchain, hpath⟩

/-- Walks from one field of a chain along one link are equal. -/
theorem walk_unique {f : Chain → Option ℕ} {link : ChainItem Iter → Option ℕ}
    (h : ∃ chain, w.chain c = some chain ∧ Path w.items.cell link (f chain) items none)
    (h' : ∃ chain, w.chain c = some chain ∧ Path w.items.cell link (f chain) items' none) :
    items = items' := by
  obtain ⟨chain, hchain, hpath⟩ := h
  obtain ⟨chain', hchain', hpath'⟩ := h'
  rw [hchain] at hchain'
  cases hchain'
  exact hpath.unique hpath'

theorem ForwardWalk.unique (h : ForwardWalk w c items) (h' : ForwardWalk w c items') :
    items = items' := walk_unique (f := fun chain => chain.mBegin) h h'

theorem BackwardWalk.unique (h : BackwardWalk w c items) (h' : BackwardWalk w c items') :
    items = items' := walk_unique (f := fun chain => chain.mEnd) h h'

theorem ForwardWalk.lt_bound (h : ForwardWalk w c items) {n : ℕ} (hn : n ∈ addresses items) :
    n < w.items.bound := by
  obtain ⟨chain, -, hpath⟩ := h
  obtain ⟨a, ha, -⟩ := hpath.cell_of_address hn
  exact Store.lt_bound ha

theorem backwardWalk_of_short (h : Holds w c items) (hhead : HeadPrev items)
    (hshort : items.length ≤ 1) : BackwardWalk w c items.reverse := by
  obtain ⟨chain, hchain, hpath, hlast⟩ := h
  refine ⟨chain, hchain, ?_⟩
  match items with
  | [] => exact hlast
  | [(n, a)] => exact ⟨hlast, hpath.2.1, hhead (n, a) rfl⟩
  | _ :: _ :: _ =>
    simp only [List.length_cons] at hshort
    omega

theorem sameWalks_of_short (hw : Holds w c items) (hu : Holds u c items) (hhead : HeadPrev items)
    (hshort : items.length ≤ 1) : SameWalks c w u := by
  have hbackW := backwardWalk_of_short hw hhead hshort
  have hbackU := backwardWalk_of_short hu hhead hshort
  intro walk
  constructor
  · constructor
    · exact fun h => h.unique (forwardWalk_of_holds hw) ▸ (forwardWalk_of_holds hu)
    · exact fun h => h.unique (forwardWalk_of_holds hu) ▸ (forwardWalk_of_holds hw)
  · constructor
    · exact fun h => h.unique hbackW ▸ hbackU
    · exact fun h => h.unique hbackU ▸ hbackW

theorem clones_segments (m : ℕ) (items : Items Iter) :
    segments (clones m items) = segments items := by
  induction items generalizing m with
  | nil => rfl
  | cons item rest ih => exact congrArg (List.cons _) (ih (m + 1))

variable [Inhabited Iter]

theorem elsewhere_holds {assertions : Bool} (h : Elsewhere assertions c w v) (hw : WellFormed w)
    (hitems : Holds w c items) : WellFormed v ∧ Holds v c items := by
  induction h with
  | refl => exact ⟨hw, hitems⟩
  | step _ hlegal htarget hrun ih =>
    obtain ⟨hu, hholds⟩ := ih
    obtain ⟨v, touched, new, hv, heffect, -⟩ := run_effect assertions hu hlegal
    rw [hrun] at hv
    cases hv
    exact ⟨heffect.wellFormed hu, heffect.holds_other hu (Ne.symm htarget) hholds⟩

theorem elsewhere_sameWalks {assertions : Bool} (hw : WellFormed w) (hitems : Holds w c items)
    (hhead : HeadPrev items) (hshort : items.length ≤ 1) (h : Elsewhere assertions c w v) :
    SameWalks c w v :=
  sameWalks_of_short hitems (elsewhere_holds h hw hitems).2 hhead hshort

end Walks

section Copies
variable {Iter : Type} {w u : World Iter} {t s : ℕ} {source : Items Iter}

/-- The second clone's `prev` is an address from before the copy. -/
theorem short_of_opposite (hw : WellFormed w) (hsource : Holds w s source)
    (hback : BackwardWalk u t (clones w.items.bound source).reverse) : source.length ≤ 1 := by
  match source with
  | [] => simp
  | [_] => simp
  | (n, a) :: (n', a') :: rest =>
    obtain ⟨chain, -, hpath⟩ := hback
    simp only [clones, List.reverse_cons, List.append_assoc] at hpath
    obtain ⟨mid, -, hmid⟩ := hpath.split
    have hprev : a'.prev = some w.items.bound := hmid.2.2.1
    have hold := hw.prevOld n' a' _ (hsource.cell_eq (by simp)) hprev
    exact absurd hold (Nat.lt_irrefl _)

theorem clones_links_fresh {chain : Chain} {m n : ℕ} (hhead : HeadPrev source)
    (hshort : source.length ≤ 1)
    (hbegin : chain.mBegin = (addresses (clones m source)).head?)
    (hend : chain.mEnd = (addresses (clones m source)).getLast?)
    (hlink : some n ∈ links chain (clones m source)) : n = m := by
  match source with
  | [] =>
    rw [links, hbegin, hend] at hlink
    simp [clones] at hlink
  | [(k, a)] =>
    have hprev : a.prev = none := hhead (k, a) rfl
    rw [links, hbegin, hend] at hlink
    simpa [clones, hprev] using hlink
  | _ :: _ :: _ =>
    simp only [List.length_cons] at hshort
    omega

variable [Inhabited Iter]

theorem copy_effect (assertions : Bool) (hw : WellFormed w) {op : Op Iter}
    (hcopy : op = .assign t s ∨ ∃ raw, op = .copyConstruct t s raw) (hlegal : op.Legal w) :
    ∃ u source, (op.run assertions).run w = .ok () u ∧ Holds w s source ∧ HeadPrev source ∧
      StepEffect w u t [] (clones w.items.bound source) ∧
      Holds u t (clones w.items.bound source) := by
  rcases hcopy with rfl | ⟨raw, rfl⟩
  · obtain ⟨source, hsource, hhead⟩ := hw.holds s hlegal.2
    obtain ⟨chain, hchain⟩ := Option.ne_none_iff_exists'.mp hlegal.1
    obtain ⟨u, hrun, heffect, hholds⟩ := assign_spec assertions hsource hhead hchain
    exact ⟨u, source, hrun, hsource, hhead, clones_effect hw hsource hhead heffect hholds, hholds⟩
  · obtain ⟨source, hsource, hhead⟩ := hw.holds s hlegal.2
    obtain ⟨u, hrun, heffect, hholds⟩ :=
      copyConstruct_spec assertions hsource hhead hlegal.1 raw
    exact ⟨u, source, hrun, hsource, hhead, clones_effect hw hsource hhead heffect hholds, hholds⟩

theorem faithfulCopy_of_short (assertions : Bool) (hw : WellFormed w) (hsource : Holds w s source)
    (hhead : HeadPrev source) (heffect : StepEffect w u t [] (clones w.items.bound source))
    (hholds : Holds u t (clones w.items.bound source)) (hshort : source.length ≤ 1) :
    FaithfulCopy assertions t s w u := by
  have hu := heffect.wellFormed hw
  have hlength : (clones w.items.bound source).length = source.length := by
    have haddresses := congrArg List.length (clones_addresses w.items.bound source)
    simpa [addresses] using haddresses
  constructor
  · exact ⟨source, _, forwardWalk_of_holds hsource, forwardWalk_of_holds hholds,
      clones_segments _ _⟩
  · intro items hitems
    rw [hitems.unique (forwardWalk_of_holds hholds)]
    exact backwardWalk_of_short hholds heffect.head (by omega)
  · intro former items chain n hformer hitems hchain hlink hmem
    obtain ⟨chain', hchain', hpath, hlast⟩ := id hholds
    rw [hchain] at hchain'
    cases hchain'
    rw [hitems.unique (forwardWalk_of_holds hholds)] at hlink
    have hn := clones_links_fresh hhead hshort hpath.start_eq hlast hlink
    have hlt : n < w.items.bound := hformer.elim (·.lt_bound hmem) (·.lt_bound hmem)
    omega
  · intro v hv
    exact elsewhere_sameWalks hu hholds heffect.head (by omega) hv
  · intro v hv
    by_cases hst : s = t
    · subst hst
      exact elsewhere_sameWalks hu hholds heffect.head (by omega) hv
    · exact elsewhere_sameWalks hu (heffect.holds_other hw hst hsource) hhead hshort hv

/-- A copy is a value of its own exactly when its source has at most one segment. -/
theorem faithfulCopy_iff (assertions : Bool)
    (h : Reaches assertions (fun w op => op.Legal w) w) {op : Op Iter}
    (hcopy : op = .assign t s ∨ ∃ raw, op = .copyConstruct t s raw) (hlegal : op.Legal w) :
    ∃ u, (op.run assertions).run w = .ok () u ∧
      (FaithfulCopy assertions t s w u ↔ ∃ source, Holds w s source ∧ source.length ≤ 1) := by
  have hw := reaches_wellFormed (fun _ _ h => h) h
  obtain ⟨u, source, hrun, hsource, hhead, heffect, hholds⟩ :=
    copy_effect assertions hw hcopy hlegal
  refine ⟨u, hrun, ?_, ?_⟩
  · intro hfaithful
    exact ⟨source, hsource,
      short_of_opposite hw hsource (hfaithful.opposite _ (forwardWalk_of_holds hholds))⟩
  · intro hshort
    obtain ⟨source', hsource', hlength⟩ := hshort
    rw [hsource'.unique hsource] at hlength
    exact faithfulCopy_of_short assertions hw hsource hhead heffect hholds hlength

end Copies

section Instances

theorem faithfulCopy_iff_oneSegment :
    ∃ u, ((Op.assign 1 0 : Op ℕ).run true).run
        (stateAfter [.construct 0, .pushBack 0 0 1, .construct 1]) = .ok () u ∧
      FaithfulCopy true 1 0 (stateAfter [.construct 0, .pushBack 0 0 1, .construct 1]) u := by
  have hlegal : (Op.assign 1 0).Legal (stateAfter [.construct 0, .pushBack 0 0 1, .construct 1]) :=
    ⟨(fun h : some _ = none => nomatch h), (fun h : some _ = none => nomatch h)⟩
  have hsource : Holds (stateAfter [.construct 0, .pushBack 0 0 1, .construct 1]) 0
      [(0, ⟨0, 1, none, none⟩)] := ⟨⟨some 0, some 0⟩, rfl, ⟨rfl, rfl, rfl⟩, rfl⟩
  obtain ⟨u, hrun, hfaithful⟩ := faithfulCopy_iff (s := 0) (t := 1) true
    (oneSegment_reached fun _ _ _ h => h) (.inl rfl) hlegal
  exact ⟨u, hrun, hfaithful.mpr ⟨_, hsource, Nat.le_refl _⟩⟩

/-- With two segments, the second copy leads back into the source. -/
theorem copy_leads_back :
    Reaches true (fun w op => op.Legal w)
      (stateAfter [.construct 0, .pushBack 0 0 1, .pushBack 0 1 2, .construct 1]) ∧
    ∃ u, ((Op.assign 1 0 : Op ℕ).run true).run
        (stateAfter [.construct 0, .pushBack 0 0 1, .pushBack 0 1 2, .construct 1]) = .ok () u ∧
      ¬ FaithfulCopy true 1 0
        (stateAfter [.construct 0, .pushBack 0 0 1, .pushBack 0 1 2, .construct 1]) u := by
  refine ⟨twoSegments_reached, _, rfl, fun hfaithful => ?_⟩
  have hforward := hfaithful.opposite [(2, ⟨0, 1, some 3, none⟩), (3, ⟨1, 2, none, some 0⟩)]
    ⟨⟨some 2, some 3⟩, rfl, rfl, rfl, rfl, rfl, rfl⟩
  obtain ⟨chain, -, -, -, hprev, -⟩ := hforward
  cases hprev

end Instances

end PdkHeaders.ChainCopies
