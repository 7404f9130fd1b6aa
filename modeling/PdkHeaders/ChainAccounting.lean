import PdkHeaders.ChainSpecs
import PdkHeaders.Library.Hoare

set_option autoImplicit false

/-!
# Node accounting over whole runs

Which chain a node belongs to, in every state a run of the chain operations can reach.
-/
namespace PdkHeaders.ChainAccounting
open PdkHeaders.Library.Execution PdkHeaders.Library.Stores PdkHeaders.Library.Paths
open PdkHeaders.IteratorChain PdkHeaders.ChainSpecs

/-- The operations on chains, no allocation failing. -/
inductive Op (Iter : Type) where
  | construct (c : ℕ)
  | pushBack (c : ℕ) (rangeBegin rangeEnd : Iter)
  | copyConstruct (t copy : ℕ) (raw : Chain)
  | assign (t rhs : ℕ)
  | destroy (c : ℕ)
  deriving DecidableEq, Repr

section Runs
variable {Iter : Type}

def Op.run [Inhabited Iter] (assertions : Bool) : Op Iter → Exec (World Iter) Unit
  | .construct c => IteratorChain.construct c
  | .pushBack c rangeBegin rangeEnd =>
    IteratorChain.pushBack assertions c rangeBegin rangeEnd false
  | .copyConstruct t copy raw => IteratorChain.copyConstruct assertions t copy raw none
  | .assign t rhs => IteratorChain.assign assertions t rhs none
  | .destroy c => IteratorChain.destroy c

def Op.target : Op Iter → ℕ
  | .construct c => c
  | .pushBack c _ _ => c
  | .copyConstruct t _ _ => t
  | .assign t _ => t
  | .destroy c => c

/-- Constructors build chains where there is none; all else needs chains that are alive. -/
def Op.Legal (w : World Iter) : Op Iter → Prop
  | .construct c => w.chain c = none
  | .pushBack c _ _ => w.chain c ≠ none
  | .copyConstruct t copy _ => w.chain t = none ∧ w.chain copy ≠ none
  | .assign t rhs => w.chain t ≠ none ∧ w.chain rhs ≠ none
  | .destroy c => w.chain c ≠ none

/-- An assignment finds its target without nodes. -/
def Op.OntoEmpty (w : World Iter) : Op Iter → Prop
  | .assign t _ => Holds w t []
  | _ => True

/-- The states of the runs whose steps are all `allowed`. -/
inductive Reaches [Inhabited Iter] (assertions : Bool) (allowed : World Iter → Op Iter → Prop) :
    World Iter → Prop where
  | init : Reaches assertions allowed World.init
  | step {w u : World Iter} {op : Op Iter} (h : Reaches assertions allowed w)
      (hallowed : allowed w op) (hrun : (op.run assertions).run w = .ok () u) :
      Reaches assertions allowed u

/-- Every live chain holds its items, no node is a part of two chains, and nodes only know
addresses that have been given out. -/
structure WellFormed (w : World Iter) : Prop where
  holds : ∀ c, w.chain c ≠ none → ∃ items, Holds w c items ∧ HeadPrev items
  apart : ∀ c d items items' n, c ≠ d → Holds w c items → Holds w d items' →
    n ∈ addresses items → n ∉ addresses items'
  prevOld : ∀ n item p, w.items.cell n = some item → item.prev = some p → p < w.items.bound

/-- What a step of a run does to its target, which may touch no nodes but its own. -/
structure StepEffect (w u : World Iter) (c : ℕ) (touched : List ℕ) (new : Items Iter) : Prop
    extends Effect w u c touched new where
  own : ∀ n ∈ touched, ∃ items, Holds w c items ∧ n ∈ addresses items
  now : Holds u c new ∨ (u.chain c = none ∧ new = [])
  head : HeadPrev new
  prevs : ∀ item ∈ new, ∀ p, item.2.prev = some p → p < u.items.bound

end Runs

section Invariant
variable {Iter : Type} {w u : World Iter} {c d : ℕ} {touched : List ℕ} {items new : Items Iter}

theorem StepEffect.holds_other (h : StepEffect w u c touched new) (hw : WellFormed w)
    (hd : d ≠ c) (hholds : Holds w d items) : Holds u d items := by
  refine hholds.frame (h.chains d hd) fun n hn => h.cells n (hholds.lt_bound hn) fun htouched => ?_
  obtain ⟨own, hown, hmem⟩ := h.own n htouched
  exact hw.apart c d own items n (Ne.symm hd) hown hholds hmem hn

theorem StepEffect.holds_iff (h : StepEffect w u c touched new) (hw : WellFormed w)
    (hd : d ≠ c) : Holds u d items ↔ Holds w d items := by
  constructor
  · intro hu
    have hlive : w.chain d ≠ none := h.chains d hd ▸ hu.live
    obtain ⟨items', hw', -⟩ := hw.holds d hlive
    exact (h.holds_other hw hd hw').unique hu ▸ hw'
  · exact h.holds_other hw hd

theorem StepEffect.new_apart (h : StepEffect w u c touched new) (hw : WellFormed w) (hd : d ≠ c)
    (hholds : Holds w d items) {n : ℕ} (hn : n ∈ addresses new) : n ∉ addresses items := by
  intro hmem
  rcases h.fresh n hn with htouched | hfresh
  · obtain ⟨own, hown, hmem'⟩ := h.own n htouched
    exact hw.apart c d own items n (Ne.symm hd) hown hholds hmem' hmem
  · have hlt := hholds.lt_bound hmem
    omega

theorem StepEffect.wellFormed (h : StepEffect w u c touched new) (hw : WellFormed w) :
    WellFormed u := by
  have hnew : ∀ items, Holds u c items → items = new := by
    intro items hitems
    rcases h.now with hnow | ⟨hnone, -⟩
    · exact hitems.unique hnow
    · exact absurd hnone hitems.live
  constructor
  · intro d hd
    by_cases hdc : d = c
    · subst hdc
      rcases h.now with hnow | ⟨hnone, -⟩
      · exact ⟨new, hnow, h.head⟩
      · exact absurd hnone hd
    · obtain ⟨items, hitems, hhead⟩ := hw.holds d (h.chains d hdc ▸ hd)
      exact ⟨items, h.holds_other hw hdc hitems, hhead⟩
  · intro d e items items' n hne hd he hmem
    by_cases hdc : d = c
    · subst hdc
      have he' := (h.holds_iff hw (Ne.symm hne)).mp he
      rw [hnew items hd] at hmem
      exact h.new_apart hw (Ne.symm hne) he' hmem
    · have hd' := (h.holds_iff hw hdc).mp hd
      by_cases hec : e = c
      · subst hec
        rw [hnew items' he]
        exact fun hmem' => h.new_apart hw hdc hd' hmem' hmem
      · exact hw.apart d e items items' n hne hd' ((h.holds_iff hw hec).mp he) hmem
  · intro n item p hn hp
    rcases h.live n (by rw [hn]; simp) with hmem | ⟨hlt, htouched⟩
    · obtain ⟨⟨n', item'⟩, hitem, rfl⟩ := List.mem_map.mp hmem
      rcases h.now with hnow | ⟨-, hnil⟩
      · have hcell := hnow.cell_eq hitem
        rw [hn] at hcell
        cases hcell
        exact h.prevs (n', item) hitem p hp
      · rw [hnil] at hitem
        cases hitem
    · rw [h.cells n hlt htouched] at hn
      exact Nat.lt_of_lt_of_le (hw.prevOld n item p hn hp) h.bound

end Invariant

section Steps
variable {Iter : Type} {w u : World Iter} {c : ℕ} {items : Items Iter}

theorem headPrev_pushed (h : HeadPrev items) (m : ℕ) (rangeBegin rangeEnd : Iter) :
    HeadPrev (pushed m rangeBegin rangeEnd items) := by
  rcases List.eq_nil_or_concat items with rfl | ⟨before, ⟨n, a⟩, rfl⟩
  · intro item hitem
    cases hitem
    rfl
  · rw [List.concat_eq_append] at h ⊢
    intro item hitem
    rw [pushed, linkLast_concat] at hitem
    cases before with
    | nil =>
      cases hitem
      exact h (n, a) rfl
    | cons first before =>
      cases hitem
      exact h item rfl

theorem prev_pushed {m : ℕ} {rangeBegin rangeEnd : Iter} {item : ℕ × ChainItem Iter} {p : ℕ}
    (hitem : item ∈ pushed m rangeBegin rangeEnd items) (hp : item.2.prev = some p) :
    (∃ a, (item.1, a) ∈ items ∧ a.prev = some p) ∨ p ∈ addresses items := by
  rw [pushed, List.mem_append, List.mem_singleton] at hitem
  rcases hitem with hold | rfl
  · left
    rcases List.eq_nil_or_concat items with rfl | ⟨before, ⟨n, a⟩, rfl⟩
    · cases hold
    · rw [List.concat_eq_append, linkLast_concat, List.mem_append, List.mem_singleton] at hold
      rcases hold with hbefore | rfl
      · exact ⟨item.2, by simp [hbefore], hp⟩
      · exact ⟨a, by simp, hp⟩
  · exact .inr (List.mem_of_getLast? hp)

theorem headPrev_clones (h : HeadPrev items) (m : ℕ) : HeadPrev (clones m items) := by
  cases items with
  | nil => exact nofun
  | cons item rest =>
    intro clone hclone
    cases hclone
    exact h item rfl

theorem prev_clones {m : ℕ} {clone : ℕ × ChainItem Iter} (hclone : clone ∈ clones m items) :
    ∃ n a, (n, a) ∈ items ∧ a.prev = clone.2.prev := by
  induction items generalizing m with
  | nil => cases hclone
  | cons item rest ih =>
    rcases List.mem_cons.mp hclone with rfl | hrest
    · exact ⟨item.1, item.2, List.mem_cons_self, rfl⟩
    · obtain ⟨n, a, hmem, hprev⟩ := ih hrest
      exact ⟨n, a, List.mem_cons_of_mem _ hmem, hprev⟩

theorem clones_effect {t v : ℕ} (hw : WellFormed w) (hv : Holds w v items)
    (hhead : HeadPrev items) (heffect : Effect w u t [] (clones w.items.bound items))
    (hholds : Holds u t (clones w.items.bound items)) :
    StepEffect w u t [] (clones w.items.bound items) where
  toEffect := heffect
  own _ hn := nomatch hn
  now := .inl hholds
  head := headPrev_clones hhead _
  prevs clone hclone p hp := by
    obtain ⟨n, a, hmem, hprev⟩ := prev_clones hclone
    exact Nat.lt_of_lt_of_le (hw.prevOld n a p (hv.cell_eq hmem) (hprev.trans hp)) heffect.bound

theorem wellFormed_init : WellFormed (World.init : World Iter) where
  holds _ h := absurd rfl h
  apart _ _ _ _ _ _ h := absurd rfl h.live
  prevOld _ _ _ h := nomatch h

variable [Inhabited Iter]

/-- Every legal operation returns, with an effect on its target alone. What the target held is
touched, unless an assignment drops it. -/
theorem run_effect (assertions : Bool) (hw : WellFormed w) {op : Op Iter} (hlegal : op.Legal w) :
    ∃ u touched new, (op.run assertions).run w = .ok () u ∧
      StepEffect w u op.target touched new ∧
      (op.OntoEmpty w → ∀ items, Holds w op.target items → ∀ n ∈ addresses items, n ∈ touched) ∧
      (∀ n ∈ touched, u.items.cell n = none → op = .destroy op.target) ∧
      (∀ t rhs, op = .assign t rhs → touched = []) := by
  cases op with
  | construct c =>
    obtain ⟨u, hrun, heffect, hholds⟩ := construct_spec c w
    refine ⟨u, [], [], hrun, ⟨heffect, nofun, .inl hholds, nofun, nofun⟩, ?_, nofun, nofun⟩
    exact fun _ items hitems => absurd hlegal hitems.live
  | pushBack c rangeBegin rangeEnd =>
    obtain ⟨items, hitems, hhead⟩ := hw.holds c hlegal
    obtain ⟨u, hrun, heffect, hholds⟩ := pushBack_spec assertions hitems rangeBegin rangeEnd
    refine ⟨u, addresses items, _, hrun, ⟨heffect, ?_, .inl hholds, ?_, ?_⟩, ?_, ?_, nofun⟩
    · exact fun n hn => ⟨items, hitems, hn⟩
    · exact headPrev_pushed hhead _ _ _
    · intro item hitem p hp
      rcases prev_pushed hitem hp with ⟨a, hmem, hprev⟩ | hmem
      · exact Nat.lt_of_lt_of_le (hw.prevOld _ a p (hitems.cell_eq hmem) hprev) heffect.bound
      · exact Nat.lt_of_lt_of_le (hitems.lt_bound hmem) heffect.bound
    · intro _ items' hitems' n hn
      exact hitems'.unique hitems ▸ hn
    · intro n hn hdead
      have hmem : n ∈ addresses (pushed w.items.bound rangeBegin rangeEnd items) := by
        rw [pushed_addresses]
        exact List.mem_append_left _ hn
      exact absurd hdead (hholds.cell_ne_none hmem)
  | copyConstruct t copy raw =>
    obtain ⟨items, hitems, hhead⟩ := hw.holds copy hlegal.2
    obtain ⟨u, hrun, heffect, hholds⟩ :=
      copyConstruct_spec assertions hitems hhead hlegal.1 raw
    refine ⟨u, [], _, hrun, clones_effect hw hitems hhead heffect hholds, ?_, nofun, nofun⟩
    exact fun _ items hitems => absurd hlegal.1 hitems.live
  | assign t rhs =>
    obtain ⟨items, hitems, hhead⟩ := hw.holds rhs hlegal.2
    obtain ⟨chain, hchain⟩ := Option.ne_none_iff_exists'.mp hlegal.1
    obtain ⟨u, hrun, heffect, hholds⟩ := assign_spec assertions hitems hhead hchain
    refine ⟨u, [], _, hrun, clones_effect hw hitems hhead heffect hholds, ?_, nofun,
      fun _ _ _ => rfl⟩
    intro hempty items' hitems' n hn
    rw [hitems'.unique hempty] at hn
    exact hn
  | destroy c =>
    obtain ⟨items, hitems, -⟩ := hw.holds c hlegal
    obtain ⟨u, hrun, heffect, hnone⟩ := destroy_spec hitems
    refine ⟨u, addresses items, [], hrun, ⟨heffect, ?_, .inr ⟨hnone, rfl⟩, nofun, nofun⟩, ?_, ?_,
      nofun⟩
    · exact fun n hn => ⟨items, hitems, hn⟩
    · intro _ items' hitems' n hn
      exact hitems'.unique hitems ▸ hn
    · exact fun _ _ _ => rfl

theorem reaches_wellFormed {assertions : Bool} {allowed : World Iter → Op Iter → Prop}
    (hallowed : ∀ w op, allowed w op → op.Legal w) (h : Reaches assertions allowed w) :
    WellFormed w := by
  induction h with
  | init => exact wellFormed_init
  | step _ hstep hrun ih =>
    obtain ⟨u, touched, new, hu, heffect, -⟩ := run_effect assertions ih (hallowed _ _ hstep)
    rw [hrun] at hu
    cases hu
    exact heffect.wellFormed ih

end Steps

section Accounting
variable {Iter : Type} {w u : World Iter} {c : ℕ} {touched : List ℕ} {items new : Items Iter}

/-- The node is reachable from the head of the chain by `next`. -/
def ReachesNode (w : World Iter) (c n : ℕ) : Prop :=
  ∃ chain, w.chain c = some chain ∧ Reach w.items.cell (·.next) chain.mBegin n

/-- The live nodes are the disjoint union of those reachable from the live chains. -/
structure Accounted (w : World Iter) : Prop where
  live_iff : ∀ n, w.items.cell n ≠ none ↔ ∃ c, ReachesNode w c n
  disjoint : ∀ c d n, ReachesNode w c n → ReachesNode w d n → c = d

theorem reachesNode_iff (h : Holds w c items) (n : ℕ) :
    ReachesNode w c n ↔ n ∈ addresses items := by
  obtain ⟨chain, hchain, hpath, -⟩ := h
  rw [← hpath.reach_iff]
  constructor
  · intro hreach
    obtain ⟨chain', hchain', hreach'⟩ := hreach
    rw [hchain] at hchain'
    cases hchain'
    exact hreach'
  · exact fun hreach => ⟨chain, hchain, hreach⟩

theorem WellFormed.holds_of_reaches (hw : WellFormed w) {n : ℕ} (h : ReachesNode w c n) :
    ∃ items, Holds w c items ∧ n ∈ addresses items := by
  obtain ⟨chain, hchain, -⟩ := id h
  obtain ⟨items, hitems, -⟩ := hw.holds c (by rw [hchain]; simp)
  exact ⟨items, hitems, (reachesNode_iff hitems n).mp h⟩

theorem WellFormed.accounted_iff (hw : WellFormed w) : Accounted w ↔
    ∀ n, w.items.cell n ≠ none → ∃ c items, Holds w c items ∧ n ∈ addresses items := by
  constructor
  · intro h n hn
    obtain ⟨c, hreach⟩ := (h.live_iff n).mp hn
    exact ⟨c, hw.holds_of_reaches hreach⟩
  · intro h
    constructor
    · intro n
      constructor
      · intro hn
        obtain ⟨c, items, hitems, hmem⟩ := h n hn
        exact ⟨c, (reachesNode_iff hitems n).mpr hmem⟩
      · intro hreach
        obtain ⟨c, hreach⟩ := hreach
        obtain ⟨items, hitems, hmem⟩ := hw.holds_of_reaches hreach
        exact hitems.cell_ne_none hmem
    · intro c d n hc hd
      obtain ⟨items, hitems, hmem⟩ := hw.holds_of_reaches hc
      obtain ⟨items', hitems', hmem'⟩ := hw.holds_of_reaches hd
      by_contra hne
      exact hw.apart c d items items' n hne hitems hitems' hmem hmem'

theorem StepEffect.accounted (h : StepEffect w u c touched new) (hw : WellFormed w)
    (hw' : Accounted w)
    (hkeeps : ∀ items, Holds w c items → ∀ n ∈ addresses items, n ∈ touched) : Accounted u := by
  rw [hw.accounted_iff] at hw'
  rw [(h.wellFormed hw).accounted_iff]
  intro n hn
  rcases h.live n hn with hmem | ⟨hlt, htouched⟩
  · rcases h.now with hnow | ⟨-, rfl⟩
    · exact ⟨c, new, hnow, hmem⟩
    · cases hmem
  · rw [h.cells n hlt htouched] at hn
    obtain ⟨d, items, hitems, hmem⟩ := hw' n hn
    have hd : d ≠ c := by
      rintro rfl
      exact htouched (hkeeps items hitems n hmem)
    exact ⟨d, items, h.holds_other hw hd hitems, hmem⟩

theorem StepEffect.dropped (h : StepEffect w u c [] new) (hw : WellFormed w)
    (hitems : Holds w c items) (hu : Accounted u) : items = [] := by
  rw [(h.wellFormed hw).accounted_iff] at hu
  by_contra hne
  obtain ⟨⟨n, a⟩, rest, rfl⟩ := List.exists_cons_of_ne_nil hne
  have hmem : n ∈ addresses ((n, a) :: rest) := by simp
  have hlive : u.items.cell n ≠ none := by
    rw [h.cells n (hitems.lt_bound hmem) List.not_mem_nil]
    exact hitems.cell_ne_none hmem
  obtain ⟨d, items, hd, hn⟩ := hu n hlive
  by_cases hdc : d = c
  · subst hdc
    rcases h.now with hnow | ⟨hnone, -⟩
    · rw [hd.unique hnow] at hn
      rcases h.fresh n hn with htouched | hfresh
      · cases htouched
      · have hlt := hitems.lt_bound hmem
        omega
    · exact absurd hnone hd.live
  · exact hw.apart c d _ items n (Ne.symm hdc) hitems ((h.holds_iff hw hdc).mp hd) hmem hn

variable [Inhabited Iter]

/-- In every run that assigns only onto chains without nodes, the live nodes are those of the
live chains, each of one chain, and destruction frees its own chain's nodes, each once. An
assignment onto any other chain breaks the accounts. -/
theorem nodes_accounted (assertions : Bool)
    (h : Reaches assertions (fun w op => op.Legal w ∧ op.OntoEmpty w) w) :
    Accounted w ∧ ((∀ c, w.chain c = none) → ∀ n, w.items.cell n = none) ∧
    ∀ op : Op Iter, op.Legal w → ∃ u, (op.run assertions).run w = .ok () u ∧
      (∀ n, w.items.cell n ≠ none → u.items.cell n = none →
        op = .destroy op.target ∧ ReachesNode w op.target n) ∧
      (Accounted u ↔ op.OntoEmpty w) := by
  have hw := reaches_wellFormed (fun _ _ h => h.1) h
  have haccounted : Accounted w := by
    clear hw
    induction h with
    | init => exact wellFormed_init.accounted_iff.mpr fun _ hn => absurd rfl hn
    | step hreach hstep hrun ih =>
      have hw := reaches_wellFormed (fun _ _ h => h.1) hreach
      obtain ⟨u, touched, new, hu, heffect, hkeeps, -⟩ := run_effect assertions hw hstep.1
      rw [hrun] at hu
      cases hu
      exact heffect.accounted hw ih (hkeeps hstep.2)
  refine ⟨haccounted, ?_, ?_⟩
  · intro hnone n
    by_contra hn
    obtain ⟨c, chain, hchain, -⟩ := (haccounted.live_iff n).mp hn
    rw [hnone c] at hchain
    cases hchain
  · intro op hlegal
    obtain ⟨u, touched, new, hrun, heffect, hkeeps, hfreed, hassign⟩ :=
      run_effect assertions hw hlegal
    refine ⟨u, hrun, ?_, ?_, fun hempty => heffect.accounted hw haccounted (hkeeps hempty)⟩
    · intro n hlive hdead
      have htouched : n ∈ touched := by
        by_contra htouched
        rw [heffect.cells n (Store.lt_bound_of_live hlive) htouched] at hdead
        exact hlive hdead
      obtain ⟨items, hitems, hmem⟩ := heffect.own n htouched
      exact ⟨hfreed n htouched hdead, (reachesNode_iff hitems n).mpr hmem⟩
    · intro hu
      cases op with
      | assign t rhs =>
        obtain ⟨items, hitems, -⟩ := hw.holds t hlegal.1
        rw [hassign t rhs rfl] at heffect
        rw [heffect.dropped hw hitems hu] at hitems
        exact hitems
      | _ => trivial

end Accounting

section Instances
open PdkHeaders.Library.Hoare

def stateAfter (ops : List (Op ℕ)) : World ℕ :=
  ops.foldl (fun w op => finalState ((op.run true).run w)) World.init

theorem reaches_stateAfter {allowed : World ℕ → Op ℕ → Prop} (ops : List (Op ℕ)) (op : Op ℕ)
    (h : Reaches true allowed (stateAfter ops)) (hallowed : allowed (stateAfter ops) op)
    (hrun : (op.run true).run (stateAfter ops) = .ok () (stateAfter (ops ++ [op]))) :
    Reaches true allowed (stateAfter (ops ++ [op])) := .step h hallowed hrun

/-- Two chains, the first of one segment. -/
theorem oneSegment_reached {allowed : World ℕ → Op ℕ → Prop}
    (hallowed : ∀ op w, (∀ t rhs, op ≠ .assign t rhs) → op.Legal w → allowed w op) :
    Reaches true allowed (stateAfter [.construct 0, .pushBack 0 0 1, .construct 1]) := by
  have hfirst := reaches_stateAfter [] (.construct 0) .init (hallowed _ _ nofun rfl) rfl
  have hsecond := reaches_stateAfter [.construct 0] (.pushBack 0 0 1) hfirst
    (hallowed _ _ nofun (fun h : some _ = none => nomatch h)) rfl
  exact reaches_stateAfter [.construct 0, .pushBack 0 0 1] (.construct 1) hsecond
    (hallowed _ _ nofun rfl) rfl

/-- Two chains, the first of two segments. -/
theorem twoSegments_reached : Reaches true (fun w op => op.Legal w)
    (stateAfter [.construct 0, .pushBack 0 0 1, .pushBack 0 1 2, .construct 1]) := by
  have hfirst : Reaches true (fun w op => op.Legal w) (stateAfter [.construct 0]) :=
    reaches_stateAfter [] (.construct 0) .init rfl rfl
  have hsecond : Reaches true (fun w op => op.Legal w)
      (stateAfter [.construct 0, .pushBack 0 0 1]) :=
    reaches_stateAfter _ (.pushBack 0 0 1) hfirst (fun h : some _ = none => nomatch h) rfl
  have hthird : Reaches true (fun w op => op.Legal w)
      (stateAfter [.construct 0, .pushBack 0 0 1, .pushBack 0 1 2]) :=
    reaches_stateAfter _ (.pushBack 0 1 2) hsecond (fun h : some _ = none => nomatch h) rfl
  exact reaches_stateAfter _ (.construct 1) hthird rfl rfl

theorem twoSegments_holds :
    Holds (stateAfter [.construct 0, .pushBack 0 0 1, .pushBack 0 1 2, .construct 1]) 0
      [(0, ⟨0, 1, some 1, none⟩), (1, ⟨1, 2, none, some 0⟩)] :=
  ⟨⟨some 0, some 1⟩, rfl, ⟨rfl, rfl, rfl, rfl, rfl⟩, rfl⟩

theorem nodes_accounted_ontoEmpty :
    Accounted (stateAfter [.construct 0, .pushBack 0 0 1, .construct 1, .assign 1 0]) := by
  have hreached : Reaches true (fun w op => op.Legal w ∧ op.OntoEmpty w)
      (stateAfter [.construct 0, .pushBack 0 0 1, .construct 1]) := by
    apply oneSegment_reached
    intro op w hop hlegal
    cases op with
    | assign t rhs => exact absurd rfl (hop t rhs)
    | _ => exact ⟨hlegal, trivial⟩
  have hlegal : (Op.assign 1 0).Legal (stateAfter [.construct 0, .pushBack 0 0 1, .construct 1]) :=
    ⟨(fun h : some _ = none => nomatch h), (fun h : some _ = none => nomatch h)⟩
  have hempty : Holds (stateAfter [.construct 0, .pushBack 0 0 1, .construct 1]) 1 [] :=
    ⟨⟨none, none⟩, rfl, rfl, rfl⟩
  exact (nodes_accounted true (reaches_stateAfter _ _ hreached ⟨hlegal, hempty⟩ rfl)).1

/-- An assignment from an empty chain loses the segment of its target. -/
theorem assign_leaks :
    Reaches true (fun w op => op.Legal w)
      (stateAfter [.construct 0, .pushBack 0 0 1, .construct 1, .assign 0 1]) ∧
    ¬ Accounted (stateAfter [.construct 0, .pushBack 0 0 1, .construct 1, .assign 0 1]) := by
  constructor
  · have hlegal : (Op.assign 0 1).Legal
        (stateAfter [.construct 0, .pushBack 0 0 1, .construct 1]) :=
      ⟨(fun h : some _ = none => nomatch h), (fun h : some _ = none => nomatch h)⟩
    exact reaches_stateAfter _ _ (oneSegment_reached fun _ _ _ h => h) hlegal rfl
  · intro haccounted
    obtain ⟨c, chain, hchain, hreach⟩ := (haccounted.live_iff 0).mp
      (fun h : some _ = none => nomatch h)
    -- both chains are empty, and there is no third
    have hempty : chain.mBegin = none := by
      match c, hchain with
      | 0, rfl => rfl
      | 1, rfl => rfl
    rw [hempty] at hreach
    cases hreach

end Instances

end PdkHeaders.ChainAccounting
