import PdkHeaders.ChainPushes
import PdkHeaders.ChainTraversal

set_option autoImplicit false

/-!
# Chains as values

Read along `next`, the chains of any run are independent values: lists of segments that copies
and assignments copy. What is wrong with the `prev` links of a copy, and with the nodes that an
assignment leaves behind, does not show there.
-/
namespace PdkHeaders.ChainValues
open PdkHeaders.Library.Execution PdkHeaders.Library.Paths PdkHeaders.Library.Hoare
open PdkHeaders.IteratorChain PdkHeaders.ChainSpecs PdkHeaders.ChainAccounting
open PdkHeaders.ChainCopies PdkHeaders.ChainPushes PdkHeaders.ChainedIterators
open PdkHeaders.ChainTraversal

section Values
variable {Iter : Type}

/-- An operation on chains, or a `push_back` whose allocation fails. -/
inductive Event (Iter : Type) where
  | perform (op : Op Iter)
  | failedPush (c : ℕ) (rangeBegin rangeEnd : Iter)

/-- The caller goes on after a failed allocation. -/
def Event.run [Inhabited Iter] (assertions : Bool) : Event Iter → Exec (World Iter) Unit
  | .perform op => op.run assertions
  | .failedPush c rangeBegin rangeEnd => attempt assertions c ⟨rangeBegin, rangeEnd, true⟩

/-- The segments of each live chain. -/
abbrev Values (Iter : Type) := ℕ → Option (List (Iter × Iter))

def applyOp (values : Values Iter) : Op Iter → Values Iter
  | .construct c => Function.update values c (some [])
  | .pushBack c rangeBegin rangeEnd =>
    Function.update values c ((values c).map fun segs => segs ++ [(rangeBegin, rangeEnd)])
  | .copyConstruct t copy _ => Function.update values t (values copy)
  | .assign t rhs => Function.update values t (values rhs)
  | .destroy c => Function.update values c none

def Event.apply (values : Values Iter) : Event Iter → Values Iter
  | .perform op => applyOp values op
  | .failedPush _ _ _ => values

/-- Constructors are called where there is no chain, all else on chains that are alive. -/
def Event.LegalOn (values : Values Iter) : Event Iter → Prop
  | .perform (.construct c) => values c = none
  | .perform (.pushBack c _ _) => values c ≠ none
  | .perform (.copyConstruct t copy _) => values t = none ∧ values copy ≠ none
  | .perform (.assign t rhs) => values t ≠ none ∧ values rhs ≠ none
  | .perform (.destroy c) => values c ≠ none
  | .failedPush c _ _ => values c ≠ none

def LegalRun : Values Iter → List (Event Iter) → Prop
  | _, [] => True
  | values, event :: events => event.LegalOn values ∧ LegalRun (event.apply values) events

def valuesAfter (values : Values Iter) (events : List (Event Iter)) : Values Iter :=
  events.foldl Event.apply values

/-- Each chain is alive where there is a value, and holds the segments of it. -/
structure Represents (w : World Iter) (values : Values Iter) : Prop where
  wellFormed : WellFormed w
  live : ∀ c, w.chain c = none ↔ values c = none
  holds : ∀ c items, Holds w c items → values c = some (segments items)

variable {w u : World Iter} {values : Values Iter} {c : ℕ} {touched : List ℕ}
  {items new : Items Iter}

theorem Represents.exists_items (h : Represents w values) (hc : values c ≠ none) :
    ∃ items, Holds w c items ∧ HeadPrev items ∧ values c = some (segments items) := by
  have hlive : w.chain c ≠ none := fun hnone => hc ((h.live c).mp hnone)
  obtain ⟨items, hitems, hhead⟩ := h.wellFormed.holds c hlive
  exact ⟨items, hitems, hhead, h.holds c items hitems⟩

/-- The effect on one chain changes the value of that chain alone. -/
theorem Represents.update (h : Represents w values) (heffect : StepEffect w u c touched new)
    {value : Option (List (Iter × Iter))} (hlive : u.chain c = none ↔ value = none)
    (hvalue : ∀ items, Holds u c items → value = some (segments items)) :
    Represents u (Function.update values c value) := by
  constructor
  · exact heffect.wellFormed h.wellFormed
  · intro d
    by_cases hd : d = c
    · subst hd
      rw [Function.update_self]
      exact hlive
    · rw [Function.update_of_ne hd, heffect.chains d hd]
      exact h.live d
  · intro d items hitems
    by_cases hd : d = c
    · subst hd
      rw [Function.update_self]
      exact hvalue items hitems
    · rw [Function.update_of_ne hd]
      exact h.holds d items ((heffect.holds_iff h.wellFormed hd).mp hitems)

theorem Represents.updateHolds (h : Represents w values)
    (heffect : StepEffect w u c touched new) (hholds : Holds u c items) :
    Represents u (Function.update values c (some (segments items))) := by
  apply h.update heffect
  · exact iff_of_false hholds.live (Option.some_ne_none _)
  · intro items' hitems'
    rw [hitems'.unique hholds]

variable [Inhabited Iter]

theorem op_represents (assertions : Bool) (h : Represents w values) {op : Op Iter}
    (hlegal : Event.LegalOn values (.perform op)) :
    ∃ u, (op.run assertions).run w = .ok () u ∧ Represents u (applyOp values op) := by
  have halive : ∀ c, values c ≠ none → w.chain c ≠ none := fun c hc hnone =>
    hc ((h.live c).mp hnone)
  have hlegal' : op.Legal w := by
    cases op with
    | construct c => exact (h.live c).mpr hlegal
    | pushBack c rangeBegin rangeEnd => exact halive c hlegal
    | copyConstruct t copy raw => exact ⟨(h.live t).mpr hlegal.1, halive copy hlegal.2⟩
    | assign t rhs => exact ⟨halive t hlegal.1, halive rhs hlegal.2⟩
    | destroy c => exact halive c hlegal
  obtain ⟨u, touched, new, hrun, heffect, -⟩ := run_effect assertions h.wellFormed hlegal'
  refine ⟨u, hrun, ?_⟩
  cases op with
  | construct c =>
    obtain ⟨v, hv, -, hholds⟩ := construct_spec c w
    rw [Op.run, hv] at hrun
    cases hrun
    exact h.updateHolds heffect hholds
  | pushBack c rangeBegin rangeEnd =>
    obtain ⟨items, hitems, -, hvalue⟩ := h.exists_items hlegal
    obtain ⟨v, hv, -, hholds⟩ := pushBack_spec assertions hitems rangeBegin rangeEnd
    rw [Op.run, hv] at hrun
    cases hrun
    have hupdate := h.updateHolds heffect hholds
    rw [segments_pushed] at hupdate
    rw [applyOp, hvalue]
    exact hupdate
  | copyConstruct t copy raw =>
    obtain ⟨items, hitems, hhead, hvalue⟩ := h.exists_items hlegal.2
    obtain ⟨v, hv, -, hholds⟩ :=
      copyConstruct_spec assertions hitems hhead hlegal'.1 raw
    rw [Op.run, hv] at hrun
    cases hrun
    have hupdate := h.updateHolds heffect hholds
    rw [clones_segments] at hupdate
    rw [applyOp, hvalue]
    exact hupdate
  | assign t rhs =>
    obtain ⟨items, hitems, hhead, hvalue⟩ := h.exists_items hlegal.2
    obtain ⟨chain, hchain⟩ := Option.ne_none_iff_exists'.mp hlegal'.1
    obtain ⟨v, hv, -, hholds⟩ := assign_spec assertions hitems hhead hchain
    rw [Op.run, hv] at hrun
    cases hrun
    have hupdate := h.updateHolds heffect hholds
    rw [clones_segments] at hupdate
    rw [applyOp, hvalue]
    exact hupdate
  | destroy c =>
    obtain ⟨items, hitems, -⟩ := h.exists_items hlegal
    obtain ⟨v, hv, -, hnone⟩ := destroy_spec hitems
    rw [Op.run, hv] at hrun
    cases hrun
    apply h.update heffect
    · exact iff_of_true hnone rfl
    · exact fun items hitems => absurd hnone hitems.live

theorem event_represents (assertions : Bool) (h : Represents w values) {event : Event Iter}
    (hlegal : event.LegalOn values) :
    ∃ u, (event.run assertions).run w = .ok () u ∧ Represents u (event.apply values) := by
  cases event with
  | perform op => exact op_represents assertions h hlegal
  | failedPush c rangeBegin rangeEnd =>
    obtain ⟨items, hitems, -⟩ := h.exists_items hlegal
    refine ⟨w, ?_, h⟩
    rw [Event.run, attempt, catchAll_throws (pushBack_fails assertions hitems _ _)]
    rfl

theorem events_represent (assertions : Bool) (events : List (Event Iter))
    (h : Represents w values) (hlegal : LegalRun values events) :
    ∃ u, (runAll (Event.run assertions) events).run w = .ok () u ∧
      Represents u (valuesAfter values events) := by
  induction events generalizing w values with
  | nil => exact ⟨w, rfl, h⟩
  | cons event events ih =>
    obtain ⟨v, hrun, hv⟩ := event_represents assertions h hlegal.1
    obtain ⟨u, hrest, hu⟩ := ih hv hlegal.2
    exact ⟨u, runAll_cons_ok.mpr ⟨v, hrun, hrest⟩, hu⟩

end Values

section Forward
variable {Iter : Type}

/-- Two worlds that differ in the `prev` links of their nodes at most. -/
structure SameForward (w u : World Iter) : Prop where
  chain : w.chain = u.chain
  none_iff : ∀ n, w.items.cell n = none ↔ u.items.cell n = none
  fields : ∀ n a b, w.items.cell n = some a → u.items.cell n = some b →
    a.rangeBegin = b.rangeBegin ∧ a.rangeEnd = b.rangeEnd ∧ a.next = b.next

def relink (prev : ℕ → Option ℕ) (n : ℕ) (a : ChainItem Iter) : ChainItem Iter :=
  { a with prev := prev n }

def relinked (w : World Iter) (prev : ℕ → Option ℕ) : World Iter where
  chain := w.chain
  items :=
    { cell := fun n => (w.items.cell n).map (relink prev n)
      bound := w.items.bound
      fresh := fun n hn => by rw [w.items.fresh n hn, Option.map_none] }

variable {w u : World Iter} {c n : ℕ} {items : Items Iter} {prev : ℕ → Option ℕ}

theorem sameForward_relinked (w : World Iter) (prev : ℕ → Option ℕ) :
    SameForward w (relinked w prev) where
  chain := rfl
  none_iff n := by
    change _ ↔ (w.items.cell n).map (relink prev n) = none
    rw [Option.map_eq_none_iff]
  fields n a b ha hb := by
    change (w.items.cell n).map (relink prev n) = some b at hb
    rw [ha] at hb
    cases hb
    exact ⟨rfl, rfl, rfl⟩

theorem relinked_holds (h : Holds w c items) (prev : ℕ → Option ℕ) :
    Holds (relinked w prev) c (items.map fun item => (item.1, relink prev item.1 item.2)) := by
  obtain ⟨chain, hchain, hpath, hend⟩ := h
  refine ⟨chain, hchain, hpath.map fun _ _ => rfl, ?_⟩
  rw [hend, addresses, addresses, List.map_map]
  rfl

/-- The address in front of each of a list of them. -/
def predecessor (ns : List ℕ) (n : ℕ) : Option ℕ := (ns.takeWhile fun m => m ≠ n).getLast?

theorem predecessor_eq {front back : List ℕ} (hnodup : (front ++ n :: back).Nodup) :
    predecessor (front ++ n :: back) n = front.getLast? := by
  have hnot : ∀ m ∈ front, decide (m ≠ n) = true := by
    intro m hm
    have hdisjoint := (List.nodup_append.mp hnodup).2.2 m hm n List.mem_cons_self
    exact decide_eq_true hdisjoint
  rw [predecessor, List.takeWhile_append_of_pos hnot, List.takeWhile_cons]
  simp

variable [InnerIterator Iter]

/-- Relinked to its predecessors, a chain of valid ranges is doubly linked. -/
theorem relinked_doubly (prev : ℕ → Option ℕ) (front : List ℕ) {start : Option ℕ}
    {ranges : List (Range Iter)} (h : NextPath w start items none)
    (hnodup : (front ++ addresses items).Nodup)
    (hranges : segments items = ranges.map fun r => (r.first, r.last))
    (hprev : ∀ before n after, front ++ addresses items = before ++ n :: after →
      prev n = before.getLast?) :
    items.map (fun item => (item.1, relink prev item.1 item.2)) =
      doubly front.getLast? ((addresses items).zip ranges) := by
  induction items generalizing front start ranges with
  | nil => rfl
  | cons item rest ih =>
    obtain ⟨n, a⟩ := item
    cases ranges with
    | nil => cases hranges
    | cons r ranges =>
      obtain ⟨hsegment, hrest⟩ := List.cons.inj hranges
      have hlength : (addresses rest).length = ranges.length := by
        have hmap := congrArg List.length hrest
        rw [List.length_map, List.length_map] at hmap
        rwa [addresses, List.length_map]
      have hnext : a.next = (addresses rest).head? := Path.start_eq h.2.2
      have hfront : prev n = front.getLast? := hprev front n (addresses rest) rfl
      have hsplit : front ++ addresses ((n, a) :: rest) = (front ++ [n]) ++ addresses rest := by
        rw [addresses_cons, List.append_cons]
      have htail := ih (front ++ [n]) h.2.2 (hsplit ▸ hnodup) hrest
        fun before m after heq => hprev before m after (hsplit.trans heq)
      rw [List.getLast?_concat] at htail
      rw [List.map_cons, htail, addresses_cons, List.zip_cons_cons, doubly,
        List.map_fst_zip (Nat.le_of_eq hlength), relink, hfront, ← hnext]
      have hfirst : a.rangeBegin = r.first := congrArg Prod.fst hsegment
      have hlast : a.rangeEnd = r.last := congrArg Prod.snd hsegment
      rw [← hfirst, ← hlast]

/-- A chain of valid ranges reads along `next` like one that was built by `push_back`. -/
theorem exists_doubly {ranges : List (Range Iter)} (h : Holds w c items)
    (hranges : segments items = ranges.map fun r => (r.first, r.last)) :
    ∃ u nodes, SameForward w u ∧ Holds u c (doubly none nodes) ∧ nodes.map (·.2) = ranges := by
  have hnodup := h.nodup
  have hlength : ranges.length ≤ (addresses items).length := by
    have hmap := congrArg List.length hranges
    rw [segments, List.length_map, List.length_map] at hmap
    rw [addresses, List.length_map, hmap]
  obtain ⟨chain, -, hpath, -⟩ := id h
  have hprev : ∀ before n after, [] ++ addresses items = before ++ n :: after →
      predecessor (addresses items) n = before.getLast? := by
    intro before n after heq
    rw [List.nil_append] at heq
    rw [heq] at hnodup ⊢
    exact predecessor_eq hnodup
  have hdoubly := relinked_doubly (predecessor (addresses items)) [] hpath hnodup hranges hprev
  have hholds := relinked_holds h (predecessor (addresses items))
  rw [hdoubly] at hholds
  exact ⟨_, _, sameForward_relinked w _, hholds, List.map_snd_zip hlength⟩

end Forward

section Loops
variable {Iter : Type} {w u : World Iter} {c : ℕ} {items : Items Iter}

/-- A read of a node ends alike if what is done with it does not look at `prev`. -/
theorem readItem_alike {α : Type} (h : SameForward w u) (n : ℕ)
    {f : ChainItem Iter → Exec (World Iter) α}
    (hf : ∀ a b, a.rangeBegin = b.rangeBegin → a.rangeEnd = b.rangeEnd → a.next = b.next →
      f a = f b)
    (halike : ∀ a, ReadsAlike w u (f a)) : ReadsAlike w u (readItem n >>= f) := by
  cases ha : w.items.cell n with
  | none =>
    have hb := (h.none_iff n).mp ha
    exact .inr ⟨_, bind_error (readItem_dead ha), bind_error (readItem_dead hb)⟩
  | some a =>
    obtain ⟨b, hb⟩ := Option.ne_none_iff_exists'.mp fun hnone => by
      rw [(h.none_iff n).mpr hnone] at ha
      cases ha
    obtain ⟨hbegin, hend, hnext⟩ := h.fields n a b ha hb
    have hfirst := halike a
    unfold ReadsAlike at hfirst ⊢
    rw [bind_ok (readItem_run ha), bind_ok (readItem_run hb), ← hf a b hbegin hend hnext]
    exact hfirst

theorem readChain_alike (h : SameForward w u) (c : ℕ) : ReadsAlike w u (readChain c) := by
  have hchain : u.chain c = w.chain c := by rw [h.chain]
  cases hc : w.chain c with
  | none =>
    rw [hc] at hchain
    refine .inr ⟨.faults .badAccess, ?_, ?_⟩
    · rw [readChain, bind_ok (EStateM.run_get w), hc]
      rfl
    · rw [readChain, bind_ok (EStateM.run_get u), hchain]
      rfl
  | some chain =>
    rw [hc] at hchain
    exact .inl ⟨chain, readChain_run hc, readChain_run hchain⟩

variable [InnerIterator Iter] {ranges : List (Range Iter)}

theorem chainBegin_alike (h : SameForward w u) (c : ℕ) : ReadsAlike w u (chainBegin c) := by
  apply (readChain_alike h c).bind
  intro chain
  cases chain.mBegin with
  | none => exact .pure _
  | some n =>
    apply readItem_alike h n
    · intro a b hbegin _ _
      rw [hbegin]
    · exact fun a => .pure _

theorem chainEnd_alike (h : SameForward w u) (c : ℕ) : ReadsAlike w u (chainEnd c) := by
  apply (readChain_alike h c).bind
  intro chain
  cases chain.mEnd with
  | none => exact .pure _
  | some n =>
    apply readItem_alike h n
    · intro a b _ hend _
      rw [hend]
    · exact fun a => .pure _

variable [DecidableEq Iter]

theorem increaseInner_alike (h : SameForward w u) (q : ChainedIterator Iter) :
    ReadsAlike w u (increaseInner q) := by
  unfold increaseInner
  cases q.mChain with
  | none => exact .pure _
  | some n =>
    apply readItem_alike h n
    · intro a b _ hend hnext
      simp only [hend, hnext]
    · intro a
      apply ReadsAlike.ite
      · cases a.next with
        | none => exact .pure _
        | some next =>
          apply readItem_alike h next
          · intro a b hbegin _ _
            rw [hbegin]
          · exact fun a => .pure _
      · exact .pure _

theorem forwardLoop_alike (h : SameForward w u) (steps : ℕ) (q last : ChainedIterator Iter) :
    ReadsAlike w u (forwardLoop steps q last) := by
  induction steps generalizing q with
  | zero => exact .ite (.pure _) (.fault _)
  | succ steps ih =>
    exact .ite (.pure _) ((increaseInner_alike h q).bind fun q' => (ih q').bind fun _ => .pure _)

/-- In as many steps as the ranges have elements, `++` leads from `begin()` to `end()` through
their concatenation. -/
def ForwardCorrect (w : World Iter) (c : ℕ) (ranges : List (Range Iter)) : Prop :=
  ∃ first last, (chainBegin c).run w = .ok first w ∧ (chainEnd c).run w = .ok last w ∧
    (forwardLoop (totalLength ranges) first last).run w = .ok (concatenation ranges) w

/-- Some range but the last is empty: the loop never ends. -/
def ForwardDiverges (w : World Iter) (c : ℕ) : Prop :=
  ∃ first last, (chainBegin c).run w = .ok first w ∧ (chainEnd c).run w = .ok last w ∧
    ∀ steps, (forwardLoop steps first last).run w = .error (.faults .diverges) w

theorem forward_of_doubly {nodes : List (ℕ × Range Iter)} (h : Holds w c (doubly none nodes)) :
    (∀ node ∈ nodes.dropLast, node.2.length ≠ 0) ∧ ForwardCorrect w c (nodes.map (·.2)) ∨
      (∃ node ∈ nodes.dropLast, node.2.length = 0) ∧ ForwardDiverges w c := by
  by_cases hfull : ∀ node ∈ nodes.dropLast, node.2.length ≠ 0
  · left
    obtain ⟨first, last, hfirst, hlast, hloop, -⟩ := (traversal_of_holds h).mpr hfull
    exact ⟨hfull, first, last, hfirst, hlast, hloop⟩
  · right
    simp only [not_forall, not_not, exists_prop] at hfull
    obtain ⟨node, hnode, hlength⟩ := hfull
    refine ⟨⟨node, hnode, hlength⟩, ?_⟩
    rcases List.eq_nil_or_concat nodes with rfl | ⟨front, ⟨l, s⟩, hnodes⟩
    · cases hnode
    · rw [List.concat_eq_append] at hnodes
      have hlast : nodes.getLast? = some (l, s) := by rw [hnodes, List.getLast?_concat]
      obtain ⟨⟨m, r⟩, after, hcons⟩ : ∃ node after, nodes = [] ++ node :: after :=
        List.exists_cons_of_ne_nil (hnodes ▸ by simp)
      rw [hcons] at hnode
      have hstuck : Stuck nodes (position m r 0) :=
        .ahead 0 hcons (by omega) ⟨node, hnode, hlength⟩
      exact ⟨_, _, chainBegin_spec h hcons, chainEnd_spec h hnodes, fun steps =>
        forwardLoop_diverges (fun q => stuck_ne_end h hlast) (fun q => stuck_step h) steps hstuck⟩

theorem forward_of_holds (h : Holds w c items)
    (hranges : segments items = ranges.map fun r => (r.first, r.last)) :
    (∀ r ∈ ranges.dropLast, r.length ≠ 0) ∧ ForwardCorrect w c ranges ∨
      (∃ r ∈ ranges.dropLast, r.length = 0) ∧ ForwardDiverges w c := by
  obtain ⟨u, nodes, hsame, hu, rfl⟩ := exists_doubly h hranges
  rw [← List.map_dropLast]
  rcases forward_of_doubly hu with ⟨hfull, hcorrect⟩ | ⟨hempty, hdiverges⟩
  · left
    obtain ⟨first, last, hfirst, hlast, hloop⟩ := hcorrect
    exact ⟨List.forall_mem_map.mpr hfull, first, last, (chainBegin_alike hsame c).ok hfirst,
      (chainEnd_alike hsame c).ok hlast, (forwardLoop_alike hsame _ first last).ok hloop⟩
  · right
    obtain ⟨node, hnode, hlength⟩ := hempty
    obtain ⟨first, last, hfirst, hlast, hloop⟩ := hdiverges
    exact ⟨⟨node.2, List.mem_map_of_mem hnode, hlength⟩, first, last,
      (chainBegin_alike hsame c).ok hfirst, (chainEnd_alike hsame c).ok hlast,
      fun steps => (forwardLoop_alike hsame steps first last).error (hloop steps)⟩

/-- In every legal run, failed pushes included, no operation stops, the live chains hold the
values that the operations have as operations on independent lists, and a loop over any of
them visits the concatenation of its ranges, unless one of them but the last is empty. -/
theorem chains_are_values (assertions : Bool) (events : List (Event Iter))
    (hlegal : LegalRun (fun _ => none) events) :
    ∃ w, (runAll (Event.run assertions) events).run World.init = .ok () w ∧ ∀ c,
      (w.chain c = none ↔ valuesAfter (fun _ => none) events c = none) ∧
      ∀ segs, valuesAfter (fun _ => none) events c = some segs →
        (∃ items, ForwardWalk w c items ∧ segments items = segs) ∧
        ∀ ranges : List (Range Iter), segs = ranges.map (fun r => (r.first, r.last)) →
          (∀ r ∈ ranges.dropLast, r.length ≠ 0) ∧ ForwardCorrect w c ranges ∨
            (∃ r ∈ ranges.dropLast, r.length = 0) ∧ ForwardDiverges w c := by
  have hinit : Represents (World.init : World Iter) fun _ => none :=
    ⟨wellFormed_init, fun _ => iff_of_true rfl rfl, fun _ _ h => absurd rfl h.live⟩
  obtain ⟨w, hrun, hw⟩ := events_represent assertions events hinit hlegal
  refine ⟨w, hrun, fun c => ⟨hw.live c, fun segs hsegs => ?_⟩⟩
  obtain ⟨items, hitems, -, hvalue⟩ := hw.exists_items (by rw [hsegs]; simp)
  rw [hsegs] at hvalue
  cases hvalue
  exact ⟨⟨items, forwardWalk_of_holds hitems, rfl⟩, fun ranges => forward_of_holds hitems⟩

end Loops

section Instances

/-- A copy keeps its two segments when its source is given another, and when it is assigned
to itself. -/
theorem chains_are_values_copy :
    ∃ w, (runAll (Event.run true) [.perform (.construct 0), .perform (.pushBack 0 0 2),
        .perform (.pushBack 0 5 6), .perform (.copyConstruct 1 0 ⟨none, none⟩),
        .failedPush 1 3 4, .perform (.pushBack 0 8 9), .perform (.assign 1 1)]).run
          (World.init : World ℤ) = .ok () w ∧
      ForwardCorrect w 1 [⟨0, 2⟩, ⟨5, 1⟩] := by
  obtain ⟨w, hrun, hvalues⟩ := chains_are_values true
    ([.perform (.construct 0), .perform (.pushBack 0 0 2), .perform (.pushBack 0 5 6),
      .perform (.copyConstruct 1 0 ⟨none, none⟩), .failedPush 1 3 4, .perform (.pushBack 0 8 9),
      .perform (.assign 1 1)] : List (Event ℤ))
    ⟨rfl, (fun h => nomatch h), (fun h => nomatch h), ⟨rfl, (fun h => nomatch h)⟩,
      (fun h => nomatch h), (fun h => nomatch h), ⟨(fun h => nomatch h), (fun h => nomatch h)⟩,
      trivial⟩
  refine ⟨w, hrun, ?_⟩
  rcases ((hvalues 1).2 [(0, 2), (5, 6)] rfl).2 [⟨0, 2⟩, ⟨5, 1⟩] rfl with
    ⟨-, hcorrect⟩ | ⟨hempty, -⟩
  · exact hcorrect
  · simp at hempty

end Instances

end PdkHeaders.ChainValues
