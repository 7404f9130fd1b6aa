import PdkHeaders.ChainIndices
import PdkHeaders.Library.Sessions
import PdkHeaders.ShareIterators

set_option autoImplicit false

/-!
# Cursors over a chain of share vectors

A program that steps any number of iterators over a chain, compares them, and reads and writes
shares through them, cannot tell the chain from one array.
-/
namespace PdkHeaders.ChainCursors
open PdkHeaders.Library.Execution PdkHeaders.Library.Transcript PdkHeaders.Library.Sessions
open PdkHeaders.IteratorChain PdkHeaders.ChainSpecs PdkHeaders.ChainedIterators
open PdkHeaders.ChainTraversal PdkHeaders.ChainIndices PdkHeaders.ShareIterators

section Sessions
variable {α : Type}

/-- What a program does with the iterators it keeps; `j` and `k` say which. -/
inductive Command (α : Type) where
  | moveBegin (k : ℕ)
  | moveEnd (k : ℕ)
  | copy (j k : ℕ)
  | increase (k : ℕ)
  | decrease (k : ℕ)
  | postIncrease (j k : ℕ)
  | postDecrease (j k : ℕ)
  | equal (j k : ℕ)
  | notEqual (j k : ℕ)
  | read (k : ℕ)
  | write (k : ℕ) (a : α)

inductive Answer (α : Type) where
  | done
  | refused
  | truth (b : Bool)
  | value (a : α)
  deriving DecidableEq, Repr

structure CursorState (α : Type) where
  world : World ShareIterator
  vectors : Vectors α
  cursor : ℕ → ChainedIterator ShareIterator

def onChain {β : Type} (m : Exec (World ShareIterator) β) : Exec (CursorState α) β :=
  zoom CursorState.world (fun w s => { s with world := w }) m

def onVectors {β : Type} (m : Exec (Vectors α) β) : Exec (CursorState α) β :=
  zoom CursorState.vectors (fun vectors s => { s with vectors := vectors }) m

def setCursor (k : ℕ) (q : ChainedIterator ShareIterator) : Exec (CursorState α) Unit :=
  modify fun s => { s with cursor := Function.update s.cursor k q }

/-- The body runs only where `q != limit`. -/
def awayFrom (q limit : ChainedIterator ShareIterator) (body : Exec (CursorState α) (Answer α)) :
    Exec (CursorState α) (Answer α) :=
  if ChainIndices.notEqual q limit then body else return .refused

/-- An iterator is moved on or dereferenced only away from `end()`, and back only away from
`begin()`. -/
def Command.run (c : ℕ) : Command α → Exec (CursorState α) (Answer α)
  | .moveBegin k => do
    setCursor k (← onChain (chainBegin c))
    return .done
  | .moveEnd k => do
    setCursor k (← onChain (chainEnd c))
    return .done
  | .copy j k => do
    setCursor j ((← get).cursor k)
    return .done
  | .increase k => do
    let q := (← get).cursor k
    awayFrom q (← onChain (chainEnd c)) do
      setCursor k (← onChain (increaseInner q))
      return .done
  | .decrease k => do
    let q := (← get).cursor k
    awayFrom q (← onChain (chainBegin c)) do
      setCursor k (← onChain (decreaseInner q))
      return .done
  | .postIncrease j k => do
    let q := (← get).cursor k
    awayFrom q (← onChain (chainEnd c)) do
      let (r, next) ← onChain (postIncrement q)
      setCursor k next
      setCursor j r
      return .done
  | .postDecrease j k => do
    let q := (← get).cursor k
    awayFrom q (← onChain (chainBegin c)) do
      let (r, prev) ← onChain (postDecrement q)
      setCursor k prev
      setCursor j r
      return .done
  | .equal j k => do
    let s ← get
    return .truth (ChainIndices.equal (s.cursor j) (s.cursor k))
  | .notEqual j k => do
    let s ← get
    return .truth (ChainIndices.notEqual (s.cursor j) (s.cursor k))
  | .read k => do
    let q := (← get).cursor k
    awayFrom q (← onChain (chainEnd c)) do
      return .value (← onVectors (readElement q.mIt))
  | .write k a => do
    let q := (← get).cursor k
    awayFrom q (← onChain (chainEnd c)) do
      onVectors (writeElement q.mIt a)
      return .done

/-- The same commands on indices into something of a fixed length. -/
def indexMachine {μ : Type} (length : ℕ) (read : μ → ℕ → Option α) (write : μ → ℕ → α → μ) :
    Machine (μ × (ℕ → ℕ)) (Command α) (Except Stop (Answer α)) := fun command s =>
  match command with
  | .moveBegin k => (.ok .done, s.1, Function.update s.2 k 0)
  | .moveEnd k => (.ok .done, s.1, Function.update s.2 k length)
  | .copy j k => (.ok .done, s.1, Function.update s.2 j (s.2 k))
  | .increase k =>
    if s.2 k = length then (.ok .refused, s)
    else (.ok .done, s.1, Function.update s.2 k (s.2 k + 1))
  | .decrease k =>
    if s.2 k = 0 then (.ok .refused, s)
    else (.ok .done, s.1, Function.update s.2 k (s.2 k - 1))
  | .postIncrease j k =>
    if s.2 k = length then (.ok .refused, s)
    else (.ok .done, s.1, Function.update (Function.update s.2 k (s.2 k + 1)) j (s.2 k))
  | .postDecrease j k =>
    if s.2 k = 0 then (.ok .refused, s)
    else (.ok .done, s.1, Function.update (Function.update s.2 k (s.2 k - 1)) j (s.2 k))
  | .equal j k => (.ok (.truth (s.2 j = s.2 k)), s)
  | .notEqual j k => (.ok (.truth (s.2 j ≠ s.2 k)), s)
  | .read k =>
    if s.2 k = length then (.ok .refused, s)
    else match read s.1 (s.2 k) with
      | some a => (.ok (.value a), s)
      | none => (.error (.faults .badAccess), s)
  | .write k a =>
    if s.2 k = length then (.ok .refused, s) else (.ok .done, write s.1 (s.2 k) a, s.2)

/-- An index into a list of positions, wherever they lie. -/
def locationMachine (locations : List ShareIterator) :
    Machine (Vectors α × (ℕ → ℕ)) (Command α) (Except Stop (Answer α)) :=
  indexMachine locations.length (fun vectors i => locations[i]?.bind (element? vectors))
    fun vectors i a => (locations[i]?.map fun it => setElement vectors it a).getD vectors

/-- An index into an array of values. -/
def arrayMachine (length : ℕ) : Machine (List α × (ℕ → ℕ)) (Command α) (Except Stop (Answer α)) :=
  indexMachine length (fun values i => values[i]?) fun values i a => values.set i a

end Sessions

section Locations
variable {α : Type} {nodes : List (ℕ × Range ShareIterator)} {c i k : ℕ} {w : World ShareIterator}
  {s : CursorState α} {t : Vectors α × (ℕ → ℕ)} {q : ChainedIterator ShareIterator}

/-- The iterators stand at their indices, on shares that exist. -/
structure Located (w : World ShareIterator) (nodes : List (ℕ × Range ShareIterator))
    (s : CursorState α) (t : Vectors α × (ℕ → ℕ)) : Prop where
  world : s.world = w
  vectors : s.vectors = t.1
  cursors : ∀ k, At nodes (t.2 k) (s.cursor k)
  shares : ∀ it ∈ elementsOf nodes, (element? s.vectors it).isSome

theorem Located.set (h : Located w nodes s t) (hq : At nodes i q) (k : ℕ) :
    Located w nodes { s with cursor := Function.update s.cursor k q }
      (t.1, Function.update t.2 k i) where
  world := h.world
  vectors := h.vectors
  shares := h.shares
  cursors j := by
    by_cases hj : j = k
    · subst hj
      simpa only [Function.update_self] using hq
    · simpa only [Function.update_of_ne hj] using h.cursors j

/-- The guard of a command asks whether the index is that of the limit. -/
theorem awayFrom_matches {limit : ChainedIterator ShareIterator} {l : ℕ}
    {body : Exec (CursorState α) (Answer α)}
    {reply : Except Stop (Answer α) × (Vectors α × (ℕ → ℕ))}
    (hw : Holds w c (doubly none nodes)) (h : Located w nodes s t) (hq : At nodes (t.2 k) q)
    (hlimit : At nodes l limit)
    (hbody : t.2 k ≠ l → Matches (Located w nodes) reply (body.run s)) :
    Matches (Located w nodes) (if t.2 k = l then (.ok .refused, t) else reply)
      ((awayFrom q limit body).run s) := by
  have heq := at_eq_iff hw hq hlimit
  unfold awayFrom
  rw [notEqual_eq, equal_eq]
  by_cases hk : t.2 k = l
  · rw [if_pos hk, decide_eq_true (heq.mpr hk)]
    exact ⟨rfl, h⟩
  · have hne : ¬ q = limit := fun hlimit => hk (heq.mp hlimit)
    rw [if_neg hk, decide_eq_false hne]
    exact hbody hk

theorem onChain_run {β : Type} {m : Exec (World ShareIterator) β} {b : β}
    (h : Located w nodes s t) (hrun : m.run w = .ok b w) :
    (onChain m : Exec (CursorState α) β).run s = .ok b s := by
  have hrun' : m.run s.world = .ok b w := by rw [h.world, hrun]
  have hworld : { s with world := w } = s := by rw [← h.world]
  rw [onChain, zoom_ok hrun', hworld]

theorem Located.element (h : Located w nodes s t) (hk : t.2 k ≠ lengthOf nodes) :
    ∃ it a, (elementsOf nodes)[t.2 k]? = some it ∧ (s.cursor k).mIt = it ∧
      element? s.vectors it = some a := by
  have hat := h.cursors k
  have hle := hat.le
  have hit := hat.element (by omega)
  obtain ⟨a, ha⟩ := Option.isSome_iff_exists.mp (h.shares _ (List.mem_of_getElem? hit))
  exact ⟨_, a, hit, rfl, ha⟩

theorem Located.increase (hw : Holds w c (doubly none nodes)) (hfull : Full nodes)
    (h : Located w nodes s t) (hk : t.2 k ≠ lengthOf nodes) :
    ∃ q, (increaseInner (s.cursor k)).run w = .ok q w ∧ At nodes (t.2 k + 1) q := by
  have hle := (h.cursors k).le
  exact at_increase hw hfull (h.cursors k) (by omega)

theorem Located.decrease (hw : Holds w c (doubly none nodes)) (hfull : Full nodes)
    (h : Located w nodes s t) (hk : t.2 k ≠ 0) :
    ∃ q, (decreaseInner (s.cursor k)).run w = .ok q w ∧ At nodes (t.2 k - 1) q := by
  have hcursor := h.cursors k
  have hsucc : t.2 k = t.2 k - 1 + 1 := by omega
  rw [hsucc] at hcursor
  exact at_decrease hw hfull hcursor

theorem shares_setElement {vectors : Vectors α} {it : ShareIterator} {a b : α}
    (h : element? vectors it = some b) (other : ShareIterator)
    (hother : (element? vectors other).isSome) :
    (element? (setElement vectors it a) other).isSome := by
  by_cases hne : other = it
  · rw [hne, element?_setElement_self h]
    rfl
  · rwa [element?_setElement_of_ne h hne]

theorem command_matches (hw : Holds w c (doubly none nodes)) (hfull : Full nodes)
    (command : Command α) (h : Located w nodes s t) :
    Matches (Located w nodes) (locationMachine (elementsOf nodes) command t)
      ((command.run c).run s) := by
  obtain ⟨first, hfirst, hat⟩ := at_begin hw hfull
  obtain ⟨last, hlast, hat'⟩ := at_end hw
  have hbegin := onChain_run h hfirst
  have hend := onChain_run h hlast
  have hlength := length_elementsOf nodes
  cases command with
  | moveBegin k =>
    rw [Command.run, bind_ok hbegin]
    exact ⟨rfl, h.set hat k⟩
  | moveEnd k =>
    rw [Command.run, bind_ok hend, locationMachine, indexMachine, hlength]
    exact ⟨rfl, h.set hat' k⟩
  | copy j k =>
    rw [Command.run, bind_ok (EStateM.run_get s)]
    exact ⟨rfl, h.set (h.cursors k) j⟩
  | equal j k =>
    rw [Command.run, bind_ok (EStateM.run_get s)]
    refine ⟨?_, h⟩
    simp only [locationMachine, indexMachine, equal_eq, at_eq_iff hw (h.cursors j) (h.cursors k)]
  | notEqual j k =>
    rw [Command.run, bind_ok (EStateM.run_get s)]
    refine ⟨?_, h⟩
    simp only [locationMachine, indexMachine, notEqual_eq, equal_eq,
      at_eq_iff hw (h.cursors j) (h.cursors k), ne_eq, decide_not]
  | increase k =>
    rw [Command.run, bind_ok (EStateM.run_get s), bind_ok hend, locationMachine, indexMachine,
      hlength]
    apply awayFrom_matches hw h (h.cursors k) hat'
    intro hk
    obtain ⟨q, hrun, hq⟩ := h.increase hw hfull hk
    rw [bind_ok (onChain_run h hrun)]
    exact ⟨rfl, h.set hq k⟩
  | decrease k =>
    rw [Command.run, bind_ok (EStateM.run_get s), bind_ok hbegin, locationMachine, indexMachine]
    apply awayFrom_matches hw h (h.cursors k) hat
    intro hk
    obtain ⟨q, hrun, hq⟩ := h.decrease hw hfull hk
    rw [bind_ok (onChain_run h hrun)]
    exact ⟨rfl, h.set hq k⟩
  | postIncrease j k =>
    rw [Command.run, bind_ok (EStateM.run_get s), bind_ok hend, locationMachine, indexMachine,
      hlength]
    apply awayFrom_matches hw h (h.cursors k) hat'
    intro hk
    obtain ⟨q, hrun, hq⟩ := h.increase hw hfull hk
    have hpost : (postIncrement (s.cursor k)).run w = .ok (s.cursor k, q) w := by
      rw [postIncrement, bind_ok hrun]
      rfl
    rw [bind_ok (onChain_run h hpost)]
    exact ⟨rfl, (h.set hq k).set (h.cursors k) j⟩
  | postDecrease j k =>
    rw [Command.run, bind_ok (EStateM.run_get s), bind_ok hbegin, locationMachine, indexMachine]
    apply awayFrom_matches hw h (h.cursors k) hat
    intro hk
    obtain ⟨q, hrun, hq⟩ := h.decrease hw hfull hk
    have hpost : (postDecrement (s.cursor k)).run w = .ok (s.cursor k, q) w := by
      rw [postDecrement, bind_ok hrun]
      rfl
    rw [bind_ok (onChain_run h hpost)]
    exact ⟨rfl, (h.set hq k).set (h.cursors k) j⟩
  | read k =>
    rw [Command.run, bind_ok (EStateM.run_get s), bind_ok hend, locationMachine, indexMachine,
      hlength]
    apply awayFrom_matches hw h (h.cursors k) hat'
    intro hk
    obtain ⟨it, a, hit, hcursor, ha⟩ := h.element hk
    have hread : (onVectors (readElement (s.cursor k).mIt)).run s = .ok a s := by
      rw [hcursor]
      exact zoom_ok (readElement_run ha)
    rw [bind_ok hread, hit, Option.bind_some, ← h.vectors, ha]
    exact ⟨rfl, h⟩
  | write k a =>
    rw [Command.run, bind_ok (EStateM.run_get s), bind_ok hend, locationMachine, indexMachine,
      hlength]
    apply awayFrom_matches hw h (h.cursors k) hat'
    intro hk
    obtain ⟨it, b, hit, hcursor, hb⟩ := h.element hk
    have hwrite : (onVectors (writeElement (s.cursor k).mIt a)).run s =
        .ok () { s with vectors := setElement s.vectors it a } := by
      rw [hcursor]
      exact zoom_ok (writeElement_run hb)
    rw [bind_ok hwrite, hit]
    refine ⟨rfl, h.world, ?_, h.cursors, ?_⟩
    · exact congrArg (fun vectors => setElement vectors it a) h.vectors
    · exact fun other hother => shares_setElement hb other (h.shares other hother)

theorem located_simulates (hw : Holds w c (doubly none nodes)) (hfull : Full nodes) :
    Simulates (Located w nodes) (session (Command.run (α := α) c))
      (locationMachine (elementsOf nodes)) :=
  session_simulates fun command _ _ h => command_matches hw hfull command h

end Locations

section Arrays
variable {α μ ν : Type} {locations : List ShareIterator} {vectors : Vectors α} {values : List α}
  {i : ℕ} {it : ShareIterator}

/-- Two index machines are alike if their reads are and their writes stay so. -/
theorem indexMachine_simulates {R : μ → ν → Prop} {length : ℕ} {read : μ → ℕ → Option α}
    {read' : ν → ℕ → Option α} {write : μ → ℕ → α → μ} {write' : ν → ℕ → α → ν}
    (hread : ∀ m n i, R m n → read m i = read' n i)
    (hwrite : ∀ m n i a, R m n → R (write m i a) (write' n i a)) :
    Simulates (fun s t => R s.1 t.1 ∧ s.2 = t.2) (indexMachine length read write)
      (indexMachine length read' write') := by
  rintro command ⟨m, index⟩ ⟨n, index'⟩ ⟨hR, hindex⟩
  simp only at hR hindex
  subst hindex
  cases command with
  | moveBegin k | moveEnd k | copy j k | equal j k | notEqual j k => exact ⟨rfl, hR, rfl⟩
  | increase k | decrease k | postIncrease j k | postDecrease j k =>
    simp only [indexMachine]
    split <;> exact ⟨rfl, hR, rfl⟩
  | read k =>
    simp only [indexMachine, hread m n _ hR]
    split
    · exact ⟨rfl, hR, rfl⟩
    · split <;> exact ⟨rfl, hR, rfl⟩
  | write k a =>
    simp only [indexMachine]
    split
    · exact ⟨rfl, hR, rfl⟩
    · exact ⟨rfl, hwrite m n _ a hR, rfl⟩

/-- The values are those at the locations, and all other shares are the initial ones. -/
structure Tabulates (locations : List ShareIterator) (initial vectors : Vectors α)
    (values : List α) : Prop where
  values : locations.map (element? vectors) = values.map some
  elsewhere : ∀ it ∉ locations, element? vectors it = element? initial it

theorem length_eq_of_values (h : locations.map (element? vectors) = values.map some) :
    locations.length = values.length := by
  have hlength := congrArg List.length h
  rwa [List.length_map, List.length_map] at hlength

theorem value_at (h : locations.map (element? vectors) = values.map some) (i : ℕ) :
    locations[i]?.bind (element? vectors) = values[i]? := by
  have hi := congrArg (fun list => list[i]?) h
  simp only [List.getElem?_map] at hi
  cases hlocation : locations[i]? with
  | none =>
    rw [hlocation] at hi
    rw [Option.bind_none]
    cases hvalue : values[i]? with
    | none => rfl
    | some a =>
      rw [hvalue] at hi
      cases hi
  | some it =>
    rw [hlocation, Option.map_some] at hi
    rw [Option.bind_some]
    cases hvalue : values[i]? with
    | none =>
      rw [hvalue] at hi
      cases hi
    | some a =>
      rw [hvalue] at hi
      exact Option.some.inj hi

theorem Tabulates.set {initial : Vectors α} (h : Tabulates locations initial vectors values)
    (hnodup : locations.Nodup) (hit : locations[i]? = some it) (a : α) :
    Tabulates locations initial (setElement vectors it a) (values.set i a) := by
  have hvalue := value_at h.values i
  have hi : i < values.length := by
    rw [← length_eq_of_values h.values]
    exact (List.getElem?_eq_some_iff.mp hit).1
  rw [hit, Option.bind_some, List.getElem?_eq_getElem hi] at hvalue
  constructor
  · apply List.ext_getElem?
    intro k
    have hk := congrArg (fun list => list[k]?) h.values
    simp only [List.getElem?_map] at hk ⊢
    by_cases hik : i = k
    · subst hik
      rw [hit, List.getElem?_set_self hi, Option.map_some, Option.map_some,
        element?_setElement_self hvalue]
    · rw [List.getElem?_set_ne hik, ← hk]
      cases hother : locations[k]? with
      | none => rfl
      | some other =>
        have hne : other ≠ it := by
          rintro rfl
          obtain ⟨hlt, hget⟩ := List.getElem?_eq_some_iff.mp hit
          obtain ⟨hlt', hget'⟩ := List.getElem?_eq_some_iff.mp hother
          exact hik ((List.Nodup.getElem_inj_iff hnodup).mp (hget.trans hget'.symm))
        rw [Option.map_some, Option.map_some, element?_setElement_of_ne hvalue hne]
  · intro other hother
    have hne : other ≠ it := by
      rintro rfl
      exact hother (List.mem_of_getElem? hit)
    rw [element?_setElement_of_ne hvalue hne, h.elsewhere other hother]

theorem tabulates_simulates (hnodup : locations.Nodup) (initial : Vectors α) :
    Simulates (fun s t => Tabulates locations initial s.1 t.1 ∧ s.2 = t.2)
      (locationMachine locations) (arrayMachine locations.length) := by
  apply indexMachine_simulates
  · exact fun vectors values i h => value_at h.values i
  · intro vectors values i a h
    cases hit : locations[i]? with
    | none =>
      have hle : values.length ≤ i := by
        rw [← length_eq_of_values h.values]
        exact List.getElem?_eq_none_iff.mp hit
      rw [List.set_eq_of_length_le hle]
      exact h
    | some it => exact h.set hnodup hit a

/-- On a chain built from ranges of shares, none but the last of them empty, programs see the
concatenation. Its positions may repeat, and where they do not it is one array: no answer
tells the two apart, and what the writes leave in the vectors is what they leave in the array. -/
theorem cursors_see_concatenation (assertions : Bool) (c : ℕ) (ranges : List (Range ShareIterator))
    (w : World ShareIterator) (vectors : Vectors α) (values : List α)
    (hfull : ∀ r ∈ ranges.dropLast, r.length ≠ 0)
    (hvalues : (concatenation ranges).map (element? vectors) = values.map some) :
    ∃ u first, (do construct c; pushAll assertions c ranges :
          Exec (World ShareIterator) Unit).run w = .ok () u ∧
      (chainBegin c).run u = .ok first u ∧ ∀ commands : List (Command α),
        let start : CursorState α := ⟨u, vectors, fun _ => first⟩
        let final := after (session (Command.run c)) commands start
        let located := after (locationMachine (concatenation ranges)) commands
          (vectors, fun _ => 0)
        let array := after (arrayMachine values.length) commands (values, fun _ => 0)
        transcript (session (Command.run c)) commands start =
            transcript (locationMachine (concatenation ranges)) commands (vectors, fun _ => 0) ∧
          final.world = u ∧ final.vectors = located.1 ∧
          ((concatenation ranges).Nodup →
            transcript (session (Command.run c)) commands start =
                transcript (arrayMachine values.length) commands (values, fun _ => 0) ∧
              (concatenation ranges).map (element? final.vectors) = array.1.map some ∧
              ∀ it ∉ concatenation ranges,
                element? final.vectors it = element? vectors it) := by
  obtain ⟨u, nodes, hrun, hholds, hranges⟩ := build_spec assertions c ranges w
  subst hranges
  have hnodes : Full nodes := by
    rw [← List.map_dropLast] at hfull
    exact fun node hnode => hfull node.2 (List.mem_map_of_mem hnode)
  obtain ⟨first, hfirst, hat⟩ := at_begin hholds hnodes
  refine ⟨u, first, hrun, hfirst, ?_⟩
  intro commands start final located array
  have hstart : Located u nodes start (vectors, fun _ => 0) := by
    refine ⟨rfl, rfl, fun _ => hat, fun it hit => ?_⟩
    have hmem := List.mem_map_of_mem (f := element? vectors) hit
    rw [elementsOf, hvalues] at hmem
    obtain ⟨a, -, ha⟩ := List.mem_map.mp hmem
    change (element? vectors it).isSome
    rw [← ha]
    rfl
  have hlocated := located_simulates (α := α) hholds hnodes
  have hafter := hlocated.after commands hstart
  refine ⟨hlocated.transcript commands hstart, hafter.world, hafter.vectors, fun hnodup => ?_⟩
  have hlength := length_eq_of_values hvalues
  have htabulates : Tabulates (concatenation (nodes.map (·.2))) vectors vectors values :=
    ⟨hvalues, fun _ _ => rfl⟩
  have harray := simulates_trans hlocated (tabulates_simulates hnodup vectors)
  have hinitial := (⟨_, hstart, htabulates, rfl⟩ : ∃ t, Located u nodes start t ∧
    Tabulates (elementsOf nodes) vectors t.1 values ∧ t.2 = fun _ => 0)
  obtain ⟨t, ht, htable, -⟩ := harray.after commands (t := (values, fun _ => 0)) hinitial
  simp only [array, ← hlength]
  refine ⟨harray.transcript commands hinitial, ?_, ?_⟩
  · rw [ht.vectors]
    exact htable.values
  · rw [ht.vectors]
    exact htable.elsewhere

end Arrays

section Instances

def twoVectors : Vectors ℕ
  | 0 => [10, 11, 12]
  | 1 => [20]
  | _ => []

/-- The last two shares of one vector and the share of another, which a program swaps in part. -/
theorem cursors_see_concatenation_twoVectors :
    ∃ u first, (do construct 0; pushAll true 0 [⟨⟨⟨0, 1⟩⟩, 2⟩, ⟨⟨⟨1, 0⟩⟩, 1⟩] :
          Exec (World ShareIterator) Unit).run World.init = .ok () u ∧
      (after (session (Command.run 0))
        [.write 0 7, .moveEnd 1, .decrease 1, .write 1 8, .increase 1, .write 1 9]
        ⟨u, twoVectors, fun _ => first⟩).vectors 0 = [10, 7, 12] := by
  obtain ⟨u, first, hrun, hfirst, hcursors⟩ := cursors_see_concatenation true 0
    [⟨⟨⟨0, 1⟩⟩, 2⟩, ⟨⟨⟨1, 0⟩⟩, 1⟩] World.init twoVectors [11, 12, 20] (by decide) (by decide)
  refine ⟨u, first, hrun, ?_⟩
  rw [(hcursors [.write 0 7, .moveEnd 1, .decrease 1, .write 1 8, .increase 1, .write 1 9]).2.2.1]
  rfl

end Instances

end PdkHeaders.ChainCursors
