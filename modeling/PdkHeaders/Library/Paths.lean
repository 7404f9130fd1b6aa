import Mathlib.Data.List.Nodup
import Mathlib.Data.List.Perm.Subperm
import Mathlib.Tactic.Common

set_option autoImplicit false

/-!
# Paths along a link

A path follows one link from cell to cell and lists the cells it meets with their contents.
Paths to the same end from the same start are equal, so a path to null meets no cell twice.
-/
namespace PdkHeaders.Library.Paths

section
variable {α : Type}

def Path (cell : ℕ → Option α) (link : α → Option ℕ) : Option ℕ → List (ℕ × α) → Option ℕ → Prop
  | start, [], stop => start = stop
  | start, (n, a) :: rest, stop =>
    start = some n ∧ cell n = some a ∧ Path cell link (link a) rest stop

def addresses (items : List (ℕ × α)) : List ℕ := items.map (·.1)

variable {cell cell' : ℕ → Option α} {link : α → Option ℕ} {start mid stop : Option ℕ}
  {items items' : List (ℕ × α)} {n : ℕ} {a : α}

@[simp] theorem addresses_nil : addresses ([] : List (ℕ × α)) = [] := rfl
@[simp] theorem addresses_cons : addresses ((n, a) :: items) = n :: addresses items := rfl
@[simp] theorem addresses_append :
    addresses (items ++ items') = addresses items ++ addresses items' := List.map_append

theorem Path.append (h : Path cell link start items mid) (h' : Path cell link mid items' stop) :
    Path cell link start (items ++ items') stop := by
  induction items generalizing start with
  | nil =>
    change start = mid at h
    rw [h]
    exact h'
  | cons item items ih => exact ⟨h.1, h.2.1, ih h.2.2⟩

theorem Path.split (h : Path cell link start (items ++ items') stop) :
    ∃ mid, Path cell link start items mid ∧ Path cell link mid items' stop := by
  induction items generalizing start with
  | nil => exact ⟨start, rfl, h⟩
  | cons item items ih =>
    obtain ⟨mid, hfirst, hrest⟩ := ih h.2.2
    exact ⟨mid, ⟨h.1, h.2.1, hfirst⟩, hrest⟩

theorem Path.cell_eq (h : Path cell link start items stop) (hmem : (n, a) ∈ items) :
    cell n = some a := by
  induction items generalizing start with
  | nil => cases hmem
  | cons item items ih =>
    rcases List.mem_cons.mp hmem with hhead | htail
    · rw [← hhead] at h
      exact h.2.1
    · exact ih h.2.2 htail

theorem Path.cell_of_address (h : Path cell link start items stop) (hmem : n ∈ addresses items) :
    ∃ a, cell n = some a ∧ (n, a) ∈ items := by
  obtain ⟨⟨n, a⟩, hitem, rfl⟩ := List.mem_map.mp hmem
  exact ⟨a, h.cell_eq hitem, hitem⟩

theorem Path.frame (h : Path cell link start items stop)
    (hsame : ∀ n ∈ addresses items, cell' n = cell n) : Path cell' link start items stop := by
  induction items generalizing start with
  | nil => exact h
  | cons item items ih =>
    refine ⟨h.1, (hsame item.1 List.mem_cons_self).trans h.2.1, ih h.2.2 ?_⟩
    exact fun n hn => hsame n (List.mem_cons_of_mem _ hn)

/-- A change to all cells that keeps the links keeps the path. -/
theorem Path.map {f : ℕ → α → α} (h : Path cell link start items stop)
    (hf : ∀ n a, link (f n a) = link a) :
    Path (fun n => (cell n).map (f n)) link start
      (items.map fun item => (item.1, f item.1 item.2)) stop := by
  induction items generalizing start with
  | nil => exact h
  | cons item items ih =>
    obtain ⟨hstart, hcell, hrest⟩ := h
    refine ⟨hstart, ?_, ?_⟩
    · simp only [hcell, Option.map_some]
    · rw [hf]
      exact ih hrest

theorem Path.unique (h : Path cell link start items none)
    (h' : Path cell link start items' none) : items = items' := by
  induction items generalizing start items' with
  | nil =>
    cases items' with
    | nil => rfl
    | cons item items' => cases h.symm.trans h'.1
  | cons item items ih =>
    cases items' with
    | nil => cases h'.symm.trans h.1
    | cons item' items' =>
      obtain ⟨n, a⟩ := item
      obtain ⟨n', a'⟩ := item'
      have hn : n = n' := Option.some.inj (h.1.symm.trans h'.1)
      subst hn
      have ha : a = a' := Option.some.inj (h.2.1.symm.trans h'.2.1)
      subst ha
      rw [ih h.2.2 h'.2.2]

theorem Path.nodup (h : Path cell link start items none) : (addresses items).Nodup := by
  induction items generalizing start with
  | nil => exact .nil
  | cons item items ih =>
    obtain ⟨n, a⟩ := item
    refine List.nodup_cons.mpr ⟨fun hmem => ?_, ih h.2.2⟩
    -- a second visit would have to continue like the first
    obtain ⟨b, hb, hitem⟩ := h.2.2.cell_of_address hmem
    obtain ⟨before, after, hsplit⟩ := List.append_of_mem hitem
    have hrest := h.2.2
    rw [hsplit] at hrest
    obtain ⟨mid, -, hlate⟩ := hrest.split
    have hmid : mid = start := hlate.1.trans h.1.symm
    subst hmid
    have heq := congrArg List.length (h.unique hlate)
    rw [hsplit] at heq
    simp only [List.length_cons, List.length_append] at heq
    omega

theorem Path.length_le (h : Path cell link start items none) {bound : ℕ}
    (hbound : ∀ n a, cell n = some a → n < bound) : items.length ≤ bound := by
  have hsubset : addresses items ⊆ List.range bound := by
    intro n hn
    obtain ⟨a, ha, -⟩ := h.cell_of_address hn
    exact List.mem_range.mpr (hbound n a ha)
  have hlength := (List.subperm_of_subset h.nodup hsubset).length_le
  simpa only [addresses, List.length_map, List.length_range] using hlength

/-- The addresses that the link leads to. -/
inductive Reach (cell : ℕ → Option α) (link : α → Option ℕ) : Option ℕ → ℕ → Prop where
  | here (n : ℕ) : Reach cell link (some n) n
  | next {n m : ℕ} {a : α} (ha : cell n = some a) (h : Reach cell link (link a) m) :
    Reach cell link (some n) m

/-- A path to null meets all that can be reached. -/
theorem Path.reach_iff (h : Path cell link start items none) :
    Reach cell link start n ↔ n ∈ addresses items := by
  induction items generalizing start with
  | nil =>
    have hstart : start = none := h
    subst hstart
    constructor
    · intro hreach
      cases hreach
    · intro hmem
      cases hmem
  | cons item items ih =>
    obtain ⟨m, a⟩ := item
    obtain ⟨rfl, ha, hrest⟩ := h
    rw [addresses_cons, List.mem_cons, ← ih hrest]
    constructor
    · intro hreach
      cases hreach with
      | here => exact .inl rfl
      | next hb hreach =>
        have hab := Option.some.inj (ha.symm.trans hb)
        exact .inr (hab ▸ hreach)
    · intro hcases
      rcases hcases with rfl | hreach
      · exact .here n
      · exact .next ha hreach

theorem Path.start_of_cons {item : ℕ × α} (h : Path cell link start (item :: items) stop) :
    start = some item.1 := h.1

theorem Path.start_eq (h : Path cell link start items none) :
    start = (addresses items).head? := by
  cases items with
  | nil => exact h
  | cons item items => exact h.1

/-- On a path to null, a link leads from one item to another exactly when they are neighbours. -/
theorem Path.link_iff (h : Path cell link start items none) {m : ℕ} {b : α}
    (ha : (n, a) ∈ items) (hb : (m, b) ∈ items) :
    link a = some m ↔ ∃ before after, items = before ++ (n, a) :: (m, b) :: after := by
  constructor
  · intro hlink
    obtain ⟨before, after, hsplit⟩ := List.append_of_mem ha
    have hpath := h
    rw [hsplit] at hpath
    obtain ⟨mid, -, -, -, hrest⟩ := hpath.split
    rw [hlink] at hrest
    cases after with
    | nil => cases hrest
    | cons item after =>
      obtain ⟨m', b'⟩ := item
      have hm : m = m' := Option.some.inj hrest.1
      subst hm
      have hcell := h.cell_eq hb
      rw [hrest.2.1] at hcell
      cases hcell
      exact ⟨before, after, hsplit⟩
  · intro hneighbours
    obtain ⟨before, after, hsplit⟩ := hneighbours
    rw [hsplit] at h
    obtain ⟨mid, -, -, -, hrest⟩ := h.split
    exact hrest.1

/-- Two links that visit the same items in opposite orders are inverse to each other. -/
theorem Path.inverse {link' : α → Option ℕ} {start' : Option ℕ}
    (h : Path cell link start items none) (h' : Path cell link' start' items.reverse none) {m : ℕ}
    {b : α} (ha : (n, a) ∈ items) (hb : (m, b) ∈ items) :
    link a = some m ↔ link' b = some n := by
  rw [h.link_iff ha hb, h'.link_iff (List.mem_reverse.mpr hb) (List.mem_reverse.mpr ha)]
  constructor
  · rintro ⟨before, after, hsplit⟩
    exact ⟨after.reverse, before.reverse, by simp [hsplit]⟩
  · rintro ⟨before, after, hsplit⟩
    have hreverse := congrArg List.reverse hsplit
    rw [List.reverse_reverse] at hreverse
    exact ⟨after.reverse, before.reverse, by simp [hreverse]⟩

end
end PdkHeaders.Library.Paths
