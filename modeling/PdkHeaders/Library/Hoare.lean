import PdkHeaders.Library.Execution

set_option autoImplicit false

/-!
# Triples with two exits

`Triple pre m post halt`: from a state with `pre`, a return leaves `post`, and a stop of
either kind leaves `halt`.
-/
namespace PdkHeaders.Library.Hoare
open PdkHeaders.Library.Execution

section
variable {σ α β : Type}

/-- The state an execution leaves behind, whichever way it ends. -/
def finalState : EStateM.Result Stop σ α → σ
  | .ok _ s => s
  | .error _ s => s

def Triple (pre : σ → Prop) (m : Exec σ α) (post : α → σ → Prop) (halt : σ → Prop) : Prop :=
  ∀ s, pre s → match m.run s with
    | .ok a u => post a u
    | .error _ u => halt u

variable {pre pre' halt halt' : σ → Prop} {post post' : α → σ → Prop} {m : Exec σ α}

theorem Triple.weaken (h : Triple pre m post halt) (hpre : ∀ s, pre' s → pre s)
    (hpost : ∀ a s, post a s → post' a s) (hhalt : ∀ s, halt s → halt' s) :
    Triple pre' m post' halt' := by
  intro s hs
  have hm := h s (hpre s hs)
  cases hrun : m.run s with
  | ok a u => rw [hrun] at hm; exact hpost a u hm
  | error e u => rw [hrun] at hm; exact hhalt u hm

theorem Triple.pure {a : α} (h : ∀ s, pre s → post a s) :
    Triple pre (Pure.pure a : Exec σ α) post halt := fun s hs => h s hs

theorem Triple.fault {f : Fault} : Triple halt (fault f : Exec σ α) post halt := fun _ hs => hs

theorem Triple.bind {mid : α → σ → Prop} {result : β → σ → Prop} {f : α → Exec σ β}
    (hm : Triple pre m mid halt) (hf : ∀ a, Triple (mid a) (f a) result halt) :
    Triple pre (m >>= f) result halt := by
  intro s hs
  have hfirst := hm s hs
  cases hrun : m.run s with
  | ok a u => rw [hrun] at hfirst; rw [bind_ok hrun]; exact hf a u hfirst
  | error e u => rw [hrun] at hfirst; rw [bind_error hrun]; exact hfirst

theorem Triple.catchAll {handler : Exception → Exec σ α} (hbody : Triple pre m post halt)
    (hhandler : ∀ e, Triple halt (handler e) post halt) :
    Triple pre (catchAll m handler) post halt := by
  intro s hs
  have hm := hbody s hs
  cases hrun : m.run s with
  | ok a u => rw [hrun] at hm; rw [catchAll_ok hrun]; exact hm
  | error e u =>
    rw [hrun] at hm
    cases e with
    | throws e => rw [catchAll_throws hrun]; exact hhandler e u hm
    | faults f => rw [catchAll_faults hrun]; exact hm

theorem Triple.ite {c : Prop} [Decidable c] {m₁ m₂ : Exec σ α} (h₁ : c → Triple pre m₁ post halt)
    (h₂ : ¬ c → Triple pre m₂ post halt) : Triple pre (if c then m₁ else m₂) post halt := by
  by_cases hc : c
  · simpa only [hc, ↓reduceIte] using h₁ hc
  · simpa only [hc, ↓reduceIte] using h₂ hc

theorem Triple.assume {P : Prop} (h : P → Triple pre m post halt) :
    Triple (fun s => pre s ∧ P) m post halt := fun s hs => h hs.2 s hs.1

theorem Triple.frame {P : Prop} (h : Triple pre m post halt) :
    Triple (fun s => pre s ∧ P) m (fun a s => post a s ∧ P) halt :=
  .assume fun hP => h.weaken (fun _ => id) (fun _ _ hpost => ⟨hpost, hP⟩) fun _ => id

theorem Triple.any : Triple pre m (fun _ _ => True) (fun _ => True) := by
  intro s _
  cases m.run s <;> trivial

theorem Triple.finalState {I : σ → Prop} (h : Triple pre m (fun _ => I) I) {s : σ} (hs : pre s) :
    I (finalState (m.run s)) := by
  have hm := h s hs
  cases hrun : m.run s with
  | ok a u => rw [hrun] at hm; exact hm
  | error e u => rw [hrun] at hm; exact hm

/-- An execution that only reads. -/
def ReadOnly (m : Exec σ α) : Prop := ∀ s, Hoare.finalState (m.run s) = s

theorem ReadOnly.triple (h : ReadOnly m) (I : σ → Prop) : Triple I m (fun _ => I) I := by
  intro s hs
  have hm := h s
  cases hrun : m.run s with
  | ok a u => rw [hrun] at hm; change u = s at hm; rwa [hm]
  | error e u => rw [hrun] at hm; change u = s at hm; rwa [hm]

theorem ReadOnly.pure (a : α) : ReadOnly (Pure.pure a : Exec σ α) := fun _ => rfl

theorem ReadOnly.fault (f : Fault) : ReadOnly (Execution.fault f : Exec σ α) := fun _ => rfl

theorem ReadOnly.bind {f : α → Exec σ β} (hm : ReadOnly m) (hf : ∀ a, ReadOnly (f a)) :
    ReadOnly (m >>= f) := by
  intro s
  have hfirst := hm s
  cases hrun : m.run s with
  | ok a u =>
    rw [hrun] at hfirst
    rw [bind_ok hrun, hf a u]
    exact hfirst
  | error e u =>
    rw [hrun] at hfirst
    rw [bind_error hrun]
    exact hfirst

theorem ReadOnly.ite {c : Prop} [Decidable c] {m₁ m₂ : Exec σ α} (h₁ : ReadOnly m₁)
    (h₂ : ReadOnly m₂) : ReadOnly (if c then m₁ else m₂) := by
  by_cases hc : c
  · simpa only [hc, ↓reduceIte] using h₁
  · simpa only [hc, ↓reduceIte] using h₂

theorem ReadOnly.assert (assertions condition : Bool) :
    ReadOnly (Execution.assert assertions condition : Exec σ Unit) :=
  .ite (.fault _) (.pure _)

end

section Faults
variable {σ α β : Type}

/-- The only faults are those that `P` says of the fault and of the state it leaves. -/
def FaultsOnly (P : Fault → σ → Prop) (m : Exec σ α) : Prop :=
  ∀ s f u, m.run s = .error (.faults f) u → P f u

variable {P : Fault → σ → Prop} {m : Exec σ α}

theorem FaultsOnly.returns (h : ∀ s, ∃ a u, m.run s = .ok a u) : FaultsOnly P m := by
  intro s f u hrun
  obtain ⟨a, v, hok⟩ := h s
  rw [hok] at hrun
  cases hrun

theorem FaultsOnly.pure (a : α) : FaultsOnly P (Pure.pure a : Exec σ α) :=
  .returns fun s => ⟨a, s, rfl⟩

/-- The continuation is looked at only where the first execution can return. -/
theorem FaultsOnly.bind {g : α → Exec σ β} (hm : FaultsOnly P m)
    (hg : ∀ a, (∃ s u, m.run s = .ok a u) → FaultsOnly P (g a)) : FaultsOnly P (m >>= g) := by
  intro s f u hrun
  cases hfirst : m.run s with
  | ok a v =>
    rw [bind_ok hfirst] at hrun
    exact hg a ⟨s, v, hfirst⟩ v f u hrun
  | error e v =>
    rw [bind_error hfirst] at hrun
    cases hrun
    exact hm s f u hfirst

theorem FaultsOnly.catchAll {handler : Exception → Exec σ α} (hm : FaultsOnly P m)
    (hhandler : ∀ e, FaultsOnly P (handler e)) : FaultsOnly P (catchAll m handler) := by
  intro s f u hrun
  cases hbody : m.run s with
  | ok a v =>
    rw [catchAll_ok hbody] at hrun
    cases hrun
  | error e v =>
    cases e with
    | throws e =>
      rw [catchAll_throws hbody] at hrun
      exact hhandler e v f u hrun
    | faults f' =>
      rw [catchAll_faults hbody] at hrun
      cases hrun
      exact hm s f u hbody

theorem FaultsOnly.ite {c : Prop} [Decidable c] {m₁ m₂ : Exec σ α} (h₁ : c → FaultsOnly P m₁)
    (h₂ : ¬ c → FaultsOnly P m₂) : FaultsOnly P (if c then m₁ else m₂) := by
  by_cases hc : c
  · simpa only [hc, ↓reduceIte] using h₁ hc
  · simpa only [hc, ↓reduceIte] using h₂ hc

end Faults

section Comparison
variable {σ α β : Type}

/-- The execution ends alike from two states, and leaves both as they are. -/
def ReadsAlike (w u : σ) (m : Exec σ α) : Prop :=
  (∃ a, m.run w = .ok a w ∧ m.run u = .ok a u) ∨
    ∃ e, m.run w = .error e w ∧ m.run u = .error e u

variable {w u : σ} {m : Exec σ α} {a : α} {e : Stop}

theorem ReadsAlike.pure (a : α) : ReadsAlike w u (Pure.pure a : Exec σ α) := .inl ⟨a, rfl, rfl⟩

theorem ReadsAlike.fault (f : Fault) : ReadsAlike w u (Execution.fault f : Exec σ α) :=
  .inr ⟨_, rfl, rfl⟩

theorem ReadsAlike.bind {f : α → Exec σ β} (hm : ReadsAlike w u m)
    (hf : ∀ a, ReadsAlike w u (f a)) : ReadsAlike w u (m >>= f) := by
  rcases hm with ⟨a, hw, hu⟩ | ⟨e, hw, hu⟩
  · unfold ReadsAlike
    rw [bind_ok hw, bind_ok hu]
    exact hf a
  · exact .inr ⟨e, bind_error hw, bind_error hu⟩

theorem ReadsAlike.ite {c : Prop} [Decidable c] {m₁ m₂ : Exec σ α} (h₁ : ReadsAlike w u m₁)
    (h₂ : ReadsAlike w u m₂) : ReadsAlike w u (if c then m₁ else m₂) := by
  by_cases hc : c
  · simpa only [hc, ↓reduceIte] using h₁
  · simpa only [hc, ↓reduceIte] using h₂

theorem ReadsAlike.ok (h : ReadsAlike w u m) (hrun : m.run u = .ok a u) : m.run w = .ok a w := by
  rcases h with ⟨b, hw, hu⟩ | ⟨e, -, hu⟩
  · rw [hrun] at hu
    cases hu
    exact hw
  · rw [hrun] at hu
    cases hu

theorem ReadsAlike.error (h : ReadsAlike w u m) (hrun : m.run u = .error e u) :
    m.run w = .error e w := by
  rcases h with ⟨b, -, hu⟩ | ⟨e, hw, hu⟩
  · rw [hrun] at hu
    cases hu
  · rw [hrun] at hu
    cases hu
    exact hw

end Comparison

section Recorder
variable {σ ε α : Type}

/-- Run `m`, noting `event` with the state it starts in. -/
def record (event : ε) (m : Exec σ α) : Exec (σ × List (ε × σ)) α := fun t =>
  match m.run t.1 with
  | .ok a u => .ok a (u, t.2 ++ [(event, t.1)])
  | .error e u => .error e (u, t.2 ++ [(event, t.1)])

theorem record_ok {event : ε} {m : Exec σ α} {s u : σ} {a : α} (log : List (ε × σ))
    (h : m.run s = .ok a u) : (record event m).run (s, log) = .ok a (u, log ++ [(event, s)]) := by
  simp only [record, EStateM.run] at h ⊢
  simp only [h]

theorem record_error {event : ε} {m : Exec σ α} {s u : σ} {e : Stop} (log : List (ε × σ))
    (h : m.run s = .error e u) :
    (record event m).run (s, log) = .error e (u, log ++ [(event, s)]) := by
  simp only [record, EStateM.run] at h ⊢
  simp only [h]

/-- A recorded execution keeps an invariant of the state, and its entry is good. -/
theorem record_triple {I : σ → Prop} {good : ε × σ → Prop} {pre : σ → Prop} {event : ε}
    {m : Exec σ α} {post : α → σ → Prop} (hm : Triple pre m post I)
    (hevent : ∀ s, pre s → good (event, s)) :
    Triple (fun t => pre t.1 ∧ ∀ entry ∈ t.2, good entry) (record event m)
      (fun a t => post a t.1 ∧ ∀ entry ∈ t.2, good entry)
      (fun t => I t.1 ∧ ∀ entry ∈ t.2, good entry) := by
  rintro ⟨s, log⟩ ⟨hs, hlog⟩
  have hlog' : ∀ entry ∈ log ++ [(event, s)], good entry := by
    intro entry hentry
    rcases List.mem_append.mp hentry with hold | hnew
    · exact hlog entry hold
    · rw [List.mem_singleton.mp hnew]
      exact hevent s hs
  have hfirst := hm s hs
  cases hrun : m.run s with
  | ok a u => rw [hrun] at hfirst; rw [record_ok log hrun]; exact ⟨hfirst, hlog'⟩
  | error e u => rw [hrun] at hfirst; rw [record_error log hrun]; exact ⟨hfirst, hlog'⟩

theorem record_keeps {event : ε} {m : Exec σ α} (entry : ε × σ) :
    Triple (fun t => entry ∈ t.2) (record event m) (fun _ t => entry ∈ t.2)
      (fun t => entry ∈ t.2) := by
  rintro ⟨s, log⟩ hentry
  have hkept : entry ∈ log ++ [(event, s)] := List.mem_append_left _ hentry
  cases hrun : m.run s with
  | ok a u => rw [record_ok log hrun]; exact hkept
  | error e u => rw [record_error log hrun]; exact hkept

theorem record_notes {event : ε} {m : Exec σ α} (s : σ) :
    Triple (fun t => t.1 = s) (record event m) (fun _ t => (event, s) ∈ t.2)
      (fun t => (event, s) ∈ t.2) := by
  rintro ⟨s, log⟩ rfl
  have hnoted : (event, s) ∈ log ++ [(event, s)] := by simp
  cases hrun : m.run s with
  | ok a u => rw [record_ok log hrun]; exact hnoted
  | error e u => rw [record_error log hrun]; exact hnoted

end Recorder

end PdkHeaders.Library.Hoare
