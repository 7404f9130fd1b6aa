import PdkHeaders.Library.Tracing

set_option autoImplicit false

/-!
# Conversations

A program asks one callback after another and goes on only while it is told yes. The log of the
replies says how far it came, and the last of them how it ended.
-/
namespace PdkHeaders.Library.Conversations
open PdkHeaders.Library.Execution PdkHeaders.Library.Tracing

/-- Whether to go on, or what stopped the callback. -/
abbrev Reply := Except Stop Bool

section
variable {σ ε α β : Type}

def asked (event : ε) (yes : β → Bool) (m : Exec σ β) : Traced σ (ε × Reply) β := fun t =>
  match m.run t.1 with
  | .ok b u => .ok b (u, t.2 ++ [(event, .ok (yes b))])
  | .error stop u => .error stop (u, t.2 ++ [(event, .error stop)])

/-- The events of the script in their order, up to the first one that is not told yes. -/
inductive Follows : List ε → List (ε × Reply) → Prop where
  | finished : Follows [] []
  | proceeds (event : ε) {script : List ε} {replies : List (ε × Reply)} :
    Follows script replies → Follows (event :: script) ((event, .ok true) :: replies)
  | ends (event : ε) (script : List ε) {reply : Reply} :
    reply ≠ .ok true → Follows (event :: script) [(event, reply)]

/-- What the replies lead to: a refusal, what stopped a callback, or consent. -/
def verdict (refusal : ε → α) (consent : α) : List (ε × Reply) → Except Stop α
  | [] => .ok consent
  | (_, .ok true) :: replies => verdict refusal consent replies
  | (event, .ok false) :: _ => .ok (refusal event)
  | (_, .error stop) :: _ => .error stop

def concluded : Except Stop α → σ → EStateM.Result Stop σ α
  | .ok a, u => .ok a u
  | .error stop, u => .error stop u

variable {refusal : ε → α} {consent : α} {script : List ε}

/-- With and without the log, a program ends as its replies say. -/
def Converses (refusal : ε → α) (consent : α) (script : List ε)
    (traced : Traced σ (ε × Reply) α) (m : Exec σ α) : Prop :=
  ∀ s log, ∃ replies u, Follows script replies ∧
    m.run s = concluded (verdict refusal consent replies) u ∧
    traced.run (s, log) = concluded (verdict refusal consent replies) (u, log ++ replies)

theorem Converses.done :
    Converses refusal consent [] (pure consent : Traced σ (ε × Reply) α) (pure consent) := by
  intro s log
  refine ⟨[], s, .finished, rfl, ?_⟩
  rw [List.append_nil]
  rfl

theorem asked_ok {event : ε} {yes : β → Bool} {m : Exec σ β} {s u : σ} {b : β}
    (h : m.run s = .ok b u) (log : List (ε × Reply)) :
    (asked event yes m).run (s, log) = .ok b (u, log ++ [(event, .ok (yes b))]) := by
  simp only [asked, EStateM.run] at h ⊢
  simp only [h]

theorem asked_error {event : ε} {yes : β → Bool} {m : Exec σ β} {s u : σ} {stop : Stop}
    (h : m.run s = .error stop u) (log : List (ε × Reply)) :
    (asked event yes m).run (s, log) = .error stop (u, log ++ [(event, .error stop)]) := by
  simp only [asked, EStateM.run] at h ⊢
  simp only [h]

theorem Converses.ask {event : ε} {yes : β → Bool} {m : Exec σ β}
    {rest' : β → Traced σ (ε × Reply) α} {rest : β → Exec σ α}
    (hyes : ∀ b, yes b = true → Converses refusal consent script (rest' b) (rest b))
    (hno : ∀ b, yes b = false →
      rest' b = pure (refusal event) ∧ rest b = pure (refusal event)) :
    Converses refusal consent (event :: script) (asked event yes m >>= rest') (m >>= rest) := by
  intro s log
  cases hrun : m.run s with
  | error stop u =>
    refine ⟨[(event, .error stop)], u, .ends event script (fun h => nomatch h), ?_, ?_⟩
    · rw [bind_error hrun]
      rfl
    · rw [bind_error (asked_error hrun log)]
      rfl
  | ok b u =>
    rw [bind_ok hrun, bind_ok (asked_ok hrun log)]
    cases hb : yes b with
    | true =>
      obtain ⟨replies, v, hfollows, hplain, htraced⟩ :=
        hyes b hb u (log ++ [(event, .ok true)])
      refine ⟨(event, .ok true) :: replies, v, .proceeds event hfollows, hplain, ?_⟩
      rw [htraced, List.append_assoc, List.singleton_append]
      rfl
    | false =>
      obtain ⟨htraced, hplain⟩ := hno b hb
      refine ⟨[(event, .ok false)], u, .ends event script (fun h => nomatch h), ?_, ?_⟩
      · rw [hplain]
        rfl
      · rw [htraced]
        rfl

end
end PdkHeaders.Library.Conversations
