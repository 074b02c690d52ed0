import ClauseDiscovery.Proofs.Memo.Batch

/-! What a cache that asks in batches answers. A verdict that it gives is the oracle's, from the
one successful call about the formula, and is given again at any later time without a call; a
query gives a verdict, fails or panics exactly when its own call of the oracle does. -/
namespace ClauseDiscovery
namespace BatchCache

/-- However the cache is used from now on, the verdict is in the table, a query gives it, and
asks nothing. -/
def Remembers (c : BatchCache) (φ : Formula) (v : Bool) : Prop :=
  ∀ later, (c.run later).cached? φ = some v ∧ ((c.run later).query φ).1 = .ok v ∧
    ((c.run later).query φ).2.exchanges = (c.run later).exchanges

/-- What the answers of a cache are worth. -/
structure Truthful (p : Problem) (o : Oracle) (c : BatchCache) : Prop where
  cached : ∀ φ v, c.cached? φ = some v → IsVerdict p o c.exchanges φ v ∧ c.Remembers φ v
  known : ∀ φ v, IsVerdict p o c.exchanges φ v → c.cached? φ = some v
  query : ∀ φ v, (c.query φ).1 = .ok v →
    IsVerdict p o (c.query φ).2.exchanges φ v ∧ (c.query φ).2.Remembers φ v
  submitted : ∀ φ ψ, (c.query φ).1 ≠ .error (.failed (.notSubmitted ψ))
  asks : ∀ φ, c.cached? φ = none → (c.query φ).2.exchanges = c.exchanges ++
    [⟨c.batchWith φ,
      (o.answer p c.exchanges.length (c.batchWith φ)).checked (c.batchWith φ).length⟩]
  answered_iff : ∀ φ, (∃ v, (c.query φ).1 = .ok v) ↔ (∃ v, c.cached? φ = some v) ∨
    c.cached? φ = none ∧ ∃ vs, o.answer p c.exchanges.length (c.batchWith φ) = .verdicts vs ∧
      vs.length = (c.batchWith φ).length
  failed_iff : ∀ φ, (∃ e, (c.query φ).1 = .error (.failed e)) ↔ c.cached? φ = none ∧
    ((∃ e, o.answer p c.exchanges.length (c.batchWith φ) = .failed e) ∨
      ∃ vs, o.answer p c.exchanges.length (c.batchWith φ) = .verdicts vs ∧
        vs.length ≠ (c.batchWith φ).length)
  panicked_iff : ∀ φ q, (c.query φ).1 = .error (.panicked q) ↔
    c.cached? φ = none ∧ o.answer p c.exchanges.length (c.batchWith φ) = .panicked q

variable {p : Problem} {o : Oracle} {asked : List Formula} {c : BatchCache} {φ ψ : Formula}
  {v : Bool}

namespace Consistent

theorem cached?_eq_some_iff (h : Consistent p o asked c) :
    c.cached? φ = some v ↔ (φ,v) ∈ decidedBy c.exchanges := h.table_eq φ v

theorem isVerdict (h : Consistent p o asked c) (hφ : c.cached? φ = some v) :
    IsVerdict p o c.exchanges φ v :=
  h.recorded.isVerdict (List.nodup_append.mp h.nodup).1 (h.cached?_eq_some_iff.mp hφ)

theorem ask_awaiting (h : Consistent p o asked c) (hφ : c.cached? φ = none) :
    (c.awaiting φ).ask.1 =
      (o.answer p c.exchanges.length (c.batchWith φ)).checked (c.batchWith φ).length := by
  obtain ⟨ha,hpend,hex⟩ := h.awaiting hφ
  rw [← hpend,← hex,← ha.problem_eq,← ha.oracle_eq]
  rfl

theorem exchanges_query (h : Consistent p o asked c) (hφ : c.cached? φ = none) :
    (c.query φ).2.exchanges = c.exchanges ++ [⟨c.batchWith φ,(c.awaiting φ).ask.1⟩] := by
  obtain ⟨-,hpend,hex⟩ := h.awaiting hφ
  have hask : (c.awaiting φ).ask.2.exchanges =
      c.exchanges ++ [⟨c.batchWith φ,(c.awaiting φ).ask.1⟩] := by
    rw [exchanges_ask,hpend,hex]
  rcases h.query_cases φ with ⟨v,hv,-⟩ | ⟨-,⟨vs,v,-,-,hq⟩ | ⟨e,-,hq⟩ | ⟨q,-,hq⟩⟩
  · rw [hφ] at hv
    cases hv
  all_goals
    rw [hq]
    exact hask

theorem exchanges_prefix_after (h : Consistent p o asked c) (op : Operation) :
    c.exchanges <+: (c.after op).exchanges := by
  cases op with
  | submit φ =>
    simp only [BatchCache.after,BatchCache.submit]
    split <;> exact List.prefix_rfl
  | query φ =>
    cases hφ : c.cached? φ with
    | some v =>
      simp only [BatchCache.after,query_of_cached hφ]
      exact List.prefix_rfl
    | none =>
      rw [BatchCache.after,h.exchanges_query hφ]
      exact List.prefix_append _ _
  | flush =>
    rcases c.flush_cases with ⟨-,hf⟩ | ⟨-,⟨vs,-,hf⟩ | ⟨e,-,hf⟩ | ⟨q,-,hf⟩⟩
    · simp only [BatchCache.after,hf,List.prefix_rfl]
    all_goals
      simp only [BatchCache.after,hf]
      exact List.prefix_append _ _

theorem exchanges_prefix_run (h : Consistent p o asked c) (ops : List Operation) :
    c.exchanges <+: (c.run ops).exchanges := by
  induction ops generalizing asked c with
  | nil => exact List.prefix_rfl
  | cons op ops ih => exact (h.exchanges_prefix_after op).trans (ih (h.after op))

/-- A verdict in the table stays there. -/
theorem remembers (h : Consistent p o asked c) (hφ : c.cached? φ = some v) :
    c.Remembers φ v := by
  intro later
  obtain ⟨es,hes⟩ := h.exchanges_prefix_run later
  have hlater : (c.run later).cached? φ = some v := by
    rw [(h.run later).cached?_eq_some_iff,← hes,decidedBy_append]
    exact List.mem_append_left _ (h.cached?_eq_some_iff.mp hφ)
  rw [query_of_cached hlater]
  exact ⟨hlater,rfl,rfl⟩

theorem cached?_of_query (h : Consistent p o asked c) (hq : (c.query φ).1 = .ok v) :
    (c.query φ).2.cached? φ = some v := by
  rcases h.query_cases φ with ⟨w,hw,hc⟩ | ⟨-,⟨vs,w,-,hw,hc⟩ | ⟨e,-,hc⟩ | ⟨q,-,hc⟩⟩
  · rw [hc] at hq ⊢
    cases hq
    exact hw
  · rw [hc] at hq ⊢
    cases hq
    exact hw
  all_goals
    rw [hc] at hq
    cases hq

theorem query_ne_notSubmitted (h : Consistent p o asked c) (φ ψ : Formula) :
    (c.query φ).1 ≠ .error (.failed (.notSubmitted ψ)) := by
  rcases h.query_cases φ with ⟨v,-,hc⟩ | ⟨-,⟨vs,v,-,-,hc⟩ | ⟨e,-,hc⟩ | ⟨q,-,hc⟩⟩ <;>
    simp [hc]

theorem query_answered_iff (h : Consistent p o asked c) : (∃ v, (c.query φ).1 = .ok v) ↔
    (∃ v, c.cached? φ = some v) ∨
      c.cached? φ = none ∧ ∃ vs, (c.awaiting φ).ask.1 = .verdicts vs := by
  rcases h.query_cases φ with ⟨v,hv,hc⟩ | ⟨hn,⟨vs,v,hr,-,hc⟩ | ⟨e,hr,hc⟩ | ⟨q,hr,hc⟩⟩
  · simp [hc,hv]
  · simp [hc,hn,hr]
  · simp [hc,hn,hr]
  · simp [hc,hn,hr]

theorem query_failed_iff (h : Consistent p o asked c) :
    (∃ e, (c.query φ).1 = .error (.failed e)) ↔
      c.cached? φ = none ∧ ∃ e, (c.awaiting φ).ask.1 = .failed e := by
  rcases h.query_cases φ with ⟨v,hv,hc⟩ | ⟨hn,⟨vs,v,hr,-,hc⟩ | ⟨e,hr,hc⟩ | ⟨q,hr,hc⟩⟩
  · simp [hc,hv]
  · simp [hc,hr]
  · simp [hc,hn,hr]
  · simp [hc,hr]

theorem query_panicked_iff (h : Consistent p o asked c) {q : PanicPayload} :
    (c.query φ).1 = .error (.panicked q) ↔
      c.cached? φ = none ∧ (c.awaiting φ).ask.1 = .panicked q := by
  rcases h.query_cases φ with ⟨v,hv,hc⟩ | ⟨hn,⟨vs,v,hr,-,hc⟩ | ⟨e,hr,hc⟩ | ⟨r,hr,hc⟩⟩
  · simp [hc,hv]
  · simp [hc,hr]
  · simp [hc,hr]
  · simp [hc,hn,hr]

end Consistent

/-- Over every run and for every oracle, the answers are the oracle's. -/
theorem truthful_run (p : Problem) (o : Oracle) (ops : List Operation) :
    Truthful p o ((ofProblem p o).run ops) := by
  have h := consistent_run p o ops
  refine ⟨fun φ v hv => ⟨h.isVerdict hv,h.remembers hv⟩,
    fun φ v hv => h.cached?_eq_some_iff.mpr hv.mem_decidedBy,?_,h.query_ne_notSubmitted,?_,?_,?_,?_⟩
  · intro φ v hq
    have hv := h.cached?_of_query hq
    exact ⟨(h.query φ).isVerdict hv,(h.query φ).remembers hv⟩
  · intro φ hφ
    rw [← h.ask_awaiting hφ]
    exact h.exchanges_query hφ
  · intro φ
    rw [h.query_answered_iff]
    refine or_congr_right (and_congr_right fun hφ => ?_)
    rw [h.ask_awaiting hφ]
    simp only [Reply.checked_eq_verdicts_iff]
  · intro φ
    rw [h.query_failed_iff]
    refine and_congr_right fun hφ => ?_
    rw [h.ask_awaiting hφ]
    simp only [Reply.checked_eq_failed_iff]
    constructor
    · rintro ⟨e,he | ⟨vs,hvs,hlen,-⟩⟩
      · exact Or.inl ⟨e,he⟩
      · exact Or.inr ⟨vs,hvs,hlen⟩
    · rintro (⟨e,he⟩ | ⟨vs,hvs,hlen⟩)
      · exact ⟨e,Or.inl he⟩
      · exact ⟨_,Or.inr ⟨vs,hvs,hlen,rfl⟩⟩
  · intro φ q
    rw [h.query_panicked_iff]
    refine and_congr_right fun hφ => ?_
    rw [h.ask_awaiting hφ,Reply.checked_eq_panicked_iff]

end BatchCache
end ClauseDiscovery
