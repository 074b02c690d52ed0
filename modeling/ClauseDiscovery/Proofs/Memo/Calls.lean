import ClauseDiscovery.Proofs.Memo.Shared

/-! What the calls of a shared cache come to. A query is followed from its beginning through a
run of any length: unless it finds that its formula has not been submitted, it is answered by the
one call about its formula. -/
namespace ClauseDiscovery

/-- What a query has to answer where the oracle comes to the reply on the formula alone. -/
def answerDue : Reply → Except ValidityError Bool
  | .verdicts [v] => .ok v
  | .verdicts vs => .error (.oracle (.verdictCount 1 vs.length))
  | .failed e => .error (.oracle e)
  | .panicked q => .error (.oracle (.panicked q.message))

/-- The answer to a query about the formula is the one due to the call about it, and that call is
on record. -/
def IsAnswer (p : Problem) (o : Oracle) (es : List Exchange) (φ : Formula)
    (a : Except ValidityError Bool) : Prop :=
  ∃ n, es[n]? = some ⟨[φ],(o.answer p n [φ]).checked 1⟩ ∧ a = answerDue (o.answer p n [φ])

section Answers

variable {p : Problem} {o : Oracle} {es : List Exchange} {φ ψ : Formula} {r : Reply}
  {y : Outcome Verdict} {a b : Except ValidityError Bool}

theorem answerOf_outcome (r : Reply) : answerOf (r.checked 1).outcome = answerDue r := by
  cases r with
  | verdicts vs =>
    match vs with
    | [] => rfl
    | [v] => rfl
    | v :: w :: ws => simp [Reply.checked,Reply.outcome,answerOf,answerDue]
  | failed e => rfl
  | panicked q => rfl

theorem answerOf_ne_notSubmitted : answerOf y ≠ .error (.notSubmitted φ) := by
  unfold answerOf
  split <;> simp

theorem Reply.outcome_ne_abandoned : r.outcome ≠ .error .abandoned := by
  unfold outcome
  split <;> simp

/-- Only the oracle itself can fail with the text of an abandoned check. -/
theorem eq_failed_of_answerDue (h : answerDue r = answerOf (.error .abandoned)) :
    r = .failed (.invocation "validity check was dropped before it ran") := by
  unfold answerDue at h
  split at h <;> simp_all [answerOf]

theorem isAnswer_of_mem (h : Recorded p o es) (hr : ⟨[φ],r⟩ ∈ es) :
    IsAnswer p o es φ (answerOf r.outcome) := by
  obtain ⟨n,hn⟩ := List.getElem?_of_mem hr
  have hrec : r = (o.answer p n [φ]).checked 1 := h n _ hn
  exact ⟨n,hrec ▸ hn,by rw [hrec,answerOf_outcome]⟩

theorem IsAnswer.unique (h : (es.map (·.formulas)).Nodup) (ha : IsAnswer p o es φ a)
    (hb : IsAnswer p o es φ b) : a = b := by
  obtain ⟨m,hm,rfl⟩ := ha
  obtain ⟨n,hn,rfl⟩ := hb
  have hm' : (es.map (·.formulas))[m]? = some [φ] := by simp [hm]
  have hn' : (es.map (·.formulas))[n]? = some [φ] := by simp [hn]
  obtain ⟨hlt,-⟩ := List.getElem?_eq_some_iff.mp hm'
  obtain rfl : m = n := (List.getElem?_inj hlt h).mp (hm'.trans hn'.symm)
  rfl

end Answers

/-- A query of the formula, wherever it has come to. One that begins when the formula is `known`
does not find it missing. -/
def Caller.Asks (φ : Formula) (known : Prop) : Caller → Prop
  | .querying ψ | .holding ψ _ | .waiting ψ _ => ψ = φ
  | .answered ψ a => ψ = φ ∧ (known → a ≠ .error (.notSubmitted φ))
  | .submitting _ | .entering _ | .inserting _ _ | .submitted _ => False

namespace SharedCache

variable {p : Problem} {o : Oracle} {c d : SharedCache} {φ ψ : Formula} {κ : Caller} {i : Nat}
  {a : Except ValidityError Bool} {known : Prop} {e : Event}

theorem mem_table_of_step (hd : Step c d) (h : φ ∈ c.table) : φ ∈ d.table := by
  cases hd with
  | insert hκ => exact Std.HashMap.mem_insert.mpr (Or.inr h)
  | _ => exact h

theorem exchanges_prefix_of_step (hd : Step c d) : c.exchanges <+: d.exchanges := by
  cases hd with
  | ask hx hs => exact List.prefix_append _ _
  | _ => exact List.prefix_rfl

theorem exchanges_prefix_perform (c : SharedCache) (later : List Event) :
    c.exchanges <+: (c.perform later).exchanges :=
  perform_induction (P := fun d => c.exchanges <+: d.exchanges)
    (fun _ _ _ h hd => h.trans (exchanges_prefix_of_step (step_of_step? hd))) List.prefix_rfl later

theorem answer?_eq_some_iff :
    c.answer? i = some a ↔ ∃ φ, c.callers[i]? = some (.answered φ a) := by
  unfold answer?
  split
  · rename_i ψ b h
    simp [h]
  · rename_i h
    simp only [reduceCtorEq,false_iff,not_exists]
    exact fun φ hφ => h φ a hφ

theorem caller_perform (hκ : ∀ c : SharedCache, c.advance? i κ = none)
    (h : c.callers[i]? = some κ) (later : List Event) :
    (c.perform later).callers[i]? = some κ := by
  refine perform_induction (P := fun d => d.callers[i]? = some κ) (fun c e d hc hd => ?_) h later
  rcases caller_of_step? hd hc with hd | hd
  · exact hd
  · rw [hκ c] at hd
    cases hd

theorem answer?_perform (h : c.answer? i = some a) (later : List Event) :
    (c.perform later).answer? i = some a := by
  obtain ⟨φ,hφ⟩ := answer?_eq_some_iff.mp h
  exact answer?_eq_some_iff.mpr ⟨φ,caller_perform (fun _ => rfl) hφ later⟩

theorem submitted_perform (h : .submitted φ ∈ c.callers) (later : List Event) :
    .submitted φ ∈ (c.perform later).callers := by
  obtain ⟨i,hi⟩ := List.getElem?_of_mem h
  exact List.mem_of_getElem? (caller_perform (fun _ => rfl) hi later)

theorem asks_of_advance? (hknown : known → φ ∈ c.table) (hi : i < c.callers.length)
    (hκ : κ.Asks φ known) (h : c.advance? i κ = some d) :
    ∃ μ, d.callers[i]? = some μ ∧ μ.Asks φ known := by
  cases κ with
  | submitting ψ => exact absurd hκ id
  | entering ψ => exact absurd hκ id
  | inserting ψ k => exact absurd hκ id
  | submitted ψ => exact absurd hκ id
  | querying ψ =>
    simp only [advance?,Option.ite_none_left_eq_some] at h
    obtain ⟨hkept,h⟩ := h
    cases htable : c.table[ψ]? with
    | none =>
      rw [htable] at h
      cases h
      refine ⟨.answered ψ _,List.getElem?_set_self hi,hκ,fun hk => ?_⟩
      have hmem : ψ ∈ c.table := hκ ▸ hknown hk
      rw [Std.HashMap.mem_iff_isSome_getElem?,htable] at hmem
      cases hmem
    | some k =>
      rw [htable] at h
      cases h
      exact ⟨.holding ψ k,List.getElem?_set_self hi,hκ⟩
  | holding ψ k =>
    obtain ⟨x,hx,rfl⟩ := Option.map_eq_some_iff.mp h
    exact ⟨.waiting ψ k,List.getElem?_set_self hi,hκ⟩
  | waiting ψ k =>
    obtain ⟨r,hr,rfl⟩ := Option.map_eq_some_iff.mp h
    exact ⟨.answered ψ _,List.getElem?_set_self hi,hκ,fun _ => answerOf_ne_notSubmitted⟩
  | answered ψ a => cases h

/-- A query stays a query of its formula, and a formula in the table stays there. -/
theorem asks_perform (hknown : known → φ ∈ c.table)
    (h : ∃ κ, c.callers[i]? = some κ ∧ κ.Asks φ known) (later : List Event) :
    ∃ κ, (c.perform later).callers[i]? = some κ ∧ κ.Asks φ known := by
  refine (perform_induction (P := fun c => (known → φ ∈ c.table) ∧
    ∃ κ, c.callers[i]? = some κ ∧ κ.Asks φ known) ?_ ⟨hknown,h⟩ later).2
  rintro c e d ⟨hknown,κ,hi,hκ⟩ hd
  refine ⟨fun hk => mem_table_of_step (step_of_step? hd) (hknown hk),?_⟩
  rcases caller_of_step? hd hi with hsame | hown
  · exact ⟨κ,hsame,hκ⟩
  · exact asks_of_advance? hknown (List.getElem?_eq_some_iff.mp hi).1 hκ hown

theorem Coherent.isAnswer (h : Coherent p o c) (hm : .answered φ a ∈ c.callers)
    (ha : a ≠ .error (.notSubmitted φ)) : IsAnswer p o c.exchanges φ a := by
  rcases h.allows _ hm with hmiss | ⟨r,hr,rfl⟩
  · exact absurd hmiss ha
  · exact isAnswer_of_mem h.recorded hr

/-- A query is answered by the call about its formula; it may miss the formula only where no
submission of it has come to its end before the query begins. -/
theorem Coherent.query (h : Coherent p o c) (later : List Event)
    (ha : (c.perform (.query φ :: later)).answer? c.callers.length = some a) :
    (a = .error (.notSubmitted φ) ∧ .submitted φ ∉ c.callers) ∨
      IsAnswer p o (c.perform (.query φ :: later)).exchanges φ a := by
  have hd := h.perform (.query φ :: later)
  let begun : SharedCache := { c with callers := c.callers ++ [.querying φ] }
  obtain ⟨κ,hκ,hasks⟩ : ∃ κ, (begun.perform later).callers[c.callers.length]? = some κ ∧
      κ.Asks φ (.submitted φ ∈ c.callers) :=
    asks_perform (fun hm => h.allows _ hm) ⟨.querying φ,List.getElem?_concat_length,rfl⟩ later
  obtain ⟨ψ,hψ⟩ := answer?_eq_some_iff.mp ha
  obtain rfl : κ = .answered ψ a := Option.some.inj (hκ.symm.trans hψ)
  obtain ⟨rfl,hfound⟩ := hasks
  by_cases hmiss : a = .error (.notSubmitted ψ)
  · exact Or.inl ⟨hmiss,fun hm => hfound hm hmiss⟩
  · exact Or.inr (hd.isAnswer (List.mem_of_getElem? hψ) hmiss)

/-- What can be relied on at any time. A formula is asked about at most once and by itself. A
query that begins now is answered by the call about its formula; it may be told that the formula
is missing only if no submission of it has returned. Answers agree and last, and they come from
checks that have ended. -/
structure Trustworthy (p : Problem) (o : Oracle) (c : SharedCache) : Prop where
  alone : ∀ e ∈ c.exchanges, ∃ φ, e.formulas = [φ]
  once : (c.exchanges.map (·.formulas)).Nodup
  recorded : Recorded p o c.exchanges
  logged : ∀ later, c.exchanges <+: (c.perform later).exchanges
  query : ∀ φ later a, (c.perform (.query φ :: later)).answer? c.callers.length = some a →
    (a = .error (.notSubmitted φ) ∧ .submitted φ ∉ c.callers) ∨
      IsAnswer p o (c.perform (.query φ :: later)).exchanges φ a
  returned : ∀ φ later, .submitted φ ∈ c.callers → .submitted φ ∈ (c.perform later).callers
  lasting : ∀ i a later, c.answer? i = some a → (c.perform later).answer? i = some a
  agree : ∀ φ a b, .answered φ a ∈ c.callers → .answered φ b ∈ c.callers →
    a ≠ .error (.notSubmitted φ) → b ≠ .error (.notSubmitted φ) → a = b
  not_abandoned : ∀ x ∈ c.checks, x.task.result ≠ some (.error .abandoned)
  not_dropped : ∀ φ, .answered φ (answerOf (.error .abandoned)) ∈ c.callers →
    ∃ n < c.exchanges.length, o.answer p n [φ] =
      .failed (.invocation "validity check was dropped before it ran")

theorem Coherent.trustworthy (h : Coherent p o c) : Trustworthy p o c where
  alone e he := by
    obtain ⟨φ,-,hφ⟩ := h.asked e he
    exact ⟨φ,hφ⟩
  once := h.nodup_exchanges
  recorded := h.recorded
  logged := exchanges_prefix_perform c
  query _ later _ ha := h.query later ha
  returned _ later hm := submitted_perform hm later
  lasting _ _ later ha := answer?_perform ha later
  agree φ a b ha hb hna hnb := (h.isAnswer ha hna).unique h.nodup_exchanges (h.isAnswer hb hnb)
  not_abandoned x hx hr := by
    obtain ⟨r,-,hy⟩ := (h.agrees x hx).exists_of_result hr
    exact Reply.outcome_ne_abandoned hy.symm
  not_dropped φ hφ := by
    obtain ⟨n,hn,ha⟩ := h.isAnswer hφ answerOf_ne_notSubmitted
    exact ⟨n,(List.getElem?_eq_some_iff.mp hn).1,eq_failed_of_answerDue ha.symm⟩

/-- Whatever the oracle does, however many workers there are, and in whatever order the steps of
all callers and checks come. -/
theorem trustworthy_perform (p : Problem) (o : Oracle) (requested : Nat) (events : List Event) :
    Trustworthy p o ((ofProblem p o requested).perform events) :=
  ((coherent_ofProblem p o requested).perform events).trustworthy

end SharedCache
end ClauseDiscovery
