import ClauseDiscovery.Memo.Shared
import Mathlib.Data.List.Induction

/-! The steps of a cache that threads share. Whatever event takes place, it is one of the steps
of the relation below: a call begins, a caller goes on, or a check does. -/
namespace ClauseDiscovery
namespace SharedCache

inductive Step (c : SharedCache) : SharedCache → Prop
  | submit (φ : Formula) : Step c { c with callers := c.callers ++ [.submitting φ] }
  | query (φ : Formula) : Step c { c with callers := c.callers ++ [.querying φ] }
  | announce {i : Nat} {φ : Formula} : c.callers[i]? = some (.submitting φ) →
      Step c ({ c with counters := c.counters.submission }.setCaller i (.entering φ))
  | repeated {i : Nat} {φ : Formula} : c.callers[i]? = some (.entering φ) →
      φ ∉ c.kept → φ ∈ c.table →
      Step c ({ c with counters := c.counters.duplicate }.setCaller i (.submitted φ))
  | schedule {i : Nat} {φ : Formula} : c.callers[i]? = some (.entering φ) →
      φ ∉ c.kept → φ ∉ c.table →
      Step c ((c.schedule φ).setCaller i (.inserting φ c.checks.length))
  | insert {i k : Nat} {φ : Formula} : c.callers[i]? = some (.inserting φ k) →
      Step c ({ c with
        table := c.table.insert φ k
        kept := c.kept.erase φ }.setCaller i (.submitted φ))
  | missing {i : Nat} {φ : Formula} : c.callers[i]? = some (.querying φ) →
      φ ∉ c.kept → φ ∉ c.table →
      Step c (c.setCaller i (.answered φ (.error (.notSubmitted φ))))
  | found {i k : Nat} {φ : Formula} : c.callers[i]? = some (.querying φ) →
      φ ∉ c.kept → c.table[φ]? = some k → Step c (c.setCaller i (.holding φ k))
  | look {i k : Nat} {φ : Formula} {x : Check} : c.callers[i]? = some (.holding φ k) →
      c.checks[k]? = some x →
      Step c ({ c with counters := if x.task.isFinished then c.counters.hit else c.counters.miss }
        |>.setCaller i (.waiting φ k))
  | receive {i k : Nat} {φ : Formula} {x : Check} {r : Outcome Verdict} :
      c.callers[i]? = some (.waiting φ k) → c.checks[k]? = some x → x.task.result = some r →
      Step c (c.setCaller i (.answered φ (answerOf r)))
  | start {i : Nat} {x : Check} : c.checks[i]? = some x → x.stage = .queued →
      c.busy < c.threads → Step c (c.setStage i .started)
  | count {i : Nat} {x : Check} : c.checks[i]? = some x → x.stage = .started →
      Step c ({ c with counters := c.counters.call 1 }.setStage i .counted)
  | ask {i : Nat} {x : Check} : c.checks[i]? = some x → x.stage = .counted →
      Step c ((c.ask x.formula).2.setStage i (.asked (c.ask x.formula).1))
  | fail {i : Nat} {x : Check} {reply : Reply} {e : OracleError} : c.checks[i]? = some x →
      x.stage = .asked reply → reply.outcome = .ok (.error e) →
      Step c ({ c with counters := c.counters.failure }.setStage i (.judged reply.outcome))
  | judge {i : Nat} {x : Check} {reply : Reply} : c.checks[i]? = some x →
      x.stage = .asked reply → (∀ e, reply.outcome ≠ .ok (.error e)) →
      Step c (c.setStage i (.judged reply.outcome))
  | finish {i : Nat} {x : Check} {r : Outcome Verdict} : c.checks[i]? = some x →
      x.stage = .judged r →
      Step c { c with
        checks := c.checks.set i { x with stage := .done, task := x.task.fulfil r } }

variable {c d : SharedCache} {i : Nat} {κ : Caller} {x : Check} {e : Event}

theorem step_of_advance? (hκ : c.callers[i]? = some κ) (h : c.advance? i κ = some d) :
    Step c d := by
  cases κ with
  | submitting φ =>
    cases h
    exact .announce hκ
  | entering φ =>
    simp only [advance?,Option.ite_none_left_eq_some] at h
    obtain ⟨hkept,h⟩ := h
    split at h
    · rename_i htable
      cases h
      exact .repeated hκ hkept htable
    · rename_i htable
      cases h
      exact .schedule hκ hkept (by simpa using htable)
  | inserting φ k =>
    cases h
    exact .insert hκ
  | submitted φ => cases h
  | querying φ =>
    simp only [advance?,Option.ite_none_left_eq_some] at h
    obtain ⟨hkept,h⟩ := h
    cases htable : c.table[φ]? with
    | none =>
      rw [htable] at h
      cases h
      refine .missing hκ hkept ?_
      rw [Std.HashMap.mem_iff_isSome_getElem?,htable]
      simp
    | some k =>
      rw [htable] at h
      cases h
      exact .found hκ hkept htable
  | holding φ k =>
    obtain ⟨x,hx,rfl⟩ := Option.map_eq_some_iff.mp h
    exact .look hκ hx
  | waiting φ k =>
    obtain ⟨r,hr,rfl⟩ := Option.map_eq_some_iff.mp h
    obtain ⟨x,hx,hxr⟩ := Option.bind_eq_some_iff.mp hr
    exact .receive hκ hx hxr
  | answered φ r => cases h

theorem step_of_work? (hx : c.checks[i]? = some x) (h : c.work? i x = some d) : Step c d := by
  unfold work? at h
  split at h
  · rename_i hs
    simp only [Option.ite_none_right_eq_some,Option.some.injEq] at h
    obtain ⟨hbusy,rfl⟩ := h
    exact .start hx hs hbusy
  · rename_i hs
    cases h
    exact .count hx hs
  · rename_i hs
    cases h
    exact .ask hx hs
  · rename_i reply hs
    split at h
    · rename_i e he
      cases h
      rw [← he]
      exact .fail hx hs he
    · rename_i he
      cases h
      exact .judge hx hs he
  · rename_i r hs
    cases h
    exact .finish hx hs
  · cases h

theorem step_of_step? (h : c.step? e = some d) : Step c d := by
  cases e with
  | submit φ =>
    cases h
    exact .submit φ
  | query φ =>
    cases h
    exact .query φ
  | advance i =>
    obtain ⟨κ,hκ,hd⟩ := Option.bind_eq_some_iff.mp h
    exact step_of_advance? hκ hd
  | work i =>
    obtain ⟨x,hx,hd⟩ := Option.bind_eq_some_iff.mp h
    exact step_of_work? hx hd

theorem perform_induction {P : SharedCache → Prop}
    (hstep : ∀ c e d, P c → c.step? e = some d → P d) (h : P c) (events : List Event) :
    P (c.perform events) := by
  induction events generalizing c with
  | nil => exact h
  | cons e events ih =>
    have hnext : P ((c.step? e).getD c) := by
      cases hd : c.step? e with
      | none => exact h
      | some d => exact hstep c e d h hd
    exact ih hnext

theorem callers_of_advance? (h : c.advance? i κ = some d) :
    ∃ μ, d.callers = c.callers.set i μ := by
  cases κ <;> grind [advance?,setCaller,Option.map_eq_some_iff]

theorem callers_of_work? (h : c.work? i x = some d) : d.callers = c.callers := by
  unfold work? at h
  grind [setStage,SharedCache.ask]

theorem caller_of_step? (h : c.step? e = some d) (hκ : c.callers[i]? = some κ) :
    d.callers[i]? = some κ ∨ c.advance? i κ = some d := by
  have hi : i < c.callers.length := (List.getElem?_eq_some_iff.mp hκ).1
  cases e with
  | submit φ =>
    cases h
    exact Or.inl ((List.getElem?_append_left hi).trans hκ)
  | query φ =>
    cases h
    exact Or.inl ((List.getElem?_append_left hi).trans hκ)
  | advance j =>
    obtain ⟨μ,hμ,hd⟩ := Option.bind_eq_some_iff.mp h
    by_cases hji : j = i
    · subst hji
      obtain rfl : κ = μ := Option.some.inj (hκ.symm.trans hμ)
      exact Or.inr hd
    · obtain ⟨ν,hν⟩ := callers_of_advance? hd
      exact Or.inl (by rw [hν,List.getElem?_set_ne hji,hκ])
  | work j =>
    obtain ⟨x,hx,hd⟩ := Option.bind_eq_some_iff.mp h
    rw [callers_of_work? hd]
    exact Or.inl hκ

end SharedCache
end ClauseDiscovery
