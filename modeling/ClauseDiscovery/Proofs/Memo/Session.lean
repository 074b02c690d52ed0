import ClauseDiscovery.Proofs.Memo.Batch
import ClauseDiscovery.Proofs.Memo.Progress

/-! Both caches behind one interface, used by somebody who makes one call after the other and sees
the answers and the size. In a shared cache the steps of the call and of the checks come in any
order meanwhile; the call returns in all of them. -/
namespace ClauseDiscovery

inductive Call where
  | submit (φ : Formula)
  | query (φ : Formula)
  deriving DecidableEq

namespace Call

def formula : Call → Formula
  | submit φ => φ
  | query φ => φ

def operation : Call → BatchCache.Operation
  | submit φ => .submit φ
  | query φ => .query φ

def event : Call → SharedCache.Event
  | submit φ => .submit φ
  | query φ => .query φ

@[simp] theorem formula?_operation (k : Call) : k.operation.formula? = some k.formula := by
  cases k <;> rfl

end Call

/-- Every formula is submitted before it is queried. -/
def Announced (calls : List Call) : Prop :=
  ∀ (i : Nat) (φ : Formula), calls[i]? = some (.query φ) → .submit φ ∈ calls.take i

/-- What a call comes to: the answer, if it is a query, and the size of the cache after it. -/
structure Observation where
  answer : Option (Except Interruption Bool)
  size : Nat
  deriving DecidableEq

theorem announced_append_singleton {calls : List Call} {k : Call} :
    Announced (calls ++ [k]) ↔ Announced calls ∧ ∀ φ, k = .query φ → .submit φ ∈ calls := by
  constructor
  · intro h
    refine ⟨fun i φ hi => ?_,?_⟩
    · have hlt : i < calls.length := (List.getElem?_eq_some_iff.mp hi).1
      have hm := h i φ ((List.getElem?_append_left hlt).trans hi)
      rwa [List.take_append_of_le_length hlt.le] at hm
    · rintro φ rfl
      simpa using h calls.length φ List.getElem?_concat_length
  · rintro ⟨h,hk⟩ i φ hi
    rcases Nat.lt_trichotomy i calls.length with hlt | rfl | hlt
    · rw [List.getElem?_append_left hlt] at hi
      rw [List.take_append_of_le_length hlt.le]
      exact h i φ hi
    · rw [List.getElem?_concat_length] at hi
      simpa using hk φ (Option.some.inj hi)
    · rw [List.getElem?_eq_none (by simp; omega)] at hi
      cases hi

theorem Announced.mem_map_formula {calls : List Call} (h : Announced calls) {φ : Formula} :
    φ ∈ calls.map (·.formula) ↔ .submit φ ∈ calls := by
  constructor
  · intro hφ
    obtain ⟨k,hk,rfl⟩ := List.mem_map.mp hφ
    cases k with
    | submit φ => exact hk
    | query φ =>
      obtain ⟨i,hi⟩ := List.getElem?_of_mem hk
      exact List.mem_of_mem_take (h i φ hi)
  · intro hφ
    exact List.mem_map.mpr ⟨_,hφ,rfl⟩

namespace BatchCache

def observe (c : BatchCache) : Call → Observation
  | .submit φ => ⟨none,(c.submit φ).size⟩
  | .query φ => ⟨some (c.query φ).1,(c.query φ).2.size⟩

def observations (c : BatchCache) : List Call → List Observation
  | [] => []
  | k :: calls => c.observe k :: (c.after k.operation).observations calls

def serve (c : BatchCache) (calls : List Call) : BatchCache := c.run (calls.map (·.operation))

theorem observations_append_singleton (c : BatchCache) (calls : List Call) (k : Call) :
    c.observations (calls ++ [k]) = c.observations calls ++ [(c.serve calls).observe k] := by
  induction calls generalizing c with
  | nil => rfl
  | cons l calls ih =>
    simp only [observations,List.cons_append,ih]
    rfl

end BatchCache

def Caller.call : Caller → Call
  | submitting φ | entering φ | inserting φ _ | submitted φ => .submit φ
  | querying φ | holding φ _ | waiting φ _ | answered φ _ => .query φ

def Caller.result? : Caller → Option (Option (Except Interruption Bool))
  | submitted _ => some none
  | answered _ a => some (some (a.mapError .failed))
  | _ => none

namespace SharedCache

def result? (c : SharedCache) (i : Nat) : Option (Option (Except Interruption Bool)) :=
  c.callers[i]?.bind (·.result?)

/-- Each of the events is possible when its turn comes. -/
def Possible : SharedCache → List Event → Prop
  | _, [] => True
  | c, e :: events => ∃ d, c.step? e = some d ∧ d.Possible events

/-- Calls made one after the other, what they come to, and the cache after them. Each begins when
the one before it has returned; all else comes in any order. -/
inductive Session (c : SharedCache) : List Call → List Observation → SharedCache → Prop
  | start : Session c [] [] c
  | call {calls : List Call} {obs : List Observation} {d : SharedCache} (k : Call)
      (events : List Event) (a : Option (Except Interruption Bool)) :
      Session c calls obs d → (∀ e ∈ events, ¬ e.Begins) →
      (d.perform (k.event :: events)).result? d.callers.length = some a →
      Session c (calls ++ [k]) (obs ++ [⟨a,(d.perform (k.event :: events)).size⟩])
        (d.perform (k.event :: events))

variable {p : Problem} {o : Oracle} {c d : SharedCache} {φ : Formula} {κ : Caller} {i : Nat}
  {e : Event} {k : Call} {calls : List Call} {obs : List Observation} {events : List Event}

theorem call_of_advance? (h : c.advance? i κ = some d) :
    ∃ μ, d.callers = c.callers.set i μ ∧ μ.call = κ.call := by
  cases κ <;> grind [advance?,setCaller,Option.map_eq_some_iff,Caller.call]

theorem map_call_of_step? (he : ¬ e.Begins) (h : c.step? e = some d) :
    d.callers.map (·.call) = c.callers.map (·.call) := by
  cases e with
  | submit φ => exact absurd trivial he
  | query φ => exact absurd trivial he
  | advance i =>
    obtain ⟨κ,hκ,hd⟩ := Option.bind_eq_some_iff.mp h
    obtain ⟨μ,hμ,hcall⟩ := call_of_advance? hd
    obtain ⟨hi,hκi⟩ := List.getElem?_eq_some_iff.mp hκ
    rw [hμ,List.map_set,hcall,← hκi,← List.map_set,List.set_getElem_self]
  | work i =>
    obtain ⟨x,hx,hd⟩ := Option.bind_eq_some_iff.mp h
    rw [callers_of_work? hd]

theorem map_call_perform (h : ∀ e ∈ events, ¬ e.Begins) :
    (c.perform events).callers.map (·.call) = c.callers.map (·.call) := by
  induction events generalizing c with
  | nil => rfl
  | cons e events ih =>
    obtain ⟨he,hes⟩ := List.forall_mem_cons.mp h
    have hnext : ((c.step? e).getD c).callers.map (·.call) = c.callers.map (·.call) := by
      cases hd : c.step? e with
      | none => rfl
      | some d => exact map_call_of_step? he hd
    exact (ih hes).trans hnext

def beginning (c : SharedCache) (k : Call) : SharedCache := c.perform [k.event]

theorem map_call_beginning (c : SharedCache) (k : Call) :
    (c.beginning k).callers.map (·.call) = c.callers.map (·.call) ++ [k] := by
  cases k <;> simp [beginning,perform,Call.event,step?,Caller.call]

theorem map_call_perform_event (h : ∀ e ∈ events, ¬ e.Begins) :
    (c.perform (k.event :: events)).callers.map (·.call) = c.callers.map (·.call) ++ [k] :=
  (map_call_perform h).trans (map_call_beginning c k)

theorem length_callers_perform_event (h : ∀ e ∈ events, ¬ e.Begins) :
    (c.perform (k.event :: events)).callers.length = c.callers.length + 1 := by
  simpa using congrArg List.length (map_call_perform_event (c := c) (k := k) h)

theorem getElem?_callers_perform_event (h : ∀ e ∈ events, ¬ e.Begins) :
    ∃ κ, (c.perform (k.event :: events)).callers[c.callers.length]? = some κ ∧ κ.call = k := by
  have hk : ((c.perform (k.event :: events)).callers.map (·.call))[c.callers.length]? = some k := by
    rw [map_call_perform_event h]
    simp
  simpa using hk

theorem submitted_of_step? (h : c.step? e = some d) (hφ : .submitted φ ∈ c.callers) :
    .submitted φ ∈ d.callers := by
  simpa [perform,h] using submitted_perform hφ [e]

/-- What is in the table has been put there by a submission that has returned. -/
theorem submitted_of_mem_table {n : Nat} :
    φ ∈ ((ofProblem p o n).perform events).table →
      .submitted φ ∈ ((ofProblem p o n).perform events).callers := by
  refine perform_induction (P := fun c => φ ∈ c.table → .submitted φ ∈ c.callers) ?_ ?_ events
  · intro c e d hc hd hφ
    have hkeep := fun hm => submitted_of_step? (φ := φ) hd (hc hm)
    cases step_of_step? hd with
    | @insert i k ψ hκ =>
      rcases Std.HashMap.mem_insert.mp hφ with he | hm
      · rw [← eq_of_beq he]
        exact List.mem_set (List.getElem?_eq_some_iff.mp hκ).1 _
      · exact hkeep hm
    | _ => exact hkeep hφ
  · simp [ofProblem]

theorem perform_append (c : SharedCache) (as bs : List Event) :
    c.perform (as ++ bs) = (c.perform as).perform bs := List.foldl_append

theorem advance?_of_result? {a : Option (Except Interruption Bool)} (h : κ.result? = some a)
    (c : SharedCache) : c.advance? i κ = none := by
  cases κ <;> simp [Caller.result?] at h <;> rfl

theorem result?_perform {a : Option (Except Interruption Bool)} (h : c.result? i = some a)
    (later : List Event) : (c.perform later).result? i = some a := by
  obtain ⟨κ,hκ,ha⟩ := Option.bind_eq_some_iff.mp h
  have hlater := caller_perform (fun d => advance?_of_result? ha d) hκ later
  exact Option.bind_eq_some_iff.mpr ⟨κ,hlater,ha⟩

theorem Quiet.exists_result? (h : c.Quiet) (hi : i < c.callers.length) :
    ∃ a, c.result? i = some a := by
  have hκ : c.callers[i]? = some c.callers[i] := List.getElem?_eq_getElem hi
  rcases h.returned _ (List.getElem_mem hi) with ⟨φ,hφ⟩ | ⟨φ,a,hφ⟩
  · exact ⟨none,Option.bind_eq_some_iff.mpr ⟨_,hκ,by rw [hφ]; rfl⟩⟩
  · exact ⟨some (a.mapError .failed),Option.bind_eq_some_iff.mpr ⟨_,hκ,by rw [hφ]; rfl⟩⟩

theorem length_le_remaining (h : ∀ e ∈ events, ¬ e.Begins) (hp : c.Possible events) :
    events.length ≤ c.remaining := by
  induction events generalizing c with
  | nil => exact Nat.zero_le _
  | cons e events ih =>
    obtain ⟨he,hes⟩ := List.forall_mem_cons.mp h
    obtain ⟨d,hd,hpd⟩ := hp
    have hlt := remaining_lt_of_step? hd he
    have hle := ih hes hpd
    rw [List.length_cons]
    omega

/-- Where nothing can go on, the call has returned. -/
theorem exists_result? (h : Coherent p o c) (hg : Guarded c) (hes : ∀ e ∈ events, ¬ e.Begins)
    (hstuck : ∀ e, ¬ e.Begins → (c.perform (k.event :: events)).step? e = none) :
    ∃ a, (c.perform (k.event :: events)).result? c.callers.length = some a := by
  have hq : (c.perform (k.event :: events)).Quiet := by
    by_contra hq
    obtain ⟨e,d,he,hed⟩ := exists_step (h.perform _) (hg.perform _) hq
    rw [hstuck e he] at hed
    cases hed
  apply hq.exists_result?
  rw [length_callers_perform_event hes]
  exact Nat.lt_succ_self _

namespace Session

variable {n : Nat}

theorem exists_perform (h : Session c calls obs d) : ∃ events, d = c.perform events := by
  induction h with
  | start => exact ⟨[],rfl⟩
  | call k events a _ _ _ ih =>
    obtain ⟨before,rfl⟩ := ih
    exact ⟨before ++ k.event :: events,(perform_append c before _).symm⟩

theorem coherent (h : Session (ofProblem p o n) calls obs c) : Coherent p o c := by
  obtain ⟨events,rfl⟩ := h.exists_perform
  exact (coherent_ofProblem p o n).perform events

theorem guarded (h : Session (ofProblem p o n) calls obs c) : Guarded c := by
  obtain ⟨events,rfl⟩ := h.exists_perform
  exact (guarded_ofProblem p o n).perform events

theorem map_call (h : Session (ofProblem p o n) calls obs c) : c.callers.map (·.call) = calls := by
  induction h with
  | start => rfl
  | @call calls obs d k events a _ hes _ ih =>
    rw [map_call_perform_event hes,ih]

theorem result? (h : Session (ofProblem p o n) calls obs c) (hi : i < c.callers.length) :
    ∃ a, c.result? i = some a := by
  induction h generalizing i with
  | start => cases hi
  | @call calls obs d k events a hd hes ha ih =>
    rw [length_callers_perform_event hes] at hi
    rcases Nat.lt_or_ge i d.callers.length with hold | hnew
    · obtain ⟨b,hb⟩ := ih hold
      exact ⟨b,result?_perform hb _⟩
    · obtain rfl : i = d.callers.length := by omega
      exact ⟨a,ha⟩

theorem submitted_iff (h : Session (ofProblem p o n) calls obs c) :
    .submitted φ ∈ c.callers ↔ .submit φ ∈ calls := by
  rw [← h.map_call]
  constructor
  · exact fun hm => List.mem_map_of_mem hm
  · intro hm
    obtain ⟨κ,hκ,hcall⟩ := List.mem_map.mp hm
    obtain ⟨i,hi⟩ := List.getElem?_of_mem hκ
    obtain ⟨a,ha⟩ := h.result? (List.getElem?_eq_some_iff.mp hi).1
    obtain ⟨μ,hμ,hr⟩ := Option.bind_eq_some_iff.mp ha
    obtain rfl : κ = μ := Option.some.inj (hi.symm.trans hμ)
    cases κ <;> simp [Caller.result?] at hr <;> simp [Caller.call] at hcall
    exact hcall ▸ hκ

theorem mem_table_iff (h : Session (ofProblem p o n) calls obs c) :
    φ ∈ c.table ↔ .submit φ ∈ calls := by
  rw [← h.submitted_iff]
  refine ⟨?_,fun hm => h.coherent.allows _ hm⟩
  obtain ⟨events,rfl⟩ := h.exists_perform
  exact submitted_of_mem_table

end Session
end SharedCache
end ClauseDiscovery
