import ClauseDiscovery.Proofs.Memo.Accounts
import ClauseDiscovery.Proofs.Memo.Answers

/-! A call of the oracle without verdicts: an error, a wrong number of verdicts or a panic. It leaves
the verdicts and what waits as they were when it was made, and is counted; the next query for one
of the formulas that wait makes the same call again. -/
namespace ClauseDiscovery

/-- The oracle has no verdicts for the batch in the call with the given number. -/
def Oracle.Refuses (o : Oracle) (p : Problem) (call : Nat) (batch : List Formula) : Prop :=
  ∀ vs, o.answer p call batch = .verdicts vs → vs.length ≠ batch.length

def Reply.isPanic : Reply → Bool
  | .panicked _ => true
  | .verdicts _ | .failed _ => false

theorem Reply.isFailed_checked {r : Reply} {n : Nat} (h : ∀ vs, r = .verdicts vs → vs.length ≠ n) :
    (r.checked n).isFailed = !r.isPanic := by
  cases r with
  | verdicts vs => rw [checked,if_neg (h vs rfl)]; rfl
  | failed e => rfl
  | panicked q => rfl

namespace BatchCache

def Asks (c : BatchCache) : Operation → Prop
  | .submit _ => False
  | .query φ => c.cached? φ = none
  | .flush => c.pending ≠ []

def asking (c : BatchCache) : Operation → BatchCache
  | .query φ => c.awaiting φ
  | .submit _ | .flush => c

/-- What an operation leaves when its call of the oracle has no verdicts. -/
structure Undecided (p : Problem) (o : Oracle) (c : BatchCache) (op : Operation)
    (d : BatchCache) : Prop where
  problem_eq : d.problem = c.problem
  oracle_eq : d.oracle = c.oracle
  table_eq : d.table = c.table
  pending_eq : d.pending = c.pending ++ c.added op
  mem_pendingSet : ∀ ψ, ψ ∈ d.pendingSet ↔ ψ ∈ d.pending
  exchanges_eq : d.exchanges = c.exchanges ++
    [⟨d.pending,(o.answer p c.exchanges.length d.pending).checked d.pending.length⟩]
  counters_eq : d.counters = { c.counters with
    submissions := c.counters.submissions + (c.added op).length.toUInt64
    misses := c.counters.misses + if op.isQuery then 1 else 0
    calls := c.counters.calls + 1
    evaluated := c.counters.evaluated + d.pending.length.toUInt64
    failures := c.counters.failures +
      if (o.answer p c.exchanges.length d.pending).isPanic then 0 else 1 }
  asks_again : ∀ ψ ∈ d.pending, (d.query ψ).2.exchanges = d.exchanges ++
    [⟨d.pending,(o.answer p d.exchanges.length d.pending).checked d.pending.length⟩]

variable {p : Problem} {o : Oracle} {asked : List Formula} {c : BatchCache} {φ : Formula}
  {op : Operation}

theorem after_of_asks (h : c.Asks op) : c.after op = (c.asking op).flush.2 := by
  cases op with
  | submit φ => exact absurd h id
  | query φ => exact query_snd_of_unknown h
  | flush => rfl

theorem counters_asking (h : c.Asks op) : (c.asking op).counters = { c.counters with
    submissions := c.counters.submissions + (c.added op).length.toUInt64
    misses := c.counters.misses + if op.isQuery then 1 else 0 } := by
  cases op with
  | submit φ => exact absurd h id
  | query φ =>
    rw [asking,counters_awaiting h]
    by_cases hk : c.knows φ
    · rw [added_of_known rfl hk]
      simp [hk,Counters.miss,Operation.isQuery]
    · rw [added_of_unknown rfl hk]
      simp [hk,Counters.miss,Counters.submission,Operation.isQuery]
  | flush => simp [asking,Operation.isQuery]

theorem table_submit (c : BatchCache) (φ : Formula) : (c.submit φ).table = c.table := by
  unfold submit
  split <;> rfl

theorem table_awaiting (c : BatchCache) (φ : Formula) : (c.awaiting φ).table = c.table := by
  simp only [awaiting]
  split
  · rfl
  · exact table_submit _ φ

theorem flush_refused (h : ∀ vs, c.ask.1 ≠ .verdicts vs) :
    c.flush.2.table = c.table ∧ c.flush.2.pending = c.pending := by
  rcases c.flush_cases with ⟨-,hf⟩ | ⟨-,⟨vs,hr,-⟩ | ⟨e,-,hf⟩ | ⟨q,-,hf⟩⟩
  · rw [hf]
    exact ⟨rfl,rfl⟩
  · exact absurd hr (h vs)
  all_goals
    rw [hf]
    exact ⟨rfl,rfl⟩

namespace Consistent

theorem cached?_of_mem_pending (h : Consistent p o asked c) (hφ : φ ∈ c.pending) :
    c.cached? φ = none := by
  cases hc : c.cached? φ with
  | none => rfl
  | some v =>
    have hset : φ ∈ settledBy c.exchanges :=
      mem_settledBy_of_decided (h.cached?_eq_some_iff.mp hc)
    exact absurd rfl ((List.nodup_append.mp h.nodup).2.2 φ hset φ hφ)

/-- A formula that waits is asked about with all others that wait. -/
theorem exchanges_query_of_mem (h : Consistent p o asked c) (hφ : φ ∈ c.pending) :
    (c.query φ).2.exchanges = c.exchanges ++
      [⟨c.pending,(o.answer p c.exchanges.length c.pending).checked c.pending.length⟩] := by
  have hc := h.cached?_of_mem_pending hφ
  have hbatch : c.batchWith φ = c.pending := if_pos hφ
  rw [h.exchanges_query hc,h.ask_awaiting hc,hbatch]

theorem batchWith_eq (h : Consistent p o asked c) (hφ : c.cached? φ = none) :
    c.batchWith φ = c.pending ++ c.added (.query φ) := by
  by_cases hp : φ ∈ c.pending
  · have hk : c.knows φ := h.knows_iff.mpr (h.mem_asked.mpr (Or.inr hp))
    rw [added_of_known rfl hk,List.append_nil]
    exact if_pos hp
  · have hk : ¬ c.knows φ := by
      rw [h.knows_iff,h.mem_asked,← h.mem_table,Std.HashMap.mem_iff_isSome_getElem?]
      simp [show c.table[φ]? = none from hφ,hp]
    rw [added_of_unknown rfl hk]
    exact if_neg hp

theorem asking (h : Consistent p o asked c) (hop : c.Asks op) :
    Consistent p o (asked ++ op.formula?.toList) (c.asking op) ∧
      (c.asking op).pending = c.pending ++ c.added op ∧
      (c.asking op).exchanges = c.exchanges ∧ (c.asking op).table = c.table := by
  cases op with
  | submit φ => exact absurd hop id
  | query φ =>
    obtain ⟨ha,hpend,hex⟩ := h.awaiting hop
    exact ⟨ha,hpend.trans (h.batchWith_eq hop),hex,c.table_awaiting φ⟩
  | flush => simpa [BatchCache.asking,Operation.formula?] using h

theorem pending_asking_ne_nil (h : Consistent p o asked c) (hop : c.Asks op) :
    (c.asking op).pending ≠ [] := by
  cases op with
  | submit φ => exact absurd hop id
  | query φ =>
    obtain ⟨-,hpend,-⟩ := h.awaiting hop
    exact hpend ▸ List.ne_nil_of_mem (mem_batchWith c φ)
  | flush => exact hop

theorem undecided (h : Consistent p o asked c) (hop : c.Asks op)
    (hr : o.Refuses p c.exchanges.length (c.pending ++ c.added op)) :
    Undecided p o c op (c.after op) := by
  have hd := h.after op
  obtain ⟨ha,hpend,hex,htable⟩ := h.asking hop
  have hreply : (c.asking op).ask.1 = (o.answer p c.exchanges.length
      (c.pending ++ c.added op)).checked (c.pending ++ c.added op).length := by
    rw [← hpend,← hex,← ha.problem_eq,← ha.oracle_eq]
    rfl
  have hrefused : ∀ vs, (c.asking op).ask.1 ≠ .verdicts vs := by
    intro vs hvs
    obtain ⟨hans,hlen⟩ := Reply.checked_eq_verdicts_iff.mp (hreply ▸ hvs)
    exact hr vs hans hlen
  obtain ⟨hcount,hlog⟩ := flush_counted (h.pending_asking_ne_nil hop)
  obtain ⟨hsame,hwait⟩ := flush_refused hrefused
  rw [← after_of_asks hop] at hcount hlog hsame hwait
  have hpending := hwait.trans hpend
  refine ⟨hd.problem_eq.trans h.problem_eq.symm,hd.oracle_eq.trans h.oracle_eq.symm,
    hsame.trans htable,hpending,hd.mem_pendingSet,?_,?_,fun ψ => hd.exchanges_query_of_mem⟩
  · rw [hlog,hex,hpending,hpend,hreply]
  · rw [hcount,hpending,hpend,hreply,counters_asking hop,Counters.exchange,
      Reply.isFailed_checked hr]
    simp only [Counters.call]
    cases (o.answer p c.exchanges.length (c.pending ++ c.added op)).isPanic <;> rfl

end Consistent

/-- In every state that a run can come to, and for every oracle: an operation whose call has no
verdicts leaves the table as it was and has everything wait that did, with its own formula at
the end if that is new. It is counted, a panic not as a failure. The next query for a formula
that waits makes the same call again. -/
theorem undecided_of_refuses (p : Problem) (o : Oracle) (ops : List Operation) (op : Operation)
    (hop : ((ofProblem p o).run ops).Asks op)
    (hr : o.Refuses p ((ofProblem p o).run ops).exchanges.length
      (((ofProblem p o).run ops).pending ++ ((ofProblem p o).run ops).added op)) :
    Undecided p o ((ofProblem p o).run ops) op (((ofProblem p o).run ops).after op) :=
  (consistent_run p o ops).undecided hop hr

namespace Silence

/-- An oracle that does not answer its first call and panics in every later one. -/
def silent : Oracle :=
  ⟨fun call _ _ _ => if call = 0 then .verdicts [] else .panicked (.text "no solver")⟩

def noWorlds : Problem := ⟨{},[],[]⟩

def rule : Formula := ⟨[⟨⟨"q",[]⟩,[]⟩],[⟨⟨"p",[]⟩,[]⟩]⟩

def fact : Formula := ⟨[],[⟨⟨"p",[]⟩,[]⟩]⟩

def cache : BatchCache := (ofProblem noWorlds silent).run [.submit rule,.flush]

end Silence

open Silence in
/-- The query adds its formula to the one that waits; its panic is no second failure. -/
theorem undecided_query_fact : cache.Asks (.query fact) ∧
    silent.Refuses noWorlds cache.exchanges.length (cache.pending ++ cache.added (.query fact)) ∧
    Undecided noWorlds silent cache (.query fact) (cache.after (.query fact)) := by
  have hasks : cache.Asks (.query fact) := by cbv
  have hcalls : cache.exchanges.length = 1 := by cbv
  have hrefuses : silent.Refuses noWorlds cache.exchanges.length
      (cache.pending ++ cache.added (.query fact)) := by
    rw [hcalls]
    intro vs hvs
    cases hvs
  exact ⟨hasks,hrefuses,undecided_of_refuses noWorlds silent _ _ hasks hrefuses⟩

end BatchCache
end ClauseDiscovery
