import ClauseDiscovery.Proofs.Memo.Batch
import Mathlib

/-! What the counters of a cache that asks in batches say. A query counts what it does itself, what
the submission inside it does and what the flush inside it does. Over a run of any length the
counters agree with each other, with the size of the cache and with the calls on record, all
modulo the word size. -/
namespace ClauseDiscovery

theorem toUInt64_add (m n : Nat) : (m + n).toUInt64 = m.toUInt64 + n.toUInt64 :=
  UInt64.ofNat_add m n

def Reply.isFailed : Reply → Bool
  | .failed _ => true
  | .verdicts _ | .panicked _ => false

def volume (es : List Exchange) : Nat := (es.map (·.formulas.length)).sum

@[simp] theorem volume_append_singleton (es : List Exchange) (e : Exchange) :
    volume (es ++ [e]) = volume es + e.formulas.length := by
  simp [volume]

/-- The formulas of a call are settled, unless it has not succeeded. -/
theorem length_settledBy_add (es : List Exchange) :
    (settledBy es).length + volume (es.filter (!·.succeeded)) = volume es := by
  induction es with
  | nil => rfl
  | cons e es ih =>
    have hcons : settledBy (e :: es) = e.settled ++ settledBy es := rfl
    simp only [volume] at ih
    by_cases he : e.succeeded <;> simp [hcons,volume,Exchange.settled,he] <;> omega

namespace Counters

def exchange (n : Counters) (e : Exchange) : Counters :=
  { n.call e.formulas.length with
    failures := n.failures + if e.reply.isFailed then 1 else 0 }

/-- The counters of a cache of so many formulas, after so many queries and flushes and the calls on
record, agree. -/
structure Balanced (n : Counters) (size queries flushes : Nat) (es : List Exchange) : Prop where
  submissions : n.submissions - n.duplicates = size.toUInt64
  lookups : n.hits + n.misses = queries.toUInt64
  calls : n.calls = n.misses + flushes.toUInt64
  invocations : n.calls = es.length.toUInt64
  evaluated : n.evaluated = (volume es).toUInt64
  failures : n.failures = (es.countP (·.reply.isFailed)).toUInt64

namespace Balanced

variable {n : Counters} {size queries flushes : Nat} {es : List Exchange}

theorem submission (h : n.Balanced size queries flushes es) :
    n.submission.Balanced (size + 1) queries flushes es := by
  refine { h with submissions := ?_ }
  have hs := h.submissions
  grind [Counters.submission,toUInt64_add]

theorem duplicate (h : n.Balanced size queries flushes es) :
    n.submission.duplicate.Balanced size queries flushes es := by
  refine { h with submissions := ?_ }
  have hs := h.submissions
  grind [Counters.submission,Counters.duplicate]

theorem hit (h : n.Balanced size queries flushes es) :
    n.hit.Balanced size (queries + 1) flushes es := by
  refine { h with lookups := ?_ }
  have hl := h.lookups
  grind [Counters.hit,toUInt64_add]

theorem invocations_exchange (h : n.Balanced size queries flushes es) (e : Exchange) :
    (n.exchange e).calls = (es ++ [e]).length.toUInt64 := by
  rw [List.length_append,List.length_singleton,toUInt64_add,← h.invocations]
  rfl

theorem evaluated_exchange (h : n.Balanced size queries flushes es) (e : Exchange) :
    (n.exchange e).evaluated = (volume (es ++ [e])).toUInt64 := by
  rw [volume_append_singleton,toUInt64_add,← h.evaluated]
  rfl

theorem failures_exchange (h : n.Balanced size queries flushes es) (e : Exchange) :
    (n.exchange e).failures = ((es ++ [e]).countP (·.reply.isFailed)).toUInt64 := by
  rw [List.countP_append,List.countP_singleton,toUInt64_add,← h.failures,Counters.exchange]
  split <;> rfl

theorem exchange (h : n.Balanced size queries flushes es) (e : Exchange) :
    (n.exchange e).Balanced size queries (flushes + 1) (es ++ [e]) where
  submissions := h.submissions
  lookups := h.lookups
  calls := by
    have hc := h.calls
    grind [Counters.exchange,Counters.call,toUInt64_add]
  invocations := h.invocations_exchange e
  evaluated := h.evaluated_exchange e
  failures := h.failures_exchange e

theorem miss (h : n.Balanced size queries flushes es) (e : Exchange) :
    (n.miss.exchange e).Balanced size (queries + 1) flushes (es ++ [e]) where
  submissions := h.submissions
  lookups := by
    have hl := h.lookups
    grind [Counters.exchange,Counters.call,Counters.miss,toUInt64_add]
  calls := by
    have hc := h.calls
    grind [Counters.exchange,Counters.call,Counters.miss]
  invocations := h.invocations_exchange e
  evaluated := h.evaluated_exchange e
  failures := h.failures_exchange e

end Balanced
end Counters

namespace BatchCache

def Operation.isQuery : Operation → Bool
  | .query _ => true
  | .submit _ | .flush => false

def isFlush (c : BatchCache) : Operation → Bool
  | .flush => !c.pending.isEmpty
  | .submit _ | .query _ => false

def flushes (c : BatchCache) : List Operation → Nat
  | [] => 0
  | op :: ops => (c.isFlush op).toNat + (c.after op).flushes ops

def added (c : BatchCache) (op : Operation) : List Formula :=
  op.formula?.toList.filter (!c.knows ·)

/-- The counters agree with the size and the record of a cache. -/
def Balanced (queries flushes : Nat) (c : BatchCache) : Prop :=
  c.counters.Balanced c.size queries flushes c.exchanges

variable {p : Problem} {o : Oracle} {asked : List Formula} {c : BatchCache} {φ : Formula}
  {v : Bool} {op : Operation} {queries flushes : Nat}

theorem counters_submit (c : BatchCache) (φ : Formula) : (c.submit φ).counters =
    if c.knows φ then c.counters.submission.duplicate else c.counters.submission := by
  unfold submit
  split <;> rfl

theorem exchanges_submit (c : BatchCache) (φ : Formula) :
    (c.submit φ).exchanges = c.exchanges := by
  unfold submit
  split <;> rfl

theorem flush_counted (h : c.pending ≠ []) :
    c.flush.2.counters = c.counters.exchange ⟨c.pending,c.ask.1⟩ ∧
      c.flush.2.exchanges = c.exchanges ++ [⟨c.pending,c.ask.1⟩] := by
  have hcall : c.ask.2.counters = c.counters.call c.pending.length := rfl
  rcases c.flush_cases with ⟨hnil,-⟩ | ⟨-,⟨vs,hr,hf⟩ | ⟨e,hr,hf⟩ | ⟨q,hr,hf⟩⟩
  · exact absurd hnil h
  all_goals
    rw [hf,hr]
    refine ⟨?_,congrArg (fun r => c.exchanges ++ [⟨c.pending,r⟩]) hr⟩
    simp [Counters.exchange,Reply.isFailed,memorize,hcall,Counters.call,Counters.failure]

theorem counters_awaiting (hφ : c.cached? φ = none) : (c.awaiting φ).counters =
    if c.knows φ then c.counters.miss else c.counters.miss.submission := by
  have htable : c.table.contains φ = false := by
    rw [← Std.HashMap.isSome_getElem?_eq_contains]
    simpa [cached?] using hφ
  have hknows : c.knows φ = c.pendingSet.contains φ := by rw [knows,htable,Bool.false_or]
  simp only [awaiting,hknows]
  split
  · rfl
  · rename_i hset
    rw [counters_submit,if_neg (by simpa [knows,htable] using hset)]

theorem query_snd_of_unknown (hφ : c.cached? φ = none) :
    (c.query φ).2 = (c.awaiting φ).flush.2 := by
  rw [query_of_unknown hφ]
  split
  · rename_i hf
    rw [hf]
  · rename_i hf
    rw [hf]
    split <;> rfl

namespace Consistent

theorem query_counted (h : Consistent p o asked c) (hφ : c.cached? φ = none) :
    (c.query φ).2.counters =
        (c.awaiting φ).counters.exchange ⟨c.batchWith φ,(c.awaiting φ).ask.1⟩ ∧
      (c.query φ).2.exchanges = c.exchanges ++ [⟨c.batchWith φ,(c.awaiting φ).ask.1⟩] := by
  obtain ⟨-,hpend,hex⟩ := h.awaiting hφ
  have hne : (c.awaiting φ).pending ≠ [] := hpend ▸ List.ne_nil_of_mem (mem_batchWith c φ)
  rw [query_snd_of_unknown hφ,← hpend,← hex]
  exact flush_counted hne

theorem size_after (h : Consistent p o asked c) (op : Operation) :
    (c.after op).size = c.size + (c.added op).length := by
  rw [(h.after op).size_eq,h.size_eq]
  cases hop : op.formula? with
  | none => simp [added,hop]
  | some φ =>
    rw [Option.toList_some,eraseDups_append_singleton]
    by_cases hφ : φ ∈ asked
    · simp [added,hop,h.knows_iff.mpr hφ,hφ]
    · have hk : c.knows φ = false := by simpa [hφ] using mt h.knows_iff.mp hφ
      simp [added,hop,hk,hφ]

end Consistent

theorem added_of_known (hop : op.formula? = some φ) (hk : c.knows φ) : c.added op = [] := by
  simp [added,hop,hk]

theorem added_of_unknown (hop : op.formula? = some φ) (hk : ¬ c.knows φ) : c.added op = [φ] := by
  simp [added,hop,hk]

@[simp] theorem added_flush : c.added .flush = [] := rfl

theorem knows_of_cached (h : c.cached? φ = some v) : c.knows φ := by
  have ht : c.table.contains φ := by
    rw [Std.HashMap.contains_eq_isSome_getElem?]
    exact Option.isSome_of_eq_some h
  rw [knows,ht,Bool.true_or]

theorem balanced_ofProblem (p : Problem) (o : Oracle) : Balanced 0 0 (ofProblem p o) where
  submissions := by simp [ofProblem,size,Counters.zero]
  lookups := rfl
  calls := rfl
  invocations := rfl
  evaluated := rfl
  failures := rfl

theorem Balanced.after (hb : Balanced queries flushes c) (h : Consistent p o asked c)
    (op : Operation) :
    Balanced (queries + op.isQuery.toNat) (flushes + (c.isFlush op).toNat) (c.after op) := by
  have hsize := h.size_after op
  unfold Balanced at hb ⊢
  rw [hsize]
  cases op with
  | submit φ =>
    simp only [BatchCache.after,exchanges_submit,counters_submit]
    by_cases hk : c.knows φ
    · rw [added_of_known rfl hk,if_pos hk]
      exact hb.duplicate
    · rw [added_of_unknown rfl hk,if_neg hk]
      exact hb.submission
  | query φ =>
    cases hφ : c.cached? φ with
    | some v =>
      rw [added_of_known rfl (knows_of_cached hφ),BatchCache.after,query_of_cached hφ]
      exact hb.hit
    | none =>
      obtain ⟨hcount,hex⟩ := h.query_counted hφ
      simp only [BatchCache.after,hcount,hex,counters_awaiting hφ]
      by_cases hk : c.knows φ
      · rw [added_of_known rfl hk,if_pos hk]
        exact hb.miss _
      · rw [added_of_unknown rfl hk,if_neg hk]
        exact hb.submission.miss _
  | flush =>
    by_cases hp : c.pending = []
    · have hidle : c.isFlush .flush = false := by simp [isFlush,hp]
      rw [BatchCache.after,flush_of_pending_eq_nil hp,hidle]
      exact hb
    · obtain ⟨hcount,hex⟩ := flush_counted hp
      have hasks : c.isFlush .flush = true := by simp [isFlush,hp]
      simp only [BatchCache.after,hcount,hex,hasks]
      exact hb.exchange _

theorem Balanced.run (hb : Balanced queries flushes c) (h : Consistent p o asked c)
    (ops : List Operation) :
    Balanced (queries + ops.countP (·.isQuery)) (flushes + c.flushes ops) (c.run ops) := by
  induction ops generalizing asked c queries flushes with
  | nil => exact hb
  | cons op ops ih =>
    have hrun := ih (hb.after h op) (h.after op)
    have hq : (op :: ops).countP (·.isQuery) = op.isQuery.toNat + ops.countP (·.isQuery) := by
      cases hop : op.isQuery <;> simp [hop,Nat.add_comm]
    rwa [hq,BatchCache.flushes,← Nat.add_assoc,← Nat.add_assoc]

/-- As many formulas are in the table as were asked about in calls that succeeded. -/
theorem Consistent.memoized (h : Consistent p o asked c)
    (he : c.counters.evaluated = (volume c.exchanges).toUInt64) : c.table.size.toUInt64 =
      c.counters.evaluated - (volume (c.exchanges.filter (!·.succeeded))).toUInt64 := by
  rw [he,h.size_table,← length_settledBy_add,toUInt64_add]
  grind

/-- The accounts of a cache after a run. The record holds what the oracle came to, call by call, and
the counters agree with it, with the size and with what was called. -/
structure Accounted (p : Problem) (o : Oracle) (ops : List Operation) (c : BatchCache) : Prop where
  recorded : Recorded p o c.exchanges
  balanced : c.counters.Balanced c.size (ops.countP (·.isQuery)) ((ofProblem p o).flushes ops)
    c.exchanges
  memoized : c.table.size.toUInt64 =
    c.counters.evaluated - (volume (c.exchanges.filter (!·.succeeded))).toUInt64

/-- Over every run and for every oracle. -/
theorem accounted_run (p : Problem) (o : Oracle) (ops : List Operation) :
    Accounted p o ops ((ofProblem p o).run ops) := by
  have h := consistent_run p o ops
  have hb := (balanced_ofProblem p o).run consistent_ofProblem ops
  rw [Nat.zero_add,Nat.zero_add] at hb
  exact ⟨h.recorded,hb,h.memoized hb.evaluated⟩

end BatchCache
end ClauseDiscovery
