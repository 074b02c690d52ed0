import ClauseDiscovery.Memo.Batch
import ClauseDiscovery.Proofs.FirstOccurrence
import ClauseDiscovery.Proofs.Oracle.Record

/-! Runs of a cache that asks in batches. Whatever the oracle does, the batches that it has
settled and then the formulas that wait are the formulas of the run by first mention, each once;
the set of those that wait and the table of verdicts say the same as the lists. -/
namespace ClauseDiscovery
namespace BatchCache

inductive Operation where
  | submit (φ : Formula)
  | query (φ : Formula)
  | flush

def Operation.formula? : Operation → Option Formula
  | submit φ => some φ
  | query φ => some φ
  | flush => none

/-- The formulas of a run by first mention. -/
def mentioned (ops : List Operation) : List Formula := (ops.filterMap (·.formula?)).eraseDups

/-- The cache after a call, also after one that failed or panicked. -/
def after (c : BatchCache) : Operation → BatchCache
  | .submit φ => c.submit φ
  | .query φ => (c.query φ).2
  | .flush => c.flush.2

def run (c : BatchCache) (ops : List Operation) : BatchCache := ops.foldl after c

def batchWith (c : BatchCache) (φ : Formula) : List Formula :=
  if φ ∈ c.pending then c.pending else c.pending ++ [φ]

/-- The cache when a query for an unknown verdict is about to ask. -/
def awaiting (c : BatchCache) (φ : Formula) : BatchCache :=
  let c' := { c with counters := c.counters.miss }
  if c'.pendingSet.contains φ then c' else c'.submit φ

/-- The parts of the cache say the same, after calls about the formulas `asked`. -/
structure Consistent (p : Problem) (o : Oracle) (asked : List Formula) (c : BatchCache) :
    Prop where
  problem_eq : c.problem = p
  oracle_eq : c.oracle = o
  order : settledBy c.exchanges ++ c.pending = asked.eraseDups
  mem_pendingSet : ∀ φ, φ ∈ c.pendingSet ↔ φ ∈ c.pending
  table_eq : ∀ φ v, c.table[φ]? = some v ↔ (φ,v) ∈ decidedBy c.exchanges
  recorded : Recorded p o c.exchanges
  retried : Retried c.exchanges c.pending

variable {p : Problem} {o : Oracle} {asked : List Formula} {c : BatchCache} {φ ψ : Formula}
  {v : Bool} {vs : List Bool} {ops later : List Operation}

@[simp] theorem run_nil : c.run [] = c := rfl

/-- A flush with nothing to ask, a batch that is decided, one that fails, one that panics. -/
theorem flush_cases (c : BatchCache) :
    (c.pending = [] ∧ c.flush = (.ok (),c)) ∨
    c.pending ≠ [] ∧
      ((∃ vs, c.ask.1 = .verdicts vs ∧ c.flush = (.ok (),c.ask.2.memorize vs)) ∨
      (∃ e, c.ask.1 = .failed e ∧ c.flush =
        (.error (.failed (.oracle e)),{ c.ask.2 with counters := c.ask.2.counters.failure })) ∨
      ∃ q, c.ask.1 = .panicked q ∧ c.flush = (.error (.panicked q),c.ask.2)) := by
  by_cases hp : c.pending = []
  · exact Or.inl ⟨hp,flush_of_pending_eq_nil hp⟩
  · refine Or.inr ⟨hp,?_⟩
    have he : c.pending.isEmpty = false := by simpa using hp
    rcases ha : c.ask with ⟨r,d⟩
    cases r with
    | verdicts vs => exact Or.inl ⟨vs,rfl,by simp [flush,he,ha]⟩
    | failed e => exact Or.inr (Or.inl ⟨e,rfl,by simp [flush,he,ha]⟩)
    | panicked q => exact Or.inr (Or.inr ⟨q,rfl,by simp [flush,he,ha]⟩)

theorem query_of_cached (h : c.cached? φ = some v) :
    c.query φ = (.ok v,{ c with counters := c.counters.hit }) := by
  simp [query,h]

theorem query_of_unknown (h : c.cached? φ = none) : c.query φ =
    match (c.awaiting φ).flush with
    | (.error i,d) => (.error i,d)
    | (.ok (),d) =>
      match d.cached? φ with
      | some b => (.ok b,d)
      | none => (.error (.failed (.notSubmitted φ)),d) := by
  simp only [query,h]
  rfl

theorem getElem?_foldl_insert {xs : List (Formula × Bool)} (h : (xs.map Prod.fst).Nodup)
    (table : Std.HashMap Formula Bool) (hn : ∀ φ ∈ xs.map Prod.fst, φ ∉ table) :
    (xs.foldl (fun t (φ,b) => t.insert φ b) table)[φ]? = some v ↔
      table[φ]? = some v ∨ (φ,v) ∈ xs := by
  induction xs generalizing table with
  | nil => simp
  | cons x xs ih =>
    obtain ⟨ψ,w⟩ := x
    obtain ⟨hx,hxs⟩ := List.nodup_cons.mp h
    have hψ : table[ψ]? = none := Std.HashMap.getElem?_eq_none (hn ψ (by simp))
    rw [List.foldl_cons,ih hxs]
    · rw [Std.HashMap.getElem?_insert]
      grind
    · intro χ hχ
      have hne : ψ ≠ χ := fun he => hx (he ▸ hχ)
      simp [Std.HashMap.mem_insert,hne,hn χ (List.mem_cons_of_mem _ hχ)]

theorem consistent_ofProblem : Consistent p o [] (ofProblem p o) where
  problem_eq := rfl
  oracle_eq := rfl
  order := rfl
  mem_pendingSet := by simp [ofProblem]
  table_eq := by simp [ofProblem]
  recorded := recorded_nil
  retried := retried_nil

namespace Consistent

theorem nodup (h : Consistent p o asked c) : (settledBy c.exchanges ++ c.pending).Nodup :=
  h.order ▸ nodup_eraseDups asked

theorem mem_asked (h : Consistent p o asked c) :
    φ ∈ asked ↔ φ ∈ settledBy c.exchanges ∨ φ ∈ c.pending := by
  rw [← List.mem_eraseDups,← h.order,List.mem_append]

theorem mem_table (h : Consistent p o asked c) : φ ∈ c.table ↔ φ ∈ settledBy c.exchanges := by
  rw [Std.HashMap.mem_iff_isSome_getElem?,Option.isSome_iff_exists]
  simp only [h.table_eq]
  exact ⟨fun ⟨v,hv⟩ => mem_settledBy_of_decided hv,h.recorded.exists_decided⟩

theorem knows_iff (h : Consistent p o asked c) : c.knows φ ↔ φ ∈ asked := by
  rw [knows,Bool.or_eq_true,Std.HashMap.contains_iff_mem,Std.HashSet.contains_iff_mem,
    h.mem_table,h.mem_pendingSet,h.mem_asked]

theorem counters (h : Consistent p o asked c) (k : Counters) :
    Consistent p o asked { c with counters := k } :=
  { h with }

theorem again (h : Consistent p o asked c) (hφ : φ ∈ asked) : Consistent p o (asked ++ [φ]) c :=
  { h with order := by rw [h.order,eraseDups_append_singleton,if_pos hφ] }

theorem enqueue (h : Consistent p o asked c) (hφ : φ ∉ asked) :
    Consistent p o (asked ++ [φ]) (c.enqueue φ) := by
  refine { h with
    order := ?_
    mem_pendingSet := ?_
    retried := h.retried.mono (List.prefix_append _ _) }
  · rw [eraseDups_append_singleton,if_neg hφ,← h.order,List.append_assoc]
    rfl
  · intro ψ
    have hset : ψ ∈ (c.enqueue φ).pendingSet ↔ φ = ψ ∨ ψ ∈ c.pendingSet := by
      simp [BatchCache.enqueue]
    rw [hset,h.mem_pendingSet,pending_enqueue,List.mem_append,List.mem_singleton,or_comm,
      eq_comm (a := φ)]

theorem submit (h : Consistent p o asked c) (φ : Formula) :
    Consistent p o (asked ++ [φ]) (c.submit φ) := by
  unfold BatchCache.submit
  split
  · rename_i hk
    exact (h.again (h.knows_iff.mp hk)).counters _
  · rename_i hk
    exact (h.counters c.counters.submission).enqueue (mt h.knows_iff.mpr hk)

theorem recorded_ask (h : Consistent p o asked c) : Recorded p o c.ask.2.exchanges := by
  rw [exchanges_ask]
  apply h.recorded.append_singleton
  rw [← h.problem_eq,← h.oracle_eq]
  rfl

theorem ask (h : Consistent p o asked c) (hr : ∀ vs, c.ask.1 ≠ .verdicts vs) :
    Consistent p o asked c.ask.2 := by
  have hs : ¬ (⟨c.pending,c.ask.1⟩ : Exchange).succeeded := by
    rw [Exchange.succeeded_iff]
    rintro ⟨vs,hvs⟩
    exact hr vs hvs
  have hset : (⟨c.pending,c.ask.1⟩ : Exchange).settled = [] := if_neg hs
  refine { h with
    order := ?_
    table_eq := ?_
    recorded := h.recorded_ask
    retried := ?_ }
  · rw [exchanges_ask,settledBy_append,settledBy_singleton,hset,List.append_nil]
    exact h.order
  · intro φ v
    rw [exchanges_ask,decidedBy_append,decidedBy_singleton,Exchange.decided_of_not_succeeded hs,
      List.append_nil]
    exact h.table_eq φ v
  · rw [exchanges_ask]
    exact Retried.append_singleton h.retried fun _ => List.prefix_rfl

theorem memorize (h : Consistent p o asked c) (hr : c.ask.1 = .verdicts vs) :
    Consistent p o asked (c.ask.2.memorize vs) := by
  have hlen : vs.length = c.pending.length := Reply.length_of_checked hr
  have hkeys : (c.pending.zip vs).map Prod.fst = c.pending :=
    List.map_fst_zip (Nat.le_of_eq hlen.symm)
  have hs : (⟨c.pending,c.ask.1⟩ : Exchange).succeeded := Exchange.succeeded_iff.mpr ⟨vs,hr⟩
  have hset : (⟨c.pending,c.ask.1⟩ : Exchange).settled = c.pending := if_pos hs
  have hdec : (⟨c.pending,c.ask.1⟩ : Exchange).decided = c.pending.zip vs := by
    simp [Exchange.decided,hr]
  obtain ⟨-,hpend,hdisj⟩ := List.nodup_append.mp h.nodup
  refine { h with
    order := ?_
    mem_pendingSet := ?_
    table_eq := ?_
    recorded := h.recorded_ask
    retried := ?_ }
  · rw [exchanges_memorize,exchanges_ask,settledBy_append,settledBy_singleton,hset]
    simpa using h.order
  · simp [BatchCache.memorize]
  · intro φ v
    rw [exchanges_memorize,exchanges_ask,decidedBy_append,decidedBy_singleton,hdec,
      List.mem_append,← h.table_eq]
    apply getElem?_foldl_insert
    · rwa [pending_ask,hkeys]
    · rw [pending_ask,hkeys,table_ask]
      intro ψ hψ hmem
      exact hdisj ψ (h.mem_table.mp hmem) ψ hψ rfl
  · rw [exchanges_memorize,exchanges_ask,pending_memorize]
    exact Retried.append_singleton h.retried fun hn => absurd hs hn

theorem flush (h : Consistent p o asked c) : Consistent p o asked c.flush.2 := by
  rcases c.flush_cases with ⟨-,hf⟩ | ⟨-,⟨vs,hr,hf⟩ | ⟨e,hr,hf⟩ | ⟨q,hr,hf⟩⟩ <;> rw [hf]
  · exact h
  · exact h.memorize hr
  · exact (h.ask (by simp [hr])).counters _
  · exact h.ask (by simp [hr])

/-- A query for an unknown verdict first makes its formula one of those that wait. -/
theorem awaiting (h : Consistent p o asked c) (hφ : c.cached? φ = none) :
    Consistent p o (asked ++ [φ]) (c.awaiting φ) ∧
      (c.awaiting φ).pending = c.batchWith φ ∧ (c.awaiting φ).exchanges = c.exchanges := by
  have hc := h.counters c.counters.miss
  have htable : φ ∉ c.table := by
    rw [Std.HashMap.mem_iff_isSome_getElem?]
    simpa [cached?] using hφ
  by_cases hp : φ ∈ c.pending
  · have hset : c.pendingSet.contains φ :=
      Std.HashSet.contains_iff_mem.mpr ((h.mem_pendingSet φ).mpr hp)
    have ha : c.awaiting φ = { c with counters := c.counters.miss } := if_pos hset
    have hb : c.batchWith φ = c.pending := if_pos hp
    rw [ha,hb]
    exact ⟨hc.again (h.mem_asked.mpr (Or.inr hp)),rfl,rfl⟩
  · have hset : ¬ c.pendingSet.contains φ := by
      rwa [Std.HashSet.contains_iff_mem,h.mem_pendingSet]
    have hk : ¬ ({ c with counters := c.counters.miss } : BatchCache).knows φ := by
      rw [hc.knows_iff,hc.mem_asked,← hc.mem_table]
      exact not_or.mpr ⟨htable,hp⟩
    have ha : c.awaiting φ = ({ c with counters := c.counters.miss } : BatchCache).submit φ :=
      if_neg hset
    have hb : c.batchWith φ = c.pending ++ [φ] := if_neg hp
    rw [ha,hb]
    refine ⟨hc.submit φ,?_,?_⟩ <;> simp [BatchCache.submit,hk,BatchCache.enqueue]

theorem mem_batchWith (c : BatchCache) (φ : Formula) : φ ∈ c.batchWith φ := by
  unfold batchWith
  split
  · assumption
  · simp

/-- A hit, or else a call about all that waits: decided, failed or panicked. There is no further
case, since the formula is part of the batch. -/
theorem query_cases (h : Consistent p o asked c) (φ : Formula) :
    (∃ v, c.cached? φ = some v ∧ c.query φ = (.ok v,{ c with counters := c.counters.hit })) ∨
    c.cached? φ = none ∧
      ((∃ vs v, (c.awaiting φ).ask.1 = .verdicts vs ∧
        ((c.awaiting φ).ask.2.memorize vs).cached? φ = some v ∧
        c.query φ = (.ok v,(c.awaiting φ).ask.2.memorize vs)) ∨
      (∃ e, (c.awaiting φ).ask.1 = .failed e ∧
        c.query φ = (.error (.failed (.oracle e)),{ (c.awaiting φ).ask.2 with
          counters := (c.awaiting φ).ask.2.counters.failure })) ∨
      ∃ q, (c.awaiting φ).ask.1 = .panicked q ∧
        c.query φ = (.error (.panicked q),(c.awaiting φ).ask.2)) := by
  cases hφ : c.cached? φ with
  | some v => exact Or.inl ⟨v,rfl,query_of_cached hφ⟩
  | none =>
    refine Or.inr ⟨rfl,?_⟩
    obtain ⟨ha,hpend,-⟩ := h.awaiting hφ
    have hmem : φ ∈ (c.awaiting φ).pending := hpend ▸ mem_batchWith c φ
    rw [query_of_unknown hφ]
    rcases (c.awaiting φ).flush_cases with ⟨hnil,-⟩ | ⟨-,⟨vs,hr,hf⟩ | ⟨e,hr,hf⟩ | ⟨q,hr,hf⟩⟩
    · rw [hnil] at hmem
      cases hmem
    · have hd := ha.memorize hr
      have hset : φ ∈ settledBy ((c.awaiting φ).ask.2.memorize vs).exchanges := by
        have hin := hd.mem_asked (φ := φ)
        simpa using hin
      obtain ⟨v,hv⟩ := hd.recorded.exists_decided hset
      have hcached : ((c.awaiting φ).ask.2.memorize vs).cached? φ = some v :=
        (hd.table_eq φ v).mpr hv
      refine Or.inl ⟨vs,v,hr,hcached,?_⟩
      simp only [hf,hcached]
    · exact Or.inr (Or.inl ⟨e,hr,by simp only [hf]⟩)
    · exact Or.inr (Or.inr ⟨q,hr,by simp only [hf]⟩)

theorem query (h : Consistent p o asked c) (φ : Formula) :
    Consistent p o (asked ++ [φ]) (c.query φ).2 := by
  rcases h.query_cases φ with ⟨v,hv,hq⟩ | ⟨hn,⟨vs,v,hr,-,hq⟩ | ⟨e,hr,hq⟩ | ⟨q,hr,hq⟩⟩ <;> rw [hq]
  · have hset : φ ∈ settledBy c.exchanges := mem_settledBy_of_decided ((h.table_eq φ v).mp hv)
    exact (h.again (h.mem_asked.mpr (Or.inl hset))).counters _
  · exact (h.awaiting hn).1.memorize hr
  · exact ((h.awaiting hn).1.ask (by simp [hr])).counters _
  · exact (h.awaiting hn).1.ask (by simp [hr])

theorem after (h : Consistent p o asked c) (op : Operation) :
    Consistent p o (asked ++ op.formula?.toList) (c.after op) := by
  cases op with
  | submit φ => exact h.submit φ
  | query φ => exact h.query φ
  | flush => exact (List.append_nil asked).symm ▸ h.flush

theorem run (h : Consistent p o asked c) (ops : List Operation) :
    Consistent p o (asked ++ ops.filterMap (·.formula?)) (c.run ops) := by
  induction ops generalizing asked c with
  | nil => simpa using h
  | cons op ops ih =>
    have hrun := ih (h.after op)
    rw [List.append_assoc] at hrun
    cases op <;> exact hrun

end Consistent

theorem consistent_run (p : Problem) (o : Oracle) (ops : List Operation) :
    Consistent p o (ops.filterMap (·.formula?)) ((ofProblem p o).run ops) :=
  consistent_ofProblem.run ops

/-- The record is what the oracle came to. The settled batches and then the formulas that wait
are all formulas mentioned, in their order; a batch that was not settled was sent again, or waits;
and the set of those that wait, the table and the size agree with this. -/
structure InStep (p : Problem) (o : Oracle) (asked : List Formula) (c : BatchCache) : Prop where
  recorded : Recorded p o c.exchanges
  order : settledBy c.exchanges ++ c.pending = asked
  retried : Retried c.exchanges c.pending
  mem_pendingSet : ∀ φ, φ ∈ c.pendingSet ↔ φ ∈ c.pending
  mem_table : ∀ φ, φ ∈ c.table ↔ φ ∈ settledBy c.exchanges
  size_eq : c.size = asked.length

theorem Consistent.size_table (h : Consistent p o asked c) :
    c.table.size = (settledBy c.exchanges).length := by
  rw [← Std.HashMap.length_keys]
  refine List.Perm.length_eq ((List.perm_ext_iff_of_nodup Std.HashMap.nodup_keys ?_).mpr ?_)
  · exact (List.nodup_append.mp h.nodup).1
  · intro φ
    rw [Std.HashMap.mem_keys,h.mem_table]

theorem Consistent.size_eq (h : Consistent p o asked c) : c.size = asked.eraseDups.length := by
  rw [size,h.size_table,← List.length_append,h.order]

/-- Over every run and for every oracle, no formula is lost, moved to another place or asked
about again once it is settled. -/
theorem inStep_run (p : Problem) (o : Oracle) (ops : List Operation) :
    InStep p o (mentioned ops) ((ofProblem p o).run ops) := by
  have h := consistent_run p o ops
  refine ⟨h.recorded,h.order,h.retried,h.mem_pendingSet,fun φ => h.mem_table,?_⟩
  rw [mentioned,← h.order,List.length_append,← h.size_table]
  rfl

end BatchCache
end ClauseDiscovery
