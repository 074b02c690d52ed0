import ClauseDiscovery.Proofs.Memo.Answers
import ClauseDiscovery.Proofs.Memo.Session

/-! The two caches agree. Where the oracle decides each formula by itself, somebody who submits
before querying sees the same answers and sizes, whether the formulas are asked about in batches or
one by one on any number of workers; and in the end both have asked about the same formulas, each
once. -/
namespace ClauseDiscovery

/-- Every call is answered by one verdict for each formula, whatever else the call is about. -/
def Oracle.Decides (o : Oracle) (g : Formula → Bool) : Prop :=
  ∀ call vocabulary interpretations φs,
    o.reply call vocabulary interpretations φs = .verdicts (φs.map g)

/-- The answer that is due to a call. -/
def Call.due (g : Formula → Bool) : Call → Option (Except Interruption Bool)
  | submit _ => none
  | query φ => some (.ok (g φ))

/-- All formulas sent to the oracle, call by call. -/
def sent (es : List Exchange) : List Formula := es.flatMap (·.formulas)

variable {p : Problem} {o : Oracle} {g : Formula → Bool} {es : List Exchange} {φ : Formula}
  {v : Bool} {calls : List Call} {k : Call} {asked : List Formula}

namespace Oracle.Decides

variable (h : o.Decides g)
include h

theorem checked_answer (call : Nat) (φs : List Formula) :
    (o.answer p call φs).checked φs.length = .verdicts (φs.map g) := by
  rw [Oracle.answer,h call]
  exact if_pos (List.length_map g)

theorem eq_of_isVerdict (hv : IsVerdict p o es φ v) : v = g φ := by
  obtain ⟨i,k,batch,vs,-,ho,-,hφ,hv,-⟩ := hv
  rw [Oracle.answer,h i] at ho
  cases ho
  rw [List.getElem?_map,hφ] at hv
  exact (Option.some.inj hv).symm

theorem eq_of_isAnswer {a : Except ValidityError Bool} (ha : IsAnswer p o es φ a) :
    a = .ok (g φ) := by
  obtain ⟨n,-,rfl⟩ := ha
  rw [Oracle.answer,h n]
  rfl

/-- No call fails, so what is sent is settled. -/
theorem settledBy_eq_sent (hr : Recorded p o es) : settledBy es = sent es := by
  refine List.flatMap_congr fun e he => if_pos ?_
  obtain ⟨i,hi⟩ := List.getElem?_of_mem he
  exact Exchange.succeeded_iff.mpr ⟨_,(hr i e hi).trans (h.checked_answer i e.formulas)⟩

end Oracle.Decides

namespace BatchCache

variable {c : BatchCache}

theorem consistent_serve (p : Problem) (o : Oracle) (calls : List Call) :
    Consistent p o (calls.map (·.formula)) ((ofProblem p o).serve calls) := by
  simpa [serve,List.filterMap_map,Function.comp_def] using
    consistent_run p o (calls.map (·.operation))

namespace Consistent

theorem ask_of_decides (h : Consistent p o asked c) (ho : o.Decides g) :
    c.ask.1 = .verdicts (c.pending.map g) := by
  rw [← h.oracle_eq] at ho
  exact ho.checked_answer (p := c.problem) c.exchanges.length c.pending

theorem query_of_decides (h : Consistent p o asked c) (ho : o.Decides g) (φ : Formula) :
    (c.query φ).1 = .ok (g φ) := by
  suffices hok : ∃ v, (c.query φ).1 = .ok v by
    obtain ⟨v,hv⟩ := hok
    rw [hv,ho.eq_of_isVerdict ((h.query φ).isVerdict (h.cached?_of_query hv))]
  rcases h.query_cases φ with ⟨v,-,hq⟩ | ⟨hn,⟨vs,v,-,-,hq⟩ | ⟨e,hr,-⟩ | ⟨q,hr,-⟩⟩
  · exact ⟨v,by rw [hq]⟩
  · exact ⟨v,by rw [hq]⟩
  all_goals
    rw [(h.awaiting hn).1.ask_of_decides ho] at hr
    cases hr

theorem flush_of_decides (h : Consistent p o asked c) (ho : o.Decides g) :
    c.flush.1 = .ok () ∧ c.flush.2.pending = [] := by
  rcases c.flush_cases with ⟨hp,hf⟩ | ⟨-,⟨vs,-,hf⟩ | ⟨e,hr,-⟩ | ⟨q,hr,-⟩⟩
  · rw [hf]
    exact ⟨rfl,hp⟩
  · rw [hf]
    exact ⟨rfl,rfl⟩
  all_goals
    rw [h.ask_of_decides ho] at hr
    cases hr

theorem sent_flush (h : Consistent p o asked c) (ho : o.Decides g) :
    sent c.flush.2.exchanges = asked.eraseDups := by
  rw [← ho.settledBy_eq_sent h.flush.recorded,← h.flush.order,(h.flush_of_decides ho).2,
    List.append_nil]

end Consistent

theorem observe_serve (ho : o.Decides g) (calls : List Call) (k : Call) :
    ((ofProblem p o).serve calls).observe k =
      ⟨k.due g,((calls ++ [k]).map (·.formula)).eraseDups.length⟩ := by
  have h := consistent_serve p o calls
  rw [List.map_append]
  cases k with
  | submit φ => rw [observe,(h.submit φ).size_eq]; rfl
  | query φ => rw [observe,h.query_of_decides ho φ,(h.query φ).size_eq]; rfl

end BatchCache

namespace SharedCache

variable {c d : SharedCache} {obs : List Observation} {events : List Event} {n : Nat}
  {a : Option (Except Interruption Bool)}

theorem Session.due_of_result? (h : Session (ofProblem p o n) calls obs c) (ho : o.Decides g)
    (hc : Announced (calls ++ [k])) (hes : ∀ e ∈ events, ¬ e.Begins)
    (ha : (c.perform (k.event :: events)).result? c.callers.length = some a) : a = k.due g := by
  obtain ⟨κ,hκ,hcall⟩ := getElem?_callers_perform_event (c := c) (k := k) hes
  obtain ⟨μ,hμ,hr⟩ := Option.bind_eq_some_iff.mp ha
  obtain rfl : κ = μ := Option.some.inj (hκ.symm.trans hμ)
  cases κ <;> simp [Caller.result?] at hr <;> cases hcall
  · exact hr.symm
  · rename_i φ b
    have hsub : .submitted φ ∈ c.callers :=
      h.submitted_iff.mpr ((announced_append_singleton.mp hc).2 φ rfl)
    rcases h.coherent.query events (answer?_eq_some_iff.mpr ⟨φ,hκ⟩) with ⟨-,hm⟩ | hb
    · exact absurd hsub hm
    · rw [← hr,ho.eq_of_isAnswer hb]
      rfl

theorem Session.size_eq (h : Session (ofProblem p o n) calls obs c) (hc : Announced calls) :
    c.size = (calls.map (·.formula)).eraseDups.length := by
  rw [size,← Std.HashMap.length_keys]
  refine List.Perm.length_eq ((List.perm_ext_iff_of_nodup Std.HashMap.nodup_keys ?_).mpr ?_)
  · exact nodup_eraseDups _
  · intro φ
    rw [Std.HashMap.mem_keys,h.mem_table_iff,List.mem_eraseDups,hc.mem_map_formula]

theorem Session.observations_eq (h : Session (ofProblem p o n) calls obs c) (ho : o.Decides g)
    (hc : Announced calls) : obs = (BatchCache.ofProblem p o).observations calls := by
  induction h with
  | start => rfl
  | @call calls obs d k events a hd hes ha ih =>
    rw [BatchCache.observations_append_singleton,BatchCache.observe_serve ho,
      ← ih (announced_append_singleton.mp hc).1,hd.due_of_result? ho hc hes ha,
      (hd.call k events a hes ha).size_eq hc]

theorem Coherent.nodup_sent (h : Coherent p o c) : (sent c.exchanges).Nodup := by
  refine List.nodup_flatMap.mpr ⟨fun e he => ?_,?_⟩
  · obtain ⟨φ,-,hφ⟩ := h.asked e he
    rw [hφ]
    exact List.nodup_singleton φ
  · refine List.Pairwise.imp_of_mem ?_ (List.pairwise_map.mp h.nodup_exchanges)
    intro e f he hf hne φ hφe hφf
    obtain ⟨ψ,-,hψ⟩ := h.asked e he
    obtain ⟨χ,-,hχ⟩ := h.asked f hf
    simp only [hψ,hχ,List.mem_singleton] at hφe hφf
    exact hne (by rw [hψ,hχ,← hφe,← hφf])

theorem Session.mem_sent_iff (h : Session (ofProblem p o n) calls obs c)
    (hdone : ∀ x ∈ c.checks, x.stage = .done) : φ ∈ sent c.exchanges ↔ .submit φ ∈ calls := by
  have hco := h.coherent
  rw [← h.mem_table_iff]
  constructor
  · intro hφ
    obtain ⟨e,he,hφe⟩ := List.mem_flatMap.mp hφ
    obtain ⟨ψ,hψ,heψ⟩ := hco.asked e he
    obtain rfl : φ = ψ := by simpa [heψ] using hφe
    refine (hco.entered φ hψ).resolve_right fun hkept => ?_
    obtain ⟨k,hk⟩ := h.guarded.keeper φ hkept
    obtain ⟨i,hi⟩ := List.getElem?_of_mem hk
    obtain ⟨a,ha⟩ := h.result? (List.getElem?_eq_some_iff.mp hi).1
    simp [SharedCache.result?,hi,Caller.result?] at ha
  · intro hφ
    obtain ⟨k,hk⟩ := Option.isSome_iff_exists.mp (Std.HashMap.mem_iff_isSome_getElem?.mp hφ)
    obtain ⟨x,hx,rfl⟩ := exists_check (hco.entries φ k hk)
    obtain ⟨r,hr,-⟩ := hco.agreesAt hx (hdone x (List.mem_of_getElem? hx))
    exact List.mem_flatMap.mpr ⟨_,hr,List.mem_singleton.mpr rfl⟩

/-- The calls can be made, and the checks can all be done. -/
theorem exists_session (p : Problem) (o : Oracle) (n : Nat) (calls : List Call) :
    ∃ obs c, Session (ofProblem p o n) calls obs c ∧ c.Quiet := by
  induction calls using List.reverseRecOn with
  | nil => exact ⟨[],_,.start,by simp [ofProblem],by simp [ofProblem]⟩
  | append_singleton calls k ih =>
    obtain ⟨obs,c,h,-⟩ := ih
    obtain ⟨rest,hrest,hquiet⟩ :=
      exists_quiet (h.coherent.perform [k.event]) (h.guarded.perform [k.event])
    have hq : (c.perform (k.event :: rest)).Quiet := hquiet
    have hlen := length_callers_perform_event (c := c) (k := k) hrest
    obtain ⟨a,ha⟩ := hq.exists_result? (i := c.callers.length) (by omega)
    exact ⟨_,_,.call k rest a h hrest ha,hq⟩

end SharedCache

/-- One cache may stand for the other in a session of these calls. In whatever order the steps come,
both show the same answers, which are the oracle's, and the same sizes; after a flush of the one,
and once all checks of the other are done, both have sent the same formulas, each once. The calls
return in every order of the steps that goes on as long as it can. -/
structure Interchangeable (p : Problem) (o : Oracle) (g : Formula → Bool) (requested : Nat)
    (calls : List Call) : Prop where
  observations_eq : ∀ obs c, (SharedCache.ofProblem p o requested).Session calls obs c →
    obs = (BatchCache.ofProblem p o).observations calls
  answers_eq : ((BatchCache.ofProblem p o).observations calls).map (·.answer) = calls.map (·.due g)
  flush_eq : ((BatchCache.ofProblem p o).serve calls).flush.1 = .ok ()
  sent_once : ∀ obs c, (SharedCache.ofProblem p o requested).Session calls obs c →
    (∀ x ∈ c.checks, x.stage = .done) →
    (sent c.exchanges).Nodup ∧
      (sent ((BatchCache.ofProblem p o).serve calls).flush.2.exchanges).Nodup ∧
      ∀ φ, φ ∈ sent c.exchanges ↔
        φ ∈ sent ((BatchCache.ofProblem p o).serve calls).flush.2.exchanges
  returns : ∀ before obs c k events, before ++ [k] <+: calls →
    (SharedCache.ofProblem p o requested).Session before obs c → (∀ e ∈ events, ¬ e.Begins) →
    (c.beginning k).Possible events →
    events.length ≤ (c.beginning k).remaining ∧
      ((∀ e, ¬ e.Begins → (c.perform (k.event :: events)).step? e = none) →
        ∃ a, (c.perform (k.event :: events)).result? c.callers.length = some a)
  finishes : ∃ obs c, (SharedCache.ofProblem p o requested).Session calls obs c ∧
    ∀ x ∈ c.checks, x.stage = .done

theorem BatchCache.answers_eq (p : Problem) (ho : o.Decides g) (calls : List Call) :
    ((ofProblem p o).observations calls).map (·.answer) = calls.map (·.due g) := by
  induction calls using List.reverseRecOn with
  | nil => rfl
  | append_singleton calls k ih =>
    rw [observations_append_singleton,List.map_append,List.map_append,ih,observe_serve ho]
    rfl

/-- For every oracle that decides each formula by itself, every session in which formulas are
submitted before they are queried, and any number of workers. -/
theorem interchangeable_of_announced (p : Problem) (requested : Nat) (ho : o.Decides g)
    (hc : Announced calls) : Interchangeable p o g requested calls where
  observations_eq _ _ h := h.observations_eq ho hc
  answers_eq := BatchCache.answers_eq p ho calls
  flush_eq := ((BatchCache.consistent_serve p o calls).flush_of_decides ho).1
  sent_once obs c h hdone := by
    have hflush := (BatchCache.consistent_serve p o calls).sent_flush ho
    refine ⟨h.coherent.nodup_sent,hflush ▸ nodup_eraseDups _,fun φ => ?_⟩
    rw [hflush,h.mem_sent_iff hdone,List.mem_eraseDups,hc.mem_map_formula]
  returns before obs c k events _ h hes hp :=
    ⟨SharedCache.length_le_remaining hes hp,SharedCache.exists_result? h.coherent h.guarded hes⟩
  finishes := by
    obtain ⟨obs,c,h,hq⟩ := SharedCache.exists_session p o requested calls
    exact ⟨obs,c,h,hq.done⟩

def factsOnly : Oracle := ⟨fun _ _ _ φs => .verdicts (φs.map (·.body.isEmpty))⟩

/-- Two formulas; both are queried, one after it has been submitted again. -/
def twoFormulas : List Call :=
  let fact : Formula := ⟨[],[⟨⟨"p",[]⟩,[]⟩]⟩
  let rule : Formula := ⟨[⟨⟨"q",[]⟩,[]⟩],[⟨⟨"p",[]⟩,[]⟩]⟩
  [.submit rule,.submit fact,.query fact,.submit rule,.query rule]

theorem interchangeable_twoFormulas : factsOnly.Decides (·.body.isEmpty) ∧ Announced twoFormulas ∧
    Interchangeable ⟨{},[],[]⟩ factsOnly (·.body.isEmpty) 3 twoFormulas := by
  have ho : factsOnly.Decides (·.body.isEmpty) := fun _ _ _ _ => rfl
  have hc : Announced twoFormulas := by
    intro i φ hi
    match i with
    | 0 | 1 | 3 => simp [twoFormulas] at hi
    | 2 | 4 =>
      obtain rfl : _ = φ := by simpa [twoFormulas] using hi
      decide
    | n+5 => simp [twoFormulas] at hi
  exact ⟨ho,hc,interchangeable_of_announced _ 3 ho hc⟩

end ClauseDiscovery
