import ClauseDiscovery.Proofs.Memo.Accounts
import ClauseDiscovery.Proofs.Memo.Session

/-! What the counters of a cache that threads share say. Callers and checks count as they go, in any
order; between any two steps each counter is the number of those that have come past the place where
they count. So once all calls have returned and all checks are done, the counters agree with each
other and with the table. -/
namespace ClauseDiscovery

/-- A submission that is counted and has not looked for its formula yet. -/
def Caller.isEntering : Caller → Bool
  | .entering _ => true
  | _ => false

/-- A query that has found its formula. One that has not is told so. -/
def Caller.hasFound : Caller → Bool
  | .holding _ _ | .waiting _ _ => true
  | .answered _ (.error (.notSubmitted _)) => false
  | .answered _ _ => true
  | .submitting _ | .entering _ | .inserting _ _ | .submitted _ | .querying _ => false

def Caller.hasLooked : Caller → Bool
  | .holding _ _ => false
  | κ => κ.hasFound

def Check.hasCounted (x : Check) : Bool :=
  match x.stage with
  | .queued | .started => false
  | .counted | .asked _ | .judged _ | .done => true

def Outcome.isFailed : Outcome Verdict → Bool
  | .ok (.ok _) | .error (.panicked _) => false
  | .ok (.error _) | .error .abandoned => true

def Check.hasFailed (x : Check) : Bool :=
  match x.stage with
  | .queued | .started | .counted | .asked _ => false
  | .judged r => r.isFailed
  | .done => x.task.result.any (·.isFailed)

@[simp] theorem Caller.hasFound_answerOf (φ : Formula) (r : Outcome Verdict) :
    (Caller.answered φ (answerOf r)).hasFound = true := by
  unfold answerOf
  split <;> rfl

theorem Reply.isFailed_outcome {r : Reply} (h : ∀ e, r.outcome ≠ .ok (.error e)) :
    Outcome.isFailed r.outcome = false := by
  cases hr : r.outcome with
  | ok v =>
    cases v with
    | ok b => rfl
    | error e => exact absurd hr (h e)
  | error f =>
    cases f with
    | panicked reason => rfl
    | abandoned => exact absurd hr r.outcome_ne_abandoned

namespace SharedCache

variable {p : Problem} {o : Oracle} {c d : SharedCache} {φ : Formula} {κ μ : Caller}
  {x y : Check} {i k : Nat} {e : Event}

structure Counted (c : SharedCache) : Prop where
  submissions : c.counters.submissions - c.counters.duplicates =
    (c.callers.countP (·.isEntering) + c.checks.length).toUInt64
  submitted : c.submitted = c.checks.length.toUInt64
  lookups : c.counters.hits + c.counters.misses = (c.callers.countP (·.hasLooked)).toUInt64
  calls : c.counters.calls = (c.checks.countP (·.hasCounted)).toUInt64
  evaluated : c.counters.evaluated = (c.checks.countP (·.hasCounted)).toUInt64
  failures : c.counters.failures = (c.checks.countP (·.hasFailed)).toUInt64

theorem counted_ofProblem (p : Problem) (o : Oracle) (n : Nat) : Counted (ofProblem p o n) where
  submissions := by simp [ofProblem,Counters.zero]
  submitted := rfl
  lookups := rfl
  calls := rfl
  evaluated := rfl
  failures := rfl

namespace Counted

theorem begin (h : Counted c) (he : κ.isEntering = false) (hl : κ.hasLooked = false) :
    Counted { c with callers := c.callers ++ [κ] } := by
  refine { h with submissions := ?_, lookups := ?_ }
  · simpa [he] using h.submissions
  · simpa [hl] using h.lookups

theorem setCaller (h : Counted c) (hκ : c.callers[i]? = some κ)
    (he : μ.isEntering = κ.isEntering) (hl : μ.hasLooked = κ.hasLooked) :
    Counted (c.setCaller i μ) := by
  refine { h with submissions := ?_, lookups := ?_ }
  · exact h.submissions.trans (by rw [← countP_set_of_eq hκ he]; rfl)
  · exact h.lookups.trans (by rw [← countP_set_of_eq hκ hl]; rfl)

theorem setCheck (h : Counted c) (hx : c.checks[i]? = some x) (hc : y.hasCounted = x.hasCounted)
    (hf : y.hasFailed = x.hasFailed) : Counted { c with checks := c.checks.set i y } where
  submissions := by simpa using h.submissions
  submitted := by simpa using h.submitted
  lookups := h.lookups
  calls := h.calls.trans (by rw [countP_set_of_eq hx hc])
  evaluated := h.evaluated.trans (by rw [countP_set_of_eq hx hc])
  failures := h.failures.trans (by rw [countP_set_of_eq hx hf])

theorem announce (h : Counted c) (hκ : c.callers[i]? = some (.submitting φ)) :
    Counted ({ c with counters := c.counters.submission }.setCaller i (.entering φ)) := by
  refine { h with submissions := ?_, lookups := ?_ }
  · have hs := h.submissions
    have hentering := countP_set_of_gain (q := (·.isEntering)) hκ (y := .entering φ) rfl rfl
    rw [SharedCache.setCaller,hentering,Nat.add_right_comm,toUInt64_add,← hs,Counters.submission]
    grind
  · exact h.lookups.trans (by rw [← countP_set_of_eq hκ (y := .entering φ) rfl]; rfl)

theorem repeated (h : Counted c) (hκ : c.callers[i]? = some (.entering φ)) :
    Counted ({ c with counters := c.counters.duplicate }.setCaller i (.submitted φ)) := by
  refine { h with submissions := ?_, lookups := ?_ }
  · have hs := h.submissions
    have hentering := countP_set_of_loss (q := (·.isEntering)) hκ (y := .submitted φ) rfl rfl
    rw [hentering,Nat.add_right_comm,toUInt64_add] at hs
    rw [SharedCache.setCaller,Counters.duplicate]
    grind
  · exact h.lookups.trans (by rw [← countP_set_of_eq hκ (y := .submitted φ) rfl]; rfl)

/-- A submission ceases to look for its formula, and there is a check for it instead. -/
theorem schedule (h : Counted c) (hκ : c.callers[i]? = some (.entering φ)) :
    Counted ((c.schedule φ).setCaller i (.inserting φ c.checks.length)) := by
  have hc : (Check.ofFormula φ).hasCounted = false := rfl
  have hf : (Check.ofFormula φ).hasFailed = false := rfl
  constructor
  · have hentering := countP_set_of_loss (q := (·.isEntering)) hκ
      (y := .inserting φ c.checks.length) rfl rfl
    refine h.submissions.trans (congrArg Nat.toUInt64 ?_)
    simp only [SharedCache.setCaller,callers_schedule,checks_schedule,List.length_append,
      List.length_singleton]
    omega
  · simp only [SharedCache.setCaller,checks_schedule,List.length_append,List.length_singleton]
    rw [toUInt64_add,← h.submitted]
    rfl
  · refine h.lookups.trans ?_
    rw [← countP_set_of_eq hκ (y := .inserting φ c.checks.length) rfl]
    rfl
  · simpa [SharedCache.setCaller,hc] using h.calls
  · simpa [SharedCache.setCaller,hc] using h.evaluated
  · simpa [SharedCache.setCaller,hf] using h.failures

theorem look (h : Counted c) (hκ : c.callers[i]? = some (.holding φ k)) (finished : Bool) :
    Counted ({ c with counters := if finished then c.counters.hit else c.counters.miss }
      |>.setCaller i (.waiting φ k)) := by
  have hl := h.lookups
  have hlooked := countP_set_of_gain (q := (·.hasLooked)) hκ (y := .waiting φ k) rfl rfl
  have hentering := countP_set_of_eq (q := (·.isEntering)) hκ (y := .waiting φ k) rfl
  cases finished
  all_goals
    refine { h with submissions := ?_, lookups := ?_ }
    · exact h.submissions.trans (by rw [← hentering]; rfl)
    · rw [SharedCache.setCaller,hlooked,toUInt64_add,← hl]
      grind [Counters.hit,Counters.miss]

theorem count (h : Counted c) (hx : c.checks[i]? = some x) (hs : x.stage = .started) :
    Counted ({ c with counters := c.counters.call 1 }.setStage i .counted) := by
  have hc := countP_set_of_gain (q := (·.hasCounted)) hx (y := { x with stage := .counted })
    (by simp [Check.hasCounted,hs]) rfl
  have hf := countP_set_of_eq (q := (·.hasFailed)) hx (y := { x with stage := .counted })
    (by simp [Check.hasFailed,hs])
  rw [setStage_eq (c := { c with counters := c.counters.call 1 }) hx]
  constructor
  · rw [List.length_set]
    exact h.submissions
  · rw [List.length_set]
    exact h.submitted
  · exact h.lookups
  · rw [hc,toUInt64_add,← h.calls]
    rfl
  · rw [hc,toUInt64_add,← h.evaluated]
    rfl
  · exact h.failures.trans (by rw [hf])

theorem fail (h : Counted c) (hx : c.checks[i]? = some x) {reply : Reply}
    (hs : x.stage = .asked reply) {r : Outcome Verdict} (hr : r.isFailed = true) :
    Counted ({ c with counters := c.counters.failure }.setStage i (.judged r)) := by
  have hc := countP_set_of_eq (q := (·.hasCounted)) hx (y := { x with stage := .judged r })
    (by simp [Check.hasCounted,hs])
  have hf := countP_set_of_gain (q := (·.hasFailed)) hx (y := { x with stage := .judged r })
    (by simp [Check.hasFailed,hs]) hr
  rw [setStage_eq (c := { c with counters := c.counters.failure }) hx]
  constructor
  · rw [List.length_set]
    exact h.submissions
  · rw [List.length_set]
    exact h.submitted
  · exact h.lookups
  · exact h.calls.trans (by rw [hc])
  · exact h.evaluated.trans (by rw [hc])
  · rw [hf,toUInt64_add,← h.failures]
    rfl

theorem step (h : Counted c) (hco : Coherent p o c) (hd : Step c d) : Counted d := by
  cases hd with
  | submit φ => exact h.begin rfl rfl
  | query φ => exact h.begin rfl rfl
  | announce hκ => exact h.announce hκ
  | repeated hκ hkept htable => exact h.repeated hκ
  | schedule hκ hkept htable => exact h.schedule hκ
  | insert hκ => exact setCaller (c := { c with table := _, kept := _ }) { h with } hκ rfl rfl
  | missing hκ hkept htable => exact h.setCaller hκ rfl rfl
  | found hκ hkept htable => exact h.setCaller hκ rfl rfl
  | look hκ hx => exact h.look hκ _
  | receive hκ hx hr => exact h.setCaller hκ rfl (Caller.hasFound_answerOf _ _)
  | start hx hs hbusy =>
    rw [setStage_eq hx]
    exact h.setCheck hx (by simp [Check.hasCounted,hs]) (by simp [Check.hasFailed,hs])
  | count hx hs => exact h.count hx hs
  | @ask i x hx hs =>
    have hset := h.setCheck hx (y := { x with stage := .asked (c.ask x.formula).1 })
      (by simp [Check.hasCounted,hs]) (by simp [Check.hasFailed,hs])
    rw [setStage_ask hx]
    exact { hset with }
  | fail hx hs he => exact h.fail hx hs (by rw [he]; rfl)
  | judge hx hs he =>
    rw [setStage_eq hx]
    refine h.setCheck hx (by simp [Check.hasCounted,hs]) ?_
    simpa [Check.hasFailed,hs] using Reply.isFailed_outcome he
  | @finish i x r hx hs =>
    have hpending : x.task = .pending := (hco.agreesAt hx hs).1
    refine h.setCheck hx (by simp [Check.hasCounted,hs]) ?_
    simp [Check.hasFailed,hs,hpending]

theorem perform (h : Counted c) (hco : Coherent p o c) (events : List Event) :
    Counted (c.perform events) :=
  (perform_induction (P := fun c => Coherent p o c ∧ Counted c)
    (fun _ _ _ h hd => ⟨h.1.step (step_of_step? hd),h.2.step h.1 (step_of_step? hd)⟩)
    ⟨hco,h⟩ events).2

end Counted

/-- Whether the next step of a caller is to look for the formula of a query, and finds it. -/
def looksUp (c : SharedCache) : Caller → Bool
  | .querying φ => decide (φ ∉ c.kept ∧ φ ∈ c.table)
  | _ => false

def Event.finds (c : SharedCache) : Event → Bool
  | .advance i => c.callers[i]?.any c.looksUp
  | .submit _ | .query _ | .work _ => false

def found (c : SharedCache) : List Event → Nat
  | [] => 0
  | e :: events => (e.finds c).toNat + ((c.step? e).getD c).found events

theorem countP_hasFound_of_advance? (hκ : c.callers[i]? = some κ) (h : c.advance? i κ = some d) :
    d.callers.countP (·.hasFound) = c.callers.countP (·.hasFound) + (c.looksUp κ).toNat := by
  cases κ with
  | submitting φ =>
    cases h
    exact countP_set_of_eq hκ rfl
  | entering φ =>
    simp only [advance?,Option.ite_none_left_eq_some] at h
    obtain ⟨-,h⟩ := h
    split at h
    all_goals
      cases h
      exact countP_set_of_eq hκ rfl
  | inserting φ k =>
    cases h
    exact countP_set_of_eq hκ rfl
  | submitted φ => cases h
  | querying φ =>
    simp only [advance?,Option.ite_none_left_eq_some] at h
    obtain ⟨hkept,h⟩ := h
    cases htable : c.table[φ]? with
    | none =>
      have hno : c.looksUp (.querying φ) = false := by
        simp [looksUp,Std.HashMap.mem_iff_isSome_getElem?,htable]
      rw [htable] at h
      cases h
      rw [hno]
      exact countP_set_of_eq hκ rfl
    | some k =>
      have hyes : c.looksUp (.querying φ) = true := by
        simp [looksUp,Std.HashMap.mem_iff_isSome_getElem?,htable,hkept]
      rw [htable] at h
      cases h
      rw [hyes]
      exact countP_set_of_gain hκ rfl rfl
  | holding φ k =>
    obtain ⟨x,hx,rfl⟩ := Option.map_eq_some_iff.mp h
    exact countP_set_of_eq hκ rfl
  | waiting φ k =>
    obtain ⟨r,hr,rfl⟩ := Option.map_eq_some_iff.mp h
    exact countP_set_of_eq hκ (Caller.hasFound_answerOf φ r)
  | answered φ a => cases h

theorem countP_hasFound_of_step? (h : c.step? e = some d) :
    d.callers.countP (·.hasFound) = c.callers.countP (·.hasFound) + (e.finds c).toNat := by
  cases e with
  | submit φ =>
    cases h
    simp [Event.finds,Caller.hasFound]
  | query φ =>
    cases h
    simp [Event.finds,Caller.hasFound]
  | advance i =>
    obtain ⟨κ,hκ,hd⟩ := Option.bind_eq_some_iff.mp h
    rw [Event.finds,hκ]
    exact countP_hasFound_of_advance? hκ hd
  | work i =>
    obtain ⟨x,hx,hd⟩ := Option.bind_eq_some_iff.mp h
    rw [callers_of_work? hd]
    rfl

theorem finds_of_step?_eq_none (h : c.step? e = none) : e.finds c = false := by
  cases e with
  | advance i =>
    simp only [step?] at h
    rw [Event.finds]
    cases hκ : c.callers[i]? with
    | none => rfl
    | some κ =>
      rw [hκ,Option.bind_some] at h
      cases κ with
      | querying φ =>
        refine decide_eq_false ?_
        rintro ⟨hkept,htable⟩
        obtain ⟨k,hk⟩ :=
          Option.isSome_iff_exists.mp (Std.HashMap.mem_iff_isSome_getElem?.mp htable)
        simp [advance?,hkept,hk] at h
      | _ => rfl
  | _ => rfl

theorem countP_hasFound_perform (c : SharedCache) (events : List Event) :
    (c.perform events).callers.countP (·.hasFound) =
      c.callers.countP (·.hasFound) + c.found events := by
  induction events generalizing c with
  | nil => rfl
  | cons e events ih =>
    have hnext : ((c.step? e).getD c).callers.countP (·.hasFound) =
        c.callers.countP (·.hasFound) + (e.finds c).toNat := by
      cases hd : c.step? e with
      | none => simp [finds_of_step?_eq_none hd]
      | some d => exact countP_hasFound_of_step? hd
    rw [found,← Nat.add_assoc,← hnext]
    exact ih _

def outcome? (c : SharedCache) (φ : Formula) : Option (Outcome Verdict) :=
  c.table[φ]?.bind fun k => c.checks[k]?.bind (·.task.result)

namespace Quiet

theorem kept_eq_nil (hq : Quiet c) (hg : Guarded c) : c.kept = [] := by
  rw [List.eq_nil_iff_forall_not_mem]
  intro φ hφ
  obtain ⟨k,hk⟩ := hg.keeper φ hφ
  rcases hq.returned _ hk with ⟨ψ,hψ⟩ | ⟨ψ,a,hψ⟩
  · cases hψ
  · cases hψ

theorem countP_isEntering (hq : Quiet c) : c.callers.countP (·.isEntering) = 0 := by
  rw [List.countP_eq_zero]
  intro κ hκ
  rcases hq.returned κ hκ with ⟨φ,rfl⟩ | ⟨φ,a,rfl⟩
  all_goals exact Bool.false_ne_true

theorem countP_hasLooked (hq : Quiet c) :
    c.callers.countP (·.hasLooked) = c.callers.countP (·.hasFound) := by
  refine List.countP_congr fun κ hκ => ?_
  rcases hq.returned κ hκ with ⟨φ,rfl⟩ | ⟨φ,a,rfl⟩
  all_goals rfl

theorem countP_hasCounted (hq : Quiet c) :
    c.checks.countP (·.hasCounted) = c.checks.length := by
  rw [List.countP_eq_length]
  intro x hx
  simp [Check.hasCounted,hq.done x hx]

theorem keys_perm (hq : Quiet c) (hg : Guarded c) (h : Coherent p o c) :
    c.table.keys.Perm c.scheduled := by
  refine (List.perm_ext_iff_of_nodup Std.HashMap.nodup_keys h.nodup_scheduled).mpr fun φ => ?_
  rw [Std.HashMap.mem_keys]
  constructor
  · intro hφ
    obtain ⟨k,hk⟩ := Option.isSome_iff_exists.mp (Std.HashMap.mem_iff_isSome_getElem?.mp hφ)
    exact List.mem_of_getElem? (h.entries φ k hk)
  · intro hφ
    refine (h.entered φ hφ).resolve_right ?_
    simp [hq.kept_eq_nil hg]

theorem size_eq (hq : Quiet c) (hg : Guarded c) (h : Coherent p o c) :
    c.size = c.checks.length := by
  have hlen := (hq.keys_perm hg h).length_eq
  rwa [Std.HashMap.length_keys,scheduled,List.length_map] at hlen

theorem outcome?_eq (hq : Quiet c) (hg : Guarded c) (h : Coherent p o c)
    (hx : c.checks[i]? = some x) : c.outcome? x.formula = x.task.result := by
  have hentered : x.formula ∈ c.table := by
    rw [← Std.HashMap.mem_keys,(hq.keys_perm hg h).mem_iff]
    exact List.mem_of_getElem? (getElem?_scheduled hx)
  obtain ⟨k,hk⟩ := Option.isSome_iff_exists.mp (Std.HashMap.mem_iff_isSome_getElem?.mp hentered)
  obtain ⟨y,hy,hf⟩ := exists_check (h.entries _ k hk)
  obtain rfl : k = i := index_eq_of_formula h.nodup_scheduled hy hx hf
  rw [outcome?,hk,Option.bind_some,hx,Option.bind_some]

theorem countP_hasFailed (hq : Quiet c) (hg : Guarded c) (h : Coherent p o c) :
    c.checks.countP (·.hasFailed) =
      c.table.keys.countP fun φ => (c.outcome? φ).any (·.isFailed) := by
  rw [(hq.keys_perm hg h).countP_eq,scheduled,List.countP_map]
  refine List.countP_congr fun x hx => ?_
  obtain ⟨i,hi⟩ := List.getElem?_of_mem hx
  simp only [Check.hasFailed,hq.done x hx,Function.comp_apply,hq.outcome?_eq hg h hi]

end Quiet

/-- The accounts of a cache at rest, after a run in which so many look-ups found their formula. The
formulas in the table are those that have been submitted, and for each of them there is one check,
which has been put into the pool and counted there once. -/
structure Accounted (found : Nat) (c : SharedCache) : Prop where
  entries : ∀ φ, φ ∈ c.table ↔ .submitted φ ∈ c.callers
  submissions : c.counters.submissions - c.counters.duplicates = c.size.toUInt64
  jobs : c.checks.length = c.size
  submitted : c.submitted = c.size.toUInt64
  calls : c.counters.calls = c.size.toUInt64
  evaluated : c.counters.evaluated = c.size.toUInt64
  failures : c.counters.failures =
    (c.table.keys.countP fun φ => (c.outcome? φ).any (·.isFailed)).toUInt64
  lookups : c.counters.hits + c.counters.misses = found.toUInt64

/-- Whatever the oracle does, however many workers there are, and in whatever order the steps of
all callers and checks come: once all calls have returned and all checks are done. -/
theorem accounted_of_quiet (p : Problem) (o : Oracle) (requested : Nat) (events : List Event)
    (hq : ((ofProblem p o requested).perform events).Quiet) :
    Accounted ((ofProblem p o requested).found events)
      ((ofProblem p o requested).perform events) := by
  have hco := (coherent_ofProblem p o requested).perform events
  have hg := (guarded_ofProblem p o requested).perform events
  have h := (counted_ofProblem p o requested).perform (coherent_ofProblem p o requested) events
  have hfound := countP_hasFound_perform (ofProblem p o requested) events
  have hsize := hq.size_eq hg hco
  constructor
  · exact fun φ => ⟨submitted_of_mem_table,fun hm => hco.allows _ hm⟩
  · rw [h.submissions,hq.countP_isEntering,Nat.zero_add,hsize]
  · exact hsize.symm
  · rw [h.submitted,hsize]
  · rw [h.calls,hq.countP_hasCounted,hsize]
  · rw [h.evaluated,hq.countP_hasCounted,hsize]
  · rw [h.failures,hq.countP_hasFailed hg hco]
  · rw [h.lookups,hq.countP_hasLooked,hfound]
    exact congrArg Nat.toUInt64 (Nat.zero_add _)

namespace Race

def fact : Formula := ⟨[],[⟨⟨"p",[]⟩,[]⟩]⟩

def rule : Formula := ⟨[⟨⟨"q",[]⟩,[]⟩],[⟨⟨"p",[]⟩,[]⟩]⟩

def down : Oracle := ⟨fun _ _ _ _ => .failed (.invocation "down")⟩

def noWorlds : Problem := ⟨{},[],[]⟩

/-- The fact is submitted twice at the same time, and a query waits for its check; the rule is
queried and has not been submitted. -/
def events : List Event :=
  [.submit fact,.submit fact,.advance 0,.advance 1,.advance 0,.advance 1,.advance 0,.advance 1,
    .query fact,.query rule,.advance 2,.advance 3,.advance 2,
    .work 0,.work 0,.work 0,.work 0,.work 0,.advance 2]

theorem callers_events : ((ofProblem noWorlds down 1).perform events).callers =
    [.submitted fact,.submitted fact,.answered fact (.error (.oracle (.invocation "down"))),
      .answered rule (.error (.notSubmitted rule))] := by
  cbv

theorem stages_events :
    ((ofProblem noWorlds down 1).perform events).checks.map (·.stage) = [.done] := by
  cbv

end Race

open Race in
/-- One of the two queries has found its formula. -/
theorem accounted_race : ((ofProblem noWorlds down 1).perform events).Quiet ∧
    (ofProblem noWorlds down 1).found events = 1 ∧
    Accounted ((ofProblem noWorlds down 1).found events)
      ((ofProblem noWorlds down 1).perform events) := by
  have hq : ((ofProblem noWorlds down 1).perform events).Quiet := by
    constructor
    · rw [callers_events]
      simp
    · intro x hx
      have hs := List.mem_map_of_mem (f := (·.stage)) hx
      rwa [stages_events,List.mem_singleton] at hs
  have hfound : (ofProblem noWorlds down 1).found events = 1 := by
    have hcount := countP_hasFound_perform (ofProblem noWorlds down 1) events
    rw [callers_events] at hcount
    have hnone : (ofProblem noWorlds down 1).callers.countP (·.hasFound) = 0 := rfl
    rw [hnone,Nat.zero_add] at hcount
    exact hcount.symm
  exact ⟨hq,hfound,accounted_of_quiet noWorlds down 1 events hq⟩

end SharedCache
end ClauseDiscovery
