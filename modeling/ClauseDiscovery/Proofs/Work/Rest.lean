import ClauseDiscovery.Proofs.Work.Given

/-! The workers of a pool come to rest. Every step of a worker uses up some of the steps that are
left, and a worker that has no step waits for a bell that nobody has rung, or is gone. -/
namespace ClauseDiscovery

/-- The steps that bring a worker to rest where `n` workers are there to steal from, and no job
is left for it. The batch that it carries has a round for each of its jobs. -/
@[simp] def Phase.rank (n : Nat) : Phase → Nat
  | .gone => 0
  | .idle => 1
  | .others j => 2 + (n - j)
  | .shared => n + 3
  | .own => n + 4
  | .running _ => n + 5
  | .carrying _ batch => n + 6 + (n + 4) * batch.length

def Worker.remaining (n : Nat) (w : Worker) : Nat := (n + 4) * w.queue.length + w.phase.rank n

namespace Pool

variable {α : Type} {p q : Pool α} {i extra : Nat} {w v : Worker}

/-- The steps that the workers have left, if nobody rings. -/
def remaining (p : Pool α) : Nat :=
  (p.workers.length + 4) * (p.shared.length + p.tokens) +
    p.total (·.remaining p.workers.length)

theorem remaining_setWorker (hw : p.workers[i]? = some w) (v : Worker) :
    (p.setWorker i v).remaining + w.remaining p.workers.length =
      p.remaining + v.remaining p.workers.length := by
  have htotal := total_setWorker hw v (·.remaining p.workers.length)
  have hlength : (p.setWorker i v).workers.length = p.workers.length := List.length_set
  have hshared : (p.setWorker i v).shared = p.shared := rfl
  have htokens : (p.setWorker i v).tokens = p.tokens := rfl
  rw [remaining,remaining,hlength,hshared,htokens]
  omega

theorem remaining_setWorker_lt (hw : p.workers[i]? = some w)
    (h : v.remaining p.workers.length < w.remaining p.workers.length) :
    (p.setWorker i v).remaining < p.remaining := by
  have hset := remaining_setWorker hw v
  omega

theorem Move.remaining_lt (h : Move p i w q) (hw : p.workers[i]? = some w) :
    q.remaining < p.remaining := by
  cases h with
  | @take id extra rest hphase hs =>
    have hset := remaining_setWorker (p := { p with shared := rest.drop extra }) hw
      { w with phase := .carrying id (rest.take extra) }
    have hsplit : rest.length = (rest.take extra).length + (rest.drop extra).length := by
      rw [← List.length_append,List.take_append_drop]
    simp only [Pool.remaining,total,Worker.remaining,hphase,hs,Phase.rank,List.length_cons,hsplit,
      Nat.mul_add,Nat.mul_one] at hset ⊢
    omega
  | @wake n hphase hn =>
    have hset := remaining_setWorker (p := { p with tokens := n }) hw { w with phase := .own }
    simp only [Pool.remaining,total,Worker.remaining,hphase,hn,Phase.rank,Nat.mul_add,
      Nat.mul_one] at hset ⊢
    omega
  | @steal j id rest v hphase hji hv hq =>
    have hlt : j < p.workers.length := (List.getElem?_eq_some_iff.mp hv).1
    have hvictim := remaining_setWorker hv { v with queue := rest }
    have hthief := remaining_setWorker
      (getElem?_setWorker_of_ne hji hw { v with queue := rest }) { w with phase := .running id }
    have hlength : (p.setWorker j { v with queue := rest }).workers.length = p.workers.length :=
      List.length_set
    simp only [Worker.remaining,hphase,hq,hlength,Phase.rank,List.length_cons,Nat.mul_add,
      Nat.mul_one] at hvictim hthief
    omega
  | pop hphase hq =>
    refine remaining_setWorker_lt hw ?_
    simp only [Worker.remaining,hphase,hq,Phase.rank,List.length_cons,Nat.mul_add]
    omega
  | store hphase =>
    refine remaining_setWorker_lt hw ?_
    simp only [Worker.remaining,hphase,Phase.rank,List.length_append,Nat.mul_add]
    omega
  | pass hphase | miss hphase | skip hphase | park hphase | leave hphase | finish hphase
  | forget hphase =>
    refine remaining_setWorker_lt (w := w) hw ?_
    simp only [Worker.remaining,hphase,Phase.rank,Worker.queue_credit,Worker.phase_credit]
    omega

theorem remaining_lt_of_work (h : p.step? (.work i extra) = some q) :
    q.remaining < p.remaining := by
  obtain ⟨w,hw,hq⟩ := Option.bind_eq_some_iff.mp h
  exact (move_of_work? hw hq).remaining_lt hw

theorem workFirst?_eq_none_iff : p.workFirst? = none ↔
    ∀ w ∈ p.workers, w.phase = .gone ∨ w.phase = .idle ∧ p.tokens = 0 ∧ p.closed = false := by
  simp only [workFirst?,List.findSome?_eq_none_iff,List.mem_range,step?]
  constructor
  · intro h w hw
    obtain ⟨i,hi⟩ := List.getElem?_of_mem hw
    have hnone := h i (List.getElem?_eq_some_iff.mp hi).1
    rw [hi,Option.bind_some] at hnone
    exact work?_eq_none_iff.mp hnone
  · intro h i hi
    rw [List.getElem?_eq_getElem hi,Option.bind_some]
    exact work?_eq_none_iff.mpr (h _ (List.getElem_mem hi))

theorem exists_work_of_workFirst? (h : p.workFirst? = some q) :
    ∃ i, p.step? (.work i 0) = some q := by
  obtain ⟨i,-,hi⟩ := List.exists_of_findSome?_eq_some h
  exact ⟨i,hi⟩

theorem workFirst?_workSteps {n : Nat} (h : p.remaining ≤ n) :
    (workSteps n p).workFirst? = none := by
  induction n generalizing p with
  | zero =>
    cases hq : p.workFirst? with
    | none => exact hq
    | some q =>
      obtain ⟨i,hi⟩ := exists_work_of_workFirst? hq
      have hlt := remaining_lt_of_work hi
      omega
  | succ n ih =>
    rw [workSteps]
    split
    · assumption
    · rename_i q hq
      obtain ⟨i,hi⟩ := exists_work_of_workFirst? hq
      have hlt := remaining_lt_of_work hi
      exact ih (by omega)

theorem workSteps_induction {P : Pool α → Prop}
    (hstep : ∀ p q i, P p → p.step? (.work i 0) = some q → P q) (h : P p) (n : Nat) :
    P (workSteps n p) := by
  induction n generalizing p with
  | zero => exact h
  | succ n ih =>
    rw [workSteps]
    split
    · exact h
    · rename_i q hq
      obtain ⟨i,hi⟩ := exists_work_of_workFirst? hq
      exact ih (hstep p q i h hi)

theorem rank_le (n : Nat) (phase : Phase) :
    phase.rank n ≤ (n + 4) * phase.inHand.length + (n + 6) := by
  cases phase with
  | carrying id batch =>
    simp only [Phase.rank,Phase.inHand,List.length_cons,Nat.mul_add]
    omega
  | own | shared | others | idle | running | gone =>
    simp only [Phase.rank]
    omega

theorem sum_remaining_le (n : Nat) (ws : List Worker) :
    (ws.map (·.remaining n)).sum ≤
      (n + 4) * (ws.flatMap Worker.holds).length + ws.length * (n + 6) := by
  induction ws with
  | nil => simp
  | cons w ws ih =>
    have hrank := rank_le n w.phase
    simp only [List.map_cons,List.sum_cons,List.flatMap_cons,List.length_append,List.length_cons,
      Worker.remaining,Worker.holds,Nat.mul_add,Nat.add_mul] at *
    omega

theorem remaining_le_stepsLeft (h : Accounted p) : p.remaining ≤ p.stepsLeft := by
  have hlength := h.places.length_eq
  have hsum := sum_remaining_le p.workers.length p.workers
  simp only [places,List.length_append,List.length_range] at hlength
  generalize (p.workers.flatMap Worker.holds).length = held at hlength hsum
  generalize hn : p.workers.length = n at hsum
  calc p.remaining
    _ ≤ (n + 4) * (p.shared.length + p.tokens) + ((n + 4) * held + n * (n + 6)) := by
      rw [remaining,hn]
      exact Nat.add_le_add_left hsum _
    _ = (n + 4) * (p.shared.length + held + p.tokens) + n * (n + 6) := by ring
    _ ≤ (n + 6) * (p.jobs.length + p.tokens) + 2 * n * (n + 6) := by
      gcongr <;> omega
    _ = p.stepsLeft := by
      rw [stepsLeft,hn]
      ring

theorem workFirst?_settle (h : Accounted p) : p.settle.workFirst? = none :=
  workFirst?_workSteps (remaining_le_stepsLeft h)

/-- All that was put into the pool has been run, once, and the workers have counted it. -/
structure Complete (p : Pool α) : Prop where
  ran : p.ran.Perm (List.range p.jobs.length)
  submitted : p.submitted = p.jobs.length
  run : p.runTotal = p.submitted
  panicked : p.panickedTotal = (p.jobs.filter (!·.watched)).countP (!·.ending.isOk)

theorem panicsWorker_eq (j : Job α) : j.panicsWorker = (!j.ending.isOk && !j.watched) := by
  cases h : j.ending <;> simp [Job.panicsWorker,h,Except.isOk,Except.toBool]

theorem countP_panics_range (p : Pool α) : (List.range p.jobs.length).countP p.panics =
    (p.jobs.filter (!·.watched)).countP (!·.ending.isOk) := by
  have hmap : (List.range p.jobs.length).map (p.jobs[·]?) = p.jobs.map some :=
    List.ext_getElem (by simp) (by simp)
  calc (List.range p.jobs.length).countP p.panics
    _ = ((List.range p.jobs.length).map (p.jobs[·]?)).countP (·.any Job.panicsWorker) := by
      rw [List.countP_map]
      rfl
    _ = p.jobs.countP Job.panicsWorker := by
      rw [hmap,List.countP_map]
      rfl
    _ = (p.jobs.filter (!·.watched)).countP (!·.ending.isOk) := by
      rw [List.countP_filter,funext panicsWorker_eq]

namespace Attentive

theorem complete (h : Attentive p) (ha : Accounted p)
    (hwaits : ∀ w ∈ p.workers, w.phase.waits) (hpushed : p.pushed = 0) (hcounted : p.counted = 0)
    (htokens : p.tokens = 0) : p.Complete := by
  have hran := h.ran_perm ha hwaits hpushed hcounted htokens
  have hsubmitted : p.submitted = p.jobs.length := by
    have hcalled := ha.called
    omega
  refine ⟨hran,hsubmitted,?_,?_⟩
  · rw [ha.run,hran.length_eq,List.length_range,hsubmitted]
  · rw [ha.panicked,hran.countP_eq,countP_panics_range]

theorem complete_of_gone (h : Attentive p) (ha : Accounted p)
    (hgone : ∀ w ∈ p.workers, w.phase = .gone) : p.Complete := by
  obtain ⟨w,hw⟩ := List.exists_mem_of_ne_nil _ h.staffed
  obtain ⟨hclosed,htokens⟩ := h.gone w hw (hgone w hw)
  obtain ⟨hpushed,hcounted⟩ := h.closed hclosed
  exact h.complete ha (fun w hw => Phase.waits_iff.mpr (Or.inr (hgone w hw))) hpushed hcounted
    htokens

theorem complete_of_rest (h : Attentive p) (ha : Accounted p) (hrest : p.workFirst? = none)
    (hpushed : p.pushed = 0) (hcounted : p.counted = 0) : p.Complete := by
  have hwaits := workFirst?_eq_none_iff.mp hrest
  refine h.complete ha (fun w hw => Phase.waits_iff.mpr ((hwaits w hw).symm.imp And.left id)) hpushed
    hcounted ?_
  obtain ⟨w,hw⟩ := List.exists_mem_of_ne_nil _ h.staffed
  rcases hwaits w hw with hgone | ⟨-,htokens,-⟩
  · exact (h.gone w hw hgone).2
  · exact htokens

end Attentive

theorem sameCallers_settle (p : Pool α) : SameCallers p p.settle := by
  refine workSteps_induction (P := SameCallers p) (fun q r i h hr => ?_) (.refl p) _
  obtain ⟨w,hw,hmove⟩ := Option.bind_eq_some_iff.mp hr
  exact h.trans (move_of_work? hw hmove).sameCallers

/-- A pool that nobody is putting a job into completes, and one that is closed is left by all its
workers. -/
theorem settle_complete (h : Attentive p) (ha : Accounted p) (hpushed : p.pushed = 0)
    (hcounted : p.counted = 0) : p.settle.Complete ∧ p.settle.jobs = p.jobs ∧
      (p.closed → ∀ w ∈ p.settle.workers, w.phase = .gone) := by
  have hsame := sameCallers_settle p
  have hattentive : Attentive p.settle :=
    workSteps_induction (fun _ _ _ h hq => h.step (step_of_step? hq)) h _
  have haccounted : Accounted p.settle :=
    workSteps_induction (fun _ _ _ h hq => h.step (step_of_step? hq)) ha _
  have hrest := workFirst?_settle ha
  refine ⟨hattentive.complete_of_rest haccounted hrest (hsame.pushed.trans hpushed)
    (hsame.counted.trans hcounted),hsame.jobs,fun hclosed w hw => ?_⟩
  rcases workFirst?_eq_none_iff.mp hrest w hw with hgone | ⟨-,-,hopen⟩
  · exact hgone
  · rw [hsame.closed,hclosed] at hopen
    cases hopen

theorem Step.jobs_isPrefix (h : Step p q) : p.jobs <+: q.jobs := by
  cases h with
  | push hclosed => exact List.prefix_append _ _
  | count | ring | close => exact List.prefix_rfl
  | move hw hq => rw [hq.sameCallers.jobs]

theorem jobs_isPrefix_perform (p : Pool α) (later : List (Event α)) :
    p.jobs <+: (p.perform later).jobs :=
  perform_induction (P := fun q => p.jobs <+: q.jobs)
    (fun _ _ hkept hq => hkept.trans hq.jobs_isPrefix) List.prefix_rfl later

/-- What the callers, and the owner, of a pool may rely on after the events of a run. The jobs are
those that were put in while that was possible, and no other event was refused than by the fields
that say so. A job that was put in stays; its runs, over or under way, are at most one; never do all
workers wait while a job is queued and nobody is about to ring; once all are gone, everything has
been run and counted. Workers that are left alone do not go on forever, and what they leave undone is
nothing. -/
structure Dependable (start : Pool α) (events : List (Event α)) (p : Pool α) : Prop where
  given : p.jobs = (start.accepted events).filterMap Event.job?
  submitted : p.submitted = (start.accepted events).countP Event.isCount
  called : p.submitted + p.pushed = p.jobs.length
  rung : p.counted + (start.accepted events).countP Event.isRing = p.submitted
  closed : p.closed = (start.accepted events).any Event.isClose
  possible : ∀ e, (∃ q, p.step? e = some q) ↔ p.Possible e
  executed : p.closed = false → ∀ job, p.execute job = { p with
    jobs := p.jobs ++ [job]
    tasks := p.tasks ++ [job.task?]
    shared := p.shared ++ [p.jobs.length]
    submitted := p.submitted + 1
    tokens := p.tokens + 1 }
  refused : p.closed → ∀ job, p.execute job = p
  kept : ∀ later : List (Event α), p.jobs <+: (p.perform later).jobs
  once : ∀ id, p.ran.count id + p.workers.countP (·.phase = .running id) ≤ 1
  awake : ¬ ((∀ w ∈ p.workers, w.phase = .idle) ∧ p.tokens = 0 ∧ p.pushed = 0 ∧ p.counted = 0 ∧
    (p.shared ≠ [] ∨ ∃ w ∈ p.workers, w.queue ≠ []))
  joined : (∀ w ∈ p.workers, w.phase = .gone) → p.Complete
  bounded : ∀ i extra q, p.step? (.work i extra) = some q → q.remaining < p.remaining
  settled : p.pushed = 0 → p.counted = 0 → p.settle.Complete ∧ p.settle.jobs = p.jobs ∧
    (p.closed → ∀ w ∈ p.settle.workers, w.phase = .gone)

/-- However the steps of callers and workers follow one another, a pool loses no job and no
wakeup. -/
theorem dependable_perform (requested : Nat) (events : List (Event α)) :
    Dependable (ofRequested requested) events
      ((ofRequested requested : Pool α).perform events) := by
  have ha := (accounted_ofRequested (α := α) requested).perform events
  have h := (attentive_ofRequested (α := α) requested).perform events
  have hgiven := given_perform (ofRequested requested : Pool α) events
  have hsubmitted := hgiven.submitted.trans (Nat.zero_add _)
  refine
    { given := hgiven.jobs
      submitted := hsubmitted
      called := ha.called
      rung := hgiven.counted.trans ((Nat.zero_add _).trans hsubmitted.symm)
      closed := hgiven.closed
      possible := fun _ => exists_step?_iff
      executed := execute_of_open
      refused := h.execute_of_closed
      kept := jobs_isPrefix_perform _
      once := ha.runs_le_one
      awake := ?_
      joined := h.complete_of_gone ha
      bounded := fun _ _ _ hq => remaining_lt_of_work hq
      settled := settle_complete h ha }
  rintro ⟨hidle,htokens,hpushed,hcounted,hjob⟩
  have hwaits := fun w hw => Phase.waits_iff.mpr (Or.inl (hidle w hw))
  obtain ⟨hshared,hqueues⟩ := h.queues_eq_nil hwaits hpushed hcounted htokens
  rcases hjob with hs | ⟨w,hw,hq⟩
  · exact hs hshared
  · exact hq (hqueues w hw)

namespace Shift

def broken : Job Nat := ⟨.error (.text "broken"),false⟩

def watched : Job Nat := ⟨.error .other,true⟩

def fine : Job Nat := ⟨.ok 7,false⟩

/-- Three callers put a job in, the owner closes the pool, and a fourth comes too late. Two workers
take turns until they are gone. -/
def events : List (Event Nat) :=
  [.push broken,.push watched,.count,.push fine,.count,.ring,.close,.count,.ring,.ring,.close,
    .push fine] ++ (List.replicate 30 [.work 0 1,.work 1 0]).flatten

end Shift

open Shift in
/-- Three jobs are run, once each, and one panic reaches a worker. -/
theorem dependable_shift : (∀ w ∈ ((ofRequested 2).perform events).workers, w.phase = .gone) ∧
    ((ofRequested 2).perform events).jobs = [broken,watched,fine] ∧
    ((ofRequested 2).perform events).ran.Perm [0,1,2] ∧
    ((ofRequested 2).perform events).submitted = 3 ∧
    ((ofRequested 2).perform events).runTotal = 3 ∧
    ((ofRequested 2).perform events).panickedTotal = 1 := by
  have h := dependable_perform 2 events
  have hgone : ∀ w ∈ ((ofRequested 2).perform events).workers, w.phase = .gone := by
    decide +kernel
  have hdone := h.joined hgone
  have hjobs : ((ofRequested 2).perform events).jobs = [broken,watched,fine] := h.given.trans rfl
  have hsubmitted : ((ofRequested 2).perform events).submitted = 3 := h.submitted.trans rfl
  have hran := hdone.ran
  have hpanicked := hdone.panicked
  rw [hjobs] at hran hpanicked
  exact ⟨hgone,hjobs,hran,hsubmitted,hdone.run.trans hsubmitted,hpanicked⟩

end Pool
end ClauseDiscovery
