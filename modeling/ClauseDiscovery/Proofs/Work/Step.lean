import ClauseDiscovery.Proofs.Row
import ClauseDiscovery.Work.Pool

/-! The steps of a pool of workers. Whatever event takes place, it is a step of a caller, of the
owner, or one of the moves of a worker below, which change the worker's own row and at most one
queue besides. -/
namespace ClauseDiscovery

/-- The worker has run a job, and goes back to its own queue. -/
def Worker.credit {α : Type} (w : Worker) (job : Job α) : Worker :=
  { w with
    phase := .own
    run := w.run + 1
    panicked := if job.panicsWorker then w.panicked + 1 else w.panicked }

@[simp] theorem Worker.queue_credit {α : Type} (w : Worker) (job : Job α) :
    (w.credit job).queue = w.queue := rfl
@[simp] theorem Worker.phase_credit {α : Type} (w : Worker) (job : Job α) :
    (w.credit job).phase = .own := rfl
@[simp] theorem Worker.run_credit {α : Type} (w : Worker) (job : Job α) :
    (w.credit job).run = w.run + 1 := rfl
@[simp] theorem Worker.panicked_credit {α : Type} (w : Worker) (job : Job α) :
    (w.credit job).panicked = w.panicked + if job.panicsWorker then 1 else 0 := by
  unfold credit
  split <;> rfl

namespace Pool

variable {α : Type}

def setWorker (p : Pool α) (i : Nat) (w : Worker) : Pool α :=
  { p with workers := p.workers.set i w }

def total (p : Pool α) (f : Worker → Nat) : Nat := (p.workers.map f).sum

inductive Move (p : Pool α) (i : Nat) (w : Worker) : Pool α → Prop
  | pop {id : Nat} {rest : List Nat} : w.phase = .own → w.queue = id :: rest →
      Move p i w (p.setWorker i { w with queue := rest, phase := .running id })
  | pass : w.phase = .own → w.queue = [] → Move p i w (p.setWorker i { w with phase := .shared })
  | take {id extra : Nat} {rest : List Nat} : w.phase = .shared → p.shared = id :: rest →
      Move p i w ({ p with shared := rest.drop extra }.setWorker i
        { w with phase := .carrying id (rest.take extra) })
  | miss : w.phase = .shared → p.shared = [] →
      Move p i w (p.setWorker i { w with phase := .others 0 })
  | skip {j : Nat} : w.phase = .others j → j < p.workers.length →
      Move p i w (p.setWorker i { w with phase := .others (j+1) })
  | steal {j id : Nat} {rest : List Nat} {v : Worker} : w.phase = .others j → j ≠ i →
      p.workers[j]? = some v → v.queue = id :: rest →
      Move p i w ((p.setWorker j { v with queue := rest }).setWorker i
        { w with phase := .running id })
  | park {j : Nat} : w.phase = .others j → p.workers.length ≤ j →
      Move p i w (p.setWorker i { w with phase := .idle })
  | wake {n : Nat} : w.phase = .idle → p.tokens = n + 1 →
      Move p i w ({ p with tokens := n }.setWorker i { w with phase := .own })
  | leave : w.phase = .idle → p.tokens = 0 → p.closed →
      Move p i w (p.setWorker i { w with phase := .gone })
  | store {id : Nat} {batch : List Nat} : w.phase = .carrying id batch →
      Move p i w (p.setWorker i { w with queue := w.queue ++ batch, phase := .running id })
  | finish {id : Nat} {job : Job α} : w.phase = .running id → p.jobs[id]? = some job →
      Move p i w ({ p with
        tasks := p.tasks.modify id (Option.map (·.fulfil (.ofWork job.ending)))
        ran := p.ran ++ [id] }.setWorker i (w.credit job))
  | forget {id : Nat} : w.phase = .running id → p.jobs[id]? = none →
      Move p i w (p.setWorker i { w with phase := .own })

inductive Step (p : Pool α) : Pool α → Prop
  | push {job : Job α} : p.closed = false →
      Step p { p with
        jobs := p.jobs ++ [job]
        tasks := p.tasks ++ [job.task?]
        shared := p.shared ++ [p.jobs.length]
        pushed := p.pushed + 1 }
  | count {n : Nat} : p.pushed = n + 1 →
      Step p { p with
        pushed := n
        counted := p.counted + 1
        submitted := p.submitted + 1 }
  | ring {n : Nat} : p.counted = n + 1 →
      Step p { p with
        counted := n
        tokens := p.tokens + 1 }
  | close : p.pushed = 0 → p.counted = 0 → Step p { p with closed := true }
  | move {i : Nat} {w : Worker} {q : Pool α} : p.workers[i]? = some w → Move p i w q → Step p q

/-- What the workers leave as it is: only callers and the owner change it. -/
structure SameCallers (p q : Pool α) : Prop where
  jobs : q.jobs = p.jobs
  submitted : q.submitted = p.submitted
  pushed : q.pushed = p.pushed
  counted : q.counted = p.counted
  closed : q.closed = p.closed

variable {p q r : Pool α} {i j : Nat} {w v : Worker} {extra : Nat} {e : Event α}

theorem SameCallers.refl (p : Pool α) : SameCallers p p := ⟨rfl,rfl,rfl,rfl,rfl⟩

theorem SameCallers.trans (h : SameCallers p q) (hr : SameCallers q r) : SameCallers p r where
  jobs := hr.jobs.trans h.jobs
  submitted := hr.submitted.trans h.submitted
  pushed := hr.pushed.trans h.pushed
  counted := hr.counted.trans h.counted
  closed := hr.closed.trans h.closed

theorem Move.sameCallers (h : Move p i w q) : SameCallers p q := by
  cases h <;> exact ⟨rfl,rfl,rfl,rfl,rfl⟩

theorem setPhase_eq (hw : p.workers[i]? = some w) (phase : Phase) :
    p.setPhase i phase = p.setWorker i { w with phase } := by
  rw [setPhase,List.modify_eq_set_getElem?,hw]
  rfl

theorem setQueue_eq (hw : p.workers[i]? = some w) (queue : List Nat) :
    p.setQueue i queue = p.setWorker i { w with queue } := by
  rw [setQueue,List.modify_eq_set_getElem?,hw]
  rfl

theorem getElem?_setWorker_self (hw : p.workers[i]? = some w) (v : Worker) :
    (p.setWorker i v).workers[i]? = some v :=
  List.getElem?_set_self (List.getElem?_eq_some_iff.mp hw).1

theorem getElem?_setWorker_of_ne (h : j ≠ i) (hw : p.workers[i]? = some w) (v : Worker) :
    (p.setWorker j v).workers[i]? = some w := (List.getElem?_set_ne h).trans hw

theorem total_setWorker (hw : p.workers[i]? = some w) (v : Worker) (f : Worker → Nat) :
    (p.setWorker i v).total f + f w = p.total f + f v := sum_map_set hw v

theorem total_setWorker_of_eq {f : Worker → Nat} (hw : p.workers[i]? = some w) (h : f v = f w) :
    (p.setWorker i v).total f = p.total f := by
  have hset := total_setWorker hw v f
  omega

theorem runTotal_eq_total (p : Pool α) : p.runTotal = p.total (·.run) := by
  rw [runTotal,total,List.sum_eq_foldl,List.foldl_map]

theorem panickedTotal_eq_total (p : Pool α) : p.panickedTotal = p.total (·.panicked) := by
  rw [panickedTotal,total,List.sum_eq_foldl,List.foldl_map]

theorem setQueue_setPhase_eq (hw : p.workers[i]? = some w) (queue : List Nat) (phase : Phase) :
    (p.setQueue i queue).setPhase i phase = p.setWorker i { w with queue, phase } := by
  rw [setQueue_eq hw,setPhase_eq (getElem?_setWorker_self hw _)]
  simp [setWorker]

theorem finish_eq {id : Nat} {job : Job α} (hw : p.workers[i]? = some w)
    (hj : p.jobs[id]? = some job) : p.finish i id = { p with
        tasks := p.tasks.modify id (Option.map (·.fulfil (.ofWork job.ending)))
        ran := p.ran ++ [id] }.setWorker i (w.credit job) := by
  rw [finish,hj]
  simp only [setWorker,List.modify_eq_set_getElem?,hw]
  rfl

theorem move_of_work? (hw : p.workers[i]? = some w) (h : p.work? i extra w = some q) :
    Move p i w q := by
  unfold work? at h
  split at h
  · rename_i hown
    split at h
    · rename_i id rest hq
      cases h
      rw [setQueue_setPhase_eq hw]
      exact .pop hown hq
    · rename_i hq
      cases h
      rw [setPhase_eq hw]
      exact .pass hown hq
  · rename_i hshared
    split at h
    · rename_i id rest hs
      cases h
      rw [setPhase_eq (p := { p with shared := rest.drop extra }) hw]
      exact .take hshared hs
    · rename_i hs
      cases h
      rw [setPhase_eq hw]
      exact .miss hshared hs
  · rename_i j hothers
    split at h
    · rename_i hj
      cases h
      rw [setPhase_eq hw]
      exact .park hothers (List.getElem?_eq_none_iff.mp hj)
    · rename_i v hj
      have hlt := (List.getElem?_eq_some_iff.mp hj).1
      split at h
      · rename_i id rest hv
        split at h
        · cases h
          rw [setPhase_eq hw]
          exact .skip hothers hlt
        · rename_i hji
          cases h
          rw [setQueue_eq hj,setPhase_eq (getElem?_setWorker_of_ne hji hw _)]
          exact .steal hothers hji hj hv
      · cases h
        rw [setPhase_eq hw]
        exact .skip hothers hlt
  · rename_i hidle
    split at h
    · rename_i n hn
      cases h
      rw [setPhase_eq (p := { p with tokens := n }) hw]
      exact .wake hidle hn
    · rename_i hn
      simp only [Option.ite_none_right_eq_some,Option.some.injEq] at h
      obtain ⟨hclosed,rfl⟩ := h
      rw [setPhase_eq hw]
      exact .leave hidle hn hclosed
  · rename_i id batch hcarrying
    cases h
    rw [setQueue_setPhase_eq hw]
    exact .store hcarrying
  · rename_i id hrunning
    cases h
    cases hj : p.jobs[id]? with
    | none =>
      rw [finish,hj]
      simp only [setPhase_eq hw]
      exact .forget hrunning hj
    | some job =>
      rw [finish_eq hw hj]
      exact .finish hrunning hj
  · cases h

theorem step_of_step? (h : p.step? e = some q) : Step p q := by
  cases e with
  | push job =>
    simp only [step?,Option.ite_none_left_eq_some,Option.some.injEq] at h
    obtain ⟨hclosed,rfl⟩ := h
    exact .push (by simpa using hclosed)
  | count =>
    simp only [step?] at h
    split at h
    · cases h
    · rename_i n hn
      cases h
      exact .count hn
  | ring =>
    simp only [step?] at h
    split at h
    · cases h
    · rename_i n hn
      cases h
      exact .ring hn
  | close =>
    simp only [step?,Option.ite_none_left_eq_some,Option.some.injEq,not_or,not_not] at h
    obtain ⟨⟨-,hpushed,hcounted⟩,rfl⟩ := h
    exact .close hpushed hcounted
  | work i extra =>
    obtain ⟨w,hw,hq⟩ := Option.bind_eq_some_iff.mp h
    exact .move hw (move_of_work? hw hq)

theorem perform_induction {P : Pool α → Prop} (hstep : ∀ p q, P p → Step p q → P q) (h : P p)
    (events : List (Event α)) : P (p.perform events) := by
  induction events generalizing p with
  | nil => exact h
  | cons e events ih =>
    have hnext : P ((p.step? e).getD p) := by
      cases hq : p.step? e with
      | none => exact h
      | some q => exact hstep p q h (step_of_step? hq)
    exact ih hnext

end Pool
end ClauseDiscovery
