import ClauseDiscovery.Proofs.Work.Wakeup

/-! What a pool of workers was given. The jobs of a pool are those of the events that were possible
when they came, and so are the numbers of the calls that are counted and have rung; workers add
nothing to them. Which events are possible is told by the few fields that the callers and the
owner write. -/
namespace ClauseDiscovery
namespace Pool

variable {α : Type}

namespace Event

def job? : Event α → Option (Job α)
  | .push job => some job
  | .count | .ring | .close | .work _ _ => none

def isCount : Event α → Bool
  | .count => true
  | .push _ | .ring | .close | .work _ _ => false

def isRing : Event α → Bool
  | .ring => true
  | .push _ | .count | .close | .work _ _ => false

def isClose : Event α → Bool
  | .close => true
  | .push _ | .count | .ring | .work _ _ => false

end Event

/-- The events that were possible when they came. -/
def accepted (p : Pool α) : List (Event α) → List (Event α)
  | [] => []
  | e :: events =>
    match p.step? e with
    | none => p.accepted events
    | some q => e :: q.accepted events

/-- A job is taken until the owner closes the pool, and the owner waits for the callers. A worker
has a step unless it is gone, or waits for the bell of an open pool. -/
def Possible (p : Pool α) : Event α → Prop
  | .push _ => p.closed = false
  | .count => 0 < p.pushed
  | .ring => 0 < p.counted
  | .close => p.closed = false ∧ p.pushed = 0 ∧ p.counted = 0
  | .work i _ => ∃ w, p.workers[i]? = some w ∧ w.phase ≠ .gone ∧
      (w.phase = .idle → 0 < p.tokens ∨ p.closed)

structure Took (p : Pool α) (e : Event α) (q : Pool α) : Prop where
  jobs : q.jobs = p.jobs ++ e.job?.toList
  submitted : q.submitted = p.submitted + e.isCount.toNat
  counted : q.counted + e.isRing.toNat = p.counted + e.isCount.toNat
  closed : q.closed = (p.closed || e.isClose)

variable {p q : Pool α} {e : Event α} {events : List (Event α)} {w : Worker} {i extra : Nat}

theorem work?_eq_none_iff : p.work? i extra w = none ↔
    w.phase = .gone ∨ w.phase = .idle ∧ p.tokens = 0 ∧ p.closed = false := by
  cases hphase : w.phase with
  | gone => simp [work?,hphase]
  | idle => cases htokens : p.tokens <;> simp [work?,hphase,htokens]
  | own => cases hq : w.queue <;> simp [work?,hphase,hq]
  | shared => cases hs : p.shared <;> simp [work?,hphase,hs]
  | carrying | running => simp [work?,hphase]
  | others j =>
    suffices p.work? i extra w ≠ none by simpa using this
    simp only [work?,hphase]
    split
    · simp
    · split
      · split <;> simp
      · simp

theorem exists_work?_iff : (∃ q, p.work? i extra w = some q) ↔
    w.phase ≠ .gone ∧ (w.phase = .idle → 0 < p.tokens ∨ p.closed) := by
  rw [← Option.ne_none_iff_exists',ne_eq,work?_eq_none_iff]
  have htokens := Nat.eq_zero_or_pos p.tokens
  grind

theorem exists_step?_iff : (∃ q, p.step? e = some q) ↔ p.Possible e := by
  cases e with
  | push job => cases hc : p.closed <;> simp [step?,Possible,hc]
  | count => cases hn : p.pushed <;> simp [step?,Possible,hn]
  | ring => cases hn : p.counted <;> simp [step?,Possible,hn]
  | close => simp [step?,Possible]
  | work i extra =>
    simp only [step?,Possible,Option.bind_eq_some_iff]
    constructor
    · rintro ⟨q,w,hw,hq⟩
      exact ⟨w,hw,exists_work?_iff.mp ⟨q,hq⟩⟩
    · rintro ⟨w,hw,h⟩
      obtain ⟨q,hq⟩ : ∃ q, p.work? i extra w = some q := exists_work?_iff.mpr h
      exact ⟨q,w,hw,hq⟩

theorem took_of_step? (h : p.step? e = some q) : Took p e q := by
  cases e with
  | push job =>
    simp only [step?,Option.ite_none_left_eq_some,Option.some.injEq] at h
    obtain ⟨-,rfl⟩ := h
    exact ⟨rfl,rfl,rfl,(Bool.or_false _).symm⟩
  | count =>
    simp only [step?] at h
    split at h
    · cases h
    · cases h
      exact ⟨(List.append_nil _).symm,rfl,rfl,(Bool.or_false _).symm⟩
  | ring =>
    simp only [step?] at h
    split at h
    · cases h
    · rename_i n hn
      cases h
      exact ⟨(List.append_nil _).symm,rfl,hn.symm,(Bool.or_false _).symm⟩
  | close =>
    simp only [step?,Option.ite_none_left_eq_some,Option.some.injEq] at h
    obtain ⟨-,rfl⟩ := h
    exact ⟨(List.append_nil _).symm,rfl,rfl,(Bool.or_true _).symm⟩
  | work i extra =>
    obtain ⟨w,hw,hq⟩ := Option.bind_eq_some_iff.mp h
    have hsame := (move_of_work? hw hq).sameCallers
    exact ⟨hsame.jobs.trans (List.append_nil _).symm,hsame.submitted,hsame.counted,
      hsame.closed.trans (Bool.or_false _).symm⟩

@[simp] theorem accepted_nil : p.accepted [] = [] := rfl

theorem accepted_cons_of_none (h : p.step? e = none) :
    p.accepted (e :: events) = p.accepted events := by
  rw [accepted,h]

theorem accepted_cons_of_some (h : p.step? e = some q) :
    p.accepted (e :: events) = e :: q.accepted events := by
  rw [accepted,h]

theorem perform_cons_of_none (h : p.step? e = none) :
    p.perform (e :: events) = p.perform events := by
  simp [perform,h]

theorem perform_cons_of_some (h : p.step? e = some q) :
    p.perform (e :: events) = q.perform events := by
  simp [perform,h]

/-- What a pool was given in a run. -/
structure Given (p : Pool α) (events : List (Event α)) (q : Pool α) : Prop where
  jobs : q.jobs = p.jobs ++ (p.accepted events).filterMap Event.job?
  submitted : q.submitted = p.submitted + (p.accepted events).countP Event.isCount
  counted : q.counted + (p.accepted events).countP Event.isRing =
    p.counted + (p.accepted events).countP Event.isCount
  closed : q.closed = (p.closed || (p.accepted events).any Event.isClose)

theorem Took.cons {r : Pool α} (h : Took p e q) (he : p.step? e = some q)
    (hr : Given q events r) : Given p (e :: events) r := by
  have hcount : (e :: q.accepted events).countP Event.isCount =
      e.isCount.toNat + (q.accepted events).countP Event.isCount := by
    rw [List.countP_cons]
    cases e.isCount <;> simp [Nat.add_comm]
  have hring : (e :: q.accepted events).countP Event.isRing =
      e.isRing.toNat + (q.accepted events).countP Event.isRing := by
    rw [List.countP_cons]
    cases e.isRing <;> simp [Nat.add_comm]
  refine ⟨?_,?_,?_,?_⟩ <;> rw [accepted_cons_of_some he]
  · rw [hr.jobs,h.jobs,List.append_assoc]
    cases hj : e.job? <;> simp [hj]
  · rw [hr.submitted,h.submitted,hcount,Nat.add_assoc]
  · have hnow := h.counted
    have hlater := hr.counted
    rw [hcount,hring]
    omega
  · rw [hr.closed,h.closed,List.any_cons,Bool.or_assoc]

theorem given_perform (p : Pool α) (events : List (Event α)) :
    Given p events (p.perform events) := by
  induction events generalizing p with
  | nil => exact ⟨(List.append_nil _).symm,rfl,rfl,(Bool.or_false _).symm⟩
  | cons e events ih =>
    cases he : p.step? e with
    | none =>
      obtain ⟨hjobs,hsubmitted,hcounted,hclosed⟩ := ih p
      rw [← accepted_cons_of_none he] at hjobs hsubmitted hcounted hclosed
      rw [perform_cons_of_none he]
      exact ⟨hjobs,hsubmitted,hcounted,hclosed⟩
    | some q =>
      rw [perform_cons_of_some he]
      exact (took_of_step? he).cons he (ih q)

/-- A job that is put into an open pool is in the shared queue, counted and announced. -/
theorem execute_of_open (h : p.closed = false) (job : Job α) : p.execute job = { p with
    jobs := p.jobs ++ [job]
    tasks := p.tasks ++ [job.task?]
    shared := p.shared ++ [p.jobs.length]
    submitted := p.submitted + 1
    tokens := p.tokens + 1 } := by
  simp [execute,perform,step?,h]

theorem Attentive.execute_of_closed (ha : Attentive p) (h : p.closed) (job : Job α) :
    p.execute job = p := by
  obtain ⟨hpushed,hcounted⟩ := ha.closed h
  simp [execute,Pool.perform,step?,h,hpushed,hcounted]

end Pool
end ClauseDiscovery
