import ClauseDiscovery.Memo.Pooled
import ClauseDiscovery.Proofs.Memo.Progress
import ClauseDiscovery.Proofs.Work.Rest

/-! The steps of a shared cache on its pool. Whatever event takes place, it is made of one step of
the cache at most and of one step of the pool at most; so a run of both is a run of each. -/
namespace ClauseDiscovery

/-- A run that ends in `s` can be led on by one step. -/
theorem exists_run_of_step {σ ε : Type} {step : σ → ε → Option σ} {start s t : σ}
    (hs : ∃ es : List ε, s = es.foldl (fun s e => (step s e).getD s) start)
    (ht : t = s ∨ ∃ e, step s e = some t) :
    ∃ es : List ε, t = es.foldl (fun s e => (step s e).getD s) start := by
  obtain ⟨es,rfl⟩ := hs
  rcases ht with rfl | ⟨e,he⟩
  · exact ⟨es,rfl⟩
  · exact ⟨es ++ [e],by simp [he]⟩

theorem Phase.job?_eq_some_iff {phase : Phase} {id : Nat} :
    phase.job? = some id ↔ phase = .running id := by
  cases phase <;> simp [job?]

/-- A submission that may yet schedule a check. -/
def Caller.isComing : Caller → Bool
  | .submitting _ | .entering _ => true
  | .inserting _ _ | .submitted _ | .querying _ | .holding _ _ | .waiting _ _ | .answered _ _ => false

theorem Phase.ne_running {phase : Phase} (h : phase.job? = none) (id : Nat) :
    phase ≠ .running id := by
  rintro rfl
  cases h

namespace Pool

variable {α : Type} {p q : Pool α} {i id extra : Nat} {w v : Worker}

def runners (p : Pool α) (id : Nat) : Nat := p.workers.countP (·.phase = .running id)

def occupied (p : Pool α) : Nat := p.workers.countP (·.phase.job?.isSome)

/-- What the move of a worker does to the phases of the workers and to the jobs that have run. -/
structure Shifts (p : Pool α) (i : Nat) (w v : Worker) (q : Pool α) : Prop where
  old : p.workers[i]? = some w
  row : q.workers[i]? = some v
  length : q.workers.length = p.workers.length
  count : ∀ f : Phase → Bool, q.workers.countP (fun w => f w.phase) + (f w.phase).toNat =
    p.workers.countP (fun w => f w.phase) + (f v.phase).toNat
  fetched : w.phase.job? = none → q.ran = p.ran
  finished : ∀ id, w.phase = .running id → id < p.jobs.length →
    v.phase.job? = none ∧ q.ran = p.ran ++ [id]

theorem Move.exists_shifts (h : Move p i w q) (hw : p.workers[i]? = some w) :
    ∃ v, Shifts p i w v q := by
  have hcount := fun (v : Worker) (f : Phase → Bool) =>
    countP_set_add (q := fun w : Worker => f w.phase) hw v
  cases h with
  | @steal j id rest victim hphase hji hv hq =>
    have hw' := getElem?_setWorker_of_ne hji hw { victim with queue := rest }
    refine ⟨_,hw,getElem?_setWorker_self hw' _,?_,fun f => ?_,fun _ => rfl,?_⟩
    · simp [setWorker]
    · have hthief := countP_set_add (q := fun w : Worker => f w.phase) hw'
        { w with phase := .running id }
      have hvictim : (p.setWorker j { victim with queue := rest }).workers.countP
          (fun w => f w.phase) = p.workers.countP fun w => f w.phase := countP_set_of_eq hv rfl
      exact hthief.trans (congrArg (· + _) hvictim)
    · simp [hphase]
  | finish hphase hj =>
    refine ⟨_,hw,getElem?_setWorker_self hw _,List.length_set,hcount _,?_,fun k hk _ => ?_⟩
    · simp [hphase,Phase.job?]
    · cases hphase.symm.trans hk
      exact ⟨rfl,rfl⟩
  | forget hphase hj =>
    refine ⟨_,hw,getElem?_setWorker_self hw _,List.length_set,hcount _,fun _ => rfl,
      fun k hk hlt => ?_⟩
    cases hphase.symm.trans hk
    simp [hlt] at hj
  | pop hphase | pass hphase | take hphase | miss hphase | skip hphase | park hphase
  | wake hphase | leave hphase | store hphase =>
    exact ⟨_,hw,getElem?_setWorker_self (w := w) hw _,List.length_set,hcount _,fun _ => rfl,
      by simp [hphase]⟩

theorem exists_shifts_of_step? (hw : p.workers[i]? = some w)
    (h : p.step? (.work i extra) = some q) : ∃ v, Shifts p i w v q := by
  obtain ⟨w',hw',hq⟩ := Option.bind_eq_some_iff.mp h
  obtain rfl : w = w' := Option.some.inj (hw.symm.trans hw')
  exact (move_of_work? hw hq).exists_shifts hw

theorem sameCallers_of_work (h : p.step? (.work i extra) = some q) : SameCallers p q := by
  obtain ⟨w,hw,hq⟩ := Option.bind_eq_some_iff.mp h
  exact (move_of_work? hw hq).sameCallers

theorem Shifts.runners (h : Shifts p i w v q) (id : Nat) :
    q.runners id + (decide (w.phase = .running id)).toNat =
      p.runners id + (decide (v.phase = .running id)).toNat :=
  h.count fun phase => decide (phase = .running id)

theorem Shifts.occupied (h : Shifts p i w v q) :
    q.occupied + w.phase.job?.isSome.toNat = p.occupied + v.phase.job?.isSome.toNat :=
  h.count fun phase => phase.job?.isSome

end Pool

namespace SharedCache

variable {c d : SharedCache} {i : Nat} {x : Check}

theorem threads_eq (h : d.requested = c.requested) : d.threads = c.threads := by
  rw [threads,threads,h]

/-- The next step of a check changes nothing else. A check that is no longer queued is under way
or done. -/
theorem checks_of_work (hx : c.checks[i]? = some x) (h : c.step? (.work i) = some d) :
    d.requested = c.requested ∧ ∃ y, d.checks = c.checks.set i y ∧ y.isDone = !y.isRunning ∧
      (x.stage = .queued → y.isRunning) := by
  simp only [step?,hx,Option.bind_some] at h
  have hset : ∀ (c : SharedCache) (s : Stage), c.checks[i]? = some x →
      (c.setStage i s).checks = c.checks.set i { x with stage := s } := fun c s hc => by
    rw [setStage_eq hc]
  refine ⟨?_,?_⟩ <;> unfold work? at h
  · grind [setStage,SharedCache.ask]
  · split at h
    · simp only [Option.ite_none_right_eq_some,Option.some.injEq] at h
      obtain ⟨-,rfl⟩ := h
      exact ⟨_,hset c _ hx,rfl,fun _ => rfl⟩
    · cases h
      exact ⟨_,hset { c with counters := _ } _ hx,rfl,fun _ => rfl⟩
    · cases h
      exact ⟨_,hset (c.ask _).2 _ hx,rfl,fun _ => rfl⟩
    · split at h
      · cases h
        exact ⟨_,hset { c with counters := _ } _ hx,rfl,fun _ => rfl⟩
      · cases h
        exact ⟨_,hset c _ hx,rfl,fun _ => rfl⟩
    · rename_i hs
      cases h
      exact ⟨_,rfl,rfl,by simp [hs]⟩
    · cases h

def coming (c : SharedCache) : Nat := c.callers.countP (·.isComing)

theorem checks_of_advance (h : c.step? (.advance i) = some d) :
    d.requested = c.requested ∧ (d.checks = c.checks ∧ d.coming ≤ c.coming ∨
      (∃ φ, d.checks = c.checks ++ [Check.ofFormula φ]) ∧ d.coming + 1 = c.coming) := by
  obtain ⟨κ,hκ,h⟩ := Option.bind_eq_some_iff.mp h
  have hsame : ∀ μ : Caller, μ.isComing = κ.isComing →
      (c.callers.set i μ).countP (·.isComing) ≤ c.coming := fun μ hμ =>
    (countP_set_of_eq hκ hμ).le
  cases κ with
  | submitting φ =>
    cases h
    exact ⟨rfl,Or.inl ⟨rfl,hsame _ rfl⟩⟩
  | entering φ =>
    simp only [advance?,Option.ite_none_left_eq_some] at h
    obtain ⟨-,h⟩ := h
    split at h
    · cases h
      exact ⟨rfl,Or.inl ⟨rfl,(Nat.le_add_right _ 1).trans (countP_set_of_loss hκ rfl rfl).ge⟩⟩
    · cases h
      exact ⟨rfl,Or.inr ⟨⟨φ,rfl⟩,(countP_set_of_loss hκ rfl rfl).symm⟩⟩
  | inserting φ k =>
    cases h
    exact ⟨rfl,Or.inl ⟨rfl,hsame _ rfl⟩⟩
  | submitted φ => cases h
  | querying φ =>
    simp only [advance?,Option.ite_none_left_eq_some] at h
    obtain ⟨-,h⟩ := h
    split at h
    all_goals
      cases h
      exact ⟨rfl,Or.inl ⟨rfl,hsame _ rfl⟩⟩
  | holding φ k =>
    obtain ⟨x,hx,rfl⟩ := Option.map_eq_some_iff.mp h
    exact ⟨rfl,Or.inl ⟨rfl,hsame _ rfl⟩⟩
  | waiting φ k =>
    obtain ⟨x,hx,rfl⟩ := Option.map_eq_some_iff.mp h
    exact ⟨rfl,Or.inl ⟨rfl,hsame _ rfl⟩⟩
  | answered φ a => cases h

end SharedCache

namespace PooledCache

variable {s t : PooledCache} {e : Event} {i extra : Nat}

def Event.Begins : Event → Prop
  | .submit _ | .query _ => True
  | .advance _ | .count | .ring | .work _ _ => False

/-- All that can happen next, with the steps of the cache and of the pool that it is made of. -/
inductive Step (s : PooledCache) : Event → PooledCache → Prop
  | submit {φ : Formula} {d : SharedCache} : s.cache.step? (.submit φ) = some d →
      d.requested = s.cache.requested → d.checks = s.cache.checks →
      Step s (.submit φ) ⟨d,s.pool⟩
  | query {φ : Formula} {d : SharedCache} : s.cache.step? (.query φ) = some d →
      d.requested = s.cache.requested → d.checks = s.cache.checks → Step s (.query φ) ⟨d,s.pool⟩
  | call {i : Nat} {d : SharedCache} : s.cache.step? (.advance i) = some d →
      d.requested = s.cache.requested → d.checks = s.cache.checks →
      d.coming ≤ s.cache.coming → Step s (.advance i) ⟨d,s.pool⟩
  | schedule {i : Nat} {φ : Formula} {d : SharedCache} {q : Pool Unit} :
      s.cache.step? (.advance i) = some d → d.requested = s.cache.requested →
      d.checks = s.cache.checks ++ [Check.ofFormula φ] → d.coming + 1 = s.cache.coming →
      s.pool.step? (.push errand) = some q → Step s (.advance i) ⟨d,q⟩
  | count {q : Pool Unit} : s.pool.step? .count = some q → Step s .count ⟨s.cache,q⟩
  | ring {q : Pool Unit} : s.pool.step? .ring = some q → Step s .ring ⟨s.cache,q⟩
  | fetch {i extra : Nat} {w v : Worker} {q : Pool Unit} :
      s.pool.step? (.work i extra) = some q → s.pool.Shifts i w v q →
      w.phase.job? = none → v.phase.job? = none → Step s (.work i extra) ⟨s.cache,q⟩
  | start {i extra id : Nat} {w v : Worker} {d : SharedCache} {q : Pool Unit} :
      s.pool.step? (.work i extra) = some q → s.pool.Shifts i w v q →
      w.phase.job? = none → v.phase = .running id → s.cache.step? (.work id) = some d →
      Step s (.work i extra) ⟨d,q⟩
  | proceed {i extra id : Nat} {w : Worker} {d : SharedCache} :
      s.pool.workers[i]? = some w → w.phase = .running id → s.cache.step? (.work id) = some d →
      ¬ d.checks[id]?.any (·.isDone) → Step s (.work i extra) ⟨d,s.pool⟩
  | finish {i extra id : Nat} {w v : Worker} {d : SharedCache} {q : Pool Unit} :
      s.pool.step? (.work i extra) = some q → s.pool.Shifts i w v q → w.phase = .running id →
      s.cache.step? (.work id) = some d → d.checks[id]?.any (·.isDone) →
      Step s (.work i extra) ⟨d,q⟩

theorem step_of_advance? (h : s.advance? i = some t) : Step s (.advance i) t := by
  obtain ⟨d,hd,h⟩ := Option.bind_eq_some_iff.mp h
  obtain ⟨hrequested,⟨hchecks,hcoming⟩ | ⟨⟨φ,hchecks⟩,hcoming⟩⟩ := SharedCache.checks_of_advance hd
  · rw [if_pos (by rw [hchecks])] at h
    cases h
    exact .call hd hrequested hchecks hcoming
  · rw [if_neg (by simp [hchecks])] at h
    obtain ⟨q,hq,rfl⟩ := Option.map_eq_some_iff.mp h
    exact .schedule hd hrequested hchecks hcoming hq

theorem step_of_work? (h : s.work? i extra = some t) : Step s (.work i extra) t := by
  unfold work? jobOf? at h
  cases hw : s.pool.workers[i]? with
  | none => simp [hw,Pool.step?] at h
  | some w =>
    rw [hw,Option.bind_some] at h
    split at h
    · rename_i id hid
      have hphase := Phase.job?_eq_some_iff.mp hid
      obtain ⟨d,hd,h⟩ := Option.bind_eq_some_iff.mp h
      split at h
      · rename_i hdone
        obtain ⟨q,hq,rfl⟩ := Option.map_eq_some_iff.mp h
        obtain ⟨v,hv⟩ := Pool.exists_shifts_of_step? hw hq
        exact .finish hq hv hphase hd hdone
      · rename_i hdone
        cases h
        exact .proceed hw hphase hd hdone
    · rename_i hid
      obtain ⟨q,hq,h⟩ := Option.bind_eq_some_iff.mp h
      obtain ⟨v,hv⟩ := Pool.exists_shifts_of_step? hw hq
      rw [hv.row,Option.bind_some] at h
      split at h
      · rename_i id hrun
        obtain ⟨d,hd,rfl⟩ := Option.map_eq_some_iff.mp h
        exact .start hq hv hid (Phase.job?_eq_some_iff.mp hrun) hd
      · rename_i hrun
        cases h
        exact .fetch hq hv hid hrun

theorem step_of_step? (h : s.step? e = some t) : Step s e t := by
  cases e with
  | submit φ =>
    cases h
    exact .submit rfl rfl rfl
  | query φ =>
    cases h
    exact .query rfl rfl rfl
  | advance i => exact step_of_advance? h
  | count =>
    obtain ⟨q,hq,rfl⟩ := Option.map_eq_some_iff.mp h
    exact .count hq
  | ring =>
    obtain ⟨q,hq,rfl⟩ := Option.map_eq_some_iff.mp h
    exact .ring hq
  | work i extra => exact step_of_work? h

theorem perform_induction {P : PooledCache → Prop} (hstep : ∀ s e t, P s → Step s e t → P t)
    (h : P s) (events : List Event) : P (s.perform events) := by
  induction events generalizing s with
  | nil => exact h
  | cons e events ih =>
    have hnext : P ((s.step? e).getD s) := by
      cases ht : s.step? e with
      | none => exact h
      | some t => exact hstep s e t h (step_of_step? ht)
    exact ih hnext

theorem Step.cache (h : Step s e t) :
    t.cache = s.cache ∨ ∃ f, s.cache.step? f = some t.cache := by
  cases h with
  | submit hd | query hd | call hd | schedule hd => exact Or.inr ⟨_,hd⟩
  | count | ring | fetch => exact Or.inl rfl
  | start hq hv hw hrun hd => exact Or.inr ⟨_,hd⟩
  | proceed hw hphase hd => exact Or.inr ⟨_,hd⟩
  | finish hq hv hphase hd => exact Or.inr ⟨_,hd⟩

theorem Step.pool (h : Step s e t) : t.pool = s.pool ∨ ∃ f, s.pool.step? f = some t.pool := by
  cases h with
  | submit | query | call | proceed => exact Or.inl rfl
  | count hq | ring hq | fetch hq | start hq | finish hq => exact Or.inr ⟨_,hq⟩
  | schedule hd hrequested hchecks hcoming hq => exact Or.inr ⟨_,hq⟩

/-- A run of both is a run of the cache. -/
theorem exists_cache_perform (s : PooledCache) (events : List Event) :
    ∃ es, (s.perform events).cache = s.cache.perform es :=
  perform_induction (P := fun t => ∃ es, t.cache = s.cache.perform es)
    (fun _ _ _ ht hu => exists_run_of_step ht hu.cache) ⟨[],rfl⟩ events

theorem exists_pool_perform (s : PooledCache) (events : List Event) :
    ∃ es, (s.perform events).pool = s.pool.perform es :=
  perform_induction (P := fun t => ∃ es, t.pool = s.pool.perform es)
    (fun _ _ _ ht hu => exists_run_of_step ht hu.pool) ⟨[],rfl⟩ events

end PooledCache
end ClauseDiscovery
