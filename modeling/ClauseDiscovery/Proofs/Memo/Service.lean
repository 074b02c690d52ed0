import ClauseDiscovery.Proofs.Memo.Carried
import ClauseDiscovery.Proofs.Memo.SharedAccounts

/-! The pool serves the cache. Every step of a call that has begun, of a check and of a worker uses
up some of the steps that are left, and as long as a call has not returned something can go on: the
pool loses no check, and no wakeup that one waits for. -/
namespace ClauseDiscovery

namespace Pool

variable {α : Type} {p q : Pool α} {i extra : Nat} {w v : Worker}

/-- The steps that a pool has left, with those of the callers that have pushed a job. -/
def pending (p : Pool α) : Nat :=
  p.remaining + (p.workers.length + 6) * p.pushed + (p.workers.length + 5) * p.counted

theorem pending_push {job : Job α} (h : p.step? (.push job) = some q) :
    q.pending = p.pending + (2 * p.workers.length + 10) ∧
      q.workers.length = p.workers.length := by
  simp only [step?,Option.ite_none_left_eq_some,Option.some.injEq] at h
  obtain ⟨-,rfl⟩ := h
  refine ⟨?_,rfl⟩
  simp only [pending,remaining,total,List.length_append,List.length_singleton,Nat.mul_add]
  omega

theorem pending_lt_of_call (h : p.step? .count = some q ∨ p.step? .ring = some q) :
    q.pending < p.pending ∧ q.workers.length = p.workers.length := by
  rcases h with h | h
  all_goals
    simp only [step?] at h
    split at h
    · cases h
    · rename_i n hn
      cases h
      refine ⟨?_,rfl⟩
      simp only [pending,remaining,total,hn,Nat.succ_eq_add_one,Nat.mul_add,Nat.mul_one]
      omega

theorem Shifts.pending_lt (h : p.step? (.work i extra) = some q)
    (hv : Shifts p i w v q) : q.pending < p.pending := by
  have hlt := remaining_lt_of_work h
  have hsame := sameCallers_of_work h
  rw [pending,pending,hv.length,hsame.pushed,hsame.counted]
  omega

end Pool

namespace PooledCache

variable {s t : PooledCache} {e : Event} {id : Nat} {d : SharedCache}

/-- The steps that are left, if no call begins. A submission may yet push a job. -/
def remaining (s : PooledCache) : Nat :=
  s.pool.pending + (2 * s.pool.workers.length + 10) * s.cache.coming + s.cache.remaining

theorem coming_of_work (hd : s.cache.step? (.work id) = some d) : d.coming = s.cache.coming := by
  obtain ⟨x,hx,hwork⟩ := Option.bind_eq_some_iff.mp hd
  rw [SharedCache.coming,SharedCache.callers_of_work? hwork,SharedCache.coming]

theorem Step.remaining_lt (h : Step s e t) (he : ¬ e.Begins) : t.remaining < s.remaining := by
  cases h with
  | submit | query => exact absurd trivial he
  | call hd hrequested hchecks hcoming =>
    have hlt := SharedCache.remaining_lt_of_step? hd id
    have hle := Nat.mul_le_mul_left (2 * s.pool.workers.length + 10) hcoming
    simp only [remaining]
    omega
  | schedule hd hrequested hchecks hcoming hq =>
    obtain ⟨hpending,hlength⟩ := Pool.pending_push hq
    have hlt := SharedCache.remaining_lt_of_step? hd id
    simp only [remaining,hpending,hlength,← hcoming,Nat.mul_add,Nat.mul_one]
    omega
  | count hq =>
    obtain ⟨hpending,hlength⟩ := Pool.pending_lt_of_call (Or.inl hq)
    simp only [remaining,hlength]
    omega
  | ring hq =>
    obtain ⟨hpending,hlength⟩ := Pool.pending_lt_of_call (Or.inr hq)
    simp only [remaining,hlength]
    omega
  | fetch hq hv =>
    have hpending := hv.pending_lt hq
    simp only [remaining,hv.length]
    omega
  | start hq hv hw hrun hd | finish hq hv hphase hd =>
    have hpending := hv.pending_lt hq
    have hlt := SharedCache.remaining_lt_of_step? hd id
    simp only [remaining,hv.length,coming_of_work hd]
    omega
  | proceed hw hphase hd hnot =>
    have hlt := SharedCache.remaining_lt_of_step? hd id
    simp only [remaining,coming_of_work hd]
    omega

namespace Carried

variable {p : Problem} {o : Oracle}

theorem done_of_rest (h : Carried s) (hrest : s.pool.workFirst? = none) (hpushed : s.pool.pushed = 0)
    (hcounted : s.pool.counted = 0) : ∀ x ∈ s.cache.checks, x.stage = .done := by
  intro x hx
  obtain ⟨id,hid⟩ := List.getElem?_of_mem hx
  have hlt : id < s.pool.jobs.length := h.jobs ▸ (List.getElem?_eq_some_iff.mp hid).1
  have hran := (h.attentive.complete_of_rest h.accounted hrest hpushed hcounted).ran
  have hpos := List.count_pos_iff.mpr (hran.mem_iff.mpr (List.mem_range.mpr hlt))
  rw [h.ran id x hid] at hpos
  refine Check.isDone_iff.mp ?_
  cases hd : x.isDone with
  | true => rfl
  | false => simp [hd] at hpos

/-- As long as a call has not returned, or a check is not done, something can go on. -/
theorem quiet_of_stuck (h : Carried s) (hco : SharedCache.Coherent p o s.cache)
    (hg : s.cache.Guarded) (hstuck : ∀ e, ¬ Event.Begins e → s.step? e = none) :
    s.cache.Quiet := by
  have hpushed : s.pool.pushed = 0 := by
    by_contra hne
    obtain ⟨q,hq⟩ := Pool.exists_step?_iff.mpr (show s.pool.Possible .count from
      Nat.pos_of_ne_zero hne)
    simpa [step?,hq] using hstuck .count id
  have hcounted : s.pool.counted = 0 := by
    by_contra hne
    obtain ⟨q,hq⟩ := Pool.exists_step?_iff.mpr (show s.pool.Possible .ring from
      Nat.pos_of_ne_zero hne)
    simpa [step?,hq] using hstuck .ring id
  have hrest : s.pool.workFirst? = none := by
    cases hq : s.pool.workFirst? with
    | none => rfl
    | some q =>
      obtain ⟨i,hi⟩ := Pool.exists_work_of_workFirst? hq
      obtain ⟨t,ht⟩ := h.exists_work_iff.mpr ⟨q,hi⟩
      rw [hstuck (.work i 0) id] at ht
      cases ht
  have hdone := h.done_of_rest hrest hpushed hcounted
  by_contra hquiet
  obtain ⟨f,d,hf,hd⟩ := SharedCache.exists_step hco hg hquiet
  cases f with
  | submit | query => exact hf trivial
  | work i =>
    obtain ⟨x,hx,hwork⟩ := Option.bind_eq_some_iff.mp hd
    simp [SharedCache.work?,hdone x (List.mem_of_getElem? hx)] at hwork
  | advance i =>
    obtain ⟨q,hq⟩ := Pool.exists_step?_iff.mpr (show s.pool.Possible (.push errand) from h.closed)
    have hnone := hstuck (.advance i) id
    simp only [step?,advance?,hd,Option.bind_some,hq,Option.map_some] at hnone
    split at hnone <;> cases hnone

end Carried

theorem exists_quiet {p : Problem} {o : Oracle} (h : Carried s)
    (hco : SharedCache.Coherent p o s.cache) (hg : s.cache.Guarded) :
    ∃ rest, (∀ e ∈ rest, ¬ Event.Begins e) ∧ (s.perform rest).cache.Quiet := by
  induction hn : s.remaining using Nat.strongRecOn generalizing s with
  | _ n ih =>
    by_cases hstuck : ∀ e, ¬ Event.Begins e → s.step? e = none
    · exact ⟨[],by simp,h.quiet_of_stuck hco hg hstuck⟩
    · simp only [not_forall] at hstuck
      obtain ⟨e,he,hsome⟩ := hstuck
      obtain ⟨t,ht⟩ := Option.ne_none_iff_exists'.mp hsome
      have hs := step_of_step? ht
      have hcache : SharedCache.Coherent p o t.cache ∧ t.cache.Guarded := by
        rcases hs.cache with hsame | ⟨f,hf⟩
        · exact hsame ▸ ⟨hco,hg⟩
        · have hf' := SharedCache.step_of_step? hf
          exact ⟨hco.step hf',hg.step hf'⟩
      obtain ⟨rest,hrest,hquiet⟩ :=
        ih _ (hn ▸ hs.remaining_lt he) (h.step hs) hcache.1 hcache.2 rfl
      refine ⟨e :: rest,List.forall_mem_cons.mpr ⟨he,hrest⟩,?_⟩
      have hnext : s.perform (e :: rest) = t.perform rest := by simp [perform,ht]
      rwa [hnext]

/-- What a cache on its pool comes to. It is a run of the cache by itself, and the pool's part is a
run of the pool; the jobs that the callers have counted are the checks that have been scheduled. A
worker of the pool has a step whenever the pool lets it, every step is one less, and when nothing
can go on all calls have returned. -/
structure Served (p : Problem) (o : Oracle) (requested : Nat) (s : PooledCache) : Prop where
  cache : ∃ es, s.cache = (SharedCache.ofProblem p o requested).perform es
  pool : ∃ es, s.pool = (Pool.ofRequested requested).perform es
  submitted : s.cache.submitted = (s.pool.submitted + s.pool.pushed).toUInt64
  possible : ∀ i extra, (∃ t, s.step? (.work i extra) = some t) ↔
    ∃ q, s.pool.step? (.work i extra) = some q
  bounded : ∀ e t, ¬ Event.Begins e → s.step? e = some t → t.remaining < s.remaining
  awake : (∀ e, ¬ Event.Begins e → s.step? e = none) → s.cache.Quiet
  quiet : ∃ rest, (∀ e ∈ rest, ¬ Event.Begins e) ∧ (s.perform rest).cache.Quiet

/-- However the steps of callers and workers follow one another, no check is lost or left waiting,
and what holds of the runs of the cache by itself holds of it on its pool. -/
theorem served_perform (p : Problem) (o : Oracle) (requested : Nat) (events : List Event) :
    Served p o requested ((ofProblem p o requested).perform events) := by
  have h := (carried_ofProblem p o requested).perform events
  obtain ⟨es,hes⟩ := exists_cache_perform (ofProblem p o requested) events
  have hco := (SharedCache.coherent_ofProblem p o requested).perform es
  have hg := (SharedCache.guarded_ofProblem p o requested).perform es
  have hcounted := (SharedCache.counted_ofProblem p o requested).perform
    (SharedCache.coherent_ofProblem p o requested) es
  have hstart : (ofProblem p o requested).cache = .ofProblem p o requested := rfl
  rw [← hstart,← hes] at hco hg hcounted
  exact
    { cache := ⟨es,hes⟩
      pool := exists_pool_perform _ events
      submitted := by rw [hcounted.submitted,← h.jobs,← h.accounted.called]
      possible := fun _ _ => h.exists_work_iff
      bounded := fun _ _ he ht => (step_of_step? ht).remaining_lt he
      awake := h.quiet_of_stuck hco hg
      quiet := exists_quiet h hco hg }

end PooledCache
end ClauseDiscovery
