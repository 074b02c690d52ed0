import ClauseDiscovery.Proofs.Memo.Pooled

/-! The pool carries the checks of the cache. Between any two steps a check is under way exactly
while a worker runs its job, and done exactly when the job has run. So a worker that has found a job
never has to wait for the cache: the check is queued, and a worker is free for it, namely this
one. -/
namespace ClauseDiscovery

namespace Check

variable {x : Check}

theorem isDone_of_isRunning (h : x.isRunning) : x.isDone = false := by
  unfold isRunning at h
  unfold isDone
  split <;> simp_all

theorem stage_eq_queued (hr : x.isRunning = false) (hd : x.isDone = false) :
    x.stage = .queued := by
  unfold isRunning at hr
  unfold isDone at hd
  split at hr <;> simp_all

theorem isDone_iff : x.isDone ↔ x.stage = .done := by
  unfold isDone
  split <;> simp_all

end Check

namespace Pool

variable {α : Type} {p : Pool α} {i id : Nat} {w : Worker}

theorem Accounted.runners_eq_zero (h : Accounted p) (hid : p.jobs.length ≤ id) :
    p.runners id = 0 := by
  refine List.countP_eq_zero.mpr fun w hw hphase => ?_
  have hlt := h.lt_length (mem_places_of_running hw (of_decide_eq_true hphase))
  omega

theorem Accounted.count_ran_eq_zero (h : Accounted p) (hid : p.jobs.length ≤ id) :
    p.ran.count id = 0 := by
  refine List.count_eq_zero.mpr fun hmem => ?_
  have hlt := h.lt_length (mem_places_of_mem_ran hmem)
  omega

theorem Accounted.count_ran_add_runners_le (h : Accounted p) (id : Nat) :
    p.ran.count id + p.runners id ≤ 1 := h.runs_le_one id

theorem runners_pos (hw : p.workers[i]? = some w) (hphase : w.phase = .running id) :
    0 < p.runners id :=
  List.countP_pos_iff.mpr ⟨w,List.mem_of_getElem? hw,by simp [hphase]⟩

theorem occupied_lt_length (hw : p.workers[i]? = some w) (hphase : w.phase.job? = none) :
    p.occupied < p.workers.length :=
  List.countP_lt_length_iff.mpr ⟨w,List.mem_of_getElem? hw,by simp [hphase]⟩

end Pool

namespace PooledCache

variable {s t : PooledCache} {e : Event} {i extra id : Nat} {w v : Worker} {q : Pool Unit}
  {d : SharedCache} {x y : Check}

/-- The pool is in order, and its jobs are as far as the checks. -/
structure Carried (s : PooledCache) : Prop where
  accounted : s.pool.Accounted
  attentive : s.pool.Attentive
  closed : s.pool.closed = false
  threads : s.pool.workers.length = s.cache.threads
  jobs : s.pool.jobs.length = s.cache.checks.length
  occupied : s.pool.occupied = s.cache.busy
  running : ∀ id x, s.cache.checks[id]? = some x → s.pool.runners id = x.isRunning.toNat
  ran : ∀ id x, s.cache.checks[id]? = some x → s.pool.ran.count id = x.isDone.toNat

theorem carried_ofProblem (p : Problem) (o : Oracle) (requested : Nat) :
    Carried (ofProblem p o requested) where
  accounted := Pool.accounted_ofRequested requested
  attentive := Pool.attentive_ofRequested requested
  closed := rfl
  threads := Pool.length_workers_ofRequested requested
  jobs := rfl
  occupied := List.countP_eq_zero.mpr fun w hw => by simp [List.eq_of_mem_replicate hw,Phase.job?]
  running id x hx := by simp [ofProblem,SharedCache.ofProblem] at hx
  ran id x hx := by simp [ofProblem,SharedCache.ofProblem] at hx

namespace Carried

theorem accounted_step (h : Carried s) (ht : Step s e t) : t.pool.Accounted := by
  rcases ht.pool with hsame | ⟨f,hf⟩
  · exact hsame ▸ h.accounted
  · exact h.accounted.step (Pool.step_of_step? hf)

theorem attentive_step (h : Carried s) (ht : Step s e t) : t.pool.Attentive := by
  rcases ht.pool with hsame | ⟨f,hf⟩
  · exact hsame ▸ h.attentive
  · exact h.attentive.step (Pool.step_of_step? hf)

theorem exists_check (h : Carried s) (hid : id < s.pool.jobs.length) :
    ∃ x, s.cache.checks[id]? = some x :=
  ⟨_,List.getElem?_eq_getElem (h.jobs ▸ hid)⟩

theorem exists_running (h : Carried s) (hw : s.pool.workers[i]? = some w)
    (hphase : w.phase = .running id) : ∃ x, s.cache.checks[id]? = some x ∧ x.isRunning := by
  obtain ⟨x,hx⟩ := h.exists_check
    (h.accounted.lt_length (Pool.mem_places_of_running (List.mem_of_getElem? hw) hphase))
  refine ⟨x,hx,?_⟩
  have hpos := Pool.runners_pos hw hphase
  have hrunning := h.running id x hx
  cases hr : x.isRunning with
  | true => rfl
  | false =>
    rw [hr,Bool.toNat_false] at hrunning
    omega

/-- The check that a worker has just found waits, and a worker is free for it. -/
theorem exists_queued (h : Carried s) (hq : s.pool.step? (.work i extra) = some q)
    (hv : s.pool.Shifts i w v q) (hw : w.phase.job? = none) (hrun : v.phase = .running id) :
    ∃ x, s.cache.checks[id]? = some x ∧ x.stage = .queued ∧ s.cache.busy < s.cache.threads := by
  have ha := h.accounted.step (Pool.step_of_step? hq)
  have hlt := ha.lt_length (Pool.mem_places_of_running (List.mem_of_getElem? hv.row) hrun)
  rw [(Pool.sameCallers_of_work hq).jobs] at hlt
  obtain ⟨x,hx⟩ := h.exists_check hlt
  have hone := ha.count_ran_add_runners_le id
  have hgain := hv.runners id
  have hfree := Phase.ne_running hw id
  rw [hv.fetched hw,h.ran id x hx] at hone
  rw [h.running id x hx,decide_eq_false hfree,decide_eq_true hrun] at hgain
  simp only [Bool.toNat_false,Bool.toNat_true] at hgain
  refine ⟨x,hx,Check.stage_eq_queued ?_ ?_,?_⟩
  · cases hr : x.isRunning with
    | false => rfl
    | true =>
      rw [hr,Bool.toNat_true] at hgain
      omega
  · cases hd : x.isDone with
    | false => rfl
    | true =>
      rw [hd,Bool.toNat_true] at hone
      omega
  · rw [← h.occupied,← h.threads]
    exact Pool.occupied_lt_length hv.old hw

/-- One check goes on, and its job with it. -/
theorem update (h : Carried s) (hx : s.cache.checks[id]? = some x)
    (hd : d.requested = s.cache.requested) (hy : d.checks = s.cache.checks.set id y)
    (ha : q.Accounted) (hat : q.Attentive) (hsame : Pool.SameCallers s.pool q)
    (hlength : q.workers.length = s.pool.workers.length)
    (hoccupied : q.occupied + x.isRunning.toNat = s.pool.occupied + y.isRunning.toNat)
    (hrunning : q.runners id = y.isRunning.toNat) (hran : q.ran.count id = y.isDone.toNat)
    (hother : ∀ k ≠ id, q.runners k = s.pool.runners k ∧ q.ran.count k = s.pool.ran.count k) :
    Carried ⟨d,q⟩ := by
  have hget : ∀ k z, d.checks[k]? = some z →
      k = id ∧ z = y ∨ k ≠ id ∧ s.cache.checks[k]? = some z := by
    intro k z hz
    rw [hy] at hz
    by_cases hk : k = id
    · subst hk
      rw [List.getElem?_set_self (List.getElem?_eq_some_iff.mp hx).1] at hz
      exact Or.inl ⟨rfl,(Option.some.inj hz).symm⟩
    · rw [List.getElem?_set_ne (Ne.symm hk)] at hz
      exact Or.inr ⟨hk,hz⟩
  refine ⟨ha,hat,hsame.closed.trans h.closed,?_,?_,?_,fun k z hz => ?_,fun k z hz => ?_⟩
  · exact hlength.trans (h.threads.trans (SharedCache.threads_eq hd).symm)
  · rw [hsame.jobs,h.jobs,hy,List.length_set]
  · have hbusy := countP_set_add (q := (·.isRunning)) hx y
    have hsum : s.pool.occupied = s.cache.checks.countP (·.isRunning) := h.occupied
    change q.occupied = d.checks.countP (·.isRunning)
    rw [hy]
    omega
  · rcases hget k z hz with ⟨rfl,rfl⟩ | ⟨hk,hz⟩
    · exact hrunning
    · exact (hother k hk).1.trans (h.running k z hz)
  · rcases hget k z hz with ⟨rfl,rfl⟩ | ⟨hk,hz⟩
    · exact hran
    · exact (hother k hk).2.trans (h.ran k z hz)

theorem start (h : Carried s) (hq : s.pool.step? (.work i extra) = some q)
    (hv : s.pool.Shifts i w v q) (hw : w.phase.job? = none) (hrun : v.phase = .running id)
    (hd : s.cache.step? (.work id) = some d) : Carried ⟨d,q⟩ := by
  obtain ⟨x,hx,hqueued,-⟩ := h.exists_queued hq hv hw hrun
  obtain ⟨hrequested,y,hy,hdone,hstarted⟩ := SharedCache.checks_of_work hx hd
  have hyr : y.isRunning = true := hstarted hqueued
  have hxr : x.isRunning = false := by simp [Check.isRunning,hqueued]
  have hxd : x.isDone = false := by simp [Check.isDone,hqueued]
  have hfree := Phase.ne_running hw
  have hran := hv.fetched hw
  refine h.update hx hrequested hy (h.accounted.step (Pool.step_of_step? hq))
    (h.attentive.step (Pool.step_of_step? hq)) (Pool.sameCallers_of_work hq) hv.length ?_ ?_ ?_ ?_
  · have hsum := hv.occupied
    rw [hw,hrun] at hsum
    rw [hxr,hyr]
    exact hsum
  · have hgain := hv.runners id
    rw [decide_eq_false (hfree id),decide_eq_true hrun,h.running id x hx,hxr] at hgain
    rw [hyr]
    exact hgain
  · rw [hran,h.ran id x hx,hxd,hdone,hyr]
    rfl
  · intro k hk
    have hsame := hv.runners k
    have hne : v.phase ≠ .running k := fun hphase => hk (Phase.running.inj (hphase.symm.trans hrun))
    rw [decide_eq_false (hfree k),decide_eq_false hne] at hsame
    exact ⟨hsame,by rw [hran]⟩

theorem proceed (h : Carried s) (hw : s.pool.workers[i]? = some w) (hphase : w.phase = .running id)
    (hd : s.cache.step? (.work id) = some d) (hnot : ¬ d.checks[id]?.any (·.isDone)) :
    Carried ⟨d,s.pool⟩ := by
  obtain ⟨x,hx,hxr⟩ := h.exists_running hw hphase
  obtain ⟨hrequested,y,hy,hdone,-⟩ := SharedCache.checks_of_work hx hd
  rw [hy,List.getElem?_set_self (List.getElem?_eq_some_iff.mp hx).1,Option.any_some,hdone,
    Bool.not_eq_true,Bool.not_eq_false'] at hnot
  have hxd := Check.isDone_of_isRunning hxr
  refine h.update hx hrequested hy h.accounted h.attentive (.refl _) rfl ?_ ?_ ?_ fun _ _ => ⟨rfl,rfl⟩
  · rw [hxr,hnot]
  · rw [h.running id x hx,hxr,hnot]
  · rw [h.ran id x hx,hxd,hdone,hnot]
    rfl

theorem finish (h : Carried s) (hq : s.pool.step? (.work i extra) = some q)
    (hv : s.pool.Shifts i w v q) (hphase : w.phase = .running id)
    (hd : s.cache.step? (.work id) = some d) (hlast : d.checks[id]?.any (·.isDone)) :
    Carried ⟨d,q⟩ := by
  obtain ⟨x,hx,hxr⟩ := h.exists_running hv.old hphase
  obtain ⟨hrequested,y,hy,hdone,-⟩ := SharedCache.checks_of_work hx hd
  rw [hy,List.getElem?_set_self (List.getElem?_eq_some_iff.mp hx).1,Option.any_some] at hlast
  have hyr : y.isRunning = false := by simpa [hlast] using hdone
  have hxd := Check.isDone_of_isRunning hxr
  have hlt : id < s.pool.jobs.length := h.jobs ▸ (List.getElem?_eq_some_iff.mp hx).1
  obtain ⟨hidle,hran⟩ := hv.finished id hphase hlt
  have hfree := Phase.ne_running hidle
  refine h.update hx hrequested hy (h.accounted.step (Pool.step_of_step? hq))
    (h.attentive.step (Pool.step_of_step? hq)) (Pool.sameCallers_of_work hq) hv.length ?_ ?_ ?_ ?_
  · have hsum := hv.occupied
    rw [hphase,hidle] at hsum
    rw [hxr,hyr]
    exact hsum
  · have hloss := hv.runners id
    rw [decide_eq_true hphase,decide_eq_false (hfree id),h.running id x hx,hxr] at hloss
    rw [hyr]
    exact Nat.add_right_cancel hloss
  · rw [hran,List.count_append,h.ran id x hx,hxd,hlast]
    simp
  · intro k hk
    have hsame := hv.runners k
    have hne : w.phase ≠ .running k := fun hk' => hk (Phase.running.inj (hk'.symm.trans hphase))
    rw [decide_eq_false (hfree k),decide_eq_false hne] at hsame
    refine ⟨hsame,?_⟩
    rw [hran,List.count_append,List.count_singleton]
    simp [Ne.symm hk]

theorem schedule {φ : Formula} (h : Carried s) (hd : d.requested = s.cache.requested)
    (hchecks : d.checks = s.cache.checks ++ [Check.ofFormula φ])
    (hq : s.pool.step? (.push errand) = some q) : Carried ⟨d,q⟩ := by
  have ha := h.accounted.step (Pool.step_of_step? hq)
  have hat := h.attentive.step (Pool.step_of_step? hq)
  simp only [Pool.step?,h.closed,Bool.false_eq_true,if_false,Option.some.injEq] at hq
  subst hq
  have hget : ∀ k z, d.checks[k]? = some z →
      s.pool.jobs.length ≤ k ∧ z = Check.ofFormula φ ∨ s.cache.checks[k]? = some z := by
    intro k z hz
    rw [hchecks] at hz
    rcases Nat.lt_or_ge k s.cache.checks.length with hlt | hge
    · rw [List.getElem?_append_left hlt] at hz
      exact Or.inr hz
    · rw [List.getElem?_append_right hge] at hz
      exact Or.inl ⟨h.jobs ▸ hge,List.mem_singleton.mp (List.mem_of_getElem? hz)⟩
  refine ⟨ha,hat,rfl,?_,?_,?_,fun k z hz => ?_,fun k z hz => ?_⟩
  · exact h.threads.trans (SharedCache.threads_eq hd).symm
  · simp only [List.length_append,List.length_singleton,h.jobs,hchecks]
  · refine h.occupied.trans ?_
    change s.cache.checks.countP (·.isRunning) = d.checks.countP (·.isRunning)
    simp [hchecks,Check.ofFormula,Check.isRunning]
  · rcases hget k z hz with ⟨hk,rfl⟩ | hz
    · exact h.accounted.runners_eq_zero hk
    · exact h.running k z hz
  · rcases hget k z hz with ⟨hk,rfl⟩ | hz
    · exact h.accounted.count_ran_eq_zero hk
    · exact h.ran k z hz

theorem call (h : Carried s) (hd : d.requested = s.cache.requested)
    (hchecks : d.checks = s.cache.checks) : Carried ⟨d,s.pool⟩ := by
  refine { h with threads := ?_, jobs := ?_, occupied := ?_, running := ?_, ran := ?_ }
  · exact h.threads.trans (SharedCache.threads_eq hd).symm
  · exact h.jobs.trans (by rw [hchecks])
  · exact h.occupied.trans (by rw [SharedCache.busy,SharedCache.busy,hchecks])
  · simpa only [hchecks] using h.running
  · simpa only [hchecks] using h.ran

theorem step (h : Carried s) (ht : Step s e t) : Carried t := by
  have ha := h.accounted_step ht
  have hat := h.attentive_step ht
  cases ht with
  | submit hd hrequested hchecks | query hd hrequested hchecks | call hd hrequested hchecks =>
    exact h.call hrequested hchecks
  | schedule hd hrequested hchecks hcoming hq => exact h.schedule hrequested hchecks hq
  | count hq | ring hq =>
    simp only [Pool.step?] at hq
    split at hq
    · cases hq
    · cases hq
      exact { h with accounted := ha, attentive := hat }
  | @fetch i extra w v q hq hv hw hrun =>
    have hran := hv.fetched hw
    have hoccupied := hv.occupied
    have hrunners : ∀ k, q.runners k = s.pool.runners k := fun k => by
      have hsame := hv.runners k
      rwa [decide_eq_false (Phase.ne_running hw k),
        decide_eq_false (Phase.ne_running hrun k)] at hsame
    rw [hw,hrun,Nat.add_right_cancel_iff] at hoccupied
    have hsame := Pool.sameCallers_of_work hq
    exact ⟨ha,hat,hsame.closed.trans h.closed,hv.length.trans h.threads,
      (congrArg List.length hsame.jobs).trans h.jobs,hoccupied.trans h.occupied,
      fun k x hx => (hrunners k).trans (h.running k x hx),
      fun k x hx => hran ▸ h.ran k x hx⟩
  | start hq hv hw hrun hd => exact h.start hq hv hw hrun hd
  | proceed hw hphase hd hnot => exact h.proceed hw hphase hd hnot
  | finish hq hv hphase hd hlast => exact h.finish hq hv hphase hd hlast

theorem perform (h : Carried s) (events : List Event) : Carried (s.perform events) :=
  perform_induction (fun _ _ _ h ht => h.step ht) h events

/-- The cache never holds a worker of the pool back. -/
theorem exists_work_iff (h : Carried s) : (∃ t, s.step? (.work i extra) = some t) ↔
    ∃ q, s.pool.step? (.work i extra) = some q := by
  constructor
  · rintro ⟨t,ht⟩
    cases step_of_step? ht with
    | fetch hq | start hq | finish hq => exact ⟨_,hq⟩
    | proceed hw hphase =>
      exact Pool.exists_step?_iff.mpr ⟨_,hw,by simp [hphase],by simp [hphase]⟩
  · rintro ⟨q,hq⟩
    obtain ⟨w,hw,-⟩ := Option.bind_eq_some_iff.mp hq
    obtain ⟨v,hv⟩ := Pool.exists_shifts_of_step? hw hq
    simp only [step?,work?,jobOf?,hw,Option.bind_some]
    cases hjob : w.phase.job? with
    | some id =>
      obtain ⟨x,hx,hxr⟩ := h.exists_running hw (Phase.job?_eq_some_iff.mp hjob)
      have hnot : x.stage ≠ .done ∧ x.stage ≠ .queued := by
        constructor <;> intro hs <;> simp [Check.isRunning,hs] at hxr
      obtain ⟨d,hd⟩ := SharedCache.exists_step_of_check hx hnot.1 fun hs => absurd hs hnot.2
      simp only [hd,Option.bind_some,hq,Option.map_some]
      split <;> exact ⟨_,rfl⟩
    | none =>
      simp only [hq,Option.bind_some,hv.row]
      cases hrun : v.phase.job? with
      | none => exact ⟨_,rfl⟩
      | some id =>
        obtain ⟨x,hx,hs,hfree⟩ := h.exists_queued hq hv hjob (Phase.job?_eq_some_iff.mp hrun)
        obtain ⟨d,hd⟩ := SharedCache.exists_step_of_check hx (by simp [hs]) fun _ => hfree
        exact ⟨⟨d,q⟩,by simp only [hd,Option.map_some]⟩

end Carried

end PooledCache
end ClauseDiscovery
