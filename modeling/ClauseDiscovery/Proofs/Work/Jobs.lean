import ClauseDiscovery.Proofs.Work.Step

/-! Where the jobs of a pool are. Every job that was pushed is in exactly one place: in the shared
queue, with a worker, or among those that have run. So none is run twice and none is lost, and
the counters of the workers agree with the list of the jobs that have run. -/
namespace ClauseDiscovery

/-- The jobs that a worker has taken out of a queue and has not yet run or put into its own. -/
@[simp] def Phase.inHand : Phase → List Nat
  | .carrying id batch => id :: batch
  | .running id => [id]
  | _ => []

def Worker.holds (w : Worker) : List Nat := w.queue ++ w.phase.inHand

namespace Pool

variable {α : Type} {p q : Pool α} {i id : Nat} {w v : Worker}

/-- Every job, once for each place where it is. -/
def places (p : Pool α) : List Nat := p.shared ++ p.workers.flatMap Worker.holds ++ p.ran

/-- Job `id` ends with a panic that no handle takes. -/
def panics (p : Pool α) (id : Nat) : Bool := p.jobs[id]?.any Job.panicsWorker

structure Accounted (p : Pool α) : Prop where
  places : p.places.Perm (List.range p.jobs.length)
  called : p.submitted + p.pushed = p.jobs.length
  run : p.runTotal = p.ran.length
  panicked : p.panickedTotal = p.ran.countP p.panics

theorem count_places (p : Pool α) (id : Nat) : p.places.count id =
    p.shared.count id + p.total (·.holds.count id) + p.ran.count id := by
  simp [places,total,List.count_flatMap,Function.comp_def,Nat.add_assoc]

theorem mem_places_of_mem_ran (h : id ∈ p.ran) : id ∈ p.places :=
  List.mem_append_right _ h

theorem mem_places_of_running (hw : w ∈ p.workers) (h : w.phase = .running id) :
    id ∈ p.places := by
  refine List.mem_append_left _ (List.mem_append_right _ (List.mem_flatMap.mpr ⟨w,hw,?_⟩))
  simp [Worker.holds,h]

theorem countP_running_le (p : Pool α) (id : Nat) :
    p.workers.countP (·.phase = .running id) ≤ p.total (·.holds.count id) := by
  rw [total]
  induction p.workers with
  | nil => simp
  | cons w ws ih =>
    have hw : (if w.phase = .running id then 1 else 0) ≤ w.holds.count id := by
      split
      · rename_i hphase
        simp [Worker.holds,hphase]
      · exact Nat.zero_le _
    simp only [List.countP_cons,List.map_cons,List.sum_cons,decide_eq_true_eq]
    omega

theorem count_places_setWorker (hw : p.workers[i]? = some w) (v : Worker) (id : Nat) :
    (p.setWorker i v).places.count id + w.holds.count id =
      p.places.count id + v.holds.count id := by
  have htotal := total_setWorker hw v (·.holds.count id)
  have hshared : (p.setWorker i v).shared = p.shared := rfl
  have hran : (p.setWorker i v).ran = p.ran := rfl
  rw [count_places,count_places,hshared,hran]
  omega

theorem places_setWorker_perm (hw : p.workers[i]? = some w) (h : v.holds.Perm w.holds) :
    (p.setWorker i v).places.Perm p.places := by
  refine List.perm_iff_count.mpr fun id => ?_
  have hset := count_places_setWorker hw v id
  have hholds := h.count_eq id
  omega

theorem Move.places_perm (h : Move p i w q) (hw : p.workers[i]? = some w)
    (hrun : ∀ id, w.phase = .running id → id < p.jobs.length) : q.places.Perm p.places := by
  cases h with
  | @pop id rest hphase hq =>
    refine places_setWorker_perm hw ?_
    simp [Worker.holds,hphase,hq]
  | @store id batch hphase =>
    refine places_setWorker_perm hw ?_
    simp only [Worker.holds,hphase,Phase.inHand,List.append_assoc]
    exact (List.perm_append_singleton id batch).append_left w.queue
  | @take id extra rest hphase hs =>
    refine List.perm_iff_count.mpr fun k => ?_
    have hset := count_places_setWorker (p := { p with shared := rest.drop extra }) hw
      { w with phase := .carrying id (rest.take extra) } k
    have hsplit : (rest.take extra).count k + (rest.drop extra).count k = rest.count k := by
      rw [← List.count_append,List.take_append_drop]
    simp only [count_places,total,hs,Worker.holds,hphase,Phase.inHand,List.count_append,
      List.count_cons,List.count_nil] at hset ⊢
    omega
  | @steal j id rest v hphase hji hv hq =>
    refine List.perm_iff_count.mpr fun k => ?_
    have hvictim := count_places_setWorker hv { v with queue := rest } k
    have hthief := count_places_setWorker
      (getElem?_setWorker_of_ne hji hw { v with queue := rest }) { w with phase := .running id } k
    simp only [Worker.holds,hphase,hq,Phase.inHand,List.count_append,List.count_cons,
      List.count_nil] at hvictim hthief
    omega
  | @finish id job hphase hj =>
    refine List.perm_iff_count.mpr fun k => ?_
    have hset := count_places_setWorker (p := { p with ran := p.ran ++ [id] }) hw (w.credit job) k
    simp only [count_places,total,setWorker,Worker.holds,Worker.queue_credit,Worker.phase_credit,
      hphase,Phase.inHand,List.count_append,List.count_cons,List.count_nil] at hset ⊢
    omega
  | forget hphase hj => exact absurd (hrun _ hphase) (by simpa using hj)
  | pass hphase | miss hphase | skip hphase | park hphase | wake hphase | leave hphase =>
    apply places_setWorker_perm (w := w) hw
    simp [Worker.holds,hphase]

/-- What a move adds to the list of the jobs that have run, and to the counters. -/
theorem Move.tally (h : Move p i w q) (hw : p.workers[i]? = some w) :
    (q.ran = p.ran ∧ q.runTotal = p.runTotal ∧ q.panickedTotal = p.panickedTotal) ∨
      ∃ id job, p.jobs[id]? = some job ∧ q.ran = p.ran ++ [id] ∧
        q.runTotal = p.runTotal + 1 ∧
        q.panickedTotal = p.panickedTotal + if job.panicsWorker then 1 else 0 := by
  simp only [runTotal_eq_total,panickedTotal_eq_total]
  cases h with
  | @finish id job hphase hj =>
    have hrun := total_setWorker hw (w.credit job) (·.run)
    have hpanicked := total_setWorker hw (w.credit job) (·.panicked)
    rw [Worker.run_credit] at hrun
    rw [Worker.panicked_credit] at hpanicked
    refine Or.inr ⟨id,job,hj,rfl,?_,?_⟩
    · change (p.setWorker i (w.credit job)).total _ = _
      omega
    · change (p.setWorker i (w.credit job)).total _ = _
      omega
  | @steal j id rest v hphase hji hv hq =>
    let thief : Worker := { w with phase := .running id }
    let victim : Worker := { v with queue := rest }
    have hsame : ∀ f : Worker → Nat, f thief = f w → f victim = f v →
        ((p.setWorker j victim).setWorker i thief).total f = p.total f := fun f hf hf' =>
      (total_setWorker_of_eq (getElem?_setWorker_of_ne hji hw victim) hf).trans
        (total_setWorker_of_eq hv hf')
    exact Or.inl ⟨rfl,hsame _ rfl rfl,hsame _ rfl rfl⟩
  | _ => exact Or.inl ⟨rfl,total_setWorker_of_eq hw rfl,total_setWorker_of_eq hw rfl⟩

theorem accounted_ofRequested (requested : Nat) : Accounted (ofRequested requested : Pool α) where
  places := by simp [ofRequested,places,Worker.holds]
  called := rfl
  run := by simp [ofRequested,runTotal_eq_total,total]
  panicked := by simp [ofRequested,panickedTotal_eq_total,total]

namespace Accounted

theorem lt_length (h : Accounted p) (hid : id ∈ p.places) : id < p.jobs.length :=
  List.mem_range.mp (h.places.mem_iff.mp hid)

theorem push (h : Accounted p) (job : Job α) : Accounted { p with
    jobs := p.jobs ++ [job]
    tasks := p.tasks ++ [job.task?]
    shared := p.shared ++ [p.jobs.length]
    pushed := p.pushed + 1 } where
  places := by
    refine List.perm_iff_count.mpr fun k => ?_
    have hcount := h.places.count_eq k
    simp only [count_places,total] at hcount
    simp only [count_places,total,List.length_append,List.length_singleton,List.range_succ,
      List.count_append]
    omega
  called := by
    have hcalled := h.called
    simp only [List.length_append,List.length_singleton]
    omega
  run := h.run
  panicked := by
    refine h.panicked.trans (List.countP_congr fun id hid => ?_)
    have hlt := h.lt_length (mem_places_of_mem_ran hid)
    simp [panics,List.getElem?_append_left hlt]

theorem move (h : Accounted p) (hw : p.workers[i]? = some w) (hq : Move p i w q) :
    Accounted q := by
  have hsame := hq.sameCallers
  have hpanics : q.panics = p.panics := funext fun id => by rw [panics,hsame.jobs,panics]
  have hrun : ∀ id, w.phase = .running id → id < p.jobs.length := fun id hphase =>
    h.lt_length (mem_places_of_running (List.mem_of_getElem? hw) hphase)
  refine ⟨?_,?_,?_,?_⟩
  · rw [hsame.jobs]
    exact (hq.places_perm hw hrun).trans h.places
  · rw [hsame.jobs,hsame.submitted,hsame.pushed]
    exact h.called
  · rcases hq.tally hw with ⟨hran,htotal,-⟩ | ⟨id,job,-,hran,htotal,-⟩
    · rw [hran,htotal,h.run]
    · rw [hran,htotal,h.run,List.length_append,List.length_singleton]
  · rw [hpanics]
    rcases hq.tally hw with ⟨hran,-,htotal⟩ | ⟨id,job,hj,hran,-,htotal⟩
    · rw [hran,htotal,h.panicked]
    · rw [hran,htotal,h.panicked,List.countP_append,List.countP_singleton,panics,hj]
      rfl

theorem step (h : Accounted p) (hq : Step p q) : Accounted q := by
  cases hq with
  | @push job hclosed => exact h.push job
  | @count n hn =>
    have hcalled := h.called
    exact { h with called := by simp only; omega }
  | ring hn => exact { h with }
  | close hpushed hcounted => exact { h with }
  | move hw hq => exact h.move hw hq

theorem perform (h : Accounted p) (events : List (Event α)) : Accounted (p.perform events) :=
  perform_induction (fun _ _ h hq => h.step hq) h events

/-- The runs of a job, those that are over and those under way, are at most one. -/
theorem runs_le_one (h : Accounted p) (id : Nat) :
    p.ran.count id + p.workers.countP (·.phase = .running id) ≤ 1 := by
  have hnodup : p.places.Nodup := h.places.nodup_iff.mpr List.nodup_range
  have hplaces := List.nodup_iff_count_le_one.mp hnodup id
  have hrunning := countP_running_le p id
  rw [count_places] at hplaces
  omega

end Accounted

end Pool
end ClauseDiscovery
