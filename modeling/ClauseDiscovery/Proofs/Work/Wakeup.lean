import ClauseDiscovery.Proofs.Work.Jobs

/-! No job waits while all workers do. Whoever pushes a job into the shared queue rings the bell
afterwards, and whoever takes the token looks into the shared queue before waiting again: so a
shared queue that is not empty has a ring to come, a token, or a worker that will look. A worker's
own queue is empty whenever it looks elsewhere. -/
namespace ClauseDiscovery

/-- A worker turns away from its own queue only once that is empty. -/
def Worker.Drained (w : Worker) : Prop :=
  match w.phase with
  | .own | .running _ => True
  | .shared | .others _ | .idle | .carrying _ _ | .gone => w.queue = []

/-- The worker is yet to look into the shared queue before it waits for the bell. -/
def Phase.looksAgain : Phase → Bool
  | .own | .shared | .carrying _ _ | .running _ => true
  | .others _ | .idle | .gone => false

def Phase.waits : Phase → Bool
  | .idle | .gone => true
  | .own | .shared | .others _ | .carrying _ _ | .running _ => false

theorem Phase.waits_iff {phase : Phase} : phase.waits ↔ phase = .idle ∨ phase = .gone := by
  cases phase <;> simp [waits]

theorem Phase.looksAgain_of_waits {phase : Phase} (h : phase.waits) :
    phase.looksAgain = false := by
  rcases waits_iff.mp h with rfl | rfl <;> rfl

theorem Phase.inHand_of_waits {phase : Phase} (h : phase.waits) : phase.inHand = [] := by
  rcases waits_iff.mp h with rfl | rfl <;> rfl

namespace Worker

variable {w : Worker}

theorem Drained.queue_eq_nil_of_waits (h : w.Drained) (hw : w.phase.waits) : w.queue = [] := by
  unfold Drained at h
  rcases Phase.waits_iff.mp hw with hphase | hphase <;> simpa [hphase] using h

/-- Others may take from a queue that is not empty. -/
theorem Drained.rest {id : Nat} {rest : List Nat} (h : w.Drained) (hq : w.queue = id :: rest) :
    Drained { w with queue := rest } := by
  unfold Drained at h ⊢
  cases hphase : w.phase with
  | own | running => trivial
  | shared | others | idle | carrying | gone => simp [hphase,hq] at h

end Worker

namespace Pool

variable {α : Type} {p q : Pool α} {i : Nat} {w v : Worker}

structure Attentive (p : Pool α) : Prop where
  drained : ∀ w ∈ p.workers, w.Drained
  noticed : p.shared ≠ [] → 0 < p.pushed + p.counted + p.tokens ∨
    ∃ w ∈ p.workers, w.phase.looksAgain
  closed : p.closed → p.pushed = 0 ∧ p.counted = 0
  gone : ∀ w ∈ p.workers, w.phase = .gone → p.closed ∧ p.tokens = 0
  staffed : p.workers ≠ []

theorem forall_mem_setWorker {P : Worker → Prop} (h : ∀ w ∈ p.workers, P w) (hv : P v) :
    ∀ w ∈ (p.setWorker i v).workers, P w := fun w hw =>
  (List.mem_or_eq_of_mem_set hw).elim (h w) fun he => he ▸ hv

theorem mem_setWorker_self (hw : p.workers[i]? = some w) (v : Worker) :
    v ∈ (p.setWorker i v).workers := List.mem_of_getElem? (getElem?_setWorker_self hw v)

theorem attentive_ofRequested (requested : Nat) :
    Attentive (ofRequested requested : Pool α) where
  drained w hw := by
    rw [List.eq_of_mem_replicate hw]
    trivial
  noticed h := absurd rfl h
  closed h := Bool.noConfusion h
  gone w hw hphase := by
    rw [List.eq_of_mem_replicate hw] at hphase
    cases hphase
  staffed := by
    refine List.ne_nil_of_length_pos ?_
    rw [length_workers_ofRequested]
    omega

namespace Attentive

theorem drained_move (h : Attentive p) (hw : p.workers[i]? = some w) (hq : Move p i w q) :
    ∀ w ∈ q.workers, w.Drained := by
  have hdrained := h.drained w (List.mem_of_getElem? hw)
  unfold Worker.Drained at hdrained
  cases hq with
  | @steal j id rest v hphase hji hv hq =>
    have hrobbed := (h.drained v (List.mem_of_getElem? hv)).rest hq
    exact forall_mem_setWorker (forall_mem_setWorker h.drained hrobbed) trivial
  | pop | wake | store | finish | forget =>
    exact forall_mem_setWorker h.drained trivial
  | pass hphase hq => exact forall_mem_setWorker h.drained hq
  | take hphase | miss hphase | skip hphase | park hphase | leave hphase =>
    rw [hphase] at hdrained
    exact forall_mem_setWorker h.drained hdrained

theorem noticed_move (h : Attentive p) (hw : p.workers[i]? = some w) (hq : Move p i w q)
    (hs : q.shared ≠ []) :
    0 < q.pushed + q.counted + q.tokens ∨ ∃ w ∈ q.workers, w.phase.looksAgain := by
  cases hq with
  | pop | pass | take | wake | store | finish | forget =>
    exact Or.inr ⟨_,mem_setWorker_self hw _,rfl⟩
  | @steal j id rest v hphase hji hv hq =>
    exact Or.inr ⟨_,mem_setWorker_self (getElem?_setWorker_of_ne hji hw _) _,rfl⟩
  | miss hphase hempty => exact absurd hempty hs
  | skip hphase | park hphase | leave hphase =>
    -- this worker was not the one that looks again
    refine (h.noticed hs).imp id fun ⟨v,hv,hlooks⟩ => ⟨v,mem_set_of_ne hw hv ?_ _,hlooks⟩
    rintro rfl
    simp [hphase,Phase.looksAgain] at hlooks

theorem gone_move (h : Attentive p) (hq : Move p i w q) :
    ∀ w ∈ q.workers, w.phase = .gone → q.closed ∧ q.tokens = 0 := by
  cases hq with
  | wake hphase hn =>
    refine forall_mem_setWorker (fun v hv hgone => ?_) (by simp)
    have htokens := (h.gone v hv hgone).2
    omega
  | leave hphase hn hclosed => exact forall_mem_setWorker h.gone fun _ => ⟨hclosed,hn⟩
  | @steal j id rest v hphase hji hv hq =>
    exact forall_mem_setWorker
      (forall_mem_setWorker h.gone (h.gone v (List.mem_of_getElem? hv))) (by simp)
  | _ => exact forall_mem_setWorker h.gone (by simp)

theorem move (h : Attentive p) (hw : p.workers[i]? = some w) (hq : Move p i w q) :
    Attentive q where
  drained := h.drained_move hw hq
  noticed := h.noticed_move hw hq
  closed := by
    rw [hq.sameCallers.closed,hq.sameCallers.pushed,hq.sameCallers.counted]
    exact h.closed
  gone := h.gone_move hq
  staffed := by cases hq <;> simpa [setWorker] using h.staffed

theorem step (h : Attentive p) (hq : Step p q) : Attentive q := by
  cases hq with
  | push hclosed =>
    refine ⟨h.drained,fun _ => Or.inl ?_,fun hc => ?_,h.gone,h.staffed⟩
    · simp only
      omega
    · exact absurd hc (by simp [hclosed])
  | count hn =>
    refine ⟨h.drained,fun _ => Or.inl ?_,fun hc => ?_,h.gone,h.staffed⟩
    · simp only
      omega
    · have hpushed := (h.closed hc).1
      omega
  | ring hn =>
    have hopen : p.closed → False := fun hc => by
      have hcounted := (h.closed hc).2
      omega
    refine ⟨h.drained,fun _ => Or.inl ?_,fun hc => (hopen hc).elim,fun w hw hgone => ?_,
      h.staffed⟩
    · simp only
      omega
    · exact (hopen (h.gone w hw hgone).1).elim
  | close hpushed hcounted =>
    exact ⟨h.drained,h.noticed,fun _ => ⟨hpushed,hcounted⟩,fun w hw hgone =>
      ⟨rfl,(h.gone w hw hgone).2⟩,h.staffed⟩
  | move hw hq => exact h.move hw hq

theorem perform (h : Attentive p) (events : List (Event α)) : Attentive (p.perform events) :=
  perform_induction (fun _ _ h hq => h.step hq) h events

/-- If all workers wait, nobody is about to ring and no token is left, then no queue holds a
job. -/
theorem queues_eq_nil (h : Attentive p) (hwaits : ∀ w ∈ p.workers, w.phase.waits)
    (hpushed : p.pushed = 0) (hcounted : p.counted = 0) (htokens : p.tokens = 0) :
    p.shared = [] ∧ ∀ w ∈ p.workers, w.queue = [] := by
  refine ⟨?_,fun w hw => (h.drained w hw).queue_eq_nil_of_waits (hwaits w hw)⟩
  by_contra hs
  rcases h.noticed hs with hring | ⟨w,hw,hlooks⟩
  · omega
  · rw [Phase.looksAgain_of_waits (hwaits w hw)] at hlooks
    cases hlooks

theorem ran_perm (h : Attentive p) (ha : Accounted p) (hwaits : ∀ w ∈ p.workers, w.phase.waits)
    (hpushed : p.pushed = 0) (hcounted : p.counted = 0) (htokens : p.tokens = 0) :
    p.ran.Perm (List.range p.jobs.length) := by
  obtain ⟨hshared,hqueues⟩ := h.queues_eq_nil hwaits hpushed hcounted htokens
  have hholds : p.workers.flatMap Worker.holds = [] := by
    refine List.flatMap_eq_nil_iff.mpr fun w hw => ?_
    rw [Worker.holds,hqueues w hw,Phase.inHand_of_waits (hwaits w hw),List.append_nil]
  have hplaces := ha.places
  rwa [places,hshared,hholds,List.append_nil,List.nil_append] at hplaces

end Attentive

end Pool
end ClauseDiscovery
