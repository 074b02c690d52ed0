import ClauseDiscovery.Proofs.Memo.Calls
import ClauseDiscovery.Proofs.Row

/-! A shared cache comes to rest. Every step of a call that has begun, and of a check, uses up
some of the steps that are left, and as long as a call has not returned or a check is not done one
of them can go on: a worker is free for the checks that wait, and whoever keeps a formula puts it
into the table without waiting for anyone. -/
namespace ClauseDiscovery

/-- The steps that a call has left; a submission may have to do those of a check as well. -/
@[simp] def Caller.remaining : Caller → Nat
  | .submitting _ => 8
  | .entering _ => 7
  | .inserting _ _ => 1
  | .submitted _ => 0
  | .querying _ => 3
  | .holding _ _ => 2
  | .waiting _ _ => 1
  | .answered _ _ => 0

@[simp] def Stage.remaining : Stage → Nat
  | .queued => 5
  | .started => 4
  | .counted => 3
  | .asked _ => 2
  | .judged _ => 1
  | .done => 0

def SharedCache.Event.Begins : SharedCache.Event → Prop
  | .submit _ | .query _ => True
  | .advance _ | .work _ => False

namespace SharedCache

variable {p : Problem} {o : Oracle} {c d : SharedCache} {φ : Formula} {κ μ : Caller}
  {x y : Check} {i k : Nat} {e : Event}

def remaining (c : SharedCache) : Nat :=
  (c.callers.map (·.remaining)).sum + (c.checks.map (·.stage.remaining)).sum

structure Quiet (c : SharedCache) : Prop where
  returned : ∀ κ ∈ c.callers, (∃ φ, κ = .submitted φ) ∨ ∃ φ a, κ = .answered φ a
  done : ∀ x ∈ c.checks, x.stage = .done

/-- Whoever has to put a formula into the table is there to do it. -/
structure Guarded (c : SharedCache) : Prop where
  keeper : ∀ φ ∈ c.kept, ∃ k, .inserting φ k ∈ c.callers
  nodup_kept : c.kept.Nodup

theorem remaining_setCaller (hκ : c.callers[i]? = some κ) (h : μ.remaining < κ.remaining) :
    (c.setCaller i μ).remaining < c.remaining := by
  have hsum := sum_map_set (f := (·.remaining)) hκ μ
  simp only [remaining,setCaller]
  omega

theorem remaining_setCheck (hx : c.checks[i]? = some x)
    (h : y.stage.remaining < x.stage.remaining) :
    ({ c with checks := c.checks.set i y } : SharedCache).remaining < c.remaining := by
  have hsum := sum_map_set (f := fun x : Check => x.stage.remaining) hx y
  simp only [remaining]
  omega

theorem remaining_setStage (hx : c.checks[i]? = some x) {s : Stage}
    (h : s.remaining < x.stage.remaining) : (c.setStage i s).remaining < c.remaining := by
  rw [setStage_eq hx]
  exact remaining_setCheck hx h

theorem Step.remaining_lt (h : Step c d) :
    d.remaining < c.remaining ∨ c.callers.length < d.callers.length := by
  cases h with
  | submit φ => simp
  | query φ => simp
  | announce hκ =>
    exact Or.inl (remaining_setCaller (c := { c with counters := _ }) hκ (by simp))
  | repeated hκ hkept htable =>
    exact Or.inl (remaining_setCaller (c := { c with counters := _ }) hκ (by simp))
  | @schedule i φ hκ hkept htable =>
    have hsum := sum_map_set (f := (·.remaining)) hκ (.inserting φ c.checks.length)
    have hentering : (Caller.entering φ).remaining = 7 := rfl
    have hinserting : (Caller.inserting φ c.checks.length).remaining = 1 := rfl
    have hqueued : (Check.ofFormula φ).stage.remaining = 5 := rfl
    refine Or.inl ?_
    simp only [SharedCache.remaining,setCaller,callers_schedule,checks_schedule,List.map_append,
      List.sum_append,List.map_singleton,List.sum_singleton]
    omega
  | insert hκ =>
    exact Or.inl (remaining_setCaller (c := { c with table := _, kept := _ }) hκ (by simp))
  | missing hκ hkept htable => exact Or.inl (remaining_setCaller hκ (by simp))
  | found hκ hkept htable => exact Or.inl (remaining_setCaller hκ (by simp))
  | look hκ hx =>
    exact Or.inl (remaining_setCaller (c := { c with counters := _ }) hκ (by simp))
  | receive hκ hx hr => exact Or.inl (remaining_setCaller hκ (by simp))
  | start hx hs hbusy => exact Or.inl (remaining_setStage hx (by simp [hs]))
  | count hx hs =>
    exact Or.inl (remaining_setStage (c := { c with counters := _ }) hx (by simp [hs]))
  | ask hx hs => exact Or.inl (remaining_setStage (c := (c.ask _).2) hx (by simp [hs]))
  | fail hx hs he =>
    exact Or.inl (remaining_setStage (c := { c with counters := _ }) hx (by simp [hs]))
  | judge hx hs he => exact Or.inl (remaining_setStage hx (by simp [hs]))
  | finish hx hs => exact Or.inl (remaining_setCheck hx (by simp [hs]))

theorem remaining_lt_of_step? (h : c.step? e = some d) (he : ¬ e.Begins) :
    d.remaining < c.remaining := by
  refine (step_of_step? h).remaining_lt.resolve_right ?_
  cases e with
  | submit φ => exact absurd trivial he
  | query φ => exact absurd trivial he
  | advance i =>
    obtain ⟨κ,hκ,hd⟩ := Option.bind_eq_some_iff.mp h
    obtain ⟨μ,hμ⟩ := callers_of_advance? hd
    simp [hμ]
  | work i =>
    obtain ⟨x,hx,hd⟩ := Option.bind_eq_some_iff.mp h
    simp [callers_of_work? hd]

theorem guarded_ofProblem (p : Problem) (o : Oracle) (n : Nat) : Guarded (ofProblem p o n) where
  keeper := by simp [ofProblem]
  nodup_kept := List.nodup_nil

namespace Guarded

theorem setCaller (h : Guarded c) (hκ : c.callers[i]? = some κ)
    (hne : ∀ φ k, κ ≠ .inserting φ k) : Guarded (c.setCaller i μ) where
  keeper φ hφ := by
    obtain ⟨k,hk⟩ := h.keeper φ hφ
    exact ⟨k,mem_set_of_ne hκ hk (hne φ k).symm μ⟩
  nodup_kept := h.nodup_kept

theorem step (h : Guarded c) (hd : Step c d) : Guarded d := by
  cases hd with
  | submit ψ =>
    refine { h with keeper := fun φ hφ => ?_ }
    obtain ⟨k,hk⟩ := h.keeper φ hφ
    exact ⟨k,List.mem_append_left _ hk⟩
  | query ψ =>
    refine { h with keeper := fun φ hφ => ?_ }
    obtain ⟨k,hk⟩ := h.keeper φ hφ
    exact ⟨k,List.mem_append_left _ hk⟩
  | announce hκ => exact setCaller (c := { c with counters := _ }) { h with } hκ (by simp)
  | repeated hκ hkept htable =>
    exact setCaller (c := { c with counters := _ }) { h with } hκ (by simp)
  | @schedule i ψ hκ hkept htable =>
    constructor
    · intro φ hφ
      rcases List.mem_cons.mp hφ with rfl | hφ
      · exact ⟨_,List.mem_set (List.getElem?_eq_some_iff.mp hκ).1 _⟩
      · obtain ⟨k,hk⟩ := h.keeper φ hφ
        exact ⟨k,mem_set_of_ne hκ hk (by simp) _⟩
    · exact List.nodup_cons.mpr ⟨hkept,h.nodup_kept⟩
  | @insert i l ψ hκ =>
    constructor
    · intro φ hφ
      obtain ⟨hne,hmem⟩ := h.nodup_kept.mem_erase_iff.mp hφ
      obtain ⟨k,hk⟩ := h.keeper φ hmem
      exact ⟨k,mem_set_of_ne hκ hk (by simp [hne]) _⟩
    · exact h.nodup_kept.erase ψ
  | missing hκ hkept htable => exact h.setCaller hκ (by simp)
  | found hκ hkept htable => exact h.setCaller hκ (by simp)
  | look hκ hx => exact setCaller (c := { c with counters := _ }) { h with } hκ (by simp)
  | receive hκ hx hr => exact h.setCaller hκ (by simp)
  | _ => exact { h with }

theorem perform (h : Guarded c) (events : List Event) : Guarded (c.perform events) :=
  perform_induction (fun _ _ _ h hd => h.step (step_of_step? hd)) h events

end Guarded

theorem exists_step_of_check (hx : c.checks[i]? = some x) (hs : x.stage ≠ .done)
    (hfree : x.stage = .queued → c.busy < c.threads) : ∃ d, c.step? (.work i) = some d := by
  simp only [step?,hx,Option.bind_some,work?]
  split
  · rename_i hqueued
    exact ⟨_,if_pos (hfree hqueued)⟩
  · exact ⟨_,rfl⟩
  · exact ⟨_,rfl⟩
  · split <;> exact ⟨_,rfl⟩
  · exact ⟨_,rfl⟩
  · rename_i hdone
    exact absurd hdone hs

/-- As long as a check is not done, one of them can go on: a busy worker can, and if none is busy
there is a free one. -/
theorem exists_work (hx : x ∈ c.checks) (hs : x.stage ≠ .done) :
    ∃ i d, c.step? (.work i) = some d := by
  by_cases hbusy : ∃ y ∈ c.checks, y.isRunning
  · obtain ⟨y,hy,hrun⟩ := hbusy
    obtain ⟨i,hi⟩ := List.getElem?_of_mem hy
    refine ⟨i,exists_step_of_check hi ?_ fun hqueued => ?_⟩
    · intro hdone
      simp [Check.isRunning,hdone] at hrun
    · simp [Check.isRunning,hqueued] at hrun
  · obtain ⟨i,hi⟩ := List.getElem?_of_mem hx
    refine ⟨i,exists_step_of_check hi hs fun _ => ?_⟩
    have hidle : c.busy = 0 := List.countP_eq_zero.mpr fun y hy hrun => hbusy ⟨y,hy,hrun⟩
    have hthreads : 0 < c.threads := Nat.lt_of_lt_of_le Nat.one_pos (Nat.le_max_left _ _)
    omega

/-- Once all checks are done and no formula is kept, nothing holds a call back. -/
theorem exists_step_of_caller (h : Coherent p o c) (hdone : ∀ x ∈ c.checks, x.stage = .done)
    (hkept : c.kept = []) (hκ : c.callers[i]? = some κ)
    (hs : ∀ φ, κ ≠ .submitted φ) (ha : ∀ φ a, κ ≠ .answered φ a) :
    ∃ d, c.step? (.advance i) = some d := by
  have hallows : c.Allows κ := h.allows κ (List.mem_of_getElem? hκ)
  simp only [step?,hκ,Option.bind_some]
  cases κ with
  | submitting φ => exact ⟨_,rfl⟩
  | entering φ =>
    simp only [advance?,hkept,List.not_mem_nil,if_false]
    split <;> exact ⟨_,rfl⟩
  | inserting φ k => exact ⟨_,rfl⟩
  | submitted φ => exact absurd rfl (hs φ)
  | querying φ =>
    simp only [advance?,hkept,List.not_mem_nil,if_false]
    split <;> exact ⟨_,rfl⟩
  | holding φ k =>
    obtain ⟨x,hx,-⟩ := exists_check hallows
    exact ⟨_,by rw [advance?,hx]; rfl⟩
  | waiting φ k =>
    obtain ⟨x,hx,-⟩ := exists_check hallows
    obtain ⟨r,-,hr⟩ := h.agreesAt hx (hdone x (List.mem_of_getElem? hx))
    have hwait : x.task.wait? = some r.outcome := hr
    exact ⟨_,by rw [advance?,hx,Option.bind_some,hwait]; rfl⟩
  | answered φ a => exact absurd rfl (ha φ a)

theorem exists_step (h : Coherent p o c) (hg : Guarded c) (hq : ¬ c.Quiet) :
    ∃ e d, ¬ e.Begins ∧ c.step? e = some d := by
  by_cases hchecks : ∃ x ∈ c.checks, x.stage ≠ .done
  · obtain ⟨x,hx,hs⟩ := hchecks
    obtain ⟨i,d,hd⟩ := exists_work hx hs
    exact ⟨.work i,d,id,hd⟩
  have hdone : ∀ x ∈ c.checks, x.stage = .done := by simpa using hchecks
  suffices hi : ∃ i d, c.step? (.advance i) = some d by
    obtain ⟨i,d,hd⟩ := hi
    exact ⟨.advance i,d,id,hd⟩
  cases hkept : c.kept with
  | cons φ rest =>
    obtain ⟨k,hk⟩ := hg.keeper φ (hkept ▸ List.mem_cons_self)
    obtain ⟨i,hi⟩ := List.getElem?_of_mem hk
    exact ⟨i,_,by rw [step?,hi]; rfl⟩
  | nil =>
    by_contra hnone
    refine hq ⟨fun κ hκ => ?_,hdone⟩
    obtain ⟨i,hi⟩ := List.getElem?_of_mem hκ
    by_contra hreturned
    refine hnone ⟨i,exists_step_of_caller h hdone hkept hi ?_ ?_⟩
    · exact fun φ hφ => hreturned (Or.inl ⟨φ,hφ⟩)
    · exact fun φ a ha => hreturned (Or.inr ⟨φ,a,ha⟩)

theorem exists_quiet (h : Coherent p o c) (hg : Guarded c) :
    ∃ rest, (∀ e ∈ rest, ¬ e.Begins) ∧ (c.perform rest).Quiet := by
  induction hn : c.remaining using Nat.strongRecOn generalizing c with
  | _ n ih =>
    by_cases hq : c.Quiet
    · exact ⟨[],by simp,hq⟩
    · obtain ⟨e,d,he,hd⟩ := exists_step h hg hq
      have hlt : d.remaining < n := hn ▸ remaining_lt_of_step? hd he
      have hs := step_of_step? hd
      obtain ⟨rest,hrest,hquiet⟩ := ih _ hlt (h.step hs) (hg.step hs) rfl
      refine ⟨e :: rest,List.forall_mem_cons.mpr ⟨he,hrest⟩,?_⟩
      have hnext : c.perform (e :: rest) = d.perform rest := by simp [perform,hd]
      rwa [hnext]

/-- From any point of any run, the cache can come to rest, and a query that begins there can be
answered: no order of the steps so far has led into a deadlock. -/
theorem exists_quiet_perform (p : Problem) (o : Oracle) (requested : Nat) (events : List Event) :
    let c := (ofProblem p o requested).perform events
    (∃ rest, (∀ e ∈ rest, ¬ e.Begins) ∧ (c.perform rest).Quiet) ∧
      ∀ φ, ∃ rest a, (∀ e ∈ rest, ¬ e.Begins) ∧
        (c.perform (.query φ :: rest)).answer? c.callers.length = some a := by
  intro c
  have h : Coherent p o c := (coherent_ofProblem p o requested).perform events
  have hg : Guarded c := (guarded_ofProblem p o requested).perform events
  refine ⟨exists_quiet h hg,fun φ => ?_⟩
  let begun : SharedCache := { c with callers := c.callers ++ [.querying φ] }
  have hbegin : Step c begun := .query φ
  obtain ⟨rest,hrest,hquiet⟩ := exists_quiet (h.step hbegin) (hg.step hbegin)
  obtain ⟨κ,hκ,hasks⟩ : ∃ κ, (begun.perform rest).callers[c.callers.length]? = some κ ∧
      κ.Asks φ False :=
    asks_perform False.elim ⟨.querying φ,List.getElem?_concat_length,rfl⟩ rest
  rcases hquiet.returned κ (List.mem_of_getElem? hκ) with ⟨ψ,rfl⟩ | ⟨ψ,a,rfl⟩
  · exact absurd hasks id
  · exact ⟨rest,a,hrest,answer?_eq_some_iff.mpr ⟨ψ,hκ⟩⟩

end SharedCache
end ClauseDiscovery
