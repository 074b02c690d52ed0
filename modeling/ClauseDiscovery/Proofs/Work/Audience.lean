import ClauseDiscovery.Work.Audience
import Mathlib.Data.List.Induction

/-! The result of a task is written once. The end refers to the slot exactly until the result of
its first and only use is about to be put in, so whatever is offered later finds nothing to put it
into; and a reader sleeps only while the slot is empty. -/
namespace ClauseDiscovery

def Sighting.Shows {α : Type} (o : Option (Outcome α)) : Sighting α → Prop
  | returned _ r => o = some r
  | looked _ p => p = o
  | asked _ finished => finished = o.isSome

def Use.action {α : Type} : Use α → Task.Action α
  | complete r => .complete r
  | drop => .leave

namespace Audience

def Event.use? {α : Type} : Event α → Option (Use α)
  | use u => some u
  | proceed | clone | wait _ | tryGet _ | isFinished _ => none

def firstUse {α : Type} (events : List (Event α)) : Option (Use α) := events.findSome? Event.use?

inductive Step {α : Type} (a : Audience α) : Event α → Audience α → Prop
  | use {u : Use α} : a.duties = none →
      Step a (.use u) { a with duties := some (.offer u.outcome :: u.rest) }
  | give {r : Outcome α} {rest : List (Duty α)} : a.duties = some (.offer r :: rest) →
      a.holds → Step a .proceed { a with holds := false, duties := some (.put r :: rest) }
  | pass {r : Outcome α} {rest : List (Duty α)} : a.duties = some (.offer r :: rest) →
      a.holds = false → Step a .proceed { a with duties := some rest }
  | put {r : Outcome α} {rest : List (Duty α)} : a.duties = some (.put r :: rest) →
      Step a .proceed { a with
        slot := a.slot.or (some r)
        duties := some rest
        readers := a.readers.map Attention.wake }
  | clone : Step a .clone { a with readers := a.readers ++ [.free] }
  | leave {i : Nat} {r : Outcome α} : a.slot = some r → Step a (.wait i) { a with
        readers := a.readers.set i .free
        sightings := a.sightings ++ [.returned i r] }
  | sleep {i : Nat} : a.slot = none →
      Step a (.wait i) { a with readers := a.readers.set i .asleep }
  | see {e : Event α} {s : Sighting α} : e.use? = none → s.Shows a.slot →
      Step a e { a with sightings := a.sightings ++ [s] }

variable {α : Type} {a b : Audience α} {e : Event α} {r : Outcome α} {u : Use α}

theorem step_of_step? (h : a.step? e = some b) : Step a e b := by
  cases e with
  | use u =>
    simp only [step?] at h
    split at h
    · rename_i hnone
      cases h
      exact .use hnone
    · cases h
  | proceed =>
    simp only [step?,proceed?] at h
    split at h
    · rename_i r rest hduties
      split at h
      · rename_i hholds
        cases h
        exact .give hduties hholds
      · rename_i hholds
        cases h
        exact .pass hduties (by simpa using hholds)
    · rename_i r rest hduties
      cases h
      exact .put hduties
    · cases h
    · cases h
  | clone =>
    cases h
    exact .clone
  | wait i =>
    simp only [step?,wait?,Option.ite_none_right_eq_some] at h
    obtain ⟨-,h⟩ := h
    split at h
    · rename_i r hr
      cases h
      exact .leave hr
    · rename_i hnone
      cases h
      exact .sleep hnone
  | tryGet i =>
    simp only [step?,see?,Option.ite_none_right_eq_some,Option.some.injEq] at h
    obtain ⟨-,rfl⟩ := h
    exact .see rfl rfl
  | isFinished i =>
    simp only [step?,see?,Option.ite_none_right_eq_some,Option.some.injEq] at h
    obtain ⟨-,rfl⟩ := h
    exact .see rfl rfl

theorem perform_append_singleton (a : Audience α) (events : List (Event α)) (e : Event α) :
    a.perform (events ++ [e]) = ((a.perform events).step? e).getD (a.perform events) := by
  simp [perform]

theorem perform_induction {P : Audience α → Prop}
    (hstep : ∀ b c e, P b → Step b e c → P c) (h : P a) (events : List (Event α)) :
    P (a.perform events) := by
  induction events using List.reverseRecOn with
  | nil => exact h
  | append_singleton events e ih =>
    rw [perform_append_singleton]
    cases hs : (a.perform events).step? e with
    | none => exact ih
    | some c => exact hstep _ c e ih (step_of_step? hs)

theorem Step.slot (h : Step a e b) (hr : a.slot = some r) : b.slot = some r := by
  cases h <;> simp [hr]

theorem Step.sightings (h : Step a e b) :
    ∃ news, b.sightings = a.sightings ++ news ∧ ∀ s ∈ news, s.Shows a.slot := by
  cases h with
  | use | give | pass | put | clone | sleep => exact ⟨[],by simp⟩
  | @leave i r hr => exact ⟨[.returned i r],rfl,by simp [Sighting.Shows,hr]⟩
  | @see e s _ hs => exact ⟨[s],rfl,by simpa using hs⟩

/-- How far the use of the writing end has come: the end holds the slot until it gives it up for
the result, and the slot is empty until that is put in. -/
inductive Stage (a : Audience α) : Option (Use α) → Prop
  | unused : a.slot = none → a.holds → a.duties = none → Stage a none
  | called {u : Use α} : a.slot = none → a.holds →
      a.duties = some (.offer u.outcome :: u.rest) → Stage a (some u)
  | given {u : Use α} : a.slot = none → a.holds = false →
      a.duties = some (.put u.outcome :: u.rest) → Stage a (some u)
  | written {u : Use α} : a.slot = some u.outcome → a.holds = false → a.duties = some u.rest →
      Stage a (some u)
  | ended {u : Use α} : a.slot = some u.outcome → a.holds = false → a.duties = some [] →
      Stage a (some u)

namespace Stage

variable {p : Option (Use α)}

theorem congr (h : Stage a p) (hslot : b.slot = a.slot) (hholds : b.holds = a.holds)
    (hduties : b.duties = a.duties) : Stage b p := by
  cases h with
  | unused hs hh hd =>
    exact .unused (hslot.trans hs) (hholds.trans hh) (hduties.trans hd)
  | called hs hh hd => exact .called (hslot.trans hs) (hholds.trans hh) (hduties.trans hd)
  | given hs hh hd => exact .given (hslot.trans hs) (hholds.trans hh) (hduties.trans hd)
  | written hs hh hd => exact .written (hslot.trans hs) (hholds.trans hh) (hduties.trans hd)
  | ended hs hh hd => exact .ended (hslot.trans hs) (hholds.trans hh) (hduties.trans hd)

theorem step (h : Stage a p) (hs : Step a e b) : Stage b (p.or e.use?) := by
  cases hs with
  | @use u hnone =>
    cases h with
    | unused hslot hholds _ => exact .called hslot hholds rfl
    | called _ _ hd | given _ _ hd | written _ _ hd | ended _ _ hd => simp [hnone] at hd
  | give hduties hholds =>
    cases h with
    | called hslot _ hd =>
      rw [hduties] at hd
      cases hd
      exact .given hslot rfl rfl
    | unused _ _ hd => simp [hduties] at hd
    | given _ hh _ | written _ hh _ | ended _ hh _ => simp [hholds] at hh
  | pass hduties hholds =>
    cases h with
    | @written u hslot _ hd =>
      -- only a use that completed the task has left anything to do
      cases u with
      | complete r =>
        rw [hduties] at hd
        cases hd
        exact .ended hslot hholds rfl
      | drop => simp [hduties,Use.rest] at hd
    | unused _ hh _ | called _ hh _ => simp [hholds] at hh
    | given _ _ hd | ended _ _ hd => simp [hduties] at hd
  | put hduties =>
    cases h with
    | given hslot hholds hd =>
      rw [hduties] at hd
      cases hd
      exact .written (by simp [hslot]) hholds rfl
    | @written u _ _ hd => cases u <;> simp [hduties,Use.rest] at hd
    | unused _ _ hd | called _ _ hd | ended _ _ hd => simp [hduties] at hd
  | clone | leave | sleep =>
    simp only [Event.use?,Option.or_none]
    exact h.congr rfl rfl rfl
  | see hnone =>
    rw [hnone,Option.or_none]
    exact h.congr rfl rfl rfl

theorem skip (h : Stage a p) (hs : a.step? e = none) : Stage a (p.or e.use?) := by
  cases hu : e.use? with
  | none => simpa using h
  | some u =>
    cases h with
    | unused _ _ hd =>
      cases e with
      | use u => simp [step?,hd] at hs
      | proceed | clone | wait | tryGet | isFinished => cases hu
    | called hslot hh hd => exact .called hslot hh hd
    | given hslot hh hd => exact .given hslot hh hd
    | written hslot hh hd => exact .written hslot hh hd
    | ended hslot hh hd => exact .ended hslot hh hd

end Stage

theorem stage_start : Stage (start : Audience α) none := .unused rfl rfl rfl

theorem stage_perform (events : List (Event α)) : Stage (start.perform events) (firstUse events) := by
  induction events using List.reverseRecOn with
  | nil => exact stage_start
  | append_singleton events e ih =>
    have hfirst : firstUse (events ++ [e]) = (firstUse events).or e.use? := by
      simp [firstUse]
    rw [perform_append_singleton,hfirst]
    cases hs : ((start : Audience α).perform events).step? e with
    | none => exact ih.skip hs
    | some c => exact ih.step (step_of_step? hs)

theorem slot_perform (h : a.slot = some r) (later : List (Event α)) :
    (a.perform later).slot = some r :=
  perform_induction (P := fun b => b.slot = some r) (fun _ _ _ hb hs => hs.slot hb) h later

namespace Stage

variable {p : Option (Use α)}

/-- Three duties are the most that an owner ever has. -/
theorem duties_proceed (h : Stage a (some u)) :
    (a.perform [.proceed,.proceed,.proceed]).duties = some [] := by
  cases h with
  | called _ hh hd => cases u <;> simp [perform,step?,proceed?,hd,hh,Use.rest]
  | given _ hh hd | written _ hh hd => cases u <;> simp [perform,step?,proceed?,hd,hh,Use.rest]
  | ended _ _ hd => simp [perform,step?,proceed?,hd]

theorem slot_of_duties (h : Stage a (some u)) (hdone : a.duties = some []) :
    a.slot = some u.outcome := by
  cases h with
  | called _ _ hd | given _ _ hd => simp [hdone] at hd
  | written hslot | ended hslot => exact hslot

theorem exists_task_eq (h : Stage a p) :
    ∃ actions, a.task = Task.pending.perform actions := by
  cases h with
  | unused hslot hh _ | called hslot hh _ => exact ⟨[],by simp [task,writer,hslot,hh]; rfl⟩
  | @given u hslot hh hd =>
    refine ⟨[u.action],?_⟩
    cases u <;> simp [task,writer,hslot,hh,hd] <;> rfl
  | @written u hslot hh hd =>
    refine ⟨[u.action,.write],?_⟩
    cases u <;> simp [task,writer,hslot,hh,hd,Use.rest] <;> rfl
  | @ended u hslot hh hd =>
    refine ⟨[u.action,.write,.leave],?_⟩
    cases u <;> simp [task,writer,hslot,hh,hd] <;> rfl

theorem of_slot (h : Stage a p) (hr : a.slot = some r) :
    p = some (.complete r) ∨ p = some .drop ∧ r = .error .abandoned := by
  cases h with
  | unused hslot | called hslot | given hslot => simp [hr] at hslot
  | @written u hslot | @ended u hslot =>
    obtain rfl : r = u.outcome := Option.some.inj (hr.symm.trans hslot)
    cases u with
    | complete r => exact Or.inl rfl
    | drop => exact Or.inr ⟨rfl,rfl⟩

end Stage

/-- Nobody sleeps once there is a result, and nobody has got one before. -/
structure Attentive (a : Audience α) : Prop where
  awake : .asleep ∈ a.readers → a.slot = none
  blank : a.slot = none → ∀ s ∈ a.sightings, s.Shows none

theorem attentive_start : Attentive (start : Audience α) where
  awake h := by simp [start] at h
  blank _ := by simp [start]

theorem asleep_notMem_map_wake (readers : List Attention) :
    .asleep ∉ readers.map Attention.wake := by
  intro h
  obtain ⟨x,-,hx⟩ := List.mem_map.mp h
  cases x <;> cases hx

namespace Attentive

theorem step (h : Attentive a) (hs : Step a e b) : Attentive b where
  awake hb := by
    cases hs with
    | use | give | pass | see => exact h.awake hb
    | put => exact absurd hb (asleep_notMem_map_wake _)
    | clone => exact h.awake (by simpa using hb)
    | leave hr =>
      rcases List.mem_or_eq_of_mem_set hb with hmem | heq
      · exact h.awake hmem
      · cases heq
    | sleep hnone => exact hnone
  blank hb := by
    have ha : a.slot = none := by
      cases hr : a.slot with
      | none => rfl
      | some r => simp [hs.slot hr] at hb
    obtain ⟨news,hnews,hshows⟩ := hs.sightings
    rw [hnews,List.forall_mem_append]
    exact ⟨h.blank ha,ha ▸ hshows⟩

theorem perform (h : Attentive a) (events : List (Event α)) : Attentive (a.perform events) :=
  perform_induction (fun _ _ _ hb hs => hb.step hs) h events

theorem exists_returned (h : Attentive a) (hr : a.slot = some r) {i : Nat}
    (hi : i < a.readers.length) :
    ∃ b, a.step? (.wait i) = some b ∧ b.sightings = a.sightings ++ [.returned i r] := by
  have hawake : a.readers[i]? = some .free ∨ a.readers[i]? = some .woken := by
    rw [List.getElem?_eq_getElem hi]
    cases hx : a.readers[i] with
    | free => exact Or.inl rfl
    | woken => exact Or.inr rfl
    | asleep =>
      have hnone := h.awake (hx ▸ List.getElem_mem hi)
      simp [hr] at hnone
  have hwait : a.task.wait? = some r := hr
  refine ⟨{ a with
    readers := a.readers.set i .free
    sightings := a.sightings ++ [.returned i r] },?_,rfl⟩
  simp [step?,wait?,hawake,hwait]

end Attentive

theorem exists_seen (hr : a.slot = some r) {i : Nat} (hi : a.readers[i]? = some .free) :
    (∃ b, a.step? (.tryGet i) = some b ∧ b.sightings = a.sightings ++ [.looked i (some r)]) ∧
      ∃ b, a.step? (.isFinished i) = some b ∧ b.sightings = a.sightings ++ [.asked i true] := by
  have hget : a.task.tryGet = some r := hr
  have hfinished : a.task.isFinished = true := by simp [Task.isFinished,task,hr]
  constructor
  · exact ⟨{ a with sightings := a.sightings ++ [.looked i (some r)] },
      by simp [step?,see?,hi,hget],rfl⟩
  · exact ⟨{ a with sightings := a.sightings ++ [.asked i true] },
      by simp [step?,see?,hi,hfinished],rfl⟩

theorem exists_sightings_perform (h : a.slot = some r) (later : List (Event α)) :
    ∃ news, (a.perform later).sightings = a.sightings ++ news ∧ ∀ s ∈ news, s.Shows (some r) := by
  have hlater := perform_induction (a := a)
    (P := fun b => b.slot = some r ∧
      ∃ news, b.sightings = a.sightings ++ news ∧ ∀ s ∈ news, s.Shows (some r))
    (fun b c e hb hs => ?_) ⟨h,[],by simp⟩ later
  · exact hlater.2
  · obtain ⟨hslot,news,hnews,hshows⟩ := hb
    obtain ⟨more,hmore,hshown⟩ := hs.sightings
    refine ⟨hs.slot hslot,news ++ more,by rw [hmore,hnews,List.append_assoc],?_⟩
    rw [List.forall_mem_append]
    exact ⟨hshows,hslot ▸ hshown⟩

/-- What the readers of a task may rely on after the events of a run. The slot holds what the
first use of the writing end offers, or nothing yet: the result that completes the task, though
the end is dropped afterwards, or that it was abandoned if the end is dropped instead. When the
owner is done, which takes it three steps at most, the result is there. It stays; nobody has got
one before, everybody gets it from then on, and nobody sleeps any longer. And what becomes of the
task is what its own actions make of it. -/
structure WrittenOnce (events : List (Event α)) (a : Audience α) : Prop where
  offered : ∀ r, a.slot = some r → firstUse events = some (.complete r) ∨
    firstUse events = some .drop ∧ r = .error .abandoned
  completed : ∀ r, firstUse events = some (.complete r) → a.duties = some [] → a.slot = some r
  dropped : firstUse events = some .drop → a.duties = some [] →
    a.slot = some (.error .abandoned)
  done : ∀ u, firstUse events = some u →
    (a.perform [.proceed,.proceed,.proceed]).duties = some []
  kept : ∀ r, a.slot = some r → ∀ later, (a.perform later).slot = some r
  blank : a.slot = none → ∀ s ∈ a.sightings, s.Shows none
  shown : ∀ r, a.slot = some r → ∀ later,
    ∃ news, (a.perform later).sightings = a.sightings ++ news ∧ ∀ s ∈ news, s.Shows (some r)
  awake : ∀ r, a.slot = some r → ∀ i < a.readers.length,
    ∃ b, a.step? (.wait i) = some b ∧ b.sightings = a.sightings ++ [.returned i r]
  seen : ∀ r, a.slot = some r → ∀ i, a.readers[i]? = some .free →
    (∃ b, a.step? (.tryGet i) = some b ∧ b.sightings = a.sightings ++ [.looked i (some r)]) ∧
      ∃ b, a.step? (.isFinished i) = some b ∧ b.sightings = a.sightings ++ [.asked i true]
  task : ∃ actions, a.task = Task.pending.perform actions

/-- However the readers look and the owner goes on, the result of a task is written once. -/
theorem writtenOnce_perform (events : List (Event α)) :
    WrittenOnce events (start.perform events) := by
  have hstage := stage_perform events
  have hattentive := (attentive_start (α := α)).perform events
  exact
    { offered := fun _ => hstage.of_slot
      completed := fun _ hfirst => (hfirst ▸ hstage).slot_of_duties
      dropped := fun hfirst => (hfirst ▸ hstage).slot_of_duties
      done := fun _ hfirst => (hfirst ▸ hstage).duties_proceed
      kept := fun _ => slot_perform
      blank := hattentive.blank
      shown := fun _ => exists_sightings_perform
      awake := fun _ hr _ => hattentive.exists_returned hr
      seen := fun _ hr _ => exists_seen hr
      task := hstage.exists_task_eq }

/-- One reader sleeps and another asks in vain until the result is put in. -/
example : ((start : Audience Nat).perform [.clone,.wait 0,.use (.complete (.ok 7)),.proceed,
    .isFinished 1,.wait 0,.proceed,.tryGet 1,.proceed,.wait 0,.wait 1]).sightings =
      [.asked 1 false,.looked 1 (some (.ok 7)),.returned 0 (.ok 7),.returned 1 (.ok 7)] := rfl

end Audience
end ClauseDiscovery
