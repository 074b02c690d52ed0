import ClauseDiscovery.Proofs.Memo.Step
import ClauseDiscovery.Proofs.Oracle.Record

/-! What a cache that threads share keeps, in whatever order its steps come. No formula has two
checks, since one that is scheduled is kept by its caller until it is in the table; so no formula
is asked about twice, and a check comes to what its one call came to. -/
namespace ClauseDiscovery

/-- The stage that a check has come to, by the calls on record. -/
def Check.Agrees (es : List Exchange) (x : Check) : Prop :=
  match x.stage with
  | .queued | .started | .counted => x.task = .pending ∧ ∀ e ∈ es, e.formulas ≠ [x.formula]
  | .asked r => x.task = .pending ∧ ⟨[x.formula],r⟩ ∈ es
  | .judged y => x.task = .pending ∧ ∃ r, ⟨[x.formula],r⟩ ∈ es ∧ y = r.outcome
  | .done => ∃ r, ⟨[x.formula],r⟩ ∈ es ∧ x.task.result = some r.outcome

theorem Check.Agrees.append {x : Check} {es : List Exchange} {e : Exchange}
    (h : x.Agrees es) (he : e.formulas ≠ [x.formula]) : x.Agrees (es ++ [e]) := by
  unfold Check.Agrees at h ⊢
  cases hs : x.stage <;> simp only [hs] at h ⊢
  all_goals grind

theorem Check.Agrees.exists_of_result {x : Check} {es : List Exchange} {y : Outcome Verdict}
    (h : x.Agrees es) (hy : x.task.result = some y) :
    ∃ r, ⟨[x.formula],r⟩ ∈ es ∧ y = r.outcome := by
  unfold Check.Agrees at h
  split at h
  all_goals first
    | (rw [h.1] at hy; cases hy)
    | (obtain ⟨r,hr,hxr⟩ := h
       exact ⟨r,hr,Option.some.inj (hy.symm.trans hxr)⟩)

namespace SharedCache

def scheduled (c : SharedCache) : List Formula := c.checks.map (·.formula)

/-- What a caller relies on: its check is one of its formula, a formula that it has submitted is
in the table, and its answer is that of a call on record. -/
def Allows (c : SharedCache) : Caller → Prop
  | .submitting _ | .entering _ | .querying _ => True
  | .inserting φ k | .holding φ k | .waiting φ k => c.scheduled[k]? = some φ
  | .submitted φ => φ ∈ c.table
  | .answered φ a => a = .error (.notSubmitted φ) ∨
      ∃ r, ⟨[φ],r⟩ ∈ c.exchanges ∧ a = answerOf r.outcome

/-- What holds between any two steps. -/
structure Coherent (p : Problem) (o : Oracle) (c : SharedCache) : Prop where
  problem_eq : c.problem = p
  oracle_eq : c.oracle = o
  allows : ∀ κ ∈ c.callers, c.Allows κ
  entries : ∀ (φ : Formula) (k : Nat), c.table[φ]? = some k → c.scheduled[k]? = some φ
  entered : ∀ φ ∈ c.scheduled, φ ∈ c.table ∨ φ ∈ c.kept
  nodup_scheduled : c.scheduled.Nodup
  agrees : ∀ x ∈ c.checks, x.Agrees c.exchanges
  asked : ∀ e ∈ c.exchanges, ∃ φ ∈ c.scheduled, e.formulas = [φ]
  nodup_exchanges : (c.exchanges.map (·.formulas)).Nodup
  recorded : Recorded p o c.exchanges

structure Extends (c d : SharedCache) : Prop where
  scheduled : c.scheduled <+: d.scheduled
  table : ∀ φ ∈ c.table, φ ∈ d.table
  exchanges : c.exchanges <+: d.exchanges

variable {p : Problem} {o : Oracle} {c d : SharedCache} {φ : Formula} {κ μ : Caller}
  {x y : Check} {i j k : Nat} {r : Reply}

theorem Extends.getElem? (h : Extends c d) (hk : c.scheduled[k]? = some φ) :
    d.scheduled[k]? = some φ := by
  obtain ⟨t,ht⟩ := h.scheduled
  rw [← ht,List.getElem?_append_left (List.getElem?_eq_some_iff.mp hk).1]
  exact hk

theorem Allows.extends (h : c.Allows κ) (hd : Extends c d) : d.Allows κ := by
  cases κ with
  | submitting φ => trivial
  | entering φ => trivial
  | querying φ => trivial
  | inserting φ k => exact hd.getElem? h
  | holding φ k => exact hd.getElem? h
  | waiting φ k => exact hd.getElem? h
  | submitted φ => exact hd.table φ h
  | answered φ a =>
    rcases h with h | ⟨r,hr,ha⟩
    · exact Or.inl h
    · exact Or.inr ⟨r,hd.exchanges.subset hr,ha⟩

theorem setStage_eq (hx : c.checks[i]? = some x) (s : Stage) :
    c.setStage i s = { c with checks := c.checks.set i { x with stage := s } } := by
  rw [setStage,List.modify_eq_set_getElem?,hx]
  rfl

theorem setStage_ask (hx : c.checks[i]? = some x) (s : Stage) :
    (c.ask φ).2.setStage i s = { c with
      checks := c.checks.set i { x with stage := s }
      exchanges := c.exchanges ++ [⟨[φ],(c.ask φ).1⟩] } :=
  setStage_eq (c := (c.ask φ).2) hx s

theorem getElem?_scheduled (hx : c.checks[i]? = some x) : c.scheduled[i]? = some x.formula := by
  simp [scheduled,hx]

theorem exists_check (hk : c.scheduled[k]? = some φ) :
    ∃ x, c.checks[k]? = some x ∧ x.formula = φ := by
  simpa [scheduled] using hk

theorem index_eq_of_formula (h : c.scheduled.Nodup) (hx : c.checks[i]? = some x)
    (hy : c.checks[j]? = some y) (he : x.formula = y.formula) : i = j := by
  have hi := getElem?_scheduled hx
  have hj := getElem?_scheduled hy
  rw [he] at hi
  exact (List.getElem?_inj (List.getElem?_eq_some_iff.mp hi).1 h).mp (hi.trans hj.symm)

theorem scheduled_set (hx : c.checks[i]? = some x) (hy : y.formula = x.formula) :
    (c.checks.set i y).map (·.formula) = c.scheduled := by
  obtain ⟨hi,hix⟩ := List.getElem?_eq_some_iff.mp (getElem?_scheduled hx)
  rw [List.map_set,hy,← hix]
  exact List.set_getElem_self hi

theorem coherent_ofProblem (p : Problem) (o : Oracle) (n : Nat) :
    Coherent p o (ofProblem p o n) where
  problem_eq := rfl
  oracle_eq := rfl
  allows := by simp [ofProblem]
  entries := by simp [ofProblem]
  entered := by simp [ofProblem,scheduled]
  nodup_scheduled := List.nodup_nil
  agrees := by simp [ofProblem]
  asked := by simp [ofProblem]
  nodup_exchanges := List.nodup_nil
  recorded := recorded_nil

namespace Coherent

theorem agreesAt (h : Coherent p o c) (hx : c.checks[i]? = some x) {s : Stage}
    (hs : x.stage = s) : ({ x with stage := s } : Check).Agrees c.exchanges := by
  rw [← hs]
  exact h.agrees x (List.mem_of_getElem? hx)

theorem counters (h : Coherent p o c) (n : Counters) : Coherent p o { c with counters := n } :=
  { h with }

theorem callers (h : Coherent p o c) {κs : List Caller} (hκ : ∀ κ ∈ κs, c.Allows κ) :
    Coherent p o { c with callers := κs } :=
  { h with allows := hκ }

theorem begin (h : Coherent p o c) (hκ : c.Allows κ) :
    Coherent p o { c with callers := c.callers ++ [κ] } := by
  apply h.callers
  intro μ hμ
  rcases List.mem_append.mp hμ with hμ | hμ
  · exact h.allows μ hμ
  · rwa [List.mem_singleton.mp hμ]

theorem setCaller (h : Coherent p o c) (i : Nat) (hκ : c.Allows κ) :
    Coherent p o (c.setCaller i κ) := by
  apply h.callers
  intro μ hμ
  rcases List.mem_or_eq_of_mem_set hμ with hμ | rfl
  · exact h.allows μ hμ
  · exact hκ

theorem setCheck (h : Coherent p o c) (hx : c.checks[i]? = some x) (hf : y.formula = x.formula)
    (hy : y.Agrees c.exchanges) : Coherent p o { c with checks := c.checks.set i y } := by
  have hs : ({ c with checks := c.checks.set i y } : SharedCache).scheduled = c.scheduled :=
    scheduled_set hx hf
  have hext : Extends c { c with checks := c.checks.set i y } :=
    ⟨hs ▸ List.prefix_rfl,fun _ => id,List.prefix_rfl⟩
  exact { h with
    allows := fun κ hκ => (h.allows κ hκ).extends hext
    entries := fun φ k hk => hext.getElem? (h.entries φ k hk)
    entered := hs ▸ h.entered
    nodup_scheduled := hs ▸ h.nodup_scheduled
    agrees := fun z hz => (List.mem_or_eq_of_mem_set hz).elim (h.agrees z) fun he => he ▸ hy
    asked := hs ▸ h.asked }

theorem setStage (h : Coherent p o c) (hx : c.checks[i]? = some x) {s : Stage}
    (hs : ({ x with stage := s } : Check).Agrees c.exchanges) : Coherent p o (c.setStage i s) := by
  rw [setStage_eq hx]
  exact h.setCheck hx rfl hs

theorem schedule (h : Coherent p o c) (hk : φ ∉ c.kept) (ht : φ ∉ c.table) :
    Coherent p o (c.schedule φ) := by
  have hnew : φ ∉ c.scheduled := fun hm => (h.entered φ hm).elim ht hk
  have hs : (c.schedule φ).scheduled = c.scheduled ++ [φ] := List.map_append
  have hext : Extends c (c.schedule φ) :=
    ⟨hs ▸ List.prefix_append _ _,fun _ => id,List.prefix_rfl⟩
  have hunasked : (Check.ofFormula φ).Agrees c.exchanges := by
    refine ⟨rfl,fun e he hf => ?_⟩
    obtain ⟨ψ,hψ,heψ⟩ := h.asked e he
    obtain rfl : ψ = φ := List.singleton_inj.mp (heψ.symm.trans hf)
    exact hnew hψ
  refine { h with
    allows := fun κ hκ => (h.allows κ hκ).extends hext
    entries := fun ψ k hk => hext.getElem? (h.entries ψ k hk)
    entered := ?_
    nodup_scheduled := by
      rw [hs,← List.concat_eq_append]
      exact h.nodup_scheduled.concat hnew
    agrees := ?_
    asked := ?_ }
  · intro ψ hψ
    rw [hs] at hψ
    rcases List.mem_append.mp hψ with hψ | hψ
    · exact (h.entered ψ hψ).imp id (List.mem_cons_of_mem _)
    · rw [List.mem_singleton.mp hψ]
      exact Or.inr List.mem_cons_self
  · intro x hx
    rcases List.mem_append.mp hx with hx | hx
    · exact h.agrees x hx
    · rwa [List.mem_singleton.mp hx]
  · intro e he
    obtain ⟨ψ,hψ,heψ⟩ := h.asked e he
    exact ⟨ψ,hext.scheduled.subset hψ,heψ⟩

theorem insert (h : Coherent p o c) (hk : c.scheduled[k]? = some φ) :
    Coherent p o { c with
      table := c.table.insert φ k
      kept := c.kept.erase φ } := by
  have hext : Extends c { c with
      table := c.table.insert φ k
      kept := c.kept.erase φ } :=
    ⟨List.prefix_rfl,fun ψ hψ => Std.HashMap.mem_insert.mpr (Or.inr hψ),List.prefix_rfl⟩
  refine { h with
    allows := fun κ hκ => (h.allows κ hκ).extends hext
    entries := ?_
    entered := ?_ }
  · intro ψ l hl
    rw [Std.HashMap.getElem?_insert] at hl
    split at hl
    · rename_i he
      cases hl
      exact eq_of_beq he ▸ hk
    · exact h.entries ψ l hl
  · intro ψ hψ
    by_cases he : φ = ψ
    · exact Or.inl (Std.HashMap.mem_insert.mpr (Or.inl (by simpa using he)))
    · rcases h.entered ψ hψ with ht | hkept
      · exact Or.inl (hext.table ψ ht)
      · exact Or.inr ((List.mem_erase_of_ne (Ne.symm he)).mpr hkept)

/-- The one call about a formula: its check has not asked before, and no other check is of this
formula. -/
theorem ask (h : Coherent p o c) (hx : c.checks[i]? = some x) (hs : x.stage = .counted) :
    Coherent p o ((c.ask x.formula).2.setStage i (.asked (c.ask x.formula).1)) := by
  obtain ⟨hpending,hnew⟩ := h.agreesAt hx hs
  have hreply : (c.ask x.formula).1 =
      (o.answer p c.exchanges.length [x.formula]).checked 1 := by
    rw [← h.problem_eq,← h.oracle_eq]
    rfl
  rw [setStage_ask hx]
  generalize (c.ask x.formula).1 = r at hreply
  have hd : ({ c with
      checks := c.checks.set i { x with stage := .asked r }
      exchanges := c.exchanges ++ [⟨[x.formula],r⟩] } : SharedCache).scheduled = c.scheduled :=
    scheduled_set hx rfl
  have hext : Extends c { c with
      checks := c.checks.set i { x with stage := .asked r }
      exchanges := c.exchanges ++ [⟨[x.formula],r⟩] } :=
    ⟨hd ▸ List.prefix_rfl,fun _ => id,List.prefix_append _ _⟩
  refine { h with
    allows := fun κ hκ => (h.allows κ hκ).extends hext
    entries := fun φ k hk => hext.getElem? (h.entries φ k hk)
    entered := hd ▸ h.entered
    nodup_scheduled := hd ▸ h.nodup_scheduled
    agrees := ?_
    asked := ?_
    nodup_exchanges := ?_
    recorded := h.recorded.append_singleton hreply }
  · intro z hz
    obtain ⟨j,hj⟩ := List.getElem?_of_mem hz
    rw [List.getElem?_set] at hj
    split at hj
    · obtain ⟨-,rfl⟩ : i < c.checks.length ∧ { x with stage := .asked r } = z := by simpa using hj
      exact ⟨hpending,List.mem_append_right _ List.mem_cons_self⟩
    · rename_i hij
      refine (h.agrees z (List.mem_of_getElem? hj)).append fun he => hij ?_
      exact index_eq_of_formula h.nodup_scheduled hx hj (List.singleton_inj.mp he)
  · intro e he
    rw [hd]
    rcases List.mem_append.mp he with he | he
    · exact h.asked e he
    · rw [List.mem_singleton.mp he]
      exact ⟨x.formula,List.mem_of_getElem? (getElem?_scheduled hx),rfl⟩
  · rw [List.map_append,List.map_singleton,← List.concat_eq_append]
    refine h.nodup_exchanges.concat fun hm => ?_
    obtain ⟨e,he,hf⟩ := List.mem_map.mp hm
    exact hnew e he hf

theorem step (h : Coherent p o c) (hd : Step c d) : Coherent p o d := by
  cases hd with
  | submit φ => exact h.begin trivial
  | query φ => exact h.begin trivial
  | announce hκ => exact (h.counters _).setCaller _ trivial
  | repeated hκ hkept htable => exact (h.counters _).setCaller _ htable
  | schedule hκ hkept htable =>
    refine (h.schedule hkept htable).setCaller _ ?_
    simp [Allows,scheduled,Check.ofFormula]
  | insert hκ =>
    have hk := h.allows _ (List.mem_of_getElem? hκ)
    exact (h.insert hk).setCaller _ Std.HashMap.mem_insert_self
  | missing hκ hkept htable => exact h.setCaller _ (Or.inl rfl)
  | found hκ hkept htable => exact h.setCaller _ (h.entries _ _ htable)
  | look hκ hx =>
    have hk := h.allows _ (List.mem_of_getElem? hκ)
    exact (h.counters _).setCaller _ hk
  | @receive i k φ x r hκ hx hr =>
    refine h.setCaller _ (Or.inr ?_)
    have hk : c.scheduled[k]? = some φ := h.allows _ (List.mem_of_getElem? hκ)
    obtain rfl : x.formula = φ := Option.some.inj ((getElem?_scheduled hx).symm.trans hk)
    obtain ⟨q,hq,hrq⟩ := (h.agrees x (List.mem_of_getElem? hx)).exists_of_result hr
    exact ⟨q,hq,congrArg answerOf hrq⟩
  | start hx hs hbusy =>
    have hag := h.agreesAt hx hs
    exact h.setStage hx ⟨hag.1,hag.2⟩
  | count hx hs =>
    have hag := h.agreesAt hx hs
    exact (h.counters (c.counters.call 1)).setStage hx ⟨hag.1,hag.2⟩
  | ask hx hs => exact h.ask hx hs
  | fail hx hs he =>
    have hag := h.agreesAt hx hs
    exact (h.counters c.counters.failure).setStage hx ⟨hag.1,_,hag.2,rfl⟩
  | judge hx hs he =>
    have hag := h.agreesAt hx hs
    exact h.setStage hx ⟨hag.1,_,hag.2,rfl⟩
  | finish hx hs =>
    obtain ⟨hpending,q,hq,rfl⟩ := h.agreesAt hx hs
    refine h.setCheck hx rfl ⟨q,hq,?_⟩
    rw [hpending,Task.fulfil_pending]

theorem perform (h : Coherent p o c) (events : List Event) : Coherent p o (c.perform events) :=
  perform_induction (fun _ _ _ h hd => h.step (step_of_step? hd)) h events

end Coherent
end SharedCache
end ClauseDiscovery
