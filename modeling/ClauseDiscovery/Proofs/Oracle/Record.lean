import ClauseDiscovery.Oracle.Basic
import ClauseDiscovery.World.Problem
import Mathlib.Data.List.Nodup

/-! The record of all calls of an oracle. An exchange that is not successful settles nothing and
its batch is sent again; where no formula is settled twice, each verdict has one place in one
successful exchange. -/
namespace ClauseDiscovery

def Oracle.answer (o : Oracle) (p : Problem) (call : Nat) (batch : List Formula) : Reply :=
  o.reply call p.vocabulary p.interpretations batch

namespace Reply

variable {n : Nat} {r : Reply} {vs : List Bool} {e : OracleError} {p : PanicPayload}

theorem checked_eq_verdicts_iff :
    r.checked n = .verdicts vs ↔ r = .verdicts vs ∧ vs.length = n := by
  cases r with
  | verdicts us =>
    simp only [checked]
    split
    · simp only [verdicts.injEq]
      grind
    · simp only [reduceCtorEq,false_iff,verdicts.injEq]
      grind
  | failed e => simp
  | panicked p => simp

theorem checked_eq_failed_iff : r.checked n = .failed e ↔
    r = .failed e ∨ ∃ vs, r = .verdicts vs ∧ vs.length ≠ n ∧ e = .verdictCount n vs.length := by
  cases r with
  | verdicts us =>
    simp only [checked]
    split <;> grind
  | failed e => simp
  | panicked p => simp

theorem checked_eq_panicked_iff : r.checked n = .panicked p ↔ r = .panicked p := by
  cases r with
  | verdicts us =>
    simp only [checked]
    split <;> simp
  | failed e => simp
  | panicked q => simp

end Reply

namespace Exchange

def succeeded (e : Exchange) : Bool :=
  match e.reply with
  | .verdicts _ => true
  | _ => false

/-- The batch of a successful exchange; another one settles nothing. -/
def settled (e : Exchange) : List Formula := if e.succeeded then e.formulas else []

def decided (e : Exchange) : List (Formula × Bool) :=
  match e.reply with
  | .verdicts vs => e.formulas.zip vs
  | _ => []

variable {e : Exchange} {φ : Formula} {v : Bool}

theorem succeeded_iff : e.succeeded ↔ ∃ vs, e.reply = .verdicts vs := by
  cases h : e.reply <;> simp [succeeded,h]

theorem mem_settled : φ ∈ e.settled ↔ e.succeeded ∧ φ ∈ e.formulas := by
  unfold settled
  split <;> simp_all

theorem decided_of_not_succeeded (h : ¬ e.succeeded) : e.decided = [] := by
  cases hr : e.reply with
  | verdicts vs => exact absurd (succeeded_iff.mpr ⟨vs,hr⟩) h
  | failed e => simp [decided,hr]
  | panicked p => simp [decided,hr]

/-- The place of a verdict is the place of its formula. -/
theorem mem_decided : (φ,v) ∈ e.decided ↔
    ∃ (vs : List Bool) (k : Nat),
      e.reply = .verdicts vs ∧ e.formulas[k]? = some φ ∧ vs[k]? = some v := by
  cases hr : e.reply with
  | verdicts vs =>
    simp only [decided,hr,List.mem_iff_getElem?,List.getElem?_zip_eq_some,Reply.verdicts.injEq]
    constructor
    · rintro ⟨k,hk⟩
      exact ⟨vs,k,rfl,hk⟩
    · rintro ⟨us,k,rfl,hk⟩
      exact ⟨k,hk⟩
  | failed e => simp [decided,hr]
  | panicked p => simp [decided,hr]

end Exchange

def settledBy (es : List Exchange) : List Formula := es.flatMap (·.settled)

def decidedBy (es : List Exchange) : List (Formula × Bool) := es.flatMap (·.decided)

/-- The record is what the oracle came to, call by call. -/
def Recorded (p : Problem) (o : Oracle) (es : List Exchange) : Prop :=
  ∀ i e, es[i]? = some e → e.reply = (o.answer p i e.formulas).checked e.formulas.length

/-- After an exchange that is not successful, the next batch begins with the same formulas, or
those that wait do. -/
def Retried (es : List Exchange) (waiting : List Formula) : Prop :=
  ∀ as e bs, es = as ++ e :: bs → ¬ e.succeeded →
    e.formulas <+: (bs.map (·.formulas)).headD waiting

/-- The verdict is the oracle's: it stands at the place of the formula in the one batch about the
formula that was answered. -/
def IsVerdict (p : Problem) (o : Oracle) (es : List Exchange) (φ : Formula) (v : Bool) : Prop :=
  ∃ (i k : Nat) (batch : List Formula) (vs : List Bool),
    es[i]? = some ⟨batch,.verdicts vs⟩ ∧
    o.answer p i batch = .verdicts vs ∧ vs.length = batch.length ∧
    batch[k]? = some φ ∧ vs[k]? = some v ∧
    (∀ l, batch[l]? = some φ → l = k) ∧
    ∀ j e, es[j]? = some e → e.succeeded → φ ∈ e.formulas → j = i

variable {es fs : List Exchange} {e d : Exchange} {φ : Formula} {v : Bool} {i j : Nat}
  {ws us : List Formula} {p : Problem} {o : Oracle}

@[simp] theorem settledBy_nil : settledBy [] = [] := rfl

@[simp] theorem settledBy_append : settledBy (es ++ fs) = settledBy es ++ settledBy fs :=
  List.flatMap_append

@[simp] theorem settledBy_singleton : settledBy [e] = e.settled := by simp [settledBy]

@[simp] theorem decidedBy_nil : decidedBy [] = [] := rfl

@[simp] theorem decidedBy_append : decidedBy (es ++ fs) = decidedBy es ++ decidedBy fs :=
  List.flatMap_append

@[simp] theorem decidedBy_singleton : decidedBy [e] = e.decided := by simp [decidedBy]

theorem mem_settledBy : φ ∈ settledBy es ↔ ∃ e ∈ es, e.succeeded ∧ φ ∈ e.formulas := by
  simp [settledBy,Exchange.mem_settled]

theorem mem_settledBy_of_decided (h : (φ,v) ∈ decidedBy es) : φ ∈ settledBy es := by
  obtain ⟨e,he,hd⟩ := List.mem_flatMap.mp h
  obtain ⟨vs,k,hr,hk,-⟩ := Exchange.mem_decided.mp hd
  exact mem_settledBy.mpr ⟨e,he,Exchange.succeeded_iff.mpr ⟨vs,hr⟩,List.mem_of_getElem? hk⟩

theorem IsVerdict.mem_decidedBy (h : IsVerdict p o es φ v) : (φ,v) ∈ decidedBy es := by
  obtain ⟨i,k,batch,vs,hi,-,-,hk,hkv,-,-⟩ := h
  exact List.mem_flatMap.mpr
    ⟨_,List.mem_of_getElem? hi,Exchange.mem_decided.mpr ⟨vs,k,rfl,hk,hkv⟩⟩

theorem recorded_nil : Recorded p o [] := fun i e h => by simp at h

theorem Recorded.append_singleton (h : Recorded p o es)
    (he : e.reply = (o.answer p es.length e.formulas).checked e.formulas.length) :
    Recorded p o (es ++ [e]) := by
  intro i d hd
  rcases Nat.lt_trichotomy i es.length with hi | rfl | hi
  · rw [List.getElem?_append_left hi] at hd
    exact h i d hd
  · rw [List.getElem?_concat_length] at hd
    cases hd
    exact he
  · rw [List.getElem?_eq_none (by simp; omega)] at hd
    cases hd

theorem Recorded.exists_decided (h : Recorded p o es) (hφ : φ ∈ settledBy es) :
    ∃ v, (φ,v) ∈ decidedBy es := by
  obtain ⟨e,he,hs,hf⟩ := mem_settledBy.mp hφ
  obtain ⟨vs,hvs⟩ := Exchange.succeeded_iff.mp hs
  obtain ⟨i,hi⟩ := List.getElem?_of_mem he
  obtain ⟨k,hk,hkφ⟩ := List.getElem_of_mem hf
  have hlen : vs.length = e.formulas.length := Reply.length_of_checked ((h i e hi).symm.trans hvs)
  refine ⟨vs[k],List.mem_flatMap.mpr ⟨e,he,Exchange.mem_decided.mpr ⟨vs,k,hvs,?_,?_⟩⟩⟩
  · rw [List.getElem?_eq_getElem hk,hkφ]
  · exact List.getElem?_eq_getElem _

theorem retried_nil : Retried [] ws := fun as e bs h => by simp at h

theorem Retried.mono (h : Retried es ws) (hp : ws <+: us) : Retried es us := by
  intro as e bs he hs
  have hw := h as e bs he hs
  cases bs with
  | nil => exact hw.trans hp
  | cons b bs => exact hw

theorem Retried.append_singleton (h : Retried es e.formulas)
    (he : ¬ e.succeeded → e.formulas <+: us) : Retried (es ++ [e]) us := by
  intro as d bs hd hs
  rcases List.eq_nil_or_concat' bs with rfl | ⟨cs,z,rfl⟩
  · obtain ⟨rfl,hde⟩ := List.append_inj' hd rfl
    cases hde
    exact he hs
  · rw [← List.cons_append,← List.append_assoc] at hd
    obtain ⟨has,hz⟩ := List.append_inj' hd rfl
    cases hz
    have hw := h as d cs has hs
    cases cs with
    | nil => exact hw
    | cons b cs => exact hw

/-- Where no formula is settled twice, one exchange settles it. -/
theorem index_eq_of_settled (h : (settledBy es).Nodup) (hi : es[i]? = some e)
    (hj : es[j]? = some d) (he : φ ∈ e.settled) (hd : φ ∈ d.settled) : i = j := by
  have hp := (List.nodup_flatMap.mp h).2
  obtain ⟨hil,rfl⟩ := List.getElem?_eq_some_iff.mp hi
  obtain ⟨hjl,rfl⟩ := List.getElem?_eq_some_iff.mp hj
  rcases Nat.lt_trichotomy i j with hij | hij | hij
  · exact absurd hd (List.pairwise_iff_getElem.mp hp i j hil hjl hij he)
  · exact hij
  · exact absurd he (List.pairwise_iff_getElem.mp hp j i hjl hil hij hd)

theorem Recorded.isVerdict (h : Recorded p o es) (hn : (settledBy es).Nodup)
    (hd : (φ,v) ∈ decidedBy es) : IsVerdict p o es φ v := by
  obtain ⟨⟨batch,r⟩,he,hev⟩ := List.mem_flatMap.mp hd
  obtain ⟨vs,k,hvs,hk,hkv⟩ := Exchange.mem_decided.mp hev
  obtain rfl : r = .verdicts vs := hvs
  obtain ⟨i,hi⟩ := List.getElem?_of_mem he
  obtain ⟨ho,hlen⟩ := Reply.checked_eq_verdicts_iff.mp (h i _ hi).symm
  have hs : (⟨batch,.verdicts vs⟩ : Exchange).succeeded := rfl
  have hbatch : batch.Nodup := (List.nodup_flatMap.mp hn).1 _ he
  refine ⟨i,k,batch,vs,hi,ho,hlen,hk,hkv,?_,?_⟩
  · intro l hl
    obtain ⟨hkl,hkφ⟩ := List.getElem?_eq_some_iff.mp hk
    obtain ⟨hll,hlφ⟩ := List.getElem?_eq_some_iff.mp hl
    exact hbatch.getElem_inj_iff.mp (hlφ.trans hkφ.symm)
  · intro j e hj hes heφ
    refine index_eq_of_settled hn hj hi (Exchange.mem_settled.mpr ⟨hes,heφ⟩) ?_
    exact Exchange.mem_settled.mpr ⟨hs,List.mem_of_getElem? hk⟩

end ClauseDiscovery
