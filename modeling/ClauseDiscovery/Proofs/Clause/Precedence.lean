import ClauseDiscovery.Proofs.Clause.Grammar
import Mathlib.Data.Set.Insert

/-! The comparisons that choose representatives are orders. Literals are totally preordered, and
clauses of one length whose predicates the order tells apart are totally ordered by their first
difference. -/
namespace ClauseDiscovery

theorem Predicate.compare_eq_eq_iff {p q : Predicate} : p.compare q = .eq ↔
    p.name = q.name ∧ p.params.map Ty.name = q.params.map Ty.name := by
  simp only [Predicate.compare,Ordering.then_eq_eq,Std.compare_eq_iff_eq]
  refine and_congr_right fun _ => ⟨And.right,fun h => ⟨?_,h⟩⟩
  simpa [arity] using congrArg List.length h

theorem Literal.eq_of_compare {l m : Literal}
    (hp : l.atom.predicate.compare m.atom.predicate = .eq → l.atom.predicate = m.atom.predicate)
    (h : l.compare m = .eq) : l = m := by
  obtain ⟨hpred,hside,hvars⟩ := compare_eq_eq_iff.mp h
  exact ext_of_eq hside (Atom.ext_of_eq (hp hpred) hvars)

section FirstDifference

variable {o : Ordering} {i : Nat} {l m : Literal} {ls ms : List Literal}

def ComparesAt (o : Ordering) (i : Nat) (ls ms : List Literal) : Prop :=
  ∃ l m, ls[i]? = some l ∧ ms[i]? = some m ∧ l.compare m = o

theorem comparesAt_zero : ComparesAt o 0 (l :: ls) (m :: ms) ↔ l.compare m = o := by
  simp [ComparesAt]

theorem comparesAt_succ : ComparesAt o (i+1) (l :: ls) (m :: ms) ↔ ComparesAt o i ls ms := by
  simp [ComparesAt]

theorem precedes_iff_comparesAt : precedes ls ms ↔
    ∃ i, ComparesAt .lt i ls ms ∧ ∀ j < i, ComparesAt .eq j ls ms := by
  induction ls generalizing ms with
  | nil => simp [ComparesAt]
  | cons l ls ih =>
    cases ms with
    | nil => simp [ComparesAt]
    | cons m ms =>
      rw [precedes_cons_iff,ih]
      constructor
      · rintro (hlt | ⟨heq,i,hi,hj⟩)
        · exact ⟨0,comparesAt_zero.mpr hlt,by simp⟩
        · refine ⟨i+1,comparesAt_succ.mpr hi,Nat.forall_lt_succ_left.mpr ⟨?_,fun j hji => ?_⟩⟩
          · exact comparesAt_zero.mpr heq
          · exact comparesAt_succ.mpr (hj j hji)
      · rintro ⟨_ | i,hi,hj⟩
        · exact Or.inl (comparesAt_zero.mp hi)
        · obtain ⟨heq,hj⟩ := Nat.forall_lt_succ_left.mp hj
          exact Or.inr ⟨comparesAt_zero.mp heq,i,comparesAt_succ.mp hi,fun j hji =>
            comparesAt_succ.mp (hj j hji)⟩

theorem precedes_asymm (h : precedes ls ms) : ¬ precedes ms ls := fun hback => by
  simpa using precedes_trans h hback

end FirstDifference

namespace Clause

/-- No two of the clauses hold different predicates that compare as equal. -/
def ToldApart (S : Set Clause) : Prop :=
  ∀ c ∈ S, ∀ d ∈ S, ∀ x ∈ c.entries, ∀ y ∈ d.entries,
    x.atom.predicate.compare y.atom.predicate = .eq → x.atom.predicate = y.atom.predicate

variable {S : Set Clause} {c d : Clause}

theorem ToldApart.eq_of_compare (h : ToldApart S) (hc : c ∈ S) (hd : d ∈ S) :
    ∀ l ∈ c.literals, ∀ m ∈ d.literals, l.compare m = .eq → l = m := by
  intro l hl m hm
  obtain ⟨x,hx,rfl⟩ := List.mem_map.mp hl
  obtain ⟨y,hy,rfl⟩ := List.mem_map.mp hm
  exact Literal.eq_of_compare (h c hc d hd x hx y hy)

theorem ToldApart.precedes_xor (h : ToldApart S) (hc : c ∈ S) (hd : d ∈ S)
    (hlen : c.length = d.length) (hne : ¬ c.sameLiterals d) :
    Xor (precedes c.literals d.literals) (precedes d.literals c.literals) := by
  have hliterals : c.literals ≠ d.literals := by simpa [sameLiterals] using hne
  have hlength : c.literals.length = d.literals.length := by simpa [literals,length] using hlen
  rcases precedes_or_precedes hlength (h.eq_of_compare hc hd) hliterals with hcd | hdc
  · exact Or.inl ⟨hcd,precedes_asymm hcd⟩
  · exact Or.inr ⟨hdc,precedes_asymm hdc⟩

/-- The comparison of literals is a total preorder, in which two are equal that stand on one side
with the same variables and with predicates that compare as equal. On clauses of one length it
gives a strict total order, by the first difference, as long as the predicates are told apart. -/
theorem precedes_orders :
    (∀ x y : Candidate, y.literal.compare x.literal = (x.literal.compare y.literal).swap) ∧
    (∀ x y z : Candidate, (x.literal.compare y.literal).isLE →
      (y.literal.compare z.literal).isLE → (x.literal.compare z.literal).isLE) ∧
    (∀ x y : Candidate, x.literal.compare y.literal = .eq ↔ x.side = y.side ∧
      x.atom.vars = y.atom.vars ∧ x.atom.predicate.compare y.atom.predicate = .eq) ∧
    (∀ p q : Predicate, p.compare q = .eq ↔
      p.name = q.name ∧ p.params.map Ty.name = q.params.map Ty.name) ∧
    (∀ c d : Clause, precedes c.literals d.literals ↔ ∃ i,
      ComparesAt .lt i c.literals d.literals ∧ ∀ j < i, ComparesAt .eq j c.literals d.literals) ∧
    ∀ (n : Nat) (S : Set Clause), (∀ c ∈ S, c.length = n) → ToldApart S →
      (∀ c ∈ S, ¬ precedes c.literals c.literals) ∧
      (∀ c ∈ S, ∀ d ∈ S, ∀ e ∈ S, precedes c.literals d.literals →
        precedes d.literals e.literals → precedes c.literals e.literals) ∧
      ∀ c ∈ S, ∀ d ∈ S, ¬ c.sameLiterals d →
        Xor (precedes c.literals d.literals) (precedes d.literals c.literals) := by
  refine ⟨fun _ _ => Std.OrientedCmp.eq_swap,fun _ _ _ => Std.TransCmp.isLE_trans,fun x y => ?_,
    fun _ _ => Predicate.compare_eq_eq_iff,fun _ _ => precedes_iff_comparesAt,
    fun n S hlen hapart => ⟨fun c _ => by simp,fun _ _ _ _ _ _ => precedes_trans,?_⟩⟩
  · rw [Literal.compare_eq_eq_iff]
    tauto
  · exact fun c hc d hd hne =>
      hapart.precedes_xor hc hd ((hlen c hc).trans (hlen d hd).symm) hne

open Edge in
theorem precedes_orders_edge : ∃ c d e : Clause,
    ofCandidates? [on .body 0 1,on .head 0 0] = some c ∧
    ofCandidates? [on .body 0 1,on .head 0 1] = some d ∧
    ofCandidates? [on .body 0 1,on .head 1 0] = some e ∧
    (∀ f ∈ ({c,d,e} : Set Clause), f.length = 2) ∧ ToldApart {c,d,e} ∧
    precedes c.literals d.literals ∧ precedes d.literals e.literals ∧
    precedes c.literals e.literals ∧ ¬ c.sameLiterals e ∧
    Xor (precedes c.literals e.literals) (precedes e.literals c.literals) := by
  have hbuilt : ∃ c d e : Clause, ofCandidates? [on .body 0 1,on .head 0 0] = some c ∧
      ofCandidates? [on .body 0 1,on .head 0 1] = some d ∧
      ofCandidates? [on .body 0 1,on .head 1 0] = some e := ⟨_,_,_,rfl,rfl,rfl⟩
  obtain ⟨c,d,e,hc,hd,he⟩ := hbuilt
  have hentries := entries_ofCandidates? hc
  have hentries' := entries_ofCandidates? hd
  have hentries'' := entries_ofCandidates? he
  have hlen : ∀ f ∈ ({c,d,e} : Set Clause), f.length = 2 := by
    simp [length,hentries,hentries',hentries'']
  have hedge : ∀ f ∈ ({c,d,e} : Set Clause), ∀ x ∈ f.entries, x.atom.predicate = edge := by
    simp [hentries,hentries',hentries'',on]
  have hapart : ToldApart {c,d,e} := fun f hf g hg x hx y hy _ =>
    (hedge f hf x hx).trans (hedge g hg y hy).symm
  have hcd : precedes c.literals d.literals := by
    rw [literals,literals,hentries,hentries']
    decide
  have hde : precedes d.literals e.literals := by
    rw [literals,literals,hentries',hentries'']
    decide
  have hne : ¬ c.sameLiterals e := by
    rw [sameLiterals,literals,literals,hentries,hentries'']
    decide
  obtain ⟨-,-,-,-,-,horder⟩ := precedes_orders
  obtain ⟨-,htrans,hxor⟩ := horder 2 {c,d,e} hlen hapart
  exact ⟨c,d,e,hc,hd,he,hlen,hapart,hcd,hde,
    htrans c (by simp) d (by simp) e (by simp) hcd hde,hne,
    hxor c (by simp) e (by simp) hne⟩

end Clause
end ClauseDiscovery
