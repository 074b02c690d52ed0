import ClauseDiscovery.Proofs.Clause.Grammar
import ClauseDiscovery.Proofs.Universe
import Mathlib.Logic.Equiv.Defs

/-! Clauses over a universe and their variants. A clause of the universe is grown from the empty
one by the universe's candidates; two clauses are variants of each other when one has the
literals of the other, on the same sides, with the variables renamed one to one. -/
namespace ClauseDiscovery

variable {u : Universe} {xs ys : List Candidate} {x y : Candidate} {v : UInt32}

namespace Clause

variable {c d e : Clause} {n : Nat}

/-- Grown from the empty clause by so many steps, each by a candidate of the universe. -/
inductive Grown (u : Universe) : Nat → Clause → Prop
  | empty : Grown u 0 .empty
  | extend {n : Nat} {c d : Clause} {x : Candidate} :
      Grown u n c → x ∈ u.candidates → c.extend? x = some d → Grown u (n+1) d

def Legal (u : Universe) (c : Clause) : Prop := ∃ n, Grown u n c

theorem grown_of_ofCandidates? (hx : ∀ x ∈ xs, x ∈ u.candidates)
    (h : ofCandidates? xs = some c) : Grown u xs.length c := by
  induction xs using List.reverseRecOn generalizing c with
  | nil =>
    cases h
    exact .empty
  | append_singleton xs x ih =>
    obtain ⟨b,hb,hbc⟩ := ofCandidates?_append_singleton.mp h
    rw [List.length_append]
    exact .extend (ih (fun y hy => hx y (by simp [hy])) hb) (hx x (by simp)) hbc

theorem grown_iff : Grown u n c ↔
    c.length = n ∧ ofCandidates? c.entries = some c ∧ ∀ x ∈ c.entries, x ∈ u.candidates := by
  constructor
  · intro h
    induction h with
    | empty => exact ⟨rfl,rfl,by simp [Clause.empty]⟩
    | extend _ hx hcd ih =>
      obtain ⟨hl,hc,hcs⟩ := ih
      have he := entries_extend? hcd
      refine ⟨?_,?_,?_⟩
      · simp [Clause.length,he,← hl]
      · rw [he]
        exact ofCandidates?_append_singleton.mpr ⟨_,hc,hcd⟩
      · rw [he]
        intro y hy
        rcases List.mem_append.mp hy with hy | hy
        · exact hcs y hy
        · rwa [List.mem_singleton.mp hy]
  · rintro ⟨rfl,hc,hcs⟩
    exact grown_of_ofCandidates? hcs hc

theorem legal_iff : Legal u c ↔
    ofCandidates? c.entries = some c ∧ ∀ x ∈ c.entries, x ∈ u.candidates := by
  unfold Legal
  simp only [grown_iff]
  exact ⟨fun ⟨_,_,h⟩ => h,fun h => ⟨_,rfl,h⟩⟩

theorem Legal.mem_candidates (h : Legal u c) : ∀ x ∈ c.entries, x ∈ u.candidates :=
  (legal_iff.mp h).2

theorem Legal.eq_of_entries (hc : Legal u c) (hd : Legal u d) (h : c.entries = d.entries) :
    c = d := by
  have hc' := (legal_iff.mp hc).1
  rw [h,(legal_iff.mp hd).1] at hc'
  exact (Option.some.inj hc').symm

theorem Legal.extend? (hc : Legal u c) (hx : x ∈ u.candidates) (h : c.extend? x = some d) :
    Legal u d := by
  obtain ⟨n,hn⟩ := hc
  exact ⟨n+1,.extend hn hx h⟩

theorem legal_of_ofCandidates? (hx : ∀ x ∈ xs, x ∈ u.candidates)
    (h : ofCandidates? xs = some c) : Legal u c := ⟨_,grown_of_ofCandidates? hx h⟩

end Clause

namespace Universe

variable (hu : u.Complete)
include hu

theorem Complete.distinct_le (hx : ∀ x ∈ xs, x ∈ u.candidates) :
    distinct (argumentsOf xs) ≤ u.bound.toNat := by
  apply distinct_le_of_forall_lt
  intro v hv
  obtain ⟨x,hxs,hvx⟩ := mem_argumentsOf.mp hv
  exact hu.bounded _ (atom_mem_of_mem_candidates (hx x hxs)) v hvx

theorem Complete.distinct_lt (hx : ∀ x ∈ xs, x ∈ u.candidates) :
    distinct (argumentsOf xs) < UInt32.size :=
  (hu.distinct_le hx).trans_lt u.bound.toNat_lt

/-- Over a universe legality is the grammar. -/
theorem Complete.exists_legal (hx : ∀ x ∈ xs, x ∈ u.candidates) (hg : Grammatical xs) :
    ∃ c, Clause.Legal u c ∧ c.entries = xs := by
  obtain ⟨hf,hiff⟩ := Clause.ofCandidates?_spec (hu.distinct_lt hx)
  obtain ⟨c,hc⟩ := hiff.mpr hg
  exact ⟨c,Clause.legal_of_ofCandidates? hx hc,(hf c hc).2⟩

theorem Complete.faithful {c : Clause} (h : Clause.Legal u c) : c.Faithful := by
  obtain ⟨hc,hx⟩ := Clause.legal_iff.mp h
  exact ((Clause.ofCandidates?_spec (hu.distinct_lt hx)).1 c hc).1

theorem Complete.perm_of_literals (hx : ∀ x ∈ xs, x ∈ u.candidates)
    (hy : ∀ y ∈ ys, y ∈ u.candidates)
    (h : (xs.map (·.literal)).Perm (ys.map (·.literal))) : xs.Perm ys := by
  have hp := h.filterMap u.place?
  rwa [hu.filterMap_place? hx,hu.filterMap_place? hy] at hp

end Universe

theorem exists_candidates {ls : List Literal} (h : ∀ l ∈ ls, l.atom ∈ u.atoms) :
    ∃ xs : List Candidate, xs.map (·.literal) = ls ∧ ∀ x ∈ xs, x ∈ u.candidates := by
  induction ls with
  | nil => exact ⟨[],rfl,by simp⟩
  | cons l ls ih =>
    obtain ⟨x,hx,rfl⟩ := Universe.exists_candidate (h l (by simp))
    obtain ⟨xs,rfl,hxs⟩ := ih fun m hm => h m (by simp [hm])
    exact ⟨x :: xs,rfl,List.forall_mem_cons.mpr ⟨hx,hxs⟩⟩

namespace Candidate

def comparePlace (x y : Candidate) : Ordering :=
  (Ord.compare x.side y.side).then (Ord.compare x.index y.index)

instance : Std.TransCmp comparePlace := by
  have he : comparePlace =
      compareLex (fun x y => compare x.side y.side) (compareOn index) := rfl
  have := transCmp_comap (compare : Side → Side → Ordering) fun x : Candidate => x.side
  rw [he]
  infer_instance

theorem pairwise_mergeSort_placeLE (xs : List Candidate) :
    (xs.mergeSort placeLE).Pairwise (placeLE · ·) :=
  pairwise_mergeSort_isLE comparePlace xs

end Candidate

theorem Grammatical.pairwise_placeLE (h : Grammatical xs) :
    xs.Pairwise (Candidate.placeLE · ·) := by
  apply (h.bodyFirst.and h.ascending).imp
  rintro x y ⟨hb,ha⟩
  have hs : x.side = y.side ∨ x.side = .body ∧ y.side = .head := by
    cases hx : x.side <;> cases hy : y.side <;> simp_all [Literal.isBody]
  rcases hs with hs | ⟨hx,hy⟩
  · simp [Candidate.placeLE,hs,Nat.compare_eq_lt.mpr (ha hs)]
  · have hlt : compare Side.body Side.head = .lt := rfl
    simp [Candidate.placeLE,hx,hy,hlt]

namespace Universe

/-- There is one order of places for candidates. -/
theorem eq_of_perm_of_placeLE (hx : ∀ x ∈ xs, x ∈ u.candidates)
    (hy : ∀ y ∈ ys, y ∈ u.candidates) (hxs : xs.Pairwise (Candidate.placeLE · ·))
    (hys : ys.Pairwise (Candidate.placeLE · ·)) (h : xs.Perm ys) : xs = ys := by
  refine h.eq_of_pairwise ?_ hxs hys
  intro x y hxm hym hxy hyx
  have he : Candidate.comparePlace x y = .eq := Std.OrientedCmp.isLE_antisymm hxy hyx
  simp only [Candidate.comparePlace,Ordering.then_eq_eq,Std.compare_eq_iff_eq] at he
  exact eq_of_index (hx x hxm) (hy y hym) he.1 he.2

end Universe

namespace Literal

@[simp] theorem rename_id (l : Literal) : l.rename id = l := ext_of_eq rfl (Atom.rename_id _)

@[simp] theorem rename_rename (l : Literal) (f g : UInt32 → UInt32) :
    (l.rename f).rename g = l.rename (g ∘ f) := ext_of_eq rfl (Atom.rename_rename _ f g)

end Literal

namespace Clause

variable {c d e : Clause}

/-- One clause has the literals of the other, in any order, under a one-to-one renaming of the
variables. -/
def Variant (c d : Clause) : Prop :=
  ∃ σ : Equiv.Perm UInt32, (c.literals.map (·.rename σ)).Perm d.literals

theorem Variant.refl (c : Clause) : Variant c c := ⟨.refl _,by simp [Equiv.coe_refl]⟩

theorem Variant.trans (h : Variant c d) (h' : Variant d e) : Variant c e := by
  obtain ⟨σ,hσ⟩ := h
  obtain ⟨τ,hτ⟩ := h'
  refine ⟨σ.trans τ,?_⟩
  have hmap := (hσ.map (·.rename τ)).trans hτ
  rw [List.map_map] at hmap
  simpa [Function.comp_def] using hmap

theorem Variant.symm (h : Variant c d) : Variant d c := by
  obtain ⟨σ,hσ⟩ := h
  refine ⟨σ.symm,?_⟩
  have hmap := (hσ.map (·.rename σ.symm)).symm
  have hid : (fun l : Literal => (l.rename σ).rename σ.symm) = id := by
    funext l
    simp [Equiv.symm_comp_self]
  rwa [List.map_map,Function.comp_def,hid,List.map_id] at hmap

theorem Variant.length_eq (h : Variant c d) : c.length = d.length := by
  obtain ⟨σ,hσ⟩ := h
  simpa [literals,length] using hσ.length_eq

end Clause
end ClauseDiscovery
