import ClauseDiscovery.Clause.Formula
import ClauseDiscovery.Proofs.Clause.Sides

/-! Clauses as formulas. However a clause is grown, its typing has the types that its own literals
ask for, so its formula carries one type for each variable, and each argument is of the declared
type. The formula has the clause's literals and types that these determine: clauses have one
formula exactly when they have the same literals. -/
namespace ClauseDiscovery

variable {vs ws : List UInt32} {v w next : UInt32} {xs ys : List Candidate} {x : Candidate}

namespace Formula

/-- Where each variable has one type, the variables are those of the text without repetitions. -/
theorem foldl_noteVar (f : UInt32 → Ty) (vs : List UInt32) :
    (vs.map fun v => (⟨v,f v⟩ : TypedVar)).foldl noteVar [] =
      vs.eraseDups.map fun v => ⟨v,f v⟩ := by
  induction vs using List.reverseRecOn with
  | nil => simp
  | append_singleton vs v ih =>
    rw [List.map_append,List.foldl_append,ih,eraseDups_append_singleton]
    by_cases hv : v ∈ vs <;> simp [noteVar,hv]

end Formula

namespace Clause

variable {c d : Clause}

/-- The variables are numbered by first occurrence, the typing is the one that the uses lead to,
and the rank is the number of variables as long as 32 bits can count them. -/
structure Counted (c : Clause) : Prop where
  numbered : Numbered (argumentsOf c.entries)
  toNat_rank : distinct (argumentsOf c.entries) < UInt32.size →
    c.rank.toNat = distinct (argumentsOf c.entries)
  fits : c.typing.Fits (usesOf c.entries)

theorem counted_empty : Counted empty := ⟨numbered_nil,fun _ => rfl,Typing.fits_empty⟩

theorem mem_of_lt_next (h : Numbered vs)
    (hn : distinct vs < UInt32.size → next.toNat = distinct vs) (hv : v < next) : v ∈ vs := by
  rw [h.mem_iff]
  by_cases hs : distinct vs < UInt32.size
  · rw [← hn hs]
    exact UInt32.lt_iff_toNat_lt.mp hv
  · exact v.toNat_lt.trans_le (Nat.not_lt.mp hs)

theorem numbered_of_inOrder_body (h : Numbered vs)
    (hn : distinct vs < UInt32.size → next.toNat = distinct vs) (ho : inOrder .body next ws) :
    Numbered (vs ++ ws) := by
  induction ws generalizing vs next with
  | nil => simpa using h
  | cons w ws ih =>
    rw [List.append_cons]
    simp only [inOrder,true_and] at ho
    by_cases hw : w ∈ vs
    · have hN : Numbered (vs ++ [w]) := h.append_of_subset (by simpa using hw)
      have hd := distinct_append_singleton_of_mem hw
      split at ho
      · -- the next variable occurs already: all 2 ^ 32 do
        rename_i he
        refine ih hN (fun hs => absurd (h.mem_iff.mp hw) ?_) ho
        rw [hd] at hs
        rw [he,hn hs]
        exact Nat.lt_irrefl _
      · rw [Bool.and_eq_true] at ho
        exact ih hN (by rwa [hd]) ho.2
    · have hs : distinct vs < UInt32.size := (h.le_of_notMem hw).trans_lt w.toNat_lt
      split at ho
      · rename_i he
        have hw' : w.toNat = distinct vs := he ▸ hn hs
        refine ih (h.append_singleton_iff.mpr hw'.le) (fun hs' => ?_) ho
        rw [distinct_append_singleton_of_notMem hw] at hs' ⊢
        rw [← he,toNat_add_one (hw' ▸ hs'),hw']
      · rw [Bool.and_eq_true,decide_eq_true_eq] at ho
        exact absurd (mem_of_lt_next h hn ho.1) hw

theorem Counted.extend? (h : Counted c) (hd : c.extend? x = some d) : Counted d := by
  have hx := admits_of_extend? hd
  simp only [admits,Bool.and_eq_true] at hx
  have hN : Numbered (argumentsOf c.entries ++ x.atom.vars) := by
    cases hs : x.side with
    | body => exact numbered_of_inOrder_body h.numbered h.toNat_rank (hs ▸ hx.2)
    | head =>
      have hold : ∀ v ∈ x.atom.vars, v < c.rank := inOrder_head_iff.mp (hs ▸ hx.2)
      exact h.numbered.append_of_subset fun v hv =>
        mem_of_lt_next h.numbered h.toNat_rank (hold v hv)
  obtain ⟨e,he,rfl⟩ := eq_of_extend? hd
  refine ⟨by simpa using hN,fun hs => ?_,?_⟩
  · rw [argumentsOf_append,argumentsOf_singleton] at hs ⊢
    have hr := h.toNat_rank ((distinct_le_append _ _).trans_lt hs)
    exact toNat_rankWith hr hN hs
  · rw [usesOf_append,usesOf_singleton]
    exact h.fits.useAll he

theorem counted_of_ofCandidates? (h : ofCandidates? xs = some c) : Counted c :=
  invariant_of_ofCandidates? counted_empty (fun _ _ _ => Counted.extend?) h

def typed (c : Clause) (v : UInt32) : TypedVar := ⟨v,(c.typing.get? v).getD default⟩

theorem Counted.get?_typed (h : Counted c) (hv : v ∈ argumentsOf c.entries) :
    c.typing.get? v = some (c.typed v).ty := by
  rw [← map_fst_usesOf,← h.fits.isSome_get?_iff] at hv
  obtain ⟨τ,hτ⟩ := Option.isSome_iff_exists.mp hv
  simp [typed,hτ]

/-- The declared types are not resorted to. -/
theorem Counted.args_typedAtom (h : Counted c) (hx : x ∈ c.entries) :
    (c.typedAtom x.atom).args = x.atom.vars.map c.typed := by
  have hzip : x.atom.vars = (x.atom.vars.zip x.atom.predicate.params).map Prod.fst :=
    (map_fst_uses x.atom).symm
  rw [typedAtom]
  conv_rhs => rw [hzip,List.map_map]
  refine List.map_congr_left fun p hp => ?_
  have hv : p.1 ∈ argumentsOf c.entries :=
    mem_argumentsOf.mpr ⟨x,hx,hzip ▸ List.mem_map_of_mem hp⟩
  have hτ : ∃ τ, c.typing.get? p.1 = some τ := ⟨_,h.get?_typed hv⟩
  obtain ⟨τ,hτ⟩ := hτ
  simp [typed,hτ]

theorem Counted.declared (h : Counted c) (hx : x ∈ c.entries) :
    List.Forall₂ (fun v τ => τ.isSupertypeOf v.ty) (c.typedAtom x.atom).args
      x.atom.predicate.params := by
  rw [h.args_typedAtom hx,List.forall₂_map_left_iff,List.forall₂_iff_zip]
  refine ⟨x.atom.length_vars,fun {v τ} hvτ => ?_⟩
  obtain ⟨σ,hσ,hle⟩ := h.fits.least v τ (List.mem_flatMap.mpr ⟨x,hx,hvτ⟩)
  simpa [typed,hσ] using hle

theorem Sided.body_append_head (h : Sided c) : c.body ++ c.head = c.entries := by
  have hb := h.bodyFirst
  unfold body head
  generalize c.entries = xs at hb ⊢
  induction xs with
  | nil => rfl
  | cons x xs ih =>
    obtain ⟨hx,hxs⟩ := List.pairwise_cons.mp hb
    by_cases hxb : x.isBody
    · simpa [hxb] using ih hxs
    · have hnone : xs.filter (·.isBody) = [] :=
        List.filter_eq_nil_iff.mpr fun y hy => mt (hx y hy) hxb
      simpa [hxb,hnone] using ih hxs

theorem Sided.atoms_toFormula (h : Sided c) :
    c.toFormula.atoms = c.entries.map fun x => c.typedAtom x.atom := by
  simp [Formula.atoms,toFormula,← List.map_append,h.body_append_head]

theorem vars_toFormula (hs : Sided c) (hc : Counted c) :
    c.toFormula.vars = (argumentsOf c.entries).eraseDups.map c.typed := by
  have hargs : c.toFormula.atoms.flatMap (·.args) = (argumentsOf c.entries).map c.typed := by
    rw [hs.atoms_toFormula,List.flatMap_map,argumentsOf,List.map_flatMap]
    exact List.flatMap_congr fun x hx => hc.args_typedAtom hx
  rw [Formula.vars,hargs]
  exact Formula.foldl_noteVar (fun v => (c.typed v).ty) _

/-- A formula tells the predicates and the variables, whatever types it gives. -/
theorem eq_of_map_typedAtom {as bs : List Atom}
    (h : as.map c.typedAtom = bs.map d.typedAtom) : as = bs := by
  have hkey : ∀ (b : Clause) (cs : List Atom),
      (cs.map b.typedAtom).map (fun a => (a.predicate,a.args.map (·.index))) =
        cs.map fun a => (a.predicate,a.vars) := by
    intro b cs
    simp only [List.map_map]
    exact List.map_congr_left fun a _ => Prod.ext rfl (b.map_index_typedAtom a)
  have hinj : Function.Injective fun a : Atom => (a.predicate,a.vars) :=
    fun a b hab => Atom.ext_of_eq (Prod.mk.inj hab).1 (Prod.mk.inj hab).2
  apply List.map_injective_iff.mpr hinj
  rw [← hkey c,h,hkey d]

theorem Sided.literals_eq (h : Sided c) :
    c.literals = (c.body.map (·.atom)).map (Literal.mk .body) ++
      (c.head.map (·.atom)).map (Literal.mk .head) := by
  rw [literals,← h.body_append_head,List.map_append,List.map_map,List.map_map]
  congr 1
  · refine List.map_congr_left fun x hx => ?_
    have hxb := Candidate.isBody_iff.mp (List.mem_filter.mp hx).2
    exact Literal.ext_of_eq hxb rfl
  · refine List.map_congr_left fun x hx => ?_
    have hxh := Candidate.not_isBody_iff.mp (by simpa using (List.mem_filter.mp hx).2)
    exact Literal.ext_of_eq hxh rfl

theorem map_atom_filter_congr (p : Literal → Bool) (h : c.literals = d.literals) :
    (c.entries.filter (p ·.literal)).map (·.atom) =
      (d.entries.filter (p ·.literal)).map (·.atom) := by
  have hl : ∀ b : Clause, (b.entries.filter (p ·.literal)).map (·.atom) =
      (b.literals.filter p).map (·.atom) := by
    intro b
    simp [literals,List.filter_map,Function.comp_def]
  rw [hl,h,← hl]

/-- Literals determine the typing, since they determine the uses. -/
theorem Counted.typing_eq (hc : Counted c) (hd : Counted d) (h : c.literals = d.literals) :
    c.typing = d.typing :=
  hc.fits.eq_of_mem_iff hd.fits fun u => by rw [usesOf_congr h]

theorem toFormula_eq_iff (hsc : Sided c) (hsd : Sided d) (hcc : Counted c) (hcd : Counted d) :
    c.toFormula = d.toFormula ↔ c.literals = d.literals := by
  have hsides : ∀ b : Clause, b.toFormula =
      ⟨(b.body.map (·.atom)).map b.typedAtom,(b.head.map (·.atom)).map b.typedAtom⟩ := by
    intro b
    simp [toFormula]
  rw [hsides,hsides,Formula.mk.injEq]
  constructor
  · rintro ⟨hb,hh⟩
    rw [hsc.literals_eq,hsd.literals_eq,eq_of_map_typedAtom hb,eq_of_map_typedAtom hh]
  · intro hl
    have htyped : c.typedAtom = d.typedAtom := by
      funext a
      simp only [typedAtom,hcc.typing_eq hcd hl]
    have hb : c.body.map (·.atom) = d.body.map (·.atom) := map_atom_filter_congr _ hl
    have hh : c.head.map (·.atom) = d.head.map (·.atom) := map_atom_filter_congr (! ·.isBody) hl
    rw [htyped,hb,hh]
    exact ⟨rfl,rfl⟩

/-- Formulas are well typed and stand for their clauses. However a clause is grown, the variables
of its formula are 0, 1, 2 and so on, in this order, up to the rank (short of all 2 ^ 32, where
the rank is no longer their number); each, wherever it occurs, has the type that the clause gives
it, and this is of the type declared for the argument. Two clauses have the same formula exactly
when they have the same literals, whatever the sequence numbers. -/
theorem toFormula_spec (hc : ofCandidates? xs = some c) (hd : ofCandidates? ys = some d) :
    (c.toFormula.vars.map (·.index) =
        (List.range (distinct (argumentsOf xs))).map (·.toUInt32) ∧
      (distinct (argumentsOf xs) < UInt32.size → c.rank.toNat = distinct (argumentsOf xs))) ∧
    (∀ v ∈ c.toFormula.vars, c.typing.get? v.index = some v.ty) ∧
    (∀ a ∈ c.toFormula.atoms, (∀ v ∈ a.args, c.typing.get? v.index = some v.ty) ∧
      List.Forall₂ (fun v τ => τ.isSupertypeOf v.ty) a.args a.predicate.params) ∧
    (c.toFormula = d.toFormula ↔ c.sameLiterals d) := by
  have hsc := sided_of_ofCandidates? hc
  have hcc := counted_of_ofCandidates? hc
  have hvars := vars_toFormula hsc hcc
  rw [← entries_ofCandidates? hc]
  refine ⟨⟨?_,hcc.toNat_rank⟩,?_,?_,?_⟩
  · rw [hvars,List.map_map,hcc.numbered]
    exact List.map_id _
  · intro v hv
    rw [hvars] at hv
    obtain ⟨w,hw,rfl⟩ := List.mem_map.mp hv
    exact hcc.get?_typed (List.mem_eraseDups.mp hw)
  · intro a ha
    rw [hsc.atoms_toFormula] at ha
    obtain ⟨x,hx,rfl⟩ := List.mem_map.mp ha
    refine ⟨fun v hv => ?_,hcc.declared hx⟩
    rw [hcc.args_typedAtom hx] at hv
    obtain ⟨w,hw,rfl⟩ := List.mem_map.mp hv
    exact hcc.get?_typed (mem_argumentsOf.mpr ⟨x,hx,hw⟩)
  · rw [toFormula_eq_iff hsc (sided_of_ofCandidates? hd) hcc (counted_of_ofCandidates? hd)]
    simp [sameLiterals]

end Clause

namespace Blocks

/-- A block is next to itself, where a thing and a cube are asked for; numbered as given. -/
def nextToItself (i j : Nat) : List Candidate :=
  [⟨⟨.body,⟨⟨"B",[block]⟩,[0],rfl⟩⟩,i⟩,⟨⟨.head,⟨⟨"N",[thing,cube]⟩,[0,0],rfl⟩⟩,j⟩]

end Blocks

namespace Clause

open Blocks in
theorem toFormula_spec_blocks : ∃ c d, ofCandidates? (nextToItself 0 1) = some c ∧
    ofCandidates? (nextToItself 5 2) = some d ∧ c.toFormula.vars = [⟨0,cube⟩] ∧
    c.toFormula = d.toFormula := by
  have hc : ∃ c, ofCandidates? (nextToItself 0 1) = some c ∧ c.typing.get? 0 = some cube :=
    ⟨_,rfl,by decide⟩
  have hd : ∃ d, ofCandidates? (nextToItself 5 2) = some d := ⟨_,rfl⟩
  obtain ⟨c,hc,hcube⟩ := hc
  obtain ⟨d,hd⟩ := hd
  obtain ⟨⟨hindex,-⟩,htypes,-,hformula⟩ := toFormula_spec hc hd
  have hone : (List.range (distinct (argumentsOf (nextToItself 0 1)))).map (·.toUInt32) = [0] := by
    decide
  rw [hone] at hindex
  obtain ⟨v,hv,hv0⟩ := List.map_eq_singleton_iff.mp hindex
  have hty : c.typing.get? v.index = some v.ty := htypes v (by simp [hv])
  rw [hv0,hcube] at hty
  refine ⟨c,d,hc,hd,?_,hformula.mpr ?_⟩
  · rw [hv,Option.some.inj hty,← hv0]
  · simp [sameLiterals,literals,entries_ofCandidates? hc,entries_ofCandidates? hd,nextToItself]

end Clause
end ClauseDiscovery
