import ClauseDiscovery.Clause.Canonical
import ClauseDiscovery.Proofs.Clause.Numbering
import ClauseDiscovery.Proofs.Language.Order
import ClauseDiscovery.Proofs.Typing

/-! The grammar of clauses. A list of literals is a legal clause when its whole text has six
properties; the checks of a single step, which look at the last literal, the rank and the
typing only, amount to them. -/
namespace ClauseDiscovery

def argumentsOf (xs : List Candidate) : List UInt32 := xs.flatMap (·.atom.vars)

def usesOf (xs : List Candidate) : List (UInt32 × Ty) :=
  xs.flatMap fun x => x.atom.predicate.uses x.atom.vars

/-- At every literal, `P` holds of the literals before it and itself. -/
def Along (P : List Candidate → Candidate → Prop) (xs : List Candidate) : Prop :=
  ∀ as x bs, xs = as ++ x :: bs → P as x

/-- No literal of the head but its first is a literal of the body too. -/
def Twinless (xs : List Candidate) : Prop :=
  ∀ h ∈ (xs.filter (! ·.isBody)).tail, ∀ b ∈ xs.filter (·.isBody), b.atom ≠ h.atom

/-- The legal texts of a clause. No literal of the body follows one of the head; sequence
numbers ascend on each side; variables are numbered by first occurrence and occur first in the
body; a literal after the first variable shares a variable with those before it; the types of a
variable are related; and only the first literal of the head may be one of the body's too. -/
structure Grammatical (xs : List Candidate) : Prop where
  bodyFirst : xs.Pairwise fun x y => y.isBody → x.isBody
  ascending : xs.Pairwise fun x y => x.side = y.side → x.index < y.index
  numbered : Numbered (argumentsOf xs)
  introduced : Along (fun as x => x.isBody ∨ ∀ v ∈ x.atom.vars, v ∈ argumentsOf as) xs
  connected : Along (fun as x => argumentsOf as = [] ∨
    ∃ v ∈ x.atom.vars, v ∈ argumentsOf as) xs
  typed : Compatible (usesOf xs)
  twinless : Twinless xs

/-- What the grammar asks of a literal that follows a legal text. -/
structure Continues (xs : List Candidate) (x : Candidate) : Prop where
  keepsSides : x.isBody → ∀ a ∈ xs, a.isBody
  follows : ∀ a ∈ xs, a.side = x.side → a.index < x.index
  numbered : Numbered (argumentsOf xs ++ x.atom.vars)
  introduced : x.isBody ∨ ∀ v ∈ x.atom.vars, v ∈ argumentsOf xs
  connected : argumentsOf xs = [] ∨ ∃ v ∈ x.atom.vars, v ∈ argumentsOf xs
  typed : Compatible (usesOf xs ++ x.atom.predicate.uses x.atom.vars)
  twinless : x.isBody ∨ (∀ a ∈ xs, a.isBody) ∨ ∀ a ∈ xs, a.isBody → a.atom ≠ x.atom

variable {xs ys : List Candidate} {x y : Candidate} {v : UInt32}
  {P : List Candidate → Candidate → Prop}

theorem Candidate.isBody_iff : x.isBody ↔ x.side = .body := by simp [Literal.isBody]

theorem Candidate.not_isBody_iff : ¬ x.isBody ↔ x.side = .head := by
  rw [isBody_iff]
  cases x.side <;> simp

@[simp] theorem argumentsOf_nil : argumentsOf [] = [] := rfl

@[simp] theorem argumentsOf_append :
    argumentsOf (xs ++ ys) = argumentsOf xs ++ argumentsOf ys := List.flatMap_append

@[simp] theorem argumentsOf_singleton : argumentsOf [x] = x.atom.vars := by simp [argumentsOf]

theorem mem_argumentsOf : v ∈ argumentsOf xs ↔ ∃ x ∈ xs, v ∈ x.atom.vars := List.mem_flatMap

theorem vars_eq_nil_of_argumentsOf (h : argumentsOf xs = []) (hx : x ∈ xs) : x.atom.vars = [] :=
  List.flatMap_eq_nil_iff.mp h x hx

@[simp] theorem usesOf_nil : usesOf [] = [] := rfl

@[simp] theorem usesOf_append : usesOf (xs ++ ys) = usesOf xs ++ usesOf ys := List.flatMap_append

@[simp] theorem usesOf_singleton : usesOf [x] = x.atom.predicate.uses x.atom.vars := by
  simp [usesOf]

theorem map_fst_uses (a : Atom) : (a.predicate.uses a.vars).map Prod.fst = a.vars :=
  List.map_fst_zip (Nat.le_of_eq a.length_vars)

theorem map_fst_usesOf (xs : List Candidate) : (usesOf xs).map Prod.fst = argumentsOf xs := by
  simp [usesOf,argumentsOf,List.map_flatMap,map_fst_uses]

theorem argumentsOf_congr (h : ys.map (·.literal) = xs.map (·.literal)) :
    argumentsOf ys = argumentsOf xs := by
  have hl : ∀ zs, argumentsOf zs = (zs.map (·.literal)).flatMap (·.atom.vars) := by
    simp [argumentsOf,List.flatMap_map]
  rw [hl,h,← hl]

theorem usesOf_congr (h : ys.map (·.literal) = xs.map (·.literal)) : usesOf ys = usesOf xs := by
  have hl : ∀ zs, usesOf zs =
      (zs.map (·.literal)).flatMap fun l => l.atom.predicate.uses l.atom.vars := by
    simp [usesOf,List.flatMap_map]
  rw [hl,h,← hl]

theorem along_nil : Along P [] := fun as x bs h => by simp at h

theorem along_append_singleton : Along P (xs ++ [x]) ↔ Along P xs ∧ P xs x := by
  constructor
  · intro h
    refine ⟨?_,h xs x [] rfl⟩
    rintro as y bs rfl
    exact h as y (bs ++ [x]) (by simp)
  · rintro ⟨h,hx⟩ as y bs he
    rcases List.eq_nil_or_concat' bs with rfl | ⟨cs,z,rfl⟩
    · obtain ⟨rfl,hxy⟩ := List.append_inj' he rfl
      cases hxy
      exact hx
    · apply h as y cs
      rw [← List.cons_append,← List.append_assoc] at he
      exact (List.append_inj' he rfl).1

theorem Along.append (h : Along P xs)
    (h' : ∀ as y bs, ys = as ++ y :: bs → P (xs ++ as) y) : Along P (xs ++ ys) := by
  induction ys using List.reverseRecOn with
  | nil => simpa using h
  | append_singleton ys y ih =>
    rw [← List.append_assoc,along_append_singleton]
    refine ⟨ih fun as z bs he => h' as z (bs ++ [y]) ?_,h' ys y [] rfl⟩
    rw [he]
    simp

theorem filter_head_eq_nil_iff : xs.filter (! ·.isBody) = [] ↔ ∀ a ∈ xs, a.isBody := by
  simp [List.filter_eq_nil_iff]

theorem twinless_of_forall_isBody (h : ∀ a ∈ xs, a.isBody) : Twinless xs := by
  simp [Twinless,filter_head_eq_nil_iff.mpr h]

theorem twinless_append_singleton (hk : x.isBody → ∀ a ∈ xs, a.isBody) :
    Twinless (xs ++ [x]) ↔ Twinless xs ∧
      (x.isBody ∨ (∀ a ∈ xs, a.isBody) ∨ ∀ a ∈ xs, a.isBody → a.atom ≠ x.atom) := by
  by_cases hx : x.isBody
  · have hxs := hk hx
    have hall : ∀ a ∈ xs ++ [x], a.isBody := by
      intro a ha
      rcases List.mem_append.mp ha with ha | ha
      · exact hxs a ha
      · rwa [List.mem_singleton.mp ha]
    simp [twinless_of_forall_isBody hall,twinless_of_forall_isBody hxs,hx]
  · have hh : (xs ++ [x]).filter (! ·.isBody) = xs.filter (! ·.isBody) ++ [x] := by simp [hx]
    have hb : (xs ++ [x]).filter (·.isBody) = xs.filter (·.isBody) := by simp [hx]
    rw [← filter_head_eq_nil_iff]
    simp only [Twinless,hh,hb,hx,Bool.false_eq_true,false_or]
    cases xs.filter (! ·.isBody) with
    | nil => simp
    | cons h hs =>
      simp only [List.cons_append,List.tail_cons,List.mem_append,List.mem_singleton,
        List.mem_filter,reduceCtorEq,false_or]
      constructor
      · intro ht
        exact ⟨fun k hk => ht k (Or.inl hk),fun a ha hab => ht x (Or.inr rfl) a ⟨ha,hab⟩⟩
      · rintro ⟨ht,hx⟩ k (hk | rfl) b hb
        · exact ht k hk b hb
        · exact hx b hb.1 hb.2

namespace Grammatical

theorem nil : Grammatical [] where
  bodyFirst := List.Pairwise.nil
  ascending := List.Pairwise.nil
  numbered := numbered_nil
  introduced := along_nil
  connected := along_nil
  typed := by simp [Compatible]
  twinless := by simp [Twinless]

theorem append_singleton_iff : Grammatical (xs ++ [x]) ↔ Grammatical xs ∧ Continues xs x := by
  constructor
  · rintro ⟨hb,ha,hn,hi,hc,ht,hw⟩
    rw [List.pairwise_append] at hb ha
    rw [argumentsOf_append,argumentsOf_singleton] at hn
    rw [along_append_singleton] at hi hc
    rw [usesOf_append,usesOf_singleton] at ht
    have hk : x.isBody → ∀ a ∈ xs, a.isBody := fun hx a ha => hb.2.2 a ha x (by simp) hx
    rw [twinless_append_singleton hk] at hw
    exact ⟨⟨hb.1,ha.1,hn.of_append,hi.1,hc.1,ht.subset (List.subset_append_left _ _),hw.1⟩,
      ⟨hk,fun a h => ha.2.2 a h x (by simp),hn,hi.2,hc.2,ht,hw.2⟩⟩
  · rintro ⟨⟨hb,ha,_,hi,hc,_,hw⟩,⟨hk,hf,hn,hi',hc',ht,hw'⟩⟩
    refine ⟨?_,?_,?_,along_append_singleton.mpr ⟨hi,hi'⟩,along_append_singleton.mpr ⟨hc,hc'⟩,?_,
      (twinless_append_singleton hk).mpr ⟨hw,hw'⟩⟩
    · refine List.pairwise_append.mpr ⟨hb,List.pairwise_singleton _ _,?_⟩
      intro a ha y hy hyb
      rw [List.mem_singleton.mp hy] at hyb
      exact hk hyb a ha
    · refine List.pairwise_append.mpr ⟨ha,List.pairwise_singleton _ _,?_⟩
      intro a ha y hy hs
      rw [List.mem_singleton.mp hy] at hs ⊢
      exact hf a ha hs
    · simpa using hn
    · simpa using ht

theorem of_append (h : Grammatical (xs ++ ys)) : Grammatical xs := by
  induction ys using List.reverseRecOn with
  | nil => simpa using h
  | append_singleton ys y ih =>
    rw [← List.append_assoc] at h
    exact ih (append_singleton_iff.mp h).1

end Grammatical

namespace Clause

theorem eq_of_extend? {c d : Clause} (h : c.extend? x = some d) :
    ∃ e, c.typing.useAll x.atom.predicate x.atom.vars = .ok e ∧
      d = ⟨rankWith c.rank x.atom,c.entries ++ [x],e⟩ := by
  unfold Clause.extend? at h
  split at h
  · split at h
    · rename_i e he
      cases h
      exact ⟨e,he,rfl⟩
    · cases h
  · cases h

theorem side_of_extend? {c d : Clause} (h : c.extend? x = some d) : d.side = x.side := by
  simp [side,entries_extend? h]

/-- What a clause keeps of its text: the rank is the number of variables, and the typing is the
one their uses lead to. -/
structure Faithful (c : Clause) : Prop where
  grammatical : Grammatical c.entries
  toNat_rank : c.rank.toNat = distinct (argumentsOf c.entries)
  fits : c.typing.Fits (usesOf c.entries)

theorem faithful_empty : Faithful empty := ⟨.nil,rfl,Typing.fits_empty⟩

variable {c d : Clause}

theorem inBody_iff_of_bodyFirst (hb : c.entries.Pairwise fun x y => y.isBody → x.isBody) :
    c.inBody ↔ ∀ a ∈ c.entries, a.isBody := by
  rcases List.eq_nil_or_concat' c.entries with he | ⟨as,z,he⟩
  · simp [inBody,side,he]
  · have hz : c.inBody ↔ z.isBody := by simp [inBody,side,he,Literal.isBody]
    rw [hz,he]
    rw [he,List.pairwise_append] at hb
    constructor
    · intro hzb a ha
      rcases List.mem_append.mp ha with ha | ha
      · exact hb.2.2 a ha z (by simp) hzb
      · rwa [List.mem_singleton.mp ha]
    · intro hall
      exact hall z (by simp)

theorem contains_onSide_body_iff : c.contains (x.literal.onSide .body) ↔
    ∃ a ∈ c.entries, a.isBody ∧ a.atom = x.atom := by
  simp only [contains,List.any_eq_true,beq_iff_eq]
  refine exists_congr fun a => and_congr_right fun _ => ?_
  constructor
  · intro he
    simp [Candidate.isBody,Candidate.atom,he,Literal.onSide,Literal.isBody]
  · rintro ⟨hab,he⟩
    exact Literal.ext_of_eq (by simpa [Literal.isBody,Literal.onSide] using hab) he

theorem avoidsBody_iff_of_bodyFirst
    (hb : c.entries.Pairwise fun x y => y.isBody → x.isBody) : c.avoidsBody x ↔
      (∀ a ∈ c.entries, a.isBody) ∨ ∀ a ∈ c.entries, a.isBody → a.atom ≠ x.atom := by
  rw [avoidsBody,Bool.or_eq_true,inBody_iff_of_bodyFirst hb]
  apply or_congr_right
  rw [Bool.not_eq_true',← Bool.not_eq_true,contains_onSide_body_iff]
  simp only [not_exists,not_and]

namespace Faithful

theorem mem_argumentsOf_iff (h : Faithful c) : v ∈ argumentsOf c.entries ↔ v < c.rank := by
  rw [h.grammatical.numbered.mem_iff,UInt32.lt_iff_toNat_lt,h.toNat_rank]

theorem rank_eq_zero_iff (h : Faithful c) : c.rank = 0 ↔ argumentsOf c.entries = [] := by
  rw [List.eq_nil_iff_forall_not_mem]
  simp only [h.mem_argumentsOf_iff]
  constructor
  · intro h0
    simp [h0]
  · intro hall
    by_contra hne
    exact hall 0 (by grind)

theorem inBody_iff (h : Faithful c) : c.inBody ↔ ∀ a ∈ c.entries, a.isBody :=
  inBody_iff_of_bodyFirst h.grammatical.bodyFirst

theorem follows_iff (h : Faithful c) : (c.followsLast x ∧ c.keepsSides x) ↔
    (x.isBody → ∀ a ∈ c.entries, a.isBody) ∧
      ∀ a ∈ c.entries, a.side = x.side → a.index < x.index := by
  have hb := h.grammatical.bodyFirst
  have ha := h.grammatical.ascending
  have hin := h.inBody_iff
  have hk : c.keepsSides x ↔ (x.isBody → ∀ a ∈ c.entries, a.isBody) := by
    rw [← hin]
    by_cases hx : x.isBody <;> simp [keepsSides,hx]
  rw [hk,and_comm]
  refine and_congr_right fun hkx => ?_
  rcases List.eq_nil_or_concat' c.entries with he | ⟨as,z,he⟩
  · simp [followsLast,lastIndex?,he]
  · rw [he,List.pairwise_append] at hb ha
    have hside : c.side = z.side := by simp [side,he]
    have hf : c.followsLast x ↔ (x.side = z.side → z.index < x.index) := by
      simp [followsLast,lastIndex?,hside,he,imp_iff_not_or]
    rw [hf,he]
    constructor
    · intro hz a ham hax
      rcases List.mem_append.mp ham with ham | ham
      · have hzs : z.side = x.side := by
          cases hxs : x.side with
          | body =>
            have hzb := hkx (by simp [Literal.isBody,hxs]) z (by simp [he])
            simpa [Literal.isBody] using hzb
          | head =>
            by_contra hne
            have hzb : z.isBody := by
              cases hzs : z.side <;> simp_all [Literal.isBody]
            have hab := hb.2.2 a ham z (by simp) hzb
            simp [Literal.isBody,hax,hxs] at hab
        have hlt := ha.2.2 a ham z (by simp) (hax.trans hzs.symm)
        exact hlt.trans (hz hzs.symm)
      · rw [List.mem_singleton.mp ham] at hax ⊢
        exact hz hax.symm
    · intro hall hxz
      exact hall z (by simp) hxz.symm

theorem avoidsBody_iff (h : Faithful c) : c.avoidsBody x ↔
    (∀ a ∈ c.entries, a.isBody) ∨ ∀ a ∈ c.entries, a.isBody → a.atom ≠ x.atom :=
  avoidsBody_iff_of_bodyFirst h.grammatical.bodyFirst

theorem sharesVariable_iff (h : Faithful c) : c.sharesVariable x ↔
    argumentsOf c.entries = [] ∨ ∃ v ∈ x.atom.vars, v ∈ argumentsOf c.entries := by
  simp [sharesVariable,h.rank_eq_zero_iff,h.mem_argumentsOf_iff]

theorem inOrder_iff (h : Faithful c)
    (hs : distinct (argumentsOf c.entries ++ x.atom.vars) < UInt32.size) :
    inOrder x.side c.rank x.atom.vars ↔ Numbered (argumentsOf c.entries ++ x.atom.vars) ∧
      (x.isBody ∨ ∀ v ∈ x.atom.vars, v ∈ argumentsOf c.entries) := by
  have hN := h.grammatical.numbered
  cases hx : x.side with
  | body =>
    have hxb : x.isBody := by simp [Literal.isBody,hx]
    simp [inOrder_body_iff hN h.toNat_rank hs,hxb]
  | head =>
    have hxb : ¬ x.isBody := by simp [Literal.isBody,hx]
    simp only [inOrder_head_iff,h.mem_argumentsOf_iff,hxb,Bool.false_eq_true,false_or]
    refine ⟨fun hold => ⟨?_,hold⟩,And.right⟩
    exact hN.append_of_subset fun v hv => h.mem_argumentsOf_iff.mpr (hold v hv)

/-- A step admits exactly what continues the text. -/
theorem admits_iff (h : Faithful c)
    (hs : distinct (argumentsOf c.entries ++ x.atom.vars) < UInt32.size) :
    c.admits x ↔ Continues c.entries x := by
  have htyp : c.typing.admits x.atom.predicate x.atom.vars ↔ _ :=
    h.fits.admits_iff h.grammatical.typed
  simp only [admits,Bool.and_eq_true]
  rw [h.follows_iff,htyp,h.avoidsBody_iff,h.sharesVariable_iff,h.inOrder_iff hs]
  constructor
  · rintro ⟨⟨⟨⟨⟨hk,hf⟩,ht⟩,hw⟩,hc⟩,hn,hi⟩
    exact ⟨hk,hf,hn,hi,hc,ht,Or.inr hw⟩
  · rintro ⟨hk,hf,hn,hi,hc,ht,hw⟩
    refine ⟨⟨⟨⟨⟨hk,hf⟩,ht⟩,?_⟩,hc⟩,hn,hi⟩
    rcases hw with hx | hw
    · exact Or.inl (hk hx)
    · exact hw

theorem extend? (h : Faithful c)
    (hs : distinct (argumentsOf c.entries ++ x.atom.vars) < UInt32.size)
    (hd : c.extend? x = some d) : Faithful d := by
  have hx := (h.admits_iff hs).mp (admits_of_extend? hd)
  obtain ⟨e,he,rfl⟩ := eq_of_extend? hd
  refine ⟨Grammatical.append_singleton_iff.mpr ⟨h.grammatical,hx⟩,?_,?_⟩
  · rw [argumentsOf_append,argumentsOf_singleton]
    exact toNat_rankWith h.toNat_rank hx.numbered hs
  · rw [usesOf_append,usesOf_singleton]
    exact h.fits.useAll he

end Faithful

theorem ofCandidates?_append_singleton : ofCandidates? (xs ++ [x]) = some d ↔
    ∃ c, ofCandidates? xs = some c ∧ c.extend? x = some d := by
  simp [ofCandidates?,List.foldlM_append,Option.bind_eq_some_iff]

/-- What holds of the empty clause and is kept by every step holds of every clause that is grown. -/
theorem invariant_of_ofCandidates? {P : Clause → Prop} (hempty : P empty)
    (hstep : ∀ c d x, P c → c.extend? x = some d → P d) (h : ofCandidates? xs = some c) : P c := by
  induction xs using List.reverseRecOn generalizing c with
  | nil =>
    cases h
    exact hempty
  | append_singleton xs x ih =>
    obtain ⟨b,hb,hbc⟩ := ofCandidates?_append_singleton.mp h
    exact hstep b c x (ih hb) hbc

/-- Replaying a text succeeds exactly when it is legal, as long as its variables can be counted;
the clause that results is faithful to it. -/
theorem ofCandidates?_spec (hs : distinct (argumentsOf xs) < UInt32.size) :
    (∀ c, ofCandidates? xs = some c → c.Faithful ∧ c.entries = xs) ∧
      ((∃ c, ofCandidates? xs = some c) ↔ Grammatical xs) := by
  induction xs using List.reverseRecOn with
  | nil =>
    refine ⟨?_,⟨fun _ => .nil,fun _ => ⟨empty,rfl⟩⟩⟩
    intro c hc
    cases hc
    exact ⟨faithful_empty,rfl⟩
  | append_singleton xs x ih =>
    rw [argumentsOf_append,argumentsOf_singleton] at hs
    obtain ⟨ihf,ihg⟩ := ih ((distinct_le_append _ _).trans_lt hs)
    constructor
    · intro d hd
      obtain ⟨c,hc,hcd⟩ := ofCandidates?_append_singleton.mp hd
      obtain ⟨hf,rfl⟩ := ihf c hc
      exact ⟨hf.extend? hs hcd,entries_extend? hcd⟩
    · rw [Grammatical.append_singleton_iff,← ihg]
      simp only [ofCandidates?_append_singleton]
      constructor
      · rintro ⟨d,c,hc,hcd⟩
        obtain ⟨hf,rfl⟩ := ihf c hc
        exact ⟨⟨c,hc⟩,(hf.admits_iff hs).mp (admits_of_extend? hcd)⟩
      · rintro ⟨⟨c,hc⟩,hx⟩
        obtain ⟨hf,rfl⟩ := ihf c hc
        obtain ⟨d,hd⟩ := Option.isSome_iff_exists.mp
          (extend?_isSome_iff.mpr ((hf.admits_iff hs).mpr hx))
        exact ⟨d,c,hc,hd⟩

/-- Legality is the grammar. A text of less than 2 ^ 32 - 1 arguments can be replayed exactly
when it is grammatical; the clause then has the text, as its rank the number of variables in it,
and types for exactly the variables below the rank. -/
theorem ofCandidates?_iff_grammatical (xs : List Candidate)
    (h : (argumentsOf xs).length < UInt32.size - 1) :
    ((∃ c, ofCandidates? xs = some c) ↔ Grammatical xs) ∧
      ∀ c, ofCandidates? xs = some c → c.entries = xs ∧
        c.rank.toNat = distinct (argumentsOf xs) ∧
        ∀ v, (c.typing.get? v).isSome ↔ v < c.rank := by
  have hs : distinct (argumentsOf xs) < UInt32.size := by
    have := distinct_le_length (argumentsOf xs)
    omega
  obtain ⟨hf,hg⟩ := ofCandidates?_spec hs
  refine ⟨hg,?_⟩
  intro c hc
  obtain ⟨hcf,rfl⟩ := hf c hc
  refine ⟨rfl,hcf.toNat_rank,?_⟩
  intro v
  rw [hcf.fits.isSome_get?_iff,map_fst_usesOf,hcf.mem_argumentsOf_iff]

end Clause

namespace Edge

def vertex : Ty := .root "vertex" false

def edge : Predicate := ⟨"edge",[vertex,vertex]⟩

/-- An edge on a side of the clause, with its place among the four edges. -/
def on (s : Side) (v w : UInt32) : Candidate := ⟨⟨s,edge,[v,w],rfl⟩,(2 * v + w).toNat⟩

/-- Back along an edge, and a loop where it began. -/
def symmetry : List Candidate := [on .body 0 1,on .head 0 0,on .head 1 0]

end Edge

namespace Clause

theorem grammatical_symmetry :
    (argumentsOf Edge.symmetry).length < UInt32.size - 1 ∧ Grammatical Edge.symmetry ∧
      ∃ c, ofCandidates? Edge.symmetry = some c ∧ c.entries = Edge.symmetry ∧
        c.rank.toNat = distinct (argumentsOf Edge.symmetry) := by
  have hlen : (argumentsOf Edge.symmetry).length < UInt32.size - 1 := by decide
  have h := ofCandidates?_iff_grammatical Edge.symmetry hlen
  have hc : ∃ c, ofCandidates? Edge.symmetry = some c := ⟨_,rfl⟩
  obtain ⟨c,hc'⟩ := hc
  have hspec := h.2 c hc'
  exact ⟨hlen,h.1.mp ⟨c,hc'⟩,c,hc',hspec.1,hspec.2.1⟩

end Clause
end ClauseDiscovery
