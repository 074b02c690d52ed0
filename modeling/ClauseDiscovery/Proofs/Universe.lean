import ClauseDiscovery.Universe
import ClauseDiscovery.Proofs.Enumeration.Odometer
import ClauseDiscovery.Proofs.Language.Order
import Mathlib.Data.List.Infix

/-! The universe of predicates that the order tells apart: it holds every atom over the
variables below the bound once, in ascending order, and a position is found for each of them.
So sequence numbers and atoms are ordered alike. -/
namespace ClauseDiscovery

section Repetitions

variable {α : Type*}

theorem eraseRepsBy_loop (r : α → α → Bool) (a : α) (as acc : List α) :
    List.eraseRepsBy.loop r a as acc = acc.reverse ++ List.eraseRepsBy.loop r a as [] := by
  induction as generalizing a acc with
  | nil => simp [List.eraseRepsBy.loop]
  | cons b as ih =>
    unfold List.eraseRepsBy.loop
    split
    · exact ih a acc
    · rw [ih b (a :: acc),ih b [a]]
      simp

variable [DecidableEq α]

theorem eraseReps_cons_cons (a b : α) (as : List α) :
    (a :: b :: as).eraseReps =
      if a = b then (b :: as).eraseReps else a :: (b :: as).eraseReps := by
  change List.eraseRepsBy.loop (· == ·) a (b :: as) [] = _
  unfold List.eraseRepsBy.loop
  by_cases h : a = b
  · subst h
    simp [List.eraseReps,List.eraseRepsBy]
  · simp only [beq_eq_false_iff_ne.mpr h,h,↓reduceIte]
    exact eraseRepsBy_loop _ b as [a]

theorem mem_eraseReps {c : α} : ∀ {as : List α}, c ∈ as.eraseReps ↔ c ∈ as
  | [] => Iff.rfl
  | [a] => Iff.rfl
  | a :: b :: as => by
    rw [eraseReps_cons_cons]
    split
    · rename_i h
      rw [mem_eraseReps]
      simp [h]
    · rw [List.mem_cons,mem_eraseReps,List.mem_cons (a := c) (b := a)]

/-- Without repetitions an ascending list ascends strictly. -/
theorem pairwise_eraseReps {cmp : α → α → Ordering} [Std.TransCmp cmp] :
    ∀ {as : List α}, as.Pairwise (fun a b => (cmp a b).isLE) →
      (∀ a ∈ as, ∀ b ∈ as, cmp a b = .eq → a = b) → as.eraseReps.Pairwise (cmp · · = .lt)
  | [], _, _ => List.Pairwise.nil
  | [a], _, _ => List.pairwise_singleton _ a
  | a :: b :: as, hp, hc => by
    have ih := pairwise_eraseReps (List.pairwise_cons.mp hp).2
      fun x hx y hy => hc x (by simp [hx]) y (by simp [hy])
    rw [eraseReps_cons_cons]
    split
    · exact ih
    · rename_i hab
      refine List.pairwise_cons.mpr ⟨?_,ih⟩
      intro c hc'
      have hbc : c ∈ b :: as := mem_eraseReps.mp hc'
      obtain ⟨ha,hbs⟩ := List.pairwise_cons.mp hp
      have hlt : cmp a b = .lt := by
        cases h : cmp a b with
        | lt => rfl
        | eq => exact absurd (hc a (by simp) b (by simp) h) hab
        | gt => simpa [h] using ha b (by simp)
      rcases List.mem_cons.mp hbc with rfl | hm
      · exact hlt
      · exact Std.TransCmp.lt_of_lt_of_isLE hlt ((List.pairwise_cons.mp hbs).1 c hm)

end Repetitions

theorem getElem?_foldl_insert {a : Atom} {as : List Atom} (h : as.Nodup) (k : Nat)
    (table : Std.HashMap Atom Nat) :
    ((as.zipIdx k).foldl (fun table (a,i) => table.insert a i) table)[a]? =
      if a ∈ as then some (k + as.idxOf a) else table[a]? := by
  induction as generalizing k table with
  | nil => simp
  | cons b as ih =>
    obtain ⟨hb,has⟩ := List.nodup_cons.mp h
    rw [List.zipIdx_cons,List.foldl_cons,ih has]
    by_cases hab : b = a
    · subst hab
      simp [hb]
    · simp [hab,Ne.symm hab,Std.HashMap.getElem?_insert]
      grind

namespace Universe

variable {u : Universe} {a b : Atom} {i : Nat} {l : Literal} {x y : Candidate}

def predicates (u : Universe) : List Predicate := u.atoms.map (·.predicate)

/-- What a search relies on: the atoms ascend strictly, the order tells their predicates
apart, and with an atom all those of its predicate are there. -/
structure Complete (u : Universe) : Prop where
  ascending : u.atoms.Pairwise (·.compare · = .lt)
  toldApart : Predicate.ToldApart u.predicates
  bounded : ∀ a ∈ u.atoms, ∀ v ∈ a.vars, v < u.bound
  closed : ∀ a ∈ u.atoms, ∀ b : Atom, b.predicate = a.predicate →
    (∀ v ∈ b.vars, v < u.bound) → b ∈ u.atoms

theorem mem_arrange {ps : List Predicate} {p : Predicate} : p ∈ arrange ps ↔ p ∈ ps := by
  rw [arrange,mem_eraseReps,List.mem_mergeSort]

theorem pairwise_arrange {ps : List Predicate} (h : Predicate.ToldApart ps) :
    (arrange ps).Pairwise (·.compare · = .lt) := by
  have hsorted := pairwise_mergeSort_isLE Predicate.compare ps
  apply pairwise_eraseReps hsorted
  intro p hp q hq
  exact h p (List.mem_mergeSort.mp hp) q (List.mem_mergeSort.mp hq)

theorem mem_atomsOf {n : UInt32} {p : Predicate} :
    a ∈ atomsOf n p ↔ a.predicate = p ∧ ∀ v ∈ a.vars, v < n := by
  unfold atomsOf
  simp only [List.mem_map,List.mem_attach,true_and,Subtype.exists]
  constructor
  · rintro ⟨vars,hv,rfl⟩
    exact ⟨rfl,(Odometer.mem_readings_iff.mp hv).2⟩
  · rintro ⟨rfl,hv⟩
    exact ⟨a.vars,Odometer.mem_readings_iff.mpr ⟨a.length_vars,hv⟩,rfl⟩

theorem pairwise_atomsOf (n : UInt32) (p : Predicate) :
    (atomsOf n p).Pairwise (·.compare · = .lt) := by
  unfold atomsOf
  have hr := Odometer.pairwise_readings p.arity n
  rw [← List.attach_map_subtype_val (Odometer.readings p.arity n),List.pairwise_map] at hr
  refine List.pairwise_map.mpr (hr.imp ?_)
  intro vs ws hlt
  exact Atom.compare_eq_lt_iff.mpr (Or.inr ⟨Std.ReflCmp.compare_self,hlt⟩)

theorem mem_ofPredicates {ps : List Predicate} {n : UInt32} :
    a ∈ (ofPredicates ps n).atoms ↔ a.predicate ∈ ps ∧ ∀ v ∈ a.vars, v < n := by
  simp only [ofPredicates,List.mem_flatMap,mem_arrange,mem_atomsOf]
  constructor
  · rintro ⟨p,hp,rfl,hv⟩
    exact ⟨hp,hv⟩
  · rintro ⟨hp,hv⟩
    exact ⟨_,hp,rfl,hv⟩

theorem complete_ofPredicates {ps : List Predicate} (h : Predicate.ToldApart ps) (n : UInt32) :
    (ofPredicates ps n).Complete where
  ascending := by
    refine List.pairwise_flatMap.mpr ⟨fun p _ => pairwise_atomsOf n p,?_⟩
    apply (pairwise_arrange h).imp
    intro p q hpq a ha b hb
    rw [Atom.compare_eq_lt_iff,(mem_atomsOf.mp ha).1,(mem_atomsOf.mp hb).1]
    exact Or.inl hpq
  toldApart := by
    intro p hp q hq hpq
    obtain ⟨a,ha,rfl⟩ := List.mem_map.mp hp
    obtain ⟨b,hb,rfl⟩ := List.mem_map.mp hq
    exact h _ (mem_ofPredicates.mp ha).1 _ (mem_ofPredicates.mp hb).1 hpq
  bounded a ha := (mem_ofPredicates.mp ha).2
  closed a ha b hb hv := mem_ofPredicates.mpr ⟨hb ▸ (mem_ofPredicates.mp ha).1,hv⟩

theorem Complete.nodup (h : u.Complete) : u.atoms.Nodup :=
  h.ascending.imp Atom.ne_of_compare_lt

theorem Complete.indexOf?_eq_some_iff (h : u.Complete) :
    u.indexOf? a = some i ↔ u.atoms[i]? = some a := by
  unfold indexOf?
  rw [u.positions_eq,positionTable,getElem?_foldl_insert h.nodup]
  constructor
  · intro hi
    split at hi
    · rename_i ha
      obtain rfl : u.atoms.idxOf a = i := by simpa using hi
      rw [List.getElem?_eq_getElem (List.idxOf_lt_length_of_mem ha),List.getElem_idxOf]
    · simp at hi
  · intro hi
    obtain ⟨hlt,rfl⟩ := List.getElem?_eq_some_iff.mp hi
    simp [List.Nodup.idxOf_getElem h.nodup i hlt]

theorem mem_onSide {s : Side} : x ∈ u.onSide s ↔ x.side = s ∧ u.atoms[x.index]? = some x.atom := by
  simp only [onSide,List.mem_map,Prod.exists]
  constructor
  · rintro ⟨a,i,hm,rfl⟩
    exact ⟨rfl,List.mem_zipIdx_iff_getElem?.mp hm⟩
  · rintro ⟨rfl,hx⟩
    exact ⟨x.atom,x.index,List.mem_zipIdx_iff_getElem?.mpr hx,rfl⟩

theorem mem_candidates : x ∈ u.candidates ↔ u.atoms[x.index]? = some x.atom := by
  rw [candidates,List.mem_append,mem_onSide,mem_onSide]
  cases x.side <;> simp

theorem candidateAt?_eq_some_iff {s : Side} :
    u.candidateAt? i s = some x ↔ x ∈ u.candidates ∧ x.side = s ∧ x.index = i := by
  rw [candidateAt?,get?,Option.map_eq_some_iff,mem_candidates]
  constructor
  · rintro ⟨a,ha,rfl⟩
    exact ⟨ha,rfl,rfl⟩
  · rintro ⟨hx,rfl,rfl⟩
    exact ⟨x.atom,hx,rfl⟩

theorem Complete.place?_eq_some_iff (h : u.Complete) :
    u.place? l = some x ↔ x.literal = l ∧ x ∈ u.candidates := by
  rw [mem_candidates,place?,Option.map_eq_some_iff]
  constructor
  · rintro ⟨i,hi,rfl⟩
    exact ⟨rfl,h.indexOf?_eq_some_iff.mp hi⟩
  · rintro ⟨rfl,hx⟩
    exact ⟨x.index,h.indexOf?_eq_some_iff.mpr hx,rfl⟩

theorem Complete.filterMap_place? {xs : List Candidate} (h : u.Complete)
    (hx : ∀ x ∈ xs, x ∈ u.candidates) : (xs.map (·.literal)).filterMap u.place? = xs := by
  rw [List.filterMap_map]
  refine (List.filterMap_congr (g := some) ?_).trans List.filterMap_some
  intro x hxs
  exact h.place?_eq_some_iff.mpr ⟨rfl,hx x hxs⟩

theorem atom_mem_of_mem_candidates (hx : x ∈ u.candidates) : x.atom ∈ u.atoms :=
  List.mem_of_getElem? (mem_candidates.mp hx)

theorem eq_of_index (hx : x ∈ u.candidates) (hy : y ∈ u.candidates) (hs : x.side = y.side)
    (hi : x.index = y.index) : x = y := by
  have hxa := mem_candidates.mp hx
  rw [hi,mem_candidates.mp hy] at hxa
  have hl : x.literal = y.literal := Literal.ext_of_eq hs (Option.some.inj hxa).symm
  cases x
  cases y
  cases hl
  cases hi
  rfl

theorem exists_candidate (ha : l.atom ∈ u.atoms) : ∃ x ∈ u.candidates, x.literal = l := by
  obtain ⟨i,hi⟩ := List.getElem?_of_mem ha
  exact ⟨⟨l,i⟩,mem_candidates.mpr hi,rfl⟩

theorem Complete.index_lt_iff (h : u.Complete) (hx : x ∈ u.candidates) (hy : y ∈ u.candidates) :
    x.index < y.index ↔ x.atom.compare y.atom = .lt := by
  obtain ⟨hi,hxi⟩ := List.getElem?_eq_some_iff.mp (mem_candidates.mp hx)
  obtain ⟨hj,hyj⟩ := List.getElem?_eq_some_iff.mp (mem_candidates.mp hy)
  have hlt := List.pairwise_iff_getElem.mp h.ascending
  rw [← hxi,← hyj]
  constructor
  · exact hlt _ _ hi hj
  · intro hc
    by_contra hle
    rcases Nat.lt_or_eq_of_le (Nat.not_lt.mp hle) with hji | he
    · exact Std.OrientedCmp.not_lt_of_lt hc (hlt _ _ hj hi hji)
    · simp [he] at hc

/-- On one side, literals are ordered as their sequence numbers are. -/
theorem Complete.compare_index (h : u.Complete) (hx : x ∈ u.candidates) (hy : y ∈ u.candidates)
    (hs : x.side = y.side) : x.literal.compare y.literal = compare x.index y.index := by
  rw [Literal.compare_of_side hs]
  rcases Nat.lt_trichotomy x.index y.index with hlt | he | hgt
  · rw [Nat.compare_eq_lt.mpr hlt]
    exact (h.index_lt_iff hx hy).mp hlt
  · rw [eq_of_index hx hy hs he]
    simp
  · rw [Nat.compare_eq_gt.mpr hgt]
    exact Std.OrientedCmp.gt_of_lt ((h.index_lt_iff hy hx).mp hgt)

theorem Complete.eq_of_literal (h : u.Complete) (hx : x ∈ u.candidates) (hy : y ∈ u.candidates)
    (he : x.literal = y.literal) : x = y := by
  have hxp := h.place?_eq_some_iff.mpr ⟨rfl,hx⟩
  have hyp := h.place?_eq_some_iff.mpr ⟨rfl,hy⟩
  rw [he,hyp] at hxp
  exact (Option.some.inj hxp).symm

theorem predicate_mem (hx : x ∈ u.candidates) : x.atom.predicate ∈ u.predicates :=
  List.mem_map_of_mem (atom_mem_of_mem_candidates hx)

theorem Complete.eq_of_compare {l m : Literal} (h : u.Complete)
    (hl : l.atom.predicate ∈ u.predicates) (hm : m.atom.predicate ∈ u.predicates)
    (he : l.compare m = .eq) : l = m := by
  obtain ⟨hp,hs,hv⟩ := Literal.compare_eq_eq_iff.mp he
  exact Literal.ext_of_eq hs (Atom.ext_of_eq (h.toldApart _ hl _ hm hp) hv)

/-- Of two lists of candidates of one length that are not equal, one is smaller. -/
theorem Complete.precedes_or_precedes {xs ys : List Candidate} (h : u.Complete)
    (hx : ∀ x ∈ xs, x ∈ u.candidates) (hy : ∀ y ∈ ys, y ∈ u.candidates)
    (hlen : xs.length = ys.length) (hne : xs ≠ ys) :
    precedes (xs.map (·.literal)) (ys.map (·.literal)) ∨
      precedes (ys.map (·.literal)) (xs.map (·.literal)) := by
  refine ClauseDiscovery.precedes_or_precedes (by simpa using hlen) ?_ ?_
  · intro l hl m hm
    obtain ⟨x,hxm,rfl⟩ := List.mem_map.mp hl
    obtain ⟨y,hym,rfl⟩ := List.mem_map.mp hm
    exact h.eq_of_compare (predicate_mem (hx x hxm)) (predicate_mem (hy y hym))
  · intro he
    apply hne
    rw [← h.filterMap_place? hx,← h.filterMap_place? hy,he]

theorem map_index_onSide (u : Universe) (s : Side) :
    (u.onSide s).map (·.index) = List.range' 0 u.atoms.length := by
  rw [onSide,List.map_map]
  exact List.zipIdx_map_snd 0 u.atoms

theorem nodup_candidates (u : Universe) : u.candidates.Nodup := by
  have hside : ∀ s, (u.onSide s).Nodup := by
    intro s
    apply List.Nodup.of_map (·.index)
    rw [map_index_onSide]
    exact List.nodup_range'
  apply List.Nodup.append (hside _) (hside _)
  intro x hx hx'
  have := (mem_onSide.mp hx).1.symm.trans (mem_onSide.mp hx').1
  cases this

theorem exists_get?_iff : (∃ a, u.get? i = some a) ↔ i < u.size := by
  rw [← Option.isSome_iff_exists,get?,isSome_getElem?,size]

/-- Predicates that the order tells apart, in any order and repeated or not, give the universe of
their atoms over the variables below the bound. An atom is found at a position exactly when it is
there, every position below the size holds one, and on each side positions are ordered as the
literals at them. -/
theorem ofPredicates_enumerates {ps : List Predicate} (h : Predicate.ToldApart ps) (n : UInt32) :
    (∀ a, (∃ i, (ofPredicates ps n).get? i = some a) ↔
      a.predicate ∈ ps ∧ ∀ v ∈ a.vars, v < n) ∧
    (∀ a i, (ofPredicates ps n).indexOf? a = some i ↔ (ofPredicates ps n).get? i = some a) ∧
    (∀ i, (∃ a, (ofPredicates ps n).get? i = some a) ↔ i < (ofPredicates ps n).size) ∧
    (∀ i s, (ofPredicates ps n).candidateAt? i s =
      ((ofPredicates ps n).get? i).map fun a => ⟨⟨s,a⟩,i⟩) ∧
    ∀ s i j x y, (ofPredicates ps n).candidateAt? i s = some x →
      (ofPredicates ps n).candidateAt? j s = some y →
      x.literal.compare y.literal = compare i j := by
  have hu := complete_ofPredicates h n
  refine ⟨fun a => ?_,fun a i => hu.indexOf?_eq_some_iff,fun i => exists_get?_iff,fun i s => rfl,
    fun s i j x y hx hy => ?_⟩
  · rw [← mem_ofPredicates]
    exact List.mem_iff_getElem?.symm
  · obtain ⟨hxu,rfl,rfl⟩ := candidateAt?_eq_some_iff.mp hx
    obtain ⟨hyu,hs,rfl⟩ := candidateAt?_eq_some_iff.mp hy
    exact hu.compare_index hxu hyu hs.symm

end Universe

namespace Rooms

def room : Ty := .root "room" false

def door : Predicate := ⟨"door",[room,room]⟩

def night : Predicate := ⟨"night",[]⟩

/-- A predicate comes twice, and before one that is smaller. -/
def signature : List Predicate := [night,door,night]

def back : Atom := ⟨door,[1,0],rfl⟩

def dark : Atom := ⟨night,[],rfl⟩

end Rooms

namespace Universe

open Rooms in
/-- A door is found before the night, wherever the list of predicates has them, and both can be
offered from where they are found. -/
theorem ofPredicates_enumerates_rooms : Predicate.ToldApart signature ∧ ∃ i j,
    (ofPredicates signature 2).indexOf? back = some i ∧
    (ofPredicates signature 2).indexOf? dark = some j ∧
    (ofPredicates signature 2).candidateAt? i .head = some ⟨⟨.head,back⟩,i⟩ ∧
    (ofPredicates signature 2).candidateAt? j .head = some ⟨⟨.head,dark⟩,j⟩ ∧
    i < j ∧ j < (ofPredicates signature 2).size := by
  have ht : Predicate.ToldApart signature := by decide
  obtain ⟨hmem,hindex,hsize,hplaced,horder⟩ := ofPredicates_enumerates ht 2
  obtain ⟨i,hi⟩ := (hmem back).mpr ⟨by decide,by simp [back]⟩
  obtain ⟨j,hj⟩ := (hmem dark).mpr ⟨by decide,by simp [dark]⟩
  have hx := hplaced i .head
  have hy := hplaced j .head
  rw [hi,Option.map_some] at hx
  rw [hj,Option.map_some] at hy
  have hlt : (⟨.head,back⟩ : Literal).compare ⟨.head,dark⟩ = .lt := by decide
  rw [horder .head i j _ _ hx hy] at hlt
  exact ⟨ht,i,j,(hindex back i).mpr hi,(hindex dark j).mpr hj,hx,hy,Nat.compare_eq_lt.mp hlt,
    (hsize j).mp ⟨dark,hj⟩⟩

end Universe
end ClauseDiscovery
