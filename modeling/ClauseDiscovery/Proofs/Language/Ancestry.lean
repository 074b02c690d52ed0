import ClauseDiscovery.Language.Ty
import Mathlib.Data.List.Infix
import Mathlib.Logic.Relation

/-! The supertype order on types. The lineage of a supertype is a suffix of the lineage of
each of its subtypes; hence the order is a partial order and the supertypes of one type form
a chain. -/
namespace ClauseDiscovery
namespace Ty

theorem lineage_eq_cons (a : Ty) : ∃ as, a.lineage = a :: as := by
  cases a with
  | root n b => exact ⟨[],rfl⟩
  | child n p => exact ⟨p.lineage,rfl⟩

theorem lineage_injective {a b : Ty} (h : a.lineage = b.lineage) : a = b := by
  obtain ⟨as,ha⟩ := a.lineage_eq_cons
  obtain ⟨bs,hb⟩ := b.lineage_eq_cons
  rw [ha,hb] at h
  exact (List.cons.inj h).1

theorem suffix_lineage_of_mem {a b : Ty} (h : a ∈ b.lineage) : a.lineage <:+ b.lineage := by
  induction b with
  | root n c =>
    have he : a = root n c := by simpa [lineage] using h
    rw [he]
  | child n p ih =>
    rcases List.mem_cons.mp h with he | hp
    · rw [he]
    · exact (ih hp).trans (List.suffix_cons _ _)

theorem isSupertypeOf_iff_suffix {a b : Ty} : a.isSupertypeOf b ↔ a.lineage <:+ b.lineage := by
  rw [isSupertypeOf_iff_mem_lineage]
  exact ⟨suffix_lineage_of_mem,fun h => h.subset a.self_mem_lineage⟩

theorem isSupertypeOf_trans {a b c : Ty} (hab : a.isSupertypeOf b) (hbc : b.isSupertypeOf c) :
    a.isSupertypeOf c :=
  isSupertypeOf_iff_suffix.mpr
    ((isSupertypeOf_iff_suffix.mp hab).trans (isSupertypeOf_iff_suffix.mp hbc))

theorem isSupertypeOf_antisymm {a b : Ty} (hab : a.isSupertypeOf b) (hba : b.isSupertypeOf a) :
    a = b := by
  have h := isSupertypeOf_iff_suffix.mp hab
  have h' := isSupertypeOf_iff_suffix.mp hba
  exact lineage_injective (h.eq_of_length (Nat.le_antisymm h.length_le h'.length_le))

/-- The supertypes of one type form a chain. -/
theorem related_of_isSupertypeOf {a b c : Ty} (ha : a.isSupertypeOf c)
    (hb : b.isSupertypeOf c) : a.Related b := by
  have ha' := isSupertypeOf_iff_suffix.mp ha
  have hb' := isSupertypeOf_iff_suffix.mp hb
  rcases List.suffix_or_suffix_of_suffix ha' hb' with h | h
  · exact Or.inl (isSupertypeOf_iff_suffix.mpr h)
  · exact Or.inr (isSupertypeOf_iff_suffix.mpr h)

@[simp] theorem related_self (a : Ty) : a.Related a := Or.inl (isSupertypeOf_self a)

theorem Related.symm {a b : Ty} (h : a.Related b) : b.Related a := Or.symm h

/-- Types are what their names, marks and parents make them, whoever built them. -/
theorem eq_iff {a b : Ty} :
    a = b ↔ a.name = b.name ∧ a.isBuiltin = b.isBuiltin ∧ a.parent? = b.parent? := by
  cases a <;> cases b <;> simp [name,isBuiltin,parent?]

def ChildOf (a b : Ty) : Prop := a.parent? = some b

/-- The supertypes of a type are those that the way along the parents passes. -/
theorem isSupertypeOf_iff_reflTransGen {a b : Ty} :
    a.isSupertypeOf b ↔ Relation.ReflTransGen ChildOf b a := by
  induction b with
  | root n c =>
    rw [Relation.ReflTransGen.cases_head_iff]
    simp [isSupertypeOf,ChildOf,parent?,eq_comm (a := a)]
  | child n p ih =>
    rw [Relation.ReflTransGen.cases_head_iff]
    simp [isSupertypeOf,ChildOf,parent?,ih,eq_comm (a := a)]

/-- A type is equal to another when name, mark and parent are; then its supertypes, which are
found along the parents, make the types a forest: a partial order in which whatever stands above
one type is in line. -/
theorem isSupertypeOf_forest :
    (∀ a b : Ty,
      a = b ↔ a.name = b.name ∧ a.isBuiltin = b.isBuiltin ∧ a.parent? = b.parent?) ∧
    (∀ a b : Ty, a.isSupertypeOf b ↔ Relation.ReflTransGen ChildOf b a) ∧
    (∀ a : Ty, a.isSupertypeOf a) ∧
    (∀ a b c : Ty, a.isSupertypeOf b → b.isSupertypeOf c → a.isSupertypeOf c) ∧
    (∀ a b : Ty, a.isSupertypeOf b → b.isSupertypeOf a → a = b) ∧
    ∀ a b c : Ty, a.isSupertypeOf c → b.isSupertypeOf c →
      a.isSupertypeOf b ∨ b.isSupertypeOf a :=
  ⟨fun _ _ => eq_iff,fun _ _ => isSupertypeOf_iff_reflTransGen,isSupertypeOf_self,
    fun _ _ _ => isSupertypeOf_trans,fun _ _ => isSupertypeOf_antisymm,
    fun _ _ _ => related_of_isSupertypeOf⟩

theorem isSupertypeOf_forest_cube : ∃ thing block cube : Ty,
    thing = root "thing" false ∧ block = child "block" thing ∧ cube = child "cube" block ∧
      thing.isSupertypeOf cube ∧ (thing.isSupertypeOf block ∨ block.isSupertypeOf thing) ∧
      ¬ block.isSupertypeOf thing ∧ ¬ (root "block" false).isSupertypeOf cube := by
  refine ⟨_,_,_,rfl,rfl,rfl,?_⟩
  obtain ⟨-,-,-,htrans,hantisymm,hchain⟩ := isSupertypeOf_forest
  have hblock : (child "block" (root "thing" false)).isSupertypeOf
      (child "cube" (child "block" (root "thing" false))) := by decide
  have hthing := htrans (root "thing" false) _ _ (by decide) hblock
  refine ⟨hthing,hchain _ _ _ hthing hblock,fun hback => ?_,by decide⟩
  exact absurd (hantisymm _ _ hback (by decide)) (by decide)

end Ty
end ClauseDiscovery
