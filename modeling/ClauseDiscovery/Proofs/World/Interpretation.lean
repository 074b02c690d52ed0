import ClauseDiscovery.Proofs.World.Slots
import ClauseDiscovery.Proofs.Typing

/-! What an interpretation says. Facts that fit the vocabulary are recorded one after the other,
and the first that does not is reported. Each type then has the constants that stand at its
positions and each predicate its tuples, in the order of first occurrence, however often the
vocabulary registers it. -/
namespace ClauseDiscovery

/-- The predicate is known, types included, and has as many constants as parameters. -/
structure Fact.Fits (v : Vocabulary) (f : Fact) : Prop where
  known : f.predicate ∈ v.predicates
  length_args : f.args.length = f.predicate.arity

instance (v : Vocabulary) (f : Fact) : Decidable (f.Fits v) :=
  decidable_of_iff (f.predicate ∈ v.predicates ∧ f.args.length = f.predicate.arity)
    ⟨fun h => ⟨h.1,h.2⟩,fun h => ⟨h.known,h.length_args⟩⟩

inductive Fact.Misfit (v : Vocabulary) (f : Fact) : FactError → Prop
  | unknown : f.predicate ∉ v.predicates → Misfit v f (.unknownPredicate f.predicate.name)
  | arity : f.predicate ∈ v.predicates → f.args.length ≠ f.predicate.arity →
      Misfit v f (.arityMismatch f.predicate.name f.predicate.arity f.args.length)

namespace Example

def placements (facts : Example) : List (Ty × String) :=
  (facts.flatMap fun f => f.args.zip f.predicate.params).map Prod.swap

def statements (facts : Example) : List (Predicate × List String) :=
  facts.map fun f => (f.predicate,f.args)

def furtherTypes (v : Vocabulary) (facts : Example) : List Ty :=
  ((facts.flatMap (·.predicate.params)).filter (· ∉ v.types)).eraseDups

end Example

variable {v : Vocabulary} {facts : Example} {f : Fact} {e : FactError} {τ : Ty} {p : Predicate}

theorem Fact.fits_or_misfit (v : Vocabulary) (f : Fact) : f.Fits v ∨ ∃ e, f.Misfit v e := by
  by_cases hp : f.predicate ∈ v.predicates
  · by_cases hl : f.args.length = f.predicate.arity
    · exact Or.inl ⟨hp,hl⟩
    · exact Or.inr ⟨_,.arity hp hl⟩
  · exact Or.inr ⟨_,.unknown hp⟩

/-- Either all facts fit or there is a first one that does not. -/
theorem forall_fits_or_exists_misfit (v : Vocabulary) (facts : Example) :
    (∀ f ∈ facts, f.Fits v) ∨ ∃ e as f bs, facts = as ++ f :: bs ∧ (∀ a ∈ as, a.Fits v) ∧
      f.Misfit v e := by
  induction facts with
  | nil => exact Or.inl (by simp)
  | cons f facts ih =>
    rcases f.fits_or_misfit v with hf | ⟨e,he⟩
    · rcases ih with hall | ⟨e,as,g,bs,rfl,has,hg⟩
      · exact Or.inl (by simpa using ⟨hf,hall⟩)
      · exact Or.inr ⟨e,f :: as,g,bs,rfl,by simpa using ⟨hf,has⟩,hg⟩
    · exact Or.inr ⟨e,[],f,facts,rfl,by simp,he⟩

namespace Draft

variable {d d' : Draft}

structure Tells (d : Draft) (v : Vocabulary) (facts : Example) : Prop where
  fits : ∀ f ∈ facts, f.Fits v
  domains : d.domains.Filled v.types facts.placements
  relations : d.relations.Filled v.predicates facts.statements

theorem tells_blank (v : Vocabulary) : (blank v).Tells v [] where
  fits := by simp
  domains := Slots.filled_ofKeys v.types
  relations := Slots.filled_ofKeys v.predicates

theorem Tells.keys_relations (h : d.Tells v facts) :
    d.relations.entries.map Prod.fst = v.predicates := by
  have hnone : (facts.statements.map Prod.fst).filter (· ∉ v.predicates) = [] := by
    rw [List.filter_eq_nil_iff]
    intro p hp
    obtain ⟨u,hu,rfl⟩ := List.mem_map.mp hp
    obtain ⟨f,hf,rfl⟩ := List.mem_map.mp hu
    simpa using (h.fits f hf).known
  rw [h.relations.entries_eq,keys_fill,hnone]
  simp

theorem Tells.place?_eq (h : d.Tells v facts) (p : Predicate) :
    d.relations.place? p = v.predicates.idxOf? p := by
  rw [h.relations.sound.place?_eq,h.keys_relations]

theorem filled_noteConstants {ds : Slots Ty String} (h : ds.Filled v.types facts.placements)
    (f : Fact) : (noteConstants ds f).Filled v.types (Example.placements (facts ++ [f])) := by
  have hfold : noteConstants ds f = ((f.args.zip f.predicate.params).map Prod.swap).foldl
      (fun s u => s.noteAt u.1 u.2) ds := by
    rw [List.foldl_map]
    rfl
  have huses : Example.placements (facts ++ [f]) =
      facts.placements ++ (f.args.zip f.predicate.params).map Prod.swap := by
    simp [Example.placements]
  rw [hfold,huses]
  exact h.foldl _

/-- A fact that fits is recorded. -/
theorem Tells.record (h : d.Tells v facts) (hf : f.Fits v) :
    ∃ d', d.record f = .ok d' ∧ d'.Tells v (facts ++ [f]) := by
  obtain ⟨i,hi⟩ := exists_idxOf? hf.known
  have hplace : d.relations.place? f.predicate = some i := by rw [h.place?_eq,hi]
  have hnote : d.relations.noteAt f.predicate f.args = d.relations.note i f.args := by
    rw [Slots.noteAt,hplace]
  refine ⟨⟨noteConstants d.domains f,d.relations.note i f.args⟩,?_,?_,?_,?_⟩
  · simp [Draft.record,hplace,hf.length_args]
  · intro g hg
    rcases List.mem_append.mp hg with hg | hg
    · exact h.fits g hg
    · rwa [List.mem_singleton.mp hg]
  · exact filled_noteConstants h.domains f
  · have hs : Example.statements (facts ++ [f]) = facts.statements ++ [(f.predicate,f.args)] := by
      simp [Example.statements]
    rw [hs,← hnote]
    exact h.relations.noteAt f.predicate f.args

theorem Tells.record_misfit (h : d.Tells v facts) (hf : f.Misfit v e) : d.record f = .error e := by
  unfold Draft.record
  rw [h.place?_eq]
  cases hf with
  | unknown hp => rw [List.idxOf?_eq_none_iff.mpr hp]
  | arity hp hl =>
    obtain ⟨i,hi⟩ := exists_idxOf? hp
    simp [hi,hl]

theorem Tells.foldlM {as : Example} (h : d.Tells v as) (hall : ∀ f ∈ facts, f.Fits v) :
    ∃ d', facts.foldlM Draft.record d = .ok d' ∧ d'.Tells v (as ++ facts) := by
  induction facts generalizing d as with
  | nil => exact ⟨d,rfl,by simpa using h⟩
  | cons f facts ih =>
    obtain ⟨d₁,hd₁,ht₁⟩ := h.record (hall f (by simp))
    obtain ⟨d',hd',ht'⟩ := ih ht₁ fun g hg => hall g (List.mem_cons_of_mem _ hg)
    refine ⟨d',?_,by simpa using ht'⟩
    rw [List.foldlM_cons,hd₁]
    exact hd'

end Draft

namespace Example

theorem exists_interpret (hall : ∀ f ∈ facts, f.Fits v) :
    ∃ d : Draft, facts.interpret v = .ok d.interpretation ∧ d.Tells v facts := by
  obtain ⟨d,hd,ht⟩ := (Draft.tells_blank v).foldlM hall
  refine ⟨d,?_,ht⟩
  rw [interpret,hd]
  rfl

theorem interpret_misfit {as bs : Example} (has : ∀ a ∈ as, a.Fits v) (hf : f.Misfit v e) :
    interpret v (as ++ f :: bs) = .error e := by
  obtain ⟨d,hd,ht⟩ := (Draft.tells_blank v).foldlM has
  have hf' : d.record f = .error e := ht.record_misfit hf
  rw [interpret,List.foldlM_append,hd]
  change ((f :: bs).foldlM Draft.record d).map Draft.interpretation = _
  rw [List.foldlM_cons,hf']
  rfl

theorem interpret_eq_error_iff : facts.interpret v = .error e ↔
    ∃ as f bs, facts = as ++ f :: bs ∧ (∀ a ∈ as, a.Fits v) ∧ f.Misfit v e := by
  constructor
  · intro h
    rcases forall_fits_or_exists_misfit v facts with hall | ⟨e',as,f,bs,rfl,has,hf⟩
    · obtain ⟨d,hd,-⟩ := exists_interpret hall
      rw [hd] at h
      cases h
    · rw [interpret_misfit has hf] at h
      cases h
      exact ⟨as,f,bs,rfl,has,hf⟩
  · rintro ⟨as,f,bs,rfl,has,hf⟩
    exact interpret_misfit has hf

theorem exists_interpret_iff : (∃ i, facts.interpret v = .ok i) ↔ ∀ f ∈ facts, f.Fits v := by
  constructor
  · rintro ⟨i,hi⟩
    rcases forall_fits_or_exists_misfit v facts with hall | ⟨e,as,f,bs,rfl,has,hf⟩
    · exact hall
    · rw [interpret_misfit has hf] at hi
      cases hi
  · intro hall
    obtain ⟨d,hd,-⟩ := exists_interpret hall
    exact ⟨_,hd⟩

theorem map_fst_placements (hall : ∀ f ∈ facts, f.Fits v) :
    facts.placements.map Prod.fst = facts.flatMap (·.predicate.params) := by
  have hplaced : facts.placements.map Prod.fst =
      facts.flatMap fun f => (f.args.zip f.predicate.params).map Prod.snd := by
    rw [placements,List.map_map,List.map_flatMap]
    rfl
  rw [hplaced]
  apply List.flatMap_congr
  intro f hf
  exact List.map_snd_zip (hall f hf).length_args.ge

end Example

namespace Draft.Tells

variable {d : Draft}

theorem relation? (h : d.Tells v facts) (p : Predicate) : d.interpretation.relation? p =
    if p ∈ v.predicates then some (usedWith facts.statements p) else none := by
  have hkeys : p ∈ v.predicates ∨ p ∈ facts.statements.map Prod.fst ↔ p ∈ v.predicates := by
    refine ⟨?_,Or.inl⟩
    rintro (hp | hp)
    · exact hp
    · obtain ⟨u,hu,rfl⟩ := List.mem_map.mp hp
      obtain ⟨f,hf,rfl⟩ := List.mem_map.mp hu
      exact (h.fits f hf).known
  change slotOf? p d.relations.entries = _
  rw [h.relations.entries_eq,slotOf?_fill]
  simp only [hkeys]

theorem domain? (h : d.Tells v facts) (τ : Ty) : d.interpretation.domain? τ =
    if τ ∈ v.types ∨ ∃ f ∈ facts, τ ∈ f.predicate.params then some (usedWith facts.placements τ)
    else none := by
  change slotOf? τ d.domains.entries = _
  rw [h.domains.entries_eq,slotOf?_fill]
  simp only [Example.map_fst_placements h.fits,List.mem_flatMap]

theorem keys_domains (h : d.Tells v facts) :
    d.interpretation.domains.map Prod.fst = v.types ++ facts.furtherTypes v := by
  change d.domains.entries.map Prod.fst = _
  rw [h.domains.entries_eq,keys_fill,Example.map_fst_placements h.fits]
  rfl

end Draft.Tells

namespace Example

/-- Facts have an interpretation exactly when all of them fit; otherwise the first that does not is
reported, an unknown predicate before a wrong number of constants. In the interpretation the
predicates of the vocabulary have their tuples; the types of the vocabulary and of the facts, in
this order, have the constants at their positions, and no others have any. -/
theorem interpret_spec (v : Vocabulary) (facts : Example) :
    ((∃ i, facts.interpret v = .ok i) ↔ ∀ f ∈ facts, f.Fits v) ∧
    (∀ e, facts.interpret v = .error e ↔
      ∃ as f bs, facts = as ++ f :: bs ∧ (∀ a ∈ as, a.Fits v) ∧ f.Misfit v e) ∧
    ∀ i, facts.interpret v = .ok i →
      (∀ p, i.relation? p = if p ∈ v.predicates then some (usedWith facts.statements p) else none) ∧
      (∀ τ, i.domain? τ = if τ ∈ v.types ∨ ∃ f ∈ facts, τ ∈ f.predicate.params then
        some (usedWith facts.placements τ) else none) ∧
      i.domains.map Prod.fst = v.types ++ facts.furtherTypes v ∧
      i.relations.map Prod.fst = v.predicates := by
  refine ⟨exists_interpret_iff,fun e => interpret_eq_error_iff,fun i hi => ?_⟩
  obtain ⟨d,hd,ht⟩ := exists_interpret (exists_interpret_iff.mp ⟨i,hi⟩)
  obtain rfl : d.interpretation = i := Except.ok.inj (hd.symm.trans hi)
  exact ⟨ht.relation?,ht.domain?,ht.keys_domains,ht.keys_relations⟩

end Example

namespace Blocks

def stands : Predicate := ⟨"stands",[block,cube]⟩

def registered : Vocabulary := ⟨[block,block],[stands,stands]⟩

def towers : Example := [⟨stands,["b","a"]⟩,⟨stands,["a","c"]⟩,⟨stands,["b","a"]⟩]

end Blocks

namespace Example

open Blocks in
/-- A fact that repeats counts once, and so does a type or a predicate that is registered twice; the
cubes come after the vocabulary. -/
theorem interpret_spec_blocks : ∃ i, towers.interpret registered = .ok i ∧
    i.relation? stands = some [["b","a"],["a","c"]] ∧ i.domain? block = some ["b","a"] ∧
    i.domain? cube = some ["a","c"] ∧ i.domain? thing = none ∧
    i.domains.map Prod.fst = [block,block,cube] ∧ i.relations.map Prod.fst = [stands,stands] := by
  obtain ⟨hfits,-,hok⟩ := interpret_spec registered towers
  have hall : ∀ f ∈ towers, f.Fits registered := by decide
  obtain ⟨i,hi⟩ := hfits.mpr hall
  obtain ⟨hrel,hdom,htypes,hpreds⟩ := hok i hi
  refine ⟨i,hi,?_,?_,?_,?_,?_,hpreds⟩
  · rw [hrel]
    decide
  · rw [hdom]
    decide
  · rw [hdom]
    decide
  · rw [hdom]
    decide
  · rw [htypes]
    decide

end Example
end ClauseDiscovery
