import ClauseDiscovery.Proofs.Clause.Frontier

/-! The order of a level. Candidates are offered in the order of their literals, so a level lists
its clauses in the lexicographic order of their texts, whatever the universe numbers them by. -/
namespace ClauseDiscovery

section Lexicographic

variable {α : Type*} {cmp : α → α → Ordering} {a b : α} {as bs cs ds : List α}

theorem compareLex_append_left [Std.ReflCmp cmp] :
    List.compareLex cmp (cs ++ as) (cs ++ bs) = List.compareLex cmp as bs := by
  induction cs with
  | nil => rfl
  | cons c cs ih => simp [List.compareLex_cons_cons,Std.ReflCmp.compare_self,ih]

theorem compareLex_append_of_lt (h : List.compareLex cmp as bs = .lt)
    (hlen : as.length = bs.length) : List.compareLex cmp (as ++ cs) (bs ++ ds) = .lt := by
  induction as generalizing bs with
  | nil =>
    rw [List.length_eq_zero_iff.mp hlen.symm] at h
    cases h
  | cons a as ih =>
    cases bs with
    | nil => simp at hlen
    | cons b bs =>
      rw [List.compareLex_cons_cons,Ordering.then_eq_lt] at h
      rw [List.cons_append,List.cons_append,List.compareLex_cons_cons,Ordering.then_eq_lt]
      exact h.imp_right (And.imp_right fun hlt => ih hlt (Nat.succ.inj hlen))

end Lexicographic

namespace Literal

/-- The order in which a universe offers literals: the body before the head, and by atom on each
side. -/
def comparePlace (l m : Literal) : Ordering :=
  (Ord.compare l.side m.side).then (l.atom.compare m.atom)

instance : Std.TransCmp comparePlace := by
  have he : comparePlace =
      compareLex (compareOn side) (fun l m => l.atom.compare m.atom) := rfl
  have := transCmp_comap Atom.compare fun l : Literal => l.atom
  rw [he]
  infer_instance

end Literal

namespace Universe

variable {u : Universe} {x y : Candidate}

theorem pairwise_onSide (u : Universe) (s : Side) :
    (u.onSide s).Pairwise (·.index < ·.index) := by
  apply List.pairwise_map.mp
  rw [map_index_onSide]
  exact List.pairwise_lt_range'

theorem Complete.pairwise_candidates (hu : u.Complete) :
    u.candidates.Pairwise (·.literal.comparePlace ·.literal = .lt) := by
  have hside : ∀ s, (u.onSide s).Pairwise (·.literal.comparePlace ·.literal = .lt) := by
    intro s
    refine List.Pairwise.imp_of_mem ?_ (u.pairwise_onSide s)
    intro x y hx hy hlt
    obtain ⟨hxs,hxu⟩ := mem_onSide.mp hx
    obtain ⟨hys,hyu⟩ := mem_onSide.mp hy
    have hatoms := (hu.index_lt_iff (mem_candidates.mpr hxu) (mem_candidates.mpr hyu)).mp hlt
    have hs : x.literal.side = y.literal.side := hxs.trans hys.symm
    simpa [Literal.comparePlace,hs] using hatoms
  refine List.pairwise_append.mpr ⟨hside .body,hside .head,?_⟩
  intro x hx y hy
  have hxs : x.literal.side = .body := (mem_onSide.mp hx).1
  have hys : y.literal.side = .head := (mem_onSide.mp hy).1
  have hlt : compare Side.body Side.head = .lt := rfl
  simp [Literal.comparePlace,hxs,hys,hlt]

end Universe

namespace Clause

variable {u : Universe} {c d : Clause} {n : Nat}

/-- One clause comes before the other in the lexicographic order of their texts. -/
def ComesBefore (ls ms : List Literal) : Prop :=
  List.compareLex Literal.comparePlace ls ms = .lt

theorem comesBefore_append_left {ls as bs : List Literal} :
    ComesBefore (ls ++ as) (ls ++ bs) ↔ ComesBefore as bs := by
  rw [ComesBefore,compareLex_append_left]
  rfl

instance : Std.Irrefl ComesBefore :=
  ⟨fun ls h => by simp [ComesBefore,Std.ReflCmp.compare_self] at h⟩

instance : Std.Antisymm ComesBefore :=
  ⟨fun _ _ h h' => absurd h' (Std.OrientedCmp.not_lt_of_lt h)⟩

theorem literals_of_extendCanonical? {x : Candidate} (h : c.extendCanonical? u x = some d) :
    d.literals = c.literals ++ [x.literal] := by
  simp [literals,entries_extend? (extend?_of_extendCanonical? h)]

theorem pairwise_refinements (hu : u.Complete) (c : Clause) :
    (c.refinements u).Pairwise fun d e => ComesBefore d.literals e.literals := by
  refine List.pairwise_filterMap.mpr (hu.pairwise_candidates.imp ?_)
  intro x y hxy d hd e he
  rw [literals_of_extendCanonical? hd,literals_of_extendCanonical? he,comesBefore_append_left]
  rw [ComesBefore,List.compareLex_cons_cons,hxy]
  rfl

/-- A level ascends. -/
theorem pairwise_comesBefore_frontier (hu : u.Complete) (n : Nat) :
    (frontier u n [empty]).Pairwise fun d e => ComesBefore d.literals e.literals := by
  induction n with
  | zero => exact List.pairwise_singleton _ _
  | succ n ih =>
    rw [frontier_succ]
    refine List.pairwise_flatMap.mpr ⟨fun c _ => pairwise_refinements hu c,?_⟩
    refine List.Pairwise.imp_of_mem ?_ ih
    intro b c hb hc hbc d hd e he
    obtain ⟨x,_,hx⟩ := List.mem_filterMap.mp hd
    obtain ⟨y,_,hy⟩ := List.mem_filterMap.mp he
    have hlen : ∀ c ∈ frontier u n [empty], c.literals.length = n := by
      intro c hc
      simpa [literals,length] using (grown_iff.mp ((mem_frontier_iff hu).mp hc).1).1
    rw [literals_of_extendCanonical? hx,literals_of_extendCanonical? hy]
    exact compareLex_append_of_lt hbc ((hlen b hb).trans (hlen c hc).symm)

end Clause
end ClauseDiscovery
