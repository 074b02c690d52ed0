import ClauseDiscovery.Clause.Basic
import ClauseDiscovery.Word

/-! The steps of a clause with all counting of variables checked. The order of evaluation matters:
what is counted is reached only by a literal that has passed the checks before. -/
namespace ClauseDiscovery
namespace Clause

def checkedInOrder (s : Side) (next : UInt32) : List UInt32 → Except Overflow Bool
  | [] => return true
  | v :: vs => do
    if s = .body ∧ v = next then checkedInOrder s (← countUp next) vs
    else if v < next then checkedInOrder s next vs
    else return false

def checkedAdmits (c : Clause) (x : Candidate) : Except Overflow Bool :=
  if c.followsLast x && c.keepsSides x && c.typing.admits x.atom.predicate x.atom.vars &&
      c.avoidsBody x && c.sharesVariable x then checkedInOrder x.side c.rank x.atom.vars
  else return false

/-- `rankWith`, where the last variable leaves no rank. -/
def checkedRankWith (r : UInt32) (a : Atom) : Except Overflow UInt32 :=
  match a.max? with
  | none => return r
  | some m => return max r (← countUp m)

/-- `extend?`, the rank of an admitted literal counted before its types are noted. -/
def checkedExtend? (c : Clause) (x : Candidate) : Except Overflow (Option Clause) := do
  if ← c.checkedAdmits x then
    let r ← checkedRankWith c.rank x.atom
    match c.typing.useAll x.atom.predicate x.atom.vars with
    | .ok e => return some ⟨r, c.entries ++ [x], e⟩
    | .error _ => return none
  else return none

def checkedOfCandidates? (xs : List Candidate) : Except Overflow (Option Clause) :=
  xs.foldlM (fun c? x => match c? with
    | none => return none
    | some c => c.checkedExtend? x) (some empty)

end Clause
end ClauseDiscovery
