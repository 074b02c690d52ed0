import Std.Data.HashMap
import Std.Data.HashSet

/-! Slots: lists that are filled under keys. The slots stand in the order in which their keys
came; a table tells the place of a key, and a set what each slot holds, so that nothing is put
into a slot twice. A key may have several slots, of which the first is filled. -/
namespace ClauseDiscovery

def firstPlaces {κ : Type} [DecidableEq κ] [Hashable κ] (ks : List κ) : Std.HashMap κ Nat :=
  ks.zipIdx.foldl (fun table (k, i) => table.insertIfNew k i) ∅

structure Slots (κ α : Type) [DecidableEq κ] [Hashable κ] [DecidableEq α] [Hashable α] where
  entries : List (κ × List α)
  places : Std.HashMap κ Nat
  held : Std.HashSet (Nat × α)

namespace Slots

variable {κ α : Type} [DecidableEq κ] [Hashable κ] [DecidableEq α] [Hashable α]

def ofKeys (ks : List κ) : Slots κ α where
  entries := ks.map (·, [])
  places := firstPlaces ks
  held := ∅

def place? (s : Slots κ α) (k : κ) : Option Nat := s.places[k]?

/-- Put `x` at the end of the slot at `i`, unless it is there already. -/
def note (s : Slots κ α) (i : Nat) (x : α) : Slots κ α :=
  if s.held.contains (i, x) then s
  else { s with
    entries := s.entries.modify i fun slot => (slot.1, slot.2 ++ [x])
    held := s.held.insert (i, x) }

def extend (s : Slots κ α) (k : κ) : Slots κ α :=
  { s with
    entries := s.entries ++ [(k, [])]
    places := s.places.insert k s.entries.length }

/-- Note `x` under `k`, in a new last slot if the key has none. -/
def noteAt (s : Slots κ α) (k : κ) (x : α) : Slots κ α :=
  match s.place? k with
  | some i => s.note i x
  | none => (s.extend k).note s.entries.length x

end Slots
end ClauseDiscovery
