import ClauseDiscovery.Work.Task

/-! A task among its readers. The writing end refers to the slot that the readers share until a
result is offered through it; to complete a task is to offer the result and then to let the end
go, and to let it go is to offer that the task was abandoned. A reader that waits sleeps as long
as the slot is empty and is woken by whoever fills it. Looking and filling are done under one
lock, so each is one event, and the events may come in any order in which each is possible. -/
namespace ClauseDiscovery

/-- What the owner of the writing end has yet to do: offer a result through the end, or put one
into the slot that the end has given up. -/
inductive Duty (α : Type) where
  | offer (r : Outcome α)
  | put (r : Outcome α)

/-- The one thing that is done with a writing end: it goes with it. -/
inductive Use (α : Type) where
  | complete (r : Outcome α)
  | drop

namespace Use

variable {α : Type}

def outcome : Use α → Outcome α
  | complete r => r
  | drop => .error .abandoned

/-- An end that was used to complete the task is dropped as well. -/
def rest : Use α → List (Duty α)
  | complete _ => [.offer (.error .abandoned)]
  | drop => []

end Use

inductive Attention where
  | free
  | asleep
  | woken
  deriving DecidableEq, Repr

def Attention.wake : Attention → Attention
  | asleep => woken
  | free => free
  | woken => woken

inductive Sighting (α : Type) where
  | returned (reader : Nat) (r : Outcome α)
  | looked (reader : Nat) (result : Option (Outcome α))
  | asked (reader : Nat) (finished : Bool)

/-- The slot, the writing end with the duties of its owner, and the readers with all that they
have got. Before the end is used its owner has no duties. -/
structure Audience (α : Type) where
  slot : Option (Outcome α) := none
  holds : Bool := true
  duties : Option (List (Duty α)) := none
  readers : List Attention := [.free]
  sightings : List (Sighting α) := []

namespace Audience

variable {α : Type}

def start : Audience α := {}

def writer (a : Audience α) : WritingEnd α :=
  if a.holds then .unused
  else match a.duties with
    | some (.put r :: rest) => .writing r rest.isEmpty
    | some (.offer _ :: _) => .used
    | some [] => .left
    | none => .left

def task (a : Audience α) : Task α := ⟨a.slot,a.writer⟩

inductive Event (α : Type) where
  | use (u : Use α)
  | proceed
  | clone
  | wait (i : Nat)
  | tryGet (i : Nat)
  | isFinished (i : Nat)

/-- The next duty of the owner. A result that is in the slot already is never replaced. -/
def proceed? (a : Audience α) : Option (Audience α) :=
  match a.duties with
  | some (.offer r :: rest) =>
    if a.holds then some { a with holds := false, duties := some (.put r :: rest) }
    -- the end has given up the slot, and there is nothing to put the result into
    else some { a with duties := some rest }
  | some (.put r :: rest) =>
    some { a with
      slot := a.slot.or (some r)
      duties := some rest
      readers := a.readers.map Attention.wake }
  | some [] => none
  | none => none

def wait? (a : Audience α) (i : Nat) : Option (Audience α) :=
  if a.readers[i]? = some .free ∨ a.readers[i]? = some .woken then
    match a.task.wait? with
    | some r => some { a with
        readers := a.readers.set i .free
        sightings := a.sightings ++ [.returned i r] }
    | none => some { a with readers := a.readers.set i .asleep }
  else none

def see? (a : Audience α) (i : Nat) (s : Sighting α) : Option (Audience α) :=
  if a.readers[i]? = some .free then some { a with sightings := a.sightings ++ [s] } else none

/-- One event, if it is possible. The writing end is used once. -/
def step? (a : Audience α) : Event α → Option (Audience α)
  | .use u =>
    match a.duties with
    | none => some { a with duties := some (.offer u.outcome :: u.rest) }
    | some _ => none
  | .proceed => a.proceed?
  | .clone => some { a with readers := a.readers ++ [.free] }
  | .wait i => a.wait? i
  | .tryGet i => a.see? i (.looked i a.task.tryGet)
  | .isFinished i => a.see? i (.asked i a.task.isFinished)

def perform (a : Audience α) (events : List (Event α)) : Audience α :=
  events.foldl (fun a e => (a.step? e).getD a) a

end Audience
end ClauseDiscovery
