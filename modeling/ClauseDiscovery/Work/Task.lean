/-! Tasks: the result of a piece of work that runs elsewhere. The writing end belongs to the
work, and leaving it without a result writes that the task was abandoned; the reading ends
may look at any time and wait as long as there is no result. -/
namespace ClauseDiscovery

/-- What a panic carries: a text, or something that has none. To drop it is assumed not to panic
in its turn. -/
inductive PanicPayload where
  | text (s : String)
  | other
  deriving DecidableEq, Repr

def PanicPayload.message : PanicPayload → String
  | text s => s
  | other => "non-string panic payload"

inductive TaskFailure where
  | panicked (reason : String)
  | abandoned
  deriving DecidableEq, Repr

def TaskFailure.message : TaskFailure → String
  | panicked reason => "task panicked: " ++ reason
  | abandoned => "task was dropped before it ran"

abbrev Outcome (α : Type) := Except TaskFailure α

def Outcome.ofWork {α : Type} : Except PanicPayload α → Outcome α
  | .ok x => .ok x
  | .error p => .error (.panicked p.message)

/-- The writing end: not used yet, about to write, used, or left. A result that is written
because the end is being left leaves it. -/
inductive WritingEnd (α : Type) where
  | unused
  | writing (r : Outcome α) (leaving : Bool)
  | used
  | left

structure Task (α : Type) where
  result : Option (Outcome α) := none
  writer : WritingEnd α := .unused

namespace Task

variable {α : Type}

def pending : Task α := {}

inductive Action (α : Type) where
  | complete (r : Outcome α)
  | leave
  | write

/-- One action, if the writing end is in a state for it. A result that is there already is
never replaced. -/
def step? (t : Task α) : Action α → Option (Task α)
  | .complete r =>
    match t.writer with
    | .unused => some { t with writer := .writing r false }
    | _ => none
  | .leave =>
    match t.writer with
    | .unused => some { t with writer := .writing (.error .abandoned) true }
    | .used => some { t with writer := .left }
    | _ => none
  | .write =>
    match t.writer with
    | .writing r leaving => some ⟨t.result.or (some r), if leaving then .left else .used⟩
    | _ => none

def perform (t : Task α) (actions : List (Action α)) : Task α :=
  actions.foldl (fun t a => (t.step? a).getD t) t

/-- All that happens to a task whose work has ended. -/
def fulfil (t : Task α) (r : Outcome α) : Task α := t.perform [.complete r, .write, .leave]

/-- What a reader that waits gets; it goes on waiting as long as there is nothing. -/
def wait? (t : Task α) : Option (Outcome α) := t.result

def tryGet (t : Task α) : Option (Outcome α) := t.result

def isFinished (t : Task α) : Bool := t.result.isSome

def text (t : Task α) : String :=
  "TaskHandle \x7b finished: " ++ (if t.isFinished then "true" else "false") ++ " \x7d"

@[simp] theorem fulfil_pending (r : Outcome α) :
    (pending : Task α).fulfil r = ⟨some r, .left⟩ := rfl

theorem result_step? {t t' : Task α} {a : Action α} {r : Outcome α} (h : t.step? a = some t')
    (hr : t.result = some r) : t'.result = some r := by
  cases a <;> simp only [step?] at h <;> split at h <;> cases h <;> simp [hr]

end Task
end ClauseDiscovery
