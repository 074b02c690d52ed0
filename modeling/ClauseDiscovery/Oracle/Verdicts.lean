import ClauseDiscovery.Oracle.Basic
import ClauseDiscovery.Text.Blank

/-! Verdicts in a printed answer: one word a line. Blank lines and blanks around the words do
not matter. -/
namespace ClauseDiscovery
namespace Verdicts

def yes : List Char := ['Y', 'E', 'S']

def no : List Char := ['N', 'O']

def word (b : Bool) : List Char := if b then yes else no

def ofWord (w : List Char) : Except OracleError Bool :=
  if w = yes then .ok true
  else if w = no then .ok false
  else .error (.malformedOutput (String.ofList w))

/-- The lines of a text that have something on them, without the blanks at their ends. -/
def words (cs : List Char) : List (List Char) :=
  ((Text.lines cs).map Text.trim).filter (!·.isEmpty)

/-- The verdicts of a text, or the first line that is none. -/
def parse (s : String) : Except OracleError (List Bool) := (words s.toList).mapM ofWord

@[simp] theorem ofWord_word (b : Bool) : ofWord (word b) = .ok b := by cases b <;> rfl

end Verdicts
end ClauseDiscovery
