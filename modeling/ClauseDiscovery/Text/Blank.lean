/-! The blank characters, among them those that end lines. -/
namespace ClauseDiscovery
namespace Text

def blanks : List Char :=
  ['\t', '\n', '\x0b', '\x0c', '\r', ' ', '\u0085', '\u00a0', '\u1680', '\u2000', '\u2001',
   '\u2002', '\u2003', '\u2004', '\u2005', '\u2006', '\u2007', '\u2008', '\u2009', '\u200a',
   '\u2028', '\u2029', '\u202f', '\u205f', '\u3000']

def isBlank (c : Char) : Bool := blanks.contains c

def trim (cs : List Char) : List Char :=
  ((cs.dropWhile isBlank).reverse.dropWhile isBlank).reverse

/-- The pieces between the line feeds; there is one more of them than there are line feeds. -/
def pieces (cs : List Char) : List (List Char) :=
  cs.foldr (fun c ls => if c = '\n' then [] :: ls else ls.modifyHead (c :: ·)) [[]]

/-- A piece without the carriage return that belongs to its end. -/
def dropReturn (l : List Char) : List Char :=
  if l.getLast? = some '\r' then l.dropLast else l

/-- The lines of a text. A line ends with a line feed, or with a carriage return and a line feed.
What follows the last end is a line as it stands, if there is anything. -/
def lines (cs : List Char) : List (List Char) :=
  (pieces cs).dropLast.map dropReturn ++ (pieces cs).getLast?.toList.filter (!·.isEmpty)

@[simp] theorem trim_nil : trim [] = [] := rfl

@[simp] theorem pieces_nil : pieces [] = [[]] := rfl

@[simp] theorem pieces_feed (cs : List Char) : pieces ('\n' :: cs) = [] :: pieces cs := rfl

theorem pieces_cons {c : Char} (h : c ≠ '\n') (cs : List Char) :
    pieces (c :: cs) = (pieces cs).modifyHead (c :: ·) := by
  simp [pieces,h]

theorem pieces_ne_nil (cs : List Char) : pieces cs ≠ [] := by
  induction cs with
  | nil => simp
  | cons c cs ih =>
    by_cases h : c = '\n'
    · simp [h]
    · simpa [pieces_cons h] using ih

end Text
end ClauseDiscovery
