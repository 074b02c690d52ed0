import ClauseDiscovery.Text.Graphic

/-! Quoted texts: a text between double quotes in which a quote, a backslash and every
character that is not graphic are written as escapes. -/
namespace ClauseDiscovery
namespace Text

def codeDigits (c : Char) : List Char := Nat.toDigits 16 c.toNat

/-- A character inside quotes: its short escape if it has one, itself if it is graphic, and
else its number. -/
def escape (c : Char) : List Char :=
  if c = '\x00' then ['\\', '0']
  else if c = '\t' then ['\\', 't']
  else if c = '\n' then ['\\', 'n']
  else if c = '\r' then ['\\', 'r']
  else if c = '"' ∨ c = '\\' then ['\\', c]
  else if isGraphic c then [c]
  else ['\\', 'u', '\x7b'] ++ codeDigits c ++ ['\x7d']

def quote (s : String) : String :=
  String.ofList ('"' :: s.toList.flatMap escape ++ ['"'])

end Text
end ClauseDiscovery
