import ValuationCycle.Text.Combining
import ValuationCycle.Text.Invisible

/-!
# String literals

A literal is a text between quotes. Quotes, backslashes, ends of lines,
tabulators and the null character have escapes of their own; what would not be
seen in its place, being invisible or combining, is written by number; every
other character stands for itself.
-/
namespace ValuationCycle.Text

/-- The digits of an escape by number, in lower case. -/
def hex (n : Nat) : String := String.ofList (Nat.toDigits 16 n)

def escape (c : Char) : String :=
  if c = '"' then "\\\""
  else if c = '\\' then "\\\\"
  else if c = '\n' then "\\n"
  else if c = '\r' then "\\r"
  else if c = '\t' then "\\t"
  else if c = '\x00' then "\\0"
  else if isInvisible c || isCombining c then "\\u\x7b" ++ hex c.toNat ++ "\x7d"
  else c.toString

def literal (s : String) : String := "\"" ++ String.join (s.toList.map escape) ++ "\""

end ValuationCycle.Text
