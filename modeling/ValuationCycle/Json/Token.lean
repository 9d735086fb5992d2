import ValuationCycle.Json.Numeral
import ValuationCycle.Json.Quoted

/-!
# Tokens

A text is a row of tokens with blanks between them. `Token.chars` is the compact
text of a token and `Token.lex?` takes a whole text apart. Every token takes at
least one character, so taking apart ends.
-/
namespace ValuationCycle.Json

/-- The blanks that may stand between tokens. -/
def isBlank (c : Char) : Bool := c = ' ' || c = '\t' || c = '\n' || c = '\r'

/-- A token; a string whose surrogate halves do not pair up has no content. -/
inductive Token where
  | openArray | closeArray | openObject | closeObject | comma | colon | null
  | bool (value : Bool)
  | number (value : Numeral)
  | string (content : Option String)
  deriving DecidableEq

namespace Token

def chars : Token → List Char
  | openArray => ['[']
  | closeArray => [']']
  | openObject => ['\x7b']
  | closeObject => ['\x7d']
  | comma => [',']
  | colon => [':']
  | null => ['n', 'u', 'l', 'l']
  | bool true => ['t', 'r', 'u', 'e']
  | bool false => ['f', 'a', 'l', 's', 'e']
  | number n => n.chars
  | string s => quote s

/-- A token off the front of a text that does not start with a blank. -/
def next? : List Char → Option (Token × List Char)
  | '[' :: cs => some (openArray, cs)
  | ']' :: cs => some (closeArray, cs)
  | '\x7b' :: cs => some (openObject, cs)
  | '\x7d' :: cs => some (closeObject, cs)
  | ',' :: cs => some (comma, cs)
  | ':' :: cs => some (colon, cs)
  | '"' :: cs => (unquote? cs).map fun (s, rest) => (string s, rest)
  | 'n' :: 'u' :: 'l' :: 'l' :: cs => some (null, cs)
  | 't' :: 'r' :: 'u' :: 'e' :: cs => some (bool true, cs)
  | 'f' :: 'a' :: 'l' :: 's' :: 'e' :: cs => some (bool false, cs)
  | cs => (Numeral.read? cs).map fun (n, rest) => (number n, rest)

theorem length_lt_of_next? {cs rest : List Char} {t : Token}
    (h : next? cs = some (t, rest)) : rest.length < cs.length := by
  unfold next? at h
  split at h
  case h_7 =>
    obtain ⟨⟨_, _⟩, hs, he⟩ := Option.map_eq_some_iff.mp h
    obtain ⟨-, rfl⟩ := Prod.mk.inj he
    have := length_lt_of_unquote? hs
    simp only [List.length_cons]
    omega
  case h_11 =>
    obtain ⟨⟨_, _⟩, hn, he⟩ := Option.map_eq_some_iff.mp h
    obtain ⟨-, rfl⟩ := Prod.mk.inj he
    exact Numeral.length_lt_of_read? hn
  all_goals
    obtain ⟨-, rfl⟩ := Prod.mk.inj (Option.some.inj h)
    simp only [List.length_cons]
    omega

def lex? (cs : List Char) : Option (List Token) :=
  if cs.dropWhile isBlank = [] then some []
  else match _h : next? (cs.dropWhile isBlank) with
    | none => none
    | some (t, rest) => (lex? rest).map (t :: ·)
termination_by cs.length
decreasing_by
  have := length_lt_of_next? _h
  have := (List.dropWhile_sublist isBlank (l := cs)).length_le
  omega

end Token
end ValuationCycle.Json
