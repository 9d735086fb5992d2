/-!
# Quoted strings

A string is written between quotes. Written: the quote, the backslash and the
control characters are escaped, the five common controls by a letter and the
others by their lower-case code; all else stands for itself. Read: every escape
form is understood, and no control character may stand for itself. An escape
may give half of a surrogate pair; a string whose halves do not pair up is
well-formed text that has no content, which is why reading gives an `Option`.
-/
namespace ValuationCycle.Json

/-- The value of a hexadecimal digit of either case. -/
def hexDigit? (c : Char) : Option Nat :=
  if '0' ≤ c ∧ c ≤ '9' then some (c.toNat - 48)
  else if 'a' ≤ c ∧ c ≤ 'f' then some (c.toNat - 87)
  else if 'A' ≤ c ∧ c ≤ 'F' then some (c.toNat - 55)
  else none

def hexCode? (a b c d : Char) : Option Nat := do
  return 4096 * (← hexDigit? a) + 256 * (← hexDigit? b) + 16 * (← hexDigit? c) + (← hexDigit? d)

/-- The code given by an escape of one letter. -/
def escapeCode? (c : Char) : Option Nat :=
  match c with
  | '"' => some 34
  | '\\' => some 92
  | '/' => some 47
  | 'b' => some 8
  | 'f' => some 12
  | 'n' => some 10
  | 'r' => some 13
  | 't' => some 9
  | _ => none

/-- The codes of a string up to its closing quote, and the text after the quote. -/
def readCodes? : List Char → Option (List Nat × List Char)
  | '"' :: rest => some ([], rest)
  | '\\' :: 'u' :: a :: b :: c :: d :: rest => do
    let code ← hexCode? a b c d
    let (codes, rest) ← readCodes? rest
    return (code :: codes, rest)
  | '\\' :: c :: rest => do
    let code ← escapeCode? c
    let (codes, rest) ← readCodes? rest
    return (code :: codes, rest)
  | c :: rest =>
    if c.toNat < 32 then none
    else (readCodes? rest).map fun (codes, rest) => (c.toNat :: codes, rest)
  | [] => none

def isHighHalf (code : Nat) : Bool := 0xD800 ≤ code && code < 0xDC00

def isLowHalf (code : Nat) : Bool := 0xDC00 ≤ code && code < 0xE000

/-- The characters of a run of codes; none if a half of a pair stands alone. -/
def pairHalves? : List Nat → Option (List Char)
  | [] => some []
  | [code] => if isHighHalf code || isLowHalf code then none else some [Char.ofNat code]
  | code :: next :: rest =>
    if isHighHalf code then
      if isLowHalf next then
        (pairHalves? rest).map
          (Char.ofNat (0x10000 + (code - 0xD800) * 1024 + (next - 0xDC00)) :: ·)
      else none
    else if isLowHalf code then none
    else (pairHalves? (next :: rest)).map (Char.ofNat code :: ·)

def escape (c : Char) : List Char :=
  match c with
  | '"' => ['\\', '"']
  | '\\' => ['\\', '\\']
  | '\n' => ['\\', 'n']
  | '\r' => ['\\', 'r']
  | '\t' => ['\\', 't']
  | c =>
    if c.toNat = 8 then ['\\', 'b']
    else if c.toNat = 12 then ['\\', 'f']
    else if c.toNat < 32 then
      ['\\', 'u', '0', '0', Nat.digitChar (c.toNat / 16), Nat.digitChar (c.toNat % 16)]
    else [c]

/-- A string between its quotes; a string without content is written as half of
a pair. -/
def quote : Option String → List Char
  | some s => '"' :: s.toList.flatMap escape ++ ['"']
  | none => ['"', '\\', 'u', 'd', '8', '0', '0', '"']

/-- The rest of a string whose opening quote has been read. -/
def unquote? (cs : List Char) : Option (Option String × List Char) :=
  (readCodes? cs).map fun (codes, rest) => ((pairHalves? codes).map String.ofList, rest)

theorem length_lt_of_readCodes? {cs rest : List Char} {codes : List Nat}
    (h : readCodes? cs = some (codes, rest)) : rest.length < cs.length := by
  fun_induction readCodes? cs generalizing codes rest with
  | case1 => simp_all
  | case2 a b c d r ih =>
    simp only [Option.bind_eq_bind, Option.bind_eq_some_iff, Prod.exists, Option.pure_def,
      Option.some.injEq, Prod.mk.injEq] at h
    obtain ⟨_, _, _, _, hr, -, rfl⟩ := h
    have := ih hr
    simp only [List.length_cons]
    omega
  | case3 c r _ ih =>
    simp only [Option.bind_eq_bind, Option.bind_eq_some_iff, Prod.exists, Option.pure_def,
      Option.some.injEq, Prod.mk.injEq] at h
    obtain ⟨_, _, _, _, hr, -, rfl⟩ := h
    have := ih hr
    simp only [List.length_cons]
    omega
  | case4 => simp at h
  | case5 c r _ _ _ _ ih =>
    obtain ⟨⟨_, _⟩, hr, he⟩ := Option.map_eq_some_iff.mp h
    obtain ⟨-, rfl⟩ := Prod.mk.inj he
    have := ih hr
    simp only [List.length_cons]
    omega
  | case6 => simp at h

theorem length_lt_of_unquote? {cs rest : List Char} {s : Option String}
    (h : unquote? cs = some (s, rest)) : rest.length < cs.length := by
  obtain ⟨⟨_, _⟩, hr, he⟩ := Option.map_eq_some_iff.mp h
  obtain ⟨-, rfl⟩ := Prod.mk.inj he
  exact length_lt_of_readCodes? hr

end ValuationCycle.Json
