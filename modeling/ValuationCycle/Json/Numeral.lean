import ValuationCycle.Decimal.Shortest

/-!
# Numerals

A numeral is the text form of a number before anything is decided about its
value: a sign, a whole part without leading zeros, the digits after the point
and an exponent. `Numeral.read?` takes one off the front of a text and
`Numeral.chars` writes one; an exponent is always written with its sign.
-/
namespace ValuationCycle.Json
open Decimal

/-- A number as written; an empty fraction means that no point is written. -/
structure Numeral where
  negative : Bool
  whole : Nat
  fraction : List Digit
  exponent : Option Int
  deriving DecidableEq

def digitOf (c : Char) : Digit := ⟨(c.toNat - 48) % 10, Nat.mod_lt _ (by decide)⟩

def digitsValue (cs : List Char) : Nat := cs.foldl (fun n c => 10 * n + (digitOf c).val) 0

/-- A run of digits off the front, which may not be empty. -/
def readDigits? (cs : List Char) : Option (List Char × List Char) :=
  match cs.takeWhile Char.isDigit with
  | [] => none
  | ds => some (ds, cs.dropWhile Char.isDigit)

namespace Numeral

def ofInt (n : Int) : Numeral := ⟨decide (n < 0), n.natAbs, [], none⟩

/-- The integer, if the numeral has neither fraction nor exponent and is not the
negative zero. -/
def toInt? (n : Numeral) : Option Int :=
  if n.fraction = [] ∧ n.exponent = none ∧ ¬(n.negative ∧ n.whole = 0) then
    some (if n.negative then -(n.whole : Int) else n.whole)
  else none

/-- The whole part: a single zero, or a run of digits that does not start with one. -/
def readWhole? (cs : List Char) : Option (Nat × List Char) :=
  match readDigits? cs with
  | some ('0' :: _ :: _, _) => none
  | some (ds, rest) => some (digitsValue ds, rest)
  | none => none

/-- The digits after the point, none if there is no point. -/
def readFraction? : List Char → Option (List Digit × List Char)
  | '.' :: cs => (readDigits? cs).map fun (ds, rest) => (ds.map digitOf, rest)
  | cs => some ([], cs)

/-- The digits of an exponent, after its sign. -/
def readPower? (negative : Bool) (cs : List Char) : Option (Int × List Char) :=
  (readDigits? cs).map fun (ds, rest) =>
    (if negative then -(digitsValue ds : Int) else digitsValue ds, rest)

def readExponent? : List Char → Option (Option Int × List Char)
  | c :: cs =>
    if c = 'e' ∨ c = 'E' then
      let power := match cs with
        | '-' :: rest => readPower? true rest
        | '+' :: rest => readPower? false rest
        | rest => readPower? false rest
      power.map fun (n, rest) => (some n, rest)
    else some (none, c :: cs)
  | [] => some (none, [])

def readUnsigned? (negative : Bool) (cs : List Char) : Option (Numeral × List Char) := do
  let (whole, cs) ← readWhole? cs
  let (fraction, cs) ← readFraction? cs
  let (exponent, cs) ← readExponent? cs
  return (⟨negative, whole, fraction, exponent⟩, cs)

def read? : List Char → Option (Numeral × List Char)
  | '-' :: cs => readUnsigned? true cs
  | cs => readUnsigned? false cs

def chars (n : Numeral) : List Char :=
  (if n.negative then ['-'] else []) ++ Nat.toDigits 10 n.whole ++
  (match n.fraction with
    | [] => []
    | ds => '.' :: ds.map fun d => Nat.digitChar d.val) ++
  (match n.exponent with
    | none => []
    | some e => 'e' :: (if e < 0 then '-' else '+') :: Nat.toDigits 10 e.natAbs)

end Numeral

theorem length_lt_of_readDigits? {cs ds rest : List Char}
    (h : readDigits? cs = some (ds, rest)) : rest.length < cs.length := by
  unfold readDigits? at h
  split at h
  · simp at h
  · next hne =>
    obtain ⟨rfl, rfl⟩ := by simpa using h
    have hsum := congrArg List.length
      (List.takeWhile_append_dropWhile (p := Char.isDigit) (l := cs))
    have hpos := List.length_pos_iff.mpr hne
    simp only [List.length_append] at hsum
    omega

namespace Numeral

theorem length_lt_of_readWhole? {cs rest : List Char} {n : Nat}
    (h : readWhole? cs = some (n, rest)) : rest.length < cs.length := by
  unfold readWhole? at h
  split at h <;> simp only [reduceCtorEq, Option.some.injEq, Prod.mk.injEq] at h
  next _ hd =>
    obtain ⟨-, rfl⟩ := h
    exact length_lt_of_readDigits? hd

theorem length_le_of_readFraction? {cs rest : List Char} {ds : List Digit}
    (h : readFraction? cs = some (ds, rest)) : rest.length ≤ cs.length := by
  unfold readFraction? at h
  split at h
  · obtain ⟨⟨_, _⟩, hd, he⟩ := Option.map_eq_some_iff.mp h
    obtain ⟨-, rfl⟩ := Prod.mk.inj he
    have := length_lt_of_readDigits? hd
    simp only [List.length_cons]
    omega
  · obtain ⟨-, rfl⟩ := by simpa using h
    exact Nat.le_refl _

theorem length_lt_of_readPower? {cs rest : List Char} {negative : Bool} {n : Int}
    (h : readPower? negative cs = some (n, rest)) : rest.length < cs.length := by
  obtain ⟨⟨_, _⟩, hd, he⟩ := Option.map_eq_some_iff.mp h
  obtain ⟨-, rfl⟩ := Prod.mk.inj he
  exact length_lt_of_readDigits? hd

theorem length_le_of_readExponent? {cs rest : List Char} {e : Option Int}
    (h : readExponent? cs = some (e, rest)) : rest.length ≤ cs.length := by
  unfold readExponent? at h
  split at h
  · split at h
    · obtain ⟨⟨_, _⟩, hp, he⟩ := Option.map_eq_some_iff.mp h
      obtain ⟨-, rfl⟩ := Prod.mk.inj he
      split at hp
      all_goals
        have := length_lt_of_readPower? hp
        simp only [List.length_cons] at this ⊢
        omega
    · obtain ⟨-, rfl⟩ := by simpa using h
      exact Nat.le_refl _
  · obtain ⟨-, rfl⟩ := by simpa using h
    exact Nat.le_refl _

theorem length_lt_of_readUnsigned? {negative : Bool} {cs rest : List Char} {n : Numeral}
    (h : readUnsigned? negative cs = some (n, rest)) : rest.length < cs.length := by
  simp only [readUnsigned?, Option.bind_eq_bind, Option.bind_eq_some_iff, Prod.exists,
    Option.pure_def, Option.some.injEq, Prod.mk.injEq] at h
  obtain ⟨_, _, hw, _, _, hf, _, _, he, -, rfl⟩ := h
  have := length_lt_of_readWhole? hw
  have := length_le_of_readFraction? hf
  have := length_le_of_readExponent? he
  omega

/-- A numeral takes at least one character. -/
theorem length_lt_of_read? {cs rest : List Char} {n : Numeral}
    (h : read? cs = some (n, rest)) : rest.length < cs.length := by
  unfold read? at h
  split at h
  · have := length_lt_of_readUnsigned? h
    simp only [List.length_cons]
    omega
  · exact length_lt_of_readUnsigned? h

end Numeral
end ValuationCycle.Json
