/-!
# Finite binary64 numbers

A finite number of the binary64 format is held as its sign, a mantissa below
`2 ^ 53` and a shift, and stands for `mantissa * 2 ^ shift / 2 ^ 1074`. The
mantissa is full unless the shift is zero, so every number but zero has one
form, and zero has two, one of each sign. All arithmetic is exact on natural
numbers and rounds once, to the nearest number and halves to the even mantissa.
Infinities and NaN are not represented: an operation that would leave the
finite range has no result.
-/
namespace ValuationCycle.Decimal

/-- A finite binary64 number, `mantissa * 2 ^ shift / 2 ^ 1074` with a sign. -/
structure Binary64 where
  negative : Bool
  mantissa : Nat
  shift : Nat
  mantissa_lt : mantissa < 9007199254740992
  shift_le : shift ≤ 2045
  full : shift = 0 ∨ 4503599627370496 ≤ mantissa
  deriving DecidableEq

namespace Binary64

def zero (negative : Bool) : Binary64 :=
  ⟨negative, 0, 0, by decide, by decide, .inl rfl⟩

/-- The numerator of the magnitude over `scale`. -/
def numerator (x : Binary64) : Nat := x.mantissa * Nat.pow 2 x.shift

/-- The common denominator of all magnitudes. -/
def scale : Nat := Nat.pow 2 1074

/-- Numbers compare by what they stand for, so the two zeros are equal. -/
def same (x y : Binary64) : Bool :=
  x.numerator == y.numerator && (x.negative == y.negative || x.numerator == 0)

/-- The quotient nearest to `num / den`, halves going to the even neighbour. -/
def divNearest (num den : Nat) : Nat :=
  let floor := num / den
  let twice := 2 * (num % den)
  if twice < den then floor
  else if den < twice then floor + 1
  else floor + floor % 2

/-- The number with the given mantissa and shift, if the format has it. -/
def ofParts? (negative : Bool) (mantissa shift : Nat) : Option Binary64 :=
  if h : mantissa < 9007199254740992 ∧ shift ≤ 2045 ∧
      (shift = 0 ∨ 4503599627370496 ≤ mantissa) then
    some ⟨negative, mantissa, shift, h.1, h.2.1, h.2.2⟩
  else none

/-- The number nearest to `num / den`; none if that lies beyond the format. -/
def ofRatio? (negative : Bool) (num den : Nat) : Option Binary64 :=
  let shift := (num * scale / den).log2 - 52
  let mantissa := divNearest (num * scale) (den * Nat.pow 2 shift)
  if mantissa = 9007199254740992 then ofParts? negative 4503599627370496 (shift + 1)
  else ofParts? negative mantissa shift

def ofNat? (n : Nat) : Option Binary64 := ofRatio? false n 1

def tenPow? (k : Nat) : Option Binary64 := ofNat? (Nat.pow 10 k)

def mul? (x y : Binary64) : Option Binary64 :=
  ofRatio? (x.negative != y.negative) (x.numerator * y.numerator) (scale * scale)

/-- The rounded quotient; none also for a zero divisor. -/
def div? (x y : Binary64) : Option Binary64 :=
  if y.mantissa = 0 then none
  else ofRatio? (x.negative != y.negative) x.numerator y.numerator

def withSign (x : Binary64) (negative : Bool) : Binary64 := { x with negative }

theorem same_refl (x : Binary64) : x.same x = true := by simp [same]

theorem same_symm (x y : Binary64) : x.same y = y.same x := by
  rw [same, same, BEq.comm (a := x.numerator), BEq.comm (a := x.negative)]
  by_cases h : x.numerator = y.numerator
  · simp [h]
  · have h' : (y.numerator == x.numerator) = false := by simpa using fun e => h e.symm
    simp [h']

end Binary64
end ValuationCycle.Decimal
