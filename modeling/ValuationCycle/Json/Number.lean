import ValuationCycle.Json.Document

/-!
# Numbers

A numeral without fraction and exponent is an integer if it fits into 64 bits,
signed or unsigned; every other numeral is a finite binary64 number. The digits
of such a number are gathered, from the left, as long as they fit into an
unsigned word; the word is rounded to binary64 and scaled by a power of ten
that is itself rounded. The result can differ from the number nearest to the
numeral. A number that grows beyond the format is refused, one that shrinks
below it is zero. Written, a float has the digits of its shortest form.
-/
namespace ValuationCycle.Json
open Decimal

/-- The integers of a signed or an unsigned 64-bit word. -/
abbrev Integer := { n : Int // -9223372036854775808 ≤ n ∧ n < 18446744073709551616 }

inductive Number where
  | int (n : Integer)
  | float (x : Binary64)

/-- The number of values that a word can take. -/
def wordSize : Nat := 18446744073709551616

/-- Drops digits from the right until the rest fits into a word, and counts them. -/
def shed (n : Nat) : Nat × Nat :=
  if n < wordSize then (n, 0)
  else ((shed (n / 10)).1, (shed (n / 10)).2 + 1)
termination_by n
decreasing_by all_goals unfold wordSize at *; omega

/-- Appends digits as long as the word holds them, and counts those appended. -/
def gather (word : Nat) : List Digit → Nat × Nat
  | [] => (word, 0)
  | d :: ds =>
    if 10 * word + d.val < wordSize then
      ((gather (10 * word + d.val) ds).1, (gather (10 * word + d.val) ds).2 + 1)
    else (word, 0)

/-- The largest power of ten that a factor may have. -/
def largestPower : Nat := 308

/-- The number times a power of ten. Small powers are one rounded product or
quotient; larger ones divide by the largest power first. -/
def scaleTen (x : Binary64) (exponent : Int) : Option Binary64 :=
  if exponent.natAbs ≤ largestPower then
    if 0 ≤ exponent then (Binary64.tenPow? exponent.natAbs).bind x.mul?
    else (Binary64.tenPow? exponent.natAbs).bind x.div?
  else if x.mantissa = 0 then some x
  else if 0 ≤ exponent then none
  else ((Binary64.tenPow? largestPower).bind x.div?).bind fun y =>
    scaleTen y (exponent + largestPower)
termination_by exponent.natAbs
decreasing_by unfold largestPower at *; omega

namespace Numeral

/-- The float that a numeral is read as. -/
def float? (n : Numeral) : Option Binary64 := do
  let (word, shedCount) := shed n.whole
  let (word, gathered) := gather word n.fraction
  let magnitude ← Binary64.ofNat? word
  let exponent : Int := shedCount - gathered + n.exponent.getD 0
  let scaled ← scaleTen magnitude exponent
  return scaled.withSign n.negative

/-- The number that a numeral is read as; none if it is out of range. -/
def number? (n : Numeral) : Option Number :=
  match n.toInt? with
  | some i =>
    if h : -9223372036854775808 ≤ i ∧ i < 18446744073709551616 then some (.int ⟨i, h⟩)
    else n.float?.map .float
  | none => n.float?.map .float

/-- Floats are written positionally from `0.00001` to below `1e16`. -/
def layout : Layout := ⟨-5, 15⟩

/-- The numeral that a float is written as. -/
def ofFloat (x : Binary64) : Numeral :=
  let placed := layout.place x.shortest
  ⟨x.negative, placed.whole, placed.fraction, placed.exponent⟩

end Numeral
end ValuationCycle.Json
