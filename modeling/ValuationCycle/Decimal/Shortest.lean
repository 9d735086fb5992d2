import ValuationCycle.Decimal.Binary64

/-!
# Shortest decimal form

Every finite number is the nearest one to an interval of reals. The shortest
decimal form of a number is the point of that interval on the coarsest decimal
grid that has one; of two such points the nearer is taken, and of two equally
near the one with an even last digit. `Layout` says when digits are written
positionally and when with an exponent; the text itself is left to the format
that writes numbers.
-/
namespace ValuationCycle.Decimal

abbrev Digit := Fin 10

/-- The `width` last decimal digits of `n`, the most significant first. -/
def lastDigits : Nat → Nat → List Digit
  | 0, _ => []
  | width + 1, n => lastDigits width (n / 10) ++ [⟨n % 10, Nat.mod_lt _ (by decide)⟩]

def digitCount (n : Nat) : Nat := (Nat.toDigits 10 n).length

/-- A positive decimal number `digits * 10 ^ exponent`. -/
structure Scientific where
  digits : Nat
  exponent : Int
  deriving DecidableEq

namespace Binary64

/-- The spread of reals that round to a number, in quarters of the unit
`2 ^ shift / 2 ^ 1074`: below the number, above it, and whether its ends belong
to it. Below a full power of two the neighbours are closer. -/
def spread (x : Binary64) : Nat × Nat × Bool :=
  (if x.mantissa = 4503599627370496 ∧ 0 < x.shift then 1 else 2, 2, x.mantissa % 2 == 0)

/-- The point of the grid of `10 ^ exponent` nearest to the number among those
that read back as the number. -/
def onGrid? (x : Binary64) (exponent : Int) : Option Scientific :=
  let quarter := Nat.pow 2 x.shift * Nat.pow 10 (-exponent).toNat
  let grid := 4 * scale * Nat.pow 10 exponent.toNat
  let value := 4 * x.mantissa * quarter
  let (below, above, closed) := x.spread
  let low := value - below * quarter
  let high := value + above * quarter
  let hits (digits : Nat) : Bool :=
    let point := digits * grid
    if closed then low ≤ point && point ≤ high else low < point && point < high
  let floor := value / grid
  let nearest := divNearest value grid
  let other := if nearest = floor then floor + 1 else floor
  if hits nearest then some ⟨nearest, exponent⟩
  else if hits other then some ⟨other, exponent⟩
  else none

/-- The shortest decimal form of the magnitude; zero has the digit zero. -/
def shortest (x : Binary64) : Scientific :=
  if x.mantissa = 0 then ⟨0, 0⟩
  else ((List.range 700).findSome? fun step : Nat => x.onGrid? (310 - Int.ofNat step)).getD ⟨0, 0⟩

end Binary64

/-- The decimal exponents of the first digit between which digits are written
positionally, both included. -/
structure Layout where
  least : Int
  most : Int

/-- Digits before the point, digits after it, and the exponent if one is written. -/
structure Placed where
  whole : Nat
  fraction : List Digit
  exponent : Option Int
  deriving DecidableEq

/-- Places the point. A positional form always has a digit after the point. -/
def Layout.place (layout : Layout) (s : Scientific) : Placed :=
  let after := digitCount s.digits - 1
  let first := s.exponent + after
  if layout.least ≤ first ∧ first ≤ layout.most then
    if 0 ≤ s.exponent then ⟨s.digits * Nat.pow 10 s.exponent.toNat, [0], none⟩
    else
      let places := (-s.exponent).toNat
      ⟨s.digits / Nat.pow 10 places, lastDigits places s.digits, none⟩
  else ⟨s.digits / Nat.pow 10 after, lastDigits after s.digits, some first⟩

end ValuationCycle.Decimal
