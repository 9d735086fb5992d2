/-!
# Ranges of code points

A property of characters is held as closed ranges of code points, ascending and
apart. A character has the property if its code point lies in one of them.
-/
namespace ValuationCycle.Text

abbrev CodeRanges := List (Nat × Nat)

namespace CodeRanges

def covers (rs : CodeRanges) (c : Char) : Bool :=
  rs.any fun r => r.1 ≤ c.toNat && c.toNat ≤ r.2

end CodeRanges
end ValuationCycle.Text
