import ValuationCycle.Specification

/-!
# Identifiers

Job items refer to their inputs by number. Numbers are assigned in sequence
from one, when a specification is first asked for, and never change.
-/
namespace ValuationCycle
open Std

/-- The specifications with a number, in the order of their numbers, and the
number of each. -/
structure Identifiers where
  assigned : List Specification
  numbers : ExtTreeMap Specification Int64

namespace Identifiers

def empty : Identifiers := ⟨[], ∅⟩

def size (m : Identifiers) : Nat := m.assigned.length

def find? (m : Identifiers) (s : Specification) : Option Int64 := m.numbers[s]?

/-- Assigns the next number, unless the specification has one by now. -/
def assign (m : Identifiers) (s : Specification) : Identifiers × Int64 :=
  match m.find? s with
  | some n => (m, n)
  | none =>
    let n := Int64.ofNat (m.size + 1)
    (⟨m.assigned ++ [s], m.numbers.insert s n⟩, n)

/-- The number of a specification, assigning one if it has none. -/
def identify (m : Identifiers) (s : Specification) : Identifiers × Int64 :=
  match m.find? s with
  | some n => (m, n)
  | none => m.assign s

def identifyAll (m : Identifiers) : List Specification → Identifiers × List Int64
  | [] => (m, [])
  | s :: rest =>
    let (m, n) := m.identify s
    let (m, ns) := m.identifyAll rest
    (m, n :: ns)

/-- The specification of a number; there is none for numbers below one. -/
def specification? (m : Identifiers) (n : Int64) : Option Specification :=
  if n.toInt ≤ 0 then none else m.assigned[n.toInt.toNat - 1]?

end Identifiers
end ValuationCycle
