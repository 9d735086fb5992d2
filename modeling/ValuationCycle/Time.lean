import ValuationCycle.Order
import ValuationCycle.Json.Record

/-!
# Moments

A valuation time is the logical moment that a cycle values a view at; caches
and snapshots are addressed by it. A result timestamp is the moment on the wall
clock at which a result was completed. Both count milliseconds.
-/
namespace ValuationCycle
open Json Std

structure ValuationTime where
  millis : Int64
  deriving DecidableEq

namespace ValuationTime

instance : Ord ValuationTime := ⟨compareOn millis⟩

instance : TransOrd ValuationTime := inferInstanceAs (TransCmp (compareOn millis))

instance : LawfulEqOrd ValuationTime :=
  lawfulEqCmp_compareOn fun a b h => by cases a; cases b; exact congrArg mk h

instance : ToString ValuationTime := ⟨fun t => toString t.millis.toInt ++ "ms"⟩

def toDocument (t : ValuationTime) : Document := .int t.millis.toInt

def ofDocument? : Reader ValuationTime := fun levels d => (Reader.int64 levels d).map mk

end ValuationTime

structure ResultTimestamp where
  millis : Int64
  deriving DecidableEq

namespace ResultTimestamp

def toDocument (t : ResultTimestamp) : Document := .int t.millis.toInt

def ofDocument? : Reader ResultTimestamp := fun levels d => (Reader.int64 levels d).map mk

end ResultTimestamp

/-- A length of time in whole seconds and nanoseconds below a second. -/
structure Span where
  secs : Nat
  nanos : Nat
  secs_lt : secs < 18446744073709551616
  nanos_lt : nanos < 1000000000
  deriving DecidableEq

namespace Span

/-- The length of so many seconds and nanoseconds; whole seconds are carried, and
none is given when they do not fit. -/
def ofParts? (secs nanos : Nat) : Option Span :=
  if h : secs + nanos / 1000000000 < 18446744073709551616 then
    some ⟨secs + nanos / 1000000000, nanos % 1000000000, h, Nat.mod_lt _ (by decide)⟩
  else none

def seconds (n : Nat) (h : n < 18446744073709551616) : Span := ⟨n, 0, h, by decide⟩

def toDocument (s : Span) : Document :=
  .record [("secs", .int s.secs), ("nanos", .int s.nanos)]

def ofDocument? : Reader Span := fun levels d => do
  let r ← Record.strict? ["secs", "nanos"] levels d
  let secs ← r.required "secs" (Reader.integer 0 18446744073709551616)
  let nanos ← r.required "nanos" (Reader.integer 0 4294967296)
  ofParts? secs.toNat nanos.toNat

end Span
end ValuationCycle
