import ValuationCycle.Time

/-!
# Statistics

For every configuration the totals of its executions are kept: how many graphs
ran to their end and how many failed as a whole, and for those that ran the
number of nodes, of nodes executed with success, and the time spent. Counts are
64-bit words and begin again at zero beyond their range.
-/
namespace ValuationCycle
open Std

structure GraphTotals where
  processed : UInt64 := 0
  failed : UInt64 := 0
  nodes : UInt64 := 0
  executed : UInt64 := 0
  nanoseconds : Nat := 0
  deriving DecidableEq

structure Statistics where
  totals : ExtTreeMap String GraphTotals

namespace Statistics

def empty : Statistics := ⟨∅⟩

def get? (s : Statistics) (configuration : String) : Option GraphTotals := s.totals[configuration]?

def graphProcessed (s : Statistics) (configuration : String) (nodes executed nanoseconds : Nat) :
    Statistics :=
  let t := (s.get? configuration).getD {}
  ⟨s.totals.insert configuration { t with
    processed := t.processed + 1
    nodes := t.nodes + .ofNat nodes
    executed := t.executed + .ofNat executed
    nanoseconds := t.nanoseconds + nanoseconds }⟩

def graphFailed (s : Statistics) (configuration : String) : Statistics :=
  let t := (s.get? configuration).getD {}
  ⟨s.totals.insert configuration { t with failed := t.failed + 1 }⟩

end Statistics
end ValuationCycle
