import ValuationCycle.Specification
import ValuationCycle.Time

/-!
# Results

The result of a cycle lists the reported values of each configuration in the
order in which they were added. A configuration may report nothing. A result is
stamped when it is complete.
-/
namespace ValuationCycle
open Json Std

structure ResultModel where
  view : String
  time : ValuationTime
  results : ExtTreeMap String (List ComputedValue)
  timestamp : Option ResultTimestamp

namespace ResultModel

def empty (view : String) (time : ValuationTime) : ResultModel := ⟨view, time, ∅, none⟩

def values (r : ResultModel) (configuration : String) : List ComputedValue :=
  r.results[configuration]?.getD []

/-- Registers a configuration; its values stay if it is there. -/
def addConfiguration (r : ResultModel) (configuration : String) : ResultModel :=
  { r with results := r.results.insertIfNew configuration [] }

def add (r : ResultModel) (configuration : String) (v : ComputedValue) : ResultModel :=
  { r with results := r.results.insert configuration (r.values configuration ++ [v]) }

def stamp (r : ResultModel) (moment : ResultTimestamp) : ResultModel :=
  { r with timestamp := some moment }

def value? (r : ResultModel) (configuration : String) (s : Specification) : Option Value :=
  ((r.values configuration).find? fun v => v.specification == s).map ComputedValue.value

def size (r : ResultModel) : Nat := r.results.values.flatten.length

def isEmpty (r : ResultModel) : Bool := r.size == 0

end ResultModel
end ValuationCycle
