import ValuationCycle.View.Model
import ValuationCycle.View.Policy

/-!
# Views

A view is a definition together with its compiled graphs. The statistics of its
executions are kept or discarded.
-/
namespace ValuationCycle

structure View where
  definition : ViewDefinition
  model : EvaluationModel
  keepsStatistics : Bool := true

def View.name (v : View) : String := v.definition.name

end ValuationCycle
