/-!
# Failed executions

An execution of a whole graph fails when it is cancelled, when it breaks down,
or when a job cannot be sent to or understood by a calculation node. The failure
of a single function is none of these.
-/
namespace ValuationCycle

inductive ExecutionError where
  | cancelled
  | brokeDown (reason : String)
  | dispatch (reason : String)
  deriving DecidableEq

def ExecutionError.message : ExecutionError → String
  | cancelled => "execution was cancelled"
  | brokeDown reason => "execution panicked: " ++ reason
  | dispatch reason => "failed to dispatch job: " ++ reason

abbrev Ending := Except ExecutionError Unit

/-- An execution in the background, which has not begun yet: how it would end, if
it ever does, and whether it was cancelled before. -/
structure Handle where
  ending : Option Ending
  cancelled : Bool

namespace Handle

def submit (ending : Option Ending) : Handle := ⟨ending, false⟩

def cancel (h : Handle) : Handle := { h with cancelled := true }

/-- What waiting for the handle comes to, if it does not last forever. -/
def await (h : Handle) : Option Ending :=
  if h.cancelled then some (.error .cancelled) else h.ending

end Handle
end ValuationCycle
