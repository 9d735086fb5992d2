import ValuationCycle.Execution.Error

/-!
# States of a cycle

A cycle passes through its states in one direction: created, inputs prepared,
executing, then finished or interrupted, then cleaned. Each operation of its
life is allowed in some of the states; asked for in any other it is refused.
-/
namespace ValuationCycle

inductive CycleState where
  | created
  | inputsPrepared
  | executing
  | executionInterrupted
  | finished
  | cleaned
  deriving DecidableEq

namespace CycleState

def all : List CycleState :=
  [created, inputsPrepared, executing, executionInterrupted, finished, cleaned]

def name : CycleState → String
  | created => "CREATED"
  | inputsPrepared => "INPUTS_PREPARED"
  | executing => "EXECUTING"
  | executionInterrupted => "EXECUTION_INTERRUPTED"
  | finished => "FINISHED"
  | cleaned => "CLEANED"

def plainName : CycleState → String
  | created => "Created"
  | inputsPrepared => "InputsPrepared"
  | executing => "Executing"
  | executionInterrupted => "ExecutionInterrupted"
  | finished => "Finished"
  | cleaned => "Cleaned"

instance : ToString CycleState := ⟨name⟩

end CycleState

inductive CycleOperation where
  | prepareInputs
  | computeDelta
  | executePlans
  | populateResult
  | releaseResources
  deriving DecidableEq

namespace CycleOperation

def name : CycleOperation → String
  | prepareInputs => "prepare inputs"
  | computeDelta => "compute delta"
  | executePlans => "execute plans"
  | populateResult => "populate result model"
  | releaseResources => "release resources"

def allowedIn : CycleOperation → List CycleState
  | prepareInputs => [.created]
  | computeDelta => [.inputsPrepared]
  | executePlans => [.inputsPrepared]
  | populateResult => [.finished]
  | releaseResources => [.finished, .executionInterrupted]

end CycleOperation

inductive CycleError where
  /-- The cycle is in a state that does not allow the operation. -/
  | invalidState (operation : CycleOperation) (actual : CycleState)
  /-- The previous cycle of a delta is not finished. -/
  | previousNotFinished (actual : CycleState)
  /-- The cycle was interrupted. -/
  | interrupted
  /-- The graph of a configuration failed as a whole. -/
  | execution (configuration : String) (source : ExecutionError)
  /-- The view has no such configuration. -/
  | unknownConfiguration (configuration : String)
  deriving DecidableEq

def CycleError.message : CycleError → String
  | invalidState operation actual =>
    "cannot " ++ operation.name ++ " while cycle is " ++ actual.name ++ ", expected one of [" ++
      String.intercalate ", " (operation.allowedIn.map CycleState.plainName) ++ "]"
  | previousNotFinished actual =>
    "invalid argument: previous cycle must be " ++ CycleState.finished.name ++ ", but is " ++
      actual.name
  | interrupted => "cycle execution was interrupted"
  | execution configuration _ =>
    "execution of calculation configuration `" ++ configuration ++ "` failed"
  | unknownConfiguration configuration =>
    "unknown calculation configuration `" ++ configuration ++ "`"

end ValuationCycle
