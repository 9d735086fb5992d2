import ValuationCycle.Cycle.Marks
import ValuationCycle.Cycle.State
import ValuationCycle.View.Basic
import ValuationCycle.View.Result
import ValuationCycle.Workspace

/-!
# Cycles

A cycle is one valuation pass of a view at a fixed time. It keeps marks for
every configuration of the view from the beginning, and has a cache for each
from the preparation of its inputs to the release of its resources. Once the
cycle is interrupted it stays so. Every operation answers with the cycle and the
workspace as they then are, whether it succeeds or not.
-/
namespace ValuationCycle
open Std

structure Cycle where
  view : View
  time : ValuationTime
  state : CycleState
  handles : ExtTreeMap String CacheHandle
  marks : ExtTreeMap String NodeMarks
  result : ResultModel
  interrupted : Bool
  started : Bool
  ended : Bool

/-- What an operation comes to. -/
structure Reply (α : Type) where
  cycle : Cycle
  workspace : Workspace
  answer : Except CycleError α

namespace Cycle

def new (view : View) (time : ValuationTime) : Cycle where
  view
  time
  state := .created
  handles := ∅
  marks := view.model.names.foldl (fun m name => m.insert name .empty) ∅
  result := .empty view.name time
  interrupted := false
  started := false
  ended := false

def interrupt (c : Cycle) : Cycle := { c with interrupted := true }

/-- Whether both ends of the time spent on the cycle are known. -/
def isTimed (c : Cycle) : Bool := c.started && c.ended

def permits (c : Cycle) (operation : CycleOperation) : Bool :=
  operation.allowedIn.contains c.state

/-- The refusal of an operation, which changes nothing. -/
def refuse {α : Type} (c : Cycle) (w : Workspace) (operation : CycleOperation) : Reply α :=
  ⟨c, w, .error (.invalidState operation c.state)⟩

def setMarks (c : Cycle) (configuration : String) (m : NodeMarks) : Cycle :=
  { c with marks := c.marks.insert configuration m }

/-- Changes the marks of a configuration that the view has. -/
def mark (c : Cycle) (configuration : String) (f : NodeMarks → NodeMarks) :
    Except CycleError Cycle :=
  match c.marks[configuration]? with
  | some m => .ok (c.setMarks configuration (f m))
  | none => .error (.unknownConfiguration configuration)

def markExecuted (c : Cycle) (configuration : String) (n : Option Node) : Except CycleError Cycle :=
  c.mark configuration fun m => m.markExecuted n

def markFailed (c : Cycle) (configuration : String) (n : Option Node) : Except CycleError Cycle :=
  c.mark configuration fun m => m.markFailed n

/-- Whether a node was executed. In a configuration that the view does not have no
node was, but an absent node counts as executed even there. -/
def isExecuted (c : Cycle) (configuration : String) (n : Option Node) : Bool :=
  (c.marks[configuration]?.getD .empty).isExecuted n

/-- Whether a node failed. In a configuration that the view does not have no node
did, but an absent node counts as failed even there. -/
def isFailed (c : Cycle) (configuration : String) (n : Option Node) : Bool :=
  (c.marks[configuration]?.getD .empty).isFailed n

end Cycle
end ValuationCycle
