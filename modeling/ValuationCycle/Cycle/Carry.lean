import ValuationCycle.Cycle.Basic
import ValuationCycle.Graph.Delta

/-!
# Carrying over

A cycle may take over from a finished one what it need not compute again: in
every configuration for which the previous cycle has a cache, the nodes that the
delta of the two caches leaves unchanged are marked executed, and those of their
outputs that the previous cache has are copied. The copies are made node by
node, in order.
-/
namespace ValuationCycle

inductive CarryNote where
  | noPreviousCache
  | carried (changed total : Nat)
  deriving DecidableEq

def CarryNote.message : CarryNote → String
  | noPreviousCache => "previous cycle has no cache, skip delta"
  | carried changed total =>
    "computed delta, " ++ toString changed ++ " of " ++ toString total ++ " nodes require execution"

namespace Workspace

/-- Copies the outputs of a node that one cache has into another. -/
def copyOutputs (w : Workspace) (previous current : CacheHandle) (hint : CacheHint) (n : Node) :
    Workspace :=
  let values := n.outputs.toList.filterMap fun s => ((w.cache previous).get? s).map fun v => ⟨s, v⟩
  w.updateCache current fun c => c.putMany hint values

end Workspace

namespace Cycle

/-- Carries over one configuration, given the caches and the marks. -/
def carryConfiguration (w : Workspace) (g : Graph) (current previous : CacheHandle)
    (m : NodeMarks) : Workspace × NodeMarks × CarryNote :=
  let delta := Delta.compute g (w.cache current) (w.cache previous)
  let unchanged := delta.unchanged.filterMap fun i => g.nodes[i]?
  (unchanged.foldl (fun w n => w.copyOutputs previous current (.ofGraph g) n) w,
    unchanged.foldl (fun m n => m.markExecuted (some n)) m,
    .carried delta.changed.length g.size)

def carryAll (previous : Cycle) (c : Cycle) (w : Workspace) :
    List (String × Graph) → Reply (List (String × CarryNote))
  | [] => ⟨c, w, .ok []⟩
  | (name, g) :: rest =>
    match c.handles[name]?, c.marks[name]? with
    | some current, some m =>
      match previous.handles[name]? with
      | none =>
        let r := carryAll previous c w rest
        { r with answer := r.answer.map ((name, .noPreviousCache) :: ·) }
      | some old =>
        let (w, m, note) := carryConfiguration w g current old m
        let r := carryAll previous (c.setMarks name m) w rest
        { r with answer := r.answer.map ((name, note) :: ·) }
    | _, _ => ⟨c, w, .error (.unknownConfiguration name)⟩

/-- Takes over from a finished cycle what is unchanged; answers what became of each
configuration. -/
def computeDelta (c : Cycle) (w : Workspace) (previous : Cycle) :
    Reply (List (String × CarryNote)) :=
  if c.permits .computeDelta then
    if previous.state = .finished then carryAll previous c w c.view.model.graphs.toList
    else ⟨c, w, .error (.previousNotFinished previous.state)⟩
  else c.refuse w .computeDelta

end Cycle
end ValuationCycle
