import ValuationCycle.Cycle.Basic
import ValuationCycle.Execution.Waiting

/-!
# Executing plans

What is left of a graph to execute are the nodes without an executed mark; live
data sourcing nodes are marked first, for nobody needs to execute them. A cycle
submits what is left of every configuration's graph before it waits for any, and
waits until all are done, one fails or the cycle is interrupted.
-/
namespace ValuationCycle

/-- Marks the nodes of a graph that are never invoked. -/
def NodeMarks.markLive (m : NodeMarks) (g : Graph) : NodeMarks :=
  (g.nodes.filter fun n => !n.function.kind.requiresInvocation).foldl
    (fun m n => m.markExecuted (some n)) m

/-- A graph submitted for execution, and the size of the whole graph. -/
structure Submission where
  request : Request
  total : Nat

/-- What is known of an execution beside its outcome: the submissions in order,
the executions asked to cancel, and what the runs left to remember. -/
structure ExecutionReport where
  submitted : List Submission
  cancelled : List String
  journal : List JournalEntry

/-- How executions behave while a cycle waits for them. -/
abbrev Behaviour := List String → Execution → List Wait

namespace Cycle

/-- The part of a graph that still needs execution, after live data sourcing nodes
are marked executed. The graph need not be one of the view. -/
def executableGraph (c : Cycle) (g : Graph) : Except CycleError (Cycle × Graph) :=
  match c.marks[g.configuration]? with
  | some m =>
    let m := m.markLive g
    .ok (c.setMarks g.configuration m, g.extract fun n => !m.isExecuted n)
  | none => .error (.unknownConfiguration g.configuration)

/-- What is submitted for each of some graphs, in order. An unknown configuration
ends the row; marks made before it stay. -/
def submissions (c : Cycle) : List (String × Graph) → Cycle × Except CycleError (List Submission)
  | [] => (c, .ok [])
  | (name, g) :: rest =>
    match c.executableGraph g with
    | .error e => (c, .error e)
    | .ok (c, executable) =>
      match c.handles[name]? with
      | none => (c, .error (.unknownConfiguration name))
      | some cache =>
        let (c, answer) := c.submissions rest
        (c, answer.map (⟨⟨executable, cache, c.view.keepsStatistics⟩, g.size⟩ :: ·))

/-- The state and the answer that a verdict leads to. -/
def conclude : Verdict → CycleState × Except CycleError Unit
  | .finished => (.finished, .ok ())
  | .interrupted => (.executionInterrupted, .error .interrupted)
  | .failed configuration e => (.executionInterrupted, .error (.execution configuration e))

def close (c : Cycle) (r : WaitReport) : Cycle :=
  { c with
    state := (conclude r.verdict).1
    marks := r.execution.marks
    interrupted := c.interrupted || r.verdict = .interrupted
    ended := true }

/-- Submits what is left of every graph and waits for it. Nothing is answered if
waiting does not end. -/
def execute (c : Cycle) (w : Workspace) (behaviour : Behaviour) :
    Option (Reply Unit × ExecutionReport) :=
  if c.permits .executePlans then
    let graphs := c.view.model.graphs.toList
    match { c with state := .executing }.submissions graphs with
    | (c, .error e) => some (⟨c, w, .error e⟩, ⟨[], [], []⟩)
    | (c, .ok submitted) =>
      let x := submitted.foldl (fun x s => x.submit s.request) (Execution.start w c.marks)
      let names := graphs.map Prod.fst
      (waitFor c.interrupted x names (behaviour names x)).map fun r =>
        (⟨c.close r, r.execution.workspace, (conclude r.verdict).2⟩,
          ⟨submitted, r.cancelled, r.execution.journal⟩)
  else some (c.refuse w .executePlans, ⟨[], [], []⟩)

end Cycle
end ValuationCycle
