import ValuationCycle.Execution.Error
import ValuationCycle.Cycle.Marks
import ValuationCycle.Job.Node
import ValuationCycle.Workspace

/-!
# Runs of a graph

A run executes a graph on calculation nodes. A node becomes ready when the
outcomes of all other nodes it takes inputs from are recorded; a ready node is
dispatched as a job, its inputs are numbered one by one, the job is sent,
evaluated against the cache as it then is, and its outcome recorded. Recording
stores the values returned, marks the node and releases the nodes that wait for
it. A function that fails marks its node failed and the run goes on; a job that
breaks down or cannot be understood ends the run, and so does cancelling it.

`Site.step?` gives the effect of one event, in whatever order events come;
`Site.drain` is the schedule that dispatches first, then numbers and evaluates,
and records the oldest job. `Site.launch` is the part of it before the first job
is evaluated.
-/
namespace ValuationCycle
open Json Std Wire

/-- A graph to run: where its values go and whether statistics are kept. -/
structure Request where
  graph : Graph
  cache : CacheHandle
  keepsStatistics : Bool

/-- What a calculation node makes of a job. -/
inductive Answer where
  | unreadable (error : DecodeError)
  | ran (outcome : Outcome)

/-- A dispatched node: its position, the numbers of its inputs so far, the inputs
without a number, and the answer once it is there. -/
structure Job where
  node : Nat
  numbers : List Int64
  unnumbered : List Specification
  answer : Option Answer

structure Run where
  request : Request
  blocking : List Int
  ready : List Nat
  jobs : List Job
  executed : Nat
  ending : Option Ending

inductive RunEvent where
  | dispatch (node : Nat)
  | number (node : Nat)
  | evaluate (node : Nat)
  | record (node : Nat)
  | finish
  | cancel
  deriving DecidableEq

def RunEvent.waits : RunEvent → Bool
  | .evaluate _ | .record _ => true
  | _ => false

/-- Something to remember of a run: a function was invoked, or a node failed. -/
inductive JournalEntry where
  | invoked (functionId : String)
  | failed (node : Node) (error : InvocationError)

namespace Run

def graph (r : Run) : Graph := r.request.graph

/-- The number of other nodes that each node takes inputs from. -/
def inputCounts (g : Graph) : List Int :=
  (List.range g.size).map fun i => ((g.inputIndices i).eraseDups.length : Int)

def dependents (g : Graph) (i : Nat) : List Nat :=
  (List.range g.size).filter fun j => (g.inputIndices j).contains i

/-- A run at its start: nodes that wait for no other are ready. -/
def start (request : Request) : Run :=
  let blocking := inputCounts request.graph
  ⟨request, blocking, (List.range request.graph.size).filter fun i => blocking[i]? == some 0,
    [], 0, none⟩

/-- One node less is waited for; a node that waits for no more is ready. -/
def release (r : Run) (j : Nat) : Run :=
  match r.blocking[j]? with
  | none => r
  | some count =>
    { r with
      blocking := r.blocking.set j (count - 1)
      ready := if count - 1 = 0 then r.ready ++ [j] else r.ready }

/-- Releases all nodes that wait for a node. -/
def releaseDependents (r : Run) (i : Nat) : Run := (dependents r.graph i).foldl release r

def job? (r : Run) (i : Nat) : Option Job := r.jobs.find? fun j => j.node == i

def setJob (r : Run) (job : Job) : Run :=
  { r with jobs := r.jobs.map fun j => if j.node = job.node then job else j }

def dropJob (r : Run) (i : Nat) : Run := { r with jobs := r.jobs.filter fun j => j.node != i }

end Run

/-- A run with what it acts on. -/
structure Site where
  workspace : Workspace
  marks : NodeMarks
  run : Run
  journal : List JournalEntry

namespace Site

def hint (s : Site) : CacheHint := .ofGraph s.run.graph

def dispatch (s : Site) (i : Nat) : Option Site :=
  if s.run.ending.isNone && s.run.ready.contains i then
    s.run.graph.nodes[i]?.map fun n =>
      { s with run := { s.run with
        ready := s.run.ready.erase i
        jobs := s.run.jobs ++ [⟨i, [], n.inputs, none⟩] } }
  else none

def number (s : Site) (i : Nat) : Option Site :=
  if s.run.ending.isNone then
    match s.run.job? i with
    | some ⟨_, numbers, input :: rest, none⟩ =>
      let (identifiers, n) := s.workspace.identifiers.identify input
      some { s with
        workspace := { s.workspace with identifiers }
        run := s.run.setJob ⟨i, numbers ++ [n], rest, none⟩ }
    | _ => none
  else none

/-- What a calculation node makes of the job of a node, and what is remembered. -/
def answerOf (w : Workspace) (cache : Cache) (n : Node) (numbers : List Int64) :
    Answer × List JournalEntry :=
  match Codec.ofText (Codec.text (JobItem.ofNumbered n numbers)) with
  | .error e => (.unreadable e, [])
  | .ok item =>
    match prepareJob w.repository w.identifiers cache item with
    | .error e => (.ran (.failed e), [])
    | .ok (invoker, invocation) =>
      (.ran (invoker.run invocation), [.invoked invocation.functionId])

/-- Evaluates a job that is numbered, against the cache as it is. A job that was
sent is evaluated even if the run has ended by then. -/
def evaluate (s : Site) (i : Nat) : Option Site :=
  match s.run.job? i, s.run.graph.nodes[i]? with
  | some ⟨_, numbers, [], none⟩, some n =>
    let (answer, entries) :=
      answerOf s.workspace (s.workspace.cache s.run.request.cache) n numbers
    some { s with
      run := s.run.setJob ⟨i, numbers, [], some answer⟩
      journal := s.journal ++ entries }
  | _, _ => none

/-- Ends the run before all nodes are done. -/
def fail (s : Site) (e : ExecutionError) : Site :=
  { s with
    run := { s.run with ending := some (.error e) }
    workspace :=
      if s.run.request.keepsStatistics then
        { s.workspace with
          statistics := s.workspace.statistics.graphFailed s.run.graph.configuration }
      else s.workspace }

/-- Stores the values that a node returned and marks it executed. -/
def recordReturned (s : Site) (n : Node) (values : List ComputedValue) : Site :=
  { s with
    workspace := s.workspace.updateCache s.run.request.cache fun c => c.putMany s.hint values
    marks := s.marks.markExecuted n
    run := { s.run with executed := s.run.executed + 1 } }

def recordFailed (s : Site) (n : Node) (e : InvocationError) : Site :=
  { s with marks := s.marks.markFailed n, journal := s.journal ++ [.failed n e] }

def releaseDependents (s : Site) (i : Nat) : Site := { s with run := s.run.releaseDependents i }

def record (s : Site) (i : Nat) : Option Site :=
  if s.run.ending.isNone then
    match s.run.job? i, s.run.graph.nodes[i]? with
    | some ⟨_, _, _, some answer⟩, some n =>
      let s := { s with run := s.run.dropJob i }
      some (match answer with
        | .unreadable e => s.fail (.dispatch e.message)
        | .ran .brokeDown => s.fail (.brokeDown "job broke down")
        | .ran (.returned values) => (s.recordReturned n values).releaseDependents i
        | .ran (.failed e) => (s.recordFailed n e).releaseDependents i)
    | _, _ => none
  else none

/-- The statistics of a run that has come to its end; its duration is not kept. -/
def processed (s : Site) : Statistics :=
  let g := s.run.graph
  s.workspace.statistics.graphProcessed g.configuration g.size s.run.executed 0

/-- Ends a run that has nothing ready and no job left. -/
def finish (s : Site) : Option Site :=
  if s.run.ending.isNone && s.run.ready.isEmpty && s.run.jobs.isEmpty then
    some { s with
      run := { s.run with ending := some (.ok ()) }
      workspace :=
        if s.run.request.keepsStatistics then { s.workspace with statistics := s.processed }
        else s.workspace }
  else none

/-- Ends a run from outside; nothing is counted as failed. -/
def cancel (s : Site) : Option Site :=
  if s.run.ending.isNone then
    some { s with run := { s.run with ending := some (.error .cancelled) } }
  else none

/-- The effect of an event, if it can happen now. -/
def step? (s : Site) : RunEvent → Option Site
  | .dispatch i => s.dispatch i
  | .number i => s.number i
  | .evaluate i => s.evaluate i
  | .record i => s.record i
  | .finish => s.finish
  | .cancel => s.cancel

/-- The event that a run does next when it is left to itself. -/
def next (r : Run) : RunEvent :=
  match r.ready with
  | i :: _ => .dispatch i
  | [] =>
    match r.jobs.find? fun j => !j.unnumbered.isEmpty with
    | some j => .number j.node
    | none =>
      match r.jobs.find? fun j => j.answer.isNone with
      | some j => .evaluate j.node
      | none =>
        match r.jobs with
        | j :: _ => .record j.node
        | [] => .finish

/-- At most so many events, each the next one, while the run has not ended and as
long as events are wanted. -/
def advance (s : Site) (wanted : RunEvent → Bool) : Nat → Site
  | 0 => s
  | budget + 1 =>
    if s.run.ending.isSome || !wanted (next s.run) then s
    else match s.step? (next s.run) with
      | some s => advance s wanted budget
      | none => s

/-- The number of events that a whole run takes at most: for each node one to
dispatch, evaluate and record it and one for each input, and one to finish. -/
def budget (g : Graph) : Nat :=
  g.nodes.foldr (fun n budget => n.inputs.length + 3 + budget) 1

/-- Goes as far as a run comes without a calculation node: its ready nodes are
dispatched and numbered, and it is finished if there are none. -/
def launch (s : Site) : Site := s.advance (fun e => !e.waits) (budget s.run.graph)

def drain (s : Site) : Site := s.advance (fun _ => true) (budget s.run.graph)

end Site
end ValuationCycle
