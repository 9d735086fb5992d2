import ValuationCycle.Execution.Run

/-!
# Executions

The execution of a cycle runs the graphs of its configurations side by side.
They share the workspace; each has marks of its own. An event belongs to one
configuration, and events of different configurations may come in any order.
-/
namespace ValuationCycle
open Std

structure Execution where
  workspace : Workspace
  marks : ExtTreeMap String NodeMarks
  runs : ExtTreeMap String Run
  journal : List JournalEntry

namespace Execution

def start (workspace : Workspace) (marks : ExtTreeMap String NodeMarks) : Execution :=
  ⟨workspace, marks, ∅, []⟩

def submit (x : Execution) (request : Request) : Execution :=
  { x with runs := x.runs.insert request.graph.configuration (.start request) }

def site? (x : Execution) (configuration : String) : Option Site :=
  x.runs[configuration]?.map fun run =>
    ⟨x.workspace, x.marks[configuration]?.getD .empty, run, x.journal⟩

def restore (x : Execution) (configuration : String) (s : Site) : Execution :=
  ⟨s.workspace, x.marks.insert configuration s.marks, x.runs.insert configuration s.run, s.journal⟩

/-- The effect of an event of one configuration, if it can happen now. -/
def step? (x : Execution) (configuration : String) (e : RunEvent) : Option Execution :=
  ((x.site? configuration).bind fun s => s.step? e).map (x.restore configuration)

/-- The effect of a row of events, if each can happen in its turn. -/
def steps? (x : Execution) (events : List (String × RunEvent)) : Option Execution :=
  events.foldlM (fun x e => x.step? e.1 e.2) x

def proceed (x : Execution) (way : Site → Site) (configuration : String) : Execution :=
  match x.site? configuration with
  | some s => x.restore configuration (way s)
  | none => x

/-- Begins to run the graph of one configuration. -/
def launch (x : Execution) (configuration : String) : Execution :=
  x.proceed Site.launch configuration

/-- Runs the graph of one configuration to its end. -/
def drain (x : Execution) (configuration : String) : Execution :=
  x.proceed Site.drain configuration

def ending? (x : Execution) (configuration : String) : Option Ending :=
  x.runs[configuration]?.bind Run.ending

end Execution
end ValuationCycle
