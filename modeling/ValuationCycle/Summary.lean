import ValuationCycle.Cycle.Basic
import ValuationCycle.Text.Literal

/-!
# Summaries

A summary shows a store in one line: its name and its fields, collections by
their sizes alone. Fields that are left out are hinted at by two dots.
-/
namespace ValuationCycle

/-- The fields of a summary with their texts; dots at the end tell that there are
more. -/
structure Summary where
  name : String
  fields : List (String × String)
  hasMore : Bool := false

namespace Summary

def field (f : String × String) : String := f.1 ++ ": " ++ f.2

def text (s : Summary) : String :=
  let fields := s.fields.map field ++ (if s.hasMore then [".."] else [])
  s.name ++ " \x7b " ++ String.intercalate ", " fields ++ " \x7d"

def sized (n : Nat) : String := "[..; " ++ toString n ++ "]"

def list (items : List String) : String := "[" ++ String.intercalate ", " items ++ "]"

def entries (es : List (String × String)) : String :=
  "\x7b" ++ String.intercalate ", " (es.map fun e => Text.literal e.1 ++ ": " ++ e.2) ++ "\x7d"

end Summary

def Graph.summary (g : Graph) : String :=
  Summary.text ⟨"DependencyGraph",
    [("calculation_configuration_name", Text.literal g.configuration),
      ("nodes", Summary.sized g.size), ("terminal_outputs", Summary.sized g.terminal.size)], false⟩

def Cache.summary (c : Cache) : String :=
  Summary.text ⟨"InMemoryComputationCache",
    [("shared", Summary.sized c.sharedPart.size), ("private", Summary.sized c.privatePart.size)],
    false⟩

def NodeMarks.summary (m : NodeMarks) : String :=
  Summary.text ⟨"NodeExecutionState",
    [("executed", toString m.executedCount), ("failed", toString m.failedCount)], false⟩

def Board.summary {α : Type} : Board α → String
  | silent => "NoopChangeManager"
  | announcing l =>
    Summary.text ⟨"BasicChangeManager", [("listeners", toString l.registered.length)], false⟩

def Exchange.summary {α : Type} (e : Exchange α) : String :=
  Summary.text ⟨"InMemoryLiveDataSnapshotProvider",
    [("current", toString e.data.current.size), ("snapshots", toString e.data.snapshots.size),
      ("change_manager", e.board.summary)], false⟩

def FunctionDefinition.summary (d : FunctionDefinition) : String :=
  Summary.text ⟨"FunctionDefinition",
    [("unique_id", Text.literal d.functionId), ("short_name", Text.literal d.shortName),
      ("kind", d.kind.name)], false⟩

def Repository.summary (r : Repository) : String :=
  Summary.text ⟨"InMemoryFunctionRepository",
    [("functions", Summary.list (r.functions.map FunctionDefinition.summary))], true⟩

def Repository.nodeSummary (r : Repository) : String :=
  Summary.text ⟨"LocalCalculationNode", [("functions", r.summary)], true⟩

def Cycle.summary (c : Cycle) : String :=
  Summary.text ⟨"SingleComputationCycle",
    [("view", Text.literal c.view.name),
      ("valuation_time", "ValuationTime(" ++ toString c.time.millis.toInt ++ ")"),
      ("state", c.state.plainName),
      ("node_states", Summary.entries (c.marks.toList.map fun e => (e.1, e.2.summary)))], true⟩

end ValuationCycle
