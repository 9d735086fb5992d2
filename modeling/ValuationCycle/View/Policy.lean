import ValuationCycle.Graph.Basic

/-!
# Reporting policies

A view reports, for each type of target, no outputs, the terminal outputs of
the graph, or all outputs.
-/
namespace ValuationCycle
open Json

inductive OutputMode where
  | nothing | terminalOutputs | all
  deriving DecidableEq

namespace OutputMode

def name : OutputMode → String
  | nothing => "None"
  | terminalOutputs => "TerminalOutputs"
  | all => "All"

def ofName? (s : String) : Option OutputMode :=
  [nothing, terminalOutputs, all].find? fun m => m.name == s

def toDocument (m : OutputMode) : Document := .str m.name

def ofDocument? : Reader OutputMode := Reader.choice ofName?

end OutputMode

structure ReportingPolicy where
  portfolioNode : OutputMode := .terminalOutputs
  position : OutputMode := .terminalOutputs
  security : OutputMode := .terminalOutputs
  primitive : OutputMode := .terminalOutputs
  deriving DecidableEq

namespace ReportingPolicy

def mode (p : ReportingPolicy) : TargetType → OutputMode
  | .portfolioNode => p.portfolioNode
  | .position => p.position
  | .security => p.security
  | .primitive => p.primitive

def withMode (p : ReportingPolicy) (t : TargetType) (mode : OutputMode) : ReportingPolicy :=
  match t with
  | .portfolioNode => { p with portfolioNode := mode }
  | .position => { p with position := mode }
  | .security => { p with security := mode }
  | .primitive => { p with primitive := mode }

def reports (p : ReportingPolicy) (g : Graph) (output : Specification) : Bool :=
  match p.mode output.target.targetType with
  | .nothing => false
  | .terminalOutputs => g.isTerminal output
  | .all => true

def toDocument (p : ReportingPolicy) : Document :=
  .record [("aggregate_position_output_mode", p.portfolioNode.toDocument),
    ("position_output_mode", p.position.toDocument),
    ("security_output_mode", p.security.toDocument),
    ("primitive_output_mode", p.primitive.toDocument)]

def ofDocument? : Reader ReportingPolicy := fun levels d => do
  let r ← Record.ofDocument? ["aggregate_position_output_mode", "position_output_mode",
    "security_output_mode", "primitive_output_mode"] levels d
  let mode (name : String) := r.defaulted name .terminalOutputs OutputMode.ofDocument?
  return ⟨← mode "aggregate_position_output_mode", ← mode "position_output_mode",
    ← mode "security_output_mode", ← mode "primitive_output_mode"⟩

end ReportingPolicy

/-- What a view is called, what it reports, and whether its caches are written to
files when a cycle releases them. -/
structure ViewDefinition where
  name : String
  policy : ReportingPolicy := {}
  dumpsCaches : Bool := false
  deriving DecidableEq

namespace ViewDefinition

def toDocument (v : ViewDefinition) : Document :=
  .record [("name", .str v.name), ("result_model_definition", v.policy.toDocument),
    ("dump_computation_cache_to_disk", .bool v.dumpsCaches)]

def ofDocument? : Reader ViewDefinition := fun levels d => do
  let r ← Record.ofDocument? ["name", "result_model_definition", "dump_computation_cache_to_disk"]
    levels d
  return ⟨← r.required "name" .string,
    ← r.defaulted "result_model_definition" {} ReportingPolicy.ofDocument?,
    ← r.defaulted "dump_computation_cache_to_disk" false .bool⟩

end ViewDefinition
end ValuationCycle
