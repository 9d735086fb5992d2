import ValuationCycle.Specification
import ValuationCycle.Function.Parameters

/-!
# Nodes

A node is one function invocation: a bound function, a target, the inputs in
the order in which they were added, each once, and the set of outputs. Nodes
compare by structure, and their payloads by what they stand for.
-/
namespace ValuationCycle
open Std

structure Node where
  function : BoundFunction
  target : Target
  inputs : List Specification
  outputs : ExtTreeSet Specification
  inputs_nodup : inputs.Nodup
  deriving DecidableEq

namespace Node

def new (function : BoundFunction) (target : Target) : Node :=
  ⟨function, target, [], ∅, List.nodup_nil⟩

/-- Adds an input at the end, unless it is there. -/
def withInput (n : Node) (input : Specification) : Node :=
  if h : input ∈ n.inputs then n
  else { n with
    inputs := n.inputs ++ [input]
    inputs_nodup := List.nodup_append.mpr ⟨n.inputs_nodup, by simp, by
      rintro a ha b hb rfl
      exact h (by simpa using List.mem_singleton.mp hb ▸ ha)⟩ }

def withOutput (n : Node) (output : Specification) : Node :=
  { n with outputs := n.outputs.insert output }

/-- Equality of all parts, payloads by what they stand for. -/
def same (m n : Node) : Bool :=
  m.function.same n.function && m.target == n.target && m.inputs == n.inputs &&
    m.outputs == n.outputs

/-- Whether the node only exposes live data. -/
def isLive (n : Node) : Bool := n.function.kind == .liveDataSourcing

instance : ToString Node :=
  ⟨fun n => "DepNode[" ++ n.function.functionId ++ " on " ++ toString n.target ++ ", " ++
    toString n.inputs.length ++ " in, " ++ toString n.outputs.size ++ " out]"⟩

end Node
end ValuationCycle
