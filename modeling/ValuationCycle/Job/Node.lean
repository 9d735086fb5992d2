import ValuationCycle.Cache.Basic
import ValuationCycle.Cache.Identifiers
import ValuationCycle.Function.Repository
import ValuationCycle.Job.Item

/-!
# Calculation nodes

A calculation node runs job items: it looks up the function, checks that it
applies to the target, resolves the inputs by number and reads them from a
cache, and invokes the function. It writes nothing: what a function returns is
stored by whoever sent the job.
-/
namespace ValuationCycle
open Json

namespace JobItem

/-- The job that invokes a node whose inputs have the given numbers; the outputs
are the desired values. -/
def ofNumbered (n : Node) (inputs : List Int64) : JobItem :=
  ⟨n.function.functionId, n.function.parameters, n.target, inputs,
    n.outputs.toList.map Specification.requirement⟩

/-- The job that invokes a node. Inputs without a number get one. -/
def ofNode (m : Identifiers) (n : Node) : Identifiers × JobItem :=
  let (m, inputs) := m.identifyAll n.inputs
  (m, ofNumbered n inputs)

end JobItem

/-- The value of an input by number, with its specification. -/
def resolveInput (m : Identifiers) (c : Cache) (number : Int64) : Option ComputedValue := do
  let s ← m.specification? number
  return ⟨s, ← c.get? s⟩

/-- What is invoked for a job, or why nothing is. -/
def prepareJob (r : Repository) (m : Identifiers) (c : Cache) (j : JobItem) :
    Except InvocationError (Invoker × Invocation) := do
  match r.invoker? j.functionId with
  | none => .error (.unknownFunction j.functionId)
  | some invoker =>
    if !invoker.kind.appliesTo j.target.targetType then
      .error (.targetMismatch j.functionId invoker.kind j.target.targetType)
    else
      let resolved := j.inputs.map (resolveInput m c)
      let missing := resolved.countP Option.isNone
      if 0 < missing then .error (.missingInputs j.functionId missing)
      else
        let inputs := FunctionInputs.ofList (resolved.filterMap id)
        .ok (invoker, ⟨j.functionId, j.target, j.parameters, inputs, j.desired⟩)

def runJob (r : Repository) (m : Identifiers) (c : Cache) (j : JobItem) : Outcome :=
  match prepareJob r m c j with
  | .error e => .failed e
  | .ok (invoker, invocation) => invoker.run invocation

end ValuationCycle
