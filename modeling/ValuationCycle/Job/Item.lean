import ValuationCycle.Wire.Codec

/-!
# Job items

A job item is one function invocation in the form in which it is sent to a
calculation node: the function and its parameters, the target, the inputs by
number and the desired values in order. The target lies flat in the message, so
when one of its fields is missing the error speaks of the target as a whole.
-/
namespace ValuationCycle
open Wire

structure JobItem where
  functionId : String
  parameters : Parameters
  target : Target
  inputs : List Int64
  desired : List Requirement
  deriving DecidableEq

namespace JobItem

def same (a b : JobItem) : Bool :=
  a.functionId == b.functionId && a.parameters.same b.parameters && a.target == b.target &&
    a.inputs == b.inputs && a.desired == b.desired

/-- A missing part of the target is reported as the target. -/
def decodeTarget (m : Message) : Except DecodeError Target :=
  match Codec.decode m with
  | .error (.missing _) => .error (.missing "computationTargetSpecification")
  | other => other

instance : Codec JobItem where
  fields j := Codec.fields j.target ++
    [stringField "functionUniqueIdentifier" j.functionId,
      objectField "functionParameters" j.parameters,
      (some "valueInput", .longs j.inputs)] ++
    j.desired.map (objectField "desiredValue")
  decode m := do
    let target ← decodeTarget m
    let functionId ← m.requireString "functionUniqueIdentifier"
    let parameters ← m.requireObject "functionParameters"
    let inputs ← m.requireLongs "valueInput"
    let desired ← (← m.messages "desiredValue").mapM Codec.decode
    return ⟨functionId, parameters, target, inputs, desired⟩

end JobItem
end ValuationCycle
