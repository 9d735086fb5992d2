import ValuationCycle.Specification
import ValuationCycle.Function.Parameters

/-!
# Invocations

A function is invoked with its parameters, a target, the values of its inputs by
specification, and the requirements it is to satisfy. It returns values under
specifications of its choice, or fails, or breaks down; a function without an
invoker is never invoked. Failing is an outcome of one node and carries a cause.
-/
namespace ValuationCycle
open Json Std

structure FunctionInputs where
  values : ExtTreeMap Specification Value

namespace FunctionInputs

/-- The inputs of a list of values; of two under one specification the later counts. -/
def ofList (vs : List ComputedValue) : FunctionInputs :=
  ⟨vs.foldl (fun m v => m.insert v.specification v.value) ∅⟩

def get? (i : FunctionInputs) (s : Specification) : Option Value := i.values[s]?

/-- The value of the first specification with a value name. -/
def value? (i : FunctionInputs) (name : String) : Option Value :=
  (i.values.toList.find? fun e => e.1.valueName == name).map Prod.snd

def size (i : FunctionInputs) : Nat := i.values.size

def isEmpty (i : FunctionInputs) : Bool := i.values.isEmpty

end FunctionInputs

/-- All that a function gets to see. -/
structure Invocation where
  functionId : String
  target : Target
  parameters : Parameters
  inputs : FunctionInputs
  desired : List Requirement

/-- The specification under which a value that satisfies a requirement is returned. -/
def Invocation.outputSpecification (i : Invocation) (r : Requirement) : Specification :=
  ⟨r.valueName, r.target, i.functionId, r.constraints⟩

inductive InvocationError where
  | unknownFunction (functionId : String)
  | targetMismatch (functionId : String) (kind : FunctionKind) (targetType : TargetType)
  | missingInputs (functionId : String) (missing : Nat)
  | failed (reason : String)
  deriving DecidableEq

def InvocationError.message : InvocationError → String
  | unknownFunction id => "no invoker registered for function `" ++ id ++ "`"
  | targetMismatch id kind targetType =>
    "function `" ++ id ++ "` of kind " ++ kind.name ++ " cannot be applied to " ++
      targetType.name ++ " target"
  | missingInputs id missing =>
    "function `" ++ id ++ "` is missing " ++ toString missing ++ " input(s)"
  | failed reason => "function failed: " ++ reason

inductive Outcome where
  | returned (values : List ComputedValue)
  | failed (error : InvocationError)
  | brokeDown

/-- The body of a function, which depends on nothing but the invocation. -/
structure Invoker where
  kind : FunctionKind
  run : Invocation → Outcome

end ValuationCycle
