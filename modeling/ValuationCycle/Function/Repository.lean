import ValuationCycle.Function.Invocation

/-!
# Repository of functions

Functions are registered under ids that count from `1` in the order of
registration. A function that is invoked is registered with an invoker of its
kind; a live data sourcing function has none. A refused registration changes
nothing.
-/
namespace ValuationCycle
open Std

structure FunctionDefinition where
  functionId : String
  shortName : String
  kind : FunctionKind
  deriving DecidableEq

def FunctionDefinition.bind (d : FunctionDefinition) (parameters : Parameters) : BoundFunction :=
  ⟨d.functionId, d.kind, parameters⟩

inductive RegistrationError where
  | liveDataInvoker
  | kindMismatch (definition invoker : FunctionKind)
  deriving DecidableEq

def RegistrationError.message : RegistrationError → String
  | liveDataInvoker => "live data sourcing functions cannot have an invoker"
  | kindMismatch definition invoker =>
    "invoker of kind " ++ invoker.name ++ " cannot implement definition of kind " ++ definition.name

/-- The registered functions and the invokers by function id. -/
structure Repository where
  functions : List FunctionDefinition
  invokers : ExtTreeMap String Invoker

namespace Repository

def empty : Repository := ⟨[], ∅⟩

def next (r : Repository) (shortName : String) (kind : FunctionKind) : FunctionDefinition :=
  ⟨toString (r.functions.length + 1), shortName, kind⟩

def addLive (r : Repository) (shortName : String) : Repository × FunctionDefinition :=
  let definition := r.next shortName .liveDataSourcing
  ({ r with functions := r.functions ++ [definition] }, definition)

def add (r : Repository) (shortName : String) (kind : FunctionKind) (invoker : Invoker) :
    Except RegistrationError (Repository × FunctionDefinition) :=
  if !kind.requiresInvocation then .error .liveDataInvoker
  else if invoker.kind ≠ kind then .error (.kindMismatch kind invoker.kind)
  else
    let definition := r.next shortName kind
    .ok (⟨r.functions ++ [definition], r.invokers.insert definition.functionId invoker⟩, definition)

def invoker? (r : Repository) (functionId : String) : Option Invoker := r.invokers[functionId]?

end Repository
end ValuationCycle
