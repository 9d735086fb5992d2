import ValuationCycle.Function.Kind

/-!
# Parameters

A function is used with parameters: a payload of any form, tagged with the name
of its type. A bound function is a function together with its parameters. Both
compare by what their payloads stand for.
-/
namespace ValuationCycle
open Json

/-- A payload tagged with the name of its type. -/
structure Parameters where
  typeName : String
  payload : Value
  deriving DecidableEq

namespace Parameters

def empty : Parameters := ⟨"EmptyFunctionParameters", .null⟩

/-- Equality of type names and of what the payloads stand for. -/
def same (p q : Parameters) : Bool := p.typeName == q.typeName && p.payload.same q.payload

def toDocument (p : Parameters) : Document :=
  .record [("type_name", .str p.typeName), ("payload", p.payload.toDocument)]

def ofDocument? : Reader Parameters := fun levels d => do
  let r ← Record.ofDocument? ["type_name", "payload"] levels d
  return ⟨← r.required "type_name" .string, ← r.required "payload" Value.ofDocument?⟩

end Parameters

structure BoundFunction where
  functionId : String
  kind : FunctionKind
  parameters : Parameters
  deriving DecidableEq

namespace BoundFunction

def same (f g : BoundFunction) : Bool :=
  f.functionId == g.functionId && f.kind == g.kind && f.parameters.same g.parameters

def toDocument (f : BoundFunction) : Document :=
  .record [("function_id", .str f.functionId), ("kind", f.kind.toDocument),
    ("parameters", f.parameters.toDocument)]

def ofDocument? : Reader BoundFunction := fun levels d => do
  let r ← Record.ofDocument? ["function_id", "kind", "parameters"] levels d
  return ⟨← r.required "function_id" .string, ← r.required "kind" FunctionKind.ofDocument?,
    ← r.required "parameters" Parameters.ofDocument?⟩

end BoundFunction
end ValuationCycle
