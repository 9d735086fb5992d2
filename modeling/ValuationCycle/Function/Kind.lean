import ValuationCycle.Target

/-!
# Kinds of functions

Every function has one of five kinds, which decides whether its nodes are
invoked at all and which targets it applies to. Live data sourcing functions
compute nothing: their outputs are loaded before anything is executed.
-/
namespace ValuationCycle
open Json Std

inductive FunctionKind where
  | liveDataSourcing | primitive | security | position | aggregatePosition
  deriving DecidableEq

namespace FunctionKind

instance : Ord FunctionKind := ⟨compareOn FunctionKind.ctorIdx⟩

instance : TransOrd FunctionKind := inferInstanceAs (TransCmp (compareOn FunctionKind.ctorIdx))

instance : LawfulEqOrd FunctionKind :=
  lawfulEqCmp_compareOn fun a b h => by cases a <;> cases b <;> first | rfl | cases h

def all : List FunctionKind :=
  [liveDataSourcing, primitive, security, position, aggregatePosition]

def name : FunctionKind → String
  | liveDataSourcing => "LiveDataSourcing"
  | primitive => "Primitive"
  | security => "Security"
  | position => "Position"
  | aggregatePosition => "AggregatePosition"

def ofName? (s : String) : Option FunctionKind := all.find? fun k => k.name == s

instance : ToString FunctionKind := ⟨name⟩

def requiresInvocation : FunctionKind → Bool
  | liveDataSourcing => false
  | _ => true

/-- Whether a function of this kind applies to targets of a type: securities also
to positions in them. -/
def appliesTo : FunctionKind → TargetType → Bool
  | liveDataSourcing, _ => true
  | primitive, _ => true
  | security, t => t == .security || t == .position
  | position, t => t == .position
  | aggregatePosition, t => t == .portfolioNode

def toDocument (k : FunctionKind) : Document := .str k.name

def ofDocument? : Reader FunctionKind := Reader.choice ofName?

end FunctionKind
end ValuationCycle
