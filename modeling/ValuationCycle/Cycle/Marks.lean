import ValuationCycle.Graph.Node

/-!
# Marks

For every configuration a cycle keeps the sets of executed and of failed nodes.
They go by the nodes themselves: nodes whose payloads stand for the same but are
written differently have marks of their own. An absent node counts as both
executed and failed, and marking it does nothing.
-/
namespace ValuationCycle

structure NodeMarks where
  executed : List Node
  failed : List Node

namespace NodeMarks

def empty : NodeMarks := ⟨[], []⟩

def isExecuted (m : NodeMarks) : Option Node → Bool
  | some n => m.executed.contains n
  | none => true

def isFailed (m : NodeMarks) : Option Node → Bool
  | some n => m.failed.contains n
  | none => true

def markExecuted (m : NodeMarks) : Option Node → NodeMarks
  | some n => { m with executed := m.executed.insert n }
  | none => m

def markFailed (m : NodeMarks) : Option Node → NodeMarks
  | some n => { m with failed := m.failed.insert n }
  | none => m

def executedCount (m : NodeMarks) : Nat := m.executed.length

def failedCount (m : NodeMarks) : Nat := m.failed.length

end NodeMarks
end ValuationCycle
