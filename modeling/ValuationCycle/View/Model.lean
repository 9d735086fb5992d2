import ValuationCycle.Graph.Basic

/-!
# Evaluation models

The evaluation model of a view has one graph for each of its calculation
configurations, under the configuration's name.
-/
namespace ValuationCycle
open Std

structure EvaluationModel where
  graphs : ExtTreeMap String Graph
  configuration_eq : ∀ {name : String} {g : Graph}, graphs[name]? = some g → g.configuration = name

namespace EvaluationModel

def empty : EvaluationModel := ⟨∅, by simp⟩

/-- Adds a graph under its configuration's name, in place of the one there. -/
def add (m : EvaluationModel) (g : Graph) : EvaluationModel where
  graphs := m.graphs.insert g.configuration g
  configuration_eq {name h} hg := by
    rw [ExtTreeMap.getElem?_insert] at hg
    split at hg
    · next heq =>
      obtain rfl := Option.some.inj hg
      exact LawfulEqOrd.eq_of_compare heq
    · exact m.configuration_eq hg

/-- The model of a list of graphs; of two for one configuration the later counts. -/
def ofGraphs (gs : List Graph) : EvaluationModel := gs.foldl add empty

def names (m : EvaluationModel) : List String := m.graphs.keys

def graph? (m : EvaluationModel) (name : String) : Option Graph := m.graphs[name]?

def liveOutputs (m : EvaluationModel) : ExtTreeSet Specification :=
  ExtTreeSet.ofList (m.graphs.values.flatMap fun g =>
    (g.nodes.filter fun n => !n.function.kind.requiresInvocation).flatMap fun n => n.outputs.toList)

end EvaluationModel
end ValuationCycle
