import Mathlib.Logic.Relation
import ValuationCycle.Graph.Basic

/-!
# Edges of a graph

A node has an edge to every other node of the graph that produces one of its
inputs. A graph is acyclic if no walk along edges comes back to where it began;
a node that consumes an output of its own has no edge to itself, so such a loop
is no cycle.
-/
namespace ValuationCycle
open Std Relation

namespace Graph

/-- The node at a position takes an input from the node at another one. -/
def Edge (g : Graph) (i j : Nat) : Prop := j ∈ g.inputIndices i

instance (g : Graph) (i j : Nat) : Decidable (g.Edge i j) :=
  inferInstanceAs (Decidable (j ∈ g.inputIndices i))

/-- No cycle of two or more nodes. -/
def Acyclic (g : Graph) : Prop := ∀ i, ¬TransGen g.Edge i i

theorem Edge.ne {g : Graph} {i j : Nat} (h : g.Edge i j) : j ≠ i := by
  unfold Edge inputIndices at h
  split at h
  · simpa using (List.mem_filter.mp h).2
  · simp at h

theorem edge_iff {g : Graph} {i j : Nat} : g.Edge i j ↔
    ∃ n, g.nodes[i]? = some n ∧ j ≠ i ∧ ∃ s ∈ n.inputs, g.producer? s = some j := by
  unfold Edge inputIndices
  cases hn : g.nodes[i]? with
  | none => simp
  | some n =>
      simp only [List.mem_filter, List.mem_filterMap, decide_eq_true_eq, Option.some.injEq,
        exists_eq_left']
      exact and_comm

/-- A rank that falls along every edge rules cycles out. -/
theorem acyclic_of_rank {g : Graph} (rank : Nat → Nat)
    (h : ∀ i j, g.Edge i j → rank j < rank i) : g.Acyclic := by
  have htrans : ∀ i j, TransGen g.Edge i j → rank j < rank i := by
    intro i j hij
    induction hij with
    | single he => exact h i _ he
    | tail _ he ih => exact Nat.lt_trans (h _ _ he) ih
  exact fun i hi => Nat.lt_irrefl _ (htrans i i hi)

theorem Edge.lt_size {g : Graph} {i j : Nat} (h : g.Edge i j) : i < g.size := by
  obtain ⟨n, hn, -⟩ := edge_iff.mp h
  exact (List.getElem?_eq_some_iff.mp hn).choose

theorem acyclic_of_forall {g : Graph} (rank : Nat → Nat)
    (h : ∀ i < g.size, ∀ j ∈ g.inputIndices i, rank j < rank i) : g.Acyclic :=
  acyclic_of_rank rank fun i j hij => h i hij.lt_size j hij

namespace Sample

def quantity (name functionId : String) : Specification :=
  ⟨name, ⟨.security, ⟨"Ticker", "AAPL", none⟩⟩, functionId, .none⟩

def step (functionId : String) (kind : FunctionKind) (inputs : List Specification)
    (output : Specification) : Node :=
  (inputs.foldl Node.withInput (.new ⟨functionId, kind, .empty⟩ output.target)).withOutput output

theorem mem_outputs_step {functionId : String} {kind : FunctionKind} {inputs : List Specification}
    {output s : Specification} : s ∈ (step functionId kind inputs output).outputs ↔ s = output := by
  have hinputs : ∀ n : Node, (inputs.foldl Node.withInput n).outputs = n.outputs := by
    induction inputs with
    | nil => exact fun _ => rfl
    | cons input rest ih =>
        intro n
        refine (ih _).trans ?_
        unfold Node.withInput
        split <;> rfl
  rw [eq_comm]
  simp [step, Node.withOutput, hinputs, Node.new]

def graph (configuration : String) (nodes : List Node) : Graph :=
  nodes.foldl (fun g n => (g.add n).1) (.empty configuration)

/-- Two paths lead from the first node to the last, which sources live data; the first
node consumes its own output as well. -/
def diamond : Graph :=
  graph "Default"
    [step "top" .security [quantity "Left" "left", quantity "Right" "right",
        quantity "Top" "top"] (quantity "Top" "top"),
      step "left" .security [quantity "Spot" "spot"] (quantity "Left" "left"),
      step "right" .security [quantity "Spot" "spot"] (quantity "Right" "right"),
      step "spot" .liveDataSourcing [] (quantity "Spot" "spot")]

theorem diamond_acyclic : diamond.Acyclic :=
  acyclic_of_forall (fun i => 3 - i) (by decide +kernel)

end Sample

end Graph
end ValuationCycle
