import ValuationCycle.Graph.Node

/-!
# Dependency graphs

A graph is the compiled form of one calculation configuration: its nodes in the
order of insertion, pairwise different, an index of the node that produces each
output (the one inserted last, if several do), and the outputs that the view
itself asks for. An input that a node of the graph produces is an edge; any
other input is not.

Extraction keeps the nodes that a predicate accepts and, of the terminal
outputs, those that a kept node produces.
-/
namespace ValuationCycle
open Std

structure Graph where
  configuration : String
  nodes : List Node
  producers : ExtTreeMap Specification Nat
  terminal : ExtTreeSet Specification

namespace Graph

def empty (configuration : String) : Graph := ⟨configuration, [], ∅, ∅⟩

def size (g : Graph) : Nat := g.nodes.length

/-- Appends a node and makes it the producer of its outputs. -/
def insert (g : Graph) (n : Node) : Graph :=
  { g with
    nodes := g.nodes ++ [n]
    producers := n.outputs.toList.foldl (fun m output => m.insert output g.size) g.producers }

def position? (g : Graph) (n : Node) : Option Nat := g.nodes.findIdx? fun m => m.same n

/-- Adds a node, unless an equal one is there; also tells the position of the
node that is now in the graph. -/
def add (g : Graph) (n : Node) : Graph × Nat :=
  match g.position? n with
  | some i => (g, i)
  | none => (g.insert n, g.size)

/-- Declares a terminal output; nothing happens if no node produces it. -/
def addTerminal (g : Graph) (output : Specification) : Graph × Bool :=
  if g.producers.contains output then
    ({ g with terminal := g.terminal.insert output }, true)
  else (g, false)

def producer? (g : Graph) (output : Specification) : Option Nat := g.producers[output]?

/-- Whether a node is in the graph. The producer of its first output is compared
if there is one, otherwise all nodes are. -/
def contains (g : Graph) (n : Node) : Bool :=
  match (n.outputs.toList.head?.bind g.producer?).bind (g.nodes[·]?) with
  | some m => m.same n
  | none => g.nodes.any fun m => m.same n

def outputs (g : Graph) : List Specification := g.nodes.flatMap fun n => n.outputs.toList

def isTerminal (g : Graph) (output : Specification) : Bool := g.terminal.contains output

/-- The positions of the nodes that a node takes inputs from, each once, in the
order of the inputs. -/
def inputNodes (g : Graph) (n : Node) : List Nat := (n.inputs.filterMap g.producer?).eraseDups

/-- The positions of the other nodes that the node at a position takes inputs
from, once for every input. -/
def inputIndices (g : Graph) (i : Nat) : List Nat :=
  match g.nodes[i]? with
  | some n => (n.inputs.filterMap g.producer?).filter (· ≠ i)
  | none => []

/-- The graph of the given nodes, with those terminal outputs that they produce. -/
def ofKept (g : Graph) (kept : List Node) : Graph :=
  let sub := kept.foldl insert (empty g.configuration)
  { sub with terminal := g.terminal.filter fun output => sub.producers.contains output }

/-- The part of a graph whose nodes a predicate accepts. The predicate is asked
once for each node, in order, and may have effects. -/
def extractM {m : Type → Type} [Monad m] (g : Graph) (accepts : Node → m Bool) : m Graph := do
  return g.ofKept (← g.nodes.filterM accepts)

def extract (g : Graph) (accepts : Node → Bool) : Graph := g.ofKept (g.nodes.filter accepts)

instance : ToString Graph :=
  ⟨fun g => "DependencyGraph[" ++ g.configuration ++ ", " ++ toString g.size ++ " nodes]"⟩

end Graph
end ValuationCycle
