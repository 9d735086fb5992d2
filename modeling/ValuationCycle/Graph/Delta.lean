import ValuationCycle.Cache.Basic

/-!
# Delta between two caches

Given the cache of a cycle and that of a previous one, every node of a graph is
either changed or unchanged: a live data sourcing node is changed if the value
of one of its outputs differs between the caches, any other node if one of the
nodes it takes inputs from is changed. Nodes are closed after the nodes they
take inputs from by a walk with an explicit stack, so deep graphs are no
trouble; where inputs run in a circle, the walk decides in the order in which
it meets the nodes. No node is decided twice, and every step of the walk either
opens a node or shortens the stack, so the walk ends on every graph.
-/
namespace ValuationCycle
open Json

/-- How far the walk has come with a node. -/
inductive Mark where
  | unvisited
  | inProgress
  | done (changed : Bool)
  deriving DecidableEq

/-- Equality of values that may be absent; an absent value differs from any other. -/
def sameValue : Option Value → Option Value → Bool
  | none, none => true
  | some v, some w => v.same w
  | _, _ => false

namespace Graph

/-- Whether the node at a position is changed, given what was decided of others. -/
def isChanged (g : Graph) (differs : Specification → Bool) (marks : List Mark) (i : Nat) : Bool :=
  match g.nodes[i]? with
  | none => false
  | some n =>
    if n.isLive then n.outputs.toList.any differs
    else (g.inputIndices i).any fun input => marks[input]? == some (.done true)

/-- The inputs to visit when a node is opened, the last one first. -/
def unvisitedInputs (g : Graph) (marks : List Mark) (i : Nat) : List Nat :=
  ((g.inputIndices i).filter fun input => marks[input]? == some .unvisited).reverse

theorem count_set_unvisited_lt {marks : List Mark} {i : Nat} (h : marks[i]? = some .unvisited) :
    (marks.set i .inProgress).count .unvisited < marks.count .unvisited := by
  obtain ⟨hi, he⟩ := List.getElem?_eq_some_iff.mp h
  have hpos : 0 < marks.count .unvisited := List.count_pos_iff.mpr (he ▸ List.getElem_mem hi)
  rw [List.count_set hi, he, if_pos (by decide), if_neg (by decide), Nat.add_zero]
  exact Nat.sub_lt hpos Nat.one_pos

theorem count_set_done {marks : List Mark} {i : Nat} {changed : Bool}
    (h : marks[i]? = some .inProgress) :
    (marks.set i (.done changed)).count .unvisited = marks.count .unvisited := by
  obtain ⟨hi, he⟩ := List.getElem?_eq_some_iff.mp h
  rw [List.count_set hi, he, if_neg (by decide), if_neg (by simp), Nat.add_zero, Nat.sub_zero]

/-- Walks until the stack is empty. The top of the stack is opened, or closed if
it is open, or dropped if it is closed. -/
def walk (g : Graph) (differs : Specification → Bool) (marks : List Mark) :
    List Nat → List Mark
  | [] => marks
  | i :: rest =>
    match _h : marks[i]? with
    | some .unvisited =>
      let marks := marks.set i .inProgress
      walk g differs marks (g.unvisitedInputs marks i ++ i :: rest)
    | some .inProgress => walk g differs (marks.set i (.done (g.isChanged differs marks i))) rest
    | _ => walk g differs marks rest
termination_by stack => (marks.count .unvisited, stack.length)
decreasing_by
  · exact Prod.Lex.left _ _ (count_set_unvisited_lt _h)
  · rw [count_set_done _h]
    exact Prod.Lex.right _ (Nat.lt_succ_self _)
  · exact Prod.Lex.right _ (Nat.lt_succ_self _)

/-- What is decided of each node, in the order of the nodes. -/
def classify (g : Graph) (differs : Specification → Bool) : List Mark :=
  (List.range g.size).foldl (fun marks root => g.walk differs marks [root])
    (List.replicate g.size .unvisited)

end Graph

/-- The positions of changed and of unchanged nodes, each in order. -/
structure Delta where
  changed : List Nat
  unchanged : List Nat
  deriving DecidableEq

namespace Delta

def compute (g : Graph) (current previous : Cache) : Delta :=
  let marks := g.classify fun s => !sameValue (current.get? s) (previous.get? s)
  let isChanged (i : Nat) : Bool := marks[i]? == some (.done true)
  ⟨(List.range g.size).filter isChanged, (List.range g.size).filter fun i => !isChanged i⟩

end Delta
end ValuationCycle
