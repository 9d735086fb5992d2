import ValuationCycle.Proofs.Graph.Extract
import ValuationCycle.Proofs.Graph.Membership

/-!
# The index of a graph and its terminal outputs

A graph knows its nodes three times over: as a row, by the outputs that they produce, and, as far
as the view asks for them, by the terminal outputs. However a graph is built, by a predicate with
effects as well, the three stay in step, so that a position from the index is one of the row.
-/
namespace ValuationCycle
open Std

namespace Graph
variable {g : Graph} {m n : Node} {s : Specification}

theorem exists_produces_iff : (∃ i, g.Produces s i) ↔ ∃ n ∈ g.nodes, s ∈ n.outputs := by
  constructor
  · rintro ⟨i, n, hn, hs⟩
    exact ⟨n, List.mem_of_getElem? hn, hs⟩
  · rintro ⟨n, hn, hs⟩
    obtain ⟨i, hi⟩ := List.mem_iff_getElem?.mp hn
    exact ⟨i, n, hi, hs⟩

theorem Consistent.contains_producers_iff (h : g.Consistent) :
    g.producers.contains s = true ↔ ∃ n ∈ g.nodes, s ∈ n.outputs := by
  rw [← exists_produces_iff, ExtTreeMap.contains_eq_isSome_getElem?, Option.isSome_iff_ne_none]
  constructor
  · intro hs
    obtain ⟨i, hi⟩ := Option.ne_none_iff_exists'.mp hs
    exact ⟨i, ((h.producer?_iff s i).mp hi).1⟩
  · rintro ⟨i, hi⟩
    exact h.producer?_ne_none hi

/-- A node is added at the end, or an equal one is in the graph, which stays as it is. -/
theorem add_cases (g : Graph) (n : Node) :
    (g.add n = (g.insert n, g.size) ∧ ∀ m ∈ g.nodes, m.same n = false) ∨
      ∃ i m, g.add n = (g, i) ∧ g.nodes[i]? = some m ∧ m.same n = true := by
  unfold add
  cases hp : g.position? n with
  | none => exact .inl ⟨rfl, List.findIdx?_eq_none_iff.mp hp⟩
  | some i =>
      obtain ⟨hi, hsame, -⟩ := List.findIdx?_eq_some_iff_getElem.mp hp
      exact .inr ⟨i, g.nodes[i], rfl, List.getElem?_eq_getElem hi, hsame⟩

theorem Built.add_of_same (h : g.Built) {i : Nat} (hm : g.nodes[i]? = some m)
    (hsame : m.same n = true) : g.add n = (g, i) := by
  rcases g.add_cases n with ⟨-, hapart⟩ | ⟨j, k, hadd, hk, hk'⟩
  · rw [hapart m (List.mem_of_getElem? hm)] at hsame
    exact absurd hsame Bool.false_ne_true
  · rw [hadd, h.eq_of_same hk hm (Node.same_trans hk' (Node.same_symm hsame))]

theorem Consistent.addTerminal_cases (h : g.Consistent) (s : Specification) :
    (g.addTerminal s = ({ g with terminal := g.terminal.insert s }, true) ∧
        ∃ n ∈ g.nodes, s ∈ n.outputs) ∨
      (g.addTerminal s = (g, false) ∧ ¬∃ n ∈ g.nodes, s ∈ n.outputs) := by
  rw [← h.contains_producers_iff]
  unfold addTerminal
  split
  · next hc => exact .inl ⟨rfl, hc⟩
  · next hc => exact .inr ⟨rfl, hc⟩

theorem Built.exists_of_mem_terminal (h : g.Built) (hs : s ∈ g.terminal) :
    ∃ n ∈ g.nodes, s ∈ n.outputs := by
  induction h with
  | empty configuration => exact absurd hs ExtTreeSet.not_mem_empty
  | @add g n _ ih =>
      rcases g.add_cases n with ⟨hadd, -⟩ | ⟨i, m, hadd, -⟩
      · rw [hadd] at hs ⊢
        obtain ⟨m, hm, hsm⟩ := ih hs
        exact ⟨m, List.mem_append_left _ hm, hsm⟩
      · rw [hadd] at hs ⊢
        exact ih hs
  | @addTerminal g output hg ih =>
      rcases hg.consistent.addTerminal_cases output with ⟨hadd, hproduced⟩ | ⟨hadd, -⟩
      · rw [hadd] at hs ⊢
        rcases ExtTreeSet.mem_insert.mp hs with he | hs
        · exact LawfulEqOrd.eq_of_compare he ▸ hproduced
        · exact ih hs
      · rw [hadd] at hs ⊢
        exact ih hs
  | @ofKept g kept _ _ _ =>
      rw [nodes_ofKept]
      exact (mem_terminal_ofKept.mp hs).2

/-- However a graph was built, its nodes are pairwise different; the index has an entry for the
outputs of nodes and for nothing else, namely the position of the last node that has the output;
and terminal outputs are outputs of nodes. An output is taken in as a terminal one exactly if a
node has it, and nothing changes otherwise. A node is added at the end unless an equal one is in
the graph, which is then given back, and the graph stays as it is. -/
theorem index_and_terminals_in_step (h : g.Built) :
    (g.nodes.Pairwise fun m n => m.same n = false) ∧
    (∀ s, g.producers.contains s = true ↔ ∃ n ∈ g.nodes, s ∈ n.outputs) ∧
    (∀ s i, g.producer? s = some i ↔ g.Produces s i ∧ ∀ j, i < j → ¬g.Produces s j) ∧
    (∀ s ∈ g.terminal, ∃ n ∈ g.nodes, s ∈ n.outputs) ∧
    (∀ s, ((g.addTerminal s).2 = true ↔ ∃ n ∈ g.nodes, s ∈ n.outputs) ∧
      ((g.addTerminal s).2 = true →
        (g.addTerminal s).1 = { g with terminal := g.terminal.insert s }) ∧
      ((g.addTerminal s).2 = false → (g.addTerminal s).1 = g)) ∧
    ∀ n, ((∀ m ∈ g.nodes, m.same n = false) → g.add n = (g.insert n, g.size)) ∧
      ∀ i m, g.nodes[i]? = some m → m.same n = true → g.add n = (g, i) := by
  have hc := h.consistent
  refine ⟨h.pairwise_not_same.imp Bool.eq_false_of_not_eq_true, fun s => hc.contains_producers_iff,
    hc.producer?_iff, fun s hs => h.exists_of_mem_terminal hs, fun s => ?_, fun n => ⟨?_, ?_⟩⟩
  · rcases hc.addTerminal_cases s with ⟨hadd, hs⟩ | ⟨hadd, hs⟩
    · simp [hadd, hs]
    · simp [hadd, hs]
  · intro hapart
    rcases g.add_cases n with ⟨hadd, -⟩ | ⟨i, m, -, hm, hsame⟩
    · exact hadd
    · rw [hapart m (List.mem_of_getElem? hm)] at hsame
      exact absurd hsame Bool.false_ne_true
  · intro i m hm hsame
    exact h.add_of_same hm hsame

namespace Sample

/-- The two rivals for a price that the view asks for. -/
def wanted : Graph := (rivals.addTerminal (quantity "Price" "1")).1

/-- Accepts the first node that it is asked about, and no other after it. -/
def firstOnly (_ : Node) : StateM Bool Bool := do
  let asked ← get
  set true
  return !asked

def survivor : Graph := ((wanted.extractM firstOnly).run false).1

end Sample
open Sample

/-- The rival that is left takes over the index entry and keeps the terminal output. -/
theorem survivor_in_step : survivor.Built ∧ survivor.nodes = [pricing "first"] ∧
    wanted.producer? (quantity "Price" "1") = some 1 ∧
    survivor.producer? (quantity "Price" "1") = some 0 ∧
    quantity "Price" "1" ∈ survivor.terminal ∧
    (∃ n ∈ survivor.nodes, quantity "Price" "1" ∈ n.outputs) ∧
    survivor.add (pricing "first") = (survivor, 0) := by
  have hwanted : wanted.Built := (built_graph _ _).addTerminal _
  have hbuilt : survivor.Built := hwanted.extractM _ _
  have hnodes : survivor.nodes = [pricing "first"] := by decide +kernel
  have hterminal : quantity "Price" "1" ∈ survivor.terminal := by decide +kernel
  obtain ⟨-, -, hlast, hproduced, -, hadd⟩ := index_and_terminals_in_step hbuilt
  refine ⟨hbuilt, hnodes, by decide +kernel, (hlast _ _).mpr ⟨⟨pricing "first", ?_, ?_⟩, ?_⟩,
    hterminal, hproduced _ hterminal, (hadd _).2 0 (pricing "first") ?_ (Node.same_refl _)⟩
  · rw [hnodes]
    rfl
  · decide +kernel
  · intro j hj hp
    have hlt : j < 1 := by simpa [size, hnodes] using hp.lt_size
    omega
  · rw [hnodes]
    rfl

end Graph
end ValuationCycle
