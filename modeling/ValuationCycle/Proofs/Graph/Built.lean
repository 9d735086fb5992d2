import Mathlib.Data.List.Nodup
import Mathlib.Data.Fintype.EquivFin
import Mathlib.Order.WellFounded
import ValuationCycle.Proofs.Graph.Edges
import ValuationCycle.Proofs.Json.Sameness

/-!
# Graphs as they come about

A graph is built from an empty one by adding nodes and terminal outputs, and a
part of a graph by keeping some of its nodes in their order. In such a graph no
node comes twice, and the producer of an output is the last node that has it.
-/
namespace ValuationCycle
open Json Relation Std

theorem Node.same_refl (n : Node) : n.same n = true := by
  simp [Node.same, BoundFunction.same, Parameters.same, Value.same, Raw.same_refl]

namespace Graph

inductive Built : Graph → Prop
  | empty (configuration : String) : Built (empty configuration)
  | add {g : Graph} (n : Node) : Built g → Built (g.add n).1
  | addTerminal {g : Graph} (output : Specification) : Built g → Built (g.addTerminal output).1
  | ofKept {g : Graph} {kept : List Node} : Built g → kept.Sublist g.nodes → Built (g.ofKept kept)

theorem Built.extract {g : Graph} (h : g.Built) (accepts : Node → Bool) :
    (g.extract accepts).Built := h.ofKept List.filter_sublist

def Produces (g : Graph) (s : Specification) (i : Nat) : Prop :=
  ∃ n, g.nodes[i]? = some n ∧ s ∈ n.outputs

theorem Produces.lt_size {g : Graph} {s : Specification} {i : Nat} (h : g.Produces s i) :
    i < g.size := by
  obtain ⟨n, hn, -⟩ := h
  exact (List.getElem?_eq_some_iff.mp hn).choose

structure Consistent (g : Graph) : Prop where
  nodup : g.nodes.Nodup
  producer?_iff : ∀ s i, g.producer? s = some i ↔ g.Produces s i ∧ ∀ j, i < j → ¬g.Produces s j

theorem consistent_empty (configuration : String) : (empty configuration).Consistent :=
  ⟨List.nodup_nil, by simp [producer?, empty, Produces]⟩

theorem producer?_insert (g : Graph) (n : Node) (s : Specification) :
    (g.insert n).producer? s = if s ∈ n.outputs then some g.size else g.producer? s := by
  have hfold : ∀ (l : List Specification) (m : ExtTreeMap Specification Nat),
      (l.foldl (fun m output => m.insert output g.size) m)[s]? =
        if s ∈ l then some g.size else m[s]? := by
    intro l
    induction l with
    | nil => simp
    | cons a l ih =>
        intro m
        rw [List.foldl_cons, ih, ExtTreeMap.getElem?_insert]
        by_cases hs : s ∈ l
        · simp [hs]
        · by_cases ha : s = a
          · simp [ha]
          · have hne : compare a s ≠ .eq := fun he => ha (LawfulEqOrd.eq_of_compare he).symm
            simp [hs, ha, hne]
  unfold producer? insert
  rw [hfold]
  simp

theorem produces_insert {g : Graph} {n : Node} {s : Specification} {i : Nat} :
    (g.insert n).Produces s i ↔ g.Produces s i ∨ i = g.size ∧ s ∈ n.outputs := by
  have hnodes : (g.insert n).nodes = g.nodes ++ [n] := rfl
  simp only [Produces, hnodes, List.getElem?_append]
  by_cases hi : i < g.nodes.length
  · have hne : i ≠ g.size := Nat.ne_of_lt hi
    simp [hi, hne]
  · have hnone : g.nodes[i]? = none := List.getElem?_eq_none (by omega)
    rw [if_neg hi, hnone]
    by_cases he : i = g.size
    · subst he
      simp [size]
    · have : i - g.nodes.length ≠ 0 := fun h0 => he (show i = g.nodes.length by omega)
      simp [this, he]

theorem Consistent.insert {g : Graph} {n : Node} (h : g.Consistent) (hn : n ∉ g.nodes) :
    (g.insert n).Consistent := by
  refine ⟨?_, fun s i => ?_⟩
  · exact List.nodup_append.mpr ⟨h.nodup, by simp, by
      rintro a ha b hb rfl
      exact hn (List.mem_singleton.mp hb ▸ ha)⟩
  · rw [producer?_insert]
    by_cases hs : s ∈ n.outputs
    · rw [if_pos hs, Option.some.injEq]
      constructor
      · rintro rfl
        refine ⟨produces_insert.mpr (.inr ⟨rfl, hs⟩), fun j hj hp => ?_⟩
        rcases produces_insert.mp hp with hp | ⟨rfl, -⟩
        · exact absurd hp.lt_size (by omega)
        · omega
      · rintro ⟨hp, hlast⟩
        rcases produces_insert.mp hp with hp | ⟨rfl, -⟩
        · exact absurd (produces_insert.mpr (.inr ⟨rfl, hs⟩)) (hlast _ hp.lt_size)
        · rfl
    · rw [if_neg hs, h.producer?_iff]
      simp only [produces_insert, hs, and_false, or_false]

theorem Consistent.ofNodes (configuration : String) {nodes : List Node} (hn : nodes.Nodup) :
    (nodes.foldl Graph.insert (empty configuration)).Consistent ∧
      (nodes.foldl Graph.insert (empty configuration)).nodes = nodes := by
  induction nodes using List.reverseRecOn with
  | nil => exact ⟨consistent_empty configuration, rfl⟩
  | append_singleton nodes n ih =>
      obtain ⟨hnodes, -, hdis⟩ := List.nodup_append.mp hn
      obtain ⟨hc, he⟩ := ih hnodes
      rw [List.foldl_append]
      refine ⟨hc.insert ?_, ?_⟩
      · rw [he]
        exact fun hm => hdis n hm n (by simp) rfl
      · change (nodes.foldl Graph.insert (empty configuration)).nodes ++ [n] = _
        rw [he]

theorem nodes_ofKept (g : Graph) (kept : List Node) : (g.ofKept kept).nodes = kept := by
  have hfold : ∀ (kept : List Node) (g : Graph),
      (kept.foldl Graph.insert g).nodes = g.nodes ++ kept := by
    intro kept
    induction kept with
    | nil => simp
    | cons n kept ih =>
        intro g
        rw [List.foldl_cons, ih]
        simp [Graph.insert]
  exact hfold kept _

theorem Built.consistent {g : Graph} (h : g.Built) : g.Consistent := by
  induction h with
  | empty configuration => exact consistent_empty configuration
  | @add g n _ ih =>
      unfold Graph.add
      split
      · exact ih
      · next hp =>
          refine ih.insert fun hn => ?_
          have := List.findIdx?_eq_none_iff.mp hp n hn
          simp [Node.same_refl] at this
  | @addTerminal g output _ ih =>
      unfold Graph.addTerminal
      split
      · exact ⟨ih.nodup, ih.producer?_iff⟩
      · exact ih
  | @ofKept g kept _ hk ih =>
      have h := (Consistent.ofNodes g.configuration (hk.nodup ih.nodup)).1
      exact ⟨h.nodup, h.producer?_iff⟩

/-- No output has two producers. -/
def Disjoint (g : Graph) : Prop := ∀ s i j, g.Produces s i → g.Produces s j → i = j

theorem Consistent.producer?_eq_some {g : Graph} (h : g.Consistent) (hd : g.Disjoint)
    {s : Specification} {i : Nat} : g.producer? s = some i ↔ g.Produces s i := by
  rw [h.producer?_iff]
  refine ⟨And.left, fun hp => ⟨hp, fun j hj hpj => ?_⟩⟩
  have := hd s i j hp hpj
  omega

theorem Consistent.edge_lt {g : Graph} (h : g.Consistent) {i j : Nat} (he : g.Edge i j) :
    j < g.size := by
  obtain ⟨n, -, -, s, -, hp⟩ := edge_iff.mp he
  exact ((h.producer?_iff s j).mp hp).1.lt_size

/-- Every way along edges from the position ends: none comes back to a position
that it has passed. -/
def Grounded (g : Graph) (i : Nat) : Prop :=
  ∀ k, ReflTransGen g.Edge i k → ¬TransGen g.Edge k k

theorem Acyclic.grounded {g : Graph} (h : g.Acyclic) (i : Nat) : g.Grounded i := fun k _ => h k

theorem Grounded.edge {g : Graph} {i j : Nat} (h : g.Grounded i) (he : g.Edge i j) :
    g.Grounded j := fun k hk => h k (hk.head he)

/-- Induction along edges from a position where every way ends. -/
theorem Grounded.induction {g : Graph} (hc : g.Consistent) {p : Nat → Prop}
    (hp : ∀ i, i < g.size → g.Grounded i → (∀ j, g.Edge i j → p j) → p i) {i : Nat}
    (hi : i < g.size) (h : g.Grounded i) : p i := by
  let S := {k : Fin g.size // g.Grounded k}
  have hwf : WellFounded fun a b : S => TransGen g.Edge b.1 a.1 := by
    have htrans : IsTrans S fun a b => TransGen g.Edge b.1 a.1 :=
      ⟨fun a b c hab hbc => hbc.trans hab⟩
    have hirrefl : Std.Irrefl fun a b : S => TransGen g.Edge b.1 a.1 :=
      ⟨fun a ha => a.2 a.1 .refl ha⟩
    exact Finite.wellFounded_of_trans_of_irrefl _
  have hall : ∀ a : S, p a.1 := by
    intro a
    induction a using hwf.induction with
    | _ a ih =>
        refine hp a.1 a.1.2 a.2 fun j hj => ?_
        exact ih ⟨⟨j, hc.edge_lt hj⟩, a.2.edge hj⟩ (.single hj)
  exact hall ⟨⟨i, hi⟩, h⟩

theorem Sample.built_graph (configuration : String) (nodes : List Node) :
    (Sample.graph configuration nodes).Built := by
  have hfold : ∀ (nodes : List Node) (g : Graph), g.Built →
      (nodes.foldl (fun g n => (g.add n).1) g).Built := by
    intro nodes
    induction nodes with
    | nil => exact fun _ h => h
    | cons n nodes ih => exact fun g h => ih _ (h.add n)
  exact hfold nodes _ (.empty configuration)

end Graph
end ValuationCycle
