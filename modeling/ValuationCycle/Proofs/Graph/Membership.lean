import ValuationCycle.Proofs.Graph.Built

/-!
# Membership in a graph

A node is looked up by its first output: the producer of that output is compared, and it is the
last node that has the output. So a node of the graph is found unless a node behind it has its
first output as well. A node without outputs is looked for among all nodes.
-/
namespace ValuationCycle
open Std

namespace Node
variable {m n : Node} {s : Specification}

def firstOutput? (n : Node) : Option Specification := n.outputs.toList.head?

theorem mem_outputs_of_firstOutput? (h : n.firstOutput? = some s) : s ∈ n.outputs :=
  ExtTreeSet.mem_toList.mp (List.mem_of_head? h)

theorem same_symm (h : m.same n = true) : n.same m = true := by
  simp only [same, BoundFunction.same, Parameters.same, Bool.and_eq_true, beq_iff_eq] at h ⊢
  obtain ⟨⟨⟨⟨⟨hid, hkind⟩, htype, hpayload⟩, htarget⟩, hinputs⟩, houtputs⟩ := h
  exact ⟨⟨⟨⟨⟨hid.symm, hkind.symm⟩, htype.symm, Json.Value.same_symm hpayload⟩, htarget.symm⟩,
    hinputs.symm⟩, houtputs.symm⟩

theorem same_trans {k : Node} (h : m.same n = true) (h' : n.same k = true) : m.same k = true := by
  simp only [same, BoundFunction.same, Parameters.same, Bool.and_eq_true, beq_iff_eq] at h h' ⊢
  obtain ⟨⟨⟨⟨⟨hid, hkind⟩, htype, hpayload⟩, htarget⟩, hinputs⟩, houtputs⟩ := h
  obtain ⟨⟨⟨⟨⟨hid', hkind'⟩, htype', hpayload'⟩, htarget'⟩, hinputs'⟩, houtputs'⟩ := h'
  exact ⟨⟨⟨⟨⟨hid.trans hid', hkind.trans hkind'⟩, htype.trans htype',
    Json.Value.same_trans hpayload hpayload'⟩, htarget.trans htarget'⟩, hinputs.trans hinputs'⟩,
    houtputs.trans houtputs'⟩

theorem outputs_eq_of_same (h : m.same n = true) : m.outputs = n.outputs := by
  simp only [same, Bool.and_eq_true, beq_iff_eq] at h
  exact h.2

theorem firstOutput?_eq_of_same (h : m.same n = true) : m.firstOutput? = n.firstOutput? := by
  rw [firstOutput?, outputs_eq_of_same h, firstOutput?]

end Node

namespace Graph
variable {g : Graph} {n : Node} {s : Specification}

theorem Built.pairwise_not_same (h : g.Built) :
    g.nodes.Pairwise fun m n => ¬m.same n = true := by
  induction h with
  | empty configuration => exact .nil
  | @add g n _ ih =>
      unfold Graph.add
      split
      · exact ih
      · next hp =>
          refine List.pairwise_append.mpr ⟨ih, List.pairwise_singleton _ _, fun m hm k hk => ?_⟩
          obtain rfl := List.mem_singleton.mp hk
          rw [List.findIdx?_eq_none_iff.mp hp m hm]
          exact Bool.false_ne_true
  | @addTerminal g output _ ih =>
      unfold Graph.addTerminal
      split <;> exact ih
  | @ofKept g kept _ hk ih => exact (nodes_ofKept g kept).symm ▸ ih.sublist hk

theorem Built.eq_of_same (h : g.Built) {i j : Nat} {m : Node} (hm : g.nodes[i]? = some m)
    (hn : g.nodes[j]? = some n) (hsame : m.same n = true) : i = j := by
  obtain ⟨hi, rfl⟩ := List.getElem?_eq_some_iff.mp hm
  obtain ⟨hj, rfl⟩ := List.getElem?_eq_some_iff.mp hn
  have hapart := List.pairwise_iff_getElem.mp h.pairwise_not_same
  rcases Nat.lt_trichotomy i j with hlt | rfl | hlt
  · exact absurd hsame (hapart i j hi hj hlt)
  · rfl
  · exact absurd (Node.same_symm hsame) (hapart j i hj hi hlt)

theorem Consistent.producer?_ne_none (h : g.Consistent) {i : Nat} (hp : g.Produces s i) :
    g.producer? s ≠ none := by
  classical
  have hlast := Nat.findGreatest_spec (P := g.Produces s) hp.lt_size.le hp
  have hafter : ∀ j, Nat.findGreatest (g.Produces s) g.size < j → ¬g.Produces s j :=
    fun j hj hpj => Nat.findGreatest_is_greatest hj hpj.lt_size.le hpj
  rw [(h.producer?_iff s _).mpr ⟨hlast, hafter⟩]
  exact Option.some_ne_none _

/-- A node behind the position has the first output of the given node. -/
def Hidden (g : Graph) (i : Nat) (n : Node) : Prop :=
  ∃ s, n.firstOutput? = some s ∧ ∃ j, i < j ∧ g.Produces s j

theorem contains_of_firstOutput?_none (hn : n.firstOutput? = none) :
    g.contains n = true ↔ ∃ m ∈ g.nodes, m.same n = true := by
  rw [Node.firstOutput?] at hn
  simp [contains, hn]

theorem contains_of_producer?_none (hn : n.firstOutput? = some s) (hs : g.producer? s = none) :
    g.contains n = true ↔ ∃ m ∈ g.nodes, m.same n = true := by
  rw [Node.firstOutput?] at hn
  simp [contains, hn, hs]

theorem contains_of_producer? {i : Nat} {m : Node} (hn : n.firstOutput? = some s)
    (hs : g.producer? s = some i) (hi : g.nodes[i]? = some m) : g.contains n = m.same n := by
  rw [Node.firstOutput?] at hn
  simp [contains, hn, hs, hi]

/-- A node that is equal to a node of the graph has its first output produced there. -/
theorem produces_of_same {i : Nat} {m : Node} (hi : g.nodes[i]? = some m)
    (hm : m.same n = true) (hn : n.firstOutput? = some s) : g.Produces s i :=
  ⟨m, hi, Node.outputs_eq_of_same hm ▸ Node.mem_outputs_of_firstOutput? hn⟩

/-- If the first output has a producer, only this one can be found: it is the last one. -/
theorem Consistent.contains_iff_of_producer? (h : g.Consistent) {i : Nat}
    (hn : n.firstOutput? = some s) (hp : g.producer? s = some i) : g.contains n = true ↔
    ∃ i m, g.nodes[i]? = some m ∧ m.same n = true ∧ ¬g.Hidden i n := by
  have hhidden : ∀ i, g.Hidden i n ↔ ∃ j, i < j ∧ g.Produces s j := by simp [Hidden, hn]
  obtain ⟨⟨k, hk, -⟩, hlast⟩ := (h.producer?_iff s i).mp hp
  rw [contains_of_producer? hn hp hk]
  constructor
  · intro hsame
    refine ⟨i, k, hk, hsame, fun hh => ?_⟩
    obtain ⟨j, hj, hpj⟩ := (hhidden i).mp hh
    exact hlast j hj hpj
  · rintro ⟨j, m, hj, hm, hno⟩
    have hlater : g.producer? s = some j := (h.producer?_iff s j).mpr
      ⟨produces_of_same hj hm hn, fun l hl hpl => hno ((hhidden j).mpr ⟨l, hl, hpl⟩)⟩
    obtain rfl := Option.some.inj (hp.symm.trans hlater)
    obtain rfl := Option.some.inj (hk.symm.trans hj)
    exact hm

/-- A node is found exactly if an equal one is in the graph and not hidden. -/
theorem Consistent.contains_iff (h : g.Consistent) : g.contains n = true ↔
    ∃ i m, g.nodes[i]? = some m ∧ m.same n = true ∧ ¬g.Hidden i n := by
  have hscan : (∃ m ∈ g.nodes, m.same n = true) ↔
      ∃ (i : Nat) (m : Node), g.nodes[i]? = some m ∧ m.same n = true := by
    simp only [List.mem_iff_getElem?]
    grind
  cases hn : n.firstOutput? with
  | none =>
      have hbare : ∀ i, ¬g.Hidden i n := fun i ⟨s, hs, _⟩ => by simp [hn] at hs
      rw [contains_of_firstOutput?_none hn, hscan]
      simp only [hbare, not_false_eq_true, and_true]
  | some s =>
      cases hp : g.producer? s with
      | none =>
          rw [contains_of_producer?_none hn hp, hscan]
          constructor
          · rintro ⟨i, m, hi, hm⟩
            exact absurd hp (h.producer?_ne_none (produces_of_same hi hm hn))
          · rintro ⟨i, m, hi, hm, -⟩
            exact ⟨i, m, hi, hm⟩
      | some i => exact h.contains_iff_of_producer? hn hp

/-- A node that is added because no equal one is there is found. -/
theorem Built.contains_add (h : g.Built) : (g.add n).1.contains n = true ↔
    g.position? n = none ∨ g.contains n = true := by
  cases hp : g.position? n with
  | some i => simp [Graph.add, hp]
  | none =>
      have hc := (h.add n).consistent
      have hadd : (g.add n).1 = g.insert n := by simp [Graph.add, hp]
      rw [hadd] at hc ⊢
      simp only [true_or, iff_true]
      refine hc.contains_iff.mpr ⟨g.size, n, by simp [Graph.insert, size], n.same_refl, ?_⟩
      rintro ⟨s, -, j, hj, hpj⟩
      have hlt : j < g.size + 1 := by simpa [Graph.insert, size] using hpj.lt_size
      omega

/-- A node is found exactly if an equal one is in the graph and no node behind that has its first
output. So the lookup tells of every node whether an equal one is there exactly if no node of
the graph is hidden by one behind it; and a node that was added is found unless an equal one was
there, and not found, before. -/
theorem contains_iff_not_hidden (h : g.Built) :
    (∀ n, g.contains n = true ↔
      ∃ i m, g.nodes[i]? = some m ∧ m.same n = true ∧ ¬g.Hidden i n) ∧
    ((∀ n, g.contains n = true ↔ ∃ m ∈ g.nodes, m.same n = true) ↔
      ∀ i n, g.nodes[i]? = some n → ¬g.Hidden i n) ∧
    ∀ n, (g.add n).1.contains n = true ↔ g.position? n = none ∨ g.contains n = true := by
  have hcontains : ∀ n, g.contains n = true ↔
      ∃ i m, g.nodes[i]? = some m ∧ m.same n = true ∧ ¬g.Hidden i n :=
    fun n => h.consistent.contains_iff
  refine ⟨hcontains, ⟨fun hall i n hn => ?_, fun hall n => ?_⟩, fun n => h.contains_add⟩
  · obtain ⟨j, m, hm, hsame, hno⟩ :=
      (hcontains n).mp ((hall n).mpr ⟨n, List.mem_of_getElem? hn, n.same_refl⟩)
    exact h.eq_of_same hm hn hsame ▸ hno
  · rw [hcontains]
    constructor
    · rintro ⟨i, m, hi, hm, -⟩
      exact ⟨m, List.mem_of_getElem? hi, hm⟩
    · rintro ⟨m, hm, hsame⟩
      obtain ⟨i, hi⟩ := List.mem_iff_getElem?.mp hm
      refine ⟨i, m, hi, hsame, fun ⟨s, hs, hj⟩ => hall i m hi ⟨s, ?_, hj⟩⟩
      rw [Node.firstOutput?_eq_of_same hsame, hs]

namespace Sample

def pricing (functionId : String) : Node :=
  step functionId .security [] (quantity "Price" "1")

def rivals : Graph := graph "Default" [pricing "first", pricing "second"]

end Sample
open Sample

/-- Of two nodes with the same output the one added first is in the graph and yet is not found,
not even right after it was added again and given back. -/
theorem first_of_rivals_is_not_found : rivals.Built ∧ pricing "first" ∈ rivals.nodes ∧
    rivals.contains (pricing "first") = false ∧
    rivals.add (pricing "first") = (rivals, 0) := by
  refine ⟨built_graph _ _, by decide +kernel, by decide +kernel, ?_⟩
  have hposition : rivals.position? (pricing "first") = some 0 := by decide +kernel
  rw [Graph.add, hposition]

/-- The other one is found: no node is behind it. -/
theorem second_of_rivals_is_found : rivals.Built ∧ rivals.contains (pricing "second") = true := by
  refine ⟨built_graph _ _, ((contains_iff_not_hidden (built_graph _ _)).1 (pricing "second")).mpr
    ⟨1, pricing "second", rfl, by decide +kernel, ?_⟩⟩
  rintro ⟨s, -, j, hj, hp⟩
  have hlt : j < 2 := hp.lt_size
  omega

end Graph
end ValuationCycle
