import ValuationCycle.Proofs.Graph.Built

/-!
# Parts of a graph

A part of a graph has the accepted nodes in their order and those terminal
outputs that an accepted node has; its index is made anew from these nodes. So a
part of a part is the part of what both predicates accept. If no output has two
producers, a part has the edges of the whole between the nodes that it keeps, so
it is acyclic, and free of outputs with two producers, when the whole is.
-/
namespace ValuationCycle
open Relation Std

namespace Graph
variable {g : Graph} {accepts : Node → Bool}

theorem nodes_extract (g : Graph) (accepts : Node → Bool) :
    (g.extract accepts).nodes = g.nodes.filter accepts := nodes_ofKept g _

theorem configuration_ofKept (g : Graph) (kept : List Node) :
    (g.ofKept kept).configuration = g.configuration := by
  have hfold : ∀ (kept : List Node) (h : Graph),
      (kept.foldl Graph.insert h).configuration = h.configuration := by
    intro kept
    induction kept with
    | nil => exact fun _ => rfl
    | cons n kept ih => exact fun h => ih (h.insert n)
  exact hfold _ (empty g.configuration)

theorem configuration_extract (g : Graph) (accepts : Node → Bool) :
    (g.extract accepts).configuration = g.configuration := configuration_ofKept g _

/-- The index of a part has an entry for the outputs of its nodes, and for nothing else. -/
theorem contains_producers_ofKept {kept : List Node} {s : Specification} :
    (g.ofKept kept).producers.contains s = true ↔ ∃ n ∈ kept, s ∈ n.outputs := by
  have hcontains : ∀ h : Graph, h.producers.contains s = (h.producer? s).isSome :=
    fun h => ExtTreeMap.contains_eq_isSome_getElem?
  have hfold : ∀ (kept : List Node) (h : Graph), (kept.foldl Graph.insert h).producers.contains s =
      true ↔ (∃ n ∈ kept, s ∈ n.outputs) ∨ h.producers.contains s = true := by
    intro kept
    induction kept with
    | nil => simp
    | cons n kept ih =>
        intro h
        rw [List.foldl_cons, ih, hcontains, hcontains, producer?_insert]
        by_cases hs : s ∈ n.outputs <;> simp [hs]
  have hempty : (empty g.configuration).producers.contains s = false := by simp [empty]
  refine (hfold kept (empty g.configuration)).trans ?_
  rw [hempty]
  simp

theorem mem_terminal_ofKept {kept : List Node} {s : Specification} :
    s ∈ (g.ofKept kept).terminal ↔ s ∈ g.terminal ∧ ∃ n ∈ kept, s ∈ n.outputs := by
  rw [← contains_producers_ofKept (g := g)]
  simp only [ofKept, ExtTreeSet.mem_filter, ExtTreeSet.get_eq, exists_prop]

theorem ofKept_ofKept (g : Graph) {kept kept' : List Node} (hk : ∀ n ∈ kept', n ∈ kept) :
    (g.ofKept kept).ofKept kept' = g.ofKept kept' := by
  have hterminal : ((g.ofKept kept).ofKept kept').terminal = (g.ofKept kept').terminal := by
    refine ExtTreeSet.ext_mem fun s => ?_
    simp only [mem_terminal_ofKept]
    constructor
    · rintro ⟨⟨hs, -⟩, hn⟩
      exact ⟨hs, hn⟩
    · rintro ⟨hs, n, hn, hsn⟩
      exact ⟨⟨hs, n, hk n hn, hsn⟩, n, hn, hsn⟩
  have hconfiguration := configuration_ofKept g kept
  simp only [ofKept] at hterminal hconfiguration ⊢
  rw [hterminal, hconfiguration]

theorem extract_congr {p q : Node → Bool} (h : ∀ n ∈ g.nodes, p n = q n) :
    g.extract p = g.extract q := congrArg g.ofKept (List.filter_congr h)

theorem mem_terminal_extract {s : Specification} : s ∈ (g.extract accepts).terminal ↔
    s ∈ g.terminal ∧ ∃ n ∈ (g.extract accepts).nodes, s ∈ n.outputs := by
  rw [nodes_extract]
  exact mem_terminal_ofKept

theorem extract_extract (g : Graph) (p q : Node → Bool) :
    (g.extract q).extract p = g.extract fun n => q n && p n := by
  have hfilter : (g.nodes.filter q).filter p = g.nodes.filter fun n => q n && p n := by
    rw [List.filter_filter]
    exact List.filter_congr fun n _ => Bool.and_comm _ _
  rw [extract, nodes_extract, hfilter]
  refine g.ofKept_ofKept fun n hn => ?_
  rw [List.mem_filter, Bool.and_eq_true] at hn
  exact List.mem_filter.mpr ⟨hn.1, hn.2.1⟩

theorem mem_nodes_extract {n : Node} :
    n ∈ (g.extract accepts).nodes ↔ n ∈ g.nodes ∧ accepts n = true := by
  rw [nodes_extract, List.mem_filter]

/-- The same node at a position of the part and at one of the whole. -/
def Stands (g : Graph) (accepts : Node → Bool) (i i' : Nat) : Prop :=
  ∃ n, (g.extract accepts).nodes[i]? = some n ∧ g.nodes[i']? = some n

theorem exists_stands {i : Nat} {n : Node} (hn : (g.extract accepts).nodes[i]? = some n) :
    ∃ i', g.Stands accepts i i' := by
  have hmem := (mem_nodes_extract.mp (List.mem_of_getElem? hn)).1
  obtain ⟨i', hi'⟩ := List.mem_iff_getElem?.mp hmem
  exact ⟨i', n, hn, hi'⟩

theorem Consistent.eq_of_stands (hc : g.Consistent) {i i' j' : Nat} (hi : g.Stands accepts i i')
    (hj : g.Stands accepts i j') : i' = j' := by
  obtain ⟨n, hn, hi⟩ := hi
  obtain ⟨m, hm, hj⟩ := hj
  obtain rfl := Option.some.inj (hn.symm.trans hm)
  exact (List.getElem?_inj (List.getElem?_eq_some_iff.mp hi).choose hc.nodup).mp (hi.trans hj.symm)

theorem Built.stands_injective (h : g.Built) {i j i' : Nat} (hi : g.Stands accepts i i')
    (hj : g.Stands accepts j i') : i = j := by
  obtain ⟨n, hn, hi⟩ := hi
  obtain ⟨m, hm, hj⟩ := hj
  obtain rfl := Option.some.inj (hi.symm.trans hj)
  have hnodup := (h.extract accepts).consistent.nodup
  exact (List.getElem?_inj (List.getElem?_eq_some_iff.mp hn).choose hnodup).mp (hn.trans hm.symm)

theorem Disjoint.extract (accepts : Node → Bool) (h : g.Built) (hd : g.Disjoint) :
    (g.extract accepts).Disjoint := by
  rintro s i j ⟨n, hn, hs⟩ ⟨m, hm, hsm⟩
  obtain ⟨i', k, hk, hi⟩ := exists_stands hn
  obtain ⟨j', l, hl, hj⟩ := exists_stands hm
  obtain rfl := Option.some.inj (hn.symm.trans hk)
  obtain rfl := Option.some.inj (hm.symm.trans hl)
  obtain rfl := hd s i' j' ⟨n, hi, hs⟩ ⟨m, hj, hsm⟩
  exact h.stands_injective ⟨n, hn, hi⟩ ⟨m, hm, hj⟩

theorem Built.producer?_extract_iff (h : g.Built) (hd : g.Disjoint) {s : Specification} {j j' : Nat}
    (hj : g.Stands accepts j j') :
    (g.extract accepts).producer? s = some j ↔ g.producer? s = some j' := by
  obtain ⟨m, hm, hm'⟩ := hj
  rw [(h.extract accepts).consistent.producer?_eq_some (hd.extract accepts h),
    h.consistent.producer?_eq_some hd, Produces, Produces, hm, hm']

theorem Built.edge_extract_iff (h : g.Built) (hd : g.Disjoint) {i j i' j' : Nat}
    (hi : g.Stands accepts i i') (hj : g.Stands accepts j j') :
    (g.extract accepts).Edge i j ↔ g.Edge i' j' := by
  have hne : j ≠ i ↔ j' ≠ i' := by
    refine not_congr ⟨?_, ?_⟩
    · rintro rfl
      exact h.consistent.eq_of_stands hj hi
    · rintro rfl
      exact h.stands_injective hj hi
  obtain ⟨n, hn, hn'⟩ := hi
  simp only [edge_iff, hn, hn', Option.some.injEq, exists_eq_left', hne,
    h.producer?_extract_iff hd hj]

def Takes (g : Graph) (n m : Node) : Prop := ∃ j ∈ g.inputNodes n, g.nodes[j]? = some m

theorem takes_iff {n m : Node} :
    g.Takes n m ↔ ∃ j, g.nodes[j]? = some m ∧ ∃ s ∈ n.inputs, g.producer? s = some j := by
  simp only [Takes, inputNodes, List.mem_eraseDups, List.mem_filterMap]
  exact exists_congr fun _ => and_comm

/-- In a part a node takes inputs from the kept ones of those that it takes inputs from in the
whole. -/
theorem Built.takes_extract_iff (h : g.Built) (hd : g.Disjoint) {n m : Node} :
    (g.extract accepts).Takes n m ↔ g.Takes n m ∧ accepts m = true := by
  simp only [takes_iff]
  constructor
  · rintro ⟨j, hm, s, hs, hp⟩
    obtain ⟨j', hj⟩ := exists_stands hm
    have hm' : g.nodes[j']? = some m := by
      obtain ⟨k, hk, hk'⟩ := hj
      rwa [Option.some.inj (hm.symm.trans hk)]
    exact ⟨⟨j', hm', s, hs, (h.producer?_extract_iff hd hj).mp hp⟩,
      (mem_nodes_extract.mp (List.mem_of_getElem? hm)).2⟩
  · rintro ⟨⟨j', hm', s, hs, hp⟩, haccepts⟩
    have hmem : m ∈ (g.extract accepts).nodes :=
      mem_nodes_extract.mpr ⟨List.mem_of_getElem? hm', haccepts⟩
    obtain ⟨j, hm⟩ := List.mem_iff_getElem?.mp hmem
    exact ⟨j, hm, s, hs, (h.producer?_extract_iff hd ⟨m, hm, hm'⟩).mpr hp⟩

theorem Acyclic.extract (accepts : Node → Bool) (h : g.Built) (hd : g.Disjoint) (ha : g.Acyclic) :
    (g.extract accepts).Acyclic := by
  have hstands : ∀ {i j}, (g.extract accepts).Edge i j → ∃ j', g.Stands accepts j j' := by
    intro i j he
    exact exists_stands (List.getElem?_eq_getElem ((h.extract accepts).consistent.edge_lt he))
  have htrans : ∀ {i j i'}, TransGen (g.extract accepts).Edge i j → g.Stands accepts i i' →
      ∃ j', g.Stands accepts j j' ∧ TransGen g.Edge i' j' := by
    intro i j i' hij hi
    induction hij with
    | single he =>
        obtain ⟨j', hj⟩ := hstands he
        exact ⟨j', hj, .single ((h.edge_extract_iff hd hi hj).mp he)⟩
    | tail _ he ih =>
        obtain ⟨k', hk, hik⟩ := ih
        obtain ⟨j', hj⟩ := hstands he
        exact ⟨j', hj, hik.tail ((h.edge_extract_iff hd hk hj).mp he)⟩
  intro i hi
  obtain ⟨j, -, he⟩ := TransGen.tail'_iff.mp hi
  obtain ⟨i', hi'⟩ := hstands he
  obtain ⟨j', hj', hcycle⟩ := htrans hi hi'
  obtain rfl := h.consistent.eq_of_stands hi' hj'
  exact ha i' hcycle

/-- Asking has no other effect than the questions, one for each node in the order of the nodes. -/
theorem extractM_ask {m : Type → Type} [Monad m] [LawfulMonad m] (g : Graph) (ask : Node → m Unit)
    (accepts : Node → Bool) :
    (g.extractM fun n => do ask n; return accepts n) =
      (do g.nodes.forM ask; return g.extract accepts) := by
  have hfold : ∀ nodes kept : List Node,
      (nodes.filterAuxM (fun n => do ask n; return accepts n) kept : m (List Node)) =
        (do nodes.forM ask; return (nodes.filter accepts).reverse ++ kept) := by
    intro nodes
    induction nodes with
    | nil => simp [List.filterAuxM]
    | cons n nodes ih =>
        intro kept
        rw [List.filterAuxM]
        simp only [ih]
        cases ha : accepts n <;> simp [ha]
  simp only [extractM, List.filterM, hfold, bind_assoc, pure_bind, List.append_nil,
    List.reverse_reverse, extract]

/-- Whatever a predicate remembers of the questions before, the nodes that it accepts are kept in
their order. -/
theorem exists_extractM_eq {σ : Type} (g : Graph) (accepts : Node → StateM σ Bool) (memory : σ) :
    ∃ kept : List Node, kept.Sublist g.nodes ∧
      ((g.extractM accepts).run memory).1 = g.ofKept kept := by
  have hfold : ∀ (nodes before : List Node) (memory : σ), ∃ kept : List Node,
      kept.Sublist nodes ∧
        ((nodes.filterAuxM accepts before).run memory).1 = kept.reverse ++ before := by
    intro nodes
    induction nodes with
    | nil => exact fun before memory => ⟨[], .slnil, rfl⟩
    | cons n nodes ih =>
        intro before memory
        cases ha : (accepts n).run memory with
        | mk b later =>
            obtain ⟨kept, hkept, hrun⟩ := ih (cond b (n :: before) before) later
            have hnext : ((nodes.cons n).filterAuxM accepts before).run memory =
                (nodes.filterAuxM accepts (cond b (n :: before) before)).run later := by
              rw [List.filterAuxM, StateT.run_bind, ha]
              rfl
            rw [hnext, hrun]
            cases b with
            | false => exact ⟨kept, hkept.cons n, rfl⟩
            | true => exact ⟨n :: kept, hkept.cons_cons n, by simp⟩
  obtain ⟨kept, hkept, hrun⟩ := hfold g.nodes [] memory
  refine ⟨kept, hkept, ?_⟩
  have hkeep : ((g.extractM accepts).run memory).1 =
      g.ofKept ((g.nodes.filterAuxM accepts []).run memory).1.reverse := rfl
  rw [hkeep, hrun]
  simp

theorem Built.extractM {σ : Type} (h : g.Built) (accepts : Node → StateM σ Bool) (memory : σ) :
    ((g.extractM accepts).run memory).1.Built := by
  obtain ⟨kept, hkept, heq⟩ := g.exists_extractM_eq accepts memory
  exact heq ▸ h.ofKept hkept

/-- Extraction asks about each node once, in their order, and has no effect beside. A part has the
accepted nodes in their order, and those terminal outputs that one of these has. The part of a part
is the part of the whole that both predicates accept, in all that a graph holds; so to take a part
twice is to take it once, and two parts may be taken in either order. If no output has two
producers, the edges of a part are those of the whole between its nodes. -/
theorem extract_keeps_and_composes (h : g.Built) (p q : Node → Bool) :
    (∀ (m : Type → Type) [Monad m] [LawfulMonad m] (ask : Node → m Unit),
      (g.extractM fun n => do ask n; return p n) =
        (do g.nodes.forM ask; return g.extract p)) ∧
    (g.extract p).nodes = g.nodes.filter p ∧
    (∀ s, s ∈ (g.extract p).terminal ↔
      s ∈ g.terminal ∧ ∃ n ∈ (g.extract p).nodes, s ∈ n.outputs) ∧
    ((g.extract q).extract p = g.extract fun n => q n && p n) ∧
    (g.extract p).extract p = g.extract p ∧
    (g.extract q).extract p = (g.extract p).extract q ∧
    (g.Disjoint →
      (∀ i i' j j', g.Stands p i i' → g.Stands p j j' →
        ((g.extract p).Edge i j ↔ g.Edge i' j')) ∧
      ∀ n m, (g.extract p).Takes n m ↔ g.Takes n m ∧ p m = true) := by
  refine ⟨fun m _ _ ask => g.extractM_ask ask p, g.nodes_extract p,
    fun s => mem_terminal_extract, g.extract_extract p q, ?_, ?_, fun hd => ⟨?_, ?_⟩⟩
  · simp only [extract_extract, Bool.and_self]
  · simp only [extract_extract, Bool.and_comm]
  · intro i i' j j' hi hj
    exact h.edge_extract_iff hd hi hj
  · intro n m
    exact h.takes_extract_iff hd

theorem disjoint_of_nodup_outputs (h : g.outputs.Nodup) : g.Disjoint := by
  rintro s i j ⟨n, hn, hs⟩ ⟨m, hm, hsm⟩
  have hapart := List.pairwise_iff_getElem.mp (List.nodup_flatMap.mp h).2
  obtain ⟨hi, rfl⟩ := List.getElem?_eq_some_iff.mp hn
  obtain ⟨hj, rfl⟩ := List.getElem?_eq_some_iff.mp hm
  rw [← ExtTreeSet.mem_toList] at hs hsm
  rcases Nat.lt_trichotomy i j with hlt | rfl | hlt
  · exact (hapart i j hi hj hlt hs hsm).elim
  · rfl
  · exact (hapart j i hj hi hlt hsm hs).elim

namespace Sample

def aside (n : Node) : Bool := n.function.functionId != "left"

def computedAside (n : Node) : Bool := aside n && !n.isLive

end Sample
open Sample

/-- Of the diamond the top and the node on the right are computed aside from the left, and the top
takes an input from the other one as it does in the whole. -/
theorem right_of_diamond : diamond.Built ∧ diamond.Disjoint ∧ diamond.Edge 0 2 ∧
    ((diamond.extract aside).extract fun n => !n.isLive).nodes =
      diamond.nodes.filter computedAside ∧
    ((diamond.extract aside).extract fun n => !n.isLive).Edge 0 1 := by
  have hbuilt : diamond.Built := built_graph _ _
  have hdisjoint : diamond.Disjoint := disjoint_of_nodup_outputs (by decide +kernel)
  have hedge : diamond.Edge 0 2 := by decide +kernel
  have hstands : ∀ i i', (diamond.extract computedAside).nodes[i]? = diamond.nodes[i']? →
      i' < diamond.nodes.length → diamond.Stands computedAside i i' := fun i i' he hi =>
    ⟨_, he.trans (List.getElem?_eq_getElem hi), List.getElem?_eq_getElem hi⟩
  obtain ⟨-, -, -, hcomposes, -⟩ := extract_keeps_and_composes hbuilt (fun n => !n.isLive) aside
  obtain ⟨-, hnodes, -, -, -, -, hedges⟩ := extract_keeps_and_composes hbuilt computedAside aside
  refine ⟨hbuilt, hdisjoint, hedge, ?_, ?_⟩
  · rw [hcomposes]
    exact hnodes
  · rw [hcomposes]
    exact ((hedges hdisjoint).1 0 0 1 2 (hstands 0 0 (by decide +kernel) (by decide +kernel))
      (hstands 1 2 (by decide +kernel) (by decide +kernel))).mpr hedge

end Graph
end ValuationCycle
