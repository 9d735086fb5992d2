import ValuationCycle.Cycle.Carry
import ValuationCycle.Proofs.Cycle.Preparing
import ValuationCycle.Proofs.Graph.Built
import ValuationCycle.Proofs.Graph.Delta

/-!
# What is carried over

With a node that is not live, all nodes that it takes inputs from are taken over.
What the previous cache has under the outputs of the nodes taken over is copied:
to the private partition of the configuration if some node computes the output,
and else to the partition that all configurations share, where it may replace
what has just been loaded.
-/
namespace ValuationCycle
open Json Std

theorem lastValue?_filterMap (f : Specification → Option Value) (l : List Specification)
    (s : Specification) :
    lastValue? (l.filterMap fun s => (f s).map fun v => ⟨s, v⟩) s =
      if s ∈ l then f s else none := by
  induction l with
  | nil => rfl
  | cons t l ih =>
      cases hf : f t with
      | none =>
          rw [List.filterMap_cons_none (by rw [hf]; rfl), ih]
          by_cases hs : s = t
          · simp [hs, hf]
          · simp [hs]
      | some v =>
          rw [List.filterMap_cons_some (b := ⟨t, v⟩) (by rw [hf]; rfl), lastValue?_cons, ih]
          by_cases hs : s = t
          · subst hs
            by_cases hl : s ∈ l <;> simp [hl, hf]
          · simp [hs, Ne.symm hs]

theorem NodeMarks.mem_executed_foldl {ns : List Node} {m : NodeMarks} {n : Node} :
    n ∈ (ns.foldl (fun m n => m.markExecuted (some n)) m).executed ↔ n ∈ m.executed ∨ n ∈ ns := by
  induction ns generalizing m with
  | nil => simp
  | cons first ns ih =>
      rw [List.foldl_cons, ih]
      simp only [markExecuted, List.mem_insert_iff, List.mem_cons]
      tauto

theorem NodeMarks.failed_foldl (ns : List Node) (m : NodeMarks) :
    (ns.foldl (fun m n => m.markExecuted (some n)) m).failed = m.failed := by
  induction ns generalizing m with
  | nil => rfl
  | cons n ns ih => exact ih (m.markExecuted (some n))

def Cycle.executed (c : Cycle) (configuration : String) : List Node :=
  (c.marks[configuration]?.getD .empty).executed

/-- What a partition has after values of a previous cache went there. -/
def Partition.Overlaid (before after : Partition) (previous : Cache)
    (copied : Specification → Prop) : Prop :=
  ∀ s, (copied s → after[s]? = (previous.get? s).or before[s]?) ∧
    (¬copied s → after[s]? = before[s]?)

namespace Partition.Overlaid
variable {before middle after : Partition} {previous : Cache} {p q : Specification → Prop}

theorem congr (h : before.Overlaid after previous p) (hpq : ∀ s, p s ↔ q s) :
    before.Overlaid after previous q := by
  intro s
  rw [← hpq]
  exact h s

theorem of_get? {previous' : Cache} (h : before.Overlaid after previous p)
    (hread : ∀ s, previous.get? s = previous'.get? s) : before.Overlaid after previous' p := by
  intro s
  rw [← hread]
  exact h s

theorem trans (h : before.Overlaid middle previous p) (h' : middle.Overlaid after previous q) :
    before.Overlaid after previous fun s => p s ∨ q s := by
  intro s
  constructor
  · intro hpq
    by_cases hq : q s
    · rw [(h' s).1 hq]
      by_cases hp : p s
      · rw [(h s).1 hp, ← Option.or_assoc, Option.or_self]
      · rw [(h s).2 hp]
    · rw [(h' s).2 hq, (h s).1 (hpq.resolve_right hq)]
  · intro hpq
    rw [(h' s).2 fun hq => hpq (.inr hq), (h s).2 fun hp => hpq (.inl hp)]

theorem eq_or (h : before.Overlaid after previous p) (s : Specification) :
    after[s]? = before[s]? ∨ p s ∧ after[s]? = previous.get? s := by
  by_cases hp : p s
  · cases hv : previous.get? s with
    | none =>
        left
        rw [(h s).1 hp, hv, Option.none_or]
    | some v =>
        right
        rw [(h s).1 hp, hv, Option.some_or]
        exact ⟨hp, rfl⟩
  · exact .inl ((h s).2 hp)

end Partition.Overlaid

namespace Workspace
variable (w : Workspace) (previous current : CacheHandle) (hint : CacheHint)

def copyAll (ns : List Node) : Workspace :=
  ns.foldl (fun w n => w.copyOutputs previous current hint n) w

theorem copyOutputs_aside (n : Node) :
    Aside current.group w (w.copyOutputs previous current hint n) := aside_updateCache _ rfl

theorem copyOutputs_parts (n : Node) :
    Partition.Overlaid (w.cache current).privatePart
      ((w.copyOutputs previous current hint n).cache current).privatePart (w.cache previous)
      (fun s => hint.isPrivate s = true ∧ s ∈ n.outputs) ∧
    Partition.Overlaid (w.cache current).sharedPart
      ((w.copyOutputs previous current hint n).cache current).sharedPart (w.cache previous)
      (fun s => hint.isPrivate s = false ∧ s ∈ n.outputs) := by
  have hlast : ∀ s, lastValue? (n.outputs.toList.filterMap fun s =>
      ((w.cache previous).get? s).map fun v => ⟨s, v⟩) s =
        if s ∈ n.outputs then (w.cache previous).get? s else none := by
    intro s
    rw [lastValue?_filterMap]
    simp only [ExtTreeSet.mem_toList]
  constructor
  · intro s
    rw [copyOutputs, cache_updateCache, (Cache.putMany_parts hint _ _ s).1, hlast]
    by_cases hp : hint.isPrivate s = true <;> by_cases hs : s ∈ n.outputs <;> simp [hp, hs]
  · intro s
    rw [copyOutputs, cache_updateCache, (Cache.putMany_parts hint _ _ s).2, hlast]
    by_cases hp : hint.isPrivate s = true <;> by_cases hs : s ∈ n.outputs <;> simp [hp, hs]

theorem copyOutputs_private_of_ne (n : Node) {k : CacheHandle} (hk : k ≠ current) :
    ((w.copyOutputs previous current hint n).cache k).privatePart = (w.cache k).privatePart :=
  privatePart_updateCache_of_ne w _ hk

/-- Copying values does not change what is read where they are copied from, be it in the same
group or even in the same cache. -/
theorem get?_copyOutputs (n : Node) (s : Specification) :
    ((w.copyOutputs previous current hint n).cache previous).get? s =
      (w.cache previous).get? s := by
  obtain ⟨hprivate, hshared⟩ := w.copyOutputs_parts previous current hint n
  have hprivate : ((w.copyOutputs previous current hint n).cache previous).privatePart[s]? =
      (w.cache previous).privatePart[s]? ∨
        ((w.copyOutputs previous current hint n).cache previous).privatePart[s]? =
          (w.cache previous).get? s := by
    by_cases hne : previous = current
    · subst hne
      exact (hprivate.eq_or s).imp_right And.right
    · exact .inl (by rw [w.copyOutputs_private_of_ne previous current hint n hne])
  have hshared : ((w.copyOutputs previous current hint n).cache previous).sharedPart[s]? =
      (w.cache previous).sharedPart[s]? ∨
        ((w.copyOutputs previous current hint n).cache previous).sharedPart[s]? =
          (w.cache previous).get? s := by
    by_cases hgroup : previous.group = current.group
    · rw [sharedPart_of_group _ hgroup, w.sharedPart_of_group hgroup]
      exact (hshared.eq_or s).imp_right And.right
    · exact .inl (by rw [(w.copyOutputs_aside previous current hint n).cache_eq previous hgroup])
  rw [Cache.get?] at hprivate hshared ⊢
  rcases hprivate with hp | hp <;> rcases hshared with hs | hs <;> rw [hp, hs]
  · rfl
  · rw [← Option.or_assoc, Option.or_self]
    rfl
  · rw [Option.or_assoc, Option.or_self]
    rfl
  · rw [Option.or_self]
    rfl

theorem copyAll_aside (ns : List Node) :
    Aside current.group w (w.copyAll previous current hint ns) := by
  induction ns generalizing w with
  | nil => exact w.aside_refl _
  | cons n ns ih => exact (w.copyOutputs_aside previous current hint n).trans (ih _)

theorem copyAll_private_of_ne (ns : List Node) {k : CacheHandle} (hk : k ≠ current) :
    ((w.copyAll previous current hint ns).cache k).privatePart = (w.cache k).privatePart := by
  induction ns generalizing w with
  | nil => rfl
  | cons n ns ih =>
      exact (ih (w.copyOutputs previous current hint n)).trans
        (w.copyOutputs_private_of_ne previous current hint n hk)

theorem copyAll_parts (ns : List Node) :
    Partition.Overlaid (w.cache current).privatePart
      ((w.copyAll previous current hint ns).cache current).privatePart (w.cache previous)
      (fun s => hint.isPrivate s = true ∧ ∃ n ∈ ns, s ∈ n.outputs) ∧
    Partition.Overlaid (w.cache current).sharedPart
      ((w.copyAll previous current hint ns).cache current).sharedPart (w.cache previous)
      (fun s => hint.isPrivate s = false ∧ ∃ n ∈ ns, s ∈ n.outputs) := by
  induction ns generalizing w with
  | nil => exact ⟨fun s => by simp [copyAll], fun s => by simp [copyAll]⟩
  | cons n ns ih =>
      obtain ⟨hprivate, hshared⟩ := w.copyOutputs_parts previous current hint n
      obtain ⟨hprivate', hshared'⟩ := ih (w.copyOutputs previous current hint n)
      have hread := w.get?_copyOutputs previous current hint n
      exact ⟨(hprivate.trans (hprivate'.of_get? hread)).congr fun s => by simp [and_or_left],
        (hshared.trans (hshared'.of_get? hread)).congr fun s => by simp [and_or_left]⟩

end Workspace

/-- Some nodes of a graph are taken over, and what a previous cache has under the outputs
that they compute is copied. -/
structure TakenOver (g : Graph) (taken : List Node) (previous before after : Cache) : Prop where
  subset : taken ⊆ g.nodes
  closed : ∀ i n, g.nodes[i]? = some n → n ∈ taken → n.isLive = false →
    ∀ j m, g.Edge i j → g.nodes[j]? = some m → m ∈ taken
  private_eq : Partition.Overlaid before.privatePart after.privatePart previous fun s =>
    (CacheHint.ofGraph g).isPrivate s = true ∧ ∃ n ∈ taken, s ∈ n.outputs

def Delta.unchangedNodes (g : Graph) (current previous : Cache) : List Node :=
  (compute g current previous).unchanged.filterMap fun i => g.nodes[i]?

theorem Delta.unchangedNodes_closed {g : Graph} (hb : g.Built) (hg : g.Acyclic)
    {current previous : Cache} {i j : Nat} {n m : Node} (hi : g.nodes[i]? = some n)
    (hn : n ∈ unchangedNodes g current previous) (hl : n.isLive = false) (he : g.Edge i j)
    (hj : g.nodes[j]? = some m) : m ∈ unchangedNodes g current previous := by
  obtain ⟨k, hk, hkn⟩ := List.mem_filterMap.mp hn
  obtain rfl : k = i := (List.getElem?_inj (List.getElem?_eq_some_iff.mp hkn).choose
    hb.consistent.nodup).mp (hkn.trans hi.symm)
  obtain ⟨hlt, hk⟩ := mem_unchanged.mp hk
  refine List.mem_filterMap.mpr
    ⟨j, mem_unchanged.mpr ⟨hb.consistent.edge_lt he, fun hc => hk ?_⟩, hj⟩
  have hchanged := ((mem_changed hg).mp hc).2
  exact (mem_changed hg).mpr ⟨hlt, (Graph.changed_of_not_live hi hl).mpr ⟨j, he, hchanged⟩⟩

/-- A node that is not live and takes no input from another is never seen to change. -/
theorem Delta.mem_unchangedNodes {g : Graph} (hg : g.Acyclic) {i : Nat} {n : Node}
    (hn : g.nodes[i]? = some n) (hl : n.isLive = false) (hedge : ∀ j, ¬g.Edge i j)
    (current previous : Cache) : n ∈ unchangedNodes g current previous := by
  have hlt : i < g.size := (List.getElem?_eq_some_iff.mp hn).choose
  refine List.mem_filterMap.mpr ⟨i, mem_unchanged.mpr ⟨hlt, fun hc => ?_⟩, hn⟩
  obtain ⟨j, hj, -⟩ := (Graph.changed_of_not_live hn hl).mp ((mem_changed hg).mp hc).2
  exact hedge j hj

/-- A live data sourcing node is not seen to change if its outputs stand for the same. -/
theorem Delta.mem_unchangedNodes_of_live {g : Graph} (hg : g.Acyclic) {i : Nat} {n : Node}
    (hn : g.nodes[i]? = some n) (hl : n.isLive = true) {current previous : Cache}
    (hsame : ∀ s ∈ n.outputs, sameValue (current.get? s) (previous.get? s) = true) :
    n ∈ unchangedNodes g current previous := by
  have hlt : i < g.size := (List.getElem?_eq_some_iff.mp hn).choose
  refine List.mem_filterMap.mpr ⟨i, mem_unchanged.mpr ⟨hlt, fun hc => ?_⟩, hn⟩
  obtain ⟨s, hs, hdiffers⟩ := (Graph.changed_of_live hn hl).mp ((mem_changed hg).mp hc).2
  simp [differs, hsame s hs] at hdiffers

theorem TakenOver.of_unchangedNodes {g : Graph} (hb : g.Built) (hg : g.Acyclic)
    {current previous before after : Cache} {taken : List Node}
    (htaken : ∀ n, n ∈ taken ↔ n ∈ Delta.unchangedNodes g current previous)
    (hprivate : Partition.Overlaid before.privatePart after.privatePart previous fun s =>
      (CacheHint.ofGraph g).isPrivate s = true ∧ ∃ n ∈ taken, s ∈ n.outputs) :
    TakenOver g taken previous before after := by
  refine ⟨fun n hn => ?_, fun i n hi hn hl j k hj hk => ?_, hprivate⟩
  · obtain ⟨i, -, hi⟩ := List.mem_filterMap.mp ((htaken n).mp hn)
    exact List.mem_of_getElem? hi
  · rw [htaken] at hn ⊢
    exact Delta.unchangedNodes_closed hb hg hi hn hl hj hk

namespace Cycle
variable {c previous : Cycle} {w : Workspace} {g : Graph} {group earlier : CacheGroup}

theorem carryConfiguration_eq (w : Workspace) (g : Graph) (current previous : CacheHandle)
    (m : NodeMarks) :
    let ns := Delta.unchangedNodes g (w.cache current) (w.cache previous)
    ∃ note, carryConfiguration w g current previous m =
      (w.copyAll previous current (.ofGraph g) ns,
        ns.foldl (fun m n => m.markExecuted (some n)) m, note) := ⟨_, rfl⟩

/-- What carrying over some configurations comes to, when the caches are in one group and
those of the previous cycle in another. -/
structure TakesOver (earlier group : CacheGroup) (graphs : List (String × Graph)) (c : Cycle)
    (w : Workspace) (c' : Cycle) (w' : Workspace) : Prop where
  cycle_eq : c' = { c with marks := c'.marks }
  marked : ∀ e ∈ graphs, ∃ m, c'.marks[e.1]? = some m
  marks_eq : ∀ name, name ∉ graphs.map Prod.fst → c'.marks[name]? = c.marks[name]?
  aside : Workspace.Aside group w w'
  private_eq : ∀ k, k.configuration ∉ graphs.map Prod.fst →
    (w'.cache k).privatePart = (w.cache k).privatePart
  unchanged : ∀ e ∈ graphs, ∃ current, ∀ n,
    n ∈ c'.executed e.1 ↔ n ∈ Delta.unchangedNodes e.2 current (w.cache ⟨earlier, e.1⟩)
  taken : ∀ e ∈ graphs, TakenOver e.2 (c'.executed e.1) (w.cache ⟨earlier, e.1⟩)
    (w.cache ⟨group, e.1⟩) (w'.cache ⟨group, e.1⟩)
  shared : ∀ k, k.group = group → ∀ s : Specification,
    (w'.cache k).sharedPart[s]? = (w.cache k).sharedPart[s]? ∨
      ∃ e ∈ graphs, (CacheHint.ofGraph e.2).isPrivate s = false ∧
        ∃ n ∈ c'.executed e.1, s ∈ n.outputs ∧
          (w'.cache k).sharedPart[s]? = (w.cache ⟨earlier, e.1⟩).get? s

theorem takesOver_nil : TakesOver earlier group [] c w c w :=
  ⟨rfl, by simp, fun _ _ => rfl, w.aside_refl group, fun _ _ => rfl, by simp, by simp, by simp⟩

theorem TakesOver.cons {c' : Cycle} {w' : Workspace} {name : String}
    {rest : List (String × Graph)} (hgroup : earlier ≠ group) (hb : g.Built) (hg : g.Acyclic)
    (hname : name ∉ rest.map Prod.fst) {ns : List Node} {m : NodeMarks}
    (hns : ns = Delta.unchangedNodes g (w.cache ⟨group, name⟩) (w.cache ⟨earlier, name⟩))
    (hm : ∀ n, n ∈ m.executed ↔ n ∈ ns)
    (h : TakesOver earlier group rest (c.setMarks name m)
      (w.copyAll ⟨earlier, name⟩ ⟨group, name⟩ (.ofGraph g) ns) c' w') :
    TakesOver earlier group ((name, g) :: rest) c w c' w' := by
  have haside := w.copyAll_aside ⟨earlier, name⟩ ⟨group, name⟩ (.ofGraph g) ns
  obtain ⟨hprivate, hshared⟩ := w.copyAll_parts ⟨earlier, name⟩ ⟨group, name⟩ (.ofGraph g) ns
  have hothers : ∀ k, k ≠ ⟨group, name⟩ →
      ((w.copyAll ⟨earlier, name⟩ ⟨group, name⟩ (.ofGraph g) ns).cache k).privatePart =
        (w.cache k).privatePart := fun _ =>
    w.copyAll_private_of_ne ⟨earlier, name⟩ ⟨group, name⟩ (.ofGraph g) ns
  set w₁ := w.copyAll ⟨earlier, name⟩ ⟨group, name⟩ (.ofGraph g) ns with hw₁
  have hmarks : c'.marks[name]? = some m := by
    rw [h.marks_eq name hname]
    exact ExtTreeMap.getElem?_insert_self
  have hexecuted : ∀ n, n ∈ c'.executed name ↔ n ∈ ns := by
    intro n
    rw [executed, hmarks]
    exact hm n
  refine ⟨h.cycle_eq, ?_, ?_, haside.trans h.aside, ?_, ?_, ?_, ?_⟩
  · intro e he
    rcases List.mem_cons.mp he with rfl | he
    · exact ⟨m, hmarks⟩
    · exact h.marked e he
  · intro other ho
    simp only [List.map_cons, List.mem_cons, not_or] at ho
    rw [h.marks_eq other ho.2, setMarks, ExtTreeMap.getElem?_insert,
      if_neg fun he => ho.1 (LawfulEqOrd.eq_of_compare he).symm]
  · intro k hk
    simp only [List.map_cons, List.mem_cons, not_or] at hk
    exact (h.private_eq k hk.2).trans
      (hothers k fun he => hk.1 (congrArg CacheHandle.configuration he))
  · intro e he
    rcases List.mem_cons.mp he with rfl | he
    · exact ⟨_, fun n => by rw [hexecuted, hns]⟩
    · -- the caches that are copied from are in another group, which copying leaves alone
      obtain ⟨current, hcurrent⟩ := h.unchanged e he
      rw [haside.cache_eq _ hgroup] at hcurrent
      exact ⟨current, hcurrent⟩
  · intro e he
    rcases List.mem_cons.mp he with rfl | he
    · refine TakenOver.of_unchangedNodes hb hg (fun n => by rw [hexecuted, hns]) ?_
      rw [h.private_eq _ hname]
      exact hprivate.congr fun s => by simp only [hexecuted]
    · have htaken := h.taken e he
      have hne : (⟨group, e.1⟩ : CacheHandle) ≠ ⟨group, name⟩ := fun hc =>
        hname (List.mem_map.mpr ⟨e, he, congrArg CacheHandle.configuration hc⟩)
      rw [haside.cache_eq _ hgroup] at htaken
      refine ⟨htaken.subset, htaken.closed, ?_⟩
      rw [← hothers _ hne]
      exact htaken.private_eq
  · intro k hk s
    rcases h.shared k hk s with hs | ⟨e, he, hp, n, hn, hsn, hs⟩
    · rw [hs, Workspace.sharedPart_of_group w₁ (h := ⟨group, name⟩) hk,
        Workspace.sharedPart_of_group w (h := ⟨group, name⟩) hk]
      rcases hshared.eq_or s with hsame | ⟨⟨hp, n, hn, hsn⟩, hcopied⟩
      · exact .inl hsame
      · exact .inr ⟨(name, g), by simp, hp, n, (hexecuted n).mpr hn, hsn, hcopied⟩
    · rw [haside.cache_eq _ hgroup] at hs
      exact .inr ⟨e, by simp [he], hp, n, hn, hsn, hs⟩

theorem carryAll_takesOver (hgroup : earlier ≠ group) {graphs : List (String × Graph)}
    (hnames : (graphs.map Prod.fst).Nodup) (hb : ∀ e ∈ graphs, e.2.Built)
    (hg : ∀ e ∈ graphs, e.2.Acyclic)
    (hhandles : ∀ e ∈ graphs, c.handles[e.1]? = some ⟨group, e.1⟩)
    (hmarks : ∀ e ∈ graphs, c.marks[e.1]? = some .empty)
    (hprevious : ∀ e ∈ graphs, previous.handles[e.1]? = some ⟨earlier, e.1⟩) :
    ∃ c' w' notes, carryAll previous c w graphs = ⟨c', w', .ok notes⟩ ∧
      TakesOver earlier group graphs c w c' w' := by
  induction graphs generalizing c w with
  | nil => exact ⟨c, w, [], rfl, takesOver_nil⟩
  | cons e rest ih =>
      obtain ⟨name, g⟩ := e
      simp only [List.map_cons, List.nodup_cons] at hnames
      simp only [List.mem_cons, forall_eq_or_imp] at hb hg hhandles hmarks hprevious
      obtain ⟨note, hcarry⟩ := carryConfiguration_eq w g ⟨group, name⟩ ⟨earlier, name⟩ .empty
      set ns := Delta.unchangedNodes g (w.cache ⟨group, name⟩) (w.cache ⟨earlier, name⟩) with hns
      have hmarks' : ∀ e ∈ rest, (c.setMarks name
          (ns.foldl (fun m n => m.markExecuted (some n)) .empty)).marks[e.1]? = some .empty := by
        intro e he
        have hne : e.1 ≠ name := fun hc => hnames.1 (List.mem_map.mpr ⟨e, he, hc⟩)
        rw [setMarks, ExtTreeMap.getElem?_insert,
          if_neg fun hc => hne (LawfulEqOrd.eq_of_compare hc).symm]
        exact hmarks.2 e he
      obtain ⟨c', w', notes, hrest, htakes⟩ := ih (c := c.setMarks name _)
        (w := w.copyAll ⟨earlier, name⟩ ⟨group, name⟩ (.ofGraph g) ns) hnames.2 hb.2 hg.2
        hhandles.2 hmarks' hprevious.2
      refine ⟨c', w', (name, note) :: notes, ?_, ?_⟩
      · rw [carryAll, hhandles.1, hmarks.1, hprevious.1]
        simp only [hcarry, hrest]
        rfl
      · refine htakes.cons hgroup hb.1 hg.1 hnames.1 hns fun n => ?_
        rw [NodeMarks.mem_executed_foldl]
        simp [NodeMarks.empty]

theorem Prepared.computeDelta {view : View} {t : ValuationTime} (h : Prepared view t group c)
    (hgroup : earlier ≠ group) (hb : ∀ e ∈ view.model.graphs.toList, e.2.Built)
    (hg : ∀ e ∈ view.model.graphs.toList, e.2.Acyclic)
    (hmarks : ∀ name ∈ view.model.names, c.marks[name]? = some .empty)
    (hstate : previous.state = .finished)
    (hprevious : ∀ name ∈ view.model.names, previous.handles[name]? = some ⟨earlier, name⟩) :
    ∃ c' w' notes, c.computeDelta w previous = ⟨c', w', .ok notes⟩ ∧ Prepared view t group c' ∧
      TakesOver earlier group view.model.graphs.toList c w c' w' := by
  have hnames : ∀ e ∈ view.model.graphs.toList, e.1 ∈ view.model.names := fun _ he =>
    EvaluationModel.name_mem he
  obtain ⟨c', w', notes, heq, htakes⟩ := carryAll_takesOver (c := c) (w := w) hgroup
    view.model.nodup_map_fst hb hg
    (fun e he => by rw [h.handle, if_pos (hnames e he)]) (fun e he => hmarks _ (hnames e he))
    (fun e he => hprevious _ (hnames e he))
  refine ⟨c', w', notes, ?_, ?_, htakes⟩
  · have hpermits : c.permits .computeDelta = true := by rw [permits, h.state_eq]; rfl
    rw [Cycle.computeDelta, if_pos hpermits, if_pos hstate, h.view_eq, heq]
  · obtain ⟨hview, htime, hc, hresult, hinterrupted, hhandle, -⟩ := h
    rw [htakes.cycle_eq]
    refine ⟨hview, htime, hc, hresult, hinterrupted, hhandle, fun name hn => ?_⟩
    rw [← view.model.map_fst_toList] at hn
    obtain ⟨e, he, rfl⟩ := List.mem_map.mp hn
    exact htakes.marked e he

end Cycle
end ValuationCycle
