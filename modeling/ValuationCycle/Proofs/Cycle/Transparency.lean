import ValuationCycle.Proofs.Cycle.Chains

/-!
# Transparency of carrying over

In a chain of passes each takes over from the one before. It reports what it
would report without taking over if what it takes over is up to date, and, where
every output is reported, only then. What is taken over need not be up to date:
a node is seen to change by its inputs' producers in its own graph only, so a
value that another configuration loads can change under it unnoticed.
-/
namespace ValuationCycle
open Json Std

def Beginning.UpToDate (view : View) (r : Repository) (s : Beginning) : Prop :=
  ∀ e ∈ view.model.graphs.toList, ValuationCycle.UpToDate r (s.carried.cycle.executed e.1)
    (s.prepared.cache e.1) (s.carried.cache e.1)

def Beginning.Undisturbed (view : View) (s : Beginning) (q : Pass) : Prop :=
  ∀ e ∈ view.model.graphs.toList, ValuationCycle.Undisturbed e.2 (s.carried.cycle.executed e.1)
    (q.finished.cache e.1).sharedPart (s.prepared.cache e.1).sharedPart

/-- After a pass every node that is not live has its answer to the values then loaded. -/
def Pass.Plain (view : View) (r : Repository) (p : Pass) : Prop :=
  ∀ e ∈ view.model.graphs.toList, ∃ loaded all,
    (∀ s : Specification, loaded.privatePart[s]? = none) ∧
      Settled r loaded all (p.finished.cache e.1) ∧ e.2.Answering all fun _ => True

namespace Begun
variable {view : View} {w : Workspace} {t : ValuationTime} {previous : Option Cycle}
variable {s : Beginning} {q : Pass} {e : String × Graph}

theorem private_eq_none (h : Begun view t w previous s)
    (hfresh : ∀ k : CacheHandle, k.group = w.caches.currentGroup view.name t → w.cache k = .empty)
    (he : e ∈ view.model.graphs.toList) (u : Specification) :
    (s.prepared.cache e.1).privatePart[u]? = none := by
  rw [h.private_eq _ (EvaluationModel.name_mem he), hfresh _ rfl]
  simp [Cache.empty]

theorem prepared_eq_of_begun {s' : Beginning} (h : Begun view t w previous s)
    (h' : Begun view t w none s') : s'.prepared = s.prepared :=
  Option.some.inj (h'.prepared_eq.symm.trans h.prepared_eq)

theorem upToDate_alone (h : Begun view t w none s) : s.UpToDate view w.repository := by
  intro e he
  obtain ⟨hcarried, hexecuted⟩ := h.alone rfl
  rw [hcarried] at hexecuted ⊢
  rw [hexecuted _ (EvaluationModel.name_mem he)]
  exact ⟨rfl, by simp⟩

/-- A pass that takes over from a plain one, with no change lost, is up to date. -/
theorem upToDate_of_undisturbed (h : Begun view t w previous s)
    (hs : view.Sound w.repository)
    (hfresh : ∀ k : CacheHandle, k.group = w.caches.currentGroup view.name t → w.cache k = .empty)
    (hprevious : ∀ e ∈ view.model.graphs.toList,
      previousCache previous w e.1 = q.finished.cache e.1)
    (hq : q.Plain view w.repository) (hu : s.Undisturbed view q) :
    s.UpToDate view w.repository := by
  have hshared : ∀ e ∈ view.model.graphs.toList,
      (s.carried.cache e.1).sharedPart = (s.prepared.cache e.1).sharedPart := by
    intro e he
    have hn := EvaluationModel.name_mem he
    refine ExtTreeMap.ext_getElem? fun u => ?_
    rcases h.shared e.1 hn u with hsame | ⟨e', he', hp, n, hne, hun, hu'⟩
    · exact hsame
    · have hlive : n.isLive = true := by
        by_contra hl
        have := CacheHint.isPrivate_ofGraph.mpr
          ⟨n, (h.taken e' he').subset hne, Bool.eq_false_iff.mpr hl, hun⟩
        simp [hp] at this
      obtain ⟨loaded, all, hempty, hall, ho⟩ := hq e' he'
      have hnone : (q.finished.cache e'.1).privatePart[u]? = none := by
        rw [hall.untouched u fun o hm => ?_, hempty]
        obtain ⟨hmem, hl, -⟩ := (ho o.1).mp ⟨o.2, hm⟩
        intro huo
        have := CacheHint.isPrivate_ofGraph.mpr ⟨o.1, hmem, hl, huo⟩
        simp [hp] at this
      rw [hu', hprevious e' he', Cache.get?, hnone, Option.none_or,
        ← (hu e' he').live n hne hlive u hun,
        h.shared_eq e'.1 (EvaluationModel.name_mem he') e.1 hn]
  intro e he
  obtain ⟨loaded, all, hempty, hall, ho⟩ := hq e he
  have htaken := h.taken e he
  rw [hprevious e he] at htaken
  exact (hu e he).upToDate (hs e he) htaken (hshared e he) (h.private_eq_none hfresh he) hempty
    hall ho

end Begun

namespace Passed
variable {known : List Specification} {view : View} {w : Workspace} {t : ValuationTime}
variable {previous : Option Cycle} {p plain : Pass} {e : String × Graph}

theorem settled_alone (h' : Passed known view t w none plain)
    (he : e ∈ view.model.graphs.toList) : ∃ all,
    Settled w.repository (plain.prepared.cache e.1) all (plain.finished.cache e.1) ∧
      e.2.Answering all (fun _ => True) ∧ ∀ o ∈ all, o.2.settles = true := by
  obtain ⟨hcarried, hexecuted⟩ := h'.alone rfl
  obtain ⟨all, hall, ho, hsettles⟩ := h'.settled e he
  refine ⟨all, hcarried ▸ hall, fun n => (ho n).trans ?_, hsettles⟩
  rw [hexecuted _ (EvaluationModel.name_mem he)]
  simp

theorem cache_eq_iff (h : Passed known view t w previous p) (h' : Passed known view t w none plain)
    (hs : view.Sound w.repository)
    (hfresh : ∀ k : CacheHandle, k.group = w.caches.currentGroup view.name t → w.cache k = .empty)
    (he : e ∈ view.model.graphs.toList) :
    p.finished.cache e.1 = plain.finished.cache e.1 ↔ UpToDate w.repository
      (p.carried.cycle.executed e.1) (p.prepared.cache e.1) (p.carried.cache e.1) := by
  obtain ⟨answers, hafter, ho, -⟩ := h.settled e he
  obtain ⟨all, hfull, ho', -⟩ := h'.settled_alone he
  rw [h.prepared_eq_of_begun h'.toBegun] at hfull
  exact after_eq_iff_upToDate (hs e he) (h.taken e he) (h.private_eq_none hfresh he) hafter ho
    hfull ho'

theorem value?_congr (h : Passed known view t w previous p) (h' : Passed known view t w none plain)
    (heq : ∀ e ∈ view.model.graphs.toList, p.finished.cache e.1 = plain.finished.cache e.1)
    (name : String) (s : Specification) :
    p.finished.cycle.result.value? name s = plain.finished.cycle.result.value? name s := by
  by_cases hn : name ∈ view.model.names
  · rw [← view.model.map_fst_toList] at hn
    obtain ⟨e, he, rfl⟩ := List.mem_map.mp hn
    rw [h.reported e he, h'.reported e he, heq e he]
  · rw [h.notReported name hn, h'.notReported name hn]

theorem sharedPart_finished (h : Passed known view t w previous p) {name other : String}
    (hn : name ∈ view.model.names) (ho : other ∈ view.model.names) :
    (p.finished.cache name).sharedPart = (p.finished.cache other).sharedPart := by
  rw [h.cache_finished name hn, h.cache_finished other ho]
  exact Workspace.sharedPart_of_group _ rfl

/-- Where every output is reported, caches that are reported alike agree. -/
theorem cache_eq_of_value? (h : Passed known view t w previous p)
    (h' : Passed known view t w none plain)
    (hpolicy : ∀ e ∈ view.model.graphs.toList, ∀ s ∈ e.2.outputs,
      view.definition.policy.reports e.2 s = true)
    (hvalue : ∀ name s,
      p.finished.cycle.result.value? name s = plain.finished.cycle.result.value? name s)
    (he : e ∈ view.model.graphs.toList) : p.finished.cache e.1 = plain.finished.cache e.1 := by
  have hhinted : ∀ e ∈ view.model.graphs.toList, ∀ n ∈ e.2.nodes, ∀ s ∈ n.outputs,
      (p.finished.cache e.1).getHinted? (.ofGraph e.2) s =
        (plain.finished.cache e.1).getHinted? (.ofGraph e.2) s := by
    intro e he n hn s hsn
    have hmem : s ∈ e.2.outputs := List.mem_flatMap.mpr ⟨n, hn, ExtTreeSet.mem_toList.mpr hsn⟩
    have := hvalue e.1 s
    rwa [h.reported e he, h'.reported e he,
      if_pos (List.mem_filter.mpr ⟨hmem, hpolicy e he s hmem⟩),
      if_pos (List.mem_filter.mpr ⟨hmem, hpolicy e he s hmem⟩)] at this
  have hn := EvaluationModel.name_mem he
  obtain ⟨answers, hafter, ho, -⟩ := h.settled e he
  obtain ⟨all, hfull, ho', -⟩ := h'.settled_alone he
  rw [h.prepared_eq_of_begun h'.toBegun] at hfull
  refine Cache.ext_getElem? (ExtTreeMap.ext_getElem? fun s => ?_) fun s => ?_
  · rcases h.shared e.1 hn s with hsame | ⟨e', he', hp, n, hne, hsn, -⟩
    · rw [hafter.shared_eq, hfull.shared_eq, hsame]
    · have hn' := EvaluationModel.name_mem he'
      have hread := hhinted e' he' n ((h.taken e' he').subset hne) s hsn
      simp only [Cache.getHinted?, hp, Bool.false_eq_true, if_false] at hread
      rw [h.sharedPart_finished hn hn', h'.sharedPart_finished hn hn', hread]
  · by_cases hp : (CacheHint.ofGraph e.2).isPrivate s = true
    · obtain ⟨n, hne, -, hsn⟩ := CacheHint.isPrivate_ofGraph.mp hp
      have hread := hhinted e he n hne s hsn
      simpa only [Cache.getHinted?, hp, if_true] using hread
    · have hnone : ∀ {l : List (Node × Answer)} {q : Node → Prop}, e.2.Answering l q →
          ∀ o ∈ l, s ∉ o.1.outputs := by
        rintro l q hl ⟨n, a⟩ hm hsn
        obtain ⟨hmem, hlive, -⟩ := (hl n).mp ⟨a, hm⟩
        exact hp (CacheHint.isPrivate_ofGraph.mpr ⟨n, hmem, hlive, hsn⟩)
      rw [hafter.untouched s (hnone ho), hfull.untouched s (hnone ho'),
        ((h.taken e he).private_eq s).2 fun hc => hp hc.1]

theorem plain_of_upToDate (h : Passed known view t w previous p) (hs : view.Sound w.repository)
    (hfresh : ∀ k : CacheHandle, k.group = w.caches.currentGroup view.name t → w.cache k = .empty)
    (hu : p.UpToDate view w.repository) : p.Plain view w.repository := by
  intro e he
  obtain ⟨answers, hafter, ho, -⟩ := h.settled e he
  have hempty := h.private_eq_none hfresh he
  obtain ⟨all, hall, ho'⟩ := (hu e he).settled_all (hs e he) (h.taken e he) hempty hafter ho
  exact ⟨_, all, hempty, hall, ho'⟩

end Passed

/-- What such a node has once computed is carried from pass to pass. -/
theorem Passed.value_carried {known : List Specification} {view : View} {t : ValuationTime}
    {w : Workspace} {c : Cycle} {p : Pass} (h : Passed known view t w (some c) p)
    (hs : view.Sound w.repository) {e : String × Graph} (he : e ∈ view.model.graphs.toList)
    {i : Nat} {n : Node} (hn : e.2.nodes[i]? = some n) (hl : n.isLive = false)
    (hedge : ∀ j, ¬e.2.Edge i j) {s : Specification} (hsn : s ∈ n.outputs) :
    (p.finished.cache e.1).privatePart[s]? =
      ((previousCache (some c) w e.1).get? s).or (p.prepared.cache e.1).privatePart[s]? := by
  obtain ⟨current, hcurrent⟩ := h.unchanged (by simp) e he
  have hexecuted : n ∈ p.carried.cycle.executed e.1 :=
    (hcurrent n).mpr (Delta.mem_unchangedNodes (hs e he).acyclic hn hl hedge _ _)
  have hmem := List.mem_of_getElem? hn
  obtain ⟨answers, hafter, ho, -⟩ := h.settled e he
  have huntouched := hafter.untouched s fun o hm => by
    obtain ⟨hog, hot⟩ := ho.apart o hm
    intro hso
    obtain rfl := (hs e he).disjoint.eq_of_mem_nodes hmem hog hsn hso
    exact hot hexecuted
  rw [huntouched]
  exact ((h.taken e he).private_eq s).1
    ⟨CacheHint.isPrivate_ofGraph.mpr ⟨n, hmem, hl, hsn⟩, n, hexecuted, hsn⟩

theorem Begun.exists_complete_of_plain {known : List Specification} {view : View} {w : Workspace}
    {t : ValuationTime} {previous : Option Cycle} {s : Beginning} {plain : Pass}
    (h : Begun view t w previous s) (hs : view.Sound w.repository)
    (hw : w.Numbered w.repository known)
    (hknown : ∀ e ∈ view.model.graphs.toList, ∀ n ∈ e.2.nodes, n.inputs ⊆ known)
    (hsize : known.length < 2 ^ 63)
    (hfresh : ∀ k : CacheHandle, k.group = w.caches.currentGroup view.name t → w.cache k = .empty)
    (h' : Passed known view t w none plain) (hu : s.UpToDate view w.repository)
    (stamp : ResultTimestamp) :
    ∃ b finished, Behaviour.Local b ∧ s.carried.complete b stamp = some finished := by
  have hrepository := h.aside.repository_eq
  have hview := h.cycle.view_eq
  have hcache : ∀ e ∈ view.model.graphs.toList, s.carried.workspace.cache
      ⟨w.caches.currentGroup view.name t, e.1⟩ = s.carried.cache e.1 := fun e he =>
    (h.cache_carried _ (EvaluationModel.name_mem he)).symm
  refine h.exists_complete hs hw hknown hsize (fun m => Cycle.safe_requests
    (previousCache previous w) s.prepared.cache plain.finished.cache ?_ ?_ ?_ ?_ ?_) stamp
  · rwa [hview, hrepository]
  · rw [hview]
    intro e he
    rw [hcache e he]
    exact h.taken e he
  · rw [hview]
    exact fun e he => h.private_eq_none hfresh he
  · rw [hview, hrepository]
    intro e he
    rw [hcache e he]
    exact hu e he
  · rw [hview, hrepository, ← h.prepared_eq_of_begun h'.toBegun]
    exact fun e he => h'.settled_alone he

section
variable {known : List Specification} {view : View} {w : Workspace} {passes : List Pass}

theorem Rested.upToDate {market : LiveData} {t : ValuationTime} {s : Beginning}
    (h : Rested known view w passes market) (hs : view.Sound w.repository)
    (ht : ∀ q ∈ passes, q.finished.cycle.time ≠ t)
    (hbegun : Begun view t (resume w passes market)
      (passes.head?.map fun q => q.finished.cycle) s)
    (hplain : ∀ q ∈ passes, q.Plain view w.repository)
    (hu : ∀ q ∈ passes.head?, s.Undisturbed view q) : s.UpToDate view w.repository := by
  have hrepository := h.numbered.repository_eq
  cases passes with
  | nil => exact hrepository ▸ hbegun.upToDate_alone
  | cons q earlier =>
      rw [← hrepository]
      exact hbegun.upToDate_of_undisturbed (hrepository ▸ hs) (h.fresh_group ht) (fun _ _ => rfl)
        (hrepository ▸ hplain q (by simp)) (hu q rfl)

def Undisturbed.Throughout (view : View) (passes : List Pass) : Prop :=
  passes.IsChain fun p q => p.toBeginning.Undisturbed view q

/-- While no change is lost, passes are plain. -/
theorem Chain.plain (hs : view.Sound w.repository) (hw : w.Numbered w.repository known)
    (hknown : ∀ e ∈ view.model.graphs.toList, ∀ n ∈ e.2.nodes, n.inputs ⊆ known)
    (hsize : known.length < 2 ^ 63)
    (hfresh : ∀ k : CacheHandle, k.group.view = view.name → w.cache k = .empty)
    (h : Chain view w passes) (hu : Undisturbed.Throughout view passes) :
    ∀ p ∈ passes, p.Plain view w.repository := by
  induction h with
  | nil => simp
  | @cons passes market t b stamp p hearlier ht hb hp ih =>
      obtain ⟨hhead, htail⟩ := List.isChain_cons.mp hu
      have hrested := hearlier.rested hs hw hknown hsize hfresh market
      have hpassed := hrested.passed hs hknown hsize ht hb (.inr rfl) hp
      have hrepository := hrested.numbered.repository_eq
      have hupToDate := hrested.upToDate hs ht hpassed.toBegun (ih htail) hhead
      intro q hq
      rcases List.mem_cons.mp hq with rfl | hq
      · have hplain := hpassed.plain_of_upToDate (hrepository ▸ hs) (hrested.fresh_group ht)
          (hrepository ▸ hupToDate)
        exact hrepository ▸ hplain
      · exact ih htail q hq

/-- Passes in a chain compared with passes on their own. For acyclic graphs without two
producers of one output, and functions that return values under the outputs of their
nodes only: whenever a pass on its own comes to a result, the pass that takes over from
the last one of the chain begins. It can come to a result if what it took over is up to
date. Its result is then the same, and so are its caches, and these only then. Where every
output is reported the result is the same only then, too. What is taken over is up to date
as long as no pass has lost sight of a change. -/
theorem delta_transparent_iff (view : View) (w : Workspace) (hsound : view.Sound w.repository)
    (hissued : w.identifiers.Issued)
    (hsize : w.identifiers.size + view.inputs.length < 2 ^ 63)
    (hfresh : ∀ k : CacheHandle, k.group.view = view.name → w.cache k = .empty)
    (passes : List Pass) (hchain : Chain view w passes) (market : LiveData) (t : ValuationTime)
    (ht : ∀ q ∈ passes, q.finished.cycle.time ≠ t) (b : Behaviour) (hb : b.Local)
    (stamp : ResultTimestamp) (plain : Pass)
    (hplain : view.pass t none b stamp (resume w passes market) = some plain) :
    let previous := passes.head?.map fun q => q.finished.cycle
    ∃ s, view.begin t previous (resume w passes market) = some s ∧
      (s.UpToDate view w.repository → ∃ b p, Behaviour.Local b ∧
        view.pass t previous b stamp (resume w passes market) = some p) ∧
      ((∀ q ∈ passes.head?, s.Undisturbed view q) → Undisturbed.Throughout view passes →
        s.UpToDate view w.repository) ∧
      ∀ b stamp p, Behaviour.Local b →
        view.pass t previous b stamp (resume w passes market) = some p →
        (s.UpToDate view w.repository ↔
          ∀ e ∈ view.model.graphs.toList, p.finished.cache e.1 = plain.finished.cache e.1) ∧
        (s.UpToDate view w.repository → ∀ name u,
          p.finished.cycle.result.value? name u = plain.finished.cycle.result.value? name u) ∧
        ((∀ e ∈ view.model.graphs.toList, ∀ u ∈ e.2.outputs,
            view.definition.policy.reports e.2 u = true) →
          (∀ name u,
            p.finished.cycle.result.value? name u = plain.finished.cycle.result.value? name u) →
          s.UpToDate view w.repository) := by
  intro previous
  let known := w.identifiers.assigned ++ view.inputs
  have hw : w.Numbered w.repository known :=
    ⟨rfl, hissued.sound, List.subset_append_left _ _⟩
  have hknown : ∀ e ∈ view.model.graphs.toList, ∀ n ∈ e.2.nodes, n.inputs ⊆ known :=
    fun e he n hn u hu => List.mem_append_right _
      (List.mem_flatMap.mpr ⟨e, he, List.mem_flatMap.mpr ⟨n, hn, hu⟩⟩)
  have hlength : known.length < 2 ^ 63 := by simpa [known, Identifiers.size] using hsize
  have hrested := hchain.rested hsound hw hknown hlength hfresh market
  have hrepository := hrested.numbered.repository_eq
  have hempty := hrested.fresh_group ht
  have hplain' := hrested.passed hsound hknown hlength ht hb (.inl rfl) hplain
  obtain ⟨s, hbegin, hbegun⟩ := hrested.exists_begin hsound ht (.inr rfl)
  refine ⟨s, hbegin, fun hu => ?_, fun hhead hthroughout => ?_, fun b stamp p hb hp => ?_⟩
  · obtain ⟨b, finished, hb, hfinished⟩ := hbegun.exists_complete_of_plain (hrepository ▸ hsound)
      (hrepository ▸ hrested.numbered) hknown hlength hempty hplain' (hrepository ▸ hu) stamp
    exact ⟨b, ⟨s, finished⟩, hb, View.pass_eq_some.mpr ⟨hbegin, hfinished⟩⟩
  · exact hrested.upToDate hsound ht hbegun
      (hchain.plain hsound hw hknown hlength hfresh hthroughout) hhead
  · have hpassed := hrested.passed hsound hknown hlength ht hb (.inr rfl) hp
    obtain rfl : s = p.toBeginning :=
      Option.some.inj (hbegin.symm.trans (View.pass_eq_some.mp hp).1)
    have hiff : ∀ e ∈ view.model.graphs.toList,
        p.finished.cache e.1 = plain.finished.cache e.1 ↔ UpToDate w.repository
          (p.carried.cycle.executed e.1) (p.prepared.cache e.1) (p.carried.cache e.1) := by
      intro e he
      rw [← hrepository]
      exact hpassed.cache_eq_iff hplain' (hrepository ▸ hsound) hempty he
    refine ⟨(forall₂_congr hiff).symm, fun hu => ?_, fun hpolicy hvalue e he => ?_⟩
    · exact hpassed.value?_congr hplain' fun e he => (hiff e he).mpr (hu e he)
    · exact (hiff e he).mp (hpassed.cache_eq_of_value? hplain' hpolicy hvalue he)

end

namespace Sample
open Graph.Sample Wire

def spot : Specification := quantity "Spot" "1"

def price : Specification := quantity "Price" "2"

def source : Node := step "1" .liveDataSourcing [] spot

def quoting : Node := step "2" .security [spot] price

def quote : Invoker := ⟨.security, fun i =>
  match i.inputs.get? spot with
  | some v => .returned [⟨price, v⟩]
  | none => .failed (.failed "no input")⟩

def quotes : Repository :=
  ⟨[⟨"1", "MarketData", .liveDataSourcing⟩, ⟨"2", "Quote", .security⟩],
    ExtTreeMap.empty.insert "2" quote⟩

/-- The two nodes are in different configurations. -/
def view : View where
  definition := { name := "View", policy := { security := .all } }
  model := .ofGraphs [graph "Market" [source], graph "Pricing" [quoting]]

def workspace : Workspace := .new quotes .missing

def priced (d : LiveData) (n : Integer) : LiveData := (d.set spot.requirement (.int n)).1

theorem value?_priced {d : LiveData} {t : ValuationTime} (ht : d.snapshots[t]? = none)
    (n : Integer) : (priced d n).value? t spot = some (.int n) := by
  have hmem : t ∉ d.snapshots := by simpa using ht
  change ((d.snapshots.insertIfNew t (d.current.insert spot.requirement (.int n)))[t]?.getD ∅)[
    spot.requirement]? = _
  rw [ExtTreeMap.getElem?_insertIfNew, if_pos ⟨compare_self, hmem⟩]
  simp

theorem graphs_view : view.model.graphs.toList =
    [("Market", graph "Market" [source]), ("Pricing", graph "Pricing" [quoting])] := by rfl

theorem mem_liveOutputs {s : Specification} : s ∈ view.model.liveOutputs ↔ s = spot := by
  have hlive : view.model.liveOutputs = ExtTreeSet.ofList [spot] := by rfl
  rw [hlive, ExtTreeSet.mem_ofList]
  simp

theorem mem_outputs_quoting {s : Specification} : s ∈ quoting.outputs ↔ s = price := by
  have houtputs : quoting.outputs = ExtTreeSet.ofList [price] := by rfl
  rw [houtputs, ExtTreeSet.mem_ofList]
  simp

theorem answer_quoting (look : Specification → Option Value) : quoting.answer quotes look =
    match look spot with
    | some v => .ran (.returned [⟨price, v⟩])
    | none => .ran (.failed (.missingInputs "2" 1)) := by
  have hpayload : receivedPayload? quoting.function.parameters.payload = some .null := rfl
  have hinvoker : quotes.invoker? quoting.function.functionId = some quote := by
    simp [Repository.invoker?, quotes, quoting, step, Node.withOutput, Node.withInput, Node.new]
  have hinputs : quoting.inputs = [spot] := rfl
  unfold Node.answer prepareResolved
  simp only [hpayload, Node.received, JobItem.ofNumbered, hinputs, hinvoker, List.map_cons,
    List.map_nil]
  cases look spot with
  | none => rfl
  | some v =>
      have hget : (FunctionInputs.ofList [⟨spot, v⟩]).get? spot = some v := by
        simp [FunctionInputs.ofList, FunctionInputs.get?]
      change Answer.ran (match (FunctionInputs.ofList [⟨spot, v⟩]).get? spot with
        | some v => .returned [⟨price, v⟩]
        | none => .failed (.failed "no input")) = _
      rw [hget]

theorem not_edge (configuration : String) (n : Node) (i j : Nat) :
    ¬(graph configuration [n]).Edge i j := by
  intro he
  have hi : i < 1 := he.lt_size
  have hj : j < 1 := (built_graph configuration [n]).consistent.edge_lt he
  exact he.ne (by omega)

theorem acyclic_graph (configuration : String) (n : Node) : (graph configuration [n]).Acyclic :=
  Graph.acyclic_of_rank id fun i j he => absurd he (not_edge configuration n i j)

theorem sound_graph {r : Repository} (configuration : String) {n : Node}
    (hn : n.isLive = false → n.Confined r) : (graph configuration [n]).Sound r := by
  have hnodes : (graph configuration [n]).nodes = [n] := rfl
  refine ⟨built_graph _ _, acyclic_graph _ _, fun s i j hi hj => ?_, ?_⟩
  · have hi : i < 1 := hi.lt_size
    have hj : j < 1 := hj.lt_size
    omega
  · simpa [hnodes] using hn

theorem confined_quoting : quoting.Confined quotes := by
  intro look values hvalues v hv
  rw [answer_quoting] at hvalues
  split at hvalues
  · obtain rfl : [_] = values := by simpa using hvalues
    obtain rfl := List.mem_singleton.mp hv
    exact mem_outputs_quoting.mpr rfl
  · simp at hvalues

theorem sound_view : view.Sound quotes := by
  intro e he
  rw [graphs_view] at he
  rcases List.mem_cons.mp he with rfl | he
  · exact sound_graph "Market" fun hl => absurd hl (by decide)
  · rw [List.mem_singleton.mp he]
    exact sound_graph "Pricing" fun _ => confined_quoting

theorem mem_pricing : ("Pricing", graph "Pricing" [quoting]) ∈ view.model.graphs.toList := by
  simp [graphs_view]

theorem eq_quoting {e : String × Graph} (he : e ∈ view.model.graphs.toList) {n : Node}
    (hn : n ∈ e.2.nodes) (hl : n.isLive = false) : n = quoting := by
  rw [graphs_view] at he
  rcases List.mem_cons.mp he with rfl | he
  · obtain rfl : n = source := List.mem_singleton.mp hn
    exact absurd hl (by decide)
  · obtain rfl := List.mem_singleton.mp he
    exact List.mem_singleton.mp hn

theorem inputs_subset : ∀ e ∈ view.model.graphs.toList, ∀ n ∈ e.2.nodes, n.inputs ⊆ [spot] := by
  intro e he n hn
  rw [graphs_view] at he
  rcases List.mem_cons.mp he with rfl | he
  · obtain rfl : n = source := List.mem_singleton.mp hn
    exact List.nil_subset _
  · obtain rfl := List.mem_singleton.mp he
    obtain rfl : n = quoting := List.mem_singleton.mp hn
    exact List.Subset.refl _

theorem rested {passes : List Pass} (h : Chain view workspace passes) (market : LiveData) :
    Rested [spot] view workspace passes market :=
  h.rested sound_view ⟨rfl, Identifiers.sound_empty, List.nil_subset _⟩ inputs_subset (by decide)
    (fun _ _ => rfl) market

theorem exists_pass {passes : List Pass} (h : Chain view workspace passes) (market : LiveData)
    {t : ValuationTime} (ht : ∀ q ∈ passes, q.finished.cycle.time ≠ t) {previous : Option Cycle}
    (hprevious : previous = none ∨ previous = passes.head?.map fun q => q.finished.cycle) :
    ∃ b p, Behaviour.Local b ∧
      view.pass t previous b ⟨0⟩ (resume workspace passes market) = some p ∧
      Passed [spot] view t (resume workspace passes market) previous p := by
  have hrested := rested h market
  have hrepository := hrested.numbered.repository_eq
  obtain ⟨s, hbegin, hbegun⟩ := hrested.exists_begin sound_view ht hprevious
  have hsafe : ∀ m, Execution.Safe s.carried.workspace m [spot] (s.carried.cycle.requests
      ((resume workspace passes market).caches.currentGroup view.name t)) := by
    refine fun m => Execution.safe_of_settles fun q hq n hn look => ?_
    obtain ⟨e, he, rfl⟩ := List.mem_map.mp hq
    obtain ⟨hmem, hl, -⟩ := Cycle.mem_nodes_request.mp hn
    obtain rfl := eq_quoting (hbegun.cycle.view_eq ▸ he) hmem hl
    rw [hbegun.aside.repository_eq, hrepository]
    change (quoting.answer quotes look).settles = true
    rw [answer_quoting]
    split <;> rfl
  obtain ⟨b, finished, hb, hfinished⟩ := hbegun.exists_complete (hrepository ▸ sound_view)
    (hrepository ▸ hrested.numbered) inputs_subset (by decide) hsafe ⟨0⟩
  have hpass : view.pass t previous b ⟨0⟩ (resume workspace passes market) =
      some ⟨s, finished⟩ := View.pass_eq_some.mpr ⟨hbegin, hfinished⟩
  exact ⟨b, _, hb, hpass, hrested.passed sound_view inputs_subset (by decide) ht hb hprevious hpass⟩

section
variable {passes : List Pass} {market : LiveData} {t : ValuationTime} {previous : Option Cycle}

theorem shared_eq {s : Beginning} (h : Chain view workspace passes)
    (ht : ∀ q ∈ passes, q.finished.cycle.time ≠ t)
    (hs : Begun view t (resume workspace passes market) previous s) {e : String × Graph}
    (he : e ∈ view.model.graphs.toList) (u : Specification) :
    (s.prepared.cache e.1).sharedPart[u]? = if u = spot then market.value? t spot else none := by
  rw [hs.loaded _ (EvaluationModel.name_mem he), (rested h market).fresh_group ht _ rfl]
  by_cases hu : u = spot
  · simp [mem_liveOutputs, hu, Cache.empty, resume]
  · simp [mem_liveOutputs, hu, Cache.empty]

theorem value?_price {p : Pass}
    (hp : Passed [spot] view t (resume workspace passes market) previous p) :
    p.finished.cycle.result.value? "Pricing" price =
      (p.finished.cache "Pricing").privatePart[price]? := by
  have hprivate : (CacheHint.ofGraph (graph "Pricing" [quoting])).isPrivate price = true :=
    CacheHint.isPrivate_ofGraph.mpr
      ⟨quoting, List.mem_singleton_self _, rfl, mem_outputs_quoting.mpr rfl⟩
  have hreported := hp.reported _ mem_pricing price
  have hmem : price ∈ (graph "Pricing" [quoting]).outputs.filter
      (view.definition.policy.reports (graph "Pricing" [quoting])) := by decide +kernel
  rw [if_pos hmem, Cache.getHinted?, if_pos hprivate] at hreported
  exact hreported

theorem value?_alone {p : Pass} (h : Chain view workspace passes)
    (ht : ∀ q ∈ passes, q.finished.cycle.time ≠ t)
    (hp : Passed [spot] view t (resume workspace passes market) none p) :
    p.finished.cycle.result.value? "Pricing" price = market.value? t spot := by
  have hrested := rested h market
  have hnone := hp.private_eq_none (hrested.fresh_group ht) mem_pricing
  obtain ⟨all, hall, ho, -⟩ := hp.settled_alone mem_pricing
  obtain ⟨a, ha⟩ := (ho quoting).mpr ⟨List.mem_singleton_self _, rfl, trivial⟩
  have hunder : ∀ o ∈ all, spot ∉ o.1.outputs := by
    intro o hm hs
    obtain ⟨hmem, -⟩ := ho.apart o hm
    rw [List.mem_singleton.mp hmem, mem_outputs_quoting] at hs
    exact absurd hs (by decide)
  have hlook : quoting.look (p.prepared.cache "Pricing") (p.finished.cache "Pricing") spot =
      market.value? t spot := by
    rw [Node.look, if_neg (by rw [mem_outputs_quoting]; decide), Cache.get?,
      hall.untouched spot hunder, hnone, hall.shared_eq, shared_eq h ht hp.toBegun mem_pricing]
    simp
  rw [value?_price hp, hall.written _ ha price (mem_outputs_quoting.mpr rfl), hnone,
    Option.or_none, hall.answered _ ha, hrested.numbered.repository_eq]
  change (quoting.answer quotes _).value? price = _
  rw [answer_quoting, hlook]
  cases market.value? t spot <;> simp [Answer.value?, Answer.values, lastValue?]

theorem undisturbed {market' : LiveData} {t' : ValuationTime} {q : Pass} {s : Beginning}
    (h : Chain view workspace passes) (ht : ∀ r ∈ passes, r.finished.cycle.time ≠ t)
    (hq : Passed [spot] view t (resume workspace passes market) none q)
    (h' : Chain view workspace (q :: passes)) (ht' : ∀ r ∈ q :: passes, r.finished.cycle.time ≠ t')
    (hs : Begun view t' (resume workspace (q :: passes) market') previous s)
    (hspot : market'.value? t' spot = market.value? t spot) : s.Undisturbed view q := by
  intro e he
  have hsame : ∀ u : Specification, (s.prepared.cache e.1).sharedPart[u]? =
      (q.finished.cache e.1).sharedPart[u]? := by
    intro u
    obtain ⟨all, hall, -⟩ := hq.settled_alone he
    rw [hall.shared_eq, shared_eq h' ht' hs he, shared_eq h ht hq.toBegun he, hspot]
  refine ⟨fun n _ _ u _ => hsame u, fun n _ _ u _ _ => hsame u, fun n hn hl u hu => ?_⟩
  obtain rfl := eq_quoting he ((hs.taken e he).subset hn) hl
  obtain rfl := mem_outputs_quoting.mp hu
  have hnone : (s.prepared.cache e.1).sharedPart[price]? = none := by
    rw [shared_eq h' ht' hs he, if_neg (by decide)]
  exact ⟨hnone, (hsame price).symm.trans hnone⟩

theorem value?_carried {q p : Pass} (h : Chain view workspace (q :: passes))
    (ht : ∀ r ∈ q :: passes, r.finished.cycle.time ≠ t)
    (hp : Passed [spot] view t (resume workspace (q :: passes) market) (some q.finished.cycle) p) :
    p.finished.cycle.result.value? "Pricing" price = (q.finished.cache "Pricing").get? price := by
  have hrested := rested h market
  have hcarried := hp.value_carried (i := 0) (n := quoting) (s := price)
    (hrested.numbered.repository_eq ▸ sound_view) mem_pricing rfl rfl (not_edge _ _ _)
    (mem_outputs_quoting.mpr rfl)
  rw [value?_price hp, hcarried, hp.private_eq_none (hrested.fresh_group ht) mem_pricing,
    Option.or_none]
  rfl

def early : LiveData := priced .empty ⟨10, by decide⟩

def late : LiveData := priced (early.snapshot ⟨1⟩) ⟨20, by decide⟩

theorem exists_first : ∃ b q, Behaviour.Local b ∧
    view.pass ⟨1⟩ none b ⟨0⟩ (resume workspace [] early) = some q ∧ Chain view workspace [q] ∧
    Passed [spot] view ⟨1⟩ (resume workspace [] early) none q := by
  obtain ⟨b, q, hb, hq, hpassed⟩ := exists_pass .nil early (t := ⟨1⟩) (by simp) (.inl rfl)
  exact ⟨b, q, hb, hq, .cons .nil (by simp) hb hq, hpassed⟩

theorem time_ne {q : Pass} (hq : Passed [spot] view ⟨1⟩ (resume workspace [] early) none q) :
    ∀ r ∈ [q], r.finished.cycle.time ≠ ⟨2⟩ := by
  have htime : q.finished.cycle.time = ⟨1⟩ := hq.finished.time_eq
  simp [htime]

end

end Sample
open Sample

/-- The node that prices takes in a value that another configuration loads, and so it has
no edges: its price outlives the spot price that it was computed from. -/
theorem price_outlives_spot : view.Sound workspace.repository ∧ ∃ q p plain,
    (∃ b, Behaviour.Local b ∧
      view.pass ⟨1⟩ none b ⟨0⟩ (resume workspace [] early) = some q) ∧
    (∃ b, Behaviour.Local b ∧
      view.pass ⟨2⟩ (some q.finished.cycle) b ⟨0⟩ (resume workspace [q] late) = some p) ∧
    (∃ b, Behaviour.Local b ∧ view.pass ⟨2⟩ none b ⟨0⟩ (resume workspace [q] late) = some plain) ∧
    p.finished.cycle.result.value? "Pricing" price = some (.int ⟨10, by decide⟩) ∧
    plain.finished.cycle.result.value? "Pricing" price = some (.int ⟨20, by decide⟩) := by
  obtain ⟨b, q, hb, hpass, hchain, hq⟩ := exists_first
  have ht := time_ne hq
  obtain ⟨b', p, hb', hp, hcarried⟩ := exists_pass hchain late ht (.inr rfl)
  obtain ⟨b'', plain, hb'', hplain, halone⟩ := exists_pass hchain late ht (.inl rfl)
  refine ⟨sound_view, q, p, plain, ⟨b, hb, hpass⟩, ⟨b', hb', hp⟩, ⟨b'', hb'', hplain⟩, ?_, ?_⟩
  · have hprice := value?_price hq
    rw [value?_alone .nil (by simp) hq, early, value?_priced rfl] at hprice
    rw [value?_carried hchain ht hcarried, Cache.get?, ← hprice, Option.some_or]
  · rw [value?_alone hchain ht halone, late, value?_priced (by decide +kernel)]

/-- While the spot price stays, a pass that takes over reports what it would report alone. -/
theorem price_stays_with_spot : ∃ q p plain,
    (∃ b, Behaviour.Local b ∧
      view.pass ⟨1⟩ none b ⟨0⟩ (resume workspace [] early) = some q) ∧
    (∃ b, Behaviour.Local b ∧
      view.pass ⟨2⟩ (some q.finished.cycle) b ⟨0⟩ (resume workspace [q] early) = some p) ∧
    (∃ b, Behaviour.Local b ∧ view.pass ⟨2⟩ none b ⟨0⟩ (resume workspace [q] early) = some plain) ∧
    ∀ name u,
      p.finished.cycle.result.value? name u = plain.finished.cycle.result.value? name u := by
  obtain ⟨b₁, q, hb₁, hpass, hchain, hq⟩ := exists_first
  have ht := time_ne hq
  obtain ⟨b, plain, hb, hplain, -⟩ := exists_pass hchain early ht (.inl rfl)
  obtain ⟨s, hbegin, hcomplete, hundisturbed, hsame⟩ := delta_transparent_iff view workspace
    sound_view .empty (by decide) (fun _ _ => rfl) [q] hchain early ⟨2⟩ ht b hb ⟨0⟩ plain hplain
  obtain ⟨s', hbegin', hbegun⟩ := (rested hchain early).exists_begin sound_view ht (.inr rfl)
  obtain rfl := Option.some.inj (hbegin.symm.trans hbegin')
  have hu : s.Undisturbed view q := undisturbed .nil (by simp) hq hchain ht hbegun
    (by rw [early, value?_priced rfl, value?_priced rfl])
  have hupToDate := hundisturbed (by simpa using hu) (List.isChain_singleton _)
  obtain ⟨b', p, hb', hp⟩ := hcomplete hupToDate
  exact ⟨q, p, plain, ⟨b₁, hb₁, hpass⟩, ⟨b', hb', hp⟩, ⟨b, hb, hplain⟩,
    (hsame b' ⟨0⟩ p hb' hp).2.1 hupToDate⟩

end ValuationCycle
