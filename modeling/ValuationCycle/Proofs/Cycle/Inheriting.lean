import ValuationCycle.Proofs.Cycle.Executing

/-!
# Carrying over between different graphs

The delta asks which nodes of the new cycle's graph depend on live data that
differs between two caches; whether the previous cycle had these nodes is not
asked. So a node that was added to the graph since counts as unchanged if the
live data that it depends on is the same: it is marked executed, nothing is
copied for it, and nobody executes it. What a previous cycle has dealt with are
the live data sourcing nodes of its own graph and those that its run could
reach.
-/
namespace ValuationCycle
open Json Std Graph.Sample Execution.Sample

namespace Cycle
variable {c previous : Cycle} {w : Workspace} {name : String} {g : Graph}

def DealtWith (c : Cycle) (name : String) (n : Node) : Prop :=
  c.isExecuted name (some n) = true ∨ c.isFailed name (some n) = true

/-- Whether a node counts as unchanged when it is the turn of its configuration: both cycles
have a cache, and the delta of the two caches leaves the node unchanged. -/
def Carries (c previous : Cycle) (w : Workspace) (name : String) (g : Graph) (n : Node) : Prop :=
  ∃ current old, c.handles[name]? = some current ∧ previous.handles[name]? = some old ∧
    n ∈ Delta.unchangedNodes g (w.cache current) (w.cache old)

theorem isExecuted_iff {n : Node} : c.isExecuted name (some n) = true ↔ n ∈ c.executed name := by
  rw [isExecuted, NodeMarks.isExecuted, List.contains_iff_mem]
  rfl

theorem dealtWith_iff {n : Node} : c.DealtWith name n ↔
    n ∈ (c.marks[name]?.getD .empty).executed ∨ n ∈ (c.marks[name]?.getD .empty).failed := by
  simp only [DealtWith, isExecuted, isFailed, NodeMarks.isExecuted, NodeMarks.isFailed,
    List.contains_iff_mem]

theorem carryAll_cons (previous : Cycle) {h : CacheHandle} {m : NodeMarks}
    (hh : c.handles[name]? = some h) (hm : c.marks[name]? = some m) (w : Workspace) (g : Graph) :
    ∃ c₁ w₁ note, c₁ = { c with marks := c₁.marks } ∧
      (∀ other, other ≠ name → c₁.marks[other]? = c.marks[other]?) ∧
      (∃ m', c₁.marks[name]? = some m' ∧
        ∀ n, n ∈ m'.executed ↔ n ∈ m.executed ∨ c.Carries previous w name g n) ∧
      ∀ rest, carryAll previous c w ((name, g) :: rest) =
        { carryAll previous c₁ w₁ rest with
          answer := (carryAll previous c₁ w₁ rest).answer.map ((name, note) :: ·) } := by
  cases hp : previous.handles[name]? with
  | none =>
      refine ⟨c, w, .noPreviousCache, rfl, fun _ _ => rfl, ⟨m, hm, fun n => ?_⟩, fun rest => ?_⟩
      · simp [Carries, hp]
      · rw [carryAll, hh, hm, hp]
  | some old =>
      obtain ⟨note, hcarry⟩ := carryConfiguration_eq w g h old m
      set ns := Delta.unchangedNodes g (w.cache h) (w.cache old) with hns
      refine ⟨c.setMarks name (ns.foldl (fun m n => m.markExecuted (some n)) m),
        w.copyAll old h (.ofGraph g) ns, note, rfl, fun other ho => ?_,
        ⟨_, ExtTreeMap.getElem?_insert_self, fun n => ?_⟩, fun rest => ?_⟩
      · rw [setMarks, ExtTreeMap.getElem?_insert,
          if_neg fun he => ho (LawfulEqOrd.eq_of_compare he).symm]
      · rw [NodeMarks.mem_executed_foldl]
        simp [Carries, hh, hp, hns]
      · rw [carryAll, hh, hm, hp]
        simp only [hcarry]

/-- Carrying over succeeds where there are caches and marks, and marks in each configuration
what counts as unchanged when it has its turn. -/
theorem carryAll_marks (previous : Cycle) {graphs : List (String × Graph)}
    (hnames : (graphs.map Prod.fst).Nodup)
    (hhandles : ∀ e ∈ graphs, ∃ h, c.handles[e.1]? = some h)
    (hmarks : ∀ e ∈ graphs, ∃ m, c.marks[e.1]? = some m) :
    (∃ notes, (carryAll previous c w graphs).answer = .ok notes) ∧
    (∀ other, other ∉ graphs.map Prod.fst →
      (carryAll previous c w graphs).cycle.marks[other]? = c.marks[other]?) ∧
    ∀ before e after, graphs = before ++ e :: after → ∀ n,
      n ∈ (carryAll previous c w graphs).cycle.executed e.1 ↔ n ∈ c.executed e.1 ∨
        c.Carries previous (carryAll previous c w before).workspace e.1 e.2 n := by
  induction graphs generalizing c w with
  | nil => exact ⟨⟨[], rfl⟩, fun _ _ => rfl, by simp⟩
  | cons first rest ih =>
      obtain ⟨name, g⟩ := first
      simp only [List.map_cons, List.nodup_cons] at hnames
      simp only [List.mem_cons, forall_eq_or_imp] at hhandles hmarks
      obtain ⟨⟨h, hh⟩, hhandles⟩ := hhandles
      obtain ⟨⟨m, hm⟩, hmarks⟩ := hmarks
      obtain ⟨c₁, w₁, note, hc₁, hother, ⟨m', hm', hexecuted⟩, hcons⟩ :=
        carryAll_cons previous hh hm w g
      have hne : ∀ e ∈ rest, e.1 ≠ name := fun e he hc =>
        hnames.1 (List.mem_map.mpr ⟨e, he, hc⟩)
      have hhandles₁ : c₁.handles = c.handles := by rw [hc₁]
      obtain ⟨⟨notes, hnotes⟩, hkept, hturn⟩ := ih (c := c₁) (w := w₁) hnames.2
        (fun e he => hhandles₁ ▸ hhandles e he)
        (fun e he => by rw [hother _ (hne e he)]; exact hmarks e he)
      refine ⟨⟨(name, note) :: notes, by rw [hcons, hnotes]; rfl⟩, fun other ho => ?_, ?_⟩
      · simp only [List.map_cons, List.mem_cons, not_or] at ho
        rw [hcons]
        exact (hkept other ho.2).trans (hother other ho.1)
      · intro before e after hsplit n
        rw [hcons]
        cases before with
        | nil =>
            obtain ⟨rfl, rfl⟩ := List.cons.inj hsplit
            rw [executed, hkept name hnames.1, hm', executed, hm]
            exact hexecuted n
        | cons first before =>
            obtain ⟨rfl, hrest⟩ := List.cons.inj hsplit
            have hmem : e ∈ rest := hrest ▸ List.mem_append_right _ (List.mem_cons_self ..)
            rw [hcons]
            refine (hturn before e after hrest n).trans (or_congr ?_ ?_)
            · rw [executed, executed, hother _ (hne e hmem)]
            · rw [Carries, Carries, hhandles₁]

/-- What is submitted for a configuration is found among all submissions. -/
theorem exists_submitted_iff {group : CacheGroup} {submitted : List Submission}
    (hrequests : submitted.map Submission.request = c.requests group) {e : String × Graph}
    (he : e ∈ c.view.model.graphs.toList) (p : Graph → Prop) :
    (∃ s ∈ submitted, s.request.graph.configuration = e.1 ∧ p s.request.graph) ↔
      p (c.request group e).graph := by
  have hq : c.request group e ∈ c.requests group := List.mem_map_of_mem he
  have hconfiguration : (c.request group e).graph.configuration = e.1 :=
    configuration_request (EvaluationModel.configuration_of_mem he)
  constructor
  · rintro ⟨s, hs, hname, hi⟩
    have hn : ((c.requests group).map fun q => q.graph.configuration).Nodup := by
      rw [map_configuration_requests]
      exact c.view.model.nodup_names
    have hrequest : s.request ∈ c.requests group := hrequests ▸ List.mem_map_of_mem hs
    rwa [List.inj_on_of_nodup_map hn hrequest hq (hname.trans hconfiguration.symm)] at hi
  · intro hi
    obtain ⟨s, hs, hrequest⟩ := List.mem_map.mp (hrequests ▸ hq)
    exact ⟨s, hs, hrequest ▸ hconfiguration, hrequest ▸ hi⟩

theorem Ready.dealtWith {group : CacheGroup} {b : Behaviour} {reply : Reply Unit}
    {report : ExecutionReport} (h : c.Ready group) (hb : b.Local)
    (hx : c.execute w b = some (reply, report)) (hok : reply.answer = .ok ())
    {e : String × Graph} (he : e ∈ c.view.model.graphs.toList) (hg : e.2.Built) (n : Node) :
    reply.cycle.DealtWith e.1 n ↔ c.DealtWith e.1 n ∨ (n ∈ e.2.nodes ∧ n.isLive = true) ∨
      ∃ s ∈ report.submitted, s.request.graph.configuration = e.1 ∧
        ∃ i, s.request.graph.nodes[i]? = some n ∧ s.request.graph.Grounded i := by
  obtain ⟨hrequests, m, es, x, hlive, hes, hend, -, hcycle⟩ := h.execute hb hx hok
  have hconfiguration : (c.request group e).graph.configuration = e.1 :=
    configuration_request (EvaluationModel.configuration_of_mem he)
  have hn : ((c.requests group).map fun q => q.graph.configuration).Nodup := by
    rw [map_configuration_requests]
    exact c.view.model.nodup_names
  have hq : c.request group e ∈ c.requests group := List.mem_map_of_mem he
  have hy := (Execution.underway_submitAll w m hn hq).steps (Execution.keyed_submitAll w m _ hn) rfl
    hes fun err herr => by simp [hend _ hq] at herr
  simp only [List.nil_append] at hy
  obtain ⟨r, hr, hscheduled⟩ := hy.run
  have hended : r.ending ≠ none := by
    have hx := hend _ hq
    rw [Execution.ending?, hr, Option.bind_some] at hx
    simp [hx]
  have hbuilt : (c.request group e).graph.Built := hg.extract _
  have hanswered := hscheduled.exists_answer_iff hbuilt.consistent hended (n := n)
  have hmarks := hy.marks_eq
  rw [hconfiguration, hlive e he] at hmarks
  rw [exists_submitted_iff hrequests he fun g => ∃ i, g.nodes[i]? = some n ∧ g.Grounded i,
    ← hanswered, dealtWith_iff, dealtWith_iff, hcycle]
  dsimp only
  rw [hmarks, (NodeMarks.mem_foldl_outcome _ _ _ n).1, (NodeMarks.mem_foldl_outcome _ _ _ n).2,
    NodeMarks.mem_executed_markLive, NodeMarks.failed_markLive, hconfiguration]
  constructor
  · rintro ((hm | hm) | hm)
    · exact hm.elim (fun hm => .inl (.inl hm)) fun hm => .inr (.inl hm)
    · exact .inr (.inr (hm.imp fun a ha => ha.1))
    · exact hm.elim (fun hm => .inl (.inr hm)) fun hm => .inr (.inr (hm.imp fun a ha => ha.1))
  · rintro ((hm | hm) | hm | ⟨a, ha⟩)
    · exact .inl (.inl (.inl hm))
    · exact .inr (.inl hm)
    · exact .inl (.inl (.inr hm))
    · cases hs : a.succeeded with
      | true => exact .inl (.inr ⟨a, ha, hs⟩)
      | false => exact .inr (.inr ⟨a, ha, hs⟩)

/-- Where graphs are acyclic and no output has two producers, a finished cycle has dealt with
all nodes of its graphs. -/
theorem Ready.dealtWith_of_mem {group : CacheGroup} {b : Behaviour} {reply : Reply Unit}
    {report : ExecutionReport} (h : c.Ready group) (hb : b.Local)
    (hx : c.execute w b = some (reply, report)) (hok : reply.answer = .ok ())
    {e : String × Graph} (he : e ∈ c.view.model.graphs.toList) (hg : e.2.Built)
    (hacyclic : e.2.Acyclic) (hdisjoint : e.2.Disjoint) {n : Node} (hn : n ∈ e.2.nodes) :
    reply.cycle.DealtWith e.1 n := by
  rw [h.dealtWith hb hx hok he hg n]
  cases hl : n.isLive with
  | true => exact .inr (.inl ⟨hn, rfl⟩)
  | false =>
      by_cases hm : n ∈ c.executed e.1
      · exact .inl (.inl (isExecuted_iff.mpr hm))
      · have hrequest : n ∈ (c.request group e).graph.nodes := mem_nodes_request.mpr ⟨hn, hl, hm⟩
        obtain ⟨i, hi⟩ := List.mem_iff_getElem?.mp hrequest
        have hq : c.request group e ∈ c.requests group := List.mem_map_of_mem he
        rw [← (h.execute hb hx hok).1] at hq
        obtain ⟨s, hs, hsq⟩ := List.mem_map.mp hq
        refine .inr (.inr ⟨s, hs, ?_, i, hsq ▸ hi, ?_⟩)
        · rw [hsq]
          exact configuration_request (EvaluationModel.configuration_of_mem he)
        · rw [hsq]
          exact (hacyclic.extract _ hg hdisjoint).grounded i

theorem Carries.mem_nodes {n : Node} (h : c.Carries previous w name g n) :
    n ∈ g.nodes := by
  obtain ⟨current, old, -, -, hn⟩ := h
  obtain ⟨i, -, hi⟩ := List.mem_filterMap.mp hn
  exact List.mem_of_getElem? hi

theorem Ready.computeDelta_eq {group : CacheGroup} (h : c.Ready group) (w : Workspace)
    (hf : previous.state = .finished) :
    c.computeDelta w previous = carryAll previous c w c.view.model.graphs.toList := by
  have hpermits : c.permits .computeDelta = true := by rw [permits, h.state_eq]; rfl
  rw [Cycle.computeDelta, if_pos hpermits, if_pos hf]

theorem Ready.computeDelta {group : CacheGroup} (h : c.Ready group) (w : Workspace)
    (hf : previous.state = .finished) :
    ∃ c' w' notes, c.computeDelta w previous = ⟨c', w', .ok notes⟩ ∧ c.Remarks c' ∧
      ∀ before name g after, c.view.model.graphs.toList = before ++ (name, g) :: after →
      ∀ n, c'.isExecuted name (some n) = true ↔ c.isExecuted name (some n) = true ∨
        c.Carries previous (carryAll previous c w before).workspace name g n := by
  have hmarks : ∀ e ∈ c.view.model.graphs.toList, ∃ m, c.marks[e.1]? = some m := fun e he =>
    h.marked e.1 (EvaluationModel.name_mem he)
  obtain ⟨⟨notes, hnotes⟩, -, hturn⟩ := carryAll_marks previous (w := w)
    c.view.model.nodup_map_fst (fun e he => ⟨_, h.handle e he⟩) hmarks
  refine ⟨_, (carryAll previous c w c.view.model.graphs.toList).workspace, notes, ?_,
    remarks_carryAll previous c.view.model.graphs.toList c w,
    fun before name g after hsplit n => ?_⟩
  · rw [h.computeDelta_eq w hf, ← hnotes]
  · rw [isExecuted_iff, isExecuted_iff]
    exact hturn before (name, g) after hsplit n

/-- Taking over marks exactly the nodes that the delta leaves unchanged, be they in the graph
of the previous cycle or not, and what is left to execute are the others. So the nodes newly
marked were dealt with by the previous cycle exactly if all unchanged nodes without a mark
were, and that is so if its graph had all nodes of the new one. -/
theorem computeDelta_marks_unchanged (c : Cycle) (hc : c.Lived) (hs : c.state = .inputsPrepared)
    (w : Workspace) (previous : Cycle) (hf : previous.state = .finished) :
    ∃ c' w' notes, c.computeDelta w previous = ⟨c', w', .ok notes⟩ ∧
      ∀ before name g after, c.view.model.graphs.toList = before ++ (name, g) :: after →
      let carries := c.Carries previous (carryAll previous c w before).workspace name g
      (∀ n, c'.isExecuted name (some n) = true ↔
        c.isExecuted name (some n) = true ∨ carries n) ∧
      (∃ c'' rest, c'.executableGraph g = .ok (c'', rest) ∧ ∀ n, n ∈ rest.nodes ↔
        n ∈ g.nodes ∧ n.isLive = false ∧ ¬c.isExecuted name (some n) = true ∧ ¬carries n) ∧
      ∀ (p : Cycle) (w₀ : Workspace) (b : Behaviour) (reply : Reply Unit)
        (report : ExecutionReport), p.Lived → p.state = .inputsPrepared → b.Local →
        p.execute w₀ b = some (reply, report) → reply.answer = .ok () →
        previous.marks = reply.cycle.marks →
        ∀ old, p.view.model.graphs[name]? = some old → old.Built →
        (∀ n, previous.DealtWith name n ↔ p.DealtWith name n ∨ (n ∈ old.nodes ∧ n.isLive = true) ∨
          ∃ s ∈ report.submitted, s.request.graph.configuration = name ∧
            ∃ i, s.request.graph.nodes[i]? = some n ∧ s.request.graph.Grounded i) ∧
        ((∀ n, c'.isExecuted name (some n) = true → ¬c.isExecuted name (some n) = true →
            previous.DealtWith name n) ↔
          ∀ n, carries n → ¬c.isExecuted name (some n) = true → previous.DealtWith name n) ∧
        (old.Acyclic → old.Disjoint → g.nodes ⊆ old.nodes →
          ∀ n, c'.isExecuted name (some n) = true → ¬c.isExecuted name (some n) = true →
            previous.DealtWith name n) := by
  obtain ⟨k, hready⟩ := hc.ready hs
  obtain ⟨c', w', notes, hdelta, hframe, hturn⟩ := hready.computeDelta w hf
  refine ⟨c', w', notes, hdelta, ?_⟩
  intro before name g after hsplit carries
  have he : (name, g) ∈ c.view.model.graphs.toList := by rw [hsplit]; simp
  have hexecuted : ∀ n, c'.isExecuted name (some n) = true ↔
      c.isExecuted name (some n) = true ∨ carries n := hturn before name g after hsplit
  have hnew : ∀ n, c'.isExecuted name (some n) = true →
      ¬c.isExecuted name (some n) = true → carries n :=
    fun n hn hno => ((hexecuted n).mp hn).resolve_left hno
  refine ⟨hexecuted, ?_, ?_⟩
  · obtain ⟨m, hm⟩ := hready.marked name (EvaluationModel.name_mem he)
    obtain ⟨m', hm'⟩ := hframe.marks name m hm
    refine ⟨_, _, executableGraph_eq (e := (name, g)) (EvaluationModel.configuration_of_mem he)
      hm' ⟨c.view.name, c.time, k⟩, fun n => ?_⟩
    rw [mem_nodes_request, ← isExecuted_iff, hexecuted]
    simp only [not_or]
  · intro p w₀ b reply report hp hps hb hx hok heq old hold hbuilt
    obtain ⟨k', hready'⟩ := hp.ready hps
    have hmem : (name, old) ∈ p.view.model.graphs.toList :=
      ExtTreeMap.mem_toList_iff_getElem?_eq_some.mpr hold
    have hdealt : ∀ n, previous.DealtWith name n ↔ reply.cycle.DealtWith name n := by
      intro n
      rw [dealtWith_iff, dealtWith_iff, heq]
    refine ⟨fun n => ?_, ⟨fun h n hn hno => h n ((hexecuted n).mpr (.inr hn)) hno,
      fun h n hn hno => h n (hnew n hn hno) hno⟩, ?_⟩
    · rw [hdealt]
      exact hready'.dealtWith hb hx hok hmem hbuilt n
    · intro hacyclic hdisjoint hsubset n hn hno
      rw [hdealt]
      exact hready'.dealtWith_of_mem hb hx hok hmem hbuilt hacyclic hdisjoint
        (hsubset (hnew n hn hno).mem_nodes)

namespace Sample

def loading : Node := step "1" .liveDataSourcing [] (quantity "Spot" "1")

def added : Node := step "2" .security [] (quantity "Price" "2")

def early : View where
  definition := { name := "View" }
  model := .ofGraphs [graph "Market" [loading]]

def recompiled : View where
  definition := { name := "View" }
  model := .ofGraphs [graph "Market" [loading, added]]

def prepared (view : View) (t : ValuationTime) (w : Workspace) : Reply (List Requirement) :=
  (Cycle.new view t).prepare w

/-- The execution of the first cycle, which has nothing to run. -/
def finishing : Option (Reply Unit × ExecutionReport) :=
  (prepared early ⟨1⟩ (.new .empty .missing)).cycle.execute
    (prepared early ⟨1⟩ (.new .empty .missing)).workspace (.row [("Market", .finish)])

theorem exists_finishing : ∃ reply report, finishing = some (reply, report) ∧
    reply.answer = .ok () ∧ reply.cycle.state = .finished ∧
    reply.cycle.handles["Market"]? = some ⟨⟨"View", ⟨1⟩, 0⟩, "Market"⟩ ∧
    reply.cycle.marks["Market"]? = some ⟨[loading], []⟩ := by
  have h : finishing.map (fun r => (r.1.answer, r.1.cycle.state, r.1.cycle.handles["Market"]?,
      r.1.cycle.marks["Market"]?)) = some (.ok (), .finished,
        some ⟨⟨"View", ⟨1⟩, 0⟩, "Market"⟩, some ⟨[loading], []⟩) := by rfl
  obtain ⟨⟨reply, report⟩, hr, he⟩ := Option.map_eq_some_iff.mp h
  simp only [Prod.mk.injEq] at he
  exact ⟨reply, report, hr, he⟩

theorem graphs_early : early.model.graphs.toList = [("Market", graph "Market" [loading])] := by rfl

theorem graphs_recompiled :
    recompiled.model.graphs.toList = [("Market", graph "Market" [loading, added])] := by rfl

theorem prepared_spec (view : View) (t : ValuationTime) (w : Workspace) :
    (prepared view t w).cycle.Lived ∧ (prepared view t w).cycle.view = view ∧
      (prepared view t w).cycle.Ready (w.caches.currentGroup view.name t) ∧
      ∀ name ∈ view.model.names, ∀ n,
        ¬(prepared view t w).cycle.isExecuted name (some n) = true := by
  obtain ⟨c, w', missing, hprepare, hc, hmarks, -⟩ := prepare_new view t w
  have hcycle : (prepared view t w).cycle = c := by rw [prepared, hprepare]
  refine ⟨.prepare w (.new view t), hcycle ▸ hc.view_eq, hcycle ▸ hc.ready, fun name hn n => ?_⟩
  rw [isExecuted_iff, executed, hcycle, hmarks name hn]
  exact List.not_mem_nil

theorem market_mem_names : "Market" ∈ recompiled.model.names ∧ "Market" ∈ early.model.names := by
  decide +kernel

end Sample
open Cycle.Sample

/-- A node that was added to the graph since the previous cycle is marked executed, though no
cycle has dealt with it, and is not executed any more. -/
theorem added_node_is_lost : ∃ reply report c' w' notes c'' rest,
    finishing = some (reply, report) ∧ reply.answer = .ok () ∧ reply.cycle.state = .finished ∧
    (prepared recompiled ⟨2⟩ reply.workspace).cycle.computeDelta
      (prepared recompiled ⟨2⟩ reply.workspace).workspace reply.cycle = ⟨c', w', .ok notes⟩ ∧
    ¬(prepared recompiled ⟨2⟩ reply.workspace).cycle.isExecuted "Market" (some added) = true ∧
    c'.isExecuted "Market" (some added) = true ∧ ¬reply.cycle.DealtWith "Market" added ∧
    c'.executableGraph (graph "Market" [loading, added]) = .ok (c'', rest) ∧
    added ∉ rest.nodes := by
  obtain ⟨reply, report, hfinishing, hok, hstate, hhandle, hmarks⟩ := exists_finishing
  obtain ⟨-, hview, hready, hno⟩ := prepared_spec recompiled ⟨2⟩ reply.workspace
  set r := prepared recompiled ⟨2⟩ reply.workspace with hr
  obtain ⟨c', w', notes, hdelta, hframe, hturn⟩ := hready.computeDelta r.workspace hstate
  have hmem : "Market" ∈ r.cycle.view.model.names := hview ▸ market_mem_names.1
  have hcarries : r.cycle.Carries reply.cycle r.workspace "Market"
      (graph "Market" [loading, added]) added := by
    refine ⟨_, _, (hready.housed "Market").trans (if_pos hmem), hhandle, ?_⟩
    refine Delta.mem_unchangedNodes (i := 1) (Graph.acyclic_of_forall id (by decide +kernel)) rfl
      rfl (fun j => ?_) _ _
    have hinputs : (graph "Market" [loading, added]).inputIndices 1 = [] := by rfl
    rw [Graph.Edge, hinputs]
    exact List.not_mem_nil
  have hexecuted : c'.isExecuted "Market" (some added) = true :=
    (hturn [] "Market" _ [] (hview ▸ graphs_recompiled) added).mpr (.inr hcarries)
  obtain ⟨m, hm⟩ := hready.marked "Market" hmem
  obtain ⟨m', hm'⟩ := hframe.marks "Market" m hm
  refine ⟨reply, report, c', w', notes, _, _, hfinishing, hok, hstate, hdelta,
    hno "Market" market_mem_names.1 added, hexecuted, ?_,
    executableGraph_eq (e := ("Market", graph "Market" [loading, added])) rfl hm'
      (reply.workspace.caches.currentGroup "View" ⟨2⟩), fun h => ?_⟩
  · rw [dealtWith_iff, hmarks]
    decide +kernel
  · exact (mem_nodes_request.mp h).2.2 (isExecuted_iff.mp hexecuted)

namespace Sample

def telling : Node := step "1" .security [] (quantity "Note" "1")

/-- A graph with a node that fails, for there is no function, and one that returns a value. -/
def settling : Graph :=
  graph "Market" [step "3" .liveDataSourcing [] (quantity "Spot" "3"), added, telling]

def steady : View where
  definition := { name := "View" }
  model := .ofGraphs [settling]

theorem graphs_steady : steady.model.graphs.toList = [("Market", settling)] := by rfl

theorem answer_added (look : Specification → Option Value) :
    added.answer tellers look = .ran (.failed (.unknownFunction "2")) := by rfl

theorem answer_telling (look : Specification → Option Value) :
    telling.answer tellers look = .ran (.returned [⟨quantity "Note" "1", .bool true⟩]) := by rfl

theorem eq_of_mem_settling {n : Node} (hn : n ∈ settling.nodes) (hl : n.isLive = false) :
    n = added ∨ n = telling := by
  have hnodes : settling.nodes =
      [step "3" .liveDataSourcing [] (quantity "Spot" "3"), added, telling] := by rfl
  rw [hnodes, List.mem_cons, List.mem_cons, List.mem_singleton] at hn
  rcases hn with rfl | hn
  · exact absurd hl (by decide)
  · exact hn

theorem not_edge_settling (i j : Nat) : ¬settling.Edge i j := by
  intro he
  have hinputs : ∀ i < 3, settling.inputIndices i = [] := by decide +kernel
  have hi : i < 3 := he.lt_size
  rw [Graph.Edge, hinputs i hi] at he
  exact List.not_mem_nil he

theorem acyclic_settling : settling.Acyclic :=
  Graph.acyclic_of_rank id fun i j he => absurd he (not_edge_settling i j)

theorem disjoint_settling : settling.Disjoint :=
  Graph.disjoint_of_nodup_outputs (by decide +kernel)

theorem sound_steady : steady.Sound tellers := by
  intro e he
  rw [graphs_steady] at he
  obtain rfl := List.mem_singleton.mp he
  refine ⟨built_graph _ _, acyclic_settling, disjoint_settling,
    fun n hn hl look values hv v hm => ?_⟩
  rcases eq_of_mem_settling hn hl with rfl | rfl
  · simp [answer_added] at hv
  · obtain rfl : [_] = values := by simpa [answer_telling] using hv
    rw [List.mem_singleton.mp hm]
    decide +kernel

theorem exists_settling : ∃ b reply report, Behaviour.Local b ∧
    (prepared steady ⟨1⟩ (.new tellers .missing)).cycle.execute
      (prepared steady ⟨1⟩ (.new tellers .missing)).workspace b = some (reply, report) ∧
    reply.answer = .ok () ∧ reply.cycle.state = .finished ∧
    reply.cycle.handles["Market"]? = some ⟨⟨"View", ⟨1⟩, 0⟩, "Market"⟩ := by
  obtain ⟨c, w, missing, hprepare, hc, -, haside, -⟩ :=
    prepare_new steady ⟨1⟩ (.new tellers .missing)
  have hrepository : w.repository = tellers := haside.repository_eq
  have hnumbered : w.Numbered w.repository [] := by
    refine ⟨rfl, ?_, ?_⟩ <;> rw [haside.identifiers_eq]
    · exact Identifiers.sound_empty
    · exact List.nil_subset _
  have hinputs : ∀ e ∈ steady.model.graphs.toList, ∀ n ∈ e.2.nodes, n.inputs ⊆ [] := by
    intro e he n hn
    rw [graphs_steady] at he
    obtain rfl := List.mem_singleton.mp he
    have hnone : ∀ n ∈ settling.nodes, n.inputs = [] := by decide +kernel
    rw [hnone n hn]
    exact List.nil_subset _
  have hsettles : ∀ e ∈ steady.model.graphs.toList, ∀ n ∈ e.2.nodes, n.isLive = false →
      ∀ look, (n.answer w.repository look).settles = true := by
    intro e he n hn hl look
    rw [graphs_steady] at he
    obtain rfl := List.mem_singleton.mp he
    rw [hrepository]
    rcases eq_of_mem_settling hn hl with rfl | rfl
    · rw [answer_added]
      rfl
    · rw [answer_telling]
      rfl
  obtain ⟨b, reply, report, hb, hx, hok⟩ := hc.exists_execute_of_settles
    (hrepository ▸ sound_steady) hnumbered hinputs (by decide) hsettles
  obtain ⟨m, es, x, -, -, -, hcycle⟩ := hc.execute hb hx hok
  refine ⟨b, reply, report, hb, by rw [prepared, hprepare, hx], hok, by rw [hcycle], ?_⟩
  rw [hcycle]
  exact (hc.handle "Market").trans (if_pos (by decide +kernel))

end Sample

/-- As long as the graph stays, what is taken over was dealt with, be it that a node failed or that
it returned a value. -/
theorem same_graph_is_dealt_with : ∃ b reply report c' w' notes, Behaviour.Local b ∧
    (prepared steady ⟨1⟩ (.new tellers .missing)).cycle.execute
      (prepared steady ⟨1⟩ (.new tellers .missing)).workspace b = some (reply, report) ∧
    reply.answer = .ok () ∧
    (prepared steady ⟨2⟩ reply.workspace).cycle.computeDelta
      (prepared steady ⟨2⟩ reply.workspace).workspace reply.cycle = ⟨c', w', .ok notes⟩ ∧
    c'.isExecuted "Market" (some added) = true ∧ c'.isExecuted "Market" (some telling) = true ∧
    ∀ n, c'.isExecuted "Market" (some n) = true → reply.cycle.DealtWith "Market" n := by
  obtain ⟨b, reply, report, hb, hx, hok, hstate, hhandle⟩ := exists_settling
  obtain ⟨hlived, hview, hready, hno⟩ := prepared_spec steady ⟨2⟩ reply.workspace
  obtain ⟨hlived₀, hview₀, hready₀, -⟩ := prepared_spec steady ⟨1⟩ (.new tellers .missing)
  have hmem : "Market" ∈ steady.model.names := by decide +kernel
  obtain ⟨c', w', notes, hdelta, hmarks⟩ := computeDelta_marks_unchanged
    (prepared steady ⟨2⟩ reply.workspace).cycle hlived hready.state_eq
    (prepared steady ⟨2⟩ reply.workspace).workspace reply.cycle hstate
  obtain ⟨hexecuted, -, hprevious⟩ := hmarks [] "Market" settling [] (hview ▸ graphs_steady)
  have htaken : ∀ i n, settling.nodes[i]? = some n → n.isLive = false →
      c'.isExecuted "Market" (some n) = true := fun i n hn hl =>
    (hexecuted n).mpr (.inr ⟨_, _, (hready.housed "Market").trans (if_pos (hview ▸ hmem)), hhandle,
      Delta.mem_unchangedNodes acyclic_settling hn hl (not_edge_settling i) _ _⟩)
  obtain ⟨-, -, hall⟩ := hprevious _ _ _ reply report hlived₀ hready₀.state_eq hb hx hok rfl
    settling (hview₀ ▸ by rfl) (built_graph _ _)
  exact ⟨b, reply, report, c', w', notes, hb, hx, hok, hdelta, htaken 1 added rfl rfl,
    htaken 2 telling rfl rfl, fun n hn => hall acyclic_settling disjoint_settling
      (fun _ hm => hm) n hn (hno "Market" hmem n)⟩

end Cycle
end ValuationCycle
