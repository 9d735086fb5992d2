import ValuationCycle.Proofs.Cycle.Isolation
import ValuationCycle.Proofs.Cycle.Transparency
import ValuationCycle.Proofs.Execution.Stopping

/-!
# What a whole cycle reports

A cycle that begins with empty caches, prepares its inputs, executes its plans and populates its
result has, of the outputs that its view asks for, the live data of the snapshot and what the
functions of its nodes returned.
-/
namespace ValuationCycle
open Json Std

theorem EvaluationModel.mem_liveOutputs_iff {model : EvaluationModel} {s : Specification} :
    s ∈ model.liveOutputs ↔
      ∃ e ∈ model.graphs.toList, ∃ n ∈ e.2.nodes, n.isLive = true ∧ s ∈ n.outputs := by
  simp only [liveOutputs, values_eq_map_toList, ExtTreeSet.mem_ofList, List.contains_iff_mem,
    List.mem_flatMap, List.mem_map, List.mem_filter, Node.isLive_eq, ExtTreeSet.mem_toList]
  constructor
  · rintro ⟨g, ⟨e, he, rfl⟩, n, ⟨hn, hl⟩, hs⟩
    exact ⟨e, he, n, hn, hl, hs⟩
  · rintro ⟨e, he, n, hn, hl, hs⟩
    exact ⟨e.2, ⟨e, he, rfl⟩, n, ⟨hn, hl⟩, hs⟩

namespace Execution
variable {x y : Execution} {c : String} {q : Request} {r : Repository} {marks : NodeMarks}
  {outcomes : List (Nat × Answer)} {vs : List Storing}

/-- What all outcomes of a run left under a specification, one of them left there: no other node
has it as an output. -/
theorem Accounted.exists_value? (h : Accounted c q r marks outcomes vs x)
    (hdisjoint : q.graph.Disjoint) (hkeeps : ∀ n ∈ q.graph.nodes, n.KeepsToOutputs r)
    {s : Specification} {v : Value}
    (hv : lastValue? (outcomes.flatMap fun o => o.2.values) s = some v) :
    ∃ o ∈ outcomes, o.2.value? s = some v := by
  obtain ⟨u, hu, rfl, -⟩ := exists_of_lastValue? hv
  obtain ⟨o, ho, hu⟩ := List.mem_flatMap.mp hu
  obtain ⟨v', hv'⟩ := exists_lastValue? hu
  rw [h.lastValue?_eq hdisjoint hkeeps ho hv'] at hv
  exact ⟨o, ho, hv'.trans hv⟩

end Execution

namespace Cycle
variable {c : Cycle} {w : Workspace} {group : CacheGroup} {m : ExtTreeMap String NodeMarks}
  {es : List (String × RunEvent)} {y : Execution}

theorem accounted_requests
    (hes : (Execution.submitAll w m (c.requests group)).steps? es = some y)
    {e : String × Graph} (he : e ∈ c.view.model.graphs.toList) :
    Execution.Accounted e.1 (c.request group e) w.repository (m[e.1]?.getD .empty)
      (settling ((Execution.submitAll w m (c.requests group)).recorded e.1 es))
      ((Execution.submitAll w m (c.requests group)).stored es) y := by
  have hnames : ((c.requests group).map fun q => q.graph.configuration).Nodup := by
    rw [map_configuration_requests]
    exact c.view.model.nodup_names
  have hcaches : ((c.requests group).map Request.cache).Nodup := by
    have hnames := c.view.model.nodup_map_fst
    rw [requests, List.map_map]
    exact List.Nodup.of_map CacheHandle.configuration (by rwa [List.map_map])
  have hq : c.request group e ∈ c.requests group := List.mem_map_of_mem he
  have h := (Execution.accounted_submitAll w m hnames hq fun p hp =>
    List.inj_on_of_nodup_map hcaches hp hq).steps hes
  rw [configuration_request (EvaluationModel.configuration_of_mem he)] at h
  simpa using h

theorem spilled_eq_nil_of_keeps
    (hes : (Execution.submitAll w m (c.requests group)).steps? es = some y)
    (hkeeps : ∀ e ∈ c.view.model.graphs.toList, ∀ n ∈ e.2.nodes, n.isLive = false →
      n.KeepsToOutputs w.repository) (k : CacheGroup) :
    Storing.spilled k ((Execution.submitAll w m (c.requests group)).stored es) = [] := by
  refine List.eq_nil_iff_forall_not_mem.mpr fun u hu => ?_
  obtain ⟨v, hv, -, hprivate, -⟩ := Storing.mem_spilled.mp hu
  obtain ⟨e, he, hq⟩ := List.mem_map.mp ((stored_requests hes).2 v hv).1
  have h := accounted_requests hes he
  obtain ⟨o, ho, u', hu', rfl⟩ := h.exists_outcome hv hq.symm
  have := h.isPrivate (fun n hn => (mem_nodes_request.mp hn).2.1)
    (fun n hn => hkeeps e he n (mem_nodes_request.mp hn).1 (mem_nodes_request.mp hn).2.1)
    (List.mem_flatMap.mpr ⟨o, ho, hu'⟩)
  simp [hprivate] at this

/-- Where the hint of a whole graph points after its run: to what the run stored, under outputs of
nodes that are invoked, and else to what was shared before. -/
theorem getHinted?_after
    (hes : (Execution.submitAll w m (c.requests group)).steps? es = some y)
    (hkeeps : ∀ e ∈ c.view.model.graphs.toList, ∀ n ∈ e.2.nodes, n.isLive = false →
      n.KeepsToOutputs w.repository)
    {e : String × Graph} (he : e ∈ c.view.model.graphs.toList)
    (hempty : (w.cache ⟨group, e.1⟩).privatePart = ∅) (s : Specification) :
    (y.workspace.cache ⟨group, e.1⟩).getHinted? (.ofGraph e.2) s =
      if (CacheHint.ofGraph e.2).isPrivate s then
        lastValue?
          ((settling ((Execution.submitAll w m (c.requests group)).recorded e.1 es)).flatMap
            fun o => o.2.values) s
      else (w.cache ⟨group, e.1⟩).sharedPart[s]? := by
  have hstored := (stored_requests hes).1
  have hkept := (accounted_requests hes he).kept_eq (fun n hn => (mem_nodes_request.mp hn).2.1)
    fun n hn => hkeeps e he n (mem_nodes_request.mp hn).1 (mem_nodes_request.mp hn).2.1
  unfold Cache.getHinted?
  split
  · rw [hstored.private_eq, hempty, ExtTreeMap.getElem?_empty, Option.or_none]
    exact congrArg (lastValue? · s) hkept
  · rw [hstored.shared_eq, spilled_eq_nil_of_keeps hes hkeeps]
    rfl

theorem mem_reported {g : Graph} {s : Specification} : s ∈ c.reported g ↔
    c.view.definition.policy.reports g s = true ∧ ∃ n ∈ g.nodes, s ∈ n.outputs := by
  simp [reported, Graph.outputs, and_comm]

theorem found_eq_filterMap (c : Cycle) (w : Workspace) (group : CacheGroup) (e : String × Graph) :
    c.found w group e = e.2.outputs.filterMap fun s =>
      (((c.found w group e).find? fun v => v.specification == s).map ComputedValue.value).map
        (⟨s, ·⟩) := by
  simp only [find?_found]
  rw [found, reported, List.filterMap_filter]
  refine List.filterMap_congr fun s hs => ?_
  by_cases hp : c.view.definition.policy.reports e.2 s = true <;> simp [hp, hs]

/-- Nodes of a graph that are executed when its run has come to where it is: those that source live
data, and those whose functions returned values. -/
theorem mem_executed_after
    (hes : (Execution.submitAll w m (c.requests group)).steps? es = some y)
    {e : String × Graph} (he : e ∈ c.view.model.graphs.toList)
    (hmarks : m[e.1]?.getD .empty = NodeMarks.empty.markLive e.2) (n : Node) :
    n ∈ (y.marks[e.1]?.getD .empty).executed ↔ (n ∈ e.2.nodes ∧ n.isLive = true) ∨
      ∃ values, (n, .ran (.returned values)) ∈ (c.request group e).graph.answersIn
        ((Execution.submitAll w m (c.requests group)).recorded e.1 es) := by
  rw [(accounted_requests hes he).marks_eq, (NodeMarks.mem_foldl_outcome _ _ _ n).1,
    Execution.exists_returned_iff, hmarks, NodeMarks.mem_executed_markLive]
  simp [NodeMarks.empty]

theorem returned_of_requests
    (hes : (Execution.submitAll w m (c.requests group)).steps? es = some y)
    {e : String × Graph} (he : e ∈ c.view.model.graphs.toList) (hbuilt : e.2.Built) {n : Node}
    {values : List ComputedValue}
    (ha : (n, .ran (.returned values)) ∈ (c.request group e).graph.answersIn
      ((Execution.submitAll w m (c.requests group)).recorded e.1 es)) :
    n ∈ e.2.nodes ∧ n.isLive = false ∧ n.Succeeds w.repository values ∧
      ∀ values', (n, .ran (.returned values')) ∈ (c.request group e).graph.answersIn
        ((Execution.submitAll w m (c.requests group)).recorded e.1 es) → values' = values := by
  have h := accounted_requests hes he
  have hsettled := (Execution.mem_answersIn_settling rfl).mpr ha
  obtain ⟨i, ho, hi⟩ := Graph.mem_answersIn.mp hsettled
  obtain ⟨n', hi', hexplains⟩ := h.explained _ ho
  obtain rfl := Option.some.inj (hi.symm.trans hi')
  obtain ⟨hn, hl, -⟩ := mem_nodes_request.mp (List.mem_of_getElem? hi)
  have hnodup : (c.request group e).graph.nodes.Nodup := (hbuilt.extract _).consistent.nodup
  refine ⟨hn, hl, hexplains values rfl, fun values' ha' => ?_⟩
  simpa using h.answer_unique hnodup ((Execution.mem_answersIn_settling rfl).mpr ha') hsettled

theorem getHinted?_after_eq_some_iff
    (hes : (Execution.submitAll w m (c.requests group)).steps? es = some y)
    (hkeeps : ∀ e ∈ c.view.model.graphs.toList, ∀ n ∈ e.2.nodes, n.isLive = false →
      n.KeepsToOutputs w.repository)
    {e : String × Graph} (he : e ∈ c.view.model.graphs.toList) (hbuilt : e.2.Built)
    (hdisjoint : e.2.Disjoint) (hempty : (w.cache ⟨group, e.1⟩).privatePart = ∅)
    {s : Specification} {k : Node} (hk : k ∈ e.2.nodes) (hsk : s ∈ k.outputs) (v : Value) :
    (y.workspace.cache ⟨group, e.1⟩).getHinted? (.ofGraph e.2) s = some v ↔
      (k.isLive = true ∧ (w.cache ⟨group, e.1⟩).sharedPart[s]? = some v) ∨
      ∃ values, (k, .ran (.returned values)) ∈ (c.request group e).graph.answersIn
        ((Execution.submitAll w m (c.requests group)).recorded e.1 es) ∧
        lastValue? values s = some v := by
  have h := accounted_requests hes he
  have hrequest : ∀ n ∈ (c.request group e).graph.nodes, n.KeepsToOutputs w.repository :=
    fun n hn => hkeeps e he n (mem_nodes_request.mp hn).1 (mem_nodes_request.mp hn).2.1
  have hapart : (c.request group e).graph.Disjoint := hdisjoint.extract _ hbuilt
  rw [getHinted?_after hes hkeeps he hempty]
  cases hl : k.isLive with
  | true =>
      have hshared : (CacheHint.ofGraph e.2).isPrivate s ≠ true := fun hp => by
        obtain ⟨n, hn, hnl, hs⟩ := CacheHint.isPrivate_ofGraph.mp hp
        rw [hdisjoint.eq_of_mem_nodes hn hk hs hsk, hl] at hnl
        exact absurd hnl (by decide)
      rw [if_neg hshared, and_iff_right rfl, or_iff_left]
      rintro ⟨values, ha, -⟩
      have := (mem_nodes_request.mp (Graph.mem_nodes_of_mem_answersIn _ ha)).2.1
      exact absurd hl (by simp [this])
  | false =>
      rw [if_pos (CacheHint.isPrivate_ofGraph.mpr ⟨k, hk, hl, hsk⟩),
        or_iff_right fun hc => absurd hc.1 (by decide)]
      constructor
      · intro hv
        obtain ⟨⟨i, a⟩, ho, hv⟩ := h.exists_value? hapart hrequest hv
        obtain ⟨u, hu, hus, -⟩ := exists_of_lastValue? hv
        obtain ⟨n, hn, hsn⟩ := h.mem_outputs hrequest ho hu
        obtain ⟨values, rfl, -⟩ := Answer.mem_values.mp hu
        have hmem := (mem_nodes_request.mp (List.mem_of_getElem? hn)).1
        obtain rfl := hdisjoint.eq_of_mem_nodes hmem hk (hus ▸ hsn) hsk
        exact ⟨values, Graph.mem_answersIn.mpr ⟨i, (mem_settling.mp ho).1, hn⟩, hv⟩
      · rintro ⟨values, ha, hv⟩
        obtain ⟨i, ho, -⟩ := Graph.mem_answersIn.mp ha
        exact h.lastValue?_eq hapart hrequest (mem_settling.mpr ⟨ho, rfl⟩) hv

/-- A cycle that prepares its inputs where its view has no caches yet, executes its plans to their
end and populates its result lists exactly the configurations of the view. In each it lists, of the
outputs that the view asks for, those that a live data sourcing node has and the snapshot has a
value for, with that value, and those that the function of an executed node returned, with the
value that it returned last; and it lists them in the order of the nodes and their outputs. Circles
in the graphs make no difference, and neither does it matter if what one configuration computes
another one sources as live data. -/
theorem full_cycle_reports (view : View) (t : ValuationTime) (w : Workspace)
    (hfresh : ∀ k, k.group = w.caches.currentGroup view.name t → w.cache k = .empty)
    (hbuilt : ∀ e ∈ view.model.graphs.toList, e.2.Built)
    (hdisjoint : ∀ e ∈ view.model.graphs.toList, e.2.Disjoint)
    (hkeeps : ∀ e ∈ view.model.graphs.toList, ∀ n ∈ e.2.nodes, n.isLive = false →
      n.KeepsToOutputs w.repository) :
    let group := w.caches.currentGroup view.name t
    ∃ c₁ w₁ missing, (Cycle.new view t).prepare w = ⟨c₁, w₁, .ok missing⟩ ∧
      ∀ (b : Behaviour) (reply : Reply Unit) (report : ExecutionReport), b.Local →
        c₁.execute w₁ b = some (reply, report) → reply.answer = .ok () →
        ∃ m es y, let x := Execution.submitAll w₁ m (c₁.requests group)
          x.steps? es = some y ∧ reply.workspace = y.workspace ∧ reply.cycle.marks = y.marks ∧
          ∀ moment, ∃ result, reply.cycle.populate reply.workspace moment =
              ⟨{ reply.cycle with result }, reply.workspace, .ok ()⟩ ∧
            (∀ name, name ∈ result.results ↔ name ∈ view.model.names) ∧
            ∀ name g, view.model.graph? name = some g →
              let executed := (reply.cycle.marks[name]?.getD .empty).executed
              let answers := (c₁.request group (name, g)).graph.answersIn (x.recorded name es)
              (∀ n, n ∈ executed ↔ (n ∈ g.nodes ∧ n.isLive = true) ∨
                ∃ values, (n, .ran (.returned values)) ∈ answers) ∧
              (∀ n values, (n, .ran (.returned values)) ∈ answers →
                n ∈ g.nodes ∧ n.isLive = false ∧ n.Succeeds w.repository values ∧
                ∀ values', (n, .ran (.returned values')) ∈ answers → values' = values) ∧
              (∀ s v, result.value? name s = some v ↔
                view.definition.policy.reports g s = true ∧
                ((∃ n ∈ g.nodes, n.isLive = true ∧ s ∈ n.outputs ∧
                    w.liveData.value? t s = some v) ∨
                  ∃ n ∈ executed, s ∈ n.outputs ∧ ∃ values,
                    (n, .ran (.returned values)) ∈ answers ∧ lastValue? values s = some v)) ∧
              result.values name =
                g.outputs.filterMap fun s => (result.value? name s).map (⟨s, ·⟩) := by
  intro group
  obtain ⟨c₁, w₁, missing, hprepare, hc, hmarks, haside, hprivate, hshared⟩ := prepare_new view t w
  refine ⟨c₁, w₁, missing, hprepare, fun b reply report hb hx hok => ?_⟩
  obtain ⟨-, m, es, y, hlive, hes, -, hworkspace, hcycle⟩ := hc.ready.execute hb hx hok
  refine ⟨m, es, y, hes, hworkspace, by rw [hcycle], fun moment => ?_⟩
  have hview : reply.cycle.view = view := by rw [hcycle, hc.view_eq]
  have hempty : ∀ name, (w₁.cache ⟨group, name⟩).privatePart = ∅ := fun name => by
    rw [hprivate, hfresh _ rfl]
    rfl
  have hresult : reply.cycle.result = .empty view.name t := by rw [hcycle, hc.result_eq]
  obtain ⟨result, hpopulate, hnames, -, hvalues⟩ :=
    reply.cycle.populate_found reply.workspace group (by rw [hcycle])
      (fun name hn => by
        rw [hview] at hn
        rw [hcycle]
        exact (hc.handle name).trans (if_pos hn))
      (fun name => by rw [hresult]; rfl) moment
  refine ⟨result, hpopulate, fun name => ?_, fun name g hg => ?_⟩
  · rw [hnames, hview, hresult]
    simp [ResultModel.empty]
  have he : (name, g) ∈ view.model.graphs.toList :=
    ExtTreeMap.mem_toList_iff_getElem?_eq_some.mpr hg
  have he₁ : (name, g) ∈ c₁.view.model.graphs.toList := hc.view_eq ▸ he
  have hkeeps₁ : ∀ e ∈ c₁.view.model.graphs.toList, ∀ n ∈ e.2.nodes, n.isLive = false →
      n.KeepsToOutputs w₁.repository := by
    rw [hc.view_eq, haside.repository_eq]
    exact hkeeps
  have hexecuted := mem_executed_after hes he₁ (by
    rw [hlive _ he₁, hmarks name (EvaluationModel.name_mem he)]
    rfl)
  have hvalue : ∀ s, result.value? name s = if s ∈ reply.cycle.reported g then
      (y.workspace.cache ⟨group, name⟩).getHinted? (.ofGraph g) s else none := fun s => by
    rw [ResultModel.value?, hvalues (name, g) (hview ▸ he), find?_found, hworkspace]
  dsimp only
  rw [show reply.cycle.marks = y.marks by rw [hcycle], ← haside.repository_eq]
  have hreturned := fun (n : Node) (values : List ComputedValue)
      (ha : (n, .ran (.returned values)) ∈ (c₁.request group (name, g)).graph.answersIn _) =>
    returned_of_requests hes he₁ (hbuilt _ he) ha
  refine ⟨hexecuted, hreturned, fun s v => ?_, ?_⟩
  · have hloaded : ∀ n ∈ g.nodes, n.isLive = true → s ∈ n.outputs →
        (w₁.cache ⟨group, name⟩).sharedPart[s]? = w.liveData.value? t s := fun n hn hl hs => by
      rw [hshared name (EvaluationModel.name_mem he), hfresh _ rfl,
        if_pos (EvaluationModel.mem_liveOutputs_iff.mpr ⟨_, he, n, hn, hl, hs⟩)]
      exact Option.or_none
    have hafter := fun k hk hsk => getHinted?_after_eq_some_iff hes hkeeps₁ he₁ (hbuilt _ he)
      (hdisjoint _ he) (hempty name) (s := s) (k := k) hk hsk v
    rw [hvalue, Option.ite_none_right_eq_some, mem_reported, hview]
    constructor
    · rintro ⟨⟨hp, k, hk, hsk⟩, hv⟩
      refine ⟨hp, ?_⟩
      rcases (hafter k hk hsk).mp hv with ⟨hl, hv⟩ | ⟨values, ha, hv⟩
      · exact .inl ⟨k, hk, hl, hsk, hloaded k hk hl hsk ▸ hv⟩
      · exact .inr ⟨k, (hexecuted k).mpr (.inr ⟨values, ha⟩), hsk, values, ha, hv⟩
    · rintro ⟨hp, ⟨k, hk, hl, hsk, hv⟩ | ⟨k, -, hsk, values, ha, hv⟩⟩
      · exact ⟨⟨hp, k, hk, hsk⟩,
          (hafter k hk hsk).mpr (.inl ⟨hl, (hloaded k hk hl hsk).trans hv⟩)⟩
      · have hk := (hreturned k values ha).1
        exact ⟨⟨hp, k, hk, hsk⟩, (hafter k hk hsk).mpr (.inr ⟨values, ha, hv⟩)⟩
  · simp only [ResultModel.value?, hvalues (name, g) (hview ▸ he)]
    exact reply.cycle.found_eq_filterMap reply.workspace group (name, g)

namespace Sample
open Graph.Sample

def quoted : Node := step "2" .liveDataSourcing [] (quantity "Spot" "2")

def computing (output : Specification) : Node := step "1" .security [] output

/-- A view that reports all values of securities. On the left it computes some quantity, and on the
right it has the spot price. -/
def facing (output : Specification) : View where
  definition := { name := "View", policy := { security := .all } }
  model := .ofGraphs [graph "Left" [computing output], graph "Right" [quoted]]

def spotted (r : Repository) : Workspace :=
  { Workspace.new r .missing with
    liveData := (LiveData.empty.set (quantity "Spot" "2").requirement (.string "10")).1 }

theorem graphs_facing (output : Specification) : (facing output).model.graphs.toList =
    [("Left", graph "Left" [computing output]), ("Right", graph "Right" [quoted])] := by
  have htoList : ∀ left right : Graph,
      ((ExtTreeMap.empty.insert "Left" left : ExtTreeMap String Graph).insert
        "Right" right).toList = [("Left", left), ("Right", right)] := by
    intro left right
    rfl
  exact htoList _ _

theorem eq_of_mem_facing {output : Specification} {n : Node} {e : String × Graph}
    (he : e ∈ (facing output).model.graphs.toList) (hn : n ∈ e.2.nodes) (hl : n.isLive = false) :
    n = computing output := by
  rw [graphs_facing] at he
  rcases List.mem_cons.mp he with rfl | he
  · exact List.mem_singleton.mp hn
  · rw [List.mem_singleton.mp he] at hn
    rw [List.mem_singleton.mp hn] at hl
    exact absurd hl (by decide)

theorem sound_facing {output : Specification} {r : Repository}
    (hconfined : (computing output).Confined r) : (facing output).Sound r := by
  intro e he
  rw [graphs_facing] at he
  rcases List.mem_cons.mp he with rfl | he
  · exact ValuationCycle.Sample.sound_graph "Left" fun _ => hconfined
  · rw [List.mem_singleton.mp he]
    exact ValuationCycle.Sample.sound_graph "Right" fun hl => absurd hl (by decide)

theorem inputs_facing {output : Specification} : ∀ e ∈ (facing output).model.graphs.toList,
    ∀ n ∈ e.2.nodes, n.inputs ⊆ [] := by
  intro e he n hn
  rw [graphs_facing] at he
  rcases List.mem_cons.mp he with rfl | he
  · rw [List.mem_singleton.mp hn]
    exact List.nil_subset _
  · rw [List.mem_singleton.mp he] at hn
    rw [List.mem_singleton.mp hn]
    exact List.nil_subset _

theorem numbered_spotted {r : Repository} {group : CacheGroup} {w : Workspace}
    (h : Workspace.Aside group (spotted r) w) : w.Numbered r [] := by
  refine ⟨h.repository_eq, ?_, ?_⟩ <;> rw [h.identifiers_eq]
  · exact Identifiers.sound_empty
  · exact List.nil_subset _

theorem exists_facing {output : Specification} {r : Repository}
    (hconfined : (computing output).Confined r)
    (hsettles : ∀ look, ((computing output).answer r look).settles = true) :
    ∃ c₁ w₁ missing b reply report,
      (Cycle.new (facing output) ⟨1⟩).prepare (spotted r) = ⟨c₁, w₁, .ok missing⟩ ∧
      Behaviour.Local b ∧ c₁.execute w₁ b = some (reply, report) ∧ reply.answer = .ok () := by
  obtain ⟨c₁, w₁, missing, hprepare, hc, -, haside, -, -⟩ :=
    prepare_new (facing output) ⟨1⟩ (spotted r)
  have hnumbered := numbered_spotted haside
  have hrepository := hnumbered.repository_eq
  obtain ⟨b, reply, report, hb, hx, hok⟩ := hc.exists_execute_of_settles
    (hrepository ▸ sound_facing hconfined) (hrepository ▸ hnumbered) inputs_facing (by decide)
    fun e he n hn hl look => by
      rw [eq_of_mem_facing he hn hl, hrepository]
      exact hsettles look
  exact ⟨c₁, w₁, missing, b, reply, report, hprepare, hb, hx, hok⟩

def announced : View := facing (quantity "Price" "1")

def announcing : Workspace := spotted (speakers [])

theorem keeps_announced : ∀ e ∈ announced.model.graphs.toList, ∀ n ∈ e.2.nodes,
    n.isLive = false → n.KeepsToOutputs announcing.repository := by
  intro e he n hn hl values hsucceeds v hv
  obtain rfl : n = speaking := eq_of_mem_facing he hn hl
  exact mem_outputs_of_returns (hsucceeds.returns hv)

theorem confined_speaking : speaking.Confined (speakers []) := by
  intro look values hvalues v hv
  rw [answer_speaking] at hvalues
  obtain rfl : [_] = values := by simpa using hvalues
  rw [List.mem_singleton.mp hv]
  decide +kernel

theorem exists_announcing : ∃ c₁ w₁ missing b reply report,
    (Cycle.new announced ⟨1⟩).prepare announcing = ⟨c₁, w₁, .ok missing⟩ ∧
    Behaviour.Local b ∧ c₁.execute w₁ b = some (reply, report) ∧ reply.answer = .ok () :=
  exists_facing confined_speaking fun look => congrArg Answer.settles (answer_speaking [] look)

end Sample
open Cycle.Sample Graph.Sample

/-- The spot price is reported on the right, and nothing but what the view has. -/
theorem spot_reported : ∃ c₁ w₁ missing b reply report,
    (Cycle.new announced ⟨1⟩).prepare announcing = ⟨c₁, w₁, .ok missing⟩ ∧ Behaviour.Local b ∧
    c₁.execute w₁ b = some (reply, report) ∧ reply.answer = .ok () ∧
    ∃ result, reply.cycle.populate reply.workspace ⟨5⟩ =
        ⟨{ reply.cycle with result }, reply.workspace, .ok ()⟩ ∧
      (∀ name, name ∈ result.results ↔ name ∈ announced.model.names) ∧
      result.value? "Right" (quantity "Spot" "2") = some (.string "10") := by
  obtain ⟨c₁, w₁, missing, b, reply, report, hprepare, hb, hx, hok⟩ := exists_announcing
  have hsound : announced.Sound announcing.repository := sound_facing confined_speaking
  obtain ⟨c₁', w₁', missing', hprepare', hall⟩ := full_cycle_reports announced ⟨1⟩ announcing
    (fun _ _ => rfl) (fun e he => (hsound e he).built) (fun e he => (hsound e he).disjoint)
    keeps_announced
  obtain ⟨rfl, rfl, -⟩ := Reply.mk.inj (hprepare.symm.trans hprepare')
  obtain ⟨m, es, y, -, -, -, hresult⟩ := hall b reply report hb hx hok
  obtain ⟨result, hpopulate, hnames, hlisted⟩ := hresult ⟨5⟩
  refine ⟨c₁, w₁, missing, b, reply, report, hprepare, hb, hx, hok, result, hpopulate, hnames, ?_⟩
  obtain ⟨-, -, hvalue, -⟩ := hlisted "Right" (graph "Right" [quoted]) (by rfl)
  exact (hvalue (quantity "Spot" "2") (.string "10")).mpr ⟨rfl,
    .inl ⟨quoted, List.mem_singleton.mpr rfl, rfl, by decide, rfl⟩⟩

end Cycle
end ValuationCycle
