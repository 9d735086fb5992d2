import ValuationCycle.Proofs.Cycle.Executing
import ValuationCycle.Proofs.Cycle.Sharing
import ValuationCycle.Proofs.Execution.Stored

/-!
# Isolation of configurations

What the caches of a cycle share is to be its live data, and what a function
computes is to be read in its own configuration only. A function may return
values under any specification, though, and where no node of the submitted graph
has it as an output the value goes to the shared partition. So the shared
partition keeps what was loaded exactly as long as no function returns a value
under a specification that is no output of the graph that is run; then what a
configuration reads is what its own functions returned last, or else what its
cache had before.
-/
namespace ValuationCycle
open Json Std Graph.Sample

namespace Cycle
variable {c c₁ c₂ : Cycle} {w w₁ w₂ : Workspace} {group : CacheGroup}

/-- What may be done to a cycle with prepared inputs before its plans are executed. -/
inductive Adjusted (c : Cycle) (w : Workspace) : Cycle → Workspace → Prop
  | none : Adjusted c w c w
  | delta {c' : Cycle} {w' : Workspace} (previous : Cycle) : Adjusted c w c' w' →
      Adjusted c w (c'.computeDelta w' previous).cycle (c'.computeDelta w' previous).workspace
  | mark {c' c'' : Cycle} {w' : Workspace} {name : String} {f : NodeMarks → NodeMarks} :
      Adjusted c w c' w' → c'.mark name f = .ok c'' → Adjusted c w c'' w'
  | executableGraph {c' c'' : Cycle} {w' : Workspace} {g g' : Graph} : Adjusted c w c' w' →
      c'.executableGraph g = .ok (c'', g') → Adjusted c w c'' w'
  | interrupt {c' : Cycle} {w' : Workspace} : Adjusted c w c' w' → Adjusted c w c'.interrupt w'

/-- The values in a graph's shared outputs are not hidden by private ones. -/
def Unhidden (group : CacheGroup) (graphs : List (String × Graph)) (w : Workspace) : Prop :=
  ∀ e ∈ graphs, ∀ u : Specification, (CacheHint.ofGraph e.2).isPrivate u = false →
    (w.cache ⟨group, e.1⟩).privatePart[u]? = none

structure Adjusts (group : CacheGroup) (c : Cycle) (w : Workspace) (c' : Cycle) (w' : Workspace) :
    Prop where
  ready : c'.Ready group
  view_eq : c'.view = c.view
  repository_eq : w'.repository = w.repository
  unhidden : Unhidden group c.view.model.graphs.toList w'
  same : ∀ k : CacheHandle, k.group = group → ∀ u : Specification,
    sameValue ((w.cache k).sharedPart[u]?) ((w'.cache k).sharedPart[u]?) = true

theorem Adjusts.remarks {c' c'' : Cycle} {w' : Workspace} (h : Adjusts group c w c' w')
    (hr : c'.Remarks c'') : Adjusts group c w c'' w' :=
  ⟨hr.ready h.ready, by rw [hr.cycle_eq, ← h.view_eq], h.repository_eq, h.unhidden, h.same⟩

theorem Adjusts.delta {c' : Cycle} {w' : Workspace} (h : Adjusts group c w c' w')
    (previous : Cycle) : Adjusts group c w (c'.computeDelta w' previous).cycle
      (c'.computeDelta w' previous).workspace := by
  unfold Cycle.computeDelta
  split
  · split
    · have hshares : ∀ u, Shares u group c'.view.model.graphs.toList w'
          (carryAll previous c' w' c'.view.model.graphs.toList).workspace := fun u =>
        carryAll_shares c'.view.model.nodup_map_fst h.ready.handle
          fun e he hu => h.unhidden e (h.view_eq ▸ he) u hu
      obtain ⟨hready, hview, -, -, -⟩ := h.remarks (remarks_carryAll previous _ c' w')
      refine ⟨hready, hview, (carryAll_aside h.ready.handle).repository_eq.trans h.repository_eq,
        fun e he u hu => ?_, fun k hk u => sameValue_trans (h.same k hk u) ((hshares u).same k hk)⟩
      rw [(hshares u).private_eq _ fun e' he' hk => ?_]
      · exact h.unhidden e he u hu
      · have hname : e.1 = e'.1 := congrArg CacheHandle.configuration hk
        have he := ExtTreeMap.mem_toList_iff_getElem?_eq_some.mp he
        have he' := ExtTreeMap.mem_toList_iff_getElem?_eq_some.mp he'
        rw [h.view_eq, ← hname, he] at he'
        exact Option.some.inj he' ▸ hu
    · exact h
  · exact h

theorem Adjusted.adjusts (h : Adjusted c w c₁ w₁) (hc : c.Ready group)
    (hu : Unhidden group c.view.model.graphs.toList w) : Adjusts group c w c₁ w₁ := by
  induction h with
  | none => exact ⟨hc, rfl, rfl, hu, fun _ _ _ => sameValue_refl _⟩
  | delta previous _ ih => exact ih.delta previous
  | mark _ hm ih => exact ih.remarks (remarks_mark hm)
  | executableGraph _ hg ih => exact ih.remarks (remarks_executableGraph hg)
  | interrupt _ ih =>
      exact ⟨⟨ih.ready.state_eq, ih.ready.housed, ih.ready.marked⟩, ih.view_eq, ih.repository_eq,
        ih.unhidden, ih.same⟩

/-- In the graphs that a cycle submits every output is private. -/
theorem isPrivate_iff_of_request {v : Storing} (hv : v.request ∈ c.requests group) :
    v.isPrivate = true ↔ ∃ n ∈ v.request.graph.nodes, v.value.specification ∈ n.outputs := by
  obtain ⟨e, -, he⟩ := List.mem_map.mp hv
  rw [Storing.isPrivate, CacheHint.isPrivate_ofGraph]
  refine exists_congr fun n => and_congr_right fun hn => and_iff_right ?_
  rw [← he] at hn
  exact (mem_nodes_request.mp hn).2.1

theorem stored_requests {m : ExtTreeMap String NodeMarks} {es : List (String × RunEvent)}
    {y : Execution} (hes : (Execution.submitAll w m (c.requests group)).steps? es = some y) :
    w.Stored ((Execution.submitAll w m (c.requests group)).stored es) y.workspace ∧
      ∀ v ∈ (Execution.submitAll w m (c.requests group)).stored es,
        v.request ∈ c.requests group ∧
          ∃ n ∈ v.request.graph.nodes, n.Returns w.repository v.value := by
  have hnames : ((c.requests group).map fun q => q.graph.configuration).Nodup := by
    rw [map_configuration_requests]
    exact c.view.model.nodup_names
  have hworkspace := (Execution.submitAll_frame w m (c.requests group)).1
  refine ⟨?_, fun v hv => ?_⟩
  · have hstored := Execution.steps?_stored hes
    rwa [hworkspace] at hstored
  · obtain ⟨⟨name, run, hrun, hrequest⟩, hreturns⟩ :=
      Execution.returns_of_stored (Execution.answering_submitAll w m hnames) hv
    rw [hworkspace] at hreturns
    obtain ⟨q, hq, -, rfl⟩ := (Execution.runs_submitAll w m _ hnames name run).mp hrun
    exact ⟨hrequest ▸ hq, hreturns⟩

/-- Functions that return values under outputs of their nodes only spill nothing. -/
theorem spilled_eq_nil_of_requests {r : Repository} {vs : List Storing} {g : CacheGroup}
    (h : ∀ v ∈ vs, v.request ∈ c.requests group ∧
      ∃ n ∈ v.request.graph.nodes, n.Returns r v.value)
    (hown : ∀ e ∈ c.view.model.graphs.toList, ∀ n ∈ e.2.nodes, n.isLive = false →
      ∀ v, n.Returns r v → v.specification ∈ n.outputs) : Storing.spilled g vs = [] := by
  refine List.eq_nil_iff_forall_not_mem.mpr fun u hu => ?_
  obtain ⟨v, hv, -, hprivate, -⟩ := Storing.mem_spilled.mp hu
  obtain ⟨hrequest, n, hn, hreturns⟩ := h v hv
  refine absurd ((isPrivate_iff_of_request hrequest).mpr ⟨n, hn, ?_⟩) (by simp [hprivate])
  obtain ⟨e, he, hq⟩ := List.mem_map.mp hrequest
  rw [← hq] at hn
  obtain ⟨hn, hl, -⟩ := mem_nodes_request.mp hn
  exact hown e he n hn hl _ hreturns

/-- After inputs are prepared in fresh caches, the shared partition has exactly the live data
that was loaded, and carrying over replaces it at most by what stands for the same. While the
plans are executed it stays as it is exactly as long as no value that goes there differs; and
a value goes there exactly if no node of the submitted graph has it as an output. A
configuration reads what its own functions returned last, then what it had privately, and
only then what functions of any configuration spilled. Nothing is spilled if functions return
values under outputs of their nodes only. -/
theorem shared_kept_iff_nothing_spilled (c : Cycle) (hc : c.Lived) (hs : c.state = .created)
    (w : Workspace)
    (hfresh : ∀ k, k.group = w.caches.currentGroup c.view.name c.time → w.cache k = .empty) :
    let group := w.caches.currentGroup c.view.name c.time
    ∃ c₁ w₁, c.prepare w = ⟨c₁, w₁, .ok (c.missing w.liveData)⟩ ∧
      (∀ k, k.group = group → (w₁.cache k).privatePart = ∅ ∧
        ∀ u, (w₁.cache k).sharedPart[u]? = c.loaded w.liveData u) ∧
      ∀ c₂ w₂, Adjusted c₁ w₁ c₂ w₂ →
        (∀ k, k.group = group → ∀ u,
          sameValue (c.loaded w.liveData u) ((w₂.cache k).sharedPart[u]?) = true) ∧
        ∃ m, let x := Execution.submitAll w₂ m (c₂.requests group)
          (∀ b : Behaviour, b.Local → ∀ reply report, c₂.execute w₂ b = some (reply, report) →
            ∃ es y, x.steps? es = some y ∧ reply.workspace = y.workspace) ∧
          ∀ es y, x.steps? es = some y →
            let spilled := Storing.spilled group (x.stored es)
            (∀ v ∈ x.stored es, v.request ∈ c₂.requests group ∧
              (∃ n ∈ v.request.graph.nodes, n.Returns w.repository v.value) ∧
              (v.isPrivate = true ↔
                ∃ n ∈ v.request.graph.nodes, v.value.specification ∈ n.outputs)) ∧
            (∀ k, k.group = group →
              ((y.workspace.cache k).sharedPart = (w₂.cache k).sharedPart ↔
                ∀ u v, lastValue? spilled u = some v →
                  (w₂.cache k).sharedPart[u]? = some v)) ∧
            (∀ name u, (y.workspace.cache ⟨group, name⟩).get? u =
              (lastValue? (Storing.kept ⟨group, name⟩ (x.stored es)) u).or
                ((w₂.cache ⟨group, name⟩).privatePart[u]?.or
                  ((lastValue? spilled u).or (w₂.cache ⟨group, name⟩).sharedPart[u]?))) ∧
            ((∀ e ∈ c.view.model.graphs.toList, ∀ n ∈ e.2.nodes, n.isLive = false →
              ∀ v, n.Returns w.repository v → v.specification ∈ n.outputs) → spilled = []) := by
  intro group
  obtain ⟨c₁, w₁, hprepare, hp⟩ := prepare_created hs (hc.kept.fresh hs) w
  have hprepared : ∀ k, k.group = group → (w₁.cache k).privatePart = ∅ ∧
      ∀ u, (w₁.cache k).sharedPart[u]? = c.loaded w.liveData u := by
    intro k hk
    refine ⟨by rw [hp.private_eq, hfresh k hk]; rfl, fun u => ?_⟩
    rw [hp.shared_eq k hk, hfresh k hk]
    exact Option.or_none
  refine ⟨c₁, w₁, hprepare, hprepared, fun c₂ w₂ hadjusted => ?_⟩
  have hview : c₁.view = c.view := by rw [hp.cycle_eq]
  have h := hadjusted.adjusts (hp.ready hc.kept hs) fun e _ u _ => by
    rw [(hprepared ⟨group, e.1⟩ rfl).1, ExtTreeMap.getElem?_empty]
  obtain ⟨c', submitted, -, -, -, -, heq⟩ := h.ready.execute_eq w₂
  refine ⟨fun k hk u => ?_, c'.marks, fun b hb reply report hx => ?_, fun es y hes => ?_⟩
  · rw [← (hprepared k hk).2]
    exact h.same k hk u
  · rw [heq, Option.map_eq_some_iff] at hx
    obtain ⟨r, hwait, hr⟩ := hx
    obtain ⟨rfl, -⟩ := Prod.mk.inj hr
    obtain ⟨es, hes⟩ := waitFor_steps (hb _ _) hwait
    exact ⟨es, r.execution, hes, rfl⟩
  · obtain ⟨hstored, hreturned⟩ := stored_requests hes
    rw [h.repository_eq, hp.aside.repository_eq] at hreturned
    refine ⟨fun v hv => ⟨(hreturned v hv).1, (hreturned v hv).2,
      isPrivate_iff_of_request (hreturned v hv).1⟩, fun k hk => ?_,
      fun name u => hstored.get?_eq ⟨group, name⟩ u, fun hown => ?_⟩
    · rw [hstored.sharedPart_eq_iff, hk]
    · rw [← hview, ← h.view_eq] at hown
      exact spilled_eq_nil_of_requests hreturned hown

namespace Sample

/-- Returns what is desired and, whatever that is, some more values. -/
def speaker (more : List ComputedValue) : Invoker :=
  ⟨.security, fun i => .returned (i.desired.map (fun r =>
    ⟨i.outputSpecification r, .bool true⟩) ++ more)⟩

def speakers (more : List ComputedValue) : Repository :=
  ⟨[⟨"1", "Speaker", .security⟩], ExtTreeMap.empty.insert "1" (speaker more)⟩

def speaking : Node := step "1" .security [] (quantity "Price" "1")

/-- A view with a speaker on the left and nothing on the right. -/
def sided : View where
  definition := { name := "View" }
  model := .ofGraphs [graph "Left" [speaking], graph "Right" []]

def rumour : ComputedValue := ⟨quantity "Rumour" "1", .bool true⟩

def side (name : String) : CacheHandle := ⟨⟨"View", ⟨1⟩, 0⟩, name⟩

theorem graphs_sided : sided.model.graphs.toList =
    [("Left", graph "Left" [speaking]), ("Right", graph "Right" [])] := by rfl

theorem answer_speaking (more : List ComputedValue) (look : Specification → Option Value) :
    speaking.answer (speakers more) look =
      .ran (.returned (⟨quantity "Price" "1", .bool true⟩ :: more)) := by rfl

theorem mem_outputs_of_returns {v : ComputedValue} (h : speaking.Returns (speakers []) v) :
    v.specification ∈ speaking.outputs := by
  obtain ⟨invoker, hinvoker, i, hid, -, hdesired, values, hrun, hv⟩ := h
  obtain rfl : speaker [] = invoker := Option.some.inj hinvoker
  have hvalues : values = [⟨quantity "Price" "1", .bool true⟩] := by
    have hrun := Outcome.returned.inj hrun
    rw [hdesired, List.append_nil] at hrun
    rw [← hrun]
    change [ComputedValue.mk (i.outputSpecification _) _] = _
    rw [Invocation.outputSpecification, hid]
    rfl
  rw [hvalues, List.mem_singleton] at hv
  rw [hv]
  decide +kernel

theorem exists_spoken {w : Workspace} {m : ExtTreeMap String NodeMarks} {left right : Request}
    {more : List ComputedValue} (hw : w.repository = speakers more)
    (hleft : left.graph = graph "Left" [speaking]) (hright : right.graph = graph "Right" []) :
    ∃ es x, (Execution.submitAll w m [left, right]).steps? es = some x ∧
      (∀ q ∈ [left, right], x.ending? q.graph.configuration = some (.ok ())) ∧
      w.Stored ((⟨quantity "Price" "1", .bool true⟩ :: more).map (⟨left, ·⟩)) x.workspace := by
  obtain ⟨leftGraph, leftCache, leftKeeps⟩ := left
  obtain ⟨rightGraph, rightCache, rightKeeps⟩ := right
  obtain rfl : leftGraph = graph "Left" [speaking] := hleft
  obtain rfl : rightGraph = graph "Right" [] := hright
  set left : Request := ⟨graph "Left" [speaking], leftCache, leftKeeps⟩
  set right : Request := ⟨graph "Right" [], rightCache, rightKeeps⟩
  have hnames : ([left, right].map fun q => q.graph.configuration).Nodup := by
    change ["Left", "Right"].Nodup
    decide
  have hruns := Execution.runs_submitAll w m [left, right] hnames
  obtain ⟨hworkspace, -, -⟩ := Execution.submitAll_frame w m [left, right]
  set x := Execution.submitAll w m [left, right]
  have hsite := Execution.site?_of_run ((hruns "Left" (.start left)).mpr ⟨left, by simp, rfl, rfl⟩)
  obtain ⟨s, hs, hstored, hrunning, hready, hjobs⟩ := Site.exists_returning (i := 0)
    (s := ⟨x.workspace, x.marks["Left"]?.getD .empty, .start left, x.journal⟩) rfl rfl rfl rfl rfl
    rfl (hworkspace ▸ hw ▸ answer_speaking more _)
  obtain ⟨y, hy, hysite, hother⟩ := Execution.exists_steps? hsite hs
  obtain ⟨hyworkspace, -, hyrun, -⟩ := Execution.site?_eq_some hysite
  have hyother := (hother "Right" (by decide)).trans
    ((hruns "Right" (.start right)).mpr ⟨right, by simp, rfl, rfl⟩)
  obtain ⟨z, hz, hend⟩ := Execution.exists_finishes (x := y) hnames <| by
    intro q hq
    rcases List.mem_cons.mp hq with rfl | hq
    · exact ⟨_, hyrun, hrunning, hready, hjobs⟩
    · rw [List.mem_singleton.mp hq]
      exact ⟨_, hyother, rfl, rfl, rfl⟩
  have hfinishes := Execution.steps?_stored hz
  rw [Execution.stored_finishes, ← hyworkspace] at hfinishes
  refine ⟨_, z, by rw [Execution.steps?_append, hy, Option.bind_some, hz], hend, ?_⟩
  have hall := hstored.trans hfinishes
  rw [List.append_nil, hworkspace] at hall
  exact hall

theorem exists_pass (more : List ComputedValue) : ∃ c₁ w₁ b reply report left,
    (Cycle.new sided ⟨1⟩).prepare (.new (speakers more) .missing) = ⟨c₁, w₁, .ok []⟩ ∧
    (∀ u, (w₁.cache (side "Right")).get? u = none) ∧ Behaviour.Local b ∧
    c₁.execute w₁ b = some (reply, report) ∧ reply.answer = .ok () ∧
    left.graph = graph "Left" [speaking] ∧ left.cache = side "Left" ∧
    w₁.Stored ((⟨quantity "Price" "1", .bool true⟩ :: more).map (⟨left, ·⟩))
      reply.workspace := by
  obtain ⟨c₁, w₁, missing, hprepare, hc, hmarks, haside, hprivate, hshared⟩ :=
    prepare_new sided ⟨1⟩ (.new (speakers more) .missing)
  obtain rfl : [] = missing := Except.ok.inj (congrArg Reply.answer hprepare)
  obtain ⟨m, hrow⟩ := hc.execute_row w₁
  set left := c₁.request ⟨"View", ⟨1⟩, 0⟩ ("Left", graph "Left" [speaking]) with hleft
  set right := c₁.request ⟨"View", ⟨1⟩, 0⟩ ("Right", graph "Right" []) with hright
  have hrequests : c₁.requests ⟨"View", ⟨1⟩, 0⟩ = [left, right] := by
    rw [requests, hc.view_eq, graphs_sided]
    rfl
  have hleftGraph : left.graph = graph "Left" [speaking] := by
    rw [hleft, request, hmarks "Left" (by decide +kernel)]
    rfl
  have hrightGraph : right.graph = graph "Right" [] := by
    rw [hright, request, hmarks "Right" (by decide +kernel)]
    rfl
  obtain ⟨es, x, hes, hend, hstored⟩ :=
    exists_spoken (w := w₁) (m := m) haside.repository_eq hleftGraph hrightGraph
  obtain ⟨reply, report, hx, hok, hworkspace⟩ := hrow es x (hrequests ▸ hes) (hrequests ▸ hend)
  refine ⟨c₁, w₁, .row es, reply, report, left, hprepare, fun u => ?_,
    Behaviour.local_row es, hx, hok, hleftGraph, rfl, ?_⟩
  · have hlive : u ∉ sided.model.liveOutputs := by
      rw [← ExtTreeSet.mem_toList, show sided.model.liveOutputs.toList = [] by rfl]
      exact List.not_mem_nil
    have hright := hshared "Right" (by decide +kernel) u
    rw [if_neg hlive] at hright
    rw [Cache.get?, hprivate (side "Right")]
    exact congrArg (Option.or none) hright
  · rwa [hworkspace (by rw [hc.view_eq]; decide +kernel)]

end Sample
open Cycle.Sample

/-- What the function on the left returns without being asked is read on the right, though no
live data was loaded. -/
theorem rumour_crosses_over : ∃ c₁ w₁ b reply report,
    (∀ k, (Workspace.new (speakers [rumour]) .missing).cache k = .empty) ∧
    (Cycle.new sided ⟨1⟩).prepare (.new (speakers [rumour]) .missing) = ⟨c₁, w₁, .ok []⟩ ∧
    (w₁.cache (side "Right")).get? rumour.specification = none ∧ Behaviour.Local b ∧
    c₁.execute w₁ b = some (reply, report) ∧ reply.answer = .ok () ∧
    (reply.workspace.cache (side "Right")).get? rumour.specification = some rumour.value := by
  obtain ⟨c₁, w₁, b, reply, report, left, hprepare, hempty, hb, hx, hok, hgraph, hcache, hstored⟩ :=
    exists_pass [rumour]
  refine ⟨c₁, w₁, b, reply, report, fun _ => rfl, hprepare, hempty _, hb, hx, hok, ?_⟩
  have hnone := hempty rumour.specification
  rw [Cache.get?, Option.or_eq_none_iff] at hnone
  have hkept : Storing.kept (side "Right")
      ([⟨quantity "Price" "1", .bool true⟩, rumour].map (Storing.mk left)) = [] := by
    refine Storing.kept_eq_nil fun v hv => ?_
    obtain ⟨u, -, rfl⟩ := List.mem_map.mp hv
    rw [hcache]
    decide
  have hspilled := Storing.lastValue?_spilled left
    [⟨quantity "Price" "1", .bool true⟩, rumour] (side "Left").group rumour.specification
  rw [hcache, hgraph] at hspilled
  rw [Cache.get?, hstored.private_eq, hstored.shared_eq, hnone.1, hnone.2, hkept]
  change ((none : Option Value).or none).or ((lastValue? (Storing.spilled (side "Left").group _)
    _).or none) = _
  rw [hspilled]
  rfl

/-- Where the speaker only answers, the sides share what was loaded after every event. -/
theorem sides_stay_apart : ∃ c₁ w₁ m,
    (∀ k, (Workspace.new (speakers []) .missing).cache k = .empty) ∧
    (Cycle.new sided ⟨1⟩).prepare (.new (speakers []) .missing) = ⟨c₁, w₁, .ok []⟩ ∧
    ∀ es y, (Execution.submitAll w₁ m (c₁.requests (side "Left").group)).steps? es = some y →
      ∀ name, (y.workspace.cache (side name)).sharedPart = (w₁.cache (side name)).sharedPart := by
  obtain ⟨c₁, w₁, hprepare, -, hall⟩ := shared_kept_iff_nothing_spilled (.new sided ⟨1⟩)
    (.new sided ⟨1⟩) rfl (.new (speakers []) .missing) fun _ _ => rfl
  obtain ⟨-, m, -, hsteps⟩ := hall c₁ w₁ .none
  refine ⟨c₁, w₁, m, fun _ => rfl, hprepare, fun es y hes name => ?_⟩
  obtain ⟨-, hshared, -, hown⟩ := hsteps es y hes
  refine (hshared (side name) rfl).mpr fun u v hv => ?_
  rw [hown fun e he n hn _ v hreturns => ?_] at hv
  · simp [lastValue?] at hv
  · have hspeaking : n = speaking := by
      change e ∈ sided.model.graphs.toList at he
      rw [graphs_sided] at he
      rcases List.mem_cons.mp he with rfl | he
      · exact List.mem_singleton.mp hn
      · rw [List.mem_singleton.mp he] at hn
        exact absurd hn List.not_mem_nil
    rw [hspeaking] at hreturns ⊢
    exact mem_outputs_of_returns hreturns

end Cycle
end ValuationCycle
