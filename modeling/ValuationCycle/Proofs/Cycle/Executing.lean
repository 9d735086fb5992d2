import ValuationCycle.Proofs.Cycle.Life
import ValuationCycle.Proofs.Cycle.Reuse
import ValuationCycle.Proofs.Execution.Interleaving

/-!
# Executing plans

A cycle whose waiting finishes has run, for every configuration, the nodes that
are not live and have no executed mark, and in some order of events: while it
waits the runs do nothing but events of theirs, and an end that a wait sees has
come.
-/
namespace ValuationCycle
open Json Std

/-- The waits are for executions that run here. -/
def Execution.Awaits : Execution → List String → List Wait → Prop
  | x, name :: rest, wait :: waits => (∃ es, x.steps? es = some (wait.work x)) ∧
      match wait.seen with
      | .interrupted => True
      | .timedOut => (wait.work x).Awaits (rest ++ [name]) waits
      | .ended e => (wait.work x).ending? name = some e ∧ (wait.work x).Awaits rest waits
  | _, _, _ => True

/-- Whatever is submitted runs here. -/
def Behaviour.Local (b : Behaviour) : Prop :=
  ∀ (names : List String) (x : Execution), x.Awaits names (b names x)

/-- When waiting finishes, the executions have gone on by some row of events, and those
waited for have come to their ends. -/
theorem waitFor_finished {signalled : Bool} {x y : Execution} {queue cancelled : List String}
    {waits : List Wait} (ha : x.Awaits queue waits)
    (h : waitFor signalled x queue waits = some ⟨.finished, cancelled, y⟩) :
    ∃ es, x.steps? es = some y ∧ ∀ name ∈ queue, y.ending? name = some (.ok ()) := by
  induction waits generalizing x queue with
  | nil =>
      cases queue with
      | nil =>
          obtain ⟨-, -, rfl⟩ : Verdict.finished = .finished ∧ [] = cancelled ∧ x = y := by
            simpa [waitFor] using h
          exact ⟨[], rfl, by simp⟩
      | cons name rest => simp [waitFor] at h
  | cons wait waits ih =>
      cases queue with
      | nil =>
          obtain ⟨-, -, rfl⟩ : Verdict.finished = .finished ∧ [] = cancelled ∧ x = y := by
            simpa [waitFor] using h
          exact ⟨[], rfl, by simp⟩
      | cons name rest =>
          obtain ⟨⟨es, hes⟩, hseen⟩ := ha
          rw [waitFor] at h
          split at h
          · simp at h
          · cases hw : wait.seen with
            | interrupted => simp [hw] at h
            | timedOut =>
                rw [hw] at h hseen
                obtain ⟨fs, hfs, hend⟩ := ih hseen h
                refine ⟨es ++ fs, by rw [Execution.steps?_append, hes, Option.bind_some, hfs],
                  fun other ho => hend other ?_⟩
                simpa [or_comm] using ho
            | ended e =>
                rw [hw] at h hseen
                cases e with
                | error err => simp at h
                | ok =>
                    obtain ⟨fs, hfs, hend⟩ := ih hseen.2 h
                    refine ⟨es ++ fs, by rw [Execution.steps?_append, hes, Option.bind_some, hfs],
                      fun other ho => ?_⟩
                    rcases List.mem_cons.mp ho with rfl | ho
                    · exact Execution.steps?_ending hfs hseen.1
                    · exact hend other ho

theorem waitFor_steps {signalled : Bool} {x : Execution} {queue : List String} {waits : List Wait}
    {r : WaitReport} (ha : x.Awaits queue waits) (h : waitFor signalled x queue waits = some r) :
    ∃ es, x.steps? es = some r.execution := by
  induction waits generalizing x queue with
  | nil =>
      cases queue with
      | nil =>
          obtain rfl := Option.some.inj h
          exact ⟨[], rfl⟩
      | cons name rest => simp [waitFor] at h
  | cons wait waits ih =>
      cases queue with
      | nil =>
          obtain rfl := Option.some.inj h
          exact ⟨[], rfl⟩
      | cons name rest =>
          obtain ⟨⟨es, hes⟩, hseen⟩ := ha
          have hlater : ∀ queue, (wait.work x).Awaits queue waits →
              waitFor signalled (wait.work x) queue waits = some r →
              ∃ es, x.steps? es = some r.execution := by
            intro queue hawaits hwait
            obtain ⟨fs, hfs⟩ := ih hawaits hwait
            exact ⟨es ++ fs, by rw [Execution.steps?_append, hes, Option.bind_some, hfs]⟩
          rw [waitFor] at h
          split at h
          · obtain rfl := Option.some.inj h
            exact ⟨[], rfl⟩
          · cases hw : wait.seen with
            | interrupted =>
                rw [hw] at h
                obtain rfl := Option.some.inj h
                exact ⟨es, hes⟩
            | timedOut =>
                rw [hw] at h hseen
                exact hlater _ hseen h
            | ended e =>
                rw [hw] at h hseen
                cases e with
                | error err =>
                    obtain rfl := Option.some.inj h
                    exact ⟨es, hes⟩
                | ok => exact hlater _ hseen.2 h

/-- The waits for executions that all have gone on to some point when the first begins. -/
def Execution.waitsAt (y : Execution) (names : List String) : List Wait :=
  names.map fun name => ⟨false, fun _ => y, match y.ending? name with
    | some e => .ended e
    | none => .interrupted⟩

/-- Executions go on by a row of events before the first wait is over. -/
def Behaviour.row (es : List (String × RunEvent)) : Behaviour := fun names x =>
  match x.steps? es with
  | some y => y.waitsAt names
  | none => []

theorem Behaviour.local_row (es : List (String × RunEvent)) : Behaviour.Local (.row es) := by
  have hawaits : ∀ (names : List String) (x y : Execution), (∃ es, x.steps? es = some y) →
      x.Awaits names (y.waitsAt names) := by
    intro names
    induction names with
    | nil => exact fun _ _ _ => trivial
    | cons name names ih =>
        intro x y hxy
        refine ⟨hxy, ?_⟩
        dsimp only
        cases hend : y.ending? name with
        | none => trivial
        | some e => exact ⟨rfl, ih y y ⟨[], rfl⟩⟩
  intro names x
  unfold Behaviour.row
  cases hes : x.steps? es with
  | none => cases names <;> trivial
  | some y => exact hawaits names x y ⟨es, hes⟩

/-- Such waits come to an end where all executions have, and leave them as they are. -/
theorem waitFor_row {x y : Execution} {names : List String}
    (h : ∀ name ∈ names, y.ending? name = some (.ok ())) :
    waitFor false x names (y.waitsAt names) =
      some ⟨.finished, [], if names = [] then x else y⟩ := by
  induction names generalizing x with
  | nil => rfl
  | cons name names ih =>
      rw [Execution.waitsAt, List.map_cons, waitFor]
      simpa [h name (by simp), Execution.waitsAt] using
        ih (x := y) fun other ho => h other (by simp [ho])

theorem Node.isLive_eq (n : Node) : n.isLive = !n.function.kind.requiresInvocation := by
  cases hk : n.function.kind <;> simp [Node.isLive, hk, FunctionKind.requiresInvocation]

theorem NodeMarks.mem_executed_markLive {m : NodeMarks} {g : Graph} {n : Node} :
    n ∈ (m.markLive g).executed ↔ n ∈ m.executed ∨ n ∈ g.nodes ∧ n.isLive = true := by
  rw [markLive, mem_executed_foldl, List.mem_filter, n.isLive_eq]

theorem NodeMarks.failed_markLive (m : NodeMarks) (g : Graph) :
    (m.markLive g).failed = m.failed := failed_foldl _ m

def View.Sound (view : View) (r : Repository) : Prop :=
  ∀ e ∈ view.model.graphs.toList, e.2.Sound r

namespace Cycle
variable {c : Cycle} {group : CacheGroup} {e : String × Graph}

def request (c : Cycle) (group : CacheGroup) (e : String × Graph) : Request :=
  ⟨e.2.extract fun n => !((c.marks[e.1]?.getD .empty).markLive e.2).isExecuted n,
    ⟨group, e.1⟩, c.view.keepsStatistics⟩

theorem mem_nodes_request {n : Node} : n ∈ (c.request group e).graph.nodes ↔
    n ∈ e.2.nodes ∧ n.isLive = false ∧ n ∉ c.executed e.1 := by
  have hmarked : ((c.marks[e.1]?.getD .empty).markLive e.2).isExecuted n = true ↔
      n ∈ c.executed e.1 ∨ n ∈ e.2.nodes ∧ n.isLive = true := by
    rw [NodeMarks.isExecuted, List.contains_iff_mem, NodeMarks.mem_executed_markLive]
    rfl
  rw [request, Graph.mem_nodes_extract, Bool.not_eq_true', Bool.eq_false_iff, Ne, hmarked]
  grind

theorem configuration_request (hc : e.2.configuration = e.1) :
    (c.request group e).graph.configuration = e.1 :=
  (Graph.configuration_extract e.2 _).trans hc

theorem executableGraph_eq (hc : e.2.configuration = e.1) {m : NodeMarks}
    (hm : c.marks[e.1]? = some m) (group : CacheGroup) :
    c.executableGraph e.2 = .ok (c.setMarks e.1 (m.markLive e.2), (c.request group e).graph) := by
  rw [executableGraph, hc, hm, request, hm]
  rfl

theorem executable_request {view : View} {r : Repository} (hs : view.Sound r)
    (he : e ∈ view.model.graphs.toList) : (c.request group e).Executable r where
  built := (hs e he).built.extract _
  acyclic := (hs e he).acyclic.extract _ (hs e he).built (hs e he).disjoint
  disjoint := (hs e he).disjoint.extract _ (hs e he).built
  invoked _ hn := (mem_nodes_request.mp hn).2.1
  confined n hn := (hs e he).confined n (mem_nodes_request.mp hn).1 (mem_nodes_request.mp hn).2.1

theorem submissions_eq (c : Cycle) (group : CacheGroup) {graphs : List (String × Graph)}
    (hnames : (graphs.map Prod.fst).Nodup)
    (hconfiguration : ∀ e ∈ graphs, e.2.configuration = e.1)
    (hhandles : ∀ e ∈ graphs, c.handles[e.1]? = some ⟨group, e.1⟩)
    (hmarks : ∀ e ∈ graphs, ∃ m, c.marks[e.1]? = some m) :
    ∃ c' submitted, c.submissions graphs = (c', .ok submitted) ∧
      c' = { c with marks := c'.marks } ∧
      submitted.map Submission.request = graphs.map (c.request group) ∧
      (∀ name, name ∉ graphs.map Prod.fst → c'.marks[name]? = c.marks[name]?) ∧
      ∀ e ∈ graphs, c'.marks[e.1]?.getD .empty = (c.marks[e.1]?.getD .empty).markLive e.2 := by
  induction graphs generalizing c with
  | nil => exact ⟨c, [], rfl, rfl, rfl, fun _ _ => rfl, by simp⟩
  | cons e rest ih =>
      obtain ⟨name, g⟩ := e
      simp only [List.map_cons, List.nodup_cons] at hnames
      simp only [List.mem_cons, forall_eq_or_imp] at hconfiguration hhandles hmarks
      obtain ⟨⟨m, hm⟩, hmarks⟩ := hmarks
      have hother : ∀ other, other ≠ name →
          (c.setMarks name (m.markLive g)).marks[other]? = c.marks[other]? := by
        intro other ho
        rw [setMarks, ExtTreeMap.getElem?_insert,
          if_neg fun hc => ho (LawfulEqOrd.eq_of_compare hc).symm]
      have hne : ∀ e ∈ rest, (c.setMarks name (m.markLive g)).marks[e.1]? = c.marks[e.1]? :=
        fun e he => hother e.1 fun hc => hnames.1 (List.mem_map.mpr ⟨e, he, hc⟩)
      obtain ⟨c', submitted, hrest, hc', hsubmitted, hkept, hlive⟩ :=
        ih (c.setMarks name (m.markLive g)) hnames.2 hconfiguration.2 hhandles.2 fun e he => by
          rw [hne e he]
          exact hmarks e he
      refine ⟨c', ⟨c.request group (name, g), g.size⟩ :: submitted, ?_, hc', ?_, ?_, ?_⟩
      · have hexecutable := executableGraph_eq (e := (name, g)) hconfiguration.1 hm group
        have hhandle : (c.setMarks name (m.markLive g)).handles[name]? = some ⟨group, name⟩ :=
          hhandles.1
        have hview : c'.view = c.view := by rw [hc']; rfl
        rw [submissions, hexecutable]
        simp only [hhandle, hrest, hview]
        rfl
      · rw [List.map_cons, hsubmitted, List.map_cons]
        refine congrArg _ (List.map_congr_left fun e he => ?_)
        rw [request, request, hne e he]
        rfl
      · intro other ho
        simp only [List.map_cons, List.mem_cons, not_or] at ho
        rw [hkept other ho.2, hother other ho.1]
      · intro e he
        rcases List.mem_cons.mp he with rfl | he
        · rw [hkept name hnames.1, setMarks, ExtTreeMap.getElem?_insert_self, hm]
          rfl
        · rw [hlive e he, hne e he]

def requests (c : Cycle) (group : CacheGroup) : List Request :=
  c.view.model.graphs.toList.map (c.request group)

theorem map_configuration_requests (c : Cycle) (group : CacheGroup) :
    (c.requests group).map (fun q => q.graph.configuration) = c.view.model.names := by
  rw [requests, List.map_map, ← c.view.model.map_fst_toList]
  exact List.map_congr_left fun e he =>
    configuration_request (EvaluationModel.configuration_of_mem he)

theorem foldl_submit (w : Workspace) (m : ExtTreeMap String NodeMarks) {submitted : List Submission}
    {requests : List Request} (h : submitted.map Submission.request = requests) :
    submitted.foldl (fun x s => x.submit s.request) (Execution.start w m) =
      Execution.submitAll w m requests := by
  rw [Execution.submitAll, ← h, List.foldl_map]

/-- Executing plans submits one graph for each configuration, with its live data sourcing
nodes marked, and then waits. -/
theorem Ready.execute_eq (h : Ready group c) (w : Workspace) :
    ∃ (c' : Cycle) (submitted : List Submission),
      { c with state := .executing }.submissions c.view.model.graphs.toList =
        (c', .ok submitted) ∧
      c' = { c with state := .executing, marks := c'.marks } ∧
      submitted.map Submission.request = c.requests group ∧
      (∀ e ∈ c.view.model.graphs.toList,
        c'.marks[e.1]?.getD .empty = (c.marks[e.1]?.getD .empty).markLive e.2) ∧
      ∀ b : Behaviour,
      let x := Execution.submitAll w c'.marks (c.requests group)
      c.execute w b = (waitFor c.interrupted x c.view.model.names
          (b c.view.model.names x)).map fun r =>
        (⟨c'.close r, r.execution.workspace, (conclude r.verdict).2⟩,
          ⟨submitted, r.cancelled, r.execution.journal⟩) := by
  obtain ⟨c', submitted, hsubmissions, hc', hsubmitted, -, hlive⟩ := submissions_eq
    { c with state := .executing } group
    c.view.model.nodup_map_fst
    (fun e he => EvaluationModel.configuration_of_mem he)
    h.handle
    (fun e he => h.marked _ (EvaluationModel.name_mem he))
  have hpermits : c.permits .executePlans = true := by rw [permits, h.state_eq]; rfl
  have hrequests : submitted.map Submission.request = c.requests group := hsubmitted
  have hfold := foldl_submit w c'.marks hrequests
  have hinterrupted : c'.interrupted = c.interrupted := by rw [hc']
  refine ⟨c', submitted, hsubmissions, hc', hrequests, hlive, fun b => ?_⟩
  rw [Cycle.execute, if_pos hpermits]
  simp only [hsubmissions, hfold, hinterrupted, c.view.model.map_fst_toList]

theorem Prepared.ready {view : View} {t : ValuationTime} (h : Prepared view t group c) :
    Ready group c := by
  obtain rfl := h.view_eq
  exact ⟨h.state_eq, h.handle, h.marks⟩

theorem Prepared.execute_eq {view : View} {t : ValuationTime} (h : Prepared view t group c)
    (w : Workspace) : ∃ (c' : Cycle) (submitted : List Submission),
      c' = { c with state := .executing, marks := c'.marks } ∧ ∀ b : Behaviour,
      let x := Execution.submitAll w c'.marks (c.requests group)
      c.execute w b = (waitFor false x c.view.model.names (b c.view.model.names x)).map fun r =>
        (⟨c'.close r, r.execution.workspace, (conclude r.verdict).2⟩,
          ⟨submitted, r.cancelled, r.execution.journal⟩) := by
  obtain ⟨c', submitted, -, hc', -, -, heq⟩ := h.ready.execute_eq w
  rw [h.interrupted_eq] at heq
  exact ⟨c', submitted, hc', heq⟩

/-- What executing plans comes to if it succeeds: the runs of all configurations came to
their ends after some row of events. -/
theorem Ready.execute {w : Workspace} {b : Behaviour} (h : Ready group c) (hb : b.Local)
    {reply : Reply Unit} {report : ExecutionReport}
    (hx : c.execute w b = some (reply, report)) (hok : reply.answer = .ok ()) :
    report.submitted.map Submission.request = c.requests group ∧ ∃ m es x,
      (∀ e ∈ c.view.model.graphs.toList,
        m[e.1]?.getD .empty = (c.marks[e.1]?.getD .empty).markLive e.2) ∧
      (Execution.submitAll w m (c.requests group)).steps? es = some x ∧
      (∀ q ∈ c.requests group, x.ending? q.graph.configuration = some (.ok ())) ∧
      reply.workspace = x.workspace ∧
      reply.cycle = { c with state := .finished, marks := x.marks, ended := true } := by
  obtain ⟨c', submitted, -, hc', hrequests, hlive, heq⟩ := h.execute_eq w
  rw [heq] at hx
  simp only [Option.map_eq_some_iff, Prod.mk.injEq] at hx
  obtain ⟨⟨verdict, cancelled, x⟩, hwait, rfl, rfl⟩ := hx
  cases verdict with
  | interrupted => simp [conclude] at hok
  | failed configuration err => simp [conclude] at hok
  | finished =>
      obtain ⟨es, hes, hend⟩ := waitFor_finished (hb _ _) hwait
      refine ⟨hrequests, c'.marks, es, x, hlive, hes, fun q hq => ?_, rfl, ?_⟩
      · obtain ⟨e, he, rfl⟩ := List.mem_map.mp hq
        rw [configuration_request (EvaluationModel.configuration_of_mem he)]
        exact hend e.1 (EvaluationModel.name_mem he)
      · rw [close, hc']
        simp [conclude]

theorem Prepared.execute {view : View} {t : ValuationTime} {w : Workspace} {b : Behaviour}
    (h : Prepared view t group c) (hb : b.Local) {reply : Reply Unit} {report : ExecutionReport}
    (hx : c.execute w b = some (reply, report)) (hok : reply.answer = .ok ()) :
    ∃ m es x, (Execution.submitAll w m (c.requests group)).steps? es = some x ∧
      (∀ q ∈ c.requests group, x.ending? q.graph.configuration = some (.ok ())) ∧
      reply.workspace = x.workspace ∧
      reply.cycle = { c with state := .finished, marks := x.marks, ended := true } := by
  obtain ⟨-, m, es, x, -, hrun⟩ := h.ready.execute hb hx hok
  exact ⟨m, es, x, hrun⟩

theorem Prepared.execute_row {view : View} {t : ValuationTime} (h : Prepared view t group c)
    (w : Workspace) : ∃ m, ∀ es x,
      (Execution.submitAll w m (c.requests group)).steps? es = some x →
      (∀ q ∈ c.requests group, x.ending? q.graph.configuration = some (.ok ())) →
      ∃ reply report, c.execute w (.row es) = some (reply, report) ∧ reply.answer = .ok () ∧
        (c.view.model.names ≠ [] → reply.workspace = x.workspace) := by
  obtain ⟨c', submitted, -, heq⟩ := h.execute_eq w
  refine ⟨c'.marks, fun es x hes hend => ?_⟩
  have hnames : ∀ name ∈ c.view.model.names, x.ending? name = some (.ok ()) := by
    intro name hn
    rw [← map_configuration_requests c group] at hn
    obtain ⟨q, hq, rfl⟩ := List.mem_map.mp hn
    exact hend q hq
  have hwaits : Behaviour.row es c.view.model.names
      (Execution.submitAll w c'.marks (c.requests group)) =
      x.waitsAt c.view.model.names := by
    rw [Behaviour.row, hes]
  have hexecute := heq (.row es)
  simp only [hwaits, waitFor_row hnames, Option.map_some] at hexecute
  exact ⟨_, _, hexecute, rfl, fun hne => by rw [if_neg hne]⟩

theorem Prepared.exists_execute {view : View} {t : ValuationTime} {w : Workspace}
    (h : Prepared view t group c)
    (hrun : ∀ m, ∃ es x, (Execution.submitAll w m (c.requests group)).steps? es = some x ∧
      ∀ q ∈ c.requests group, x.ending? q.graph.configuration = some (.ok ())) :
    ∃ b reply report, Behaviour.Local b ∧ c.execute w b = some (reply, report) ∧
      reply.answer = .ok () := by
  obtain ⟨m, hrow⟩ := h.execute_row w
  obtain ⟨es, x, hes, hend⟩ := hrun m
  obtain ⟨reply, report, hx, hok, -⟩ := hrow es x hes hend
  exact ⟨.row es, reply, report, Behaviour.local_row es, hx, hok⟩

theorem compatible_requests {w : Workspace} {known : List Specification}
    (hs : c.view.Sound w.repository) (hw : w.Numbered w.repository known)
    (hknown : ∀ e ∈ c.view.model.graphs.toList, ∀ n ∈ e.2.nodes, n.inputs ⊆ known)
    (hsize : known.length < 2 ^ 63) :
    Compatible w known (c.requests group) := by
  have hnames := c.view.model.nodup_map_fst
  refine ⟨?_, ?_, ?_, hw, ?_, hsize⟩
  · rw [map_configuration_requests]
    exact c.view.model.nodup_names
  · rw [requests, List.map_map]
    exact List.Nodup.of_map CacheHandle.configuration (by rwa [List.map_map])
  · rintro q hq
    obtain ⟨e, he, rfl⟩ := List.mem_map.mp hq
    exact executable_request hs he
  · rintro q hq n hn
    obtain ⟨e, he, rfl⟩ := List.mem_map.mp hq
    exact hknown e he n (mem_nodes_request.mp hn).1

/-- A cycle of a sound view can execute its plans if no answer of its nodes ends a run. -/
theorem Prepared.exists_execute_of_settles {view : View} {t : ValuationTime} {w : Workspace}
    {known : List Specification} (h : Prepared view t group c) (hs : view.Sound w.repository)
    (hw : w.Numbered w.repository known)
    (hknown : ∀ e ∈ view.model.graphs.toList, ∀ n ∈ e.2.nodes, n.inputs ⊆ known)
    (hsize : known.length < 2 ^ 63)
    (hsettles : ∀ e ∈ view.model.graphs.toList, ∀ n ∈ e.2.nodes, n.isLive = false → ∀ look,
      (n.answer w.repository look).settles = true) :
    ∃ b reply report, Behaviour.Local b ∧ c.execute w b = some (reply, report) ∧
      reply.answer = .ok () := by
  obtain rfl := h.view_eq
  refine h.exists_execute fun m => Execution.exists_run (compatible_requests hs hw hknown hsize)
    (Execution.safe_of_settles fun q hq n hn look => ?_)
  obtain ⟨e, he, rfl⟩ := List.mem_map.mp hq
  obtain ⟨hmem, hl, -⟩ := mem_nodes_request.mp hn
  exact hsettles e he n hmem hl look

structure Executed (known : List Specification) (group : CacheGroup) (c : Cycle) (w : Workspace)
    (c' : Cycle) (w' : Workspace) : Prop where
  cycle_eq : ∃ m, c' = { c with state := .finished, marks := m, ended := true }
  numbered : w'.Numbered w.repository known
  cache_eq : ∀ k, k.group ≠ group → w'.cache k = w.cache k
  settled : ∀ e ∈ c.view.model.graphs.toList, ∃ answers,
    Settled w.repository (w.cache ⟨group, e.1⟩) answers (w'.cache ⟨group, e.1⟩) ∧
      e.2.Answering answers (· ∉ c.executed e.1) ∧ ∀ o ∈ answers, o.2.settles = true

theorem Prepared.executed {view : View} {t : ValuationTime} {w : Workspace} {b : Behaviour}
    {known : List Specification} (h : Prepared view t group c) (hb : b.Local)
    (hs : c.view.Sound w.repository) (hw : w.Numbered w.repository known)
    (hknown : ∀ e ∈ c.view.model.graphs.toList, ∀ n ∈ e.2.nodes, n.inputs ⊆ known)
    (hsize : known.length < 2 ^ 63) {reply : Reply Unit} {report : ExecutionReport}
    (hx : c.execute w b = some (reply, report)) (hok : reply.answer = .ok ()) :
    Executed known group c w reply.cycle reply.workspace := by
  obtain ⟨m, es, x, hes, hend, hworkspace, hcycle⟩ := h.execute hb hx hok
  have hcompatible : Compatible w known (c.requests group) :=
    compatible_requests hs hw hknown hsize
  have hco := Execution.coherent_steps hcompatible hes fun q hq err herr => by
    simp [hend q hq] at herr
  refine ⟨⟨_, hcycle⟩, hworkspace ▸ hco.numbered, fun k hk => ?_, fun e he => ?_⟩
  · rw [hworkspace]
    refine hco.others k fun q hq => ?_
    obtain ⟨e, -, rfl⟩ := List.mem_map.mp hq
    rintro rfl
    exact hk rfl
  · have hq := List.mem_map_of_mem (f := c.request group) he
    refine ⟨_, hworkspace ▸ hco.settled hq, fun n => ?_, ?_⟩
    · have hmem : n ∈ (c.request group e).graph.nodes ↔
          n ∈ e.2.nodes ∧ n.isLive = false ∧ n ∉ c.executed e.1 := mem_nodes_request
      rw [← hmem]
      constructor
      · rintro ⟨a, ha⟩
        exact Graph.mem_nodes_of_mem_answersIn _ ha
      · exact hco.covered hcompatible hq (hend _ hq) n
    · rintro ⟨n, a⟩ ha
      obtain ⟨i, hi, -⟩ := Graph.mem_answersIn.mp ha
      obtain ⟨r, hr, -⟩ := (hco.underway _ hq).run
      exact (hco.working _ hq r hr).settles _ hi

/-- Where all nodes of each graph have answers with which a run goes on, and what was taken
over is up to date, no answer of what is submitted ends a run. -/
theorem safe_requests {w : Workspace} {known : List Specification}
    {m : ExtTreeMap String NodeMarks} (previous loaded full : String → Cache)
    (hs : c.view.Sound w.repository)
    (htaken : ∀ e ∈ c.view.model.graphs.toList, TakenOver e.2 (c.executed e.1) (previous e.1)
      (loaded e.1) (w.cache ⟨group, e.1⟩))
    (hempty : ∀ e ∈ c.view.model.graphs.toList, ∀ s : Specification,
      (loaded e.1).privatePart[s]? = none)
    (hu : ∀ e ∈ c.view.model.graphs.toList,
      UpToDate w.repository (c.executed e.1) (loaded e.1) (w.cache ⟨group, e.1⟩))
    (hfull : ∀ e ∈ c.view.model.graphs.toList, ∃ all,
      Settled w.repository (loaded e.1) all (full e.1) ∧ e.2.Answering all (fun _ => True) ∧
        ∀ o ∈ all, o.2.settles = true) : Execution.Safe w m known (c.requests group) := by
  intro es x hx q hq run hrun j hj a ha
  obtain ⟨e, he, rfl⟩ := List.mem_map.mp hq
  obtain ⟨all, hall, ho, hsettles⟩ := hfull e he
  have hexecutable : (c.request group e).Executable w.repository := executable_request hs he
  have hc := hexecutable.built.consistent
  obtain ⟨run', hrun', hscheduled⟩ := (hx.underway _ hq).run
  obtain rfl := Option.some.inj (hrun.symm.trans hrun')
  obtain ⟨n, resolved, hn, -, -, hfaithful⟩ := (hx.working _ hq run hrun).job j hj
  obtain ⟨hng, hnl, hnt⟩ := mem_nodes_request.mp (List.mem_of_getElem? hn)
  have hedge : ∀ {i : Nat} {k l : Node}, (c.request group e).graph.nodes[i]? = some k →
      l ∈ e.2.nodes → l.isLive = false → l ∉ c.executed e.1 → l.Feeds k →
      ∃ i', (c.request group e).graph.nodes[i']? = some l ∧
        (c.request group e).graph.Edge i i' := by
    rintro i k l hk hl hll hlt ⟨s, hs, hso, hsl⟩
    obtain ⟨i', hi'⟩ := List.mem_iff_getElem?.mp (mem_nodes_request.mpr ⟨hl, hll, hlt⟩)
    exact ⟨i', hi', hc.edge_of_mem hexecutable.disjoint hk hi' hs hsl hso⟩
  have hmem := (hu e he).answer_mem (hs e he) (htaken e he) (hempty e he) (hx.settled hq)
    (fun o hm => mem_nodes_request.mp (Graph.mem_nodes_of_mem_answersIn o hm)) ?_ hall ho hng hnl
    hnt ?_
  · rw [hfaithful a ha]
    exact hsettles _ hmem
  · rintro ⟨k, b⟩ hk l hl hll hlt hf
    obtain ⟨i, hi, hik⟩ := Graph.mem_answersIn.mp hk
    obtain ⟨i', hi', hii'⟩ := hedge hik hl hll hlt hf
    obtain ⟨l', b', hl', hb'⟩ := hscheduled.backed hc i k b hik hk i' hii'
    obtain rfl := Option.some.inj (hi'.symm.trans hl')
    exact ⟨b', hb'⟩
  · intro l hl hll hlt hf
    obtain ⟨i', hi', hii'⟩ := hedge hn hl hll hlt hf
    have hdone := ((hscheduled.mem_iff j.node).mp (List.mem_append_right _
      (hscheduled.mem_dispatched_of_job hj).1)).2 i' hii'
    obtain ⟨⟨i', b⟩, hb, rfl⟩ := List.mem_map.mp hdone
    exact ⟨b, Graph.mem_answersIn.mpr ⟨i', hb, hi'⟩⟩

end Cycle
end ValuationCycle
