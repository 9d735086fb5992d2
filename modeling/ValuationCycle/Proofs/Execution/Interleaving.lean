import ValuationCycle.Proofs.Execution.Coherent

/-!
# Interleavings

An execution that lets the runs of its graphs go on in any order, many jobs at a
time, leaves the same caches and the same marks as one that runs one node after
the other, in any order in which a node comes after those that it takes inputs
from.
-/
namespace ValuationCycle
open Json Std Wire

/-- An order of all nodes in which each comes after those that it takes inputs from. -/
structure Graph.Topological (g : Graph) (order : List Nat) : Prop where
  perm : order.Perm (List.range g.size)
  ordered : ∀ before i after, order = before ++ i :: after → ∀ j, g.Edge i j → j ∈ before

theorem Graph.topological_of_take {g : Graph} {order : List Nat}
    (hperm : order.Perm (List.range g.size))
    (h : ∀ k < order.length, ∀ i ∈ order[k]?, ∀ j ∈ g.inputIndices i, j ∈ order.take k) :
    g.Topological order := by
  refine ⟨hperm, ?_⟩
  rintro before i after rfl j hj
  simpa using h before.length (by simp) i (by simp) j hj

/-- If not all nodes are placed, some node can be placed next. -/
theorem Graph.Acyclic.exists_next {g : Graph} (hc : g.Consistent) (ha : g.Acyclic)
    {placed : List Nat}
    {i : Nat} (hi : i < g.size) (hnew : i ∉ placed) :
    ∃ k < g.size, k ∉ placed ∧ ∀ j, g.Edge k j → j ∈ placed := by
  refine Graph.Grounded.induction hc
    (p := fun i => i ∉ placed → ∃ k < g.size, k ∉ placed ∧ ∀ j, g.Edge k j → j ∈ placed)
    (fun i hi _ ih hnew => ?_) hi (ha.grounded i) hnew
  by_cases hall : ∀ j, g.Edge i j → j ∈ placed
  · exact ⟨i, hi, hnew, hall⟩
  · push Not at hall
    obtain ⟨j, hj, hjnew⟩ := hall
    exact ih j hj hjnew

theorem Graph.Acyclic.exists_topological {g : Graph} (hc : g.Consistent) (ha : g.Acyclic) :
    ∃ order, g.Topological order := by
  have hplace : ∀ count ≤ g.size, ∃ order : List Nat, order.length = count ∧ order.Nodup ∧
      order ⊆ List.range g.size ∧
      ∀ before i after, order = before ++ i :: after → ∀ j, g.Edge i j → j ∈ before := by
    intro count
    induction count with
    | zero => exact fun _ => ⟨[], rfl, List.nodup_nil, List.nil_subset _, by simp⟩
    | succ count ih =>
        intro hcount
        obtain ⟨order, hlength, hnodup, hsub, hordered⟩ := ih (by omega)
        obtain ⟨i, hi, hnew⟩ : ∃ i < g.size, i ∉ order := by
          by_contra hall
          push Not at hall
          have := (List.nodup_range.subperm fun i hi => hall i (List.mem_range.mp hi)).length_le
          rw [List.length_range] at this
          omega
        obtain ⟨k, hk, hknew, hedge⟩ := ha.exists_next hc hi hnew
        refine ⟨order ++ [k], by simp [hlength], ?_, ?_, ?_⟩
        · exact List.nodup_append.mpr ⟨hnodup, by simp, by
            rintro a ha b hb rfl
            exact hknew (List.mem_singleton.mp hb ▸ ha)⟩
        · exact List.append_subset.mpr ⟨hsub, by simpa using hk⟩
        · intro before i after he j hj
          rcases List.eq_nil_or_concat after with rfl | ⟨rest, last, rfl⟩
          · obtain ⟨rfl, hki⟩ := List.append_inj' he rfl
            obtain rfl := List.head_eq_of_cons_eq hki
            exact hedge j hj
          · rw [List.concat_eq_append, ← List.cons_append, ← List.append_assoc] at he
            exact hordered before i rest (List.append_inj' he rfl).1 j hj
  obtain ⟨order, hlength, hnodup, hsub, hordered⟩ := hplace g.size le_rfl
  refine ⟨order, (List.subperm_of_subset hnodup hsub).perm_of_length_le ?_, hordered⟩
  simp [hlength]

/-- The events that run one node from its dispatch to the answer. -/
def answering (n : Node) (i : Nat) : List RunEvent :=
  .dispatch i :: List.replicate n.inputs.length (.number i) ++ [.evaluate i]

def Request.oneNode (q : Request) (i : Nat) : List (String × RunEvent) :=
  match q.graph.nodes[i]? with
  | some n => (answering n i ++ [RunEvent.record i]).map (q.graph.configuration, ·)
  | none => []

/-- The events that run one node at a time in a given order, and then end all runs. -/
def oneAtATime (requests : List Request) (order : List (Request × Nat)) :
    List (String × RunEvent) :=
  order.flatMap (fun o => o.1.oneNode o.2) ++ requests.map fun q => (q.graph.configuration, .finish)

def positionsOf (c : String) (order : List (Request × Nat)) : List Nat :=
  order.filterMap fun o => if o.1.graph.configuration = c then some o.2 else none

namespace Site
variable {s : Site} {i : Nat} {n : Node}

def steps? (s : Site) (es : List RunEvent) : Option Site := es.foldlM Site.step? s

theorem steps?_cons (e : RunEvent) (es : List RunEvent) :
    s.steps? (e :: es) = (s.step? e).bind fun s => s.steps? es := rfl

theorem steps?_append (es fs : List RunEvent) :
    s.steps? (es ++ fs) = (s.steps? es).bind fun s => s.steps? fs := by
  induction es generalizing s with
  | nil => rfl
  | cons e es ih =>
      rw [List.cons_append, steps?_cons, steps?_cons]
      cases s.step? e with
      | none => rfl
      | some s => exact ih

/-- A run that works on the job of one node alone. -/
structure Alone (s : Site) (j : Job) : Prop where
  running : s.run.ending = none
  jobs_eq : s.run.jobs = [j]

theorem Alone.job? {j : Job} (h : s.Alone j) : s.run.job? j.node = some j := by
  simp [Run.job?, h.jobs_eq]

theorem Alone.dispatch (hrun : s.run.ending = none) (hjobs : s.run.jobs = [])
    (hi : i ∈ s.run.ready) (hn : s.run.graph.nodes[i]? = some n) :
    ∃ s', s.step? (.dispatch i) = some s' ∧ s'.Alone ⟨i, [], n.inputs, none⟩ ∧
      s'.run.request = s.run.request := by
  have hsome : (s.step? (.dispatch i)).isSome = true := by simp [step?, Site.dispatch, hrun, hi, hn]
  obtain ⟨s', hs⟩ := Option.isSome_iff_exists.mp hsome
  obtain ⟨-, -, n', hn', he⟩ := dispatch_eq_some hs
  obtain rfl := Option.some.inj (hn.symm.trans hn')
  refine ⟨s', hs, ?_, step?_request hs⟩
  rw [he]
  exact ⟨hrun, by simp [hjobs]⟩

theorem Alone.number {numbers : List Int64} {unnumbered : List Specification}
    (h : s.Alone ⟨i, numbers, unnumbered, none⟩) :
    ∃ s' numbers', s.steps? (List.replicate unnumbered.length (.number i)) = some s' ∧
      s'.Alone ⟨i, numbers', [], none⟩ ∧ s'.run.request = s.run.request := by
  induction unnumbered generalizing s numbers with
  | nil => exact ⟨s, numbers, rfl, h, rfl⟩
  | cons input rest ih =>
      have hjob := h.job?
      have hsome : (s.step? (.number i)).isSome = true := by
        simp [step?, Site.number, h.running, hjob]
      obtain ⟨next, hnext⟩ := Option.isSome_iff_exists.mp hsome
      obtain ⟨-, numbers', input', rest', hjob', he⟩ := number_eq_some hnext
      obtain ⟨rfl, rfl, rfl⟩ : numbers = numbers' ∧ input = input' ∧ rest = rest' := by
        simpa [hjob] using hjob'
      have halone : next.Alone
          ⟨i, numbers ++ [(s.workspace.identifiers.identify input).2], rest, none⟩ := by
        rw [he]
        exact ⟨h.running, by simp [Run.setJob, h.jobs_eq]⟩
      have hrequest : next.run.request = s.run.request := step?_request hnext
      obtain ⟨s', numbers', hs', h', hrequest'⟩ := ih halone
      refine ⟨s', numbers', ?_, h', hrequest'.trans hrequest⟩
      rw [List.length_cons, List.replicate_succ, steps?_cons, hnext]
      exact hs'

theorem Alone.evaluate {numbers : List Int64} (h : s.Alone ⟨i, numbers, [], none⟩)
    (hn : s.run.graph.nodes[i]? = some n) :
    ∃ s' a, s.step? (.evaluate i) = some s' ∧ s'.Alone ⟨i, numbers, [], some a⟩ ∧
      s'.run.request = s.run.request := by
  have hjob := h.job?
  have hsome : (s.step? (.evaluate i)).isSome = true := by simp [step?, Site.evaluate, hjob, hn]
  obtain ⟨s', hs⟩ := Option.isSome_iff_exists.mp hsome
  obtain ⟨numbers', n', hjob', -, he⟩ := evaluate_eq_some hs
  obtain rfl : numbers = numbers' := by simpa [hjob] using hjob'
  refine ⟨s', (answerOf s.workspace (s.workspace.cache s.run.request.cache) n' numbers).1, hs, ?_,
    step?_request hs⟩
  rw [he]
  exact ⟨h.running, by simp [Run.setJob, h.jobs_eq]⟩

theorem exists_answering (hrun : s.run.ending = none) (hjobs : s.run.jobs = [])
    (hi : i ∈ s.run.ready) (hn : s.run.graph.nodes[i]? = some n) :
    ∃ s' numbers a, s.steps? (answering n i) = some s' ∧ s'.Alone ⟨i, numbers, [], some a⟩ ∧
      s'.run.request = s.run.request := by
  obtain ⟨s₁, hs₁, h₁, hr₁⟩ := Alone.dispatch hrun hjobs hi hn
  obtain ⟨s₂, numbers, hs₂, h₂, hr₂⟩ := h₁.number
  have hn₂ : s₂.run.graph.nodes[i]? = some n := by rwa [Run.graph, hr₂, hr₁]
  obtain ⟨s₃, a, hs₃, h₃, hr₃⟩ := h₂.evaluate hn₂
  refine ⟨s₃, numbers, a, ?_, h₃, hr₃.trans (hr₂.trans hr₁)⟩
  rw [answering, List.cons_append, steps?_cons, hs₁, Option.bind_some, steps?_append, hs₂,
    Option.bind_some, steps?_cons, hs₃]
  rfl

theorem releaseDependents_run (s : Site) (i : Nat) :
    (s.releaseDependents i).run.ending = s.run.ending ∧
      (s.releaseDependents i).run.jobs = s.run.jobs := by
  change ((Run.dependents s.run.graph i).foldl Run.release s.run).ending = s.run.ending ∧
    ((Run.dependents s.run.graph i).foldl Run.release s.run).jobs = s.run.jobs
  rw [Run.foldl_release (Run.nodup_dependents _ _)]
  exact ⟨rfl, rfl⟩

theorem Alone.record {numbers : List Int64} {a : Answer} (h : s.Alone ⟨i, numbers, [], some a⟩)
    (hn : s.run.graph.nodes[i]? = some n) (ha : a.settles = true) :
    ∃ s', s.step? (.record i) = some s' ∧ s'.run.ending = none ∧ s'.run.jobs = [] := by
  have hjob := h.job?
  have hdrop : (s.run.dropJob i).jobs = [] := by simp [Run.dropJob, h.jobs_eq]
  have hrecord : s.step? (.record i) = some ({ s with run := s.run.dropJob i }.settle i n a) := by
    simp only [step?, Site.record, h.running, Option.isNone_none, hjob, hn]
    rcases a with e | (values | e | _) <;> rfl
  refine ⟨_, hrecord, ?_, ?_⟩
  · rcases a with e | (values | e | _)
    · simp [Answer.settles] at ha
    · exact (releaseDependents_run _ _).1.trans h.running
    · exact (releaseDependents_run _ _).1.trans h.running
    · simp [Answer.settles] at ha
  · rw [settle_jobs, hdrop]

end Site

namespace Execution
variable {x y : Execution} {c : String}

/-- A row of events of one run is a row of events of the execution. -/
theorem exists_steps? {s s' : Site} {es : List RunEvent} (hx : x.site? c = some s)
    (hs : s.steps? es = some s') :
    ∃ y, x.steps? (es.map (c, ·)) = some y ∧ y.site? c = some s' ∧
      ∀ d, d ≠ c → y.runs[d]? = x.runs[d]? := by
  induction es generalizing x s with
  | nil =>
      obtain rfl := Option.some.inj hs
      exact ⟨x, rfl, hx, fun _ _ => rfl⟩
  | cons e es ih =>
      rw [Site.steps?_cons] at hs
      obtain ⟨t, ht, hs⟩ := Option.bind_eq_some_iff.mp hs
      have hstep : x.step? c e = some (x.restore c t) := by simp [step?, hx, ht]
      obtain ⟨y, hy, hsite, hother⟩ := ih (site?_restore t) hs
      refine ⟨y, ?_, hsite, fun d hd => ?_⟩
      · rw [List.map_cons, steps?_cons, hstep]
        exact hy
      · rw [hother d hd, runs_restore, if_neg hd]

theorem exists_finishes {l : List Request} (hn : (l.map fun q => q.graph.configuration).Nodup)
    (h : ∀ q ∈ l, ∃ r, x.runs[q.graph.configuration]? = some r ∧ r.ending = none ∧ r.ready = [] ∧
      r.jobs = []) :
    ∃ y, x.steps? (l.map fun q => (q.graph.configuration, .finish)) = some y ∧
      ∀ q ∈ l, y.ending? q.graph.configuration = some (.ok ()) := by
  induction l generalizing x with
  | nil => exact ⟨x, rfl, by simp⟩
  | cons q l ih =>
      obtain ⟨hq, hn⟩ := List.nodup_cons.mp hn
      obtain ⟨r, hr, hrun, hready, hjobs⟩ := h q (by simp)
      have hsome : (x.step? q.graph.configuration .finish).isSome = true := by
        simp [step?, site?_of_run hr, Site.step?, Site.finish, hrun, hready, hjobs]
      obtain ⟨x', hx'⟩ := Option.isSome_iff_exists.mp hsome
      have hended : x'.ending? q.graph.configuration = some (.ok ()) := by
        obtain ⟨s, s', -, hs, rfl⟩ := step?_eq_some hx'
        obtain ⟨-, -, -, rfl⟩ := Site.finish_eq_some hs
        simp [ending?]
      obtain ⟨y, hy, hall⟩ := ih (x := x') hn fun p hp => by
        have hne : p.graph.configuration ≠ q.graph.configuration := fun he =>
          hq (List.mem_map.mpr ⟨p, hp, he⟩)
        rw [(step?_other hx' hne).1]
        exact h p (by simp [hp])
      refine ⟨y, ?_, fun p hp => ?_⟩
      · rw [List.map_cons, steps?_cons, hx']
        exact hy
      · rcases List.mem_cons.mp hp with rfl | hp
        · exact steps?_ending hy hended
        · exact hall p hp

variable {w : Workspace} {m : ExtTreeMap String NodeMarks} {known : List Specification}
variable {requests : List Request} {es fs : List (String × RunEvent)}

def Idle (requests : List Request) (x : Execution) : Prop :=
  ∀ q ∈ requests, ∃ r, x.runs[q.graph.configuration]? = some r ∧ r.ending = none ∧ r.jobs = []

theorem Idle.not_failed (h : Idle requests x) :
    ∀ q ∈ requests, ∀ err, x.ending? q.graph.configuration ≠ some (.error err) := by
  intro q hq err herr
  obtain ⟨r, hr, hrun, -⟩ := h q hq
  simp [ending?, hr, hrun] at herr

/-- A job that is answered has the answer that its node has in an execution that came to its end. -/
theorem Coherent.answer_mem (h : Compatible w known requests)
    (hx : Coherent w m known requests fs x) (hy : Coherent w m known requests es y) {q : Request}
    (hq : q ∈ requests) (hend : y.ending? q.graph.configuration = some (.ok ())) {r : Run} {j : Job}
    {n : Node} {a : Answer} (hr : x.runs[q.graph.configuration]? = some r) (hj : j ∈ r.jobs)
    (hn : q.graph.nodes[j.node]? = some n) (ha : j.answer = some a) :
    (n, a) ∈ q.graph.answersIn ((submitAll w m requests).recorded q.graph.configuration es) := by
  have hexecutable := h.executable q hq
  have hc := hexecutable.built.consistent
  have hcovered := hy.covered h hq hend
  obtain ⟨r', hr', hscheduled⟩ := (hx.underway q hq).run
  obtain rfl := Option.some.inj (hr.symm.trans hr')
  obtain ⟨n', resolved, hn', -, -, hfaithful⟩ := (hx.working q hq r hr).job j hj
  obtain rfl := Option.some.inj (hn.symm.trans hn')
  obtain ⟨b, hb⟩ := hcovered n (List.mem_of_getElem? hn)
  have hlook := Settled.look_congr hc hexecutable.disjoint (hx.settled hq) (hy.settled hq)
    Graph.mem_nodes_of_mem_answersIn Graph.mem_nodes_of_mem_answersIn hn fun k hk => by
      have hdone := ((hscheduled.mem_iff j.node).mp (List.mem_append_right _
        (hscheduled.mem_dispatched_of_job hj).1)).2 k hk
      obtain ⟨⟨k, e⟩, ho, rfl⟩ := List.mem_map.mp hdone
      have hm := List.getElem?_eq_getElem (hc.edge_lt hk)
      obtain ⟨e', he'⟩ := hcovered _ (List.mem_of_getElem? hm)
      have he := Graph.mem_answersIn.mpr ⟨k, ho, hm⟩
      obtain rfl := Settled.agree hc hexecutable.disjoint hexecutable.acyclic (hx.settled hq)
        (hy.settled hq) Graph.mem_nodes_of_mem_answersIn Graph.mem_nodes_of_mem_answersIn
        (hscheduled.backed hc) (hcovered.backed hc) he he'
      exact ⟨_, e, hm, he, he'⟩
  have hab : a = b := by
    calc
      a = n.answer w.repository (n.look (w.cache q.cache) (x.workspace.cache q.cache)) :=
        hfaithful a ha
      _ = n.answer w.repository (n.look (w.cache q.cache) (y.workspace.cache q.cache)) :=
        Node.answer_congr hlook
      _ = b := ((hy.settled hq).answered _ hb).symm
  rwa [hab]

/-- However an execution goes, no answer of a job ends a run. -/
def Safe (w : Workspace) (m : ExtTreeMap String NodeMarks) (known : List Specification)
    (requests : List Request) : Prop :=
  ∀ es x, Coherent w m known requests es x → ∀ q ∈ requests, ∀ r,
    x.runs[q.graph.configuration]? = some r → ∀ j ∈ r.jobs, ∀ a, j.answer = some a →
      a.settles = true

theorem safe_of_settles (h : ∀ q ∈ requests, ∀ n ∈ q.graph.nodes, ∀ look,
    (n.answer w.repository look).settles = true) : Safe w m known requests := by
  intro es x hx q hq r hr j hj a ha
  obtain ⟨n, resolved, hn, -, -, hfaithful⟩ := (hx.working q hq r hr).job j hj
  rw [hfaithful a ha]
  exact h q hq n (List.mem_of_getElem? hn) _

/-- When one execution has come to its end, no other one fails. -/
theorem safe_of_ended (h : Compatible w known requests) (hy : Coherent w m known requests es y)
    (hend : ∀ q ∈ requests, y.ending? q.graph.configuration = some (.ok ())) :
    Safe w m known requests := by
  intro fs x hx q hq r hr j hj a ha
  obtain ⟨n, resolved, hn, -⟩ := (hx.working q hq r hr).job j hj
  have hanswer := hx.answer_mem h hy hq (hend q hq) hr hj hn ha
  obtain ⟨k, hk, -⟩ := Graph.mem_answersIn.mp hanswer
  obtain ⟨r', hr', -⟩ := (hy.underway q hq).run
  exact (hy.working q hq r' hr').settles _ hk

theorem exists_oneNode (h : Compatible w known requests) (hsafe : Safe w m known requests)
    (hx : (submitAll w m requests).steps? fs = some x) (hidle : Idle requests x) {q : Request}
    (hq : q ∈ requests) {i : Nat} (hi : i < q.graph.size)
    (hnew : i ∉ dispatchedIn (eventsOf q.graph.configuration fs))
    (hinputs : ∀ j, q.graph.Edge i j → j ∈ dispatchedIn (eventsOf q.graph.configuration fs)) :
    ∃ x', x.steps? (q.oneNode i) = some x' ∧ Idle requests x' := by
  have hco := coherent_steps (m := m) h hx hidle.not_failed
  obtain ⟨r, hr, hrun, hjobs⟩ := hidle q hq
  obtain ⟨r', hr', hscheduled⟩ := (hco.underway q hq).run
  obtain rfl := Option.some.inj (hr.symm.trans hr')
  have hready : i ∈ r.ready := by
    have hmem := (hscheduled.mem_iff i).mpr ⟨hi, fun j hj => by
      simpa [hjobs] using hscheduled.perm.mem_iff.mp (hinputs j hj)⟩
    exact (List.mem_append.mp hmem).resolve_right hnew
  obtain ⟨n, hn⟩ : ∃ n, q.graph.nodes[i]? = some n := ⟨_, List.getElem?_eq_getElem hi⟩
  have hnode : r.graph.nodes[i]? = some n := by rw [Run.graph, hscheduled.request_eq, hn]
  obtain ⟨s, numbers, a, hs, halone, hrequest⟩ := Site.exists_answering
    (s := ⟨x.workspace, x.marks[q.graph.configuration]?.getD .empty, r, x.journal⟩) hrun hjobs
    hready hnode
  obtain ⟨x', hx', hsite, hother⟩ := exists_steps? (site?_of_run hr) hs
  have hrun' := (site?_eq_some hsite).2.2.1
  have hnode' : s.run.graph.nodes[i]? = some n := by rwa [Run.graph, hrequest]
  have hreached := steps?_append (x := submitAll w m requests) fs
    ((answering n i).map (q.graph.configuration, ·))
  rw [hx, Option.bind_some, hx'] at hreached
  have hco' := coherent_steps (m := m) h hreached fun p hp err herr => by
    by_cases hpq : p.graph.configuration = q.graph.configuration
    · simp [ending?, hpq, hrun', halone.running] at herr
    · obtain ⟨r, hr, hrun, -⟩ := hidle p hp
      simp [ending?, hother _ hpq, hr, hrun] at herr
  have hsettles := hsafe _ x' hco' q hq s.run hrun' ⟨i, numbers, [], some a⟩
    (by simp [halone.jobs_eq]) a rfl
  obtain ⟨t, ht, htrun, htjobs⟩ := halone.record hnode' hsettles
  have hstep : x'.step? q.graph.configuration (.record i) =
      some (x'.restore q.graph.configuration t) := by simp [step?, hsite, ht]
  refine ⟨x'.restore q.graph.configuration t, ?_, fun p hp => ?_⟩
  · simp only [Request.oneNode, hn, List.map_append, List.map_cons, List.map_nil]
    rw [steps?_append, hx', Option.bind_some, steps?_cons, hstep]
    rfl
  · by_cases hpq : p.graph.configuration = q.graph.configuration
    · exact ⟨t.run, by simp [hpq], htrun, htjobs⟩
    · obtain ⟨r, hr, hrun, hjobs⟩ := hidle p hp
      exact ⟨r, by simp [hpq, hother _ hpq, hr], hrun, hjobs⟩

theorem eventsOf_map (c d : String) (es : List RunEvent) :
    eventsOf c (es.map (d, ·)) = if d = c then es else [] := by
  by_cases hd : d = c <;> simp [eventsOf, hd]

theorem dispatchedIn_answering (n : Node) (i : Nat) :
    dispatchedIn (answering n i ++ [RunEvent.record i]) = [i] := by
  have hnumbers : dispatchedIn (List.replicate n.inputs.length (.number i)) = [] := by
    simp [dispatchedIn, RunEvent.dispatched]
  rw [dispatchedIn_append, answering, List.cons_append, ← List.singleton_append,
    dispatchedIn_append, dispatchedIn_append, hnumbers]
  rfl

theorem dispatchedIn_inOrder (c : String) {order : List (Request × Nat)}
    (h : ∀ o ∈ order, o.2 < o.1.graph.size) :
    dispatchedIn (eventsOf c (order.flatMap fun o => o.1.oneNode o.2)) = positionsOf c order := by
  induction order with
  | nil => rfl
  | cons o order ih =>
      obtain ⟨q, i⟩ := o
      obtain ⟨n, hn⟩ : ∃ n, q.graph.nodes[i]? = some n :=
        ⟨_, List.getElem?_eq_getElem (h (q, i) (by simp))⟩
      have hnode : eventsOf c (q.oneNode i) = if q.graph.configuration = c then
          answering n i ++ [RunEvent.record i] else [] := by
        rw [Request.oneNode, hn]
        exact eventsOf_map c _ _
      rw [List.flatMap_cons, eventsOf_append, dispatchedIn_append, hnode,
        ih fun o ho => h o (by simp [ho])]
      by_cases hc : q.graph.configuration = c
      · rw [if_pos hc, dispatchedIn_answering]
        simp [positionsOf, hc]
      · rw [if_neg hc]
        simp [positionsOf, hc, dispatchedIn]

theorem lt_size_of_topological {order : List (Request × Nat)} (hmem : ∀ o ∈ order, o.1 ∈ requests)
    (htop : ∀ q ∈ requests, q.graph.Topological (positionsOf q.graph.configuration order)) :
    ∀ o ∈ order, o.2 < o.1.graph.size := by
  intro o ho
  have hpos : o.2 ∈ positionsOf o.1.graph.configuration order :=
    List.mem_filterMap.mpr ⟨o, ho, by simp⟩
  exact List.mem_range.mp ((htop o.1 (hmem o ho)).perm.mem_iff.mp hpos)

/-- In any order in which a node comes after those that it takes inputs from, nodes can be
run one at a time. -/
theorem exists_inOrder (h : Compatible w known requests) (hsafe : Safe w m known requests)
    {order : List (Request × Nat)} (hmem : ∀ o ∈ order, o.1 ∈ requests)
    (htop : ∀ q ∈ requests, q.graph.Topological (positionsOf q.graph.configuration order)) :
    ∃ x, (submitAll w m requests).steps? (order.flatMap fun o => o.1.oneNode o.2) = some x ∧
      Idle requests x := by
  have hlt := lt_size_of_topological hmem htop
  have hprefix : ∀ earlier later, order = earlier ++ later →
      ∃ x, (submitAll w m requests).steps? (earlier.flatMap fun o => o.1.oneNode o.2) = some x ∧
        Idle requests x := by
    intro earlier
    induction earlier using List.reverseRecOn with
    | nil =>
        refine fun _ _ => ⟨_, rfl, fun q hq => ⟨.start q, ?_, rfl, rfl⟩⟩
        exact (runs_submitAll w m requests h.configurations _ _).mpr ⟨q, hq, rfl, rfl⟩
    | append_singleton earlier o ih =>
        intro later he
        obtain ⟨q, i⟩ := o
        rw [List.append_assoc] at he
        obtain ⟨x, hx, hidle⟩ := ih _ he
        have hearlier : ∀ o ∈ earlier, o.2 < o.1.graph.size := fun o ho => hlt o (by simp [he, ho])
        have hq : q ∈ requests := hmem (q, i) (by simp [he])
        have hpositions : positionsOf q.graph.configuration order =
            positionsOf q.graph.configuration earlier ++ i ::
              positionsOf q.graph.configuration later := by
          rw [he]
          simp [positionsOf, List.filterMap_append]
        have htopological := htop q hq
        have hnodup := htopological.perm.nodup_iff.mpr List.nodup_range
        rw [hpositions] at hnodup
        have hdispatched := dispatchedIn_inOrder q.graph.configuration hearlier
        obtain ⟨x', hx', hidle'⟩ := exists_oneNode h hsafe hx hidle hq (hlt (q, i) (by simp [he]))
          (hdispatched ▸ fun hm => (List.nodup_append.mp hnodup).2.2 i hm i (by simp) rfl)
          (hdispatched ▸ htopological.ordered _ _ _ hpositions)
        refine ⟨x', ?_, hidle'⟩
        rw [List.flatMap_append, steps?_append, hx, Option.bind_some, List.flatMap_cons,
          List.flatMap_nil, List.append_nil, hx']
  exact hprefix order [] (by simp)

theorem exists_oneAtATime (h : Compatible w known requests) (hsafe : Safe w m known requests)
    (order : List (Request × Nat)) (hmem : ∀ o ∈ order, o.1 ∈ requests)
    (htop : ∀ q ∈ requests, q.graph.Topological (positionsOf q.graph.configuration order)) :
    ∃ z, (submitAll w m requests).steps? (oneAtATime requests order) = some z ∧
      ∀ q ∈ requests, z.ending? q.graph.configuration = some (.ok ()) := by
  obtain ⟨x, hx, hidle⟩ := exists_inOrder h hsafe hmem htop
  have hco := coherent_steps (m := m) h hx hidle.not_failed
  obtain ⟨z, hz, hend⟩ := exists_finishes (x := x) h.configurations fun q hq => by
    obtain ⟨r, hr, hrun, hjobs⟩ := hidle q hq
    obtain ⟨r', hr', hscheduled⟩ := (hco.underway q hq).run
    obtain rfl := Option.some.inj (hr.symm.trans hr')
    refine ⟨r, hr, hrun, List.eq_nil_iff_forall_not_mem.mpr fun i hi => ?_, hjobs⟩
    have hlt := ((hscheduled.mem_iff i).mp (List.mem_append_left _ hi)).1
    have hdispatched :=
      dispatchedIn_inOrder q.graph.configuration (lt_size_of_topological hmem htop)
    refine (List.nodup_append.mp hscheduled.nodup).2.2 i hi i ?_ rfl
    rw [hdispatched]
    exact (htop q hq).perm.mem_iff.mpr (List.mem_range.mpr hlt)
  refine ⟨z, ?_, hend⟩
  rw [oneAtATime, steps?_append, hx]
  exact hz

theorem positionsOf_flatMap {orderOf : Request → List Nat} {l : List Request}
    (hn : (l.map fun q => q.graph.configuration).Nodup) {q : Request} (hq : q ∈ l) :
    positionsOf q.graph.configuration (l.flatMap fun q => (orderOf q).map (q, ·)) = orderOf q := by
  have hown : ∀ p : Request, positionsOf q.graph.configuration ((orderOf p).map (p, ·)) =
      if p.graph.configuration = q.graph.configuration then orderOf p else [] := by
    intro p
    by_cases hp : p.graph.configuration = q.graph.configuration <;> simp [positionsOf, hp]
  have happend : ∀ a b : List (Request × Nat), positionsOf q.graph.configuration (a ++ b) =
      positionsOf q.graph.configuration a ++ positionsOf q.graph.configuration b :=
    fun a b => List.filterMap_append
  have hothers : ∀ l : List Request,
      q.graph.configuration ∉ l.map (fun q => q.graph.configuration) →
      positionsOf q.graph.configuration (l.flatMap fun q => (orderOf q).map (q, ·)) = [] := by
    intro l
    induction l with
    | nil => exact fun _ => rfl
    | cons p l ih =>
        intro hl
        simp only [List.map_cons, List.mem_cons, not_or] at hl
        rw [List.flatMap_cons, happend, hown, if_neg (Ne.symm hl.1), ih hl.2, List.nil_append]
  induction l with
  | nil => simp at hq
  | cons p l ih =>
      simp only [List.map_cons, List.nodup_cons] at hn
      rw [List.flatMap_cons, happend, hown]
      rcases List.mem_cons.mp hq with rfl | hq
      · rw [if_pos rfl, hothers l hn.1, List.append_nil]
      · have hne : p.graph.configuration ≠ q.graph.configuration := fun he =>
          hn.1 (he ▸ List.mem_map_of_mem (f := fun q : Request => q.graph.configuration) hq)
        rw [if_neg hne, ih hn.2 hq, List.nil_append]

theorem exists_run (h : Compatible w known requests) (hsafe : Safe w m known requests) :
    ∃ es x, (submitAll w m requests).steps? es = some x ∧
      ∀ q ∈ requests, x.ending? q.graph.configuration = some (.ok ()) := by
  have hexists : ∀ q : Request, ∃ order, q ∈ requests → q.graph.Topological order := by
    intro q
    by_cases hq : q ∈ requests
    · have hx := h.executable q hq
      obtain ⟨order, horder⟩ := hx.acyclic.exists_topological hx.built.consistent
      exact ⟨order, fun _ => horder⟩
    · exact ⟨[], fun hq' => absurd hq' hq⟩
  choose orderOf htop using hexists
  obtain ⟨x, hx, hend⟩ := exists_oneAtATime h hsafe
    (requests.flatMap fun q => (orderOf q).map (q, ·))
    (fun o ho => by
      obtain ⟨q, hq, ho⟩ := List.mem_flatMap.mp ho
      obtain ⟨i, -, rfl⟩ := List.mem_map.mp ho
      exact hq)
    (fun q hq => by
      rw [positionsOf_flatMap h.configurations hq]
      exact htop q hq)
  exact ⟨_, x, hx, hend⟩

end Execution

theorem NodeMarks.mem_foldl_outcome (g : Graph) (m : NodeMarks) (outcomes : List (Nat × Answer))
    (n : Node) :
    (n ∈ (outcomes.foldl (outcome g) m).executed ↔
      n ∈ m.executed ∨ ∃ a, (n, a) ∈ g.answersIn outcomes ∧ a.succeeded = true) ∧
    (n ∈ (outcomes.foldl (outcome g) m).failed ↔
      n ∈ m.failed ∨ ∃ a, (n, a) ∈ g.answersIn outcomes ∧ a.succeeded = false) := by
  induction outcomes using List.reverseRecOn with
  | nil => simp [Graph.answersIn]
  | append_singleton outcomes o ih =>
      obtain ⟨i, a⟩ := o
      rw [List.foldl_append]
      cases hn : g.nodes[i]? with
      | none => simpa [Graph.answersIn, outcome, hn, markExecuted, markFailed] using ih
      | some k =>
          rw [Graph.answersIn_concat a hn]
          cases ha : a.succeeded <;>
            simp [outcome, hn, ha, markExecuted, markFailed, ih] <;> grind

namespace Execution

/-- For graphs without cycles and without two producers of one output, and functions that
return values under the outputs of their nodes only: whatever is in the caches before,
and however the events of all runs interleave until all have come to their ends, running
the nodes one at a time is possible in every order in which a node comes after those
that it takes inputs from, and leaves the same values in both partitions of every cache
and the same nodes marked executed and failed. -/
theorem interleaving_eq_oneAtATime (w : Workspace) (m : ExtTreeMap String NodeMarks)
    (requests : List Request)
    (hconfigurations : (requests.map fun q => q.graph.configuration).Nodup)
    (hcaches : (requests.map Request.cache).Nodup)
    (hexecutable : ∀ q ∈ requests, q.Executable w.repository)
    (hissued : w.identifiers.Issued)
    (hsize : w.identifiers.size +
      (requests.flatMap fun q => q.graph.nodes.flatMap Node.inputs).length < 2 ^ 63)
    (es : List (String × RunEvent)) (y : Execution)
    (hs : (submitAll w m requests).steps? es = some y)
    (hend : ∀ q ∈ requests, y.ending? q.graph.configuration = some (.ok ()))
    (order : List (Request × Nat)) (horder : ∀ o ∈ order, o.1 ∈ requests)
    (htopological : ∀ q ∈ requests, q.graph.Topological (positionsOf q.graph.configuration order)) :
    ∃ z, (submitAll w m requests).steps? (oneAtATime requests order) = some z ∧
      ∀ q ∈ requests, z.ending? q.graph.configuration = some (.ok ()) ∧
        z.workspace.cache q.cache = y.workspace.cache q.cache ∧
        ∀ n,
          (n ∈ (z.marks[q.graph.configuration]?.getD .empty).executed ↔
            n ∈ (y.marks[q.graph.configuration]?.getD .empty).executed) ∧
          (n ∈ (z.marks[q.graph.configuration]?.getD .empty).failed ↔
            n ∈ (y.marks[q.graph.configuration]?.getD .empty).failed) := by
  let known := w.identifiers.assigned ++ requests.flatMap fun q => q.graph.nodes.flatMap Node.inputs
  have h : Compatible w known requests := by
    refine ⟨hconfigurations, hcaches, hexecutable, ⟨rfl, hissued.sound, ?_⟩, ?_, ?_⟩
    · exact List.subset_append_left _ _
    · intro q hq n hn s hsn
      exact List.mem_append_right _
        (List.mem_flatMap.mpr ⟨q, hq, List.mem_flatMap.mpr ⟨n, hn, hsn⟩⟩)
    · simpa [known, Identifiers.size] using hsize
  have hy := coherent_steps (m := m) h hs fun q hq err herr => by simp [hend q hq] at herr
  obtain ⟨z, hz, hzend⟩ := exists_oneAtATime h (safe_of_ended h hy hend) order horder htopological
  have hzco := coherent_steps (m := m) h hz fun q hq err herr => by simp [hzend q hq] at herr
  refine ⟨z, hz, fun q hq => ⟨hzend q hq, ?_, fun n => ?_⟩⟩
  · have hx := hexecutable q hq
    exact Settled.unique hx.built.consistent hx.disjoint hx.acyclic (hzco.settled hq)
      (hy.settled hq) Graph.mem_nodes_of_mem_answersIn Graph.mem_nodes_of_mem_answersIn
      (hzco.covered h hq (hzend q hq)) (hy.covered h hq (hend q hq))
  · have hx := hexecutable q hq
    have hmem := Settled.mem_iff hx.built.consistent hx.disjoint hx.acyclic (hzco.settled hq)
      (hy.settled hq) Graph.mem_nodes_of_mem_answersIn Graph.mem_nodes_of_mem_answersIn
      (hzco.covered h hq (hzend q hq)) (hy.covered h hq (hend q hq))
    rw [(hzco.underway q hq).marks_eq, (hy.underway q hq).marks_eq]
    simp only [NodeMarks.mem_foldl_outcome, hmem, and_self]

namespace Sample
open Graph.Sample

def pair (configuration : String) : Graph :=
  graph configuration [step "1" .security [quantity "First" "1"] (quantity "Second" "1"),
    step "1" .security [] (quantity "First" "1")]

def request (configuration : String) : Request :=
  ⟨pair configuration, ⟨⟨"View", ⟨0⟩, 0⟩, configuration⟩, true⟩

theorem answer_tellers {n : Node} (hn : n.function.functionId = "1")
    (hkind : FunctionKind.appliesTo .security n.target.targetType = true)
    (hpayload : (receivedPayload? n.function.parameters.payload).isSome = true)
    (look : Specification → Option Value) :
    (∃ e, n.answer tellers look = .ran (.failed e)) ∨ ∃ b, n.answer tellers look =
      .ran (.returned (n.outputs.toList.map fun s => ⟨{ s with functionId := "1" }, .bool b⟩)) := by
  obtain ⟨payload, hp⟩ := Option.isSome_iff_exists.mp hpayload
  have hinvoker : tellers.invoker? "1" = some teller := by
    simp [Repository.invoker?, tellers]
  unfold Node.answer prepareResolved
  simp only [hp, Node.received, JobItem.ofNumbered, hn, hinvoker, teller, hkind, Bool.not_true,
    Bool.false_eq_true, reduceIte]
  generalize n.inputs.map (fun s => (look s).map (ComputedValue.mk s)) = resolved
  by_cases hmissing : 0 < resolved.countP Option.isNone
  · rw [if_pos hmissing]
    exact .inl ⟨_, rfl⟩
  · rw [if_neg hmissing]
    refine .inr ⟨(FunctionInputs.ofList (resolved.filterMap id)).isEmpty, ?_⟩
    simp [Invocation.outputSpecification, Specification.requirement, Function.comp_def]

theorem nodes_pair (configuration : String) : (pair configuration).nodes =
    [step "1" .security [quantity "First" "1"] (quantity "Second" "1"),
      step "1" .security [] (quantity "First" "1")] := by
  rfl

theorem produces_pair {configuration : String} {s : Specification} {i : Nat}
    (h : (pair configuration).Produces s i) :
    i = 0 ∧ s = quantity "Second" "1" ∨ i = 1 ∧ s = quantity "First" "1" := by
  obtain ⟨n, hn, hs⟩ := h
  rw [nodes_pair] at hn
  match i, hn with
  | 0, hn =>
      obtain rfl := Option.some.inj hn
      exact .inl ⟨rfl, mem_outputs_step.mp hs⟩
  | 1, hn =>
      obtain rfl := Option.some.inj hn
      exact .inr ⟨rfl, mem_outputs_step.mp hs⟩

theorem answer_pair {configuration : String} {n : Node} (hn : n ∈ (pair configuration).nodes)
    (look : Specification → Option Value) :
    (∃ e, n.answer tellers look = .ran (.failed e)) ∨ ∃ b, n.answer tellers look =
      .ran (.returned (n.outputs.toList.map fun s => ⟨{ s with functionId := "1" }, .bool b⟩)) := by
  rw [nodes_pair] at hn
  rcases List.mem_cons.mp hn with rfl | hn
  · exact answer_tellers rfl rfl rfl look
  · rw [List.mem_singleton.mp hn]
    exact answer_tellers rfl rfl rfl look

theorem executable_request (configuration : String) :
    (request configuration).Executable tellers := by
  refine ⟨built_graph _ _, Graph.acyclic_of_forall (fun i => 1 - i) ?_, ?_, ?_, ?_⟩
  · intro i hi j hj
    match i, hi, hj with
    | 0, _, hj =>
        have hj : j = 1 := List.mem_singleton.mp hj
        omega
    | 1, _, hj => exact absurd hj List.not_mem_nil
  · intro s i j hi hj
    rcases produces_pair hi with ⟨rfl, rfl⟩ | ⟨rfl, rfl⟩ <;>
      rcases produces_pair hj with ⟨rfl, hs⟩ | ⟨rfl, hs⟩ <;> first | rfl | simp [quantity] at hs
  · intro n hn
    rw [show (request configuration).graph.nodes = _ from nodes_pair configuration] at hn
    rcases List.mem_cons.mp hn with rfl | hn
    · rfl
    · rw [List.mem_singleton.mp hn]
      rfl
  · intro n hn look values ha v hv
    replace hn : n ∈ (pair configuration).nodes := hn
    obtain ⟨e, he⟩ | ⟨b, hb⟩ := answer_pair hn look
    · simp [he] at ha
    · obtain rfl : _ = values := by simpa [hb] using ha
      obtain ⟨s, hs, rfl⟩ := List.mem_map.mp hv
      obtain ⟨i, hi⟩ := List.mem_iff_getElem?.mp hn
      have hs := ExtTreeSet.mem_toList.mp hs
      rcases produces_pair ⟨n, hi, hs⟩ with ⟨-, rfl⟩ | ⟨-, rfl⟩
      · exact hs
      · exact hs

theorem topological_pair (configuration : String) :
    (request configuration).graph.Topological [1, 0] := by
  refine Graph.topological_of_take (List.Perm.swap 0 1 []) fun k hk i hi j hj => ?_
  match k, hk with
  | 0, _ =>
      obtain rfl := Option.some.inj hi
      exact absurd hj List.not_mem_nil
  | 1, _ =>
      obtain rfl := Option.some.inj hi
      exact hj

def requests : List Request := [request "Left", request "Right"]

theorem configurations_requests : (requests.map fun q => q.graph.configuration).Nodup := by
  change ["Left", "Right"].Nodup
  decide

theorem caches_requests : (requests.map Request.cache).Nodup := by
  simp [requests, request]

theorem executable_requests : ∀ q ∈ requests, q.Executable tellers := by
  simp only [requests, List.mem_cons, List.not_mem_nil, or_false, forall_eq_or_imp, forall_eq]
  exact ⟨executable_request "Left", executable_request "Right"⟩

theorem topological_requests {order : List (Request × Nat)} (hl : positionsOf "Left" order = [1, 0])
    (hr : positionsOf "Right" order = [1, 0]) :
    ∀ q ∈ requests, q.graph.Topological (positionsOf q.graph.configuration order) := by
  simp only [requests, List.mem_cons, List.not_mem_nil, or_false, forall_eq_or_imp, forall_eq]
  exact ⟨hl ▸ topological_pair "Left", hr ▸ topological_pair "Right"⟩

theorem compatible_requests :
    Compatible (.new tellers .missing) [quantity "First" "1"] requests := by
  refine ⟨configurations_requests, caches_requests, executable_requests,
    ⟨rfl, Identifiers.sound_empty, List.nil_subset _⟩, ?_, by decide⟩
  have hinputs : ∀ c, ∀ n ∈ (pair c).nodes, n.inputs ⊆ [quantity "First" "1"] := by
    intro c n hn
    rw [nodes_pair] at hn
    rcases List.mem_cons.mp hn with rfl | hn
    · exact List.Subset.refl _
    · rw [List.mem_singleton.mp hn]
      exact List.nil_subset _
  simp only [requests, List.mem_cons, List.not_mem_nil, or_false, forall_eq_or_imp, forall_eq]
  exact ⟨hinputs "Left", hinputs "Right"⟩

theorem safe_requests : Safe (.new tellers .missing) ∅ [quantity "First" "1"] requests := by
  have hsettles : ∀ c, ∀ n ∈ (pair c).nodes, ∀ look, (n.answer tellers look).settles = true := by
    intro c n hn look
    obtain ⟨e, he⟩ | ⟨b, hb⟩ := answer_pair hn look
    · rw [he]
      rfl
    · rw [hb]
      rfl
  refine safe_of_settles ?_
  simp only [requests, List.mem_cons, List.not_mem_nil, or_false, forall_eq_or_imp, forall_eq]
  exact ⟨hsettles "Left", hsettles "Right"⟩

/-- First the nodes without inputs, then the others. -/
def inTurn : List (Request × Nat) :=
  [(request "Left", 1), (request "Right", 1), (request "Left", 0), (request "Right", 0)]

/-- First one pair, then the other. -/
def rightFirst : List (Request × Nat) :=
  [(request "Right", 1), (request "Right", 0), (request "Left", 1), (request "Left", 0)]

end Sample
open Sample

/-- Nodes of pairs that run side by side can be run in another order. -/
theorem pairs_in_two_orders : ∃ y z,
    (submitAll (.new tellers .missing) ∅ requests).steps? (oneAtATime requests inTurn) = some y ∧
    (submitAll (.new tellers .missing) ∅ requests).steps? (oneAtATime requests rightFirst) =
      some z ∧
    ∀ q ∈ requests, z.workspace.cache q.cache = y.workspace.cache q.cache := by
  have hy : ∃ y, (submitAll (.new tellers .missing) ∅ requests).steps?
      (oneAtATime requests inTurn) = some y ∧
        ∀ q ∈ requests, y.ending? q.graph.configuration = some (.ok ()) :=
    exists_oneAtATime compatible_requests safe_requests inTurn (by simp [requests, inTurn])
      (topological_requests rfl rfl)
  obtain ⟨y, hy, hend⟩ := hy
  obtain ⟨z, hz, hall⟩ := interleaving_eq_oneAtATime (.new tellers .missing) ∅ requests
    configurations_requests caches_requests executable_requests .empty (by decide) _ y hy hend
    rightFirst (by simp [requests, rightFirst]) (topological_requests rfl rfl)
  exact ⟨y, z, hy, hz, fun q hq => (hall q hq).2.1⟩

end Execution
end ValuationCycle
