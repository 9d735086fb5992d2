import ValuationCycle.Proofs.Execution.Interleaving

/-!
# What runs store

Of all events only a record touches a cache: the values that a function returned
are stored in the cache of its run. A value goes to the private partition if some
node of the graph that is run has it as an output and is not live, and else to the
partition that all configurations share. After any row of events each partition
has the last value that went there, or what it had before.
-/
namespace ValuationCycle
open Json Std Wire

structure Storing where
  request : Request
  value : ComputedValue

namespace Storing

def isPrivate (v : Storing) : Bool :=
  (CacheHint.ofGraph v.request.graph).isPrivate v.value.specification

/-- The values that went to the partition that the caches of a group share. -/
def spilled (group : CacheGroup) (vs : List Storing) : List ComputedValue :=
  (vs.filter fun v => v.request.cache.group = group ∧ v.isPrivate = false).map value

/-- The values that went to the private partition of a cache. -/
def kept (h : CacheHandle) (vs : List Storing) : List ComputedValue :=
  (vs.filter fun v => v.request.cache = h ∧ v.isPrivate = true).map value

variable {vs : List Storing} {s : Specification}

theorem mem_spilled {group : CacheGroup} {u : ComputedValue} : u ∈ spilled group vs ↔
    ∃ v ∈ vs, v.request.cache.group = group ∧ v.isPrivate = false ∧ v.value = u := by
  simp [spilled, and_assoc]

theorem mem_kept {h : CacheHandle} {u : ComputedValue} : u ∈ kept h vs ↔
    ∃ v ∈ vs, v.request.cache = h ∧ v.isPrivate = true ∧ v.value = u := by
  simp [kept, and_assoc]

theorem lastValue?_spilled (q : Request) (values : List ComputedValue) (group : CacheGroup)
    (s : Specification) : lastValue? (spilled group (values.map (⟨q, ·⟩))) s =
      if q.cache.group = group ∧ !(CacheHint.ofGraph q.graph).isPrivate s then lastValue? values s
      else none := by
  rw [← lastValue?_ite_filter _ fun s => !(CacheHint.ofGraph q.graph).isPrivate s]
  by_cases hg : q.cache.group = group <;>
    simp [spilled, isPrivate, List.filter_map, Function.comp_def, hg]

theorem lastValue?_kept (q : Request) (values : List ComputedValue) (k : CacheHandle)
    (s : Specification) : lastValue? (kept k (values.map (⟨q, ·⟩))) s =
      if q.cache = k ∧ (CacheHint.ofGraph q.graph).isPrivate s then lastValue? values s
      else none := by
  rw [← lastValue?_ite_filter _ (CacheHint.ofGraph q.graph).isPrivate]
  by_cases hk : q.cache = k <;>
    simp [kept, isPrivate, List.filter_map, Function.comp_def, hk]

theorem kept_eq_nil {k : CacheHandle} (h : ∀ v ∈ vs, v.request.cache ≠ k) : kept k vs = [] := by
  rw [kept, List.filter_eq_nil_iff.mpr fun v hv => by simp [h v hv], List.map_nil]

end Storing

/-- Values were stored one after another, and nothing else was done to the caches or to the
market. -/
structure Workspace.Stored (vs : List Storing) (w w' : Workspace) : Prop where
  private_eq : ∀ (k : CacheHandle) (s : Specification), (w'.cache k).privatePart[s]? =
    (lastValue? (Storing.kept k vs) s).or (w.cache k).privatePart[s]?
  shared_eq : ∀ (k : CacheHandle) (s : Specification), (w'.cache k).sharedPart[s]? =
    (lastValue? (Storing.spilled k.group vs) s).or (w.cache k).sharedPart[s]?
  liveData_eq : w'.liveData = w.liveData
  releases_eq : w'.caches.releases = w.caches.releases
  repository_eq : w'.repository = w.repository

namespace Workspace
variable {w w' w'' : Workspace} {vs ws : List Storing}

theorem stored_refl (w : Workspace) : w.Stored [] w := by
  refine ⟨fun k s => ?_, fun k s => ?_, rfl, rfl, rfl⟩ <;>
    simp [Storing.kept, Storing.spilled, lastValue?]

theorem Stored.trans (h : w.Stored vs w') (h' : w'.Stored ws w'') : w.Stored (vs ++ ws) w'' := by
  refine ⟨fun k s => ?_, fun k s => ?_, h'.liveData_eq.trans h.liveData_eq,
    h'.releases_eq.trans h.releases_eq, h'.repository_eq.trans h.repository_eq⟩
  · rw [h'.private_eq, h.private_eq, ← Option.or_assoc, ← lastValue?_append]
    simp [Storing.kept]
  · rw [h'.shared_eq, h.shared_eq, ← Option.or_assoc, ← lastValue?_append]
    simp [Storing.spilled]

/-- What a group shares stays as it is exactly if nothing that went there last differs. -/
theorem Stored.sharedPart_eq_iff (h : w.Stored vs w') (k : CacheHandle) :
    (w'.cache k).sharedPart = (w.cache k).sharedPart ↔
      ∀ s v, lastValue? (Storing.spilled k.group vs) s = some v →
        (w.cache k).sharedPart[s]? = some v := by
  constructor
  · intro hsame s v hv
    rw [← hsame, h.shared_eq, hv, Option.some_or]
  · intro hsame
    refine ExtTreeMap.ext_getElem? fun s => ?_
    rw [h.shared_eq]
    cases hv : lastValue? (Storing.spilled k.group vs) s with
    | none => rw [Option.none_or]
    | some v => rw [Option.some_or, hsame s v hv]

/-- Read is what the run of the cache stored, then what was private, then what any run spilled. -/
theorem Stored.get?_eq (h : w.Stored vs w') (k : CacheHandle) (s : Specification) :
    (w'.cache k).get? s = (lastValue? (Storing.kept k vs) s).or ((w.cache k).privatePart[s]?.or
      ((lastValue? (Storing.spilled k.group vs) s).or (w.cache k).sharedPart[s]?)) := by
  rw [Cache.get?, h.private_eq, h.shared_eq, Option.or_assoc]

theorem stored_putMany (w : Workspace) (q : Request) (values : List ComputedValue) :
    w.Stored (values.map (⟨q, ·⟩))
      (w.updateCache q.cache fun c => c.putMany (.ofGraph q.graph) values) := by
  refine ⟨fun k s => ?_, fun k s => ?_, rfl, rfl, rfl⟩
  · rw [Storing.lastValue?_kept]
    exact (w.caches.update_putMany q.cache k _ values s).1
  · rw [Storing.lastValue?_spilled]
    exact (w.caches.update_putMany q.cache k _ values s).2

end Workspace

namespace Site
variable {s s' : Site}

def stored (s : Site) (e : RunEvent) : List Storing :=
  ((s.recorded e).flatMap fun o => o.2.values).map (⟨s.run.request, ·⟩)

theorem stored_fail (s : Site) (e : ExecutionError) :
    s.workspace.Stored [] (s.fail e).workspace := by
  unfold fail
  split
  · exact ⟨s.workspace.stored_refl.private_eq, s.workspace.stored_refl.shared_eq, rfl, rfl, rfl⟩
  · exact s.workspace.stored_refl

theorem stored_settle (s : Site) (i : Nat) (n : Node) (a : Answer) :
    s.workspace.Stored (a.values.map (⟨s.run.request, ·⟩)) (s.settle i n a).workspace := by
  rcases a with e | (values | e | _)
  · exact s.stored_fail _
  · exact s.workspace.stored_putMany s.run.request values
  · exact s.workspace.stored_refl
  · exact s.stored_fail _

theorem step?_stored {e : RunEvent} (h : s.step? e = some s') :
    s.workspace.Stored (s.stored e) s'.workspace := by
  have hrefl := s.workspace.stored_refl
  cases e with
  | dispatch i =>
      obtain ⟨-, -, n, -, rfl⟩ := dispatch_eq_some h
      exact hrefl
  | number i =>
      obtain ⟨-, numbers, input, rest, -, rfl⟩ := number_eq_some h
      exact ⟨hrefl.private_eq, hrefl.shared_eq, rfl, rfl, rfl⟩
  | evaluate i =>
      obtain ⟨numbers, n, -, -, rfl⟩ := evaluate_eq_some h
      exact hrefl
  | record i =>
      obtain ⟨-, numbers, unnumbered, a, n, hj, -, rfl⟩ := record_eq_some h
      have hstored : s.stored (.record i) = a.values.map (⟨s.run.request, ·⟩) := by
        simp [stored, recorded, hj]
      rw [hstored]
      exact stored_settle { s with run := s.run.dropJob i } i n a
  | finish =>
      obtain ⟨-, -, -, rfl⟩ := finish_eq_some h
      dsimp only
      split
      · exact ⟨hrefl.private_eq, hrefl.shared_eq, rfl, rfl, rfl⟩
      · exact hrefl
  | cancel =>
      obtain ⟨-, rfl⟩ := cancel_eq_some h
      exact hrefl

end Site

/-- What the function of a node may return when it is invoked for the node. -/
def Node.Returns (r : Repository) (n : Node) (v : ComputedValue) : Prop :=
  ∃ invoker, r.invoker? n.function.functionId = some invoker ∧
    ∃ i : Invocation, i.functionId = n.function.functionId ∧ i.target = n.target ∧
      i.desired = n.outputs.toList.map Specification.requirement ∧
      ∃ values, invoker.run i = .returned values ∧ v ∈ values

def Node.Succeeds (r : Repository) (n : Node) (values : List ComputedValue) : Prop :=
  ∃ invoker payload inputs, r.invoker? n.function.functionId = some invoker ∧
    receivedPayload? n.function.parameters.payload = some payload ∧
    invoker.run ⟨n.function.functionId, n.target, ⟨n.function.parameters.typeName, payload⟩, inputs,
      n.outputs.toList.map Specification.requirement⟩ = .returned values

theorem Node.Succeeds.returns {r : Repository} {n : Node} {values : List ComputedValue}
    (h : n.Succeeds r values) {v : ComputedValue} (hv : v ∈ values) : n.Returns r v := by
  obtain ⟨invoker, payload, inputs, hinvoker, -, hrun⟩ := h
  exact ⟨invoker, hinvoker, _, rfl, rfl, rfl, values, hrun, hv⟩

def Node.Explains (r : Repository) (n : Node) (a : Answer) : Prop :=
  ∀ values, a = .ran (.returned values) → n.Succeeds r values

theorem Answer.mem_values {a : Answer} {v : ComputedValue} :
    v ∈ a.values ↔ ∃ values, a = .ran (.returned values) ∧ v ∈ values := by
  rcases a with e | (returned | e | _) <;> simp [Answer.values]

theorem eq_of_prepareJob {r : Repository} {m : Identifiers} {c : Cache} {j : JobItem}
    {invoker : Invoker} {i : Invocation} (h : prepareJob r m c j = .ok (invoker, i)) :
    r.invoker? j.functionId = some invoker ∧
      ∃ inputs, i = ⟨j.functionId, j.target, j.parameters, inputs, j.desired⟩ := by
  rw [prepareJob_eq] at h
  unfold prepareResolved at h
  cases hi : r.invoker? j.functionId with
  | none => simp [hi] at h
  | some found =>
      simp only [hi] at h
      split at h
      · simp at h
      · split at h
        · simp at h
        · obtain ⟨rfl, rfl⟩ := Prod.mk.inj (Except.ok.inj h)
          exact ⟨rfl, _, rfl⟩

theorem Site.explains_answerOf (w : Workspace) (cache : Cache) (n : Node) (numbers : List Int64) :
    n.Explains w.repository (answerOf w cache n numbers).1 := by
  intro values ha
  unfold answerOf at ha
  rw [ofText_text_jobItem] at ha
  cases hp : receivedPayload? (JobItem.ofNumbered n numbers).parameters.payload with
  | none => simp [hp] at ha
  | some payload =>
      simp only [hp] at ha
      split at ha
      · simp at ha
      · next invoker i hprepare =>
          obtain ⟨hinvoker, inputs, rfl⟩ := eq_of_prepareJob hprepare
          exact ⟨invoker, payload, inputs, hinvoker, hp, Answer.ran.inj ha⟩

/-- The values of an answer were returned by the function of the node. -/
theorem Site.returns_of_answerOf {w : Workspace} {cache : Cache} {n : Node} {numbers : List Int64}
    {v : ComputedValue} (hv : v ∈ (answerOf w cache n numbers).1.values) :
    n.Returns w.repository v := by
  obtain ⟨values, ha, hv⟩ := Answer.mem_values.mp hv
  exact (explains_answerOf w cache n numbers values ha).returns hv

def Run.Answered (p : Node → Answer → Prop) (run : Run) : Prop :=
  ∀ j ∈ run.jobs, ∀ a, j.answer = some a → ∃ n, run.graph.nodes[j.node]? = some n ∧ p n a

def Run.Answering (r : Repository) (run : Run) : Prop :=
  ∀ j ∈ run.jobs, ∀ a, j.answer = some a → ∃ n, run.graph.nodes[j.node]? = some n ∧
    ∀ v ∈ a.values, n.Returns r v

namespace Site
variable {s s' : Site} {r : Repository}

theorem step?_answered {p : Node → Answer → Prop} {e : RunEvent} (h : s.step? e = some s')
    (hp : ∀ n numbers,
      p n (answerOf s.workspace (s.workspace.cache s.run.request.cache) n numbers).1)
    (hs : s.run.Answered p) : s'.run.Answered p := by
  cases e with
  | dispatch i =>
      obtain ⟨-, -, n, -, rfl⟩ := dispatch_eq_some h
      intro j hj a ha
      rcases List.mem_append.mp hj with hj | hj
      · exact hs j hj a ha
      · rw [List.mem_singleton.mp hj] at ha
        simp at ha
  | number i =>
      obtain ⟨-, numbers, input, rest, -, rfl⟩ := number_eq_some h
      intro j hj a ha
      obtain ⟨k, hk, rfl⟩ := List.mem_map.mp hj
      split at ha
      · simp at ha
      · next hne =>
          rw [if_neg hne]
          exact hs k hk a ha
  | evaluate i =>
      obtain ⟨numbers, n, -, hn, rfl⟩ := evaluate_eq_some h
      intro j hj a ha
      obtain ⟨k, hk, rfl⟩ := List.mem_map.mp hj
      split at ha
      · next he =>
          rw [if_pos he]
          obtain rfl := Option.some.inj ha
          exact ⟨n, hn, hp n numbers⟩
      · next hne =>
          rw [if_neg hne]
          exact hs k hk a ha
  | record i =>
      obtain ⟨-, numbers, unnumbered, a, n, -, -, rfl⟩ := record_eq_some h
      intro j hj b hb
      rw [settle_jobs] at hj
      rw [Run.graph, settle_request]
      exact hs j (List.mem_filter.mp hj).1 b hb
  | finish =>
      obtain ⟨-, -, -, rfl⟩ := finish_eq_some h
      exact hs
  | cancel =>
      obtain ⟨-, rfl⟩ := cancel_eq_some h
      exact hs

theorem step?_answering {e : RunEvent} (h : s.step? e = some s')
    (hs : s.run.Answering s.workspace.repository) : s'.run.Answering s.workspace.repository :=
  step?_answered h (fun _ _ _ hv => returns_of_answerOf hv) hs

theorem exists_returning {i : Nat} {n : Node} {values : List ComputedValue}
    (hrun : s.run.ending = none) (hready : s.run.ready = [i]) (hjobs : s.run.jobs = [])
    (hn : s.run.graph.nodes[i]? = some n) (hinputs : n.inputs = [])
    (hdependents : Run.dependents s.run.graph i = [])
    (ha : n.answer s.workspace.repository (s.workspace.cache s.run.request.cache).get? =
      .ran (.returned values)) :
    ∃ s', s.steps? [.dispatch i, .evaluate i, .record i] = some s' ∧
      s.workspace.Stored (values.map (⟨s.run.request, ·⟩)) s'.workspace ∧
      s'.run.ending = none ∧ s'.run.ready = [] ∧ s'.run.jobs = [] := by
  have hanswer := answerOf_eq (w := s.workspace) (n := n)
    (hinputs ▸ Identifiers.resolves_nil) (s.workspace.cache s.run.request.cache)
  rw [ha] at hanswer
  let s₁ : Site := { s with run := { s.run with ready := [], jobs := [⟨i, [], [], none⟩] } }
  have h₁ : s.step? (.dispatch i) = some s₁ := by
    simp [step?, dispatch, hrun, hready, hjobs, hn, hinputs, s₁]
  let s₂ : Site := { s₁ with
    run := { s₁.run with jobs := [⟨i, [], [], some (.ran (.returned values))⟩] }
    journal := s.journal ++
      (answerOf s.workspace (s.workspace.cache s.run.request.cache) n []).2 }
  have h₂ : s₁.step? (.evaluate i) = some s₂ := by
    have hjob : s₁.run.job? i = some ⟨i, [], [], none⟩ := by simp [Run.job?, s₁]
    have hnode : s₁.run.graph.nodes[i]? = some n := hn
    simp only [step?, evaluate, hjob, hnode]
    rw [hanswer]
    simp [Run.setJob, s₁, s₂]
  let s₃ : Site := { s₂ with run := s₂.run.dropJob i }
  have h₃ : s₂.step? (.record i) = some (s₃.settle i n (.ran (.returned values))) := by
    have hjob : s₂.run.job? i = some ⟨i, [], [], some (.ran (.returned values))⟩ := by
      simp [Run.job?, s₂]
    have hnode : s₂.run.graph.nodes[i]? = some n := hn
    have hnone : s₂.run.ending = none := hrun
    simp only [step?, record, hnone, Option.isNone_none, hjob, hnode]
    rfl
  refine ⟨s₃.settle i n (.ran (.returned values)), ?_,
    s₃.stored_settle i n (.ran (.returned values)), ?_⟩
  · rw [steps?_cons, h₁, Option.bind_some, steps?_cons, h₂, Option.bind_some, steps?_cons, h₃]
    rfl
  · have hreleased : (s₃.settle i n (.ran (.returned values))).run =
        (s₃.recordReturned n values).run := by
      change (Run.dependents s.run.graph i).foldl Run.release _ = _
      rw [hdependents]
      rfl
    rw [hreleased]
    exact ⟨hrun, rfl, by simp [recordReturned, s₃, s₂, Run.dropJob]⟩

theorem returns_of_stored {e : RunEvent} (hs : s.run.Answering r) {v : Storing}
    (hv : v ∈ s.stored e) :
    v.request = s.run.request ∧ ∃ n ∈ s.run.graph.nodes, n.Returns r v.value := by
  obtain ⟨u, hu, rfl⟩ := List.mem_map.mp hv
  refine ⟨rfl, ?_⟩
  obtain ⟨o, ho, hu⟩ := List.mem_flatMap.mp hu
  cases e with
  | record i =>
      obtain ⟨a, ha, rfl⟩ := List.mem_map.mp ho
      obtain ⟨j, hj, hja⟩ := Option.bind_eq_some_iff.mp (Option.mem_toList.mp ha)
      obtain ⟨n, hn, hreturns⟩ := hs j (Run.job?_eq_some hj).2 a hja
      exact ⟨n, List.mem_of_getElem? hn, hreturns u hu⟩
  | _ => simp [recorded] at ho

end Site

namespace Execution
variable {x y : Execution} {r : Repository}

def storedBy (x : Execution) (name : String) (e : RunEvent) : List Storing :=
  ((x.site? name).map fun s => s.stored e).getD []

def stored : Execution → List (String × RunEvent) → List Storing
  | _, [] => []
  | x, e :: es => x.storedBy e.1 e.2 ++ ((x.step? e.1 e.2).map fun x => x.stored es).getD []

theorem step?_stored {name : String} {e : RunEvent} (h : x.step? name e = some y) :
    x.workspace.Stored (x.storedBy name e) y.workspace := by
  obtain ⟨s, s', hs, he, rfl⟩ := step?_eq_some h
  rw [storedBy, hs, ← (site?_eq_some hs).1]
  exact Site.step?_stored he

theorem steps?_stored {es : List (String × RunEvent)} (h : x.steps? es = some y) :
    x.workspace.Stored (x.stored es) y.workspace := by
  induction es generalizing x with
  | nil =>
      obtain rfl := Option.some.inj h
      exact x.workspace.stored_refl
  | cons e es ih =>
      rw [steps?_cons] at h
      obtain ⟨x', he, h⟩ := Option.bind_eq_some_iff.mp h
      rw [stored, he]
      exact (step?_stored he).trans (ih h)

theorem stored_finishes (requests : List Request) (x : Execution) :
    x.stored (requests.map fun q => (q.graph.configuration, .finish)) = [] := by
  induction requests generalizing x with
  | nil => rfl
  | cons q requests ih =>
      have hfinish : ∀ s : Site, s.stored .finish = [] := fun _ => rfl
      rw [List.map_cons, stored, storedBy]
      cases x.site? q.graph.configuration <;> cases x.step? q.graph.configuration .finish <;>
        simp [hfinish, ih]

def Answering (r : Repository) (x : Execution) : Prop :=
  ∀ (name : String) (run : Run), x.runs[name]? = some run → run.Answering r

theorem Answering.step {name : String} {e : RunEvent} (hx : x.Answering x.workspace.repository)
    (h : x.step? name e = some y) :
    y.Answering y.workspace.repository := by
  obtain ⟨s, s', hs, he, rfl⟩ := step?_eq_some h
  obtain ⟨hw, -, hrun, -⟩ := site?_eq_some hs
  intro other run hr
  rw [workspace_restore, (Site.step?_stored he).repository_eq]
  rw [runs_restore] at hr
  split at hr
  · obtain rfl := Option.some.inj hr
    exact Site.step?_answering he (hw ▸ hx name s.run hrun)
  · exact hw ▸ hx other run hr

/-- What a row of events stores was returned by functions of nodes of the graphs that are
run. -/
theorem returns_of_stored {es : List (String × RunEvent)}
    (hx : x.Answering x.workspace.repository) {v : Storing} (hv : v ∈ x.stored es) :
    (∃ (name : String) (run : Run), x.runs[name]? = some run ∧ run.request = v.request) ∧
      ∃ n ∈ v.request.graph.nodes, n.Returns x.workspace.repository v.value := by
  induction es generalizing x with
  | nil => exact absurd hv List.not_mem_nil
  | cons e es ih =>
      rw [stored, storedBy] at hv
      rcases List.mem_append.mp hv with hv | hv
      · cases hs : x.site? e.1 with
        | none => simp [hs] at hv
        | some s =>
            obtain ⟨hw, -, hrun, -⟩ := site?_eq_some hs
            obtain ⟨hrequest, hreturns⟩ :=
              Site.returns_of_stored (hx e.1 s.run hrun) (by simpa [hs] using hv)
            rw [hrequest]
            exact ⟨⟨e.1, s.run, hrun, rfl⟩, hreturns⟩
      · cases he : x.step? e.1 e.2 with
        | none => simp [he] at hv
        | some x' =>
            obtain ⟨⟨name, run, hrun, hrequest⟩, hreturns⟩ :=
              ih (hx.step he) (by simpa [he] using hv)
            obtain ⟨s, s', hs, hstep, rfl⟩ := step?_eq_some he
            rw [workspace_restore, (Site.step?_stored hstep).repository_eq,
              (site?_eq_some hs).1] at hreturns
            refine ⟨?_, hreturns⟩
            rw [runs_restore] at hrun
            split at hrun
            · next hname =>
                obtain rfl := Option.some.inj hrun
                exact ⟨e.1, s.run, (site?_eq_some hs).2.2.1,
                  (Site.step?_request hstep).symm.trans hrequest⟩
            · exact ⟨name, run, hrun, hrequest⟩

theorem answering_submitAll (w : Workspace) (m : ExtTreeMap String NodeMarks)
    {requests : List Request} (hn : (requests.map fun q => q.graph.configuration).Nodup) :
    (submitAll w m requests).Answering r := by
  intro name run hr j hj
  obtain ⟨q, -, -, rfl⟩ := (runs_submitAll w m requests hn name run).mp hr
  exact absurd hj List.not_mem_nil

end Execution
end ValuationCycle
