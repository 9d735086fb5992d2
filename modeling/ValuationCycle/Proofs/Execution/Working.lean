import ValuationCycle.Proofs.Execution.Scheduling
import ValuationCycle.Proofs.Execution.Settled

/-!
# Jobs at work

The numbers of a job lead back to the inputs of its node, and its answer is the
answer for the values that will stand under the inputs to the end: whatever is
recorded between the evaluation of a job and its own record comes from nodes that
it takes no input from. So the cache of a run is settled at all times. An event
of one run adds numbers at most to what the other runs see.
-/
namespace ValuationCycle
open Json Std

/-- What a run can be made of: an acyclic graph without two producers of one output,
whose nodes are all invoked and return values under their outputs only. -/
structure Request.Executable (q : Request) (r : Repository) : Prop where
  built : q.graph.Built
  acyclic : q.graph.Acyclic
  disjoint : q.graph.Disjoint
  invoked : ∀ n ∈ q.graph.nodes, n.isLive = false
  confined : ∀ n ∈ q.graph.nodes, n.Confined r

theorem Request.Executable.isPrivate {q : Request} {r : Repository} (hx : q.Executable r) {n : Node}
    (hn : n ∈ q.graph.nodes) {look : Specification → Option Value} {v : ComputedValue}
    (hv : v ∈ (n.answer r look).values) :
    (CacheHint.ofGraph q.graph).isPrivate v.specification = true :=
  CacheHint.isPrivate_ofGraph.mpr ⟨n, hn, hx.invoked n hn, (hx.confined n hn).mem_outputs hv⟩

/-- A workspace with its functions, which has numbered known specifications only. -/
structure Workspace.Numbered (r : Repository) (known : List Specification) (w : Workspace) :
    Prop where
  repository_eq : w.repository = r
  sound : w.identifiers.Sound
  subset : w.identifiers.assigned ⊆ known

/-- A change that all but one cache see as new numbers at most. -/
structure Workspace.Spared (h : CacheHandle) (w w' : Workspace) : Prop where
  assigned : w.identifiers.assigned <+: w'.identifiers.assigned
  cache_eq : ∀ k, k ≠ h → w'.cache k = w.cache k

theorem Workspace.spared_refl (h : CacheHandle) (w : Workspace) : w.Spared h w :=
  ⟨List.prefix_refl _, fun _ _ => rfl⟩

/-- The numbers of a job stand for the first inputs of its node, and its answer is the
answer for what stands under the inputs. -/
def Job.Faithful (r : Repository) (q : Request) (before : Cache) (w : Workspace) (j : Job) : Prop :=
  ∃ n resolved, q.graph.nodes[j.node]? = some n ∧
    w.identifiers.Resolves j.numbers resolved ∧ resolved ++ j.unnumbered = n.inputs ∧
    ∀ a, j.answer = some a → a = n.answer r (n.look before (w.cache q.cache))

/-- What holds of the jobs and the cache of a run besides its schedule. -/
structure Working (r : Repository) (q : Request) (before : Cache) (outcomes : List (Nat × Answer))
    (w : Workspace) (run : Run) : Prop where
  job : ∀ j ∈ run.jobs, j.Faithful r q before w
  settled : Settled r before (q.graph.answersIn outcomes) (w.cache q.cache)
  settles : ∀ o ∈ outcomes, o.2.settles = true

theorem working_start (r : Repository) (q : Request) (w : Workspace) :
    Working r q (w.cache q.cache) [] w (.start q) :=
  ⟨by simp [Run.start], settled_nil r _, by simp⟩

namespace Scheduled
variable {q : Request} {past : List RunEvent} {outcomes : List (Nat × Answer)} {run : Run}

theorem mem_dispatched_of_job (h : Scheduled q past outcomes run) {j : Job} (hj : j ∈ run.jobs) :
    j.node ∈ dispatchedIn past ∧ j.node ∉ outcomes.map Prod.fst := by
  refine ⟨h.perm.mem_iff.mpr (List.mem_append_right _ (List.mem_map_of_mem hj)), fun hm => ?_⟩
  have hn := h.perm.nodup_iff.mp (List.nodup_append.mp h.nodup).2.1
  exact (List.nodup_append.mp hn).2.2 _ hm _ (List.mem_map_of_mem hj) rfl

theorem mem_dispatched_of_outcome (h : Scheduled q past outcomes run) {o : Nat × Answer}
    (ho : o ∈ outcomes) : o.1 ∈ dispatchedIn past :=
  h.perm.mem_iff.mpr (List.mem_append_left _ (List.mem_map_of_mem ho))

theorem backed (h : Scheduled q past outcomes run) (hc : q.graph.Consistent) :
    q.graph.Backed (q.graph.answersIn outcomes) := by
  intro i n a hn ha j hj
  obtain ⟨k, hk, hkn⟩ := Graph.mem_answersIn.mp ha
  obtain rfl : k = i := (List.getElem?_inj (List.getElem?_eq_some_iff.mp hkn).choose hc.nodup).mp
    (hkn.trans hn.symm)
  have hdone := ((h.mem_iff k).mp (List.mem_append_right _ (h.mem_dispatched_of_outcome hk))).2 j hj
  obtain ⟨⟨j, b⟩, ho, rfl⟩ := List.mem_map.mp hdone
  have hm := List.getElem?_eq_getElem (hc.edge_lt hj)
  exact ⟨_, b, hm, Graph.mem_answersIn.mpr ⟨j, ho, hm⟩⟩

theorem notMem_outputs (h : Scheduled q past outcomes run) (hc : q.graph.Consistent)
    (hd : q.graph.Disjoint) {i k : Nat} {n m : Node} (hi : i ∈ dispatchedIn past)
    (hn : q.graph.nodes[i]? = some n) (hm : q.graph.nodes[k]? = some m)
    (hk : k ∉ outcomes.map Prod.fst) {s : Specification} (hs : s ∈ n.inputs)
    (hsn : s ∉ n.outputs) : s ∉ m.outputs := fun hsm =>
  hk (((h.mem_iff i).mp (List.mem_append_right _ hi)).2 k (hc.edge_of_mem hd hn hm hs hsm hsn))

theorem notMem_outputs_of_outcome (hd : q.graph.Disjoint) {i : Nat}
    {n : Node} (hn : q.graph.nodes[i]? = some n) (hi : i ∉ outcomes.map Prod.fst)
    {s : Specification} (hs : s ∈ n.outputs) :
    ∀ o ∈ q.graph.answersIn outcomes, s ∉ o.1.outputs := by
  rintro ⟨m, a⟩ ho hsm
  obtain ⟨k, hk, hm⟩ := Graph.mem_answersIn.mp ho
  obtain rfl := hd.eq_of_mem hn hm hs hsm
  exact hi (List.mem_map_of_mem (f := Prod.fst) hk)

end Scheduled

namespace Site
variable {s : Site} {i : Nat} {n : Node} {a : Answer}

theorem settle_jobs (s : Site) (i : Nat) (n : Node) (a : Answer) :
    (s.settle i n a).run.jobs = s.run.jobs := by
  have hrelease : ∀ s : Site, (s.releaseDependents i).run.jobs = s.run.jobs := fun s => by
    change ((Run.dependents s.run.graph i).foldl Run.release s.run).jobs = s.run.jobs
    rw [Run.foldl_release (Run.nodup_dependents _ _)]
  rcases a with e | (values | e | _)
  · rfl
  · exact hrelease _
  · exact hrelease _
  · rfl

theorem settles_of_ok (hok : ∀ e, (s.settle i n a).run.ending ≠ some (.error e)) :
    a.settles = true := by
  rcases a with e | (values | e | _)
  · exact absurd rfl (hok (.dispatch e.message))
  · rfl
  · rfl
  · exact absurd rfl (hok (.brokeDown "job broke down"))

theorem settle_workspace (ha : a.settles = true) :
    (s.settle i n a).workspace = s.workspace ∧ a.values = [] ∨
      (s.settle i n a).workspace =
        s.workspace.updateCache s.run.request.cache fun c => c.putMany s.hint a.values := by
  rcases a with e | (values | e | _)
  · simp [Answer.settles] at ha
  · exact .inr rfl
  · exact .inl ⟨rfl, rfl⟩
  · simp [Answer.settles] at ha

theorem settle_cache (ha : a.settles = true)
    (hprivate : ∀ v ∈ a.values, s.hint.isPrivate v.specification = true) :
    ((s.settle i n a).workspace.cache s.run.request.cache).sharedPart =
        (s.workspace.cache s.run.request.cache).sharedPart ∧
      ∀ t : Specification,
        ((s.settle i n a).workspace.cache s.run.request.cache).privatePart[t]? =
          (a.value? t).or (s.workspace.cache s.run.request.cache).privatePart[t]? := by
  rcases settle_workspace (s := s) (i := i) (n := n) ha with ⟨hw, hv⟩ | hw
  · rw [hw]
    simp [Answer.value?, hv, lastValue?]
  · rw [hw, Workspace.cache_updateCache]
    exact Cache.putMany_private hprivate _

theorem settle_numbered {r : Repository} {known : List Specification} (ha : a.settles = true)
    (h : s.workspace.Numbered r known) : (s.settle i n a).workspace.Numbered r known := by
  rcases settle_workspace (s := s) (i := i) (n := n) ha with ⟨hw, -⟩ | hw
  · rwa [hw]
  · rw [hw]
    exact ⟨h.repository_eq, h.sound, h.subset⟩

theorem settle_spared (ha : a.settles = true)
    (hprivate : ∀ v ∈ a.values, s.hint.isPrivate v.specification = true) :
    s.workspace.Spared s.run.request.cache (s.settle i n a).workspace := by
  rcases settle_workspace (s := s) (i := i) (n := n) ha with ⟨hw, -⟩ | hw
  · rw [hw]
    exact Workspace.spared_refl _ _
  · rw [hw]
    exact ⟨List.prefix_refl _, fun k hk =>
      Workspace.cache_updateCache_of_ne _ _ hk (Cache.putMany_private hprivate _).1⟩

end Site

theorem Job.Faithful.mono {r : Repository} {q : Request} {before : Cache} {w w' : Workspace}
    {j : Job}
    (h : j.Faithful r q before w) (hassigned : w.identifiers.assigned <+: w'.identifiers.assigned)
    (hcache : w'.cache q.cache = w.cache q.cache) : j.Faithful r q before w' := by
  obtain ⟨n, resolved, hn, hnumbers, hinputs, ha⟩ := h
  exact ⟨n, resolved, hn, hnumbers.mono hassigned, hinputs, by rwa [hcache]⟩

namespace Working
variable {r : Repository} {q : Request} {before : Cache} {known : List Specification}
variable {past : List RunEvent} {outcomes : List (Nat × Answer)} {s s' : Site} {i : Nat}

theorem other {w w' : Workspace} {run : Run} {h : CacheHandle}
    (hw : Working r q before outcomes w run) (hs : w.Spared h w') (hq : q.cache ≠ h) :
    Working r q before outcomes w' run := by
  have hcache := hs.cache_eq q.cache hq
  refine ⟨fun j hj => (hw.job j hj).mono hs.assigned hcache, ?_, hw.settles⟩
  rw [hcache]
  exact hw.settled

theorem work {w w' : Workspace} {run : Run} {old new : Job} {earlier later : List Job}
    (hw : Working r q before outcomes w run) (hj : run.jobs = earlier ++ old :: later)
    (hnew : new.Faithful r q before w')
    (hassigned : w.identifiers.assigned <+: w'.identifiers.assigned)
    (hcache : w'.cache q.cache = w.cache q.cache) :
    Working r q before outcomes w' { run with jobs := earlier ++ new :: later } := by
  refine ⟨fun j hm => ?_, by simpa [hcache] using hw.settled, hw.settles⟩
  have hold : j ∈ run.jobs → j.Faithful r q before w' := fun hm =>
    (hw.job j hm).mono hassigned hcache
  rcases List.mem_append.mp hm with hm | hm
  · exact hold (by simp [hj, hm])
  · rcases List.mem_cons.mp hm with rfl | hm
    · exact hnew
    · exact hold (by simp [hj, hm])

theorem dispatch (h : Scheduled q past outcomes s.run)
    (hw : Working r q before outcomes s.workspace s.run) (hs : s.dispatch i = some s') :
    Working r q before outcomes s'.workspace s'.run := by
  obtain ⟨-, -, n, hn, rfl⟩ := Site.dispatch_eq_some hs
  rw [Run.graph, h.request_eq] at hn
  refine ⟨fun j hj => ?_, hw.settled, hw.settles⟩
  rcases List.mem_append.mp hj with hj | hj
  · exact hw.job j hj
  · obtain rfl := List.mem_singleton.mp hj
    exact ⟨n, [], hn, Identifiers.resolves_nil, rfl, by simp⟩

theorem number (h : Scheduled q past outcomes s.run)
    (hw : Working r q before outcomes s.workspace s.run) (hn : s.workspace.Numbered r known)
    (hknown : ∀ n ∈ q.graph.nodes, n.inputs ⊆ known) (hsize : known.length < 2 ^ 63)
    (hs : s.number i = some s') :
    Working r q before outcomes s'.workspace s'.run ∧ s'.workspace.Numbered r known ∧
      s.workspace.Spared q.cache s'.workspace := by
  obtain ⟨-, numbers, input, rest, hj, rfl⟩ := Site.number_eq_some hs
  obtain ⟨earlier, later, he, -, hset⟩ := Run.job?_split hj h.nodup_jobs
  obtain ⟨n, resolved, hnode, hnumbers, hinputs, -⟩ := hw.job _ (Run.job?_eq_some hj).2
  have hinput : input ∈ known :=
    hknown n (List.mem_of_getElem? hnode) (hinputs ▸ by simp)
  have hassigned := Identifiers.assigned_identify s.workspace.identifiers input
  have hsubset := Identifiers.assigned_identify_subset hn.subset hinput
  have hsound := hn.sound.identify input
  have hspecification := hsound.specification?_eq
    (Nat.lt_of_le_of_lt (hsound.size_le hsubset) hsize)
    (Identifiers.find?_identify s.workspace.identifiers input)
  refine ⟨?_, ⟨hn.repository_eq, hsound, hsubset⟩, ⟨hassigned, fun _ _ => rfl⟩⟩
  have hnew : Job.Faithful r q before
      { s.workspace with identifiers := (s.workspace.identifiers.identify input).1 }
      ⟨i, numbers ++ [(s.workspace.identifiers.identify input).2], rest, none⟩ :=
    ⟨n, resolved ++ [input], hnode, (hnumbers.mono hassigned).concat hspecification,
      by simpa using hinputs, by simp⟩
  have := hw.work he hnew hassigned rfl
  rwa [← hset _ rfl] at this

theorem evaluate (hx : q.Executable r) (h : Scheduled q past outcomes s.run)
    (hw : Working r q before outcomes s.workspace s.run) (hn : s.workspace.Numbered r known)
    (hs : s.evaluate i = some s') : Working r q before outcomes s'.workspace s'.run := by
  obtain ⟨numbers, n, hj, hnode, rfl⟩ := Site.evaluate_eq_some hs
  obtain ⟨earlier, later, he, -, hset⟩ := Run.job?_split hj h.nodup_jobs
  have hmem := (Run.job?_eq_some hj).2
  obtain ⟨m, resolved, hm, hnumbers, hinputs, -⟩ := hw.job _ hmem
  rw [Run.graph, h.request_eq] at hnode
  obtain rfl := Option.some.inj (hnode.symm.trans hm)
  obtain rfl : resolved = n.inputs := by simpa using hinputs
  have hlook : ∀ t ∈ n.inputs, (s.workspace.cache q.cache).get? t =
      n.look before (s.workspace.cache q.cache) t := by
    intro t _
    unfold Node.look
    split
    · next ht =>
        refine Cache.get?_congr hw.settled.shared_eq (hw.settled.untouched t ?_)
        exact Scheduled.notMem_outputs_of_outcome hx.disjoint hnode
          (h.mem_dispatched_of_job hmem).2 ht
    · rfl
  have hnew : Job.Faithful r q before s.workspace ⟨i, numbers, [],
      some (Site.answerOf s.workspace (s.workspace.cache s.run.request.cache) n numbers).1⟩ := by
    refine ⟨n, n.inputs, hnode, hnumbers, by simp, ?_⟩
    rintro a ha
    obtain rfl := Option.some.inj ha
    rw [Site.answerOf_eq hnumbers, hn.repository_eq, h.request_eq]
    exact Node.answer_congr hlook
  have := hw.work he hnew (List.prefix_refl _) rfl
  rwa [← hset _ rfl] at this

/-- A job goes on unaware of the answer of another node. -/
theorem faithful_of_answered (hx : q.Executable r) (h : Scheduled q past outcomes s.run)
    {w : Workspace} {after : Cache} {j job : Job} {n : Node} {a : Answer}
    (hw : j.Faithful r q before w) (hj : j ∈ s.run.jobs) (hjob : job ∈ s.run.jobs)
    (hn : q.graph.nodes[job.node]? = some n)
    (hshared : after.sharedPart = (w.cache q.cache).sharedPart)
    (hafter : ∀ u : Specification,
      after.privatePart[u]? = (a.value? u).or (w.cache q.cache).privatePart[u]?)
    (ha : ∀ u, u ∉ n.outputs → a.value? u = none) {w' : Workspace}
    (hassigned : w.identifiers.assigned <+: w'.identifiers.assigned)
    (hcache : w'.cache q.cache = after) : j.Faithful r q before w' := by
  obtain ⟨m, resolved, hm, hnumbers, hinputs, hb⟩ := hw
  refine ⟨m, resolved, hm, hnumbers.mono hassigned, hinputs, fun b hjb => ?_⟩
  refine (hb b hjb).trans (Node.answer_congr fun u hu => ?_)
  unfold Node.look
  split
  · rfl
  · next hum =>
      have hun := h.notMem_outputs hx.built.consistent hx.disjoint
        (h.mem_dispatched_of_job hj).1 hm hn (h.mem_dispatched_of_job hjob).2 hu hum
      rw [hcache]
      refine Cache.get?_congr hshared.symm ?_
      rw [hafter, ha u hun, Option.none_or]

theorem record (hx : q.Executable r) (h : Scheduled q past outcomes s.run)
    (hw : Working r q before outcomes s.workspace s.run) (hn : s.workspace.Numbered r known)
    (hs : s.record i = some s') (hok : ∀ e, s'.run.ending ≠ some (.error e)) :
    Working r q before (outcomes ++ s.recorded (.record i)) s'.workspace s'.run ∧
      s'.workspace.Numbered r known ∧ s.workspace.Spared q.cache s'.workspace := by
  obtain ⟨-, numbers, unnumbered, a, n, hj, hnode, rfl⟩ := Site.record_eq_some hs
  obtain ⟨earlier, later, he, hdrop, -⟩ := Run.job?_split hj h.nodup_jobs
  have hmem := (Run.job?_eq_some hj).2
  have hnew := (h.mem_dispatched_of_job hmem).2
  obtain ⟨m, resolved, hm, -, -, ha⟩ := hw.job _ hmem
  rw [Run.graph, h.request_eq] at hnode
  obtain rfl := Option.some.inj (hnode.symm.trans hm)
  replace ha : a = n.answer r (n.look before (s.workspace.cache q.cache)) := ha a rfl
  have hout : s.recorded (.record i) = [(i, a)] := by simp [Site.recorded, hj]
  have hsettles := Site.settles_of_ok hok
  have hconfined := hx.confined n (List.mem_of_getElem? hnode)
  have hprivate : ∀ v ∈ a.values, s.hint.isPrivate v.specification = true := by
    intro v hv
    rw [ha] at hv
    rw [Site.hint, Run.graph, h.request_eq]
    exact hx.isPrivate (List.mem_of_getElem? hnode) hv
  let t : Site := { s with run := s.run.dropJob i }
  have ht : t.run.request.cache = q.cache := congrArg Request.cache h.request_eq
  obtain ⟨hshared, hafter⟩ := Site.settle_cache (s := t) (i := i) (n := n) hsettles hprivate
  have hspared := Site.settle_spared (s := t) (i := i) (n := n) hsettles hprivate
  rw [ht] at hshared hafter hspared
  refine ⟨⟨fun j hjm => ?_, ?_, fun o ho => ?_⟩, Site.settle_numbered (s := t) hsettles hn, hspared⟩
  · rw [Site.settle_jobs] at hjm
    have hjm' : j ∈ s.run.jobs := by
      rw [hdrop] at hjm
      rw [he]
      rcases List.mem_append.mp hjm with hjm | hjm <;> simp [hjm]
    exact faithful_of_answered hx h (hw.job j hjm') hjm' hmem hnode hshared hafter
      (fun u hu => ha ▸ hconfined.value?_eq_none hu) hspared.assigned rfl
  · rw [hout, Graph.answersIn_concat a hnode]
    refine hw.settled.concat ?_ ?_ ha hconfined hshared hafter
    · exact fun o ho u hu => Scheduled.notMem_outputs_of_outcome hx.disjoint hnode hnew hu o ho
    · rintro ⟨m, b⟩ ho u hu hum
      obtain ⟨k, hk, hm⟩ := Graph.mem_answersIn.mp ho
      exact h.notMem_outputs hx.built.consistent hx.disjoint (h.mem_dispatched_of_outcome hk) hm
        hnode hnew hu hum
  · rw [hout] at ho
    rcases List.mem_append.mp ho with ho | ho
    · exact hw.settles o ho
    · obtain rfl := List.mem_singleton.mp ho
      exact hsettles

/-- What an event of a run leaves of its jobs, its cache and the workspace. -/
theorem step {e : RunEvent} (hx : q.Executable r) (h : Scheduled q past outcomes s.run)
    (hw : Working r q before outcomes s.workspace s.run) (hn : s.workspace.Numbered r known)
    (hknown : ∀ n ∈ q.graph.nodes, n.inputs ⊆ known) (hsize : known.length < 2 ^ 63)
    (hs : s.step? e = some s') (hok : ∀ err, s'.run.ending ≠ some (.error err)) :
    Working r q before (outcomes ++ s.recorded e) s'.workspace s'.run ∧
      s'.workspace.Numbered r known ∧ s.workspace.Spared q.cache s'.workspace := by
  have hspared := Workspace.spared_refl q.cache s.workspace
  cases e with
  | dispatch i =>
      obtain ⟨-, -, n, -, he⟩ := Site.dispatch_eq_some hs
      have hworkspace : s'.workspace = s.workspace := by rw [he]
      have := dispatch h hw hs
      rw [hworkspace] at this ⊢
      exact ⟨by simpa [Site.recorded] using this, hn, hspared⟩
  | number i => simpa [Site.recorded] using number h hw hn hknown hsize hs
  | evaluate i =>
      obtain ⟨numbers, n, -, -, he⟩ := Site.evaluate_eq_some hs
      have hworkspace : s'.workspace = s.workspace := by rw [he]
      have := evaluate hx h hw hn hs
      rw [hworkspace] at this ⊢
      exact ⟨by simpa [Site.recorded] using this, hn, hspared⟩
  | record i => exact record hx h hw hn hs hok
  | finish =>
      obtain ⟨-, -, -, rfl⟩ := Site.finish_eq_some hs
      simp only [Site.recorded, List.append_nil]
      split
      · exact ⟨⟨hw.job, hw.settled, hw.settles⟩, ⟨hn.repository_eq, hn.sound, hn.subset⟩,
          ⟨hspared.assigned, hspared.cache_eq⟩⟩
      · exact ⟨⟨hw.job, hw.settled, hw.settles⟩, hn, hspared⟩
  | cancel =>
      obtain ⟨-, rfl⟩ := Site.cancel_eq_some hs
      exact absurd rfl (hok .cancelled)

end Working
end ValuationCycle
