import ValuationCycle.Proofs.Cycle.Listing
import ValuationCycle.Proofs.Cycle.Yield

/-!
# Results and queries

A result is read from the partition where the outputs of a graph live, whereas a query looks into
the private partition first and then into the shared one. So they disagree about what is in one
partition only, and not in the one where the result looks for it: live data of one configuration
under an output that another configuration was to compute, but has not computed.
-/
namespace ValuationCycle
open Json Std

namespace Cache
variable {c : Cache} {g : Graph} {s : Specification}

/-- What a cache has under a specification is not what it has where the outputs of a graph live. -/
def Misplaced (c : Cache) (g : Graph) (s : Specification) : Prop :=
  if (CacheHint.ofGraph g).isPrivate s then c.privatePart[s]? = none ∧ c.sharedPart[s]? ≠ none
  else c.privatePart[s]? ≠ none ∧ c.privatePart[s]? ≠ c.sharedPart[s]?

theorem getHinted?_eq_get?_iff : c.getHinted? (.ofGraph g) s = c.get? s ↔ ¬c.Misplaced g s := by
  unfold Misplaced getHinted? get?
  split <;> cases c.privatePart[s]? <;> simp [eq_comm]

end Cache

namespace Cycle
variable {c c₁ : Cycle} {w w₁ : Workspace} {group : CacheGroup}

/-- The result has under a specification what a query for it answers. -/
def Agrees (c : Cycle) (w : Workspace) (name : String) (s : Specification) : Prop :=
  ∀ v, c.result.value? name s = some v ↔ c.query w ⟨name, [s]⟩ = .ok [⟨s, v⟩]

theorem agrees_iff {name : String} {s : Specification} {cache : Cache} {g : Graph}
    (hcache : c.cache? w name = some cache)
    (hvalue : c.result.value? name s = cache.getHinted? (.ofGraph g) s) :
    c.Agrees w name s ↔ ¬cache.Misplaced g s := by
  have hquery : ∀ v, c.query w ⟨name, [s]⟩ = .ok [⟨s, v⟩] ↔ cache.get? s = some v := fun v => by
    rw [query, hcache]
    cases hs : cache.get? s <;> simp [hs]
  rw [← Cache.getHinted?_eq_get?_iff, ← hvalue, Option.ext_iff]
  exact forall_congr' fun v => iff_congr Iff.rfl (hquery v)

def Unpopulated (c : Cycle) : Prop :=
  c.state ≠ .finished → c.state ≠ .cleaned → ∀ name, c.result.values name = []

theorem Unpopulated.call (h : c.Unpopulated) (hc : c.Kept) {call : CycleCall} {reply : Reply Unit}
    (hr : c.call? w call = some reply) : reply.cycle.Unpopulated := by
  intro hfinished hcleaned name
  have hnext := (hc.call hr).2.next
  have hleft : ∀ s, c.state = s → s = .finished ∨ s = .cleaned → False := by
    rintro s hs (rfl | rfl) <;> simp_all [CycleState.next]
  have hadds : ReturnedCall.adds ⟨c, w, call, reply⟩ name = [] :=
    if_neg fun hp => hleft _ hp.2 (.inl rfl)
  rw [(hc.leaves hr).values_eq, hadds, List.append_nil]
  exact h (fun hs => hleft _ hs (.inl rfl)) (fun hs => hleft _ hs (.inr rfl)) name

theorem Remarks.unpopulated {c' : Cycle} (h : c.Remarks c') (hc : c.Unpopulated) :
    c'.Unpopulated := by
  rw [h.cycle_eq]
  exact hc

theorem Lived.unpopulated (h : c.Lived) : c.Unpopulated := by
  induction h with
  | new view t => exact fun _ _ _ => rfl
  | interrupt _ ih => exact ih
  | mark _ hm ih => exact (remarks_mark hm).unpopulated ih
  | executableGraph _ hg ih => exact (remarks_executableGraph hg).unpopulated ih
  | prepare w h ih => exact ih.call h.kept (show Cycle.call? _ w .prepareInputs = some _ from rfl)
  | computeDelta w previous h ih =>
      exact ih.call h.kept (show Cycle.call? _ w (.computeDelta previous) = some _ from rfl)
  | @execute c w b reply report h hx ih =>
      exact ih.call h.kept
        (show c.call? w (.executePlans b) = some reply from congrArg (Option.map Prod.fst) hx)
  | populate w moment h ih =>
      exact ih.call h.kept (show Cycle.call? _ w (.populateResult moment) = some _ from rfl)
  | release w h ih =>
      exact ih.call h.kept (show Cycle.call? _ w .releaseResources = some _ from rfl)

theorem created_of_prepare {missing : List Requirement}
    (h : c.prepare w = ⟨c₁, w₁, .ok missing⟩) : c.state = .created := by
  by_contra hs
  have hp : ¬c.permits .prepareInputs = true := fun hp =>
    hs (List.mem_singleton.mp (state_of_permits hp))
  rw [prepare, if_neg hp] at h
  exact absurd (congrArg Reply.answer h) (by simp [refuse])

theorem populate_agrees (hhandle : c.Housed group) (hs : c.state = .finished)
    (hresult : ∀ name, c.result.values name = []) (w : Workspace) (moment : ResultTimestamp) :
    ∃ result, c.populate w moment = ⟨{ c with result }, w, .ok ()⟩ ∧
      ∀ e ∈ c.view.model.graphs.toList, ∀ s ∈ c.reported e.2,
        (({ c with result } : Cycle).Agrees w e.1 s ↔
          ¬(w.cache ⟨group, e.1⟩).Misplaced e.2 s) := by
  have hhandles : ∀ name ∈ c.view.model.names, c.handles[name]? = some ⟨group, name⟩ :=
    fun name hn => (hhandle name).trans (if_pos hn)
  obtain ⟨result, hpopulate, -, hvalues⟩ := c.populate_eq w group hs hhandles hresult moment
  refine ⟨result, hpopulate, fun e he s hreported => agrees_iff ?_ ?_⟩
  · rw [cache?, hhandles e.1 (EvaluationModel.name_mem he)]
    rfl
  · exact (hvalues e he s).trans (if_pos hreported)

/-- What a run leaves misplaced in a cache whose shared values were not hidden when the plans
were executed. -/
theorem Adjusts.misplaced_iff (h : Adjusts group c₁ w₁ c w) {m : ExtTreeMap String NodeMarks}
    {es : List (String × RunEvent)} {y : Execution}
    (hes : (Execution.submitAll w m (c.requests group)).steps? es = some y)
    {e : String × Graph} (he : e ∈ c.view.model.graphs.toList) (s : Specification) :
    (y.workspace.cache ⟨group, e.1⟩).Misplaced e.2 s ↔
      (CacheHint.ofGraph e.2).isPrivate s = true ∧
      (y.workspace.cache ⟨group, e.1⟩).privatePart[s]? = none ∧
      ((w₁.cache ⟨group, e.1⟩).sharedPart[s]?.isSome ∨
        (lastValue? (Storing.spilled group
          ((Execution.submitAll w m (c.requests group)).stored es)) s).isSome) := by
  obtain ⟨hstored, hreturned⟩ := stored_requests hes
  have hsome := isSome_of_sameValue (h.same ⟨group, e.1⟩ rfl s)
  unfold Cache.Misplaced
  split
  · next hp =>
      rw [hstored.shared_eq, Option.ne_none_iff_isSome, Option.isSome_or, ← hsome, Bool.or_eq_true,
        or_comm, and_iff_right hp]
  · next hp =>
      refine iff_of_false (fun hc => hc.1 ?_) fun hc => hp hc.1
      have hkept : lastValue? (Storing.kept ⟨group, e.1⟩
          ((Execution.submitAll w m (c.requests group)).stored es)) s = none := by
        refine lastValue?_eq_none fun u hu hus => hp ?_
        obtain ⟨v, hv, hcache, hprivate, rfl⟩ := Storing.mem_kept.mp hu
        obtain ⟨e', he', hq⟩ := List.mem_map.mp (hreturned v hv).1
        obtain ⟨n, hn, hsn⟩ := (isPrivate_iff_of_request (hreturned v hv).1).mp hprivate
        have hname : e'.1 = e.1 := by
          rw [← hq] at hcache
          exact congrArg CacheHandle.configuration hcache
        obtain rfl : e' = e := List.inj_on_of_nodup_map c.view.model.nodup_map_fst he' he hname
        rw [← hq] at hn
        obtain ⟨hn, hl, -⟩ := mem_nodes_request.mp hn
        exact CacheHint.isPrivate_ofGraph.mpr ⟨n, hn, hl, hus ▸ hsn⟩
      rw [hstored.private_eq, hkept, Option.none_or]
      exact h.unhidden e (h.view_eq ▸ he) s (by simpa using hp)

/-- A cycle that has executed its plans, whatever was executed or failed, and has its result
populated for the first time reports an output that the view asks for as a query answers it, unless
it is misplaced in the cache; then the two differ. Where the inputs were prepared in fresh caches,
misplaced is exactly an output of a node that is to compute it, of which nothing is in the private
partition, while live data was loaded under it for another configuration or a function returned it
unasked. If functions return values under outputs of their nodes only, it is live data of another
configuration. -/
theorem result_agrees_with_query_iff (c : Cycle) (hc : c.Lived) (hs : c.state = .inputsPrepared)
    (w : Workspace) (b : Behaviour) (hb : b.Local) (reply : Reply Unit) (report : ExecutionReport)
    (hx : c.execute w b = some (reply, report)) (hok : reply.answer = .ok ()) :
    (∀ w' moment, ∃ result, reply.cycle.populate w' moment =
        ⟨{ reply.cycle with result }, w', .ok ()⟩ ∧
      ∀ name g, c.view.model.graph? name = some g → ∃ cache,
        reply.cycle.cache? w' name = some cache ∧ ∀ s ∈ c.reported g,
          (({ reply.cycle with result } : Cycle).Agrees w' name s ↔ ¬cache.Misplaced g s)) ∧
    ∀ (c₀ : Cycle) (w₀ : Workspace) (c₁ : Cycle) (w₁ : Workspace) (missing : List Requirement),
      c₀.Lived → c₀.prepare w₀ = ⟨c₁, w₁, .ok missing⟩ →
      (∀ k, k.group = w₀.caches.currentGroup c₀.view.name c₀.time → w₀.cache k = .empty) →
      Adjusted c₁ w₁ c w →
      let group := w₀.caches.currentGroup c₀.view.name c₀.time
      ∃ m es y, let x := Execution.submitAll w m (c.requests group)
        x.steps? es = some y ∧ reply.workspace = y.workspace ∧
        ((∀ e ∈ c.view.model.graphs.toList, ∀ n ∈ e.2.nodes, n.isLive = false →
          n.KeepsToOutputs w.repository) → Storing.spilled group (x.stored es) = []) ∧
        ∀ name g, c.view.model.graph? name = some g → ∃ cache,
          reply.cycle.cache? reply.workspace name = some cache ∧ ∀ s, cache.Misplaced g s ↔
            (∃ n ∈ g.nodes, n.isLive = false ∧ s ∈ n.outputs) ∧ cache.privatePart[s]? = none ∧
            ((c₀.loaded w₀.liveData s).isSome ∨
              (lastValue? (Storing.spilled group (x.stored es)) s).isSome) := by
  have hmem : ∀ {name g}, c.view.model.graph? name = some g →
      (name, g) ∈ c.view.model.graphs.toList := fun hg =>
    ExtTreeMap.mem_toList_iff_getElem?_eq_some.mpr hg
  have hcache : ∀ {group} (h : c.Ready group) {name g}, c.view.model.graph? name = some g →
      ∀ w', reply.cycle.cache? w' name = some (w'.cache ⟨group, name⟩) := by
    intro group h name g hg w'
    rw [cache?, (execute_frame hx).2.2, h.handle _ (hmem hg)]
    rfl
  constructor
  · intro w' moment
    obtain ⟨k, hready⟩ := hc.ready hs
    obtain ⟨-, m, es, y, -, -, -, -, hcycle⟩ := hready.execute hb hx hok
    have hresult : ∀ name, c.result.values name = [] :=
      hc.unpopulated (by simp [hs]) (by simp [hs])
    obtain ⟨result, hpopulate, hagrees⟩ := populate_agrees (c := reply.cycle)
      (by rw [hcycle]; exact hready.housed) (by rw [hcycle]) (by rw [hcycle]; exact hresult) w'
      moment
    have hview : reply.cycle.view = c.view := (execute_frame hx).1
    refine ⟨result, hpopulate, fun name g hg => ⟨_, hcache hready hg w', fun s hreported => ?_⟩⟩
    refine hagrees (name, g) (hview ▸ hmem hg) s ?_
    rw [reported, hview]
    exact hreported
  · intro c₀ w₀ c₁ w₁ missing hc₀ hprepare hfresh hadjusted group
    have hs₀ := created_of_prepare hprepare
    obtain ⟨c₁', w₁', hprepare', hp⟩ := prepare_created hs₀ (hc₀.kept.fresh hs₀) w₀
    obtain ⟨rfl, rfl, -⟩ := Reply.mk.inj (hprepare.symm.trans hprepare')
    have h := hadjusted.adjusts (hp.ready hc₀.kept hs₀) fun e _ u _ => by
      rw [hp.private_eq, hfresh _ rfl]
      rfl
    obtain ⟨-, m, es, y, -, hes, -, hworkspace, -⟩ := h.ready.execute hb hx hok
    refine ⟨m, es, y, hes, hworkspace, fun hkeeps => spilled_eq_nil_of_keeps hes hkeeps _,
      fun name g hg => ⟨_, hcache h.ready hg _, fun s => ?_⟩⟩
    have hloaded : (w₁.cache ⟨group, name⟩).sharedPart[s]? = c₀.loaded w₀.liveData s := by
      rw [hp.shared_eq _ rfl, hfresh _ rfl]
      exact Option.or_none
    rw [hworkspace, h.misplaced_iff hes (hmem hg), CacheHint.isPrivate_ofGraph, hloaded]

namespace Sample
open Graph.Sample

def spot : Specification := quantity "Spot" "2"

def refuser : Invoker := ⟨.security, fun _ => .failed (.failed "no price")⟩

def refusals : Repository :=
  ⟨[⟨"1", "Fair", .security⟩], ExtTreeMap.empty.insert "1" refuser⟩

theorem answer_refusing (look : Specification → Option Value) :
    (computing spot).answer refusals look = .ran (.failed (.failed "no price")) := by rfl

theorem confined_refusing : (computing spot).Confined refusals := by
  intro look values h
  rw [answer_refusing] at h
  simp at h

theorem not_returns (v : ComputedValue) : ¬(computing spot).Returns refusals v := by
  rintro ⟨invoker, hinvoker, i, -, -, -, values, hrun, -⟩
  obtain rfl : refuser = invoker := Option.some.inj hinvoker
  simp [refuser] at hrun

theorem exists_refused : ∃ c₁ w₁ missing b reply report,
    (Cycle.new (facing spot) ⟨1⟩).prepare (spotted refusals) = ⟨c₁, w₁, .ok missing⟩ ∧
    Behaviour.Local b ∧ c₁.execute w₁ b = some (reply, report) ∧ reply.answer = .ok () ∧
    (reply.workspace.cache (side "Left")).privatePart[spot]? = none ∧
    (reply.workspace.cache (side "Left")).sharedPart[spot]? = some (.string "10") := by
  obtain ⟨c₁, w₁, missing, b, reply, report, hprepare, hb, hx, hok⟩ :=
    exists_facing confined_refusing fun look => congrArg Answer.settles (answer_refusing look)
  obtain ⟨hc, haside, hprivate, hshared⟩ := prepared_of_eq hprepare
  obtain ⟨-, m, es, y, -, hes, -, hworkspace, -⟩ := hc.ready.execute hb hx hok
  obtain ⟨hstored, hreturned⟩ := stored_requests hes
  have hnone : (Execution.submitAll w₁ m (c₁.requests (side "Left").group)).stored es = [] := by
    refine List.eq_nil_iff_forall_not_mem.mpr fun v hv => ?_
    obtain ⟨hrequest, n, hn, hreturns⟩ := hreturned v hv
    obtain ⟨e, he, hq⟩ := List.mem_map.mp hrequest
    rw [← hq] at hn
    obtain ⟨hn, hl, -⟩ := mem_nodes_request.mp hn
    rw [eq_of_mem_facing (hc.view_eq ▸ he) hn hl, haside.repository_eq] at hreturns
    exact not_returns _ hreturns
  obtain ⟨hprivate', hshared', -⟩ : w₁.Stored [] y.workspace := hnone ▸ hstored
  refine ⟨c₁, w₁, missing, b, reply, report, hprepare, hb, hx, hok, ?_, ?_⟩
  · rw [hworkspace, hprivate', hprivate]
    rfl
  · have hlive : spot ∈ (facing spot).model.liveOutputs :=
      EvaluationModel.mem_liveOutputs_iff.mpr ⟨("Right", graph "Right" [quoted]), by
        rw [graphs_facing]; simp, quoted, List.mem_singleton.mpr rfl, rfl, by decide⟩
    have hloaded := hshared "Left" (by decide +kernel) spot
    rw [if_pos hlive] at hloaded
    rw [hworkspace, hshared']
    exact hloaded

end Sample
open Cycle.Sample Graph.Sample

/-- The spot price that was loaded for the right side is not reported on the left, where it was to
be computed, but a query on the left answers it. -/
theorem queried_but_not_reported : ∃ c₁ w₁ missing b reply report,
    (Cycle.new (facing spot) ⟨1⟩).prepare (spotted refusals) = ⟨c₁, w₁, .ok missing⟩ ∧
    Behaviour.Local b ∧ c₁.execute w₁ b = some (reply, report) ∧ reply.answer = .ok () ∧
    ∃ result, reply.cycle.populate reply.workspace ⟨5⟩ =
        ⟨{ reply.cycle with result }, reply.workspace, .ok ()⟩ ∧
      spot ∈ reply.cycle.reported (graph "Left" [computing spot]) ∧
      result.value? "Left" spot = none ∧
      ({ reply.cycle with result } : Cycle).query reply.workspace ⟨"Left", [spot]⟩ =
        .ok [⟨spot, .string "10"⟩] := by
  obtain ⟨c₁, w₁, missing, b, reply, report, hprepare, hb, hx, hok, hprivate, hshared⟩ :=
    exists_refused
  have hc := (prepared_of_eq hprepare).1
  obtain ⟨-, m, es, y, -, -, -, -, hcycle⟩ := hc.ready.execute hb hx hok
  have hview : reply.cycle.view = facing spot := by rw [hcycle, hc.view_eq]
  have hhandles : ∀ name ∈ reply.cycle.view.model.names,
      reply.cycle.handles[name]? = some ⟨(side "Left").group, name⟩ := fun name hn => by
    rw [hcycle]
    exact (hc.handle name).trans (if_pos (hview ▸ hn))
  obtain ⟨result, hpopulate, -, hvalues⟩ := reply.cycle.populate_eq reply.workspace
    (side "Left").group (by rw [hcycle]) hhandles
    (fun _ => by rw [hcycle, hc.result_eq]; rfl) ⟨5⟩
  have hreported : spot ∈ reply.cycle.reported (graph "Left" [computing spot]) := by
    rw [reported, hview]
    decide +kernel
  refine ⟨c₁, w₁, missing, b, reply, report, hprepare, hb, hx, hok, result, hpopulate, hreported,
    ?_, ?_⟩
  · have hvalue := hvalues ("Left", graph "Left" [computing spot]) (by
      rw [hview, graphs_facing]; simp) spot
    rw [hvalue, if_pos hreported]
    exact hprivate
  · have hget : (reply.workspace.cache (side "Left")).get? spot = some (.string "10") := by
      rw [Cache.get?, hprivate, hshared, Option.none_or]
    have hcache : ({ reply.cycle with result } : Cycle).cache? reply.workspace "Left" =
        some (reply.workspace.cache (side "Left")) :=
      congrArg (Option.map reply.workspace.cache)
        (hhandles "Left" (by rw [hview]; decide +kernel))
    simp [query, hcache, hget]

/-- Where the function on the left returns only what it is asked for, the result agrees with
queries on both sides. -/
theorem speaker_agrees : ∃ c₁ w₁ missing b reply report,
    (Cycle.new announced ⟨1⟩).prepare announcing = ⟨c₁, w₁, .ok missing⟩ ∧ Behaviour.Local b ∧
    c₁.execute w₁ b = some (reply, report) ∧ reply.answer = .ok () ∧
    ∃ result, reply.cycle.populate reply.workspace ⟨5⟩ =
        ⟨{ reply.cycle with result }, reply.workspace, .ok ()⟩ ∧
      ∀ name g, announced.model.graph? name = some g → ∀ s ∈ c₁.reported g,
        ({ reply.cycle with result } : Cycle).Agrees reply.workspace name s := by
  obtain ⟨c₁, w₁, missing, b, reply, report, hprepare, hb, hx, hok⟩ := exists_announcing
  obtain ⟨hc, haside, -, -⟩ := prepared_of_eq hprepare
  have hlived : c₁.Lived := by
    have := Lived.prepare announcing (.new announced ⟨1⟩)
    rwa [hprepare] at this
  obtain ⟨hpopulate, hfresh⟩ := result_agrees_with_query_iff c₁ hlived hc.state_eq w₁ b hb reply
    report hx hok
  obtain ⟨result, hpopulate, hagrees⟩ := hpopulate reply.workspace ⟨5⟩
  obtain ⟨m, es, y, -, -, hspilled, hmisplaced⟩ := hfresh (.new announced ⟨1⟩) announcing c₁ w₁
    missing (.new announced ⟨1⟩) hprepare (fun _ _ => rfl) .none
  rw [hc.view_eq] at hspilled hagrees hmisplaced
  refine ⟨c₁, w₁, missing, b, reply, report, hprepare, hb, hx, hok, result, hpopulate,
    fun name g hg s hs => ?_⟩
  obtain ⟨cache, hcache, hagrees⟩ := hagrees name g hg
  obtain ⟨cache', hcache', hmisplaced⟩ := hmisplaced name g hg
  obtain rfl := Option.some.inj (hcache.symm.trans hcache')
  rw [hagrees s hs, hmisplaced s, hspilled (by rw [haside.repository_eq]; exact keeps_announced)]
  rintro ⟨⟨n, hn, hl, hsn⟩, -, hseen⟩
  rw [eq_of_mem_facing (ExtTreeMap.mem_toList_iff_getElem?_eq_some.mpr hg) hn hl] at hsn
  obtain rfl : s = quantity "Price" "1" := mem_outputs_step.mp hsn
  have hloaded :
      (Cycle.new announced ⟨1⟩).loaded announcing.liveData (quantity "Price" "1") = none := by rfl
  simp [hloaded, lastValue?] at hseen

end Cycle
end ValuationCycle
