import Mathlib.Algebra.BigOperators.Group.Finset.Basic
import ValuationCycle.Proofs.Cycle.Course

/-!
# What a result lists

A finished cycle stays finished when its result is populated, and whatever is found then is added
to what the result lists already. So a result lists what was found by one call after the other:
a specification stands there once for every call that found it and every node that puts it out.
-/
namespace ValuationCycle
open Std

theorem Node.nodup_outputs (n : Node) : n.outputs.toList.Nodup := by
  refine ExtTreeSet.distinct_toList.imp fun hne => ?_
  rintro rfl
  exact hne compare_self

namespace Graph

def OutputOnce (g : Graph) (s : Specification) : Prop :=
  ∀ (i j : Nat) (m n : Node), g.nodes[i]? = some m → g.nodes[j]? = some n →
    s ∈ m.outputs → s ∈ n.outputs → i = j

theorem nodup_filter_outputs_iff (g : Graph) (p : Specification → Bool) :
    (g.outputs.filter p).Nodup ↔ ∀ s ∈ g.outputs.filter p, g.OutputOnce s := by
  have hnode : ∀ n ∈ g.nodes, (n.outputs.toList.filter p).Nodup :=
    fun n _ => n.nodup_outputs.filter p
  have hmem : ∀ (n : Node) s, s ∈ n.outputs.toList.filter p ↔ s ∈ n.outputs ∧ p s = true := by
    simp
  rw [outputs, List.filter_flatMap, List.nodup_flatMap, and_iff_right hnode,
    List.pairwise_iff_getElem]
  constructor
  · intro hpair s hs i j m n hm hn hsm hsn
    have hp : p s = true := by
      obtain ⟨n', -, hs'⟩ := List.mem_flatMap.mp hs
      exact ((hmem n' s).mp hs').2
    obtain ⟨hi, rfl⟩ := List.getElem?_eq_some_iff.mp hm
    obtain ⟨hj, rfl⟩ := List.getElem?_eq_some_iff.mp hn
    rcases Nat.lt_trichotomy i j with hlt | rfl | hlt
    · exact (hpair i j hi hj hlt ((hmem _ s).mpr ⟨hsm, hp⟩) ((hmem _ s).mpr ⟨hsn, hp⟩)).elim
    · rfl
    · exact (hpair j i hj hi hlt ((hmem _ s).mpr ⟨hsn, hp⟩) ((hmem _ s).mpr ⟨hsm, hp⟩)).elim
  · intro honce i j hi hj hlt s hsi hsj
    have hs : s ∈ g.nodes.flatMap fun n => n.outputs.toList.filter p :=
      List.mem_flatMap.mpr ⟨_, List.getElem_mem hi, hsi⟩
    have := honce s hs i j _ _ (List.getElem?_eq_getElem hi) (List.getElem?_eq_getElem hj)
      ((hmem _ s).mp hsi).1 ((hmem _ s).mp hsj).1
    omega

end Graph

theorem ResultModel.size_eq {r : ResultModel} {names : List String} (hnames : names.Nodup)
    (hnone : ∀ name, name ∉ names → r.values name = []) :
    r.size = (names.flatMap r.values).length := by
  have hmap : r.results.toList.map Prod.snd = r.results.keys.map r.values := by
    rw [← ExtTreeMap.map_fst_toList_eq_keys, List.map_map]
    refine List.map_congr_left fun e he => ?_
    rw [Function.comp_apply, values, ExtTreeMap.mem_toList_iff_getElem?_eq_some.mp he,
      Option.getD_some]
  have hkeys : ∀ name, name ∉ r.results.keys → r.values name = [] := fun name hn => by
    rw [values, ExtTreeMap.getElem?_eq_none (by simpa using hn), Option.getD_none]
  have hsum : ∀ l : List String, l.Nodup → (l.flatMap r.values).length =
      ∑ name ∈ l.toFinset, (r.values name).length := fun l hl => by
    rw [List.length_flatMap, List.sum_toFinset _ hl]
  rw [size, values_eq_map_toList, hmap, ← List.flatMap_def, hsum _ ExtTreeMap.nodup_keys,
    hsum _ hnames]
  -- Both are the sum over the names that are in either.
  trans ∑ name ∈ r.results.keys.toFinset ∪ names.toFinset, (r.values name).length
  · refine Finset.sum_subset Finset.subset_union_left fun name _ hn => ?_
    rw [hkeys name (by simpa using hn), List.length_nil]
  · refine (Finset.sum_subset Finset.subset_union_right fun name _ hn => ?_).symm
    rw [hnone name (by simpa using hn), List.length_nil]

theorem map_specification_filterMap (f : Specification → Option Json.Value)
    (l : List Specification) :
    (l.filterMap fun s => (f s).map fun v => (⟨s, v⟩ : ComputedValue)).map
      ComputedValue.specification = l.filter fun s => (f s).isSome := by
  induction l with
  | nil => rfl
  | cons s l ih => cases hf : f s <;> simp [hf, ih]

namespace Cycle
variable {c c' : Cycle} {w w' : Workspace}

def foundUnder (c : Cycle) (w : Workspace) (name : String) : List ComputedValue :=
  match c.view.model.graph? name, c.handles[name]? with
  | some g, some h => c.found w h.group (name, g)
  | _, _ => []

theorem map_specification_found (c : Cycle) (w : Workspace) (group : CacheGroup)
    (e : String × Graph) : (c.found w group e).map ComputedValue.specification =
      e.2.outputs.filter fun s => ((w.cache ⟨group, e.1⟩).getHinted? (.ofGraph e.2) s).isSome &&
        c.view.definition.policy.reports e.2 s := by
  rw [← List.filter_filter, found, reported]
  exact map_specification_filterMap _ _

/-- A call that finds a specification lists it once if no two nodes put it out. -/
theorem nodup_foundUnder_iff (c : Cycle) (w : Workspace) (name : String) :
    ((c.foundUnder w name).map ComputedValue.specification).Nodup ↔
      ∀ g, c.view.model.graph? name = some g →
        ∀ v ∈ c.foundUnder w name, g.OutputOnce v.specification := by
  unfold foundUnder
  split
  · next g h hg _ =>
      rw [map_specification_found, Graph.nodup_filter_outputs_iff,
        ← map_specification_found c w h.group (name, g)]
      simp [hg]
  · simp

theorem foundUnder_congr (hview : c'.view = c.view) (hhandles : c'.handles = c.handles)
    (hcache : ∀ h, w'.cache h = w.cache h) (name : String) :
    c'.foundUnder w' name = c.foundUnder w name := by
  unfold foundUnder found reported
  simp only [hview, hhandles, hcache]

theorem values_populate (hc : c.Kept) (hs : c.state = .finished) (w : Workspace)
    (moment : ResultTimestamp) : ∃ r, (c.populate w moment).cycle = { c with result := r } ∧
      ∀ name, r.values name = c.result.values name ++ c.foundUnder w name := by
  obtain ⟨k, hk⟩ := hc.housed (by simp [hs]) (by simp [hs])
  have hhandle : ∀ e ∈ c.view.model.graphs.toList,
      c.handles[e.1]? = some ⟨⟨c.view.name, c.time, k⟩, e.1⟩ :=
    fun e he => (hk e.1).trans (if_pos (EvaluationModel.name_mem he))
  obtain ⟨r, hreport, hothers, hall⟩ :=
    c.report_eq w ⟨c.view.name, c.time, k⟩ c.view.model.nodup_map_fst hhandle c.result
  have hp : c.permits .populateResult = true := by rw [permits, hs]; rfl
  refine ⟨r.stamp moment, by rw [populate, if_pos hp, hreport], fun name => ?_⟩
  cases hg : c.view.model.graph? name with
  | none =>
      have hn : name ∉ c.view.model.graphs.toList.map Prod.fst := by
        rw [ExtTreeMap.map_fst_toList_eq_keys, ExtTreeMap.mem_keys]
        simpa [EvaluationModel.graph?] using hg
      rw [foundUnder, hg, List.append_nil]
      exact hothers name hn
  | some g =>
      have he : (name, g) ∈ c.view.model.graphs.toList :=
        ExtTreeMap.mem_toList_iff_getElem?_eq_some.mpr hg
      rw [foundUnder, hg, hhandle _ he]
      exact hall _ he

theorem execute_frame {b : Behaviour} {reply : Reply Unit} {report : ExecutionReport}
    (hx : c.execute w b = some (reply, report)) : reply.cycle.view = c.view ∧
      reply.cycle.result = c.result ∧ reply.cycle.handles = c.handles := by
  unfold execute at hx
  split at hx
  · have hframe := remarks_submissions c.view.model.graphs.toList { c with state := .executing }
    dsimp only at hx
    split at hx
    · next c' e he =>
        have hc' : c' = { c with state := .executing, marks := c'.marks } := by
          simpa [he] using hframe.cycle_eq
        obtain ⟨rfl, -⟩ := Prod.mk.inj (Option.some.inj hx)
        dsimp only
        rw [hc']
        exact ⟨rfl, rfl, rfl⟩
    · next c' submitted he =>
        have hc' : c' = { c with state := .executing, marks := c'.marks } := by
          simpa [he] using hframe.cycle_eq
        obtain ⟨r, -, hr⟩ := Option.map_eq_some_iff.mp hx
        obtain ⟨rfl, -⟩ := Prod.mk.inj hr
        dsimp only [close]
        rw [hc']
        exact ⟨rfl, rfl, rfl⟩
  · obtain ⟨rfl, -⟩ := Prod.mk.inj (Option.some.inj hx)
    exact ⟨rfl, rfl, rfl⟩

end Cycle

namespace ReturnedCall

def Populates (x : ReturnedCall) : Prop :=
  x.call.operation = .populateResult ∧ x.cycle.state = .finished

instance (x : ReturnedCall) : Decidable x.Populates := inferInstanceAs (Decidable (_ ∧ _))

def adds (x : ReturnedCall) (name : String) : List ComputedValue :=
  if x.Populates then x.cycle.foundUnder x.workspace name else []

structure Leaves (x : ReturnedCall) : Prop where
  view_eq : x.reply.cycle.view = x.cycle.view
  values_eq : ∀ name, x.reply.cycle.result.values name =
    x.cycle.result.values name ++ x.adds name
  handles_eq : x.cycle.state = .finished → x.reply.cycle.state = .finished →
    x.reply.cycle.handles = x.cycle.handles

variable {c c' : Cycle} {w : Workspace} {call : CycleCall} {reply : Reply Unit}

theorem leaves_of_not_populates (hn : call.operation = .populateResult → c.state ≠ .finished)
    (hview : reply.cycle.view = c.view) (hresult : reply.cycle.result = c.result)
    (hhandles : c.state = .finished → reply.cycle.state = .finished →
      reply.cycle.handles = c.handles) : Leaves ⟨c, w, call, reply⟩ :=
  have hnot : ¬Populates ⟨c, w, call, reply⟩ := fun hp => hn hp.1 hp.2
  ⟨hview, fun name => by rw [adds, if_neg hnot, List.append_nil, hresult], hhandles⟩

theorem leaves_prepare (hc : c.Kept) : Leaves ⟨c, w, .prepareInputs, (c.prepare w).plain⟩ := by
  by_cases hp : c.permits .prepareInputs = true
  · have hs : c.state = .created := List.mem_singleton.mp (Cycle.state_of_permits hp)
    obtain ⟨c', w', hprepare, hc'⟩ := Cycle.prepare_created hs (hc.fresh hs) w
    have heq := hc'.cycle_eq
    rw [hprepare]
    exact leaves_of_not_populates (by simp [hs]) (by rw [Reply.plain, heq])
      (by rw [Reply.plain, heq]) (by simp [hs])
  · rw [Cycle.prepare, if_neg hp]
    exact leaves_of_not_populates (by simp [CycleCall.operation]) rfl rfl fun _ _ => rfl

theorem leaves_computeDelta (previous : Cycle) :
    Leaves ⟨c, w, .computeDelta previous, (c.computeDelta w previous).plain⟩ := by
  have hremarks : c.Remarks (c.computeDelta w previous).cycle := by
    unfold Cycle.computeDelta
    split
    · split
      · exact Cycle.remarks_carryAll previous _ c w
      · exact c.remarks_refl
    · exact c.remarks_refl
  have heq := hremarks.cycle_eq
  exact leaves_of_not_populates (by simp [CycleCall.operation]) (by rw [Reply.plain, heq])
    (by rw [Reply.plain, heq]) fun _ _ => by rw [Reply.plain, heq]

theorem leaves_execute {b : Behaviour} {report : ExecutionReport}
    (hx : c.execute w b = some (reply, report)) : Leaves ⟨c, w, .executePlans b, reply⟩ := by
  obtain ⟨hview, hresult, hhandles⟩ := Cycle.execute_frame hx
  exact leaves_of_not_populates (by simp [CycleCall.operation]) hview hresult fun _ _ => hhandles

theorem leaves_populate (hc : c.Kept) (moment : ResultTimestamp) :
    Leaves ⟨c, w, .populateResult moment, c.populate w moment⟩ := by
  by_cases hs : c.state = .finished
  · obtain ⟨r, hr, hvalues⟩ := Cycle.values_populate hc hs w moment
    refine ⟨by rw [hr], fun name => ?_, fun _ _ => by rw [hr]⟩
    rw [adds, if_pos ⟨rfl, hs⟩, hr]
    exact hvalues name
  · have hp : ¬c.permits .populateResult = true := fun hp =>
      hs (List.mem_singleton.mp (Cycle.state_of_permits hp))
    rw [Cycle.populate, if_neg hp]
    exact leaves_of_not_populates (fun _ => hs) rfl rfl fun _ _ => rfl

theorem leaves_release : Leaves ⟨c, w, .releaseResources, (c.release w).plain⟩ := by
  by_cases hp : c.permits .releaseResources = true
  · rw [Cycle.release, if_pos hp]
    exact leaves_of_not_populates (by simp [CycleCall.operation]) rfl rfl (by simp [Reply.plain])
  · rw [Cycle.release, if_neg hp]
    exact leaves_of_not_populates (by simp [CycleCall.operation]) rfl rfl fun _ _ => rfl

end ReturnedCall

namespace Cycle
variable {c : Cycle} {w : Workspace} {call : CycleCall} {reply : Reply Unit}

theorem Kept.leaves (hc : c.Kept) (hr : c.call? w call = some reply) :
    ReturnedCall.Leaves ⟨c, w, call, reply⟩ := by
  cases call with
  | prepareInputs =>
      obtain rfl := Option.some.inj hr
      exact ReturnedCall.leaves_prepare hc
  | computeDelta previous =>
      obtain rfl := Option.some.inj hr
      exact ReturnedCall.leaves_computeDelta previous
  | executePlans b =>
      obtain ⟨⟨reply', report⟩, hx, rfl⟩ := Option.map_eq_some_iff.mp hr
      exact ReturnedCall.leaves_execute hx
  | populateResult moment =>
      obtain rfl := Option.some.inj hr
      exact ReturnedCall.leaves_populate hc moment
  | releaseResources =>
      obtain rfl := Option.some.inj hr
      exact ReturnedCall.leaves_release

/-- Induction over a course for what neither marks nor interruptions touch. -/
theorem Course.induction_kept
    {P : ∀ (c : Cycle) (calls : List ReturnedCall), c.Course calls → c.Kept → Prop}
    (done : ∀ (c : Cycle) (hc : c.Kept), P c [] (.done c) hc)
    (call : ∀ (c : Cycle) (w : Workspace) (call : CycleCall) (reply : Reply Unit)
      (calls : List ReturnedCall) (hc : c.Kept) (hr : c.call? w call = some reply)
      (hkept : reply.cycle.Kept) (hrest : reply.cycle.Course calls),
      P reply.cycle calls hrest hkept → P c (⟨c, w, call, reply⟩ :: calls) (.call hr hrest) hc)
    (aside : ∀ (c c' : Cycle) (calls : List ReturnedCall) (h : c.Course calls) (hc : c.Kept)
      (h' : c'.Course calls) (hc' : c'.Kept),
      c' = { c with marks := c'.marks, interrupted := c'.interrupted } →
      P c' calls h' hc' → P c calls h hc)
    {calls : List ReturnedCall} (h : c.Course calls) (hc : c.Kept) : P c calls h hc := by
  have hunmarked : ∀ {c c' : Cycle}, c.Remarks c' →
      c' = { c with marks := c'.marks, interrupted := c'.interrupted } := fun hremarks => by
    rw [hremarks.cycle_eq]
  induction h with
  | done c => exact done c hc
  | @call c w _ reply calls hr hrest ih =>
      have hkept := (hc.call hr).1
      exact call c w _ reply calls hc hr hkept hrest (ih hkept)
  | @interrupt c calls hrest ih =>
      exact aside c c.interrupt calls _ hc hrest hc.interrupt rfl (ih hc.interrupt)
  | @mark c c' _ _ calls hm hrest ih =>
      have hremarks := remarks_mark hm
      have hkept := hremarks.kept hc
      exact aside c c' calls _ hc hrest hkept (hunmarked hremarks) (ih hkept)
  | @executableGraph c c' _ _ calls hg hrest ih =>
      have hremarks := remarks_executableGraph hg
      have hkept := hremarks.kept hc
      exact aside c c' calls _ hc hrest hkept (hunmarked hremarks) (ih hkept)

/-- The result that a call of a course finds is what the calls before it added. -/
theorem Course.values_eq {calls : List ReturnedCall} (h : c.Course calls) (hc : c.Kept) :
    ∀ before x after, calls = before ++ x :: after → x.Leaves ∧ x.cycle.view = c.view ∧
      ∀ name, x.cycle.result.values name =
        c.result.values name ++ before.flatMap fun y => y.adds name := by
  induction h, hc using Course.induction_kept with
  | done c hc => simp
  | call c w call reply calls hc hr _ _ ih =>
      have hleaves := hc.leaves hr
      intro before x after hcalls
      cases before with
      | nil =>
          obtain ⟨rfl, -⟩ := List.cons.inj hcalls
          exact ⟨hleaves, rfl, by simp⟩
      | cons y before =>
          obtain ⟨rfl, hrest⟩ := List.cons.inj hcalls
          obtain ⟨hx, hview, hvalues⟩ := ih before x after hrest
          refine ⟨hx, hview.trans hleaves.view_eq, fun name => ?_⟩
          rw [hvalues, hleaves.values_eq, List.append_assoc, List.flatMap_cons]
  | aside c c' calls h hc h' hc' heq ih => rwa [heq] at ih

theorem Course.cleaned {calls : List ReturnedCall} (h : c.Course calls) (hc : c.Kept)
    (hs : c.state = .cleaned) : ∀ x ∈ calls, x.cycle.state = .cleaned := by
  induction h, hc using Course.induction_kept with
  | done c hc => simp
  | call c w call reply calls hc hr _ _ ih =>
      have hnext := (hc.call hr).2.next
      simp only [hs, CycleState.next, List.not_mem_nil, or_false] at hnext
      exact List.forall_mem_cons.mpr ⟨hs, ih hnext⟩
  | aside c c' calls h hc h' hc' heq ih => exact ih (by rw [heq, hs])

theorem Course.handles_eq {calls : List ReturnedCall} (h : c.Course calls) (hc : c.Kept)
    (hs : c.state = .finished) :
    ∀ x ∈ calls, x.cycle.state = .finished → x.cycle.handles = c.handles := by
  induction h, hc using Course.induction_kept with
  | done c hc => simp
  | call c w call reply calls hc hr hkept hrest ih =>
      refine List.forall_mem_cons.mpr ⟨fun _ => rfl, fun x hx hfinished => ?_⟩
      have hnext := (hc.call hr).2.next
      simp only [hs, CycleState.next, List.mem_singleton] at hnext
      rcases hnext with hnext | hnext
      · exact (ih hnext x hx hfinished).trans ((hc.leaves hr).handles_eq hs hnext)
      · rw [hrest.cleaned hkept hnext x hx] at hfinished
        simp at hfinished
  | aside c c' calls h hc h' hc' heq ih =>
      have hrest := ih (by rw [heq, hs])
      rwa [heq] at hrest

theorem Course.pairwise_handles_eq {calls : List ReturnedCall} (h : c.Course calls)
    (hc : c.Kept) : calls.Pairwise fun y x => y.cycle.state = .finished →
      x.cycle.state = .finished → x.cycle.handles = y.cycle.handles := by
  induction h, hc using Course.induction_kept with
  | done c hc => exact .nil
  | call c w call reply calls hc hr _ hrest ih =>
      refine List.pairwise_cons.mpr ⟨fun x hx hs hfinished => ?_, ih⟩
      exact (Course.call hr hrest).handles_eq hc hs x (List.mem_cons_of_mem _ hx) hfinished
  | aside c c' calls h hc h' hc' heq ih => exact ih

theorem adds_eq_nil {view : View} {name : String} (hn : name ∉ view.model.names)
    {x : ReturnedCall} (hview : x.cycle.view = view) : x.adds name = [] := by
  have hg : x.cycle.view.model.graph? name = none := by
    rw [hview, EvaluationModel.graph?]
    exact ExtTreeMap.getElem?_eq_none (by simpa [EvaluationModel.names] using hn)
  rw [ReturnedCall.adds]
  split
  · rw [foundUnder, hg]
  · rfl

theorem Course.view_eq {calls : List ReturnedCall} (h : c.Course calls) (hc : c.Kept)
    {x : ReturnedCall} (hx : x ∈ calls) : x.cycle.view = c.view := by
  obtain ⟨before, after, hcalls⟩ := List.append_of_mem hx
  exact (h.values_eq hc before x after hcalls).2.1

/-- What a call adds is listed once, except what several nodes put out. -/
theorem nodup_adds_iff {x : ReturnedCall} {view : View} (hview : x.cycle.view = view)
    (name : String) : ((x.adds name).map ComputedValue.specification).Nodup ↔
      ∀ g, view.model.graph? name = some g →
        ∀ v ∈ x.adds name, g.OutputOnce v.specification := by
  unfold ReturnedCall.adds
  split
  · rw [nodup_foundUnder_iff, hview]
  · simp

/-- Whatever is called on a cycle, in whatever workspaces: its result lists, under each
configuration, what was found by every call that has populated it, one after the other, and counts
what it lists. No specification is listed twice exactly if no two nodes of the graph put out what
was found and no two calls found the same. A call that populates the result again, while the caches
are as they were, finds the same again. -/
theorem result_along_course (view : View) (t : ValuationTime) (before after : List ReturnedCall)
    (x : ReturnedCall) (h : (Cycle.new view t).Course (before ++ x :: after)) :
    (∀ name, x.cycle.result.values name = before.flatMap (fun y => y.adds name) ∧
      x.reply.cycle.result.values name = (before ++ [x]).flatMap fun y => y.adds name) ∧
    x.reply.cycle.result.size =
      x.cycle.result.size + (view.model.names.flatMap x.adds).length ∧
    (∀ name, ((x.reply.cycle.result.values name).map ComputedValue.specification).Nodup ↔
      (∀ y ∈ before ++ [x], ∀ g, view.model.graph? name = some g →
        ∀ v ∈ y.adds name, g.OutputOnce v.specification) ∧
      (before ++ [x]).Pairwise fun y z => List.Disjoint
        ((y.adds name).map ComputedValue.specification)
        ((z.adds name).map ComputedValue.specification)) ∧
    ∀ y ∈ before, y.Populates → x.Populates →
      (∀ k, x.workspace.cache k = y.workspace.cache k) → ∀ name, x.adds name = y.adds name := by
  have hc := kept_new view t
  obtain ⟨hleaves, -, hfound⟩ := h.values_eq hc before x after rfl
  have hview : ∀ y ∈ before ++ [x], y.cycle.view = view := fun y hy =>
    h.view_eq hc (List.append_assoc before [x] after ▸ List.mem_append_left after hy)
  have hbefore : ∀ name, x.cycle.result.values name = before.flatMap fun y => y.adds name :=
    fun name => (hfound name).trans (by simp [Cycle.new, ResultModel.empty, ResultModel.values])
  have hlisted : ∀ name, x.reply.cycle.result.values name =
      (before ++ [x]).flatMap fun y => y.adds name := fun name => by
    rw [hleaves.values_eq, hbefore, List.flatMap_append, List.flatMap_singleton]
  have hnone : ∀ name, name ∉ view.model.names → ∀ y ∈ before ++ [x], y.adds name = [] :=
    fun name hn y hy => adds_eq_nil hn (hview y hy)
  refine ⟨fun name => ⟨hbefore name, hlisted name⟩, ?_, fun name => ?_,
    fun y hy hypop hxpop hcache name => ?_⟩
  · rw [ResultModel.size_eq view.model.nodup_names (r := x.reply.cycle.result) fun name hn => by
        rw [hlisted]
        exact List.flatMap_eq_nil_iff.mpr (hnone name hn),
      ResultModel.size_eq view.model.nodup_names (r := x.cycle.result) fun name hn => by
        rw [hbefore]
        exact List.flatMap_eq_nil_iff.mpr fun y hy =>
          hnone name hn y (List.mem_append_left _ hy)]
    simp only [List.length_flatMap, hleaves.values_eq, List.length_append, List.sum_map_add]
  · rw [hlisted, List.map_flatMap, List.nodup_flatMap]
    exact and_congr_left fun _ => forall₂_congr fun y hy => nodup_adds_iff (hview y hy) name
  · have hhandles := (List.pairwise_append.mp (h.pairwise_handles_eq hc)).2.2 y hy x
      (List.mem_cons_self ..) hypop.2 hxpop.2
    rw [ReturnedCall.adds, ReturnedCall.adds, if_pos hypop, if_pos hxpop]
    refine foundUnder_congr ?_ hhandles hcache name
    rw [hview x (by simp), hview y (List.mem_append_left _ hy)]

namespace Sample
open Graph.Sample

def outspoken : View where
  definition := { name := "View", policy := { security := .all } }
  model := .ofGraphs [graph "Market" [loading]]

def priced : Workspace :=
  { Workspace.new .empty .missing with
    liveData := (LiveData.empty.set (quantity "Spot" "1").requirement (.string "10")).1 }

def preparing : ReturnedCall :=
  ⟨.new outspoken ⟨1⟩, priced, .prepareInputs, (prepared outspoken ⟨1⟩ priced).plain⟩

def executing? : Option ReturnedCall :=
  ((prepared outspoken ⟨1⟩ priced).cycle.execute (prepared outspoken ⟨1⟩ priced).workspace
    (.row [("Market", .finish)])).map fun r =>
      ⟨(prepared outspoken ⟨1⟩ priced).cycle, (prepared outspoken ⟨1⟩ priced).workspace,
        .executePlans (.row [("Market", .finish)]), r.1⟩

def populating (x : ReturnedCall) (moment : ResultTimestamp) : ReturnedCall :=
  ⟨x.reply.cycle, x.reply.workspace, .populateResult moment,
    x.reply.cycle.populate x.reply.workspace moment⟩

def spot10 : ComputedValue := ⟨quantity "Spot" "1", .string "10"⟩

theorem exists_executing : ∃ x, executing? = some x ∧ x.reply.cycle.state = .finished ∧
    (populating x ⟨5⟩).reply.cycle.state = .finished ∧
    (populating x ⟨5⟩).reply.cycle.result.values "Market" = [spot10] ∧
    (populating x ⟨5⟩).reply.cycle.result.size = 1 ∧
    (populating (populating x ⟨5⟩) ⟨6⟩).reply.cycle.result.values "Market" = [spot10, spot10] ∧
    (populating (populating x ⟨5⟩) ⟨6⟩).reply.cycle.result.size = 2 := by
  have h : executing?.map (fun x => (x.reply.cycle.state, (populating x ⟨5⟩).reply.cycle.state,
      (populating x ⟨5⟩).reply.cycle.result.values "Market",
      (populating x ⟨5⟩).reply.cycle.result.size,
      (populating (populating x ⟨5⟩) ⟨6⟩).reply.cycle.result.values "Market",
      (populating (populating x ⟨5⟩) ⟨6⟩).reply.cycle.result.size)) =
        some (.finished, .finished, [spot10], 1, [spot10, spot10], 2) := by rfl
  obtain ⟨x, hx, he⟩ := Option.map_eq_some_iff.mp h
  simp only [Prod.mk.injEq] at he
  exact ⟨x, hx, he⟩

theorem course_repeating {x : ReturnedCall} (hx : executing? = some x) :
    (Cycle.new outspoken ⟨1⟩).Course
      [preparing, x, populating x ⟨5⟩, populating (populating x ⟨5⟩) ⟨6⟩] := by
  obtain ⟨r, hr, rfl⟩ := Option.map_eq_some_iff.mp hx
  exact .call rfl (.call (congrArg (Option.map Prod.fst) hr) (.call rfl (.call rfl (.done _))))

theorem workspace_populating (x : ReturnedCall) (moment : ResultTimestamp) :
    (populating x moment).reply.workspace = x.reply.workspace := by
  change (x.reply.cycle.populate x.reply.workspace moment).workspace = _
  unfold populate
  split
  · split <;> rfl
  · rfl

end Sample
open Cycle.Sample

/-- A result that is populated twice, with nothing in between, lists the spot price twice. -/
theorem populated_twice_lists_twice : ∃ x, executing? = some x ∧
    (Cycle.new outspoken ⟨1⟩).Course
      [preparing, x, populating x ⟨5⟩, populating (populating x ⟨5⟩) ⟨6⟩] ∧
    (populating x ⟨5⟩).Populates ∧ (populating (populating x ⟨5⟩) ⟨6⟩).Populates ∧
    (populating (populating x ⟨5⟩) ⟨6⟩).workspace = (populating x ⟨5⟩).workspace ∧
    (populating x ⟨5⟩).reply.cycle.result.size = 1 ∧
    (populating (populating x ⟨5⟩) ⟨6⟩).reply.cycle.result.size = 2 ∧
    ¬(((populating (populating x ⟨5⟩) ⟨6⟩).reply.cycle.result.values "Market").map
      ComputedValue.specification).Nodup := by
  obtain ⟨x, hx, hstate, hstate', -, hsize, hvalues, hsize'⟩ := exists_executing
  refine ⟨x, hx, course_repeating hx, ⟨rfl, hstate⟩, ⟨rfl, hstate'⟩,
    workspace_populating x ⟨5⟩, hsize, hsize', ?_⟩
  rw [hvalues]
  simp

/-- The first time the spot price is listed once, the second time the same is found again. -/
theorem second_time_finds_the_same : ∃ x, (Cycle.new outspoken ⟨1⟩).Course
      ([preparing, x, populating x ⟨5⟩] ++ [populating (populating x ⟨5⟩) ⟨6⟩]) ∧
    (populating x ⟨5⟩).reply.cycle.result.values "Market" = [spot10] ∧
    (populating (populating x ⟨5⟩) ⟨6⟩).adds "Market" = (populating x ⟨5⟩).adds "Market" ∧
    (populating (populating x ⟨5⟩) ⟨6⟩).reply.cycle.result.size = 1 +
      (outspoken.model.names.flatMap (populating (populating x ⟨5⟩) ⟨6⟩).adds).length := by
  obtain ⟨x, hx, hstate, hstate', hvalues, hsize, -⟩ := exists_executing
  obtain ⟨-, hcount, -, hsame⟩ := result_along_course outspoken ⟨1⟩
    [preparing, x, populating x ⟨5⟩] [] (populating (populating x ⟨5⟩) ⟨6⟩) (course_repeating hx)
  refine ⟨x, course_repeating hx, hvalues, ?_, hsize ▸ hcount⟩
  exact hsame (populating x ⟨5⟩) (by simp) ⟨rfl, hstate⟩ ⟨rfl, hstate'⟩
    (fun k => congrArg (Workspace.cache · k) (workspace_populating x ⟨5⟩)) "Market"

end Cycle
end ValuationCycle
