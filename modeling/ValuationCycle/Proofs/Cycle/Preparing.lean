import Mathlib.Data.List.Induction
import ValuationCycle.Cycle.Inputs
import ValuationCycle.Proofs.Cache.Storing

/-!
# Prepared cycles

After its inputs are prepared, a cycle has a cache for each configuration of its
view. All of them are in one group, whose shared partition has the live data of
the view; their private partitions are as they were, and caches of other groups
are not touched.
-/
namespace ValuationCycle
open Json Std

theorem values_eq_map_toList {α β : Type} [Ord α] [TransOrd α] (t : ExtTreeMap α β) :
    t.values = t.toList.map Prod.snd := by
  have hfoldr : t.values = t.foldr (fun _ v l => v :: l) [] := by
    obtain ⟨⟨t⟩⟩ := t
    induction t using Quotient.inductionOn with
    | _ t => rfl
  rw [hfoldr, ExtTreeMap.foldr_eq_foldr_toList]
  induction t.toList with
  | nil => rfl
  | cons e l ih => simp [ih]

namespace EvaluationModel

theorem map_fst_toList (m : EvaluationModel) : m.graphs.toList.map Prod.fst = m.names :=
  ExtTreeMap.map_fst_toList_eq_keys

theorem nodup_names (m : EvaluationModel) : m.names.Nodup := ExtTreeMap.nodup_keys

theorem nodup_map_fst (m : EvaluationModel) : (m.graphs.toList.map Prod.fst).Nodup :=
  m.map_fst_toList ▸ m.nodup_names

theorem name_mem {m : EvaluationModel} {e : String × Graph} (he : e ∈ m.graphs.toList) :
    e.1 ∈ m.names := m.map_fst_toList ▸ List.mem_map_of_mem he

theorem toList_liveOutputs_eq_nil {m : EvaluationModel} (h : m.names = []) :
    m.liveOutputs.toList = [] := by
  have hvalues : m.graphs.values = [] := by
    rw [values_eq_map_toList, List.map_eq_nil_iff, ← List.map_eq_nil_iff (f := Prod.fst),
      map_fst_toList, h]
  rw [liveOutputs, hvalues]
  rfl

theorem configuration_of_mem {m : EvaluationModel} {e : String × Graph} (he : e ∈ m.graphs.toList) :
    e.2.configuration = e.1 :=
  m.configuration_eq (ExtTreeMap.mem_toList_iff_getElem?_eq_some.mp he)

end EvaluationModel

/-- The value of an output in the snapshot of a time. -/
def LiveData.value? (d : LiveData) (t : ValuationTime) (output : Specification) : Option Value :=
  (d.query t output.requirement).2

theorem LiveData.snapshot_snapshot (d : LiveData) (t : ValuationTime) :
    (d.snapshot t).snapshot t = d.snapshot t := by
  have hsnapshots : (d.snapshots.insertIfNew t d.current).insertIfNew t d.current =
      d.snapshots.insertIfNew t d.current := by
    refine ExtTreeMap.ext_getElem? fun u => ?_
    rw [ExtTreeMap.getElem?_insertIfNew, if_neg (by simp)]
  rw [snapshot, snapshot, hsnapshots]

theorem LiveData.value?_query (d : LiveData) (t : ValuationTime) (r : Requirement)
    (output : Specification) : (d.query t r).1.value? t output = d.value? t output := by
  change ((((d.snapshot t).snapshot t).snapshots[t]?).getD ∅)[output.requirement]? = _
  rw [snapshot_snapshot]
  rfl

namespace Workspace
variable {w : Workspace} {group : CacheGroup}

theorem fanOut_aside {hs : List CacheHandle} (hg : ∀ h ∈ hs, h.group = group) (v : ComputedValue) :
    Aside group w (w.fanOut hs v) ∧
      ∀ k, ((w.fanOut hs v).cache k).privatePart = (w.cache k).privatePart := by
  induction hs generalizing w with
  | nil => exact ⟨w.aside_refl group, fun _ => rfl⟩
  | cons h hs ih =>
      let f : Cache → Cache := fun c => c.putShared v
      obtain ⟨haside, hprivate⟩ := ih (w := w.updateCache h f) fun k hk => hg k (by simp [hk])
      refine ⟨(aside_updateCache f (hg h (by simp))).trans haside, fun k => ?_⟩
      refine (hprivate k).trans ?_
      by_cases hk : k = h
      · rw [hk, cache_updateCache]
        rfl
      · exact privatePart_updateCache_of_ne w f hk

theorem query_aside (t : ValuationTime) (output : Specification) :
    Aside group w (w.query t output).1 := ⟨rfl, rfl, rfl, fun _ _ => rfl⟩

theorem load_aside {hs : List CacheHandle} (hg : ∀ h ∈ hs, h.group = group) (t : ValuationTime)
    (outputs : List Specification) : Aside group w (w.load t hs outputs).1 ∧
      ∀ k, ((w.load t hs outputs).1.cache k).privatePart = (w.cache k).privatePart := by
  induction outputs generalizing w with
  | nil => exact ⟨w.aside_refl group, fun _ => rfl⟩
  | cons output outputs ih =>
      have hquery : Aside group w (w.query t output).1 := query_aside t output
      rw [load]
      split
      · next w' v hw =>
          obtain rfl : (w.query t output).1 = w' := by rw [hw]
          obtain ⟨hfan, hprivate⟩ := fanOut_aside (w := (w.query t output).1) hg ⟨output, v⟩
          obtain ⟨hload, hprivate'⟩ := ih (w := (w.query t output).1.fanOut hs ⟨output, v⟩)
          exact ⟨(hquery.trans hfan).trans hload, fun k => (hprivate' k).trans (hprivate k)⟩
      · next w' hw =>
          obtain rfl : (w.query t output).1 = w' := by rw [hw]
          obtain ⟨hload, hprivate⟩ := ih (w := (w.query t output).1)
          exact ⟨hquery.trans hload, hprivate⟩

theorem fanOut_liveData (hs : List CacheHandle) (v : ComputedValue) :
    (w.fanOut hs v).liveData = w.liveData := by
  induction hs generalizing w with
  | nil => rfl
  | cons h hs ih => exact ih (w := w.updateCache h fun c => c.putShared v)

theorem fanOut_shared {hs : List CacheHandle} (hg : ∀ h ∈ hs, h.group = group) (v : ComputedValue)
    {k : CacheHandle} (hk : k.group = group) (s : Specification) :
    ((w.fanOut hs v).cache k).sharedPart[s]? =
      if hs ≠ [] ∧ v.specification = s then some v.value else (w.cache k).sharedPart[s]? := by
  induction hs generalizing w with
  | nil => simp [fanOut]
  | cons h hs ih =>
      let f : Cache → Cache := fun c => c.putShared v
      have hh : h.group = group := hg h (by simp)
      have hupdate : ((w.updateCache h f).cache k).sharedPart[s]? =
          if v.specification = s then some v.value else (w.cache k).sharedPart[s]? := by
        rw [sharedPart_updateCache, if_pos (hk.trans hh.symm),
          w.sharedPart_of_group (hk.trans hh.symm)]
        change ((w.cache h).sharedPart.insert v.specification v.value)[s]? = _
        simp [ExtTreeMap.getElem?_insert]
      refine (ih (w := w.updateCache h f) fun k hk => hg k (by simp [hk])).trans ?_
      rw [hupdate]
      by_cases hs : v.specification = s <;> simp [hs]

theorem load_shared {hs : List CacheHandle} (hg : ∀ h ∈ hs, h.group = group) (hne : hs ≠ [])
    (t : ValuationTime) (outputs : List Specification) {k : CacheHandle} (hk : k.group = group)
    (s : Specification) : ((w.load t hs outputs).1.cache k).sharedPart[s]? =
      (if s ∈ outputs then w.liveData.value? t s else none).or (w.cache k).sharedPart[s]? := by
  induction outputs generalizing w with
  | nil => simp [load]
  | cons output outputs ih =>
      have hvalue : (w.query t output).2 = w.liveData.value? t output := rfl
      rw [load]
      split
      · next w' v hw =>
          obtain rfl : (w.query t output).1 = w' := by rw [hw]
          rw [hw] at hvalue
          refine ih.trans ?_
          have hafter : (w.query t output).1.liveData.value? t s = w.liveData.value? t s :=
            w.liveData.value?_query t output.requirement s
          have hcache : (w.query t output).1.cache k = w.cache k := rfl
          rw [fanOut_liveData, fanOut_shared hg _ hk, hafter, hcache]
          by_cases hs : output = s
          · subst hs
            by_cases hmem : output ∈ outputs <;> simp [hne, hmem, ← hvalue]
          · simp [hs, Ne.symm hs]
      · next w' hw =>
          obtain rfl : (w.query t output).1 = w' := by rw [hw]
          rw [hw] at hvalue
          refine ih.trans ?_
          have hafter : (w.query t output).1.liveData.value? t s = w.liveData.value? t s :=
            w.liveData.value?_query t output.requirement s
          have hcache : (w.query t output).1.cache k = w.cache k := rfl
          rw [hafter, hcache]
          by_cases hs : output = s
          · subst hs
            simp [← hvalue]
          · simp [Ne.symm hs]

theorem load_liveData (t : ValuationTime) (hs : List CacheHandle) (outputs : List Specification) :
    (w.load t hs outputs).1.liveData =
      if outputs = [] then w.liveData else w.liveData.snapshot t := by
  induction outputs generalizing w with
  | nil => rfl
  | cons output outputs ih =>
      have hagain : (if outputs = [] then w.liveData.snapshot t
          else (w.liveData.snapshot t).snapshot t) = w.liveData.snapshot t := by
        rw [LiveData.snapshot_snapshot, ite_self]
      rw [load, if_neg (List.cons_ne_nil _ _), ← hagain]
      split
      · next w' v hw =>
          obtain rfl : (w.query t output).1 = w' := by rw [hw]
          rw [ih, fanOut_liveData]
          rfl
      · next w' hw =>
          obtain rfl : (w.query t output).1 = w' := by rw [hw]
          exact ih

theorem load_missing (t : ValuationTime) (hs : List CacheHandle) (outputs : List Specification) :
    (w.load t hs outputs).2 =
      (outputs.filter fun u => (w.liveData.value? t u).isNone).map Specification.requirement := by
  induction outputs generalizing w with
  | nil => rfl
  | cons output outputs ih =>
      have hvalue : (w.query t output).2 = w.liveData.value? t output := rfl
      have hafter : ∀ u, (w.query t output).1.liveData.value? t u = w.liveData.value? t u :=
        w.liveData.value?_query t output.requirement
      rw [load, List.filter_cons]
      split
      · next w' v hw =>
          obtain rfl : (w.query t output).1 = w' := by rw [hw]
          rw [hw] at hvalue
          simp [ih, fanOut_liveData, hafter, ← hvalue]
      · next w' hw =>
          obtain rfl : (w.query t output).1 = w' := by rw [hw]
          rw [hw] at hvalue
          simp [ih, hafter, ← hvalue]

end Workspace

namespace Cycle

structure Prepared (view : View) (t : ValuationTime) (group : CacheGroup) (c : Cycle) : Prop where
  view_eq : c.view = view
  time_eq : c.time = t
  state_eq : c.state = .inputsPrepared
  result_eq : c.result = .empty view.name t
  interrupted_eq : c.interrupted = false
  handle : ∀ name, c.handles[name]? = if name ∈ view.model.names then some ⟨group, name⟩ else none
  marks : ∀ name ∈ view.model.names, ∃ m, c.marks[name]? = some m

theorem openCache_frame (c : Cycle) (w : Workspace) (name : String) :
    (∀ k, (c.openCache w name).2.cache k = w.cache k) ∧
      (c.openCache w name).2.caches.releases = w.caches.releases :=
  ⟨fun _ => w.caches.cache_openCache _ _ _, rfl⟩

theorem openCaches_eq (c : Cycle) (w : Workspace) (names : List String) :
    let s := names.foldl (fun s name => s.1.openCache s.2 name) (c, w)
    (∃ handles, s.1 = { c with handles } ∧ ∀ name, handles[name]? =
      if name ∈ names then some ⟨w.caches.currentGroup c.view.name c.time, name⟩
      else c.handles[name]?) ∧
    s.2.repository = w.repository ∧ s.2.identifiers = w.identifiers ∧
    s.2.liveData = w.liveData ∧ s.2.caches.releases = w.caches.releases ∧
    ∀ k, s.2.cache k = w.cache k := by
  induction names using List.reverseRecOn with
  | nil => exact ⟨⟨c.handles, rfl, by simp⟩, rfl, rfl, rfl, rfl, fun _ => rfl⟩
  | append_singleton names last ih =>
      rw [List.foldl_append]
      generalize names.foldl (fun s name => s.1.openCache s.2 name) (c, w) = s at ih ⊢
      obtain ⟨c', w'⟩ := s
      obtain ⟨⟨handles, rfl, hhandles⟩, hrepository, hidentifiers, hliveData, hreleases, hcache⟩ :=
        ih
      obtain ⟨hopen, hopened⟩ := openCache_frame { c with handles } w' last
      have hgroup : w'.caches.currentGroup c.view.name c.time =
          w.caches.currentGroup c.view.name c.time := by
        rw [CacheSource.currentGroup, CacheSource.currentGroup, CacheSource.releaseCount,
          CacheSource.releaseCount, hreleases]
      refine ⟨⟨handles.insert last ⟨w.caches.currentGroup c.view.name c.time, last⟩, ?_, ?_⟩,
        hrepository, hidentifiers, hliveData, hopened.trans hreleases,
        fun k => (hopen k).trans (hcache k)⟩
      · rw [← hgroup]
        rfl
      · intro name
        rw [ExtTreeMap.getElem?_insert, hhandles]
        by_cases hn : last = name
        · simp [hn]
        · rw [if_neg fun he => hn (LawfulEqOrd.eq_of_compare he)]
          simp [Ne.symm hn]

theorem marks_new (view : View) (t : ValuationTime) {name : String}
    (hn : name ∈ view.model.names) : (Cycle.new view t).marks[name]? = some NodeMarks.empty := by
  have hfold : ∀ (names : List String) (m : ExtTreeMap String NodeMarks),
      name ∈ names ∨ m[name]? = some NodeMarks.empty →
      (names.foldl (fun m name => m.insert name NodeMarks.empty) m)[name]? =
        some NodeMarks.empty := by
    intro names
    induction names with
    | nil => simp
    | cons first names ih =>
        intro m h
        refine ih _ ?_
        rw [ExtTreeMap.getElem?_insert]
        by_cases hf : first = name
        · simp [hf]
        · rw [if_neg fun he => hf (LawfulEqOrd.eq_of_compare he)]
          simpa [Ne.symm hf] using h
  exact hfold _ _ (.inl hn)

def loaded (c : Cycle) (d : LiveData) (u : Specification) : Option Value :=
  if u ∈ c.view.model.liveOutputs then d.value? c.time u else none

/-- What preparing its inputs makes of a cycle that has no caches yet, and of the workspace. -/
structure Prepares (c : Cycle) (w : Workspace) (c' : Cycle) (w' : Workspace) : Prop where
  cycle_eq : c' = { c with state := .inputsPrepared, started := true, handles := c'.handles }
  handle : ∀ name, c'.handles[name]? =
    if name ∈ c.view.model.names then
      some ⟨w.caches.currentGroup c.view.name c.time, name⟩
    else none
  aside : Workspace.Aside (w.caches.currentGroup c.view.name c.time) w w'
  private_eq : ∀ k, (w'.cache k).privatePart = (w.cache k).privatePart
  shared_eq : ∀ k, k.group = w.caches.currentGroup c.view.name c.time → ∀ u : Specification,
    (w'.cache k).sharedPart[u]? = (c.loaded w.liveData u).or (w.cache k).sharedPart[u]?
  liveData_eq : w'.liveData = if c.view.model.liveOutputs.toList = [] then w.liveData
    else w.liveData.snapshot c.time

def missing (c : Cycle) (d : LiveData) : List Requirement :=
  (c.view.model.liveOutputs.toList.filter fun u => (d.value? c.time u).isNone).map
    Specification.requirement

theorem prepare_created {c : Cycle} (hstate : c.state = .created) (hhandles : c.handles = ∅)
    (w : Workspace) : ∃ c' w', c.prepare w = ⟨c', w', .ok (c.missing w.liveData)⟩ ∧
      Prepares c w c' w' := by
  have hopen := openCaches_eq { c with started := true } w c.view.model.names
  set s := c.view.model.names.foldl (fun s name => s.1.openCache s.2 name)
    ({ c with started := true }, w) with hs
  obtain ⟨⟨handles, hc, hnames⟩, hrepository, hidentifiers, hliveData, hreleases, hcache⟩ := hopen
  have hhandle : ∀ name, s.1.handles[name]? = if name ∈ c.view.model.names then
      some ⟨w.caches.currentGroup c.view.name c.time, name⟩ else none := by
    intro name
    rw [hc, hnames, hhandles, ExtTreeMap.getElem?_empty]
  have hgroup : ∀ h ∈ s.1.handles.values,
      h.group = w.caches.currentGroup c.view.name c.time := by
    intro h hh
    rw [values_eq_map_toList, List.mem_map] at hh
    obtain ⟨⟨name, h⟩, hm, rfl⟩ := hh
    rw [ExtTreeMap.mem_toList_iff_getElem?_eq_some, hhandle] at hm
    split at hm
    · exact (Option.some.inj hm) ▸ rfl
    · simp at hm
  obtain ⟨hload, hprivate⟩ := Workspace.load_aside (w := s.2) hgroup c.time
    c.view.model.liveOutputs.toList
  have haside : Workspace.Aside (w.caches.currentGroup c.view.name c.time) w s.2 :=
    ⟨hrepository, hidentifiers, hreleases, fun k _ => hcache k⟩
  refine ⟨{ s.1 with state := .inputsPrepared },
    (s.2.load c.time s.1.handles.values c.view.model.liveOutputs.toList).1, ?_, ?_, hhandle,
    haside.trans hload, fun k => by rw [hprivate, hcache], fun k hk u => ?_, ?_⟩
  · have hpermits : c.permits .prepareInputs = true := by rw [permits, hstate]; rfl
    have htime : s.1.time = c.time := by rw [hc]
    have hview : s.1.view = c.view := by rw [hc]
    rw [prepare, if_pos hpermits]
    change Reply.mk { s.1 with state := .inputsPrepared }
      (s.2.load s.1.time s.1.handles.values s.1.view.model.liveOutputs.toList).1
      (.ok (s.2.load s.1.time s.1.handles.values s.1.view.model.liveOutputs.toList).2) = _
    rw [htime, hview, Workspace.load_missing, hliveData]
    rfl
  · rw [hc]
  · by_cases hnone : c.view.model.names = []
    · have houtputs : c.view.model.liveOutputs.toList = [] :=
        c.view.model.toList_liveOutputs_eq_nil hnone
      have hmem : u ∉ c.view.model.liveOutputs := by
        rw [← ExtTreeSet.mem_toList, houtputs]
        exact List.not_mem_nil
      rw [loaded, houtputs, if_neg hmem, Workspace.load, hcache, Option.none_or]
    · obtain ⟨name, hn⟩ := List.exists_mem_of_ne_nil _ hnone
      have hne : s.1.handles.values ≠ [] := by
        rw [values_eq_map_toList]
        exact List.ne_nil_of_mem (List.mem_map_of_mem
          (ExtTreeMap.mem_toList_iff_getElem?_eq_some.mpr ((hhandle name).trans (if_pos hn))))
      rw [Workspace.load_shared hgroup hne c.time _ hk u, hcache, hliveData]
      simp only [loaded, ExtTreeSet.mem_toList]
  · rw [Workspace.load_liveData, hliveData]

theorem prepare_new (view : View) (t : ValuationTime) (w : Workspace) :
    ∃ c w' missing, (Cycle.new view t).prepare w = ⟨c, w', .ok missing⟩ ∧
      Prepared view t (w.caches.currentGroup view.name t) c ∧
      (∀ name ∈ view.model.names, c.marks[name]? = some .empty) ∧
      Workspace.Aside (w.caches.currentGroup view.name t) w w' ∧
      (∀ k, (w'.cache k).privatePart = (w.cache k).privatePart) ∧
      ∀ name ∈ view.model.names, ∀ u : Specification,
        (w'.cache ⟨w.caches.currentGroup view.name t, name⟩).sharedPart[u]? =
          (if u ∈ view.model.liveOutputs then w.liveData.value? t u else none).or
            (w.cache ⟨w.caches.currentGroup view.name t, name⟩).sharedPart[u]? := by
  obtain ⟨c, w', hprepare, h⟩ := prepare_created (c := .new view t) rfl rfl w
  have hmarks : ∀ name ∈ view.model.names, c.marks[name]? = some .empty := by
    intro name hn
    rw [h.cycle_eq]
    exact marks_new view t hn
  refine ⟨c, w', _, hprepare, ?_, hmarks, h.aside, h.private_eq, fun name _ u =>
    h.shared_eq _ rfl u⟩
  have hhandle := h.handle
  rw [h.cycle_eq] at hmarks hhandle ⊢
  exact ⟨rfl, rfl, rfl, rfl, rfl, hhandle, fun name hn => ⟨_, hmarks name hn⟩⟩

theorem prepared_of_eq {view : View} {t : ValuationTime} {w w' : Workspace} {c : Cycle}
    {missing : List Requirement} (h : (Cycle.new view t).prepare w = ⟨c, w', .ok missing⟩) :
    Prepared view t (w.caches.currentGroup view.name t) c ∧
      Workspace.Aside (w.caches.currentGroup view.name t) w w' ∧
      (∀ k, (w'.cache k).privatePart = (w.cache k).privatePart) ∧
      ∀ name ∈ view.model.names, ∀ u : Specification,
        (w'.cache ⟨w.caches.currentGroup view.name t, name⟩).sharedPart[u]? =
          (if u ∈ view.model.liveOutputs then w.liveData.value? t u else none).or
            (w.cache ⟨w.caches.currentGroup view.name t, name⟩).sharedPart[u]? := by
  obtain ⟨c', w'', missing', hprepare, hc, -, haside, hprivate, hshared⟩ := prepare_new view t w
  obtain ⟨rfl, rfl, -⟩ := Reply.mk.inj (h.symm.trans hprepare)
  exact ⟨hc, haside, hprivate, hshared⟩

end Cycle
end ValuationCycle
