import ValuationCycle.Cycle.Reporting
import ValuationCycle.Proofs.Cycle.Preparing

/-!
# What is reported

The result of a cycle has, for each configuration, what the cache holds under the
outputs that the view asks for, in the partition where the outputs of the graph
live, and nothing else.
-/
namespace ValuationCycle
open Json Std

theorem find?_filterMap_specification (f : Specification → Option Value) (l : List Specification)
    (s : Specification) :
    ((l.filterMap fun s => (f s).map fun v => (⟨s, v⟩ : ComputedValue)).find?
      fun v => v.specification == s).map ComputedValue.value = if s ∈ l then f s else none := by
  induction l with
  | nil => rfl
  | cons t l ih =>
      cases hf : f t with
      | none =>
          rw [List.filterMap_cons_none (by rw [hf]; rfl), ih]
          by_cases hs : s = t
          · simp [hs, hf]
          · simp [hs]
      | some v =>
          rw [List.filterMap_cons_some (b := ⟨t, v⟩) (by rw [hf]; rfl), List.find?_cons]
          by_cases hs : t = s
          · subst hs
            simp [hf]
          · have hbeq : (t == s) = false := by simpa using hs
            simp only [hbeq, ih, List.mem_cons, Ne.symm hs, false_or]

namespace ResultModel
variable {r : ResultModel} {configuration other : String}

theorem values_addConfiguration :
    (r.addConfiguration configuration).values other = r.values other := by
  rw [values, values, addConfiguration, ExtTreeMap.getElem?_insertIfNew]
  split
  · next h =>
      rw [← LawfulEqOrd.eq_of_compare h.1, ExtTreeMap.getElem?_eq_none h.2]
      rfl
  · rfl

theorem values_add {v : ComputedValue} : (r.add configuration v).values other =
    if configuration = other then r.values configuration ++ [v] else r.values other := by
  rw [values, add, ExtTreeMap.getElem?_insert]
  by_cases h : configuration = other
  · simp [h]
  · rw [if_neg h, if_neg fun he => h (LawfulEqOrd.eq_of_compare he), values]

theorem values_addFound {found : List (Specification × Option Value)} :
    (r.addFound configuration found).values other = if configuration = other then
      r.values configuration ++ found.filterMap fun e => e.2.map fun v => ⟨e.1, v⟩
    else r.values other := by
  induction found generalizing r with
  | nil =>
      by_cases h : configuration = other
      · simp [addFound, h]
      · simp [addFound, h]
  | cons e found ih =>
      obtain ⟨s, v⟩ := e
      cases v with
      | none => exact ih
      | some v =>
          refine (ih (r := r.add configuration ⟨s, v⟩)).trans ?_
          rw [values_add, values_add]
          by_cases h : configuration = other <;> simp [h]

theorem mem_addConfiguration : other ∈ (r.addConfiguration configuration).results ↔
    other = configuration ∨ other ∈ r.results := by
  rw [addConfiguration, ExtTreeMap.mem_insertIfNew, LawfulEqOrd.compare_eq_iff_eq, eq_comm]

theorem mem_addFound (found : List (Specification × Option Value))
    (h : configuration ∈ r.results) :
    other ∈ (r.addFound configuration found).results ↔ other ∈ r.results := by
  induction found generalizing r with
  | nil => rfl
  | cons e found ih =>
      obtain ⟨s, v⟩ := e
      cases v with
      | none => exact ih h
      | some v =>
          have hmem : ∀ name, name ∈ (r.add configuration ⟨s, v⟩).results ↔ name ∈ r.results := by
            intro name
            rw [add, ExtTreeMap.mem_insert, LawfulEqOrd.compare_eq_iff_eq]
            exact or_iff_right_of_imp fun he => he ▸ h
          exact (ih ((hmem configuration).mpr h)).trans (hmem other)

end ResultModel

namespace Cycle
variable (c : Cycle) (w : Workspace) (group : CacheGroup)

def found (e : String × Graph) : List ComputedValue :=
  (c.reported e.2).filterMap fun s =>
    ((w.cache ⟨group, e.1⟩).getHinted? (.ofGraph e.2) s).map fun v => ⟨s, v⟩

theorem report_eq {graphs : List (String × Graph)} (hnames : (graphs.map Prod.fst).Nodup)
    (hhandles : ∀ e ∈ graphs, c.handles[e.1]? = some ⟨group, e.1⟩) (r : ResultModel) :
    ∃ r', c.report w r graphs = (r', .ok ()) ∧
      (∀ name, name ∉ graphs.map Prod.fst → r'.values name = r.values name) ∧
      ∀ e ∈ graphs, r'.values e.1 = r.values e.1 ++ c.found w group e := by
  induction graphs generalizing r with
  | nil => exact ⟨r, rfl, fun _ _ => rfl, by simp⟩
  | cons e rest ih =>
      obtain ⟨name, g⟩ := e
      simp only [List.map_cons, List.nodup_cons] at hnames
      simp only [List.mem_cons, forall_eq_or_imp] at hhandles
      obtain ⟨r', hrest, hothers, hall⟩ := ih hnames.2 hhandles.2
        ((r.addConfiguration name).addFound name
          ((w.cache ⟨group, name⟩).getMany (.ofGraph g) (c.reported g)))
      have hvalues : ∀ other, ((r.addConfiguration name).addFound name
          ((w.cache ⟨group, name⟩).getMany (.ofGraph g) (c.reported g))).values other =
            if name = other then r.values name ++ c.found w group (name, g)
            else r.values other := by
        intro other
        rw [ResultModel.values_addFound, ResultModel.values_addConfiguration,
          ResultModel.values_addConfiguration, Cache.getMany, List.filterMap_map]
        rfl
      refine ⟨r', ?_, fun other ho => ?_, fun e he => ?_⟩
      · rw [report, hhandles.1]
        exact hrest
      · simp only [List.map_cons, List.mem_cons, not_or] at ho
        rw [hothers other ho.2, hvalues, if_neg (Ne.symm ho.1)]
      · rcases List.mem_cons.mp he with rfl | he
        · rw [hothers name hnames.1, hvalues, if_pos rfl]
        · rw [hall e he, hvalues, if_neg fun hc => hnames.1 (List.mem_map.mpr ⟨e, he, hc.symm⟩)]

theorem mem_report {graphs : List (String × Graph)}
    (hhandles : ∀ e ∈ graphs, c.handles[e.1]? = some ⟨group, e.1⟩) (r : ResultModel)
    (name : String) : name ∈ (c.report w r graphs).1.results ↔
      name ∈ r.results ∨ name ∈ graphs.map Prod.fst := by
  induction graphs generalizing r with
  | nil => simp [report]
  | cons e rest ih =>
      obtain ⟨other, g⟩ := e
      simp only [List.mem_cons, forall_eq_or_imp] at hhandles
      have hself : other ∈ (r.addConfiguration other).results :=
        ResultModel.mem_addConfiguration.mpr (.inl rfl)
      rw [report, hhandles.1]
      refine (ih hhandles.2 _).trans ?_
      rw [ResultModel.mem_addFound _ hself, ResultModel.mem_addConfiguration, List.map_cons,
        List.mem_cons, or_comm (a := name = other), or_assoc]

/-- Populating the empty result of a finished cycle succeeds, and lists what is found. -/
theorem populate_found (hstate : c.state = .finished)
    (hhandles : ∀ name ∈ c.view.model.names, c.handles[name]? = some ⟨group, name⟩)
    (hresult : ∀ name, c.result.values name = []) (stamp : ResultTimestamp) :
    ∃ r, c.populate w stamp = ⟨{ c with result := r }, w, .ok ()⟩ ∧
      (∀ name, name ∈ r.results ↔ name ∈ c.result.results ∨ name ∈ c.view.model.names) ∧
      (∀ name, name ∉ c.view.model.names → r.values name = []) ∧
      ∀ e ∈ c.view.model.graphs.toList, r.values e.1 = c.found w group e := by
  have hgraphs : ∀ e ∈ c.view.model.graphs.toList, c.handles[e.1]? = some ⟨group, e.1⟩ :=
    fun e he => hhandles e.1 (EvaluationModel.name_mem he)
  obtain ⟨r, hreport, hothers, hall⟩ :=
    c.report_eq w group c.view.model.nodup_map_fst hgraphs c.result
  have hmem := c.mem_report w group hgraphs c.result
  rw [c.view.model.map_fst_toList] at hothers hmem
  rw [hreport] at hmem
  have hpermits : c.permits .populateResult = true := by rw [permits, hstate]; rfl
  refine ⟨r.stamp stamp, by rw [populate, if_pos hpermits, hreport], hmem, fun name hn => ?_,
    fun e he => ?_⟩
  · exact (hothers name hn).trans (hresult name)
  · refine (hall e he).trans ?_
    rw [hresult, List.nil_append]

theorem find?_found (e : String × Graph) (s : Specification) :
    ((c.found w group e).find? fun v => v.specification == s).map ComputedValue.value =
      if s ∈ c.reported e.2 then (w.cache ⟨group, e.1⟩).getHinted? (.ofGraph e.2) s else none :=
  find?_filterMap_specification _ _ s

theorem populate_eq (hstate : c.state = .finished)
    (hhandles : ∀ name ∈ c.view.model.names, c.handles[name]? = some ⟨group, name⟩)
    (hresult : ∀ name, c.result.values name = []) (stamp : ResultTimestamp) :
    ∃ r, c.populate w stamp = ⟨{ c with result := r }, w, .ok ()⟩ ∧
      (∀ name, name ∉ c.view.model.names → ∀ s, r.value? name s = none) ∧
      ∀ e ∈ c.view.model.graphs.toList, ∀ s, r.value? e.1 s =
        if s ∈ c.reported e.2 then (w.cache ⟨group, e.1⟩).getHinted? (.ofGraph e.2) s
        else none := by
  obtain ⟨r, hpopulate, -, hothers, hall⟩ := c.populate_found w group hstate hhandles hresult stamp
  refine ⟨r, hpopulate, fun name hn s => ?_, fun e he s => ?_⟩
  · rw [ResultModel.value?, hothers name hn]
    rfl
  · rw [ResultModel.value?, hall e he, find?_found]

end Cycle
end ValuationCycle
