import ValuationCycle.Proofs.Execution.Working

/-!
# Coherent executions

Side by side, the runs of an execution keep what each of them keeps alone: they
write to private partitions of their own, and the numbers that they share only
grow. When all runs have come to their ends, the cache of each is settled for the
whole graph.
-/
namespace ValuationCycle
open Json Std

theorem eventsOf_append (c : String) (es fs : List (String × RunEvent)) :
    eventsOf c (es ++ fs) = eventsOf c es ++ eventsOf c fs := by
  simp [eventsOf, List.filterMap_append]

/-- When a run has come to its end, the nodes with an outcome are those from which every way along
edges ends. -/
theorem Scheduled.exists_answer_iff {q : Request} {past : List RunEvent}
    {outcomes : List (Nat × Answer)} {r : Run} (h : Scheduled q past outcomes r)
    (hg : q.graph.Consistent) (hended : r.ending ≠ none) {n : Node} :
    (∃ a, (n, a) ∈ q.graph.answersIn outcomes) ↔
      ∃ i, q.graph.nodes[i]? = some n ∧ q.graph.Grounded i := by
  obtain ⟨-, hready, hjobs⟩ := h.ended.resolve_left hended
  have hdone := h.mem_dispatched_iff hg hready hjobs
  constructor
  · rintro ⟨a, ha⟩
    obtain ⟨i, hi, hin⟩ := Graph.mem_answersIn.mp ha
    exact ⟨i, hin, ((hdone i).mp (h.mem_dispatched_of_outcome hi)).2⟩
  · rintro ⟨i, hin, hgrounded⟩
    have hrecorded := h.perm.mem_iff.mp
      ((hdone i).mpr ⟨(List.getElem?_eq_some_iff.mp hin).choose, hgrounded⟩)
    rw [hjobs, List.map_nil, List.append_nil] at hrecorded
    obtain ⟨⟨i, a⟩, ho, rfl⟩ := List.mem_map.mp hrecorded
    exact ⟨a, Graph.mem_answersIn.mpr ⟨i, ho, hin⟩⟩

/-- Requests that can be run side by side, where specifications do not run out of
numbers. -/
structure Compatible (w : Workspace) (known : List Specification) (requests : List Request) :
    Prop where
  configurations : (requests.map fun q => q.graph.configuration).Nodup
  caches : (requests.map Request.cache).Nodup
  executable : ∀ q ∈ requests, q.Executable w.repository
  numbered : w.Numbered w.repository known
  inputs : ∀ q ∈ requests, ∀ n ∈ q.graph.nodes, n.inputs ⊆ known
  size : known.length < 2 ^ 63

theorem Compatible.eq_of_configuration {w : Workspace} {known : List Specification}
    {requests : List Request} (h : Compatible w known requests) {q q' : Request}
    (hq : q ∈ requests) (hq' : q' ∈ requests)
    (he : q.graph.configuration = q'.graph.configuration) : q = q' :=
  List.inj_on_of_nodup_map h.configurations hq hq' he

theorem Compatible.eq_of_cache {w : Workspace} {known : List Specification}
    {requests : List Request} (h : Compatible w known requests) {q q' : Request}
    (hq : q ∈ requests) (hq' : q' ∈ requests) (he : q.cache = q'.cache) : q = q' :=
  List.inj_on_of_nodup_map h.caches hq hq' he

namespace Execution

structure Coherent (w : Workspace) (m : ExtTreeMap String NodeMarks)
    (known : List Specification) (requests : List Request) (es : List (String × RunEvent))
    (x : Execution) : Prop where
  numbered : x.workspace.Numbered w.repository known
  keyed : x.Keyed
  requested : ∀ (c : String) r, x.runs[c]? = some r → ∃ q ∈ requests, q.graph.configuration = c
  underway : ∀ q ∈ requests, Underway q.graph.configuration q w.statistics
    (m[q.graph.configuration]?.getD .empty) (eventsOf q.graph.configuration es)
    ((submitAll w m requests).recorded q.graph.configuration es) x
  working : ∀ q ∈ requests, ∀ r, x.runs[q.graph.configuration]? = some r →
    Working w.repository q (w.cache q.cache)
      ((submitAll w m requests).recorded q.graph.configuration es) x.workspace r
  others : ∀ k, (∀ q ∈ requests, q.cache ≠ k) → x.workspace.cache k = w.cache k

variable {w : Workspace} {m : ExtTreeMap String NodeMarks} {known : List Specification}
variable {requests : List Request} {es : List (String × RunEvent)} {x y : Execution}

theorem coherent_submitAll (h : Compatible w known requests) :
    Coherent w m known requests [] (submitAll w m requests) := by
  obtain ⟨hw, -, -⟩ := submitAll_frame w m requests
  have hruns := runs_submitAll w m requests h.configurations
  refine ⟨by rw [hw]; exact h.numbered, keyed_submitAll w m requests h.configurations, ?_,
    fun q hq => underway_submitAll w m h.configurations hq, ?_, fun k _ => by rw [hw]⟩
  · intro c r hr
    obtain ⟨q, hq, hc, -⟩ := (hruns c r).mp hr
    exact ⟨q, hq, hc⟩
  · intro q hq r hr
    obtain ⟨q', hq', hc, rfl⟩ := (hruns _ r).mp hr
    obtain rfl := h.eq_of_configuration hq hq' hc.symm
    rw [hw]
    exact working_start w.repository q w

theorem Coherent.step (h : Compatible w known requests)
    (hx : (submitAll w m requests).steps? es = some x)
    (hco : Coherent w m known requests es x) {d : String} {e : RunEvent} (hs : x.step? d e = some y)
    (hok : ∀ q ∈ requests, ∀ err, y.ending? q.graph.configuration ≠ some (.error err)) :
    Coherent w m known requests (es ++ [(d, e)]) y := by
  obtain ⟨s, s', hsite, he, hy⟩ := step?_eq_some hs
  obtain ⟨hworkspace, -, hrun, -⟩ := site?_eq_some hsite
  obtain ⟨q, hq, rfl⟩ := hco.requested d s.run hrun
  have hrecorded : ∀ c, (submitAll w m requests).recorded c (es ++ [(q.graph.configuration, e)]) =
      (submitAll w m requests).recorded c es ++
        if q.graph.configuration = c then ((x.site? c).map fun s => s.recorded e).getD []
        else [] := by
    intro c
    rw [recorded_append hx]
    simp [recorded, hs]
  have hevents : ∀ c, eventsOf c (es ++ [(q.graph.configuration, e)]) =
      eventsOf c es ++ if q.graph.configuration = c then [e] else [] := by
    intro c
    rw [eventsOf_append]
    by_cases hc : q.graph.configuration = c <;> simp [eventsOf, hc]
  obtain ⟨r, hr, hscheduled⟩ := (hco.underway q hq).run
  obtain rfl := Option.some.inj (hr.symm.trans hrun)
  have hok' : ∀ err, s'.run.ending ≠ some (.error err) := by
    intro err
    simpa [hy, ending?] using hok q hq err
  obtain ⟨hworking, hnumbered, hspared⟩ := Working.step (h.executable q hq) hscheduled
    (hworkspace ▸ hco.working q hq s.run hrun) (hworkspace ▸ hco.numbered) (h.inputs q hq) h.size
    he hok'
  have hworkspace' : y.workspace = s'.workspace := by rw [hy, workspace_restore]
  rw [hworkspace, ← hworkspace'] at hspared
  rw [← hworkspace'] at hworking hnumbered
  refine ⟨hnumbered, hco.keyed.step hs, ?_, ?_, ?_, ?_⟩
  · intro c r hr
    by_cases hc : c = q.graph.configuration
    · exact ⟨q, hq, hc.symm⟩
    · exact hco.requested c r ((step?_other hs hc).1 ▸ hr)
  · intro p hp
    rw [hrecorded, hevents]
    by_cases hpq : q.graph.configuration = p.graph.configuration
    · obtain rfl := h.eq_of_configuration hq hp hpq
      simpa using (hco.underway q hq).own rfl hs (hok q hq)
    · simpa [hpq] using (hco.underway p hp).other hco.keyed hs (Ne.symm hpq)
  · intro p hp r hr
    rw [hrecorded]
    by_cases hpq : q.graph.configuration = p.graph.configuration
    · obtain rfl := h.eq_of_configuration hq hp hpq
      rw [hy, runs_restore, if_pos rfl, Option.some.injEq] at hr
      subst hr
      simpa [hsite] using hworking
    · -- the run of `p` sees of the event only numbers that were assigned, for its cache is another
      rw [(step?_other hs (Ne.symm hpq)).1] at hr
      have hne : p.cache ≠ q.cache := fun hc => hpq (h.eq_of_cache hp hq hc ▸ rfl)
      simpa [hpq] using (hco.working p hp r hr).other hspared hne
  · intro k hk
    rw [hspared.cache_eq k (Ne.symm (hk q hq)), hco.others k hk]

/-- Every row of events that ends no run in an error keeps an execution coherent. -/
theorem coherent_steps (h : Compatible w known requests)
    (hs : (submitAll w m requests).steps? es = some y)
    (hok : ∀ q ∈ requests, ∀ err, y.ending? q.graph.configuration ≠ some (.error err)) :
    Coherent w m known requests es y := by
  induction es using List.reverseRecOn generalizing y with
  | nil =>
      obtain rfl := Option.some.inj hs
      exact coherent_submitAll h
  | append_singleton es e ih =>
      obtain ⟨d, e⟩ := e
      rw [steps?_append] at hs
      obtain ⟨x, hx, hs⟩ := Option.bind_eq_some_iff.mp hs
      rw [steps?_cons] at hs
      obtain ⟨y', he, hs⟩ := Option.bind_eq_some_iff.mp hs
      obtain rfl := Option.some.inj hs
      have hok' : ∀ q ∈ requests, ∀ err, x.ending? q.graph.configuration ≠ some (.error err) :=
        fun q hq err herr => hok q hq err (step?_ending he herr)
      exact (ih hx hok').step h hx he hok

theorem Coherent.covered (h : Compatible w known requests) (hco : Coherent w m known requests es y)
    {q : Request} (hq : q ∈ requests) (hend : y.ending? q.graph.configuration = some (.ok ())) :
    q.graph.Covered (q.graph.answersIn
      ((submitAll w m requests).recorded q.graph.configuration es)) := by
  obtain ⟨r, hr, hscheduled⟩ := (hco.underway q hq).run
  have hended : r.ending ≠ none := by
    rw [ending?, hr, Option.bind_some] at hend
    simp [hend]
  have hx := h.executable q hq
  intro n hn
  obtain ⟨i, hi⟩ := List.mem_iff_getElem?.mp hn
  exact (hscheduled.exists_answer_iff hx.built.consistent hended).mpr
    ⟨i, hi, hx.acyclic.grounded i⟩

theorem Coherent.settled (hco : Coherent w m known requests es y) {q : Request}
    (hq : q ∈ requests) : Settled w.repository (w.cache q.cache)
      (q.graph.answersIn ((submitAll w m requests).recorded q.graph.configuration es))
      (y.workspace.cache q.cache) := by
  obtain ⟨r, hr, -⟩ := (hco.underway q hq).run
  exact (hco.working q hq r hr).settled

end Execution
end ValuationCycle
