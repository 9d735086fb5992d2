import Mathlib.Data.List.Induction
import Mathlib.Data.List.Nodup
import ValuationCycle.Execution.Basic

/-!
# What an event does

An event that can happen says what it found and what it leaves, one statement
for each kind of event. An event of one configuration leaves the runs and the
marks of all others alone; of what they share it changes only the cache of its
own request, the numbers of specifications, the journal, and the statistics of
its own configuration.
-/
namespace ValuationCycle
open Json Std

namespace Run

theorem job?_eq_some {r : Run} {i : Nat} {j : Job} (h : r.job? i = some j) :
    j.node = i ∧ j ∈ r.jobs := by
  refine ⟨?_, List.mem_of_find?_eq_some h⟩
  simpa using List.find?_some h

theorem exists_job? {r : Run} {j : Job} (h : j ∈ r.jobs) : ∃ k, r.job? j.node = some k := by
  have hs : (r.job? j.node).isSome = true := List.find?_isSome.mpr ⟨j, h, by simp⟩
  exact Option.isSome_iff_exists.mp hs

/-- Where no two jobs are for one node, replacing or dropping a job touches that job alone. -/
theorem job?_split {r : Run} {i : Nat} {j : Job} (h : r.job? i = some j)
    (hn : (r.jobs.map Job.node).Nodup) :
    ∃ before after, r.jobs = before ++ j :: after ∧ (r.dropJob i).jobs = before ++ after ∧
      ∀ k : Job, k.node = i → (r.setJob k).jobs = before ++ k :: after := by
  obtain ⟨rfl, hj⟩ := job?_eq_some h
  obtain ⟨before, after, he⟩ := List.append_of_mem hj
  have hne : ∀ k ∈ before ++ after, k.node ≠ j.node := by
    intro k hk hkj
    rw [he, List.map_append, List.map_cons, List.nodup_middle] at hn
    refine (List.nodup_cons.mp hn).1 ?_
    rw [← List.map_append, ← hkj]
    exact List.mem_map_of_mem hk
  refine ⟨before, after, he, ?_, fun k hk => ?_⟩
  · rw [dropJob, he, List.filter_append, List.filter_cons_of_neg (by simp),
      List.filter_eq_self.mpr fun k hk => by simpa using hne k (by simp [hk]),
      List.filter_eq_self.mpr fun k hk => by simpa using hne k (by simp [hk])]
  · have hmap : ∀ l : List Job, (∀ k ∈ l, k.node ≠ j.node) →
        l.map (fun m => if m.node = k.node then k else m) = l := by
      intro l hl
      refine (List.map_congr_left fun m hm => ?_).trans (List.map_id l)
      rw [if_neg (hk ▸ hl m hm), id]
    rw [setJob, he, List.map_append, List.map_cons, if_pos hk.symm,
      hmap before fun m hm => hne m (by simp [hm]), hmap after fun m hm => hne m (by simp [hm])]

end Run

namespace Site
variable {s s' : Site} {i : Nat}

theorem dispatch_eq_some (h : s.dispatch i = some s') :
    s.run.ending = none ∧ i ∈ s.run.ready ∧ ∃ n, s.run.graph.nodes[i]? = some n ∧
      s' = { s with run := { s.run with
        ready := s.run.ready.erase i
        jobs := s.run.jobs ++ [⟨i, [], n.inputs, none⟩] } } := by
  unfold dispatch at h
  split at h
  · next hc =>
      obtain ⟨n, hn, rfl⟩ := Option.map_eq_some_iff.mp h
      simp only [Bool.and_eq_true, Option.isNone_iff_eq_none, List.contains_iff_mem] at hc
      exact ⟨hc.1, hc.2, n, hn, rfl⟩
  · simp at h

theorem number_eq_some (h : s.number i = some s') :
    s.run.ending = none ∧ ∃ numbers input rest,
      s.run.job? i = some ⟨i, numbers, input :: rest, none⟩ ∧
      s' = { s with
        workspace := { s.workspace with
          identifiers := (s.workspace.identifiers.identify input).1 }
        run := s.run.setJob
          ⟨i, numbers ++ [(s.workspace.identifiers.identify input).2], rest, none⟩ } := by
  unfold number at h
  split at h
  · next hc =>
      split at h
      · next node numbers input rest hj =>
          obtain rfl : node = i := (Run.job?_eq_some hj).1
          exact ⟨by simpa using hc, numbers, input, rest, hj, (Option.some.inj h).symm⟩
      · simp at h
  · simp at h

theorem evaluate_eq_some (h : s.evaluate i = some s') :
    ∃ numbers n, s.run.job? i = some ⟨i, numbers, [], none⟩ ∧
      s.run.graph.nodes[i]? = some n ∧
      s' = { s with
        run := s.run.setJob ⟨i, numbers, [],
          some (answerOf s.workspace (s.workspace.cache s.run.request.cache) n numbers).1⟩
        journal := s.journal ++
          (answerOf s.workspace (s.workspace.cache s.run.request.cache) n numbers).2 } := by
  unfold evaluate at h
  split at h
  · next node numbers n hj hn =>
      obtain rfl : node = i := (Run.job?_eq_some hj).1
      exact ⟨numbers, n, hj, hn, (Option.some.inj h).symm⟩
  · simp at h

def settle (s : Site) (i : Nat) (n : Node) : Answer → Site
  | .unreadable e => s.fail (.dispatch e.message)
  | .ran .brokeDown => s.fail (.brokeDown "job broke down")
  | .ran (.returned values) => (s.recordReturned n values).releaseDependents i
  | .ran (.failed e) => (s.recordFailed n e).releaseDependents i

theorem record_eq_some (h : s.record i = some s') :
    s.run.ending = none ∧ ∃ numbers unnumbered answer n,
      s.run.job? i = some ⟨i, numbers, unnumbered, some answer⟩ ∧
      s.run.graph.nodes[i]? = some n ∧
      s' = { s with run := s.run.dropJob i }.settle i n answer := by
  unfold record at h
  split at h
  · next hc =>
      split at h
      · next node numbers unnumbered answer n hj hn =>
          obtain rfl : node = i := (Run.job?_eq_some hj).1
          refine ⟨by simpa using hc, numbers, unnumbered, answer, n, hj, hn, ?_⟩
          obtain rfl := Option.some.inj h
          rcases answer with e | (values | e | _) <;> rfl
      · simp at h
  · simp at h

theorem finish_eq_some (h : s.finish = some s') :
    s.run.ending = none ∧ s.run.ready = [] ∧ s.run.jobs = [] ∧
      s' = { s with
        run := { s.run with ending := some (.ok ()) }
        workspace :=
          if s.run.request.keepsStatistics then { s.workspace with statistics := s.processed }
          else s.workspace } := by
  unfold finish at h
  split at h
  · next hc =>
      simp only [Bool.and_eq_true, Option.isNone_iff_eq_none, List.isEmpty_iff] at hc
      exact ⟨hc.1.1, hc.1.2, hc.2, (Option.some.inj h).symm⟩
  · simp at h

theorem cancel_eq_some (h : s.cancel = some s') :
    s.run.ending = none ∧
      s' = { s with run := { s.run with ending := some (.error .cancelled) } } := by
  unfold cancel at h
  split at h
  · next hc => exact ⟨by simpa using hc, (Option.some.inj h).symm⟩
  · simp at h

end Site

namespace Run

/-- Releasing one node after another counts down each of them once. -/
theorem foldl_release {l : List Nat} (hl : l.Nodup) (r : Run) :
    l.foldl release r = { r with
      blocking := r.blocking.mapIdx fun k count => if k ∈ l then count - 1 else count
      ready := r.ready ++ l.filter fun k => r.blocking[k]? = some 1 } := by
  induction l generalizing r with
  | nil => simp [List.mapIdx_eq_zipIdx_map]
  | cons j l ih =>
      obtain ⟨hj, hl⟩ := List.nodup_cons.mp hl
      rw [List.foldl_cons, ih hl]
      cases hb : r.blocking[j]? with
      | none =>
          have hlen := List.getElem?_eq_none_iff.mp hb
          simp only [release, hb, List.mem_cons]
          congr 1
          · refine List.ext_getElem (by simp) fun k hk _ => ?_
            have : k ≠ j := by
              rw [List.length_mapIdx] at hk
              omega
            simp [this]
          · simp [hb]
      | some count =>
          have hlen : j < r.blocking.length := (List.getElem?_eq_some_iff.mp hb).choose
          simp only [release, hb, List.mem_cons]
          congr 1
          · refine List.ext_getElem (by simp) fun k hk _ => ?_
            by_cases hkj : k = j
            · subst hkj
              have : r.blocking[k] = count := (List.getElem?_eq_some_iff.mp hb).choose_spec
              simp [hj, this]
            · simp [hkj, List.getElem_set_ne (Ne.symm hkj)]
          · have hfilter : l.filter (fun k => (r.blocking.set j (count - 1))[k]? = some 1) =
                l.filter fun k => r.blocking[k]? = some 1 := by
              refine List.filter_congr fun k hk => ?_
              have hne : j ≠ k := fun he => hj (he ▸ hk)
              rw [List.getElem?_set_ne hne]
            rw [hfilter]
            by_cases hc : count = 1
            · subst hc
              simp [hb]
            · have : count - 1 ≠ 0 := by omega
              simp [hb, hc, this]

theorem nodup_dependents (g : Graph) (i : Nat) : (dependents g i).Nodup :=
  List.nodup_range.filter _

end Run

namespace Site
variable {s s' : Site}

theorem settle_request (s : Site) (i : Nat) (n : Node) (a : Answer) :
    (s.settle i n a).run.request = s.run.request := by
  have hrelease : ∀ s : Site, (s.releaseDependents i).run.request = s.run.request := fun s => by
    change ((Run.dependents s.run.graph i).foldl Run.release s.run).request = s.run.request
    rw [Run.foldl_release (Run.nodup_dependents _ _)]
  rcases a with e | (values | e | _)
  · rfl
  · exact hrelease _
  · exact hrelease _
  · rfl

theorem step?_request {e : RunEvent} (h : s.step? e = some s') :
    s'.run.request = s.run.request := by
  cases e with
  | dispatch i =>
      obtain ⟨-, -, n, -, rfl⟩ := dispatch_eq_some h
      rfl
  | number i =>
      obtain ⟨-, numbers, input, rest, -, rfl⟩ := number_eq_some h
      rfl
  | evaluate i =>
      obtain ⟨numbers, n, -, -, rfl⟩ := evaluate_eq_some h
      rfl
  | record i =>
      obtain ⟨-, numbers, unnumbered, a, n, -, -, rfl⟩ := record_eq_some h
      exact settle_request _ i n a
  | finish =>
      obtain ⟨-, -, -, rfl⟩ := finish_eq_some h
      rfl
  | cancel =>
      obtain ⟨-, rfl⟩ := cancel_eq_some h
      rfl

theorem step?_ending {e : RunEvent} {ending : Ending} (h : s.step? e = some s')
    (hs : s.run.ending = some ending) : s'.run.ending = some ending := by
  have hnone : s.run.ending ≠ none := by simp [hs]
  cases e with
  | evaluate i =>
      obtain ⟨numbers, n, -, -, rfl⟩ := evaluate_eq_some h
      exact hs
  | dispatch i => exact absurd (dispatch_eq_some h).1 hnone
  | number i => exact absurd (number_eq_some h).1 hnone
  | record i => exact absurd (record_eq_some h).1 hnone
  | finish => exact absurd (finish_eq_some h).1 hnone
  | cancel => exact absurd (cancel_eq_some h).1 hnone

theorem step?_statistics {e : RunEvent} {other : String} (h : s.step? e = some s')
    (hne : other ≠ s.run.graph.configuration) :
    s'.workspace.statistics.get? other = s.workspace.statistics.get? other := by
  have hcmp : compare s.run.graph.configuration other ≠ .eq := fun he =>
    hne (LawfulEqOrd.eq_of_compare he).symm
  cases e with
  | dispatch i =>
      obtain ⟨-, -, n, -, rfl⟩ := dispatch_eq_some h
      rfl
  | number i =>
      obtain ⟨-, numbers, input, rest, -, rfl⟩ := number_eq_some h
      rfl
  | evaluate i =>
      obtain ⟨numbers, n, -, -, rfl⟩ := evaluate_eq_some h
      rfl
  | record i =>
      obtain ⟨-, numbers, unnumbered, a, n, -, -, rfl⟩ := record_eq_some h
      have hfail : ∀ (t : Site) (e : ExecutionError), t.run.graph.configuration =
          s.run.graph.configuration → t.workspace = s.workspace →
          (t.fail e).workspace.statistics.get? other = s.workspace.statistics.get? other := by
        intro t e ht hw
        unfold fail
        split
        · simp [Statistics.get?, Statistics.graphFailed, ht, hw, ExtTreeMap.getElem?_insert, hcmp]
        · simp [hw]
      rcases a with e | (values | e | _)
      · exact hfail _ _ rfl rfl
      · rfl
      · rfl
      · exact hfail _ _ rfl rfl
  | finish =>
      obtain ⟨-, -, -, rfl⟩ := finish_eq_some h
      dsimp only
      split
      · simp [Statistics.get?, processed, Statistics.graphProcessed, ExtTreeMap.getElem?_insert,
          hcmp]
      · rfl
  | cancel =>
      obtain ⟨-, rfl⟩ := cancel_eq_some h
      rfl

end Site

namespace Execution
variable {x y : Execution} {c d : String} {e : RunEvent}

theorem site?_eq_some {s : Site} (h : x.site? c = some s) :
    s.workspace = x.workspace ∧ s.marks = x.marks[c]?.getD .empty ∧ x.runs[c]? = some s.run ∧
      s.journal = x.journal := by
  obtain ⟨r, hr, rfl⟩ := Option.map_eq_some_iff.mp h
  exact ⟨rfl, rfl, hr, rfl⟩

theorem site?_of_run {r : Run} (h : x.runs[c]? = some r) :
    x.site? c = some ⟨x.workspace, x.marks[c]?.getD .empty, r, x.journal⟩ := by
  simp [site?, h]

@[simp] theorem runs_restore (s : Site) (d : String) :
    (x.restore c s).runs[d]? = if d = c then some s.run else x.runs[d]? := by
  rw [restore, ExtTreeMap.getElem?_insert]
  by_cases h : d = c
  · simp [h]
  · have : compare c d ≠ .eq := fun he => h (LawfulEqOrd.eq_of_compare he).symm
    simp [h, this]

@[simp] theorem marks_restore (s : Site) (d : String) :
    (x.restore c s).marks[d]? = if d = c then some s.marks else x.marks[d]? := by
  rw [restore, ExtTreeMap.getElem?_insert]
  by_cases h : d = c
  · simp [h]
  · have : compare c d ≠ .eq := fun he => h (LawfulEqOrd.eq_of_compare he).symm
    simp [h, this]

@[simp] theorem workspace_restore (s : Site) : (x.restore c s).workspace = s.workspace := rfl

theorem site?_restore (s : Site) : (x.restore c s).site? c = some s := by
  rw [site?_of_run (r := s.run) (by simp)]
  simp
  rfl

theorem step?_eq_some (h : x.step? c e = some y) :
    ∃ s s', x.site? c = some s ∧ s.step? e = some s' ∧ y = x.restore c s' := by
  obtain ⟨s', hs, rfl⟩ := Option.map_eq_some_iff.mp h
  obtain ⟨s, hx, hs⟩ := Option.bind_eq_some_iff.mp hs
  exact ⟨s, s', hx, hs, rfl⟩

theorem step?_other (h : x.step? c e = some y) (hd : d ≠ c) :
    y.runs[d]? = x.runs[d]? ∧ y.marks[d]? = x.marks[d]? := by
  obtain ⟨s, s', -, -, rfl⟩ := step?_eq_some h
  simp [hd]

@[simp] theorem steps?_nil : x.steps? [] = some x := rfl

theorem steps?_cons (e : String × RunEvent) (es : List (String × RunEvent)) :
    x.steps? (e :: es) = (x.step? e.1 e.2).bind fun x => x.steps? es := rfl

theorem steps?_append (es fs : List (String × RunEvent)) :
    x.steps? (es ++ fs) = (x.steps? es).bind fun x => x.steps? fs := by
  induction es generalizing x with
  | nil => rfl
  | cons e es ih =>
      rw [List.cons_append, steps?_cons, steps?_cons]
      cases x.step? e.1 e.2 with
      | none => rfl
      | some x => exact ih

/-- Every graph is run under the name of its configuration. -/
def Keyed (x : Execution) : Prop :=
  ∀ (c : String) (r : Run), x.runs[c]? = some r → r.graph.configuration = c

theorem Keyed.step (hx : x.Keyed) (h : x.step? c e = some y) : y.Keyed := by
  obtain ⟨s, s', hs, he, rfl⟩ := step?_eq_some h
  intro d r hr
  rw [runs_restore] at hr
  split at hr
  · next hd =>
      obtain rfl := Option.some.inj hr
      rw [Run.graph, Site.step?_request he, hd]
      exact hx c s.run (site?_eq_some hs).2.2.1
  · exact hx d r hr

theorem step?_statistics (hx : x.Keyed) (h : x.step? c e = some y) (hd : d ≠ c) :
    y.workspace.statistics.get? d = x.workspace.statistics.get? d := by
  obtain ⟨s, s', hs, he, rfl⟩ := step?_eq_some h
  obtain ⟨hw, -, hr, -⟩ := site?_eq_some hs
  rw [workspace_restore, Site.step?_statistics he, hw]
  rwa [hx c s.run hr]

theorem step?_ending (h : x.step? c e = some y) {ending : Ending}
    (hx : x.ending? d = some ending) : y.ending? d = some ending := by
  obtain ⟨s, s', hs, he, rfl⟩ := step?_eq_some h
  unfold ending? at hx ⊢
  rw [runs_restore]
  split
  · next hd =>
      subst hd
      rw [(site?_eq_some hs).2.2.1] at hx
      exact Site.step?_ending he hx
  · exact hx

theorem steps?_ending {es : List (String × RunEvent)} (h : x.steps? es = some y)
    {ending : Ending} (hx : x.ending? d = some ending) : y.ending? d = some ending := by
  induction es generalizing x with
  | nil =>
      obtain rfl := Option.some.inj h
      exact hx
  | cons e es ih =>
      obtain ⟨x', he, h⟩ := Option.bind_eq_some_iff.mp h
      exact ih h (step?_ending he hx)

def submitAll (w : Workspace) (marks : ExtTreeMap String NodeMarks) (requests : List Request) :
    Execution := requests.foldl submit (start w marks)

theorem submitAll_frame (w : Workspace) (marks : ExtTreeMap String NodeMarks)
    (requests : List Request) : (submitAll w marks requests).workspace = w ∧
      (submitAll w marks requests).marks = marks ∧ (submitAll w marks requests).journal = [] := by
  induction requests using List.reverseRecOn with
  | nil => exact ⟨rfl, rfl, rfl⟩
  | append_singleton requests q ih =>
      rw [submitAll, List.foldl_append]
      exact ih

theorem runs_submitAll (w : Workspace) (marks : ExtTreeMap String NodeMarks)
    (requests : List Request) (hn : (requests.map fun q => q.graph.configuration).Nodup)
    (c : String) (r : Run) : (submitAll w marks requests).runs[c]? = some r ↔
      ∃ q ∈ requests, q.graph.configuration = c ∧ r = .start q := by
  induction requests using List.reverseRecOn generalizing r with
  | nil => simp [submitAll, start]
  | append_singleton requests q ih =>
      rw [List.map_append, List.nodup_append] at hn
      obtain ⟨hn, -, hd⟩ := hn
      have hstep : (submitAll w marks (requests ++ [q])).runs =
          (submitAll w marks requests).runs.insert q.graph.configuration (.start q) := by
        rw [submitAll, List.foldl_append]
        rfl
      rw [hstep, ExtTreeMap.getElem?_insert]
      by_cases hc : q.graph.configuration = c
      · subst hc
        simp only [LawfulEqOrd.compare_eq_iff_eq, reduceIte, Option.some.injEq]
        constructor
        · rintro rfl
          exact ⟨q, by simp, rfl, rfl⟩
        · rintro ⟨q', hq', he, rfl⟩
          rcases List.mem_append.mp hq' with hq' | hq'
          · exact absurd he (hd _ (List.mem_map_of_mem hq') _ (by simp))
          · rw [List.mem_singleton.mp hq']
      · rw [if_neg fun he => hc (LawfulEqOrd.eq_of_compare he), ih hn]
        constructor
        · rintro ⟨q', hq', he, rfl⟩
          exact ⟨q', by simp [hq'], he, rfl⟩
        · rintro ⟨q', hq', he, rfl⟩
          rcases List.mem_append.mp hq' with hq' | hq'
          · exact ⟨q', hq', he, rfl⟩
          · rw [List.mem_singleton.mp hq'] at he
            exact absurd he hc

theorem keyed_submitAll (w : Workspace) (marks : ExtTreeMap String NodeMarks)
    (requests : List Request) (hn : (requests.map fun q => q.graph.configuration).Nodup) :
    (submitAll w marks requests).Keyed := by
  intro c r hr
  obtain ⟨q, -, hq, rfl⟩ := (runs_submitAll w marks requests hn c r).mp hr
  exact hq

end Execution
end ValuationCycle
