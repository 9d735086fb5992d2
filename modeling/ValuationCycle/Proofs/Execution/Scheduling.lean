import Mathlib.Algebra.Order.Ring.Nat
import Mathlib.Data.List.Perm.Subperm
import ValuationCycle.Proofs.Execution.Steps
import ValuationCycle.Proofs.Graph.Built
import ValuationCycle.Proofs.Job.Answers

/-!
# Scheduling

What a run has done so far decides what it is ready for. The invariant speaks of
the events of the past: the nodes dispatched in them, in order, and the outcomes
recorded. A counter is the number of inputs without a recorded outcome, and the
nodes ready or dispatched are those whose counter is zero. Every event is paid
for by a node that is dispatched once, so a run has an end, and when it ends the
nodes dispatched are those from which no cycle is reached.
-/
namespace ValuationCycle
open Relation Std

def RunEvent.dispatched : RunEvent → List Nat
  | .dispatch i => [i]
  | _ => []

def Answer.succeeded : Answer → Bool
  | .ran (.returned _) => true
  | _ => false

def Site.recorded (s : Site) : RunEvent → List (Nat × Answer)
  | .record i => ((s.run.job? i).bind Job.answer).toList.map (i, ·)
  | _ => []

def NodeMarks.outcome (g : Graph) (m : NodeMarks) (o : Nat × Answer) : NodeMarks :=
  if o.2.succeeded then m.markExecuted g.nodes[o.1]? else m.markFailed g.nodes[o.1]?

def dispatchedIn (past : List RunEvent) : List Nat := past.flatMap RunEvent.dispatched

@[simp] theorem dispatchedIn_append (past future : List RunEvent) :
    dispatchedIn (past ++ future) = dispatchedIn past ++ dispatchedIn future :=
  List.flatMap_append

@[simp] theorem dispatchedIn_singleton (e : RunEvent) : dispatchedIn [e] = e.dispatched := by
  simp [dispatchedIn]

theorem nodup_eraseDups (l : List Nat) : l.eraseDups.Nodup := by
  induction hn : l.length using Nat.strong_induction_on generalizing l with
  | _ n ih =>
      cases l with
      | nil => simp
      | cons a l =>
          rw [List.eraseDups_cons, List.nodup_cons]
          refine ⟨by simp, ih _ ?_ _ rfl⟩
          have := List.length_filter_le (fun b => !b == a) l
          rw [List.length_cons] at hn
          omega

theorem countP_notMem_concat {l R : List Nat} {k : Nat} (hl : l.Nodup) (hk : k ∉ R) :
    l.countP (fun j => decide (j ∉ R)) =
      l.countP (fun j => decide (j ∉ R ++ [k])) + (if k ∈ l then 1 else 0) := by
  induction l with
  | nil => rfl
  | cons a l ih =>
      obtain ⟨ha, hl⟩ := List.nodup_cons.mp hl
      rw [List.countP_cons, List.countP_cons, ih hl]
      by_cases hak : a = k
      · subst hak
        simp [ha, hk]
      · have hka : k ∈ a :: l ↔ k ∈ l := by simp [Ne.symm hak]
        have haR : a ∈ R ++ [k] ↔ a ∈ R := by simp [hak]
        simp only [hka, haR]
        omega

namespace Graph

/-- How many other nodes without a recorded outcome a node takes inputs from. -/
def waiting (g : Graph) (recorded : List Nat) (i : Nat) : Nat :=
  (g.inputIndices i).eraseDups.countP fun j => decide (j ∉ recorded)

theorem waiting_eq_zero {g : Graph} {recorded : List Nat} {i : Nat} :
    g.waiting recorded i = 0 ↔ ∀ j, g.Edge i j → j ∈ recorded := by
  simp [waiting, List.countP_eq_zero, Edge]

theorem waiting_concat {g : Graph} {recorded : List Nat} {k : Nat} (hk : k ∉ recorded) (i : Nat) :
    g.waiting recorded i =
      g.waiting (recorded ++ [k]) i + (if g.Edge i k then 1 else 0) := by
  have hmem : k ∈ (g.inputIndices i).eraseDups ↔ g.Edge i k := List.mem_eraseDups
  rw [waiting, waiting, countP_notMem_concat (nodup_eraseDups _) hk, if_congr hmem rfl rfl]

/-- The events that a node takes: one to dispatch, evaluate and record it and one for
each input. -/
def work (g : Graph) (i : Nat) : Nat := (g.nodes[i]?.map fun n => n.inputs.length + 3).getD 0

theorem budget_eq (g : Graph) : Site.budget g = ((List.range g.size).map g.work).sum + 1 := by
  have hfold : ∀ nodes : List Node,
      nodes.foldr (fun n budget => n.inputs.length + 3 + budget) 1 =
        ((List.range nodes.length).map fun i =>
          (nodes[i]?.map fun n => n.inputs.length + 3).getD 0).sum + 1 := by
    intro nodes
    induction nodes with
    | nil => rfl
    | cons n nodes ih =>
        rw [List.foldr_cons, ih, List.length_cons, List.range_succ_eq_map]
        simp [Function.comp_def]
        omega
  exact hfold g.nodes

theorem sum_work_le {g : Graph} {l : List Nat} (hl : l.Nodup) (hs : ∀ i ∈ l, i < g.size) :
    (l.map g.work).sum + 1 ≤ Site.budget g := by
  have hrange : l ⊆ List.range g.size := fun i hi => List.mem_range.mpr (hs i hi)
  obtain ⟨l', hp, hsub⟩ := hl.subperm hrange
  obtain ⟨rest, hr⟩ := hsub.exists_perm_append
  have hsum := (hr.map g.work).sum_nat
  rw [List.map_append, List.sum_append_nat, (hp.map g.work).sum_nat] at hsum
  rw [budget_eq]
  omega

end Graph

theorem Run.mem_dependents {g : Graph} {i k : Nat} :
    k ∈ Run.dependents g i ↔ k < g.size ∧ g.Edge k i := by
  simp [Run.dependents, Graph.Edge]

namespace Job

def owed (j : Job) : Nat := j.unnumbered.length + if j.answer.isSome then 1 else 2

end Job

/-- What holds of a run after a row of events and the outcomes recorded in them. -/
structure Scheduled (q : Request) (past : List RunEvent) (outcomes : List (Nat × Answer))
    (r : Run) : Prop where
  request_eq : r.request = q
  blocking_eq : r.blocking = (List.range q.graph.size).map fun i =>
    (q.graph.waiting (outcomes.map Prod.fst) i : Int)
  nodup : (r.ready ++ dispatchedIn past).Nodup
  mem_iff : ∀ i, i ∈ r.ready ++ dispatchedIn past ↔
    i < q.graph.size ∧ ∀ j, q.graph.Edge i j → j ∈ outcomes.map Prod.fst
  perm : (dispatchedIn past).Perm (outcomes.map Prod.fst ++ r.jobs.map Job.node)
  ordered : ∀ before i after, dispatchedIn past = before ++ i :: after →
    ∀ j, q.graph.Edge i j → j ∈ before
  executed_eq : r.executed = outcomes.countP fun o => o.2.succeeded
  numbered : ∀ j ∈ r.jobs, j.answer.isSome = true → j.unnumbered = []
  paid : past.length + (r.jobs.map Job.owed).sum + (if r.ending = none then 1 else 0) =
    ((dispatchedIn past).map q.graph.work).sum + 1
  ended : r.ending = none ∨ r.ending = some (.ok ()) ∧ r.ready = [] ∧ r.jobs = []
  finished : past.count .finish = if r.ending = none then 0 else 1

theorem scheduled_start (q : Request) : Scheduled q [] [] (.start q) := by
  have hblocking : Run.inputCounts q.graph = (List.range q.graph.size).map fun i =>
      (q.graph.waiting [] i : Int) := by
    refine List.map_congr_left fun i _ => ?_
    simp [Graph.waiting]
  have hready : ∀ i, i ∈ (Run.start q).ready ↔
      i < q.graph.size ∧ ∀ j, q.graph.Edge i j → j ∈ ([] : List Nat) := by
    intro i
    rw [← Graph.waiting_eq_zero]
    simp only [Run.start, hblocking, List.mem_filter, List.mem_range, List.getElem?_map]
    refine and_congr_right fun hi => ?_
    simp [hi]
  refine ⟨rfl, hblocking, ?_, ?_, by simp [dispatchedIn, Run.start], ?_, rfl, ?_, rfl, .inl rfl,
    rfl⟩
  · simpa [dispatchedIn, Run.start] using List.nodup_range.filter _
  · simpa [dispatchedIn] using hready
  · exact fun before i after he => by simp [dispatchedIn] at he
  · exact fun j hj => by simp [Run.start] at hj

namespace Scheduled
variable {q : Request} {past : List RunEvent} {outcomes : List (Nat × Answer)}
variable {s s' : Site} {i : Nat}

theorem lt_size {r : Run} (h : Scheduled q past outcomes r) (hi : i ∈ dispatchedIn past) :
    i < q.graph.size := ((h.mem_iff i).mp (by simp [hi])).1

theorem nodup_jobs {r : Run} (h : Scheduled q past outcomes r) :
    (r.jobs.map Job.node).Nodup :=
  (List.nodup_append.mp ((h.perm.nodup_iff).mp (List.nodup_append.mp h.nodup).2.1)).2.1

theorem running_of_job {r : Run} (h : Scheduled q past outcomes r) {j : Job} (hj : j ∈ r.jobs) :
    r.ending = none := by
  refine h.ended.resolve_right ?_
  rintro ⟨-, -, he⟩
  simp [he] at hj

theorem dispatch (h : Scheduled q past outcomes s.run) (hs : s.dispatch i = some s') :
    Scheduled q (past ++ [.dispatch i]) outcomes s'.run := by
  obtain ⟨hrun, hi, n, hn, rfl⟩ := Site.dispatch_eq_some hs
  rw [Run.graph, h.request_eq] at hn
  have hpast : dispatchedIn (past ++ [.dispatch i]) = dispatchedIn past ++ [i] := by
    simp [RunEvent.dispatched]
  have hperm : (s.run.ready.erase i ++ (dispatchedIn past ++ [i])).Perm
      (s.run.ready ++ dispatchedIn past) := by
    refine List.Perm.trans ?_ ((List.perm_cons_erase hi).symm.append_right _)
    rw [← List.append_assoc]
    exact List.perm_append_singleton i _
  refine ⟨h.request_eq, h.blocking_eq, ?_, ?_, ?_, ?_, h.executed_eq, ?_, ?_, ?_, ?_⟩
  · rw [hpast]
    exact hperm.nodup_iff.mpr h.nodup
  · intro k
    rw [hpast, hperm.mem_iff]
    exact h.mem_iff k
  · rw [hpast, List.map_append, ← List.append_assoc]
    exact h.perm.append_right [i]
  · intro before k after he j hj
    rw [hpast] at he
    rcases List.eq_nil_or_concat after with rfl | ⟨after, a, rfl⟩
    · obtain ⟨rfl, rfl⟩ : dispatchedIn past = before ∧ i = k := by simpa using he
      refine h.perm.mem_iff.mpr (List.mem_append_left _ ?_)
      exact ((h.mem_iff i).mp (by simp [hi])).2 j hj
    · rw [List.concat_eq_append, ← List.cons_append, ← List.append_assoc] at he
      obtain ⟨he, -⟩ := List.append_inj' he rfl
      exact h.ordered before k after he j hj
  · intro j hj ha
    rcases List.mem_append.mp hj with hj | hj
    · exact h.numbered j hj ha
    · obtain rfl := List.mem_singleton.mp hj
      simp at ha
  · have := h.paid
    simp only [hpast, List.map_append, List.sum_append_nat, List.length_append, hrun, reduceIte,
      List.map_cons, List.map_nil, List.length_cons, List.length_nil] at this ⊢
    simp [Job.owed, Graph.work, hn]
    omega
  · exact .inl hrun
  · simpa [hrun] using h.finished

theorem work {r : Run} {old : Job} {before after : List Job} (e : RunEvent) (new : Job)
    (h : Scheduled q past outcomes r) (hj : r.jobs = before ++ old :: after)
    (he : e.dispatched = []) (hf : e ≠ .finish) (hnode : new.node = old.node)
    (howed : old.owed = new.owed + 1) (hnew : new.answer.isSome = true → new.unnumbered = []) :
    Scheduled q (past ++ [e]) outcomes { r with jobs := before ++ new :: after } := by
  have hpast : dispatchedIn (past ++ [e]) = dispatchedIn past := by simp [he]
  have hrun : r.ending = none := h.running_of_job (j := old) (by simp [hj])
  refine ⟨h.request_eq, h.blocking_eq, ?_, ?_, ?_, ?_, h.executed_eq, ?_, ?_, .inl hrun, ?_⟩
  · rw [hpast]
    exact h.nodup
  · rw [hpast]
    exact h.mem_iff
  · rw [hpast]
    simpa [hj, hnode] using h.perm
  · rw [hpast]
    exact h.ordered
  · intro j hm
    simp only [List.mem_append, List.mem_cons] at hm
    rcases hm with hm | rfl | hm
    · exact h.numbered j (by simp [hj, hm])
    · exact hnew
    · exact h.numbered j (by simp [hj, hm])
  · have := h.paid
    rw [hpast]
    simp only [hj, List.map_append, List.map_cons, List.sum_append_nat, List.sum_cons,
      List.length_append, List.length_cons, List.length_nil] at this ⊢
    omega
  · have := h.finished
    simpa [hrun, List.count_append, List.count_singleton, hf] using this

theorem number (h : Scheduled q past outcomes s.run) (hs : s.number i = some s') :
    Scheduled q (past ++ [.number i]) outcomes s'.run := by
  obtain ⟨hrun, numbers, input, rest, hj, rfl⟩ := Site.number_eq_some hs
  obtain ⟨before, after, he, -, hset⟩ := Run.job?_split hj h.nodup_jobs
  have := work (.number i) ⟨i, numbers ++
    [(s.workspace.identifiers.identify input).2], rest, none⟩ h he rfl (by simp) rfl
    (by simp [Job.owed]) (by simp)
  rwa [← hset _ rfl] at this

theorem evaluate (h : Scheduled q past outcomes s.run) (hs : s.evaluate i = some s') :
    Scheduled q (past ++ [.evaluate i]) outcomes s'.run := by
  obtain ⟨numbers, n, hj, hn, rfl⟩ := Site.evaluate_eq_some hs
  obtain ⟨before, after, he, -, hset⟩ := Run.job?_split hj h.nodup_jobs
  have := work (.evaluate i) ⟨i, numbers, [], some (Site.answerOf s.workspace
    (s.workspace.cache s.run.request.cache) n numbers).1⟩ h he rfl (by simp) rfl
    (by simp [Job.owed]) (by simp)
  rwa [← hset _ rfl] at this

theorem notMem_outcomes {r : Run} (h : Scheduled q past outcomes r) {j : Job} (hj : j ∈ r.jobs) :
    j.node ∉ outcomes.map Prod.fst := by
  intro hm
  have hnodup := h.perm.nodup_iff.mp (List.nodup_append.mp h.nodup).2.1
  exact (List.nodup_append.mp hnodup).2.2 _ hm _ (List.mem_map_of_mem hj) rfl

/-- One more outcome is one less to wait for at the nodes that depend on its node. -/
theorem blocking_released {r : Run} (h : Scheduled q past outcomes r)
    (hi : i ∉ outcomes.map Prod.fst) :
    (r.blocking.mapIdx fun k count =>
        if k ∈ Run.dependents q.graph i then count - 1 else count) =
      (List.range q.graph.size).map fun k =>
        (q.graph.waiting (outcomes.map Prod.fst ++ [i]) k : Int) := by
  refine List.ext_getElem (by simp [h.blocking_eq]) fun k hk _ => ?_
  have hsize : k < q.graph.size := by simpa [h.blocking_eq] using hk
  have hwait := Graph.waiting_concat (g := q.graph) hi k
  simp only [List.getElem_mapIdx, h.blocking_eq, List.getElem_map, List.getElem_range,
    Run.mem_dependents]
  by_cases he : q.graph.Edge k i
  · rw [if_pos he] at hwait
    simp only [hsize, he, and_self, reduceIte]
    omega
  · rw [if_neg he] at hwait
    simp [he, hwait]

/-- The nodes released are those for which the outcome was the last to wait for. -/
theorem mem_released {r : Run} (h : Scheduled q past outcomes r)
    (hi : i ∉ outcomes.map Prod.fst) (k : Nat) :
    k ∈ (Run.dependents q.graph i).filter (fun k => r.blocking[k]? = some 1) ↔
      k < q.graph.size ∧ q.graph.Edge k i ∧
        q.graph.waiting (outcomes.map Prod.fst ++ [i]) k = 0 := by
  rw [List.mem_filter, Run.mem_dependents, and_assoc, decide_eq_true_iff]
  refine and_congr_right fun hk => and_congr_right fun he => ?_
  have hwait := Graph.waiting_concat (g := q.graph) hi k
  rw [if_pos he] at hwait
  simp only [h.blocking_eq, List.getElem?_map, List.getElem?_range hk, Option.map_some,
    Option.some.injEq]
  omega

theorem mem_ready_released {r : Run} (h : Scheduled q past outcomes r)
    (hi : i ∉ outcomes.map Prod.fst) (k : Nat) :
    k ∈ (r.ready ++ (Run.dependents q.graph i).filter fun k => r.blocking[k]? = some 1) ++
        dispatchedIn past ↔
      k < q.graph.size ∧ q.graph.waiting (outcomes.map Prod.fst ++ [i]) k = 0 := by
  rw [List.append_assoc, List.mem_append, List.mem_append, h.mem_released hi]
  have hold := h.mem_iff k
  rw [← Graph.waiting_eq_zero, List.mem_append] at hold
  have hwait := Graph.waiting_concat (g := q.graph) hi k
  by_cases he : q.graph.Edge k i
  · rw [if_pos he] at hwait
    have hno : ¬(k ∈ r.ready ∨ k ∈ dispatchedIn past) := fun hm => by
      have := (hold.mp hm).2
      omega
    grind
  · rw [if_neg he, Nat.add_zero] at hwait
    rw [← hwait, ← hold]
    grind

theorem nodup_released {r : Run} (h : Scheduled q past outcomes r)
    (hi : i ∉ outcomes.map Prod.fst) :
    ((r.ready ++ (Run.dependents q.graph i).filter fun k => r.blocking[k]? = some 1) ++
      dispatchedIn past).Nodup := by
  rw [List.append_assoc]
  refine (List.Perm.append_left _ List.perm_append_comm).nodup_iff.mpr ?_
  rw [← List.append_assoc]
  refine List.nodup_append.mpr ⟨h.nodup, (Run.nodup_dependents _ _).filter _, ?_⟩
  rintro k hk _ hm rfl
  obtain ⟨-, he, -⟩ := (h.mem_released hi k).mp hm
  exact hi (((h.mem_iff k).mp hk).2 _ he)

theorem release {r : Run} {old : Job} {before after : List Job} {answer : Answer}
    (h : Scheduled q past outcomes r) (hj : r.jobs = before ++ old :: after)
    (hanswer : old.answer = some answer) :
    Scheduled q (past ++ [.record old.node]) (outcomes ++ [(old.node, answer)])
      (Run.releaseDependents { r with
        jobs := before ++ after
        executed := r.executed + if answer.succeeded then 1 else 0 } old.node) := by
  have hpast : dispatchedIn (past ++ [.record old.node]) = dispatchedIn past := by
    simp [RunEvent.dispatched]
  have hold : old ∈ r.jobs := by simp [hj]
  have hrun : r.ending = none := h.running_of_job hold
  have hmap : (outcomes ++ [(old.node, answer)]).map Prod.fst =
      outcomes.map Prod.fst ++ [old.node] := by simp
  have hnew := h.notMem_outcomes hold
  unfold Run.releaseDependents Run.graph
  rw [h.request_eq, Run.foldl_release (Run.nodup_dependents _ _)]
  refine ⟨rfl, ?_, ?_, ?_, ?_, ?_, ?_, ?_, ?_, .inl hrun, ?_⟩
  · rw [hmap]
    exact h.blocking_released hnew
  · rw [hpast]
    exact h.nodup_released hnew
  · intro k
    rw [hpast, hmap, ← Graph.waiting_eq_zero]
    exact h.mem_ready_released hnew k
  · rw [hpast, hmap, List.append_assoc]
    refine h.perm.trans ?_
    rw [hj]
    simp only [List.map_append, List.map_cons]
    exact List.Perm.append_left _ List.perm_middle
  · rw [hpast]
    exact h.ordered
  · rw [h.executed_eq, List.countP_append, List.countP_singleton]
  · intro j hm
    refine h.numbered j ?_
    rw [hj]
    rcases List.mem_append.mp hm with hm | hm <;> simp [hm]
  · have hpaid := h.paid
    have howed : old.owed = 1 := by
      simp [Job.owed, hanswer, h.numbered old hold (by simp [hanswer])]
    rw [hpast]
    simp only [hj, List.map_append, List.map_cons, List.sum_append_nat, List.sum_cons,
      List.length_append, List.length_cons, List.length_nil, howed] at hpaid ⊢
    omega
  · simpa [hrun] using h.finished

theorem record (h : Scheduled q past outcomes s.run) (hs : s.record i = some s')
    (hok : ∀ e, s'.run.ending ≠ some (.error e)) :
    Scheduled q (past ++ [.record i]) (outcomes ++ s.recorded (.record i)) s'.run := by
  obtain ⟨-, numbers, unnumbered, answer, n, hj, -, rfl⟩ := Site.record_eq_some hs
  obtain ⟨before, after, he, hdrop, -⟩ := Run.job?_split hj h.nodup_jobs
  have hrelease := h.release he rfl
  have hout : s.recorded (.record i) = [(i, answer)] := by simp [Site.recorded, hj]
  rw [hout]
  rw [← hdrop] at hrelease
  rcases answer with e | (values | e | _)
  · exact absurd rfl (hok (.dispatch e.message))
  · exact hrelease
  · exact hrelease
  · exact absurd rfl (hok (.brokeDown "job broke down"))

theorem finish (h : Scheduled q past outcomes s.run) (hs : s.finish = some s') :
    Scheduled q (past ++ [.finish]) outcomes s'.run := by
  obtain ⟨hrun, hready, hjobs, rfl⟩ := Site.finish_eq_some hs
  have hpast : dispatchedIn (past ++ [.finish]) = dispatchedIn past := by simp [RunEvent.dispatched]
  refine ⟨h.request_eq, h.blocking_eq, ?_, ?_, ?_, ?_, h.executed_eq, h.numbered, ?_,
    .inr ⟨rfl, hready, hjobs⟩, ?_⟩
  · rw [hpast]
    exact h.nodup
  · rw [hpast]
    exact h.mem_iff
  · rw [hpast]
    exact h.perm
  · rw [hpast]
    exact h.ordered
  · have := h.paid
    rw [hpast]
    simp only [hrun, reduceIte, List.length_append, List.length_cons, List.length_nil,
      reduceCtorEq] at this ⊢
    omega
  · have := h.finished
    simpa [hrun] using this

/-- Every event keeps the invariant, unless it ends the run in an error. -/
theorem step {e : RunEvent} (h : Scheduled q past outcomes s.run) (hs : s.step? e = some s')
    (hok : ∀ err, s'.run.ending ≠ some (.error err)) :
    Scheduled q (past ++ [e]) (outcomes ++ s.recorded e) s'.run := by
  cases e with
  | dispatch i => simpa [Site.recorded] using h.dispatch hs
  | number i => simpa [Site.recorded] using h.number hs
  | evaluate i => simpa [Site.recorded] using h.evaluate hs
  | record i => exact h.record hs hok
  | finish => simpa [Site.recorded] using h.finish hs
  | cancel =>
      obtain ⟨-, rfl⟩ := Site.cancel_eq_some hs
      exact absurd rfl (hok .cancelled)

theorem progress (h : Scheduled q past outcomes s.run) (hrun : s.run.ending = none) :
    ∃ e, e ≠ .cancel ∧ (s.step? e).isSome = true := by
  have hnode : ∀ i ∈ s.run.ready ++ dispatchedIn past, ∃ n, s.run.graph.nodes[i]? = some n := by
    intro i hi
    rw [Run.graph, h.request_eq]
    exact ⟨_, List.getElem?_eq_getElem ((h.mem_iff i).mp hi).1⟩
  cases hready : s.run.ready with
  | cons i rest =>
      obtain ⟨n, hn⟩ := hnode i (by simp [hready])
      refine ⟨.dispatch i, by simp, ?_⟩
      simp [Site.step?, Site.dispatch, hrun, hready, hn]
  | nil =>
      cases hjobs : s.run.jobs with
      | nil =>
          refine ⟨.finish, by simp, ?_⟩
          simp [Site.step?, Site.finish, hrun, hready, hjobs]
      | cons j rest =>
          obtain ⟨⟨i, numbers, unnumbered, answer⟩, hk⟩ :=
            Run.exists_job? (r := s.run) (j := j) (by simp [hjobs])
          obtain ⟨hi, hmem⟩ := Run.job?_eq_some hk
          obtain ⟨n, hn⟩ := hnode i (List.mem_append_right _ (h.perm.mem_iff.mpr
            (List.mem_append_right _ (List.mem_map_of_mem hmem))))
          rw [← hi] at hk
          cases answer with
          | some answer =>
              refine ⟨.record i, by simp, ?_⟩
              simp [Site.step?, Site.record, hrun, hk, hn]
          | none =>
              cases unnumbered with
              | nil =>
                  refine ⟨.evaluate i, by simp, ?_⟩
                  simp [Site.step?, Site.evaluate, hk, hn]
              | cons input rest =>
                  refine ⟨.number i, by simp, ?_⟩
                  simp [Site.step?, Site.number, hrun, hk]

theorem length_le {r : Run} (h : Scheduled q past outcomes r) :
    past.length ≤ Site.budget q.graph := by
  have hpaid := h.paid
  have hwork := Graph.sum_work_le (List.nodup_append.mp h.nodup).2.1 fun i hi => h.lt_size hi
  omega

/-- When nothing is ready and no job is left, the nodes dispatched are those from which
every way along edges ends. -/
theorem mem_dispatched_iff {r : Run} (hg : q.graph.Consistent) (h : Scheduled q past outcomes r)
    (hready : r.ready = []) (hjobs : r.jobs = []) (i : Nat) :
    i ∈ dispatchedIn past ↔ i < q.graph.size ∧ q.graph.Grounded i := by
  have hperm : (dispatchedIn past).Perm (outcomes.map Prod.fst) := by simpa [hjobs] using h.perm
  have hiff : ∀ i, i ∈ dispatchedIn past ↔
      i < q.graph.size ∧ ∀ j, q.graph.Edge i j → j ∈ dispatchedIn past := by
    intro i
    simpa [hready, hperm.mem_iff] using h.mem_iff i
  constructor
  · intro hi
    refine ⟨h.lt_size hi, fun k hk hcycle => ?_⟩
    have hreach : ∀ {a b}, TransGen q.graph.Edge a b → a ∈ dispatchedIn past →
        b ∈ dispatchedIn past ∧ (dispatchedIn past).idxOf b < (dispatchedIn past).idxOf a := by
      have hedge : ∀ a b, q.graph.Edge a b → a ∈ dispatchedIn past →
          b ∈ dispatchedIn past ∧ (dispatchedIn past).idxOf b < (dispatchedIn past).idxOf a := by
        intro a b hab ha
        obtain ⟨before, after, he, hbefore⟩ := List.eq_append_cons_of_mem ha
        have hb := h.ordered before a after he b hab
        rw [he, List.idxOf_append_of_mem hb, List.idxOf_append_of_notMem hbefore]
        have := List.idxOf_lt_length_of_mem hb
        exact ⟨by simp [hb], by omega⟩
      intro a b hab ha
      induction hab with
      | single hab => exact hedge _ _ hab ha
      | tail _ hbc ih =>
          obtain ⟨hb, hlt⟩ := ih
          obtain ⟨hc, hlt'⟩ := hedge _ _ hbc hb
          exact ⟨hc, by omega⟩
    have hmem : k ∈ dispatchedIn past := by
      rcases Relation.reflTransGen_iff_eq_or_transGen.mp hk with rfl | hk
      · exact hi
      · exact (hreach hk hi).1
    exact absurd (hreach hcycle hmem).2 (Nat.lt_irrefl _)
  · rintro ⟨hi, hground⟩
    exact hground.induction hg (fun j hj _ ih => (hiff j).mpr ⟨hj, ih⟩) hi

end Scheduled

namespace Site
variable {s s' : Site} {e : RunEvent}

theorem step?_marks (hs : s.step? e = some s')
    (hok : ∀ err, s'.run.ending ≠ some (.error err)) :
    s'.marks = (s.recorded e).foldl (NodeMarks.outcome s.run.graph) s.marks := by
  cases e with
  | dispatch i =>
      obtain ⟨-, -, n, -, rfl⟩ := dispatch_eq_some hs
      rfl
  | number i =>
      obtain ⟨-, numbers, input, rest, -, rfl⟩ := number_eq_some hs
      rfl
  | evaluate i =>
      obtain ⟨numbers, n, -, -, rfl⟩ := evaluate_eq_some hs
      rfl
  | record i =>
      obtain ⟨-, numbers, unnumbered, answer, n, hj, hn, rfl⟩ := record_eq_some hs
      have hout : s.recorded (.record i) = [(i, answer)] := by simp [recorded, hj]
      rw [hout]
      rcases answer with e | (values | e | _)
      · exact absurd rfl (hok (.dispatch e.message))
      · simp [Answer.succeeded, NodeMarks.outcome, hn, settle, releaseDependents, recordReturned]
      · simp [Answer.succeeded, NodeMarks.outcome, hn, settle, releaseDependents, recordFailed]
      · exact absurd rfl (hok (.brokeDown "job broke down"))
  | finish =>
      obtain ⟨-, -, -, rfl⟩ := finish_eq_some hs
      rfl
  | cancel =>
      obtain ⟨-, rfl⟩ := cancel_eq_some hs
      rfl

theorem step?_processed (hs : s.step? e = some s')
    (hok : ∀ err, s'.run.ending ≠ some (.error err)) :
    s'.workspace.statistics =
      if e = .finish ∧ s.run.request.keepsStatistics = true then s.processed
      else s.workspace.statistics := by
  cases e with
  | dispatch i =>
      obtain ⟨-, -, n, -, rfl⟩ := dispatch_eq_some hs
      simp
  | number i =>
      obtain ⟨-, numbers, input, rest, -, rfl⟩ := number_eq_some hs
      simp
  | evaluate i =>
      obtain ⟨numbers, n, -, -, rfl⟩ := evaluate_eq_some hs
      simp
  | record i =>
      obtain ⟨-, numbers, unnumbered, answer, n, -, -, rfl⟩ := record_eq_some hs
      rcases answer with e | (values | e | _)
      · exact absurd rfl (hok (.dispatch e.message))
      · simp [settle, releaseDependents, recordReturned, Workspace.updateCache]
      · simp [settle, releaseDependents, recordFailed]
      · exact absurd rfl (hok (.brokeDown "job broke down"))
  | finish =>
      obtain ⟨-, -, -, rfl⟩ := finish_eq_some hs
      dsimp only
      split <;> simp [*]
  | cancel =>
      obtain ⟨-, rfl⟩ := cancel_eq_some hs
      simp

end Site

theorem Statistics.get?_graphProcessed_congr {s t : Statistics} {c : String}
    (h : s.get? c = t.get? c) (nodes executed nanoseconds : Nat) :
    (s.graphProcessed c nodes executed nanoseconds).get? c =
      (t.graphProcessed c nodes executed nanoseconds).get? c := by
  simp only [graphProcessed, h]
  simp [get?]

def eventsOf (c : String) (es : List (String × RunEvent)) : List RunEvent :=
  es.filterMap fun e => if e.1 = c then some e.2 else none

namespace Execution

def recorded (c : String) : Execution → List (String × RunEvent) → List (Nat × Answer)
  | _, [] => []
  | x, e :: es =>
    (if e.1 = c then ((x.site? c).map fun s => s.recorded e.2).getD [] else []) ++
      ((x.step? e.1 e.2).map fun x => x.recorded c es).getD []

theorem recorded_append {x y : Execution} {c : String} {es fs : List (String × RunEvent)}
    (h : x.steps? es = some y) : x.recorded c (es ++ fs) = x.recorded c es ++ y.recorded c fs := by
  induction es generalizing x with
  | nil =>
      obtain rfl := Option.some.inj h
      rfl
  | cons e es ih =>
      rw [steps?_cons] at h
      obtain ⟨x', he, h⟩ := Option.bind_eq_some_iff.mp h
      simp [recorded, he, ih h]

structure Underway (c : String) (q : Request) (statistics : Statistics) (marks : NodeMarks)
    (past : List RunEvent) (outcomes : List (Nat × Answer)) (x : Execution) : Prop where
  run : ∃ r, x.runs[c]? = some r ∧ Scheduled q past outcomes r
  marks_eq : x.marks[c]?.getD .empty = outcomes.foldl (NodeMarks.outcome q.graph) marks
  statistics_eq : x.workspace.statistics.get? c =
    if .finish ∈ past ∧ q.keepsStatistics = true then
      (statistics.graphProcessed c q.graph.size (outcomes.countP fun o => o.2.succeeded) 0).get? c
    else statistics.get? c

variable {c : String} {q : Request} {statistics : Statistics} {marks : NodeMarks}
  {past : List RunEvent} {outcomes : List (Nat × Answer)} {x y : Execution}

theorem Underway.other {d : String} {e : RunEvent} (hx : x.Keyed)
    (h : Underway c q statistics marks past outcomes x) (hs : x.step? d e = some y) (hd : c ≠ d) :
    Underway c q statistics marks past outcomes y := by
  obtain ⟨r, hr, hsched⟩ := h.run
  obtain ⟨hruns, hmarks⟩ := step?_other hs hd
  refine ⟨⟨r, hruns.trans hr, hsched⟩, ?_, ?_⟩
  · rw [hmarks, h.marks_eq]
  · rw [step?_statistics hx hs hd, h.statistics_eq]

theorem Underway.own {e : RunEvent} (hq : q.graph.configuration = c)
    (h : Underway c q statistics marks past outcomes x) (hs : x.step? c e = some y)
    (hok : ∀ err, y.ending? c ≠ some (.error err)) :
    Underway c q statistics marks (past ++ [e])
      (outcomes ++ ((x.site? c).map fun s => s.recorded e).getD []) y := by
  obtain ⟨s, s', hsite, he, rfl⟩ := step?_eq_some hs
  obtain ⟨r, hr, hsched⟩ := h.run
  obtain ⟨hw, hm, hrun, -⟩ := site?_eq_some hsite
  obtain rfl := Option.some.inj (hr.symm.trans hrun)
  have hok' : ∀ err, s'.run.ending ≠ some (.error err) := by
    intro err
    simpa [ending?] using hok err
  have hnext := hsched.step he hok'
  rw [hsite]
  refine ⟨⟨s'.run, by simp, hnext⟩, ?_, ?_⟩
  · simp only [marks_restore, reduceIte, Option.map_some, Option.getD_some, List.foldl_append]
    rw [Site.step?_marks he hok', hm, h.marks_eq, Run.graph, hsched.request_eq]
  · have hnofinish : e = .finish → .finish ∉ past := by
      rintro rfl
      have hf := hsched.finished
      rw [(Site.finish_eq_some he).1, if_pos rfl] at hf
      exact List.count_eq_zero.mp hf
    have hended : .finish ∈ past → s.recorded e = [] := by
      intro hf
      cases e with
      | record i =>
          have hcount := hsched.finished
          rw [(Site.record_eq_some he).1, if_pos rfl] at hcount
          exact absurd hf (List.count_eq_zero.mp hcount)
      | _ => rfl
    have hstat := h.statistics_eq
    rw [workspace_restore, Site.step?_processed he hok', hsched.request_eq, hw]
    by_cases hf : e = .finish
    · subst hf
      by_cases hk : q.keepsStatistics = true
      · rw [if_neg fun hp => hnofinish rfl hp.1] at hstat
        have hout : s.recorded .finish = [] := rfl
        simp only [hk, and_self, reduceIte, List.mem_append, List.mem_singleton, or_true]
        rw [Site.processed, Run.graph, hsched.request_eq, hq, hsched.executed_eq, hw]
        simpa [hout] using Statistics.get?_graphProcessed_congr hstat _ _ _
      · simpa [hk] using hstat
    · have hmem : .finish ∈ past ++ [e] ↔ .finish ∈ past := by simp [Ne.symm hf]
      rw [if_neg fun hp => hf hp.1, hstat, if_congr (and_congr_left' hmem) rfl rfl]
      split
      · next hp => simp [hended hp.1]
      · rfl

/-- Whatever events of other configurations come between those of one. -/
theorem Underway.steps {es : List (String × RunEvent)} (hx : x.Keyed)
    (hq : q.graph.configuration = c) (h : Underway c q statistics marks past outcomes x)
    (hs : x.steps? es = some y) (hok : ∀ err, y.ending? c ≠ some (.error err)) :
    Underway c q statistics marks (past ++ eventsOf c es) (outcomes ++ x.recorded c es) y := by
  induction es generalizing x past outcomes with
  | nil =>
      obtain rfl := Option.some.inj hs
      simpa [eventsOf, recorded] using h
  | cons e es ih =>
      obtain ⟨d, e⟩ := e
      rw [steps?_cons] at hs
      obtain ⟨x', he, hs⟩ := Option.bind_eq_some_iff.mp hs
      have hok' : ∀ err, x'.ending? c ≠ some (.error err) := fun err herr =>
        hok err (steps?_ending hs herr)
      by_cases hd : d = c
      · subst hd
        have := ih (hx.step he) (h.own hq he hok') hs
        simpa [eventsOf, recorded, he] using this
      · have := ih (hx.step he) (h.other hx he (Ne.symm hd)) hs
        simpa [eventsOf, recorded, he, hd] using this

theorem underway_submitAll (w : Workspace) (m : ExtTreeMap String NodeMarks)
    {requests : List Request} (hn : (requests.map fun q => q.graph.configuration).Nodup)
    (hq : q ∈ requests) :
    Underway q.graph.configuration q w.statistics (m[q.graph.configuration]?.getD .empty) [] []
      (submitAll w m requests) := by
  obtain ⟨hw, hm, -⟩ := submitAll_frame w m requests
  refine ⟨⟨.start q, ?_, scheduled_start q⟩, ?_, ?_⟩
  · exact (runs_submitAll w m requests hn _ _).mpr ⟨q, hq, rfl, rfl⟩
  · rw [hm]
    rfl
  · simp [hw]

/-- However the events of configurations interleave and whatever functions make of their
jobs: as long as no job breaks down or fails to be sent and nothing is cancelled, no
counter falls below zero, and a node is dispatched once at most, after the outcomes of
all other nodes it takes inputs from. The run has an end and does not get stuck before
it. At its end exactly the nodes from which no cycle is reached have been dispatched and
have an outcome, and one record of the graph's size and the nodes executed is made. -/
theorem schedule_sound_and_complete (w : Workspace) (m : ExtTreeMap String NodeMarks)
    (requests : List Request) (hn : (requests.map fun q => q.graph.configuration).Nodup)
    (q : Request) (hq : q ∈ requests) (hg : q.graph.Built) (c : String)
    (hc : q.graph.configuration = c) (es : List (String × RunEvent)) (y : Execution)
    (hs : (submitAll w m requests).steps? es = some y)
    (hok : ∀ err, y.ending? c ≠ some (.error err)) :
    ∃ r, y.runs[c]? = some r ∧
      (∀ count ∈ r.blocking, 0 ≤ count) ∧
      (dispatchedIn (eventsOf c es)).Nodup ∧
      (∀ before i after, es = before ++ (c, .dispatch i) :: after → ∀ j, q.graph.Edge i j →
        j ∈ ((submitAll w m requests).recorded c before).map Prod.fst) ∧
      (eventsOf c es).length ≤ Site.budget q.graph ∧
      (r.ending = none → ∃ e, e ≠ .cancel ∧ (y.step? c e).isSome = true) ∧
      y.marks[c]?.getD .empty = ((submitAll w m requests).recorded c es).foldl
        (NodeMarks.outcome q.graph) (m[c]?.getD .empty) ∧
      (r.ending ≠ none → (∀ i, i ∈ dispatchedIn (eventsOf c es) ↔
          i < q.graph.size ∧ q.graph.Grounded i) ∧
        (((submitAll w m requests).recorded c es).map Prod.fst).Perm
          (dispatchedIn (eventsOf c es)) ∧
        (q.graph.Acyclic → (((submitAll w m requests).recorded c es).map Prod.fst).Perm
          (List.range q.graph.size))) ∧
      (eventsOf c es).count .finish = (if r.ending = none then 0 else 1) ∧
      y.workspace.statistics.get? c =
        if r.ending ≠ none ∧ q.keepsStatistics = true then
          (w.statistics.graphProcessed c q.graph.size
            (((submitAll w m requests).recorded c es).countP fun o => o.2.succeeded) 0).get? c
        else w.statistics.get? c := by
  subst hc
  have hkeyed := keyed_submitAll w m requests hn
  have hstart := underway_submitAll w m hn hq
  have hy := hstart.steps hkeyed rfl hs hok
  simp only [List.nil_append] at hy
  obtain ⟨r, hr, h⟩ := hy.run
  refine ⟨r, hr, ?_, (List.nodup_append.mp h.nodup).2.1, ?_, h.length_le, ?_, hy.marks_eq, ?_,
    h.finished, ?_⟩
  · intro count hcount
    rw [h.blocking_eq, List.mem_map] at hcount
    obtain ⟨i, -, rfl⟩ := hcount
    omega
  · rintro before i after rfl j hj
    rw [steps?_append] at hs
    obtain ⟨x, hx, hs⟩ := Option.bind_eq_some_iff.mp hs
    have hx' := hstart.steps hkeyed rfl hx fun err herr => hok err (steps?_ending hs herr)
    simp only [List.nil_append] at hx'
    obtain ⟨r', hr', h'⟩ := hx'.run
    rw [steps?_cons] at hs
    obtain ⟨x', he, -⟩ := Option.bind_eq_some_iff.mp hs
    obtain ⟨s, s', hsite, he, -⟩ := step?_eq_some he
    obtain rfl := Option.some.inj (hr'.symm.trans (site?_eq_some hsite).2.2.1)
    have hi := (Site.dispatch_eq_some he).2.1
    exact ((h'.mem_iff i).mp (List.mem_append_left _ hi)).2 j hj
  · intro hrun
    obtain ⟨e, he, hstep⟩ := Scheduled.progress
      (s := ⟨y.workspace, y.marks[q.graph.configuration]?.getD .empty, r, y.journal⟩) h hrun
    refine ⟨e, he, ?_⟩
    rw [step?, site?_of_run hr]
    simpa using hstep
  · intro hrun
    obtain ⟨-, hready, hjobs⟩ := h.ended.resolve_left hrun
    have hperm : (((submitAll w m requests).recorded q.graph.configuration es).map Prod.fst).Perm
        (dispatchedIn (eventsOf q.graph.configuration es)) := by
      simpa [hjobs] using h.perm.symm
    have hmem := h.mem_dispatched_iff hg.consistent hready hjobs
    refine ⟨hmem, hperm, fun hacyclic => hperm.trans ?_⟩
    refine (List.perm_ext_iff_of_nodup (List.nodup_append.mp h.nodup).2.1
      List.nodup_range).mpr fun i => ?_
    rw [hmem, List.mem_range]
    exact and_iff_left (hacyclic.grounded i)
  · have hfinish : .finish ∈ eventsOf q.graph.configuration es ↔ r.ending ≠ none := by
      rw [← List.count_pos_iff, h.finished]
      split <;> simp [*]
    rw [hy.statistics_eq, if_congr (and_congr_left' hfinish) rfl rfl]

theorem step?_evaluate {r : Run} {i k : Nat} {numbers : List Int64} {n : Node}
    (hr : x.runs[c]? = some r) (hj : r.job? i = some ⟨k, numbers, [], none⟩)
    (hn : r.graph.nodes[i]? = some n) (h : x.workspace.identifiers.Resolves numbers n.inputs) :
    x.step? c (.evaluate i) = some (x.proceed (fun s => s.answered i numbers n) c) := by
  have hs : Site.step? ⟨x.workspace, x.marks[c]?.getD .empty, r, x.journal⟩ (.evaluate i) = _ :=
    Site.evaluate_eq hj hn h
  rw [step?, proceed, site?_of_run hr, Option.bind_some, hs]
  rfl

theorem recorded_evaluate {i : Nat} {es : List (String × RunEvent)}
    (h : x.step? c (.evaluate i) = some y) :
    x.recorded c ((c, .evaluate i) :: es) = y.recorded c es := by
  obtain ⟨s, s', hs, -, -⟩ := step?_eq_some h
  rw [recorded, if_pos rfl, hs, h]
  rfl

theorem steps?_getD {es : List (String × RunEvent)}
    (h : (x.steps? es).isSome = true) : x.steps? es = some ((x.steps? es).getD x) := by
  obtain ⟨y, hy⟩ := Option.isSome_iff_exists.mp h
  rw [hy, Option.getD_some]

namespace Sample
open Graph.Sample

/-- Tells under each desired output whether there are inputs. -/
def teller : Invoker :=
  ⟨.security, fun i => .returned (i.desired.map fun r =>
    ⟨i.outputSpecification r, .bool i.inputs.isEmpty⟩)⟩

def tellers : Repository := ⟨[⟨"1", "Teller", .security⟩], ExtTreeMap.empty.insert "1" teller⟩

def spot : Specification := quantity "Spot" "1"

def quoting : Node := step "1" .security [] spot

def pricing : Node := step "2" .security [spot] (quantity "Price" "2")

/-- Two nodes that take inputs from each other, and two that do not wait for them. -/
def ringed : Graph :=
  graph "Default" [step "left" .security [quantity "Right" "right"] (quantity "Left" "left"),
    step "right" .security [quantity "Left" "left"] (quantity "Right" "right"), quoting, pricing]

def ringing : Request := ⟨ringed, ⟨⟨"View", ⟨0⟩, 0⟩, "Default"⟩, true⟩

def begun : Execution := submitAll (.new tellers .missing) ∅ [ringing]

def sending : List (String × RunEvent) := [("Default", .dispatch 2)]

def sent : Execution := (begun.steps? sending).getD begun

def quoted : Execution := sent.proceed (fun s => s.answered 2 [] quoting) "Default"

def sendingOn : List (String × RunEvent) :=
  [("Default", .record 2), ("Default", .dispatch 3), ("Default", .number 3)]

def sentOn : Execution := (quoted.steps? sendingOn).getD quoted

def priced : Execution := sentOn.proceed (fun s => s.answered 3 [1] pricing) "Default"

def ending : List (String × RunEvent) := [("Default", .record 3), ("Default", .finish)]

def ended : Execution := (priced.steps? ending).getD priced

def beside : List (String × RunEvent) :=
  sending ++ ("Default", .evaluate 2) :: (sendingOn ++ ("Default", .evaluate 3) :: ending)

theorem steps_sending : begun.steps? sending = some sent := steps?_getD (by decide +kernel)

theorem step_quoted : sent.step? "Default" (.evaluate 2) = some quoted :=
  step?_evaluate rfl rfl rfl rfl

theorem steps_sendingOn : quoted.steps? sendingOn = some sentOn := steps?_getD (by decide +kernel)

theorem step_priced : sentOn.step? "Default" (.evaluate 3) = some priced :=
  step?_evaluate rfl rfl rfl rfl

theorem steps_ending : priced.steps? ending = some ended := steps?_getD (by decide +kernel)

theorem steps_beside : begun.steps? beside = some ended := by
  rw [beside, steps?_append, steps_sending, Option.bind_some, steps?_cons, step_quoted,
    Option.bind_some, steps?_append, steps_sendingOn, Option.bind_some, steps?_cons, step_priced,
    Option.bind_some, steps_ending]

theorem recorded_beside : begun.recorded "Default" beside =
    [(2, .ran (.returned [⟨spot, .bool true⟩])), (3, .ran (.failed (.unknownFunction "2")))] := by
  rw [beside, recorded_append steps_sending, recorded_evaluate step_quoted,
    recorded_append steps_sendingOn, recorded_evaluate step_priced]
  rfl

end Sample
open Sample

/-- Beside a ring the first of two nodes returns a value and the second one fails, for there is no
function. The run comes to its end with no node of the ring dispatched. -/
theorem ring_is_left_out : begun.steps? beside = some ended ∧
    dispatchedIn (eventsOf "Default" beside) = [2, 3] ∧
    (∀ i, i ∈ dispatchedIn (eventsOf "Default" beside) ↔ i < 4 ∧ ringed.Grounded i) ∧
    ended.marks["Default"]?.getD .empty =
      (NodeMarks.empty.markExecuted quoting).markFailed pricing ∧
    ended.workspace.statistics.get? "Default" = some ⟨1, 0, 4, 1, 0⟩ := by
  have hok : ended.ending? "Default" = some (.ok ()) := by rfl
  obtain ⟨r, hr, -, -, -, -, -, hmarks, hdispatched, -, hstatistics⟩ := schedule_sound_and_complete
    (.new tellers .missing) ∅ [ringing] (by simp) ringing (by simp) (Graph.Sample.built_graph _ _)
    "Default" rfl beside ended steps_beside (by simp [hok])
  have hrun : r.ending ≠ none := by
    intro h
    simp [ending?, hr, h] at hok
  refine ⟨steps_beside, rfl, (hdispatched hrun).1, ?_, ?_⟩
  · rw [hmarks, show (submitAll _ _ _).recorded _ _ = _ from recorded_beside]
    rfl
  · rw [hstatistics, if_pos ⟨hrun, rfl⟩, show (submitAll _ _ _).recorded _ _ = _ from
      recorded_beside]
    rfl

end Execution
end ValuationCycle
