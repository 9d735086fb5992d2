import ValuationCycle.Proofs.Execution.Stored

/-!
# Wherever a run stops

A run can stop after any event: it comes to its end, it is cancelled, or a job ends
it. An outcome is recorded in one event, in which the values go to the cache and the
node is marked, and an outcome that ends the run brings no values and no mark. So the
marks and the cache of a run tell the same at all times. When a run has stopped, jobs
that were sent before are still evaluated, but nobody records their answers.
-/
namespace ValuationCycle
open Json Std

def Node.KeepsToOutputs (r : Repository) (n : Node) : Prop :=
  ∀ values, n.Succeeds r values → ∀ v ∈ values, v.specification ∈ n.outputs

/-- The outcomes with which a run goes on. -/
def settling (outcomes : List (Nat × Answer)) : List (Nat × Answer) :=
  outcomes.filter fun o => o.2.settles

theorem mem_settling {outcomes : List (Nat × Answer)} {o : Nat × Answer} :
    o ∈ settling outcomes ↔ o ∈ outcomes ∧ o.2.settles = true := List.mem_filter

@[simp] theorem settling_append (outcomes later : List (Nat × Answer)) :
    settling (outcomes ++ later) = settling outcomes ++ settling later := List.filter_append ..

theorem flatMap_values_settling (outcomes : List (Nat × Answer)) :
    (settling outcomes).flatMap (fun o => o.2.values) = outcomes.flatMap fun o => o.2.values := by
  induction outcomes with
  | nil => rfl
  | cons o outcomes ih =>
      obtain ⟨i, e | (values | e | _)⟩ := o <;>
        simpa [settling, Answer.settles, Answer.values] using ih

namespace Site
variable {s s' : Site} {e : RunEvent}

/-- When a run has ended, only jobs that were sent before are evaluated. -/
theorem eq_evaluate_of_ended (h : s.step? e = some s') (hs : s.run.ending ≠ none) :
    ∃ i, e = .evaluate i := by
  cases e with
  | evaluate i => exact ⟨i, rfl⟩
  | dispatch i => exact absurd (dispatch_eq_some h).1 hs
  | number i => exact absurd (number_eq_some h).1 hs
  | record i => exact absurd (record_eq_some h).1 hs
  | finish => exact absurd (finish_eq_some h).1 hs
  | cancel => exact absurd (cancel_eq_some h).1 hs

theorem settling_recorded (h : s.step? e = some s')
    (hok : ∀ err, s'.run.ending ≠ some (.error err)) :
    settling (s.recorded e) = s.recorded e := by
  refine List.filter_eq_self.mpr fun o ho => ?_
  cases e with
  | record i =>
      obtain ⟨-, numbers, unnumbered, a, n, hj, -, rfl⟩ := record_eq_some h
      obtain rfl : o = (i, a) := by simpa [recorded, hj] using ho
      exact settles_of_ok hok
  | _ => simp [recorded] at ho

/-- With the event that ends a run in an error, and with those after it, no mark is made and
no outcome counts. -/
theorem step?_broken (h : s.step? e = some s')
    (herr : s.run.ending ≠ none ∨ ∃ err, s'.run.ending = some (.error err)) :
    s'.marks = s.marks ∧ settling (s.recorded e) = [] := by
  cases e with
  | dispatch i =>
      obtain ⟨-, -, n, -, rfl⟩ := dispatch_eq_some h
      exact ⟨rfl, rfl⟩
  | number i =>
      obtain ⟨-, numbers, input, rest, -, rfl⟩ := number_eq_some h
      exact ⟨rfl, rfl⟩
  | evaluate i =>
      obtain ⟨numbers, n, -, -, rfl⟩ := evaluate_eq_some h
      exact ⟨rfl, rfl⟩
  | record i =>
      obtain ⟨hrun, numbers, unnumbered, a, n, hj, -, rfl⟩ := record_eq_some h
      obtain ⟨err, herr⟩ := herr.resolve_left (not_not_intro hrun)
      have hreleased : ∀ t : Site, t.run.ending = none →
          (t.releaseDependents i).run.ending ≠ some (.error err) := fun t ht => by
        rw [(releaseDependents_run t i).1, ht]
        simp
      have hout : s.recorded (.record i) = [(i, a)] := by simp [recorded, hj]
      rw [hout]
      rcases a with e | (values | e | _)
      · exact ⟨rfl, rfl⟩
      · exact absurd herr (hreleased _ hrun)
      · exact absurd herr (hreleased _ hrun)
      · exact ⟨rfl, rfl⟩
  | finish =>
      obtain ⟨-, -, -, rfl⟩ := finish_eq_some h
      exact ⟨rfl, rfl⟩
  | cancel =>
      obtain ⟨-, rfl⟩ := cancel_eq_some h
      exact ⟨rfl, rfl⟩

theorem step?_marks_settling (h : s.step? e = some s') :
    s'.marks = (settling (s.recorded e)).foldl (NodeMarks.outcome s.run.graph) s.marks := by
  by_cases herr : ∃ err, s'.run.ending = some (.error err)
  · obtain ⟨hmarks, hnone⟩ := step?_broken h (.inr herr)
    rw [hmarks, hnone, List.foldl_nil]
  · have hok : ∀ err, s'.run.ending ≠ some (.error err) := fun err he => herr ⟨err, he⟩
    rw [settling_recorded h hok, step?_marks h hok]

def cancelling (n : Node) (i : Nat) : List RunEvent :=
  .dispatch i :: List.replicate n.inputs.length (.number i) ++ [.cancel]

/-- The job of a node is evaluated even if the run is cancelled when it has been sent. -/
theorem exists_cancelling {i : Nat} {n : Node} (hrun : s.run.ending = none)
    (hjobs : s.run.jobs = []) (hi : i ∈ s.run.ready) (hn : s.run.graph.nodes[i]? = some n) :
    ∃ s₁ s₂, s.steps? (cancelling n i) = some s₁ ∧ s₁.run.ending = some (.error .cancelled) ∧
      s₁.steps? [.evaluate i] = some s₂ := by
  obtain ⟨t, ht, halone, hrequest⟩ := Alone.dispatch hrun hjobs hi hn
  obtain ⟨u, numbers, hu, halone, hrequest'⟩ := halone.number
  have hnode : u.run.request.graph.nodes[i]? = some n := by rwa [hrequest', hrequest]
  have hcancel : u.step? .cancel =
      some { u with run := { u.run with ending := some (.error .cancelled) } } := by
    simp [step?, cancel, halone.running]
  have hjob : ({ u.run with ending := some (.error .cancelled) } : Run).job? i =
      some ⟨i, numbers, [], none⟩ := halone.job?
  have hevaluate : (Site.steps? { u with run := { u.run with
      ending := some (.error .cancelled) } } [.evaluate i]).isSome = true := by
    simp [steps?, step?, evaluate, hjob, Run.graph, hnode]
  obtain ⟨z, hz⟩ := Option.isSome_iff_exists.mp hevaluate
  refine ⟨_, z, ?_, rfl, hz⟩
  rw [cancelling, List.cons_append, steps?_cons, ht, Option.bind_some, steps?_append, hu,
    Option.bind_some, steps?_cons, hcancel]
  rfl

end Site

theorem Scheduled.nodup_outcomes {q : Request} {past : List RunEvent}
    {outcomes : List (Nat × Answer)} {r : Run} (h : Scheduled q past outcomes r) :
    (outcomes.map Prod.fst).Nodup :=
  (List.nodup_append.mp (h.perm.nodup_iff.mp (List.nodup_append.mp h.nodup).2.1)).1

/-- What holds of a run and the outcomes that counted, also after the run has ended. -/
structure Tallied (q : Request) (outcomes : List (Nat × Answer)) (r : Run) : Prop where
  request_eq : r.request = q
  nodup : (outcomes.map Prod.fst).Nodup
  scheduled : r.ending = none → ∃ past, Scheduled q past outcomes r

theorem tallied_start (q : Request) : Tallied q [] (.start q) :=
  ⟨rfl, List.nodup_nil, fun _ => ⟨[], scheduled_start q⟩⟩

theorem Tallied.step {q : Request} {outcomes : List (Nat × Answer)} {s s' : Site} {e : RunEvent}
    (h : Tallied q outcomes s.run) (hs : s.step? e = some s') :
    Tallied q (outcomes ++ settling (s.recorded e)) s'.run := by
  have hrequest := (Site.step?_request hs).trans h.request_eq
  by_cases herr : s.run.ending ≠ none ∨ ∃ err, s'.run.ending = some (.error err)
  · rw [(Site.step?_broken hs herr).2, List.append_nil]
    refine ⟨hrequest, h.nodup, fun hnone => ?_⟩
    rcases herr with hended | ⟨err, herr⟩
    · obtain ⟨ending, hended⟩ := Option.ne_none_iff_exists'.mp hended
      simp [Site.step?_ending hs hended] at hnone
    · simp [herr] at hnone
  · push Not at herr
    obtain ⟨past, hscheduled⟩ := h.scheduled herr.1
    have hnext := hscheduled.step hs herr.2
    rw [Site.settling_recorded hs herr.2]
    exact ⟨hrequest, hnext.nodup_outcomes, fun _ => ⟨_, hnext⟩⟩

namespace Execution
variable {x y : Execution} {c : String} {q : Request} {r : Repository} {marks : NodeMarks}
  {outcomes : List (Nat × Answer)} {vs : List Storing}

/-- What the cache and the marks of one run tell of it, whether or not it has ended: the
outcomes that counted, and all that was stored. -/
structure Accounted (c : String) (q : Request) (r : Repository) (marks : NodeMarks)
    (outcomes : List (Nat × Answer)) (vs : List Storing) (x : Execution) : Prop where
  repository_eq : x.workspace.repository = r
  run : ∃ run, x.runs[c]? = some run ∧ Tallied q outcomes run ∧ run.Answered (Node.Explains r)
  apart : ∀ (d : String) run, x.runs[d]? = some run → d ≠ c → run.request.cache ≠ q.cache
  marks_eq : x.marks[c]?.getD .empty = outcomes.foldl (NodeMarks.outcome q.graph) marks
  explained : ∀ o ∈ outcomes, ∃ n, q.graph.nodes[o.1]? = some n ∧ n.Explains r o.2
  stored_eq : (vs.filter fun v => v.request.cache = q.cache) =
    (outcomes.flatMap fun o => o.2.values).map (⟨q, ·⟩)

theorem apart_step {d : String} {e : RunEvent}
    (hx : ∀ (b : String) run, x.runs[b]? = some run → b ≠ c → run.request.cache ≠ q.cache)
    (hs : x.step? d e = some y) (b : String) (run : Run) (hr : y.runs[b]? = some run)
    (hb : b ≠ c) : run.request.cache ≠ q.cache := by
  obtain ⟨s, s', hsite, he, rfl⟩ := step?_eq_some hs
  rw [runs_restore] at hr
  split at hr
  · next hbd =>
      obtain rfl := Option.some.inj hr
      rw [Site.step?_request he]
      exact hx d s.run (site?_eq_some hsite).2.2.1 (hbd ▸ hb)
  · exact hx b run hr hb

theorem Accounted.other {d : String} {e : RunEvent} (h : Accounted c q r marks outcomes vs x)
    (hs : x.step? d e = some y) (hd : d ≠ c) :
    Accounted c q r marks outcomes (vs ++ x.storedBy d e) y := by
  obtain ⟨s, s', hsite, he, rfl⟩ := step?_eq_some hs
  obtain ⟨hw, -, hrun, -⟩ := site?_eq_some hsite
  obtain ⟨hruns, hmarks⟩ := step?_other hs (Ne.symm hd)
  refine ⟨?_, ?_, apart_step h.apart hs, ?_, h.explained, ?_⟩
  · rw [workspace_restore, (Site.step?_stored he).repository_eq, hw, h.repository_eq]
  · rw [hruns]
    exact h.run
  · rw [hmarks, h.marks_eq]
  · have hnone : (x.storedBy d e).filter (fun v => v.request.cache = q.cache) = [] := by
      refine List.filter_eq_nil_iff.mpr fun v hv => ?_
      rw [storedBy, hsite] at hv
      obtain ⟨u, -, rfl⟩ := List.mem_map.mp hv
      simpa using h.apart d s.run hrun hd
    rw [List.filter_append, hnone, List.append_nil, h.stored_eq]

theorem Accounted.own {e : RunEvent} (h : Accounted c q r marks outcomes vs x)
    (hs : x.step? c e = some y) :
    Accounted c q r marks
      (outcomes ++ settling (((x.site? c).map fun s => s.recorded e).getD []))
      (vs ++ x.storedBy c e) y := by
  obtain ⟨s, s', hsite, he, rfl⟩ := step?_eq_some hs
  obtain ⟨hw, hm, hrun, -⟩ := site?_eq_some hsite
  obtain ⟨run, hrun', htallied, hanswered⟩ := h.run
  obtain rfl := Option.some.inj (hrun'.symm.trans hrun)
  have hrepository : s.workspace.repository = r := by rw [hw, h.repository_eq]
  have hexplains : ∀ n numbers, Node.Explains r n
      (Site.answerOf s.workspace (s.workspace.cache s.run.request.cache) n numbers).1 :=
    fun n numbers => hrepository ▸ Site.explains_answerOf s.workspace _ n numbers
  rw [hsite, Option.map_some, Option.getD_some]
  refine ⟨?_, ⟨s'.run, by simp, htallied.step he, Site.step?_answered he hexplains hanswered⟩,
    apart_step h.apart hs, ?_, fun o ho => ?_, ?_⟩
  · rw [workspace_restore, (Site.step?_stored he).repository_eq, hrepository]
  · simp only [marks_restore, reduceIte, Option.getD_some, List.foldl_append]
    rw [Site.step?_marks_settling he, hm, h.marks_eq, Run.graph, htallied.request_eq]
  · rcases List.mem_append.mp ho with ho | ho
    · exact h.explained o ho
    · have hrecorded := (mem_settling.mp ho).1
      cases e with
      | record i =>
          obtain ⟨a, ha, rfl⟩ := List.mem_map.mp hrecorded
          obtain ⟨j, hj, hja⟩ := Option.bind_eq_some_iff.mp (Option.mem_toList.mp ha)
          obtain ⟨rfl, hmem⟩ := Run.job?_eq_some hj
          rw [← htallied.request_eq]
          exact hanswered j hmem a hja
      | _ => simp [Site.recorded] at hrecorded
  · have hall : (x.storedBy c e).filter (fun v => v.request.cache = q.cache) =
        ((settling (s.recorded e)).flatMap fun o => o.2.values).map (⟨q, ·⟩) := by
      rw [storedBy, hsite, flatMap_values_settling, ← htallied.request_eq]
      exact List.filter_eq_self.mpr fun v hv => by
        obtain ⟨u, -, rfl⟩ := List.mem_map.mp hv
        simp
    rw [List.filter_append, h.stored_eq, hall, List.flatMap_append, List.map_append]

/-- Whatever events of other runs come between those of one, and wherever it ends. -/
theorem Accounted.steps {es : List (String × RunEvent)}
    (h : Accounted c q r marks outcomes vs x) (hs : x.steps? es = some y) :
    Accounted c q r marks (outcomes ++ settling (x.recorded c es)) (vs ++ x.stored es) y := by
  induction es generalizing x outcomes vs with
  | nil =>
      obtain rfl := Option.some.inj hs
      simpa [recorded, stored, settling] using h
  | cons e es ih =>
      obtain ⟨d, e⟩ := e
      rw [steps?_cons] at hs
      obtain ⟨x', he, hs⟩ := Option.bind_eq_some_iff.mp hs
      by_cases hd : d = c
      · subst hd
        have := ih (h.own he) hs
        simpa [recorded, stored, he] using this
      · have := ih (h.other he hd) hs
        simpa [recorded, stored, he, hd] using this

theorem accounted_submitAll (w : Workspace) (m : ExtTreeMap String NodeMarks)
    {requests : List Request} (hn : (requests.map fun q => q.graph.configuration).Nodup)
    (hq : q ∈ requests) (hcache : ∀ p ∈ requests, p.cache = q.cache → p = q) :
    Accounted q.graph.configuration q w.repository (m[q.graph.configuration]?.getD .empty) [] []
      (submitAll w m requests) := by
  obtain ⟨hw, hm, -⟩ := submitAll_frame w m requests
  have hruns := runs_submitAll w m requests hn
  refine ⟨by rw [hw], ⟨.start q, (hruns _ _).mpr ⟨q, hq, rfl, rfl⟩, tallied_start q, ?_⟩, ?_, ?_,
    by simp, by simp⟩
  · exact fun j hj => absurd hj List.not_mem_nil
  · intro d run hr hd hc
    obtain ⟨p, hp, rfl, rfl⟩ := (hruns d run).mp hr
    exact hd (hcache p hp hc ▸ rfl)
  · rw [hm]
    rfl

theorem recorded_of_ended {fs : List (String × RunEvent)} {ending : Ending}
    (hx : x.ending? c = some ending) (hs : x.steps? fs = some y) :
    x.recorded c fs = [] ∧ ∀ e ∈ eventsOf c fs, ∃ i, e = .evaluate i := by
  induction fs generalizing x with
  | nil => exact ⟨rfl, fun _ he => absurd he List.not_mem_nil⟩
  | cons e fs ih =>
      obtain ⟨d, e⟩ := e
      rw [steps?_cons] at hs
      obtain ⟨x', he, hs⟩ := Option.bind_eq_some_iff.mp hs
      obtain ⟨hrecorded, hevents⟩ := ih (step?_ending he hx) hs
      by_cases hd : d = c
      · subst hd
        obtain ⟨s, s', hsite, hstep, -⟩ := step?_eq_some he
        have hended : s.run.ending ≠ none := by
          simp [ending?, (site?_eq_some hsite).2.2.1] at hx
          simp [hx]
        obtain ⟨i, rfl⟩ := Site.eq_evaluate_of_ended hstep hended
        refine ⟨?_, fun f hf => ?_⟩
        · simp [recorded, hsite, he, hrecorded, Site.recorded]
        · have hf : f = .evaluate i ∨ f ∈ eventsOf d fs := by simpa [eventsOf] using hf
          rcases hf with rfl | hf
          · exact ⟨i, rfl⟩
          · exact hevents f hf
      · refine ⟨by simp [recorded, hd, he, hrecorded], fun f hf => hevents f ?_⟩
        simpa [eventsOf, hd] using hf

namespace Accounted

theorem mem_outputs (h : Accounted c q r marks outcomes vs x)
    (hkeeps : ∀ n ∈ q.graph.nodes, n.KeepsToOutputs r) {o : Nat × Answer} (ho : o ∈ outcomes)
    {v : ComputedValue} (hv : v ∈ o.2.values) :
    ∃ n, q.graph.nodes[o.1]? = some n ∧ v.specification ∈ n.outputs := by
  obtain ⟨n, hn, hexplains⟩ := h.explained o ho
  obtain ⟨values, ha, hv⟩ := Answer.mem_values.mp hv
  exact ⟨n, hn, hkeeps n (List.mem_of_getElem? hn) values (hexplains values ha) v hv⟩

theorem isPrivate (h : Accounted c q r marks outcomes vs x)
    (hinvoked : ∀ n ∈ q.graph.nodes, n.isLive = false)
    (hkeeps : ∀ n ∈ q.graph.nodes, n.KeepsToOutputs r) {v : ComputedValue}
    (hv : v ∈ outcomes.flatMap fun o => o.2.values) : (Storing.mk q v).isPrivate = true := by
  obtain ⟨o, ho, hv⟩ := List.mem_flatMap.mp hv
  obtain ⟨n, hn, hs⟩ := h.mem_outputs hkeeps ho hv
  have hmem := List.mem_of_getElem? hn
  exact CacheHint.isPrivate_ofGraph.mpr ⟨n, hmem, hinvoked n hmem, hs⟩

theorem kept_eq (h : Accounted c q r marks outcomes vs x)
    (hinvoked : ∀ n ∈ q.graph.nodes, n.isLive = false)
    (hkeeps : ∀ n ∈ q.graph.nodes, n.KeepsToOutputs r) :
    Storing.kept q.cache vs = outcomes.flatMap fun o => o.2.values := by
  have hsplit : Storing.kept q.cache vs =
      ((vs.filter fun v => v.request.cache = q.cache).filter Storing.isPrivate).map
        Storing.value := by
    rw [Storing.kept, List.filter_filter]
    congr 1
    exact List.filter_congr fun v _ => by simp [Bool.and_comm]
  rw [hsplit, h.stored_eq, List.filter_eq_self.mpr, List.map_map]
  · exact List.map_id _
  · intro v hv
    obtain ⟨u, hu, rfl⟩ := List.mem_map.mp hv
    exact h.isPrivate hinvoked hkeeps hu

/-- What a node brought under a specification stays, for no other node has it as an output. -/
theorem lastValue?_eq (h : Accounted c q r marks outcomes vs x)
    (hdisjoint : q.graph.Disjoint) (hkeeps : ∀ n ∈ q.graph.nodes, n.KeepsToOutputs r)
    {o : Nat × Answer} (ho : o ∈ outcomes) {s : Specification} {v : Value}
    (hv : o.2.value? s = some v) :
    lastValue? (outcomes.flatMap fun o => o.2.values) s = some v := by
  obtain ⟨run, -, htallied, -⟩ := h.run
  obtain ⟨before, after, rfl⟩ := List.append_of_mem ho
  obtain ⟨u, hu, hus, -⟩ := exists_of_lastValue? hv
  obtain ⟨n, hn, hsn⟩ := h.mem_outputs hkeeps ho hu
  have hlater : lastValue? (after.flatMap fun o => o.2.values) s = none := by
    refine lastValue?_eq_none fun u' hu' hus' => ?_
    obtain ⟨o', ho', hu'⟩ := List.mem_flatMap.mp hu'
    obtain ⟨n', hn', hsn'⟩ := h.mem_outputs hkeeps (by simp [ho']) hu'
    have hsame : o.1 = o'.1 := hdisjoint.eq_of_mem hn hn' (hus ▸ hsn) (hus' ▸ hsn')
    have hnodup := htallied.nodup
    rw [List.map_append, List.map_cons, List.nodup_middle] at hnodup
    refine (List.nodup_cons.mp hnodup).1 (List.mem_append_right _ ?_)
    exact hsame ▸ List.mem_map_of_mem ho'
  rw [List.flatMap_append, List.flatMap_cons, lastValue?_append, lastValue?_append, hlater,
    Option.none_or]
  exact Option.or_eq_some_iff.mpr (.inl hv)

theorem exists_outcome (h : Accounted c q r marks outcomes vs x) {v : Storing} (hv : v ∈ vs)
    (hvq : v.request = q) : ∃ o ∈ outcomes, ∃ u ∈ o.2.values, v = ⟨q, u⟩ := by
  have hmem : v ∈ vs.filter fun v => v.request.cache = q.cache := by simp [hv, hvq]
  rw [h.stored_eq] at hmem
  obtain ⟨u, hu, rfl⟩ := List.mem_map.mp hmem
  obtain ⟨o, ho, hu⟩ := List.mem_flatMap.mp hu
  exact ⟨o, ho, u, hu, rfl⟩

theorem of_ended (h : Accounted c q r marks outcomes vs x) {ending : Ending}
    (hx : x.ending? c = some ending) {fs : List (String × RunEvent)} (hs : x.steps? fs = some y) :
    Accounted c q r marks outcomes (vs ++ x.stored fs) y ∧
      ∀ v ∈ x.stored fs, v.request.cache ≠ q.cache := by
  have h' := h.steps hs
  rw [(recorded_of_ended hx hs).1, settling, List.filter_nil, List.append_nil] at h'
  have hnone := h'.stored_eq
  rw [List.filter_append, h.stored_eq, List.append_right_eq_self] at hnone
  refine ⟨h', fun v hv => ?_⟩
  simpa using List.filter_eq_nil_iff.mp hnone v hv

theorem answer_unique (h : Accounted c q r marks outcomes vs x) (hnodup : q.graph.nodes.Nodup)
    {n : Node} {a b : Answer} (ha : (n, a) ∈ q.graph.answersIn outcomes)
    (hb : (n, b) ∈ q.graph.answersIn outcomes) : a = b := by
  obtain ⟨run, -, htallied, -⟩ := h.run
  obtain ⟨i, ha, hi⟩ := Graph.mem_answersIn.mp ha
  obtain ⟨j, hb, hj⟩ := Graph.mem_answersIn.mp hb
  obtain rfl : i = j :=
    (List.getElem?_inj (List.getElem?_eq_some_iff.mp hi).choose hnodup).mp (hi.trans hj.symm)
  exact congrArg Prod.snd (List.inj_on_of_nodup_map htallied.nodup ha hb rfl)

end Accounted

theorem mem_answersIn_settling {g : Graph} {recorded : List (Nat × Answer)} {n : Node} {a : Answer}
    (ha : a.settles = true) :
    (n, a) ∈ g.answersIn (settling recorded) ↔ (n, a) ∈ g.answersIn recorded := by
  simp [Graph.mem_answersIn, mem_settling, ha]

theorem exists_returned_iff {g : Graph} {recorded : List (Nat × Answer)} {n : Node} :
    (∃ a, (n, a) ∈ g.answersIn (settling recorded) ∧ a.succeeded = true) ↔
      ∃ values, (n, .ran (.returned values)) ∈ g.answersIn recorded := by
  constructor
  · rintro ⟨a, ha, hsucceeded⟩
    rcases a with e | (values | e | _)
    · simp [Answer.succeeded] at hsucceeded
    · exact ⟨values, (mem_answersIn_settling rfl).mp ha⟩
    · simp [Answer.succeeded] at hsucceeded
    · simp [Answer.succeeded] at hsucceeded
  · rintro ⟨values, ha⟩
    exact ⟨_, (mem_answersIn_settling rfl).mpr ha, rfl⟩

theorem exists_failed_iff {g : Graph} {recorded : List (Nat × Answer)} {n : Node} :
    (∃ a, (n, a) ∈ g.answersIn (settling recorded) ∧ a.succeeded = false) ↔
      ∃ err, (n, .ran (.failed err)) ∈ g.answersIn recorded := by
  constructor
  · rintro ⟨a, ha, hfailed⟩
    have hsettles : a.settles = true := by
      obtain ⟨i, hi, -⟩ := Graph.mem_answersIn.mp ha
      exact (mem_settling.mp hi).2
    rcases a with e | (values | err | _)
    · simp [Answer.settles] at hsettles
    · simp [Answer.succeeded] at hfailed
    · exact ⟨err, (mem_answersIn_settling rfl).mp ha⟩
    · simp [Answer.settles] at hsettles
  · rintro ⟨err, ha⟩
    exact ⟨_, (mem_answersIn_settling rfl).mpr ha, rfl⟩

/-- Whatever runs go on beside it and wherever it stops, the marks of a run and its cache
agree: the nodes that it marked executed are those whose functions returned values, the
last value that such a node returned under a specification is in the cache, all that the
run stored it stored privately under outputs of such nodes, and no node both returned
values and failed. Once the run has ended, however it did, its jobs are at most evaluated,
and no mark of it and no value in its partition changes any more. -/
theorem marks_agree_with_cache (w : Workspace) (m : ExtTreeMap String NodeMarks)
    (requests : List Request) (hn : (requests.map fun q => q.graph.configuration).Nodup)
    (q : Request) (hq : q ∈ requests) (hcache : ∀ p ∈ requests, p.cache = q.cache → p = q)
    (hbuilt : q.graph.Built) (hdisjoint : q.graph.Disjoint)
    (hinvoked : ∀ n ∈ q.graph.nodes, n.isLive = false)
    (hkeeps : ∀ n ∈ q.graph.nodes, n.KeepsToOutputs w.repository)
    (c : String) (hc : q.graph.configuration = c) (es : List (String × RunEvent)) (y : Execution)
    (hs : (submitAll w m requests).steps? es = some y) :
    let answers := q.graph.answersIn ((submitAll w m requests).recorded c es)
    let stored := (submitAll w m requests).stored es
    let before : NodeMarks := m[c]?.getD .empty
    let after : NodeMarks := y.marks[c]?.getD .empty
    w.Stored stored y.workspace ∧
      (∀ n, n ∈ after.executed ↔ n ∈ before.executed ∨
        ∃ values, (n, .ran (.returned values)) ∈ answers) ∧
      (∀ n, n ∈ after.failed ↔ n ∈ before.failed ∨
        ∃ err, (n, .ran (.failed err)) ∈ answers) ∧
      (∀ n values, (n, .ran (.returned values)) ∈ answers →
        n.Succeeds w.repository values ∧ (∀ err, (n, .ran (.failed err)) ∉ answers) ∧
          ∀ s v, lastValue? values s = some v → (y.workspace.cache q.cache).get? s = some v) ∧
      (∀ v ∈ stored, v.request = q → v.isPrivate = true ∧ ∃ n values,
        (n, .ran (.returned values)) ∈ answers ∧ v.value ∈ values ∧
          v.value.specification ∈ n.outputs) ∧
      (∀ s : Specification, (∀ n values, (n, .ran (.returned values)) ∈ answers → s ∉ n.outputs) →
        (y.workspace.cache q.cache).privatePart[s]? = (w.cache q.cache).privatePart[s]?) ∧
      (y.ending? c ≠ none → ∀ fs z, y.steps? fs = some z →
        z.ending? c = y.ending? c ∧ (∀ e ∈ eventsOf c fs, ∃ i, e = .evaluate i) ∧
          z.marks[c]?.getD .empty = after ∧
          (z.workspace.cache q.cache).privatePart = (y.workspace.cache q.cache).privatePart ∧
          ∀ v ∈ y.stored fs, v.request ≠ q) := by
  intro answers stored before after
  subst hc
  have hstored : w.Stored stored y.workspace := by
    have := steps?_stored hs
    rwa [(submitAll_frame w m requests).1] at this
  have h := (accounted_submitAll w m hn hq hcache).steps hs
  rw [List.nil_append, List.nil_append] at h
  have hkept := h.kept_eq hinvoked hkeeps
  have hmarks := NodeMarks.mem_foldl_outcome q.graph before
    (settling ((submitAll w m requests).recorded q.graph.configuration es))
  refine ⟨hstored, fun n => ?_, fun n => ?_,
    fun n values ha => ⟨?_, fun err hb => ?_, fun s v hv => ?_⟩,
    fun v hv hvq => ?_, fun s hout => ?_, fun hended fs z hz => ?_⟩
  · rw [show after = _ from h.marks_eq, (hmarks n).1, exists_returned_iff]
  · rw [show after = _ from h.marks_eq, (hmarks n).2, exists_failed_iff]
  · obtain ⟨i, ho, hi⟩ := Graph.mem_answersIn.mp ((mem_answersIn_settling rfl).mpr ha)
    obtain ⟨n', hi', hexplains⟩ := h.explained _ ho
    obtain rfl := Option.some.inj (hi.symm.trans hi')
    exact hexplains values rfl
  · have := h.answer_unique hbuilt.consistent.nodup ((mem_answersIn_settling rfl).mpr ha)
      ((mem_answersIn_settling rfl).mpr hb)
    simp at this
  · obtain ⟨i, ho, -⟩ := Graph.mem_answersIn.mp ((mem_answersIn_settling rfl).mpr ha)
    rw [hstored.get?_eq, hkept, h.lastValue?_eq hdisjoint hkeeps ho hv, Option.some_or]
  · obtain ⟨o, ho, u, hu, rfl⟩ := h.exists_outcome hv hvq
    refine ⟨h.isPrivate hinvoked hkeeps (List.mem_flatMap.mpr ⟨o, ho, hu⟩), ?_⟩
    obtain ⟨n, hi, hout⟩ := h.mem_outputs hkeeps ho hu
    obtain ⟨values, ha, hu⟩ := Answer.mem_values.mp hu
    exact ⟨n, values, Graph.mem_answersIn.mpr ⟨o.1, ha ▸ (mem_settling.mp ho).1, hi⟩, hu, hout⟩
  · rw [hstored.private_eq, hkept, lastValue?_eq_none, Option.none_or]
    intro u hu hus
    obtain ⟨o, ho, hu⟩ := List.mem_flatMap.mp hu
    obtain ⟨n, hi, hsn⟩ := h.mem_outputs hkeeps ho hu
    obtain ⟨values, ha, -⟩ := Answer.mem_values.mp hu
    exact hout n values (Graph.mem_answersIn.mpr ⟨o.1, ha ▸ (mem_settling.mp ho).1, hi⟩) (hus ▸ hsn)
  · obtain ⟨ending, hending⟩ := Option.ne_none_iff_exists'.mp hended
    obtain ⟨h', hother⟩ := h.of_ended hending hz
    refine ⟨(steps?_ending hz hending).trans hending.symm, (recorded_of_ended hending hz).2, ?_, ?_,
      fun v hv hvq => hother v hv (hvq ▸ rfl)⟩
    · rw [show after = _ from h.marks_eq, h'.marks_eq]
    · refine ExtTreeMap.ext_getElem? fun s => ?_
      rw [(steps?_stored hz).private_eq, Storing.kept_eq_nil hother]
      rfl

namespace Sample
open Graph.Sample

theorem keepsToOutputs_pair (configuration : String) :
    ∀ n ∈ (pair configuration).nodes, n.KeepsToOutputs tellers := by
  intro n hn values hsucceeds v hv
  obtain ⟨invoker, payload, inputs, hinvoker, -, hrun⟩ := hsucceeds
  obtain ⟨i, hi⟩ := List.mem_iff_getElem?.mp hn
  have hid : n.function.functionId = "1" := by
    rw [nodes_pair] at hn
    rcases List.mem_cons.mp hn with rfl | hn
    · rfl
    · rw [List.mem_singleton.mp hn]
      rfl
  obtain rfl : teller = invoker := by simpa [hid, Repository.invoker?, tellers] using hinvoker
  obtain rfl := Outcome.returned.inj hrun
  simp only [List.map_map, List.mem_map] at hv
  obtain ⟨s, hs, rfl⟩ := hv
  replace hs := ExtTreeSet.mem_toList.mp hs
  have hsame : ({ s with functionId := n.function.functionId } : Specification) = s := by
    rcases produces_pair ⟨n, hi, hs⟩ with ⟨-, rfl⟩ | ⟨-, rfl⟩ <;> simp [hid, quantity]
  exact (congrArg (· ∈ n.outputs) hsame).mpr hs

def first : Node := step "1" .security [] (quantity "First" "1")

theorem answer_first (look : Specification → Option Value) : first.answer tellers look =
    .ran (.returned [⟨quantity "First" "1", .bool true⟩]) := by
  rfl

def second : Node := step "1" .security [quantity "First" "1"] (quantity "Second" "1")

def submitted : Execution := submitAll (.new tellers .missing) ∅ requests

/-- The first node of the left pair is run, and the run is cancelled when the job of the
second has been sent. -/
def interrupted : List (String × RunEvent) :=
  (request "Left").oneNode 1 ++ (Site.cancelling second 0).map ("Left", ·)

theorem first_returned {x : Execution}
    (hx : submitted.steps? ((request "Left").oneNode 1) = some x)
    (hidle : Idle requests x) :
    (first, .ran (.returned [⟨quantity "First" "1", .bool true⟩])) ∈ (pair "Left").answersIn
      (submitted.recorded "Left" ((request "Left").oneNode 1)) := by
  have hq : request "Left" ∈ requests := by simp [requests]
  have hco := coherent_steps (m := ∅) compatible_requests hx hidle.not_failed
  obtain ⟨r, hr, -, hjobs⟩ := hidle _ hq
  obtain ⟨r', hr', hscheduled⟩ := (hco.underway _ hq).run
  obtain rfl := Option.some.inj (hr.symm.trans hr')
  have hone : 1 ∈ (submitted.recorded "Left" ((request "Left").oneNode 1)).map Prod.fst := by
    have hmem : 1 ∈ dispatchedIn (eventsOf "Left" ((request "Left").oneNode 1)) := by decide
    have := hscheduled.perm.mem_iff.mp hmem
    rwa [hjobs, List.map_nil, List.append_nil] at this
  obtain ⟨⟨i, a⟩, ho, rfl⟩ := List.mem_map.mp hone
  have hmem : (first, a) ∈ (pair "Left").answersIn _ := Graph.mem_answersIn.mpr ⟨1, ho, rfl⟩
  obtain rfl : a = .ran (.returned [⟨quantity "First" "1", .bool true⟩]) :=
    ((hco.settled hq).answered _ hmem).trans (answer_first _)
  exact hmem

theorem exists_first :
    ∃ x, submitted.steps? ((request "Left").oneNode 1) = some x ∧ Idle requests x := by
  have hidle : Idle requests submitted := fun q hq =>
    ⟨.start q, (runs_submitAll _ _ _ configurations_requests _ _).mpr ⟨q, hq, rfl, rfl⟩, rfl, rfl⟩
  have hstart : submitted.steps? [] = some submitted := rfl
  exact exists_oneNode (i := 1) compatible_requests safe_requests hstart hidle
    (by simp [requests]) (by decide) (by decide) fun j hj => absurd hj List.not_mem_nil

theorem exists_interrupted {x : Execution}
    (hx : submitted.steps? ((request "Left").oneNode 1) = some x)
    (hidle : Idle requests x) :
    ∃ y z, submitted.steps? interrupted = some y ∧
      y.ending? "Left" = some (.error .cancelled) ∧ y.steps? [("Left", .evaluate 0)] = some z := by
  have hq : request "Left" ∈ requests := by simp [requests]
  have hco := coherent_steps (m := ∅) compatible_requests hx hidle.not_failed
  obtain ⟨r, hr, hrun, hjobs⟩ := hidle _ hq
  obtain ⟨r', hr', hscheduled⟩ := (hco.underway _ hq).run
  obtain rfl := Option.some.inj (hr.symm.trans hr')
  have hready : 0 ∈ r.ready := by
    have hfirst : dispatchedIn (eventsOf (request "Left").graph.configuration
        ((request "Left").oneNode 1)) = [1] := by decide
    have hperm := hscheduled.perm
    rw [hfirst, hjobs, List.map_nil, List.append_nil] at hperm
    have hmem := (hscheduled.mem_iff 0).mpr ⟨by decide, fun j hj => by
      have hj : j = 1 := List.mem_singleton.mp hj
      exact hperm.mem_iff.mp (List.mem_singleton.mpr hj)⟩
    rw [hfirst] at hmem
    simpa using hmem
  obtain ⟨s₁, s₂, hs₁, hended, hs₂⟩ := Site.exists_cancelling (n := second)
    (s := ⟨x.workspace, x.marks["Left"]?.getD .empty, r, x.journal⟩) hrun hjobs hready
    (by rw [Run.graph, hscheduled.request_eq]; rfl)
  obtain ⟨y, hy, hsite, -⟩ := exists_steps? (site?_of_run hr) hs₁
  obtain ⟨z, hz, -⟩ := exists_steps? hsite hs₂
  refine ⟨y, z, ?_, ?_, hz⟩
  · rw [interrupted, steps?_append, hx]
    exact hy
  · rw [ending?, show y.runs["Left"]? = _ from (site?_eq_some hsite).2.2.1]
    exact hended

end Sample
open Execution.Sample Graph.Sample

/-- What a node returned before the run was cancelled is in the cache, and a job that is still
evaluated changes nothing. -/
theorem cancelled_after_first : ∃ y z,
    submitted.steps? interrupted = some y ∧
    y.ending? "Left" = some (.error .cancelled) ∧ y.steps? [("Left", .evaluate 0)] = some z ∧
    first ∈ (y.marks["Left"]?.getD .empty).executed ∧
    (y.workspace.cache (request "Left").cache).get? (quantity "First" "1") = some (.bool true) ∧
    z.marks["Left"]?.getD .empty = y.marks["Left"]?.getD .empty := by
  obtain ⟨x, hx, hidle⟩ := exists_first
  obtain ⟨y, z, hy, hended, hz⟩ := exists_interrupted hx hidle
  have hexecutable := executable_request "Left"
  obtain ⟨-, hexecuted, -, hreturned, -, -, hafter⟩ :=
    marks_agree_with_cache (.new tellers .missing) ∅ requests configurations_requests
      (request "Left") (by simp [requests])
      (fun p hp => List.inj_on_of_nodup_map caches_requests hp (by simp [requests]))
      hexecutable.built hexecutable.disjoint hexecutable.invoked (keepsToOutputs_pair "Left")
      "Left" rfl interrupted y hy
  have hfirst : (first, .ran (.returned [⟨quantity "First" "1", .bool true⟩])) ∈
      (pair "Left").answersIn (submitted.recorded "Left" interrupted) := by
    rw [interrupted, recorded_append hx, Graph.answersIn, List.filterMap_append]
    exact List.mem_append_left _ (first_returned hx hidle)
  refine ⟨y, z, hy, hended, hz, (hexecuted first).mpr (.inr ⟨_, hfirst⟩), ?_, ?_⟩
  · exact (hreturned first _ hfirst).2.2 _ _ (by simp [lastValue?])
  · exact (hafter (by simp [hended]) _ z hz).2.2.1

end Execution
end ValuationCycle
