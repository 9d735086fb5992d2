import ValuationCycle.Proofs.Cycle.Executing

/-!
# Waiting

While a cycle waits, the execution waited for, those queued behind it and those
that were seen to end are together the executions submitted, each once. Waiting
finishes when all were seen to succeed. In every other case it ends with the
first turn that sees an interruption or a failure, and every execution that was
not seen to end is asked to cancel.
-/
namespace ValuationCycle
open Graph.Sample

/-- A turn of waiting: the execution waited for, those in the queue behind it, whether the
interrupter has fired when the turn begins, and what there is to see. -/
structure Turn where
  name : String
  queue : List String
  signalled : Bool
  seen : Seen

namespace Turn

def verdict? (t : Turn) : Option Verdict :=
  if t.signalled then some .interrupted
  else match t.seen with
    | .interrupted => some .interrupted
    | .ended (.error e) => some (.failed t.name e)
    | .timedOut | .ended (.ok ()) => none

def ending? (t : Turn) : Option Ending :=
  if t.signalled then none
  else match t.seen with
    | .ended e => some e
    | .interrupted | .timedOut => none

def ended (t : Turn) : List String := if t.ending?.isSome then [t.name] else []

def left (t : Turn) : List String := if t.ending?.isSome then t.queue else t.name :: t.queue

def next (t : Turn) : List String := if t.ending?.isSome then t.queue else t.queue ++ [t.name]

theorem left_perm (t : Turn) : (t.left ++ t.ended).Perm (t.name :: t.queue) := by
  unfold left ended
  split
  · exact List.perm_append_singleton _ _
  · rw [List.append_nil]

theorem next_perm (t : Turn) : (t.next ++ t.ended).Perm (t.name :: t.queue) := by
  unfold next ended
  split
  · exact List.perm_append_singleton _ _
  · rw [List.append_nil]
    exact List.perm_append_singleton _ _

theorem ending?_of_verdict? {t : Turn} (h : t.verdict? = none) {e : Ending}
    (he : t.ending? = some e) : e = .ok () := by
  obtain ⟨name, queue, signalled, seen⟩ := t
  cases signalled with
  | true => simp [verdict?] at h
  | false =>
      rcases seen with _ | _ | (err | ⟨⟩)
      · simp [verdict?] at h
      · simp [ending?] at he
      · simp [verdict?] at h
      · simpa [ending?] using he.symm

theorem verdict?_eq_some {t : Turn} {v : Verdict} (h : t.verdict? = some v) :
    (v = .interrupted ∧ (t.signalled = true ∨ t.seen = .interrupted) ∧ t.ending? = none) ∨
      ∃ e, v = .failed t.name e ∧ t.ending? = some (.error e) := by
  obtain ⟨name, queue, signalled, seen⟩ := t
  cases signalled with
  | true =>
      obtain rfl : Verdict.interrupted = v := by simpa [verdict?] using h
      exact .inl ⟨rfl, .inl rfl, rfl⟩
  | false =>
      rcases seen with _ | _ | (err | ⟨⟩)
      · obtain rfl : Verdict.interrupted = v := by simpa [verdict?] using h
        exact .inl ⟨rfl, .inr rfl, rfl⟩
      · simp [verdict?] at h
      · obtain rfl : Verdict.failed name err = v := by simpa [verdict?] using h
        exact .inr ⟨err, rfl, rfl⟩
      · simp [verdict?] at h

end Turn

/-- The turn that a wait is for the execution at the head of the queue. -/
def Wait.turn (w : Wait) (signalled : Bool) (name : String) (rest : List String) : Turn :=
  ⟨name, rest, signalled || w.signalled, w.seen⟩

def turns (signalled : Bool) : List String → List Wait → List Turn
  | [], _ | _ :: _, [] => []
  | name :: rest, w :: ws =>
    let t := w.turn signalled name rest
    match t.verdict? with
    | some _ => [t]
    | none => t :: turns signalled t.next ws

def endedIn (ts : List Turn) : List String := ts.flatMap Turn.ended

section
variable {signalled : Bool} {x : Execution} {queue : List String} {waits : List Wait}

/-- One turn either ends waiting or leads to the next. -/
theorem waitFor_cons (name : String) (rest : List String) (w : Wait) (ws : List Wait) :
    let t := w.turn signalled name rest
    waitFor signalled x (name :: rest) (w :: ws) =
      match t.verdict? with
      | some v => some ⟨v, t.left, if t.signalled then x else w.work x⟩
      | none => waitFor signalled (w.work x) t.next ws := by
  obtain ⟨fired, work, seen⟩ := w
  unfold Wait.turn
  rw [waitFor]
  cases hs : signalled || fired with
  | true => rfl
  | false => rcases seen with _ | _ | (e | ⟨⟩) <;> rfl

theorem Turn.perm_cons {t : Turn} {ts : List Turn} {left : List String}
    (h : (left ++ endedIn ts).Perm t.next) :
    (left ++ endedIn (t :: ts)).Perm (t.name :: t.queue) := by
  rw [endedIn, List.flatMap_cons]
  refine (List.Perm.append_left _ List.perm_append_comm).trans ?_
  rw [← List.append_assoc]
  exact (h.append_right _).trans t.next_perm

/-- At every turn the executions waited for and those seen to end are those at the start. -/
theorem perm_of_turns {before after : List Turn} {t : Turn}
    (h : turns signalled queue waits = before ++ t :: after) :
    (t.name :: t.queue ++ endedIn before).Perm queue := by
  induction waits generalizing queue before with
  | nil => cases queue <;> simp [turns] at h
  | cons w ws ih =>
      cases queue with
      | nil => simp [turns] at h
      | cons name rest =>
          have hfirst : ((w.turn signalled name rest).name :: (w.turn signalled name rest).queue ++
              endedIn []).Perm (name :: rest) := by
            rw [endedIn, List.flatMap_nil, List.append_nil]
            rfl
          rw [turns] at h
          cases hv : (w.turn signalled name rest).verdict? with
          | some v =>
              rw [hv] at h
              rcases List.append_eq_singleton_iff.mp h.symm with ⟨rfl, ht⟩ | ⟨-, ht⟩
              · obtain ⟨rfl, -⟩ := List.cons.inj ht
                exact hfirst
              · simp at ht
          | none =>
              rw [hv] at h
              cases before with
              | nil =>
                  obtain ⟨rfl, -⟩ := List.cons.inj h
                  exact hfirst
              | cons first before =>
                  obtain ⟨rfl, hrest⟩ := List.cons.inj h
                  exact Turn.perm_cons (ih hrest)

theorem mem_queue_of_turns (hn : queue.Nodup) {before after : List Turn} {t : Turn}
    (h : turns signalled queue waits = before ++ t :: after) :
    (t.name :: t.queue).Nodup ∧
      ∀ name, name ∈ t.name :: t.queue ↔ name ∈ queue ∧ name ∉ endedIn before := by
  have hperm := perm_of_turns h
  obtain ⟨hnodup, -, hapart⟩ := List.nodup_append.mp (hperm.nodup_iff.mpr hn)
  refine ⟨hnodup, fun name => ?_⟩
  rw [← hperm.mem_iff, List.mem_append]
  constructor
  · exact fun hm => ⟨.inl hm, fun he => hapart name hm name he rfl⟩
  · exact fun hm => hm.1.resolve_right hm.2

structure Waited (ts : List Turn) (queue : List String) (r : WaitReport) : Prop where
  perm : (r.cancelled ++ endedIn ts).Perm queue
  verdict : (r.verdict = .finished ∧ r.cancelled = [] ∧ ∀ t ∈ ts, t.verdict? = none) ∨
    ∃ before t, ts = before ++ [t] ∧ t.verdict? = some r.verdict ∧
      ∀ t ∈ before, t.verdict? = none

/-- Waiting lasts if some execution is not seen to end and no turn ends waiting. -/
structure Waiting (ts : List Turn) (queue : List String) : Prop where
  lasting : ∃ left, left ≠ [] ∧ (left ++ endedIn ts).Perm queue
  verdict : ∀ t ∈ ts, t.verdict? = none

theorem waitFor_spec (signalled : Bool) (x : Execution) (queue : List String) (waits : List Wait) :
    (∃ r, waitFor signalled x queue waits = some r ∧ Waited (turns signalled queue waits) queue r) ∨
      waitFor signalled x queue waits = none ∧ Waiting (turns signalled queue waits) queue := by
  induction waits generalizing x queue with
  | nil =>
      cases queue with
      | nil => exact .inl ⟨_, rfl, by simp [endedIn, turns], .inl ⟨rfl, rfl, by simp [turns]⟩⟩
      | cons name rest =>
          exact .inr ⟨rfl, ⟨name :: rest, by simp, by simp [turns, endedIn]⟩, by simp [turns]⟩
  | cons w ws ih =>
      cases queue with
      | nil => exact .inl ⟨_, rfl, by simp [endedIn, turns], .inl ⟨rfl, rfl, by simp [turns]⟩⟩
      | cons name rest =>
          rw [turns, waitFor_cons]
          cases hv : (w.turn signalled name rest).verdict? with
          | some v =>
              refine .inl ⟨_, rfl, ?_, .inr ⟨[], _, rfl, hv, by simp⟩⟩
              rw [endedIn, List.flatMap_singleton]
              exact (w.turn signalled name rest).left_perm
          | none =>
              set t := w.turn signalled name rest with ht
              dsimp only
              rcases ih (w.work x) t.next with ⟨r, hr, hw⟩ | ⟨hr, ⟨left, hne, hleft⟩, hnone⟩
              · refine .inl ⟨r, hr, Turn.perm_cons hw.perm, ?_⟩
                rcases hw.verdict with ⟨hf, hc, hall⟩ | ⟨before, last, hts, hlast, hbefore⟩
                · exact .inl ⟨hf, hc, by simpa [hv] using hall⟩
                · exact .inr ⟨t :: before, last, by simp [hts], hlast, by simpa [hv] using hbefore⟩
              · exact .inr ⟨hr, ⟨left, hne, Turn.perm_cons hleft⟩, by simpa [hv] using hnone⟩

end

theorem mem_endedIn {ts : List Turn} {name : String} :
    name ∈ endedIn ts ↔ ∃ t ∈ ts, t.name = name ∧ ∃ e, t.ending? = some e := by
  rw [endedIn, List.mem_flatMap]
  refine exists_congr fun t => and_congr_right fun _ => ?_
  unfold Turn.ended
  cases t.ending? <;> simp [eq_comm]

theorem Turn.verdict?_of_signalled {t : Turn} (h : t.signalled = true) :
    t.verdict? = some .interrupted := if_pos h

section
variable {signalled : Bool} {x : Execution} {queue : List String} {waits : List Wait}

/-- A turn that begins with the interrupter fired ends waiting, whatever there is to see. -/
theorem waitFor_of_signalled {t : Turn} (ht : t ∈ turns signalled queue waits)
    (hs : t.signalled = true) :
    ∃ r, waitFor signalled x queue waits = some r ∧ r.verdict = .interrupted := by
  have hv := Turn.verdict?_of_signalled hs
  rcases waitFor_spec signalled x queue waits with ⟨r, hr, hw⟩ | ⟨-, hw⟩
  · rcases hw.verdict with ⟨-, -, hall⟩ | ⟨before, last, hts, hlast, hbefore⟩
    · simp [hall t ht] at hv
    · rw [hts, List.mem_append, List.mem_singleton] at ht
      rcases ht with ht | rfl
      · simp [hbefore t ht] at hv
      · exact ⟨r, hr, Option.some.inj (hlast.symm.trans hv)⟩
  · simp [hw.verdict t ht] at hv

theorem waitFor_finished_iff (hn : queue.Nodup) :
    (∃ r, waitFor signalled x queue waits = some r ∧ r.verdict = .finished) ↔
      (∀ name ∈ queue, ∃ t ∈ turns signalled queue waits, t.name = name ∧
        t.ending? = some (.ok ())) ∧ ∀ t ∈ turns signalled queue waits, t.signalled = false := by
  constructor
  · rintro ⟨r, hr, hf⟩
    rcases waitFor_spec signalled x queue waits with ⟨r', hr', hw⟩ | ⟨hnone, -⟩
    · obtain rfl := Option.some.inj (hr.symm.trans hr')
      rcases hw.verdict with ⟨-, hcancelled, hall⟩ | ⟨before, last, -, hlast, -⟩
      · refine ⟨fun name hm => ?_, fun t ht => ?_⟩
        · have hperm := hw.perm
          rw [hcancelled, List.nil_append] at hperm
          obtain ⟨t, ht, hname, e, he⟩ := mem_endedIn.mp (hperm.mem_iff.mpr hm)
          obtain rfl := Turn.ending?_of_verdict? (hall t ht) he
          exact ⟨t, ht, hname, he⟩
        · rw [Bool.eq_false_iff]
          intro hs
          have hv := Turn.verdict?_of_signalled hs
          simp [hall t ht] at hv
      · rcases Turn.verdict?_eq_some hlast with ⟨hv, -⟩ | ⟨e, hv, -⟩ <;> simp [hf] at hv
    · simp [hr] at hnone
  · rintro ⟨hall, -⟩
    rcases waitFor_spec signalled x queue waits with ⟨r, hr, hw⟩ | ⟨-, ⟨left, hne, hleft⟩, -⟩
    · rcases hw.verdict with ⟨hf, -⟩ | ⟨before, last, hts, hlast, -⟩
      · exact ⟨r, hr, hf⟩
      · -- the turn that ends waiting would be for an execution seen to succeed before
        obtain ⟨hqueue, hbefore⟩ := ((mem_queue_of_turns hn hts).2 last.name).mp (by simp)
        obtain ⟨t, ht, hname, hok⟩ := hall last.name hqueue
        rw [hts, List.mem_append, List.mem_singleton] at ht
        rcases ht with ht | rfl
        · exact absurd (mem_endedIn.mpr ⟨t, ht, hname, _, hok⟩) hbefore
        · rcases Turn.verdict?_eq_some hlast with ⟨-, -, he⟩ | ⟨e, -, he⟩ <;> simp [hok] at he
    · obtain ⟨name, hm⟩ := List.exists_mem_of_ne_nil _ hne
      obtain ⟨t, ht, hname, hok⟩ := hall name (hleft.mem_iff.mp (by simp [hm]))
      exact absurd rfl ((List.nodup_append.mp (hleft.nodup_iff.mpr hn)).2.2 name hm name
        (mem_endedIn.mpr ⟨t, ht, hname, _, hok⟩))

/-- Waiting that does not finish has a reason, and asks all that is left to cancel. -/
theorem waitFor_reason {r : WaitReport} (hr : waitFor signalled x queue waits = some r)
    (hf : r.verdict ≠ .finished) :
    (∀ name ∈ queue, name ∉ endedIn (turns signalled queue waits) → name ∈ r.cancelled) ∧
      (r.verdict = .interrupted ∧
          (∃ t ∈ turns signalled queue waits, t.signalled = true ∨ t.seen = .interrupted) ∨
        ∃ t ∈ turns signalled queue waits, ∃ e, t.ending? = some (.error e) ∧
          r.verdict = .failed t.name e) := by
  rcases waitFor_spec signalled x queue waits with ⟨r', hr', hw⟩ | ⟨hnone, -⟩
  · obtain rfl := Option.some.inj (hr.symm.trans hr')
    refine ⟨fun name hm he => ?_, ?_⟩
    · exact (List.mem_append.mp (hw.perm.mem_iff.mpr hm)).resolve_right he
    · rcases hw.verdict with ⟨hv, -⟩ | ⟨before, last, hts, hlast, -⟩
      · exact absurd hv hf
      · have hmem : last ∈ turns signalled queue waits := by simp [hts]
        rcases Turn.verdict?_eq_some hlast with ⟨hv, hcause, -⟩ | ⟨e, hv, he⟩
        · exact .inl ⟨hv, last, hmem, hcause⟩
        · exact .inr ⟨last, hmem, e, he, hv⟩
  · simp [hr] at hnone

end

namespace Cycle

/-- Executing plans submits one execution for each configuration before it waits. At every turn
of waiting, the execution waited for and the queue are those not yet seen to end. It finishes
exactly when all are seen to succeed and no turn begins with the interrupter fired; when one
does, or sees an interruption or a failure, that is the answer, and all executions that were
not seen to end are asked to cancel. -/
theorem execute_finishes_or_cancels (c : Cycle) (hc : c.Lived) (hs : c.state = .inputsPrepared)
    (w : Workspace) (b : Behaviour) : ∃ c' submitted,
      { c with state := .executing }.submissions c.view.model.graphs.toList =
        (c', .ok submitted) ∧
      submitted.map (fun s => s.request.graph.configuration) = c.view.model.names ∧
      c.view.model.names.Nodup ∧
      let names := c.view.model.names
      let x := submitted.foldl (fun x s => x.submit s.request) (Execution.start w c'.marks)
      let ts := turns c.interrupted names (b names x)
      (∀ s ∈ submitted, x.runs[s.request.graph.configuration]? = some (.start s.request)) ∧
      (c.execute w b = (waitFor c.interrupted x names (b names x)).map fun r =>
        (⟨c'.close r, r.execution.workspace, (conclude r.verdict).2⟩,
          ⟨submitted, r.cancelled, r.execution.journal⟩)) ∧
      (∀ before t after, ts = before ++ t :: after → (t.name :: t.queue).Nodup ∧
        ∀ name, name ∈ t.name :: t.queue ↔ name ∈ names ∧ name ∉ endedIn before) ∧
      ((∃ reply report, c.execute w b = some (reply, report) ∧ reply.answer = .ok () ∧
          reply.cycle.state = .finished) ↔
        (∀ name ∈ names, ∃ t ∈ ts, t.name = name ∧ t.ending? = some (.ok ())) ∧
          ∀ t ∈ ts, t.signalled = false) ∧
      (∀ t ∈ ts, t.signalled = true → ∃ reply report, c.execute w b = some (reply, report) ∧
        reply.answer = .error .interrupted) ∧
      ∀ reply report, c.execute w b = some (reply, report) → report.submitted = submitted ∧
        (reply.answer = .ok () ∧ reply.cycle.state = .finished ∨
          reply.cycle.state = .executionInterrupted ∧
          (∀ name ∈ names, name ∉ endedIn ts → name ∈ report.cancelled) ∧
          (reply.answer = .error .interrupted ∧
              (∃ t ∈ ts, t.signalled = true ∨ t.seen = .interrupted) ∨
            ∃ t ∈ ts, ∃ e, t.ending? = some (.error e) ∧
              reply.answer = .error (.execution t.name e))) := by
  obtain ⟨k, hready⟩ := hc.ready hs
  obtain ⟨c', submitted, hsubmissions, -, hrequests, -, heq⟩ := hready.execute_eq w
  have hnodup := c.view.model.nodup_names
  have hconfigurations : submitted.map (fun s => s.request.graph.configuration) =
      c.view.model.names := by
    rw [← c.map_configuration_requests ⟨c.view.name, c.time, k⟩, ← hrequests, List.map_map]
    rfl
  refine ⟨c', submitted, hsubmissions, hconfigurations, hnodup, ?_⟩
  have heq := heq b
  rw [← foldl_submit w c'.marks hrequests] at heq
  intro names x ts
  refine ⟨?_, heq, fun before t after ht => mem_queue_of_turns hnodup ht, ?_, ?_, ?_⟩
  · intro s hm
    have hruns := Execution.runs_submitAll w c'.marks (submitted.map Submission.request)
      (by rw [List.map_map]; exact hconfigurations ▸ hnodup)
    rw [← foldl_submit w c'.marks rfl] at hruns
    exact (hruns _ _).mpr ⟨_, List.mem_map_of_mem hm, rfl, rfl⟩
  · rw [← waitFor_finished_iff (x := x) hnodup, heq]
    constructor
    · rintro ⟨reply, report, hx, hok, -⟩
      obtain ⟨r, hr, hreply⟩ := Option.map_eq_some_iff.mp hx
      obtain ⟨rfl, -⟩ := Prod.mk.inj hreply
      refine ⟨r, hr, ?_⟩
      cases hv : r.verdict <;> simp [conclude, hv] at hok ⊢
    · rintro ⟨r, hr, hf⟩
      exact ⟨_, _, by rw [hr]; rfl, by simp [hf, conclude], by simp [close, hf, conclude]⟩
  · intro t ht hfired
    obtain ⟨r, hr, hv⟩ := waitFor_of_signalled (x := x) ht hfired
    exact ⟨_, _, by rw [heq, hr]; rfl, by simp [hv, conclude]⟩
  · intro reply report hx
    rw [heq] at hx
    obtain ⟨r, hr, hreply⟩ := Option.map_eq_some_iff.mp hx
    obtain ⟨rfl, rfl⟩ := Prod.mk.inj hreply
    refine ⟨rfl, ?_⟩
    by_cases hf : r.verdict = .finished
    · exact .inl ⟨by simp [hf, conclude], by simp [close, hf, conclude]⟩
    · obtain ⟨hcancelled, hreason⟩ := waitFor_reason hr hf
      refine .inr ⟨?_, hcancelled, ?_⟩
      · cases hv : r.verdict <;> simp [close, conclude, hv] at hf ⊢
      · rcases hreason with ⟨hv, hcause⟩ | ⟨t, ht, e, he, hv⟩
        · exact .inl ⟨by simp [hv, conclude], hcause⟩
        · exact .inr ⟨t, ht, e, he, by simp [hv, conclude]⟩

def Sample.sides : View where
  definition := { name := "View" }
  model := .ofGraphs [graph "Left" [step "1" .security [] (quantity "Left" "1")],
    graph "Right" [step "1" .security [] (quantity "Right" "1")]]

/-- The first execution times out, the second succeeds, and when the first has its turn again
the interrupter has fired, though there is a success to see. -/
def Sample.lateInterrupt : Behaviour := fun _ _ =>
  [⟨false, id, .timedOut⟩, ⟨false, id, .ended (.ok ())⟩, ⟨true, id, .ended (.ok ())⟩]

/-- The interrupter counts for more than a success. -/
theorem late_interrupt_cancels : ∃ reply report,
    ((Cycle.new Sample.sides ⟨1⟩).prepare (.new .empty .missing)).cycle.execute
      (.new .empty .missing) Sample.lateInterrupt = some (reply, report) ∧
    reply.answer = .error .interrupted ∧ reply.cycle.state = .executionInterrupted ∧
    "Left" ∈ report.cancelled := by
  set c := ((Cycle.new Sample.sides ⟨1⟩).prepare (.new .empty .missing)).cycle with hc
  obtain ⟨c', submitted, -, -, -, -, -, -, -, hfired, hends⟩ := execute_finishes_or_cancels c
    (.prepare _ (.new _ _)) rfl (.new .empty .missing) Sample.lateInterrupt
  have hturns : turns c.interrupted c.view.model.names
      (Sample.lateInterrupt c.view.model.names
        (submitted.foldl (fun x s => x.submit s.request)
          (Execution.start (.new .empty .missing) c'.marks))) =
      [⟨"Left", ["Right"], false, .timedOut⟩, ⟨"Right", ["Left"], false, .ended (.ok ())⟩,
        ⟨"Left", [], true, .ended (.ok ())⟩] := by rfl
  rw [hturns] at hfired hends
  obtain ⟨reply, report, hx, hanswer⟩ := hfired ⟨"Left", [], true, .ended (.ok ())⟩ (by simp) rfl
  refine ⟨reply, report, hx, hanswer, ?_⟩
  rcases (hends reply report hx).2 with ⟨hok, -⟩ | ⟨hstate, hcancelled, -⟩
  · simp [hanswer] at hok
  · exact ⟨hstate, hcancelled "Left" (by decide +kernel) (by decide +kernel)⟩

end Cycle
end ValuationCycle
