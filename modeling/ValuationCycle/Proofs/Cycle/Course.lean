import Mathlib.Data.List.Destutter
import ValuationCycle.Proofs.Cycle.Inheriting
import ValuationCycle.Proofs.Cycle.Reporting
import ValuationCycle.Proofs.Cycle.Waiting

/-!
# Courses of cycles

The course of a cycle is what is called on it one after another, each call in whatever
workspace there then is, and what each call came to. In between the cycle may be interrupted,
its nodes may be marked, and graphs may be asked for. Every call is allowed in some states and
refused in all others; it takes the cycle on by one state at most, and nothing takes it back.
-/
namespace ValuationCycle
open Std

namespace CycleState

/-- The states to which a state can be left. Executing is left before a call returns. -/
def next : CycleState → List CycleState
  | created => [inputsPrepared]
  | inputsPrepared => [finished, executionInterrupted]
  | finished | executionInterrupted => [cleaned]
  | executing | cleaned => []

def waysOn : CycleState → List (List CycleState)
  | created => [[created, inputsPrepared, finished, cleaned],
      [created, inputsPrepared, executionInterrupted, cleaned]]
  | inputsPrepared => [[inputsPrepared, finished, cleaned],
      [inputsPrepared, executionInterrupted, cleaned]]
  | finished => [[finished, cleaned]]
  | executionInterrupted => [[executionInterrupted, cleaned]]
  | cleaned => [[cleaned]]
  | executing => [[executing]]

theorem ne_of_mem_next {s s' : CycleState} (h : s' ∈ s.next) : s ≠ s' := by
  rintro rfl
  cases s <;> simp [next] at h

theorem cons_mem_waysOn {s s' : CycleState} (h : s' ∈ s.next) {way : List CycleState}
    (hw : way ∈ s'.waysOn) : s :: way ∈ s.waysOn := by
  cases s with
  | created =>
      obtain rfl := List.mem_singleton.mp h
      simpa [waysOn] using hw
  | inputsPrepared =>
      have h : s' = finished ∨ s' = executionInterrupted := by simpa [next] using h
      rcases h with rfl | rfl <;> simp_all [waysOn]
  | finished | executionInterrupted =>
      obtain rfl := List.mem_singleton.mp h
      simpa [waysOn] using hw
  | executing | cleaned => simp [next] at h

theorem singleton_prefix (s : CycleState) : ∃ way ∈ s.waysOn, [s] <+: way := by
  cases s <;> simp [waysOn]

theorem exists_way {s : CycleState} {states : List CycleState}
    (h : (s :: states).IsChain fun s s' => s' = s ∨ s' ∈ s.next) :
    ∃ way ∈ s.waysOn, (s :: states).destutter (· ≠ ·) <+: way := by
  induction states generalizing s with
  | nil => exact s.singleton_prefix
  | cons s' states ih =>
      obtain ⟨hs, hrest⟩ := List.isChain_cons_cons.mp h
      obtain ⟨way, hway, hprefix⟩ := ih hrest
      rcases hs with rfl | hs
      · rw [List.destutter_cons_cons, if_neg (by simp)]
        exact ⟨way, hway, hprefix⟩
      · rw [List.destutter_cons_cons, if_pos (ne_of_mem_next hs)]
        exact ⟨s :: way, cons_mem_waysOn hs hway, List.prefix_cons_inj s |>.mpr hprefix⟩

end CycleState

inductive CycleCall where
  | prepareInputs
  | computeDelta (previous : Cycle)
  | executePlans (behaviour : Behaviour)
  | populateResult (moment : ResultTimestamp)
  | releaseResources

def CycleCall.operation : CycleCall → CycleOperation
  | prepareInputs => .prepareInputs
  | computeDelta _ => .computeDelta
  | executePlans _ => .executePlans
  | populateResult _ => .populateResult
  | releaseResources => .releaseResources

/-- A reply without what it tells beside success. -/
def Reply.plain {α : Type} (r : Reply α) : Reply Unit :=
  ⟨r.cycle, r.workspace, r.answer.map fun _ => ()⟩

namespace Cycle

def call? (c : Cycle) (w : Workspace) : CycleCall → Option (Reply Unit)
  | .prepareInputs => some (c.prepare w).plain
  | .computeDelta previous => some (c.computeDelta w previous).plain
  | .executePlans behaviour => (c.execute w behaviour).map Prod.fst
  | .populateResult moment => some (c.populate w moment)
  | .releaseResources => some (c.release w).plain

/-- The turns of waiting for the executions that executing plans submits. -/
def executionTurns (c : Cycle) (w : Workspace) (behaviour : Behaviour) : List Turn :=
  match { c with state := .executing }.submissions c.view.model.graphs.toList with
  | (_, .error _) => []
  | (c', .ok submitted) =>
    let x := submitted.foldl (fun x s => x.submit s.request) (Execution.start w c'.marks)
    turns c.interrupted c.view.model.names (behaviour c.view.model.names x)

end Cycle

/-- What a call depends on beside the state of its cycle: the previous cycle of a delta, and
what each wait for an execution sees. -/
def CycleCall.Unhindered (c : Cycle) (w : Workspace) : CycleCall → Prop
  | computeDelta previous => previous.state = .finished
  | executePlans behaviour => ∀ t ∈ c.executionTurns w behaviour, t.verdict? = none
  | prepareInputs | populateResult _ | releaseResources => True

/-- A call that returned: the cycle and the workspace it found, and the reply. -/
structure ReturnedCall where
  cycle : Cycle
  workspace : Workspace
  call : CycleCall
  reply : Reply Unit

namespace ReturnedCall

structure Sound (x : ReturnedCall) : Prop where
  next : x.reply.cycle.state = x.cycle.state ∨ x.reply.cycle.state ∈ x.cycle.state.next
  succeeds : x.reply.answer = .ok () ↔
    x.cycle.state ∈ x.call.operation.allowedIn ∧ x.call.Unhindered x.cycle x.workspace
  invalidState : ∀ operation state, x.reply.answer = .error (.invalidState operation state) →
    x.reply.cycle = x.cycle ∧ x.reply.workspace = x.workspace
  previousNotFinished : ∀ state, x.reply.answer = .error (.previousNotFinished state) →
    x.reply.cycle = x.cycle ∧ x.reply.workspace = x.workspace
  known : ∀ name, x.reply.answer ≠ .error (.unknownConfiguration name)

variable {c c' : Cycle} {w w' : Workspace} {call : CycleCall}

theorem sound_refuse (h : ¬c.permits call.operation = true) :
    Sound ⟨c, w, call, c.refuse w call.operation⟩ := by
  have hstate : c.state ∉ call.operation.allowedIn := by simpa [Cycle.permits] using h
  refine ⟨.inl rfl, ?_, fun _ _ _ => ⟨rfl, rfl⟩, fun _ _ => ⟨rfl, rfl⟩, by simp [Cycle.refuse]⟩
  simp [Cycle.refuse, hstate]

theorem sound_ok (h : c.permits call.operation = true) (hu : call.Unhindered c w)
    (hnext : c'.state = c.state ∨ c'.state ∈ c.state.next) :
    Sound ⟨c, w, call, ⟨c', w', .ok ()⟩⟩ := by
  refine ⟨hnext, ?_, by simp, by simp, by simp⟩
  simp [Cycle.state_of_permits h, hu]

theorem sound_prepare (hc : c.Kept) : Sound ⟨c, w, .prepareInputs, (c.prepare w).plain⟩ := by
  by_cases hp : c.permits .prepareInputs = true
  · have hs : c.state = .created := List.mem_singleton.mp (Cycle.state_of_permits hp)
    obtain ⟨c', w', hprepare, hc'⟩ := Cycle.prepare_created hs (hc.fresh hs) w
    rw [hprepare]
    refine sound_ok hp trivial (.inr ?_)
    rw [hc'.cycle_eq, hs]
    exact List.mem_singleton_self _
  · rw [Cycle.prepare, if_neg hp]
    exact sound_refuse hp

theorem sound_computeDelta (hc : c.Kept) (previous : Cycle) :
    Sound ⟨c, w, .computeDelta previous, (c.computeDelta w previous).plain⟩ := by
  by_cases hp : c.permits .computeDelta = true
  · have hs : c.state = .inputsPrepared := List.mem_singleton.mp (Cycle.state_of_permits hp)
    by_cases hf : previous.state = .finished
    · obtain ⟨k, hready⟩ := hc.ready hs
      obtain ⟨c', w', notes, hdelta, hremarks, -⟩ := hready.computeDelta w hf
      rw [hdelta]
      refine sound_ok hp hf (.inl ?_)
      rw [hremarks.cycle_eq]
    · rw [Cycle.computeDelta, if_pos hp, if_neg hf]
      refine ⟨.inl rfl, ?_, fun _ _ _ => ⟨rfl, rfl⟩, fun _ _ => ⟨rfl, rfl⟩, ?_⟩
      · simp [Reply.plain, Except.map, CycleCall.Unhindered, hf]
      · simp [Reply.plain, Except.map]
  · rw [Cycle.computeDelta, if_neg hp]
    exact sound_refuse hp

theorem sound_populate (hc : c.Kept) (moment : ResultTimestamp) :
    Sound ⟨c, w, .populateResult moment, c.populate w moment⟩ := by
  by_cases hp : c.permits .populateResult = true
  · have hs : c.state = .finished := List.mem_singleton.mp (Cycle.state_of_permits hp)
    obtain ⟨k, hk⟩ := hc.housed (by simp [hs]) (by simp [hs])
    obtain ⟨r, hreport, -⟩ := c.report_eq w ⟨c.view.name, c.time, k⟩ c.view.model.nodup_map_fst
      (fun e he => (hk e.1).trans (if_pos (EvaluationModel.name_mem he))) c.result
    rw [Cycle.populate, if_pos hp, hreport]
    exact sound_ok hp trivial (.inl rfl)
  · rw [Cycle.populate, if_neg hp]
    exact sound_refuse hp

theorem sound_release : Sound ⟨c, w, .releaseResources, (c.release w).plain⟩ := by
  by_cases hp : c.permits .releaseResources = true
  · have hs : c.state = .finished ∨ c.state = .executionInterrupted := by
      simpa [CycleOperation.allowedIn] using Cycle.state_of_permits hp
    rw [Cycle.release, if_pos hp]
    refine sound_ok hp trivial (.inr ?_)
    rcases hs with hs | hs <;> simp [hs, CycleState.next]
  · rw [Cycle.release, if_neg hp]
    exact sound_refuse hp

theorem sound_execute (hc : c.Kept) {b : Behaviour} {reply : Reply Unit} {report : ExecutionReport}
    (hx : c.execute w b = some (reply, report)) : Sound ⟨c, w, .executePlans b, reply⟩ := by
  by_cases hp : c.permits .executePlans = true
  · have hs : c.state = .inputsPrepared := List.mem_singleton.mp (Cycle.state_of_permits hp)
    obtain ⟨k, hready⟩ := hc.ready hs
    obtain ⟨c', submitted, hsubmissions, hc', hrequests, -, heq⟩ := hready.execute_eq w
    let x := Execution.submitAll w c'.marks (c.requests ⟨c.view.name, c.time, k⟩)
    have hturns : c.executionTurns w b =
        turns c.interrupted c.view.model.names (b c.view.model.names x) := by
      have hfold := Cycle.foldl_submit w c'.marks hrequests
      simp only [Cycle.executionTurns, hsubmissions, hfold, x]
    rw [heq] at hx
    obtain ⟨r, hr, he⟩ := Option.map_eq_some_iff.mp hx
    obtain ⟨rfl, -⟩ := Prod.mk.inj he
    rcases waitFor_spec c.interrupted x c.view.model.names (b c.view.model.names x) with
      ⟨r', hr', hw⟩ | ⟨hnone, -⟩
    · obtain rfl := Option.some.inj (hr.symm.trans hr')
      rw [← hturns] at hw
      rcases hw.verdict with ⟨hf, -, hall⟩ | ⟨before, last, hts, hlast, -⟩
      · rw [hf]
        refine sound_ok hp hall (.inr ?_)
        simp [Cycle.close, Cycle.conclude, hf, hs, CycleState.next]
      · have hmem : last ∈ c.executionTurns w b := by simp [hts]
        have hhindered : ¬CycleCall.Unhindered c w (.executePlans b) := fun hu => by
          simp [hu last hmem] at hlast
        rcases Turn.verdict?_eq_some hlast with ⟨hv, -⟩ | ⟨e, hv, -⟩
        · refine ⟨.inr ?_, ?_, ?_, ?_, ?_⟩
          all_goals simp [Cycle.close, Cycle.conclude, hv, hs, CycleState.next, hhindered]
        · refine ⟨.inr ?_, ?_, ?_, ?_, ?_⟩
          all_goals simp [Cycle.close, Cycle.conclude, hv, hs, CycleState.next, hhindered]
    · exact absurd (hr.symm.trans hnone) (by simp)
  · rw [Cycle.execute, if_neg hp] at hx
    obtain ⟨rfl, -⟩ := Prod.mk.inj (Option.some.inj hx)
    exact sound_refuse hp

end ReturnedCall

namespace Cycle
variable {c : Cycle}

theorem Kept.call (h : c.Kept) {w : Workspace} {call : CycleCall} {reply : Reply Unit}
    (hr : c.call? w call = some reply) :
    reply.cycle.Kept ∧ ReturnedCall.Sound ⟨c, w, call, reply⟩ := by
  cases call with
  | prepareInputs =>
      obtain rfl := Option.some.inj hr
      exact ⟨h.prepare w, ReturnedCall.sound_prepare h⟩
  | computeDelta previous =>
      obtain rfl := Option.some.inj hr
      exact ⟨h.computeDelta w previous, ReturnedCall.sound_computeDelta h previous⟩
  | executePlans b =>
      obtain ⟨⟨reply', report⟩, hx, rfl⟩ := Option.map_eq_some_iff.mp hr
      exact ⟨h.execute hx, ReturnedCall.sound_execute h hx⟩
  | populateResult moment =>
      obtain rfl := Option.some.inj hr
      exact ⟨h.populate w moment, ReturnedCall.sound_populate h moment⟩
  | releaseResources =>
      obtain rfl := Option.some.inj hr
      exact ⟨h.release w, ReturnedCall.sound_release⟩

/-- What is called on a cycle one after another, and what it comes to. In between anybody may
interrupt the cycle, mark its nodes or ask what is left of a graph. -/
inductive Course : Cycle → List ReturnedCall → Prop
  | done (c : Cycle) : Course c []
  | call {c : Cycle} {w : Workspace} {call : CycleCall} {reply : Reply Unit}
      {calls : List ReturnedCall} : c.call? w call = some reply → Course reply.cycle calls →
      Course c (⟨c, w, call, reply⟩ :: calls)
  | interrupt {c : Cycle} {calls : List ReturnedCall} : Course c.interrupt calls →
      Course c calls
  | mark {c c' : Cycle} {name : String} {f : NodeMarks → NodeMarks} {calls : List ReturnedCall} :
      c.mark name f = .ok c' → Course c' calls → Course c calls
  | executableGraph {c c' : Cycle} {g g' : Graph} {calls : List ReturnedCall} :
      c.executableGraph g = .ok (c', g') → Course c' calls → Course c calls

def statesOf (calls : List ReturnedCall) : List CycleState :=
  calls.map fun x => x.reply.cycle.state

theorem Course.sound {calls : List ReturnedCall} (h : c.Course calls) (hc : c.Kept) :
    (c.state :: statesOf calls).IsChain (fun s s' => s' = s ∨ s' ∈ s.next) ∧
      ∀ x ∈ calls, x.Sound := by
  induction h with
  | done c => exact ⟨List.isChain_singleton _, by simp⟩
  | call hr _ ih =>
      obtain ⟨hkept, hsound⟩ := hc.call hr
      obtain ⟨hchain, hall⟩ := ih hkept
      exact ⟨List.isChain_cons_cons.mpr ⟨hsound.next, hchain⟩, List.forall_mem_cons.mpr
        ⟨hsound, hall⟩⟩
  | interrupt _ ih => exact ih hc.interrupt
  | mark hm _ ih =>
      have hremarks := remarks_mark hm
      have := ih (hremarks.kept hc)
      rwa [show _ = _ from congrArg Cycle.state hremarks.cycle_eq] at this
  | executableGraph hg _ ih =>
      have hremarks := remarks_executableGraph hg
      have := ih (hremarks.kept hc)
      rwa [show _ = _ from congrArg Cycle.state hremarks.cycle_eq] at this

/-- Whatever is called on a cycle, in whatever workspaces and however executions behave, its
states go from created over inputs prepared to finished or interrupted and on to cleaned; none
comes back, and no call returns while the cycle is executing. A call succeeds exactly when the
state allows it, the previous cycle of a delta is finished, and no wait for an execution sees a
failure or an interruption. A call refused for the state of a cycle changes nothing, and no
configuration is ever unknown. -/
theorem states_along_course (view : View) (t : ValuationTime) (calls : List ReturnedCall)
    (h : (Cycle.new view t).Course calls) :
    (∃ outcome ∈ [CycleState.finished, .executionInterrupted],
      (.created :: statesOf calls).destutter (· ≠ ·) <+:
        [.created, .inputsPrepared, outcome, .cleaned]) ∧
      ∀ x ∈ calls,
        (x.reply.answer = .ok () ↔ x.cycle.state ∈ x.call.operation.allowedIn ∧
          x.call.Unhindered x.cycle x.workspace) ∧
        (∀ operation state, x.reply.answer = .error (.invalidState operation state) →
          x.reply.cycle = x.cycle ∧ x.reply.workspace = x.workspace) ∧
        (∀ state, x.reply.answer = .error (.previousNotFinished state) →
          x.reply.cycle = x.cycle ∧ x.reply.workspace = x.workspace) ∧
        ∀ name, x.reply.answer ≠ .error (.unknownConfiguration name) := by
  obtain ⟨hchain, hsound⟩ := h.sound (kept_new view t)
  constructor
  · obtain ⟨way, hway, hprefix⟩ := CycleState.exists_way hchain
    have hway : way = [.created, .inputsPrepared, .finished, .cleaned] ∨
        way = [.created, .inputsPrepared, .executionInterrupted, .cleaned] := by
      simpa [CycleState.waysOn, Cycle.new] using hway
    rcases hway with rfl | rfl
    · exact ⟨.finished, by simp, hprefix⟩
    · exact ⟨.executionInterrupted, by simp, hprefix⟩
  · intro x hx
    have hx := hsound x hx
    exact ⟨hx.succeeds, hx.invalidState, hx.previousNotFinished, hx.known⟩

open Cycle.Sample

/-- A whole life: the inputs are prepared, a second preparation is refused, the plans are
executed, and the resources are released. -/
theorem early_lives : ∃ calls, (Cycle.new early ⟨1⟩).Course calls ∧
    statesOf calls = [.inputsPrepared, .inputsPrepared, .finished, .cleaned] ∧
    (∃ outcome ∈ [CycleState.finished, .executionInterrupted],
      (.created :: statesOf calls).destutter (· ≠ ·) <+:
        [.created, .inputsPrepared, outcome, .cleaned]) := by
  obtain ⟨reply, report, hfinishing, -, hstate, -⟩ := exists_finishing
  set c := (prepared early ⟨1⟩ (.new .empty .missing)).cycle with hc
  set w := (prepared early ⟨1⟩ (.new .empty .missing)).workspace
  have hrefused : c.prepare w = c.refuse w .prepareInputs := by
    rw [Cycle.prepare, if_neg]
    simp [permits, (prepared_spec early ⟨1⟩ (.new .empty .missing)).2.2.1.state_eq, hc,
      CycleOperation.allowedIn]
  have hcourse : (Cycle.new early ⟨1⟩).Course
      [⟨.new early ⟨1⟩, .new .empty .missing, .prepareInputs, ⟨c, w, .ok ()⟩⟩,
        ⟨c, w, .prepareInputs, c.refuse w .prepareInputs⟩,
        ⟨c, w, .executePlans (.row [("Market", .finish)]), reply⟩,
        ⟨reply.cycle, reply.workspace, .releaseResources,
          (reply.cycle.release reply.workspace).plain⟩] := by
    refine .call rfl (.call ?_ (.call ?_ (.call rfl (.done _))))
    · rw [call?, hrefused]
      rfl
    · exact congrArg (Option.map Prod.fst) hfinishing
  have hcleaned : (reply.cycle.release reply.workspace).cycle.state = .cleaned := by
    simp [Cycle.release, permits, hstate, CycleOperation.allowedIn]
  refine ⟨_, hcourse, ?_, (states_along_course early ⟨1⟩ _ hcourse).1⟩
  have hprepared := (prepared_spec early ⟨1⟩ (.new .empty .missing)).2.2.1.state_eq
  simpa [statesOf, refuse, Reply.plain, hstate, hcleaned] using hprepared

end Cycle
end ValuationCycle
