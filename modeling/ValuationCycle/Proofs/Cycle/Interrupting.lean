import ValuationCycle.Proofs.Cycle.Remaining

/-!
# Interrupting a cycle before its plans are executed

A cycle that was interrupted stays so, whatever is done to it. If it comes to execute its plans, the
first wait begins with the interrupter fired, so the call answers that the cycle was interrupted,
even if all executions are done by then, and it asks every execution to cancel. The interruption
counts for nothing where there is nothing to wait for: the plans of a view without configurations
are executed as if nobody had interrupted the cycle.
-/
namespace ValuationCycle
open Relation

def Behaviour.Begins (b : Behaviour) : Prop :=
  ∀ (name : String) (rest : List String) (x : Execution), b (name :: rest) x ≠ []

/-- Waiting with the interrupter fired is over when the first wait begins, whatever the executions
have come to. -/
theorem waitFor_interrupted {x : Execution} {queue : List String} {waits : List Wait}
    {r : WaitReport} (h : waitFor true x queue waits = some r) :
    r = ⟨if queue = [] then .finished else .interrupted, queue, x⟩ := by
  cases queue with
  | nil =>
      rw [waitFor] at h
      exact (Option.some.inj h).symm
  | cons name rest =>
      cases waits with
      | nil => cases h
      | cons wait waits => exact (Option.some.inj h).symm

theorem exists_waitFor_interrupted {b : Behaviour} {queue : List String}
    (hb : queue ≠ [] → b.Begins) (x : Execution) :
    ∃ r, waitFor true x queue (b queue x) = some r := by
  cases queue with
  | nil =>
      rw [waitFor]
      exact ⟨_, rfl⟩
  | cons name rest =>
      obtain ⟨wait, waits, hwaits⟩ := List.exists_cons_of_ne_nil (hb (by simp) name rest x)
      rw [hwaits]
      exact ⟨_, rfl⟩

namespace Cycle
variable {c c' c₀ : Cycle} {view : View} {t : ValuationTime} {w : Workspace}

structure Stopped (c : Cycle) (reply : Reply Unit) (report : ExecutionReport) : Prop where
  interrupted : reply.cycle.interrupted = true
  stops : c.view.model.names ≠ [] → reply.answer = .error .interrupted ∧
    reply.cycle.state = .executionInterrupted ∧ report.cancelled = c.view.model.names
  finishes : c.view.model.names = [] → reply.answer = .ok () ∧ reply.cycle.state = .finished

theorem Kept.execute_interrupted (h : c.Kept) (hs : c.state = .inputsPrepared)
    (hi : c.interrupted = true) (w : Workspace) (b : Behaviour) :
    ((c.view.model.names ≠ [] → b.Begins) →
        ∃ reply report, c.execute w b = some (reply, report)) ∧
      ∀ reply report, c.execute w b = some (reply, report) → c.Stopped reply report := by
  obtain ⟨k, hready⟩ := h.ready hs
  obtain ⟨c', submitted, -, hc', -, -, heq⟩ := hready.execute_eq w
  rw [heq b, hi]
  constructor
  · intro hb
    obtain ⟨r, hr⟩ := exists_waitFor_interrupted hb _
    rw [hr]
    exact ⟨_, _, rfl⟩
  · intro reply report hx
    obtain ⟨r, hr, hreply⟩ := Option.map_eq_some_iff.mp hx
    obtain ⟨rfl, rfl⟩ := Prod.mk.inj hreply
    obtain rfl := waitFor_interrupted hr
    refine ⟨?_, fun hne => ?_, fun he => ?_⟩
    · rw [close, hc', hi]
      rfl
    · simp [close, conclude, hne]
    · simp [close, conclude, he]

/-- What a cycle that was interrupted has become: it is interrupted still, and it is not finished
unless it was, or its view has no configurations. -/
structure StaysInterrupted (c c' : Cycle) : Prop where
  view_eq : c'.view = c.view
  interrupted : c'.interrupted = true
  unfinished : c.view.model.names ≠ [] → c.state ≠ .finished → c'.state ≠ .finished

theorem staysInterrupted_of_state (hview : c'.view = c.view) (hi : c'.interrupted = true)
    (hs : c'.state = .finished → c.state = .finished) : c.StaysInterrupted c' :=
  ⟨hview, hi, fun _ => mt hs⟩

theorem StaysInterrupted.trans {c'' : Cycle} (h : c.StaysInterrupted c')
    (h' : c'.StaysInterrupted c'') : c.StaysInterrupted c'' :=
  ⟨h'.view_eq.trans h.view_eq, h'.interrupted, fun hne hs =>
    h'.unfinished (h.view_eq ▸ hne) (h.unfinished hne hs)⟩

theorem Remarks.staysInterrupted (h : c.Remarks c') (hi : c.interrupted = true) :
    c.StaysInterrupted c' := by
  rw [h.cycle_eq]
  exact staysInterrupted_of_state rfl hi id

theorem staysInterrupted_refl (hi : c.interrupted = true) : c.StaysInterrupted c :=
  staysInterrupted_of_state rfl hi id

theorem Kept.prepare_staysInterrupted (h : c.Kept) (hi : c.interrupted = true) (w : Workspace) :
    c.StaysInterrupted (c.prepare w).cycle := by
  by_cases hp : c.permits .prepareInputs = true
  · have hs : c.state = .created := List.mem_singleton.mp (state_of_permits hp)
    obtain ⟨c', w', hprepare, hc'⟩ := prepare_created hs (h.fresh hs) w
    rw [hprepare, hc'.cycle_eq]
    exact staysInterrupted_of_state rfl hi (by simp)
  · rw [Cycle.prepare, if_neg hp]
    exact staysInterrupted_refl hi

theorem Kept.execute_staysInterrupted (h : c.Kept) (hi : c.interrupted = true) {b : Behaviour}
    {reply : Reply Unit} {report : ExecutionReport}
    (hx : c.execute w b = some (reply, report)) : c.StaysInterrupted reply.cycle := by
  by_cases hp : c.permits .executePlans = true
  · have hs : c.state = .inputsPrepared := List.mem_singleton.mp (state_of_permits hp)
    have hstopped := (h.execute_interrupted hs hi w b).2 _ _ hx
    have hcall : c.call? w (.executePlans b) = some reply := by
      rw [Cycle.call?, hx]
      rfl
    exact ⟨(h.leaves hcall).view_eq, hstopped.interrupted, fun hne _ => by
      simp [(hstopped.stops hne).2.1]⟩
  · rw [Cycle.execute, if_neg hp] at hx
    obtain ⟨rfl, -⟩ := Prod.mk.inj (Option.some.inj hx)
    exact staysInterrupted_refl hi

theorem Kept.call_staysInterrupted (h : c.Kept) (hi : c.interrupted = true) {call : CycleCall}
    {reply : Reply Unit} (hr : c.call? w call = some reply) :
    c.StaysInterrupted reply.cycle := by
  cases call with
  | prepareInputs =>
      obtain rfl := Option.some.inj hr
      exact h.prepare_staysInterrupted hi w
  | computeDelta previous =>
      obtain rfl := Option.some.inj hr
      unfold Cycle.computeDelta
      split
      · split
        · exact (remarks_carryAll previous _ c w).staysInterrupted hi
        · exact staysInterrupted_refl hi
      · exact staysInterrupted_refl hi
  | executePlans b =>
      obtain ⟨⟨reply', report⟩, hx, rfl⟩ := Option.map_eq_some_iff.mp hr
      exact h.execute_staysInterrupted hi hx
  | populateResult moment =>
      obtain rfl := Option.some.inj hr
      unfold Cycle.populate
      split
      · split <;> exact staysInterrupted_of_state rfl hi id
      · exact staysInterrupted_refl hi
  | releaseResources =>
      obtain rfl := Option.some.inj hr
      unfold Cycle.release
      split
      · exact staysInterrupted_of_state rfl hi (by simp [Reply.plain])
      · exact staysInterrupted_refl hi

/-- Nothing that is done to a cycle undoes an interruption. -/
theorem Kept.deed_staysInterrupted (h : c.Kept) (hi : c.interrupted = true) (hd : Deed c c') :
    c.StaysInterrupted c' := by
  cases hd with
  | interrupt => exact staysInterrupted_of_state rfl rfl id
  | mark hm => exact (remarks_mark hm).staysInterrupted hi
  | executableGraph hg => exact (remarks_executableGraph hg).staysInterrupted hi
  | begin => exact staysInterrupted_of_state rfl hi (by simp)
  | call _ hr => exact h.call_staysInterrupted hi hr

theorem Belongs.deeds_staysInterrupted (h : c.Belongs view) (hi : c.interrupted = true)
    (hdeeds : ReflTransGen Deed c c') : c.StaysInterrupted c' ∧ c'.Belongs view := by
  induction hdeeds with
  | refl => exact ⟨staysInterrupted_refl hi, h⟩
  | tail _ hd ih =>
      obtain ⟨hstays, hbelongs⟩ := ih
      exact ⟨hstays.trans (hbelongs.kept.deed_staysInterrupted hstays.interrupted hd),
        hbelongs.deed hd⟩

/-- Whatever was done to a cycle before it was interrupted, and whatever is done to it after, it
stays interrupted, and it does not finish unless it was finished by then. When it comes to execute
its plans, the call returns as soon as a wait begins, whatever the executor does and however far
the executions are: the answer is that the cycle was interrupted, and all executions are asked to
cancel. Only if the view has no configurations there is no wait, and the plans are executed. -/
theorem interrupt_before_executing (view : View) (t : ValuationTime) (c₀ c : Cycle)
    (h₀ : Reached view t c₀) (h : ReflTransGen Deed c₀.interrupt c) :
    c.interrupted = true ∧
    (view.model.names ≠ [] → c₀.state ≠ .finished → c.state ≠ .finished) ∧
    (c.state = .inputsPrepared → ∀ (w : Workspace) (b : Behaviour),
      ((view.model.names ≠ [] → b.Begins) →
        ∃ reply report, c.execute w b = some (reply, report)) ∧
      ∀ reply report, c.execute w b = some (reply, report) →
        (view.model.names ≠ [] → reply.answer = .error .interrupted ∧
          reply.cycle.state = .executionInterrupted ∧ report.cancelled = view.model.names) ∧
        (view.model.names = [] → reply.answer = .ok () ∧ reply.cycle.state = .finished)) := by
  have hbelongs := (h₀.deed (.interrupt c₀)).belongs
  obtain rfl : c₀.view = view := hbelongs.view_eq
  obtain ⟨hstays, hc⟩ := hbelongs.deeds_staysInterrupted rfl h
  refine ⟨hstays.interrupted, hstays.unfinished, fun hs w b => ?_⟩
  obtain ⟨hreturns, hstopped⟩ := hc.kept.execute_interrupted hs hstays.interrupted w b
  rw [hc.view_eq] at hreturns
  refine ⟨hreturns, fun reply report hx => ?_⟩
  obtain ⟨-, hstops, hfinishes⟩ := hstopped reply report hx
  rw [hc.view_eq] at hstops hfinishes
  exact ⟨hstops, hfinishes⟩

namespace Sample

def done : Behaviour := fun names _ => names.map fun _ => ⟨false, id, .ended (.ok ())⟩

def hasty : Cycle := ((Cycle.new sides ⟨1⟩).interrupt.prepare (.new .empty .missing)).cycle

def bare : View where
  definition := { name := "View" }
  model := .ofGraphs []

/-- A cycle of such a view that is interrupted after its inputs are prepared. -/
def belated : Cycle := ((Cycle.new bare ⟨1⟩).prepare (.new .empty .missing)).cycle.interrupt

end Sample

open Cycle.Sample

/-- An early interruption counts for more than executions that are all done. -/
theorem early_interrupt_stops : ∃ reply report,
    hasty.execute (.new .empty .missing) done = some (reply, report) ∧
    reply.answer = .error .interrupted ∧ reply.cycle.state = .executionInterrupted ∧
    report.cancelled = ["Left", "Right"] := by
  have hcall : (Cycle.new sides ⟨1⟩).interrupt.call? (.new .empty .missing) .prepareInputs =
      some ((Cycle.new sides ⟨1⟩).interrupt.prepare (.new .empty .missing)).plain := rfl
  obtain ⟨-, -, hexecute⟩ := interrupt_before_executing sides ⟨1⟩ _ hasty .refl
    (.single (.call (by simp) hcall))
  obtain ⟨hreturns, hstops⟩ := hexecute rfl (.new .empty .missing) done
  obtain ⟨reply, report, hx⟩ := hreturns fun _ name rest x => by simp [done]
  have hnames : sides.model.names = ["Left", "Right"] := by decide +kernel
  have hstopped := (hstops reply report hx).1 (by simp [hnames])
  exact ⟨reply, report, hx, hnames ▸ hstopped⟩

/-- A cycle without configurations finishes though it was interrupted, whatever the executor
does. -/
theorem bare_finishes_interrupted : belated.interrupted = true ∧ belated.state = .inputsPrepared ∧
    ∀ b : Behaviour, ∃ reply report,
      belated.execute (.new .empty .missing) b = some (reply, report) ∧
      reply.answer = .ok () ∧ reply.cycle.state = .finished := by
  have hlived : belated.Lived := .interrupt (.prepare _ (.new bare ⟨1⟩))
  have hnames : belated.view.model.names = [] := rfl
  refine ⟨rfl, rfl, fun b => ?_⟩
  obtain ⟨hreturns, hstopped⟩ := hlived.kept.execute_interrupted rfl rfl (.new .empty .missing) b
  obtain ⟨reply, report, hx⟩ := hreturns fun hne => absurd hnames hne
  exact ⟨reply, report, hx, (hstopped reply report hx).finishes hnames⟩

end Cycle
end ValuationCycle
