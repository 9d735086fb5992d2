import ValuationCycle.Proofs.Cycle.Executing
import ValuationCycle.Proofs.Cycle.Sharing
import ValuationCycle.Proofs.Execution.Stored

/-!
# Desks

At a desk any number of cycles of any views are worked on in one workspace, while
the market moves. Calls on different cycles, changes of the market and the events
of executions come in any order; only executing plans is not one event: a cycle
submits, its runs go on event by event while other things happen, and at some
time its waiting is over. An event is one of four things to the workspace: inputs
are prepared, values are carried over, values are stored, or resources are
released.
-/
namespace ValuationCycle
open Std

structure Seat where
  cycle : Cycle
  runs : ExtTreeMap String Run
  journal : List JournalEntry

/-- What is done with a cycle; the previous cycle of a delta is named by its seat. -/
inductive SeatEvent where
  | prepare
  | carry (previous : Nat)
  | submit
  | run (configuration : String) (event : RunEvent)
  | conclude (verdict : Verdict)
  | populate (moment : ResultTimestamp)
  | release
  | interrupt

namespace Seat

def new (c : Cycle) : Seat := ⟨c, ∅, []⟩

def execution (x : Seat) (w : Workspace) : Execution := ⟨w, x.cycle.marks, x.runs, x.journal⟩

def ofExecution (c : Cycle) (x : Execution) : Seat :=
  ⟨{ c with marks := x.marks }, x.runs, x.journal⟩

def after {α : Type} (x : Seat) (r : Reply α) : Workspace × Seat :=
  (r.workspace, { x with cycle := r.cycle })

/-- Submits what is left of every graph, if the state allows it. -/
def submit (x : Seat) (w : Workspace) : Seat :=
  if x.cycle.permits .executePlans then
    match { x.cycle with state := .executing }.submissions x.cycle.view.model.graphs.toList with
    | (c, .error _) => { x with cycle := c }
    | (c, .ok submitted) =>
      ofExecution c (submitted.foldl (fun x s => x.submit s.request) (Execution.start w c.marks))
  else x

def conclude (x : Seat) (w : Workspace) (verdict : Verdict) : Seat :=
  { x with cycle := x.cycle.close ⟨verdict, [], x.execution w⟩ }

/-- The effect of an event on a cycle and on the workspace, if it can happen now. A call that
is refused happens and changes nothing. -/
def step? (x : Seat) (w : Workspace) (seats : List Seat) : SeatEvent → Option (Workspace × Seat)
  | .prepare => some (x.after (x.cycle.prepare w))
  | .carry previous => seats[previous]?.map fun y => x.after (x.cycle.computeDelta w y.cycle)
  | .submit => some (w, x.submit w)
  | .run configuration e =>
    ((x.execution w).step? configuration e).map fun y => (y.workspace, ofExecution x.cycle y)
  | .conclude verdict =>
    if x.cycle.state = .executing then some (w, x.conclude w verdict) else none
  | .populate moment => some (x.after (x.cycle.populate w moment))
  | .release => some (x.after (x.cycle.release w))
  | .interrupt => some (w, { x with cycle := x.cycle.interrupt })

def stored (x : Seat) (w : Workspace) : SeatEvent → List Storing
  | .run configuration e => (x.execution w).storedBy configuration e
  | _ => []

def freed (x : Seat) : SeatEvent → List ValuationTime
  | .release => if x.cycle.permits .releaseResources then [x.cycle.time] else []
  | _ => []

end Seat

inductive DeskEvent where
  | set (requirement : Requirement) (value : Json.Value)
  | remove (requirement : Requirement)
  | create (view : View) (time : ValuationTime)
  | act (seat : Nat) (event : SeatEvent)

structure Desk where
  workspace : Workspace
  seats : List Seat

namespace Desk

def start (r : Repository) (dumps : DumpDirectory) : Desk := ⟨.new r dumps, []⟩

def move (d : Desk) (liveData : LiveData) : Desk :=
  { d with workspace := { d.workspace with liveData } }

def step? (d : Desk) : DeskEvent → Option Desk
  | .set r v => some (d.move (d.workspace.liveData.set r v).1)
  | .remove r => some (d.move (d.workspace.liveData.remove r).1)
  | .create view t => some { d with seats := d.seats ++ [.new (.new view t)] }
  | .act i e => d.seats[i]?.bind fun x =>
    (x.step? d.workspace d.seats e).map fun r => ⟨r.1, d.seats.set i r.2⟩

def steps? (d : Desk) (es : List DeskEvent) : Option Desk := es.foldlM step? d

def stored (d : Desk) : DeskEvent → List Storing
  | .act i e => (d.seats[i]?.map fun x => x.stored d.workspace e).getD []
  | _ => []

def freed (d : Desk) : DeskEvent → List ValuationTime
  | .act i e => (d.seats[i]?.map fun x => x.freed e).getD []
  | _ => []

/-- The events of a row, each with the desk at which it happens. -/
def moments : Desk → List DeskEvent → List (Desk × DeskEvent)
  | _, [] => []
  | d, e :: es => (d, e) :: ((d.step? e).map fun d => d.moments es).getD []

variable {d d' : Desk} {e : DeskEvent} {es fs : List DeskEvent}

theorem steps?_cons (d : Desk) (e : DeskEvent) (es : List DeskEvent) :
    d.steps? (e :: es) = (d.step? e).bind fun d => d.steps? es := rfl

theorem steps?_append (d : Desk) (es fs : List DeskEvent) :
    d.steps? (es ++ fs) = (d.steps? es).bind fun d => d.steps? fs := by
  rw [steps?, List.foldlM_append]
  rfl

theorem moments_cons (h : d.step? e = some d') : d.moments (e :: es) = (d, e) :: d'.moments es := by
  rw [moments, h]
  rfl

theorem moments_append (h : d.steps? es = some d') :
    d.moments (es ++ fs) = d.moments es ++ d'.moments fs := by
  induction es generalizing d with
  | nil =>
      obtain rfl := Option.some.inj h
      rfl
  | cons e es ih =>
      rw [steps?_cons] at h
      obtain ⟨d₁, he, hes⟩ := Option.bind_eq_some_iff.mp h
      rw [List.cons_append, moments_cons he, moments_cons he, ih hes, List.cons_append]

theorem steps?_induction {P : Desk → Prop} (h : d.steps? es = some d')
    (hstep : ∀ m ∈ d.moments es, ∀ d₁, P m.1 → m.1.step? m.2 = some d₁ → P d₁) (hd : P d) :
    P d' := by
  induction es generalizing d with
  | nil => exact Option.some.inj h ▸ hd
  | cons e es ih =>
      rw [steps?_cons] at h
      obtain ⟨d₁, he, h⟩ := Option.bind_eq_some_iff.mp h
      rw [moments_cons he] at hstep
      exact ih h (fun m hm => hstep m (by simp [hm])) (hstep (d, e) (by simp) d₁ hd he)

end Desk

namespace Cycle

/-- A cycle that neither gets caches nor loses them. -/
structure Stays (c c' : Cycle) : Prop where
  view_eq : c'.view = c.view
  time_eq : c'.time = c.time
  handles_eq : c'.handles = c.handles
  created_iff : c'.state = .created ↔ c.state = .created
  cleaned_iff : c'.state = .cleaned ↔ c.state = .cleaned

theorem stays_refl (c : Cycle) : c.Stays c := ⟨rfl, rfl, rfl, Iff.rfl, Iff.rfl⟩

theorem Remarks.stays {c c' : Cycle} (h : c.Remarks c') : c.Stays c' := by
  rw [h.cycle_eq]
  exact ⟨rfl, rfl, rfl, Iff.rfl, Iff.rfl⟩

theorem stays_populate (c : Cycle) (w : Workspace) (moment : ResultTimestamp) :
    c.Stays (c.populate w moment).cycle ∧ (c.populate w moment).workspace = w := by
  unfold populate
  split
  · split <;> exact ⟨⟨rfl, rfl, rfl, Iff.rfl, Iff.rfl⟩, rfl⟩
  · exact ⟨c.stays_refl, rfl⟩

/-- What becomes of a cycle whose resources are released, and of the workspace. -/
structure Releases (c : Cycle) (w : Workspace) (c' : Cycle) (w' : Workspace) : Prop where
  state_mem : c.state ∈ CycleOperation.releaseResources.allowedIn
  cycle_eq : c' = { c with handles := ∅, state := .cleaned }
  liveData_eq : w'.liveData = w.liveData.release c.time
  caches_eq : w'.caches = w.caches.release c.view.name c.time

theorem release_of_permits {c : Cycle} (hp : c.permits .releaseResources = true) (w : Workspace) :
    Releases c w (c.release w).cycle (c.release w).workspace := by
  rw [release, if_pos hp]
  refine ⟨state_of_permits hp, rfl, ?_, ?_⟩ <;> dsimp only <;> split <;> rfl

/-- What an event of a cycle does to the cycle and to the workspace, what it stores and which
time it releases. -/
inductive Moves (c : Cycle) (w : Workspace) (c' : Cycle) (w' : Workspace) :
    List Storing → List ValuationTime → Prop
  | prepared : c.state = .created → Prepares c w c' w' → Moves c w c' w' [] []
  | carried (previous : Cycle) (k : Nat) : c.Ready ⟨c.view.name, c.time, k⟩ → c.Stays c' →
      w' = (carryAll previous c w c.view.model.graphs.toList).workspace → Moves c w c' w' [] []
  | stored {vs : List Storing} : c.Stays c' → w.Stored vs w' → Moves c w c' w' vs []
  | released : Releases c w c' w' → Moves c w c' w' [] [c.time]

theorem moves_refl (c : Cycle) (w : Workspace) : Moves c w c w [] [] :=
  .stored c.stays_refl w.stored_refl

end Cycle

namespace Seat
variable {x y : Seat} {w w' : Workspace} {seats : List Seat} {e : SeatEvent}

theorem submit_cycle (hp : x.cycle.permits .executePlans = true) (w : Workspace) :
    (x.submit w).cycle =
      { x.cycle with state := .executing, marks := (x.submit w).cycle.marks } := by
  have hframe := Cycle.remarks_submissions x.cycle.view.model.graphs.toList
    { x.cycle with state := .executing }
  rw [submit, if_pos hp]
  split
  · next c err hc =>
      have hcycle : c = { x.cycle with state := .executing, marks := c.marks } := by
        simpa [hc] using hframe.cycle_eq
      exact hcycle
  · next c submitted hc =>
      have hcycle : c = { x.cycle with state := .executing, marks := c.marks } := by
        simpa [hc] using hframe.cycle_eq
      rw [ofExecution, hcycle]

theorem submit_eq (hp : x.cycle.permits .executePlans = true) {c : Cycle}
    {submitted : List Submission} {requests : List Request}
    (hsubmissions : { x.cycle with state := .executing }.submissions
      x.cycle.view.model.graphs.toList = (c, .ok submitted))
    (hrequests : submitted.map Submission.request = requests) :
    x.submit w = .ofExecution c (Execution.submitAll w c.marks requests) := by
  rw [submit, if_pos hp, hsubmissions]
  dsimp only
  rw [Cycle.foldl_submit w c.marks hrequests]

theorem stays_submit (x : Seat) (w : Workspace) : x.cycle.Stays (x.submit w).cycle := by
  by_cases hp : x.cycle.permits .executePlans = true
  · have hs : x.cycle.state = .inputsPrepared := List.mem_singleton.mp (Cycle.state_of_permits hp)
    rw [submit_cycle hp]
    exact ⟨rfl, rfl, rfl, by simp [hs], by simp [hs]⟩
  · rw [submit, if_neg hp]
    exact x.cycle.stays_refl

theorem stays_conclude (hs : x.cycle.state = .executing) (verdict : Verdict) :
    x.cycle.Stays (x.conclude w verdict).cycle := by
  refine ⟨rfl, rfl, rfl, ?_, ?_⟩ <;>
    cases verdict <;> simp [conclude, Cycle.close, Cycle.conclude, hs]

theorem ofExecution_remarks {configuration : String} {event : RunEvent} {z : Execution}
    (h : (x.execution w).step? configuration event = some z) :
    x.cycle.Remarks (ofExecution x.cycle z).cycle := by
  obtain ⟨s, s', -, -, rfl⟩ := Execution.step?_eq_some h
  exact x.cycle.remarks_setMarks configuration s'.marks

theorem step?_moves (hx : x.cycle.Kept) (h : x.step? w seats e = some (w', y)) :
    Cycle.Moves x.cycle w y.cycle w' (x.stored w e) (x.freed e) := by
  cases e with
  | prepare =>
      obtain ⟨rfl, rfl⟩ := Prod.mk.inj (Option.some.inj h)
      by_cases hp : x.cycle.permits .prepareInputs = true
      · have hs : x.cycle.state = .created := List.mem_singleton.mp (Cycle.state_of_permits hp)
        obtain ⟨c', w', hprepare, hc'⟩ := Cycle.prepare_created hs (hx.fresh hs) w
        rw [hprepare]
        exact .prepared hs hc'
      · rw [Cycle.prepare, if_neg hp]
        exact Cycle.moves_refl _ _
  | carry previous =>
      obtain ⟨z, -, hz⟩ := Option.map_eq_some_iff.mp h
      obtain ⟨rfl, rfl⟩ := Prod.mk.inj hz
      dsimp only
      unfold Cycle.computeDelta
      split
      · next hp =>
          split
          · obtain ⟨k, hk⟩ := hx.ready (List.mem_singleton.mp (Cycle.state_of_permits hp))
            exact .carried z.cycle k hk (Cycle.remarks_carryAll z.cycle _ x.cycle w).stays rfl
          · exact Cycle.moves_refl _ _
      · exact Cycle.moves_refl _ _
  | submit =>
      obtain ⟨rfl, rfl⟩ := Prod.mk.inj (Option.some.inj h)
      exact .stored (x.stays_submit w) w.stored_refl
  | run configuration event =>
      obtain ⟨z, hz, hy⟩ := Option.map_eq_some_iff.mp h
      obtain ⟨rfl, rfl⟩ := Prod.mk.inj hy
      exact .stored (ofExecution_remarks hz).stays (Execution.step?_stored hz)
  | conclude verdict =>
      obtain ⟨hs, hy⟩ := Option.ite_none_right_eq_some.mp h
      obtain ⟨rfl, rfl⟩ := Prod.mk.inj (Option.some.inj hy)
      exact .stored (stays_conclude hs verdict) w.stored_refl
  | populate moment =>
      obtain ⟨rfl, rfl⟩ := Prod.mk.inj (Option.some.inj h)
      obtain ⟨hstays, hworkspace⟩ := x.cycle.stays_populate w moment
      rw [hworkspace]
      exact .stored hstays w.stored_refl
  | release =>
      obtain ⟨rfl, rfl⟩ := Prod.mk.inj (Option.some.inj h)
      by_cases hp : x.cycle.permits .releaseResources = true
      · rw [freed, if_pos hp]
        exact .released (Cycle.release_of_permits hp w)
      · rw [freed, if_neg hp, Cycle.release, if_neg hp]
        exact Cycle.moves_refl _ _
  | interrupt =>
      obtain ⟨rfl, rfl⟩ := Prod.mk.inj (Option.some.inj h)
      exact .stored ⟨rfl, rfl, rfl, Iff.rfl, Iff.rfl⟩ w.stored_refl

theorem step?_kept (hx : x.cycle.Kept) (h : x.step? w seats e = some (w', y)) : y.cycle.Kept := by
  cases e with
  | prepare =>
      obtain ⟨-, rfl⟩ := Prod.mk.inj (Option.some.inj h)
      exact hx.prepare w
  | carry previous =>
      obtain ⟨z, -, hz⟩ := Option.map_eq_some_iff.mp h
      obtain ⟨-, rfl⟩ := Prod.mk.inj hz
      exact hx.computeDelta w z.cycle
  | submit =>
      obtain ⟨-, rfl⟩ := Prod.mk.inj (Option.some.inj h)
      by_cases hp : x.cycle.permits .executePlans = true
      · have hs : x.cycle.state = .inputsPrepared :=
          List.mem_singleton.mp (Cycle.state_of_permits hp)
        rw [submit_cycle hp]
        exact hx.executed (by simp [hs]) rfl rfl rfl (by simp)
      · rw [submit, if_neg hp]
        exact hx
  | run configuration event =>
      obtain ⟨z, hz, hy⟩ := Option.map_eq_some_iff.mp h
      obtain ⟨-, rfl⟩ := Prod.mk.inj hy
      exact (ofExecution_remarks hz).kept hx
  | conclude verdict =>
      obtain ⟨hs, hy⟩ := Option.ite_none_right_eq_some.mp h
      obtain ⟨-, rfl⟩ := Prod.mk.inj (Option.some.inj hy)
      refine hx.executed (by simp [hs]) rfl rfl rfl ?_
      cases verdict <;> simp [conclude, Cycle.close, Cycle.conclude]
  | populate moment =>
      obtain ⟨-, rfl⟩ := Prod.mk.inj (Option.some.inj h)
      exact hx.populate w moment
  | release =>
      obtain ⟨-, rfl⟩ := Prod.mk.inj (Option.some.inj h)
      exact hx.release w
  | interrupt =>
      obtain ⟨-, rfl⟩ := Prod.mk.inj (Option.some.inj h)
      exact hx.interrupt

end Seat

namespace Desk
variable {d d' : Desk} {e : DeskEvent} {es : List DeskEvent}

def Kept (d : Desk) : Prop := ∀ x ∈ d.seats, x.cycle.Kept

theorem kept_start (r : Repository) (dumps : DumpDirectory) : (start r dumps).Kept :=
  fun _ hx => absurd hx List.not_mem_nil

theorem act_eq_some {i : Nat} {e : SeatEvent} (h : d.step? (.act i e) = some d') :
    ∃ x y, d.seats[i]? = some x ∧ x.step? d.workspace d.seats e = some (d'.workspace, y) ∧
      d'.seats = d.seats.set i y := by
  obtain ⟨x, hx, h⟩ := Option.bind_eq_some_iff.mp h
  obtain ⟨⟨w, y⟩, hy, rfl⟩ := Option.map_eq_some_iff.mp h
  exact ⟨x, y, hx, hy, rfl⟩

/-- An event changes what the market is now, creates a cycle, or is an event of one cycle. -/
theorem step?_cases (hd : d.Kept) (h : d.step? e = some d') :
    (∃ current, d' = d.move { d.workspace.liveData with current }) ∨
    (∃ view t, e = .create view t ∧ d' = { d with seats := d.seats ++ [.new (.new view t)] }) ∨
    ∃ i x y, d.seats[i]? = some x ∧ d'.seats = d.seats.set i y ∧
      Cycle.Moves x.cycle d.workspace y.cycle d'.workspace (d.stored e) (d.freed e) := by
  cases e with
  | set r v => exact .inl ⟨_, (Option.some.inj h).symm⟩
  | remove r => exact .inl ⟨_, (Option.some.inj h).symm⟩
  | create view t => exact .inr (.inl ⟨view, t, rfl, (Option.some.inj h).symm⟩)
  | act i e =>
      obtain ⟨x, y, hx, hy, hseats⟩ := act_eq_some h
      refine .inr (.inr ⟨i, x, y, hx, hseats, ?_⟩)
      rw [stored, freed, hx]
      exact Seat.step?_moves (hd x (List.mem_of_getElem? hx)) hy

theorem Kept.step (hd : d.Kept) (h : d.step? e = some d') : d'.Kept := by
  cases e with
  | set r v => exact Option.some.inj h ▸ hd
  | remove r => exact Option.some.inj h ▸ hd
  | create view t =>
      obtain rfl := Option.some.inj h
      intro x hx
      rcases List.mem_append.mp hx with hx | hx
      · exact hd x hx
      · rw [List.mem_singleton.mp hx]
        exact Cycle.kept_new view t
  | act i e =>
      obtain ⟨x, y, hx, hy, hseats⟩ := act_eq_some h
      intro z hz
      rw [hseats] at hz
      rcases List.mem_or_eq_of_mem_set hz with hz | rfl
      · exact hd z hz
      · exact Seat.step?_kept (hd x (List.mem_of_getElem? hx)) hy

theorem Kept.steps (hd : d.Kept) (h : d.steps? es = some d') : d'.Kept :=
  steps?_induction h (fun _ _ _ hd he => hd.step he) hd

theorem step?_act {i : Nat} {x y : Seat} {e : SeatEvent} {w : Workspace}
    (hx : d.seats[i]? = some x) (h : x.step? d.workspace d.seats e = some (w, y)) :
    d.step? (.act i e) = some ⟨w, d.seats.set i y⟩ := by
  rw [step?, hx, Option.bind_some, h]
  rfl

theorem steps?_runs {seats : List Seat} {i : Nat} (hi : i < seats.length) (c : Cycle)
    {x y : Execution} {es : List (String × RunEvent)} (h : x.steps? es = some y) :
    steps? ⟨x.workspace, seats.set i (.ofExecution c x)⟩ (es.map fun e => .act i (.run e.1 e.2)) =
      some ⟨y.workspace, seats.set i (.ofExecution c y)⟩ := by
  induction es generalizing x with
  | nil =>
      obtain rfl := Option.some.inj h
      rfl
  | cons e es ih =>
      rw [Execution.steps?_cons] at h
      obtain ⟨z, he, h⟩ := Option.bind_eq_some_iff.mp h
      have hrun : (Seat.ofExecution c x).step? x.workspace (seats.set i (.ofExecution c x))
          (.run e.1 e.2) = some (z.workspace, .ofExecution c z) := by
        change (x.step? e.1 e.2).map _ = _
        rw [he]
        rfl
      rw [List.map_cons, steps?_cons, step?_act (List.getElem?_set_self hi) hrun, Option.bind_some,
        List.set_set]
      exact ih h

/-- Executing plans by executions that run here is a row of events. -/
theorem steps?_execute {i : Nat} {x : Seat} {k : Nat} (hx : d.seats[i]? = some x)
    (hready : x.cycle.Ready ⟨x.cycle.view.name, x.cycle.time, k⟩) {b : Behaviour} (hb : b.Local)
    {reply : Reply Unit} {report : ExecutionReport}
    (h : x.cycle.execute d.workspace b = some (reply, report)) :
    ∃ (es : List (String × RunEvent)) (verdict : Verdict) (y : Seat), y.cycle = reply.cycle ∧
      d.steps? (.act i .submit :: es.map (fun e => .act i (.run e.1 e.2)) ++
        [.act i (.conclude verdict)]) = some ⟨reply.workspace, d.seats.set i y⟩ := by
  obtain ⟨c, submitted, hsubmissions, hc, hrequests, -, heq⟩ := hready.execute_eq d.workspace
  rw [heq, Option.map_eq_some_iff] at h
  obtain ⟨r, hwait, hr⟩ := h
  obtain ⟨rfl, -⟩ := Prod.mk.inj hr
  obtain ⟨es, hes⟩ := waitFor_steps (hb _ _) hwait
  -- submitting leads to the execution that `execute` waits for, waiting to some row of its events
  set z := Execution.submitAll d.workspace c.marks
    (x.cycle.requests ⟨x.cycle.view.name, x.cycle.time, k⟩) with hz
  have hi : i < d.seats.length := (List.getElem?_eq_some_iff.mp hx).1
  have hpermits : x.cycle.permits .executePlans = true := by
    rw [Cycle.permits, hready.state_eq]
    rfl
  have hsubmit : d.step? (.act i .submit) =
      some ⟨z.workspace, d.seats.set i (.ofExecution c z)⟩ := by
    have hseat : x.submit d.workspace = .ofExecution c z :=
      Seat.submit_eq hpermits hsubmissions hrequests
    rw [hz, (Execution.submitAll_frame _ _ _).1, ← hz, ← hseat]
    exact step?_act hx rfl
  have hconclude : (Seat.ofExecution c r.execution).step? r.execution.workspace
      (d.seats.set i (.ofExecution c r.execution)) (.conclude r.verdict) =
      some (r.execution.workspace, (Seat.ofExecution c r.execution).conclude r.execution.workspace
        r.verdict) := by
    rw [Seat.step?, if_pos]
    change c.state = .executing
    rw [hc]
  refine ⟨es, r.verdict,
    (Seat.ofExecution c r.execution).conclude r.execution.workspace r.verdict, rfl, ?_⟩
  rw [List.cons_append, steps?_cons, hsubmit, Option.bind_some, steps?_append,
    steps?_runs hi c hes, Option.bind_some, steps?_cons,
    step?_act (List.getElem?_set_self hi) hconclude, List.set_set]
  rfl

end Desk
end ValuationCycle
