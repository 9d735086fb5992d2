import ValuationCycle.Proofs.Market.Snapshots

/-!
# Announcements that are heard

Whoever is registered hears, in the order of the calls, of each change that is made to the market
while the registration is in force: of a value where there was none, of a value in the place of one
that does not stand for the same, and of a value taken away. Nobody hears of anything else.

Announcements reach listeners, not registrations, and a listener may be registered several times.
To tell its registrations apart, each is made with a listener of its own, who is told the number;
that a board treats all listeners alike carries what is heard then over to any listeners.
-/
namespace ValuationCycle
open Json

namespace LiveData

/-- The change that a call makes to the market that some calls have left, if it makes any. -/
def changeAfter (before : List Call) : Call → Option ChangeEvent
  | .set r v =>
      match valueAfter before r with
      | none => some ⟨.added, r.target.identifier⟩
      | some held => if held.same v then none else some ⟨.changed, r.target.identifier⟩
  | .remove r => (valueAfter before r).map fun _ => ⟨.removed, r.target.identifier⟩
  | .snapshot _ | .query _ _ | .release _ => none

def changesAfter (before : List Call) : List Call → List ChangeEvent
  | [] => []
  | x :: rest => (changeAfter before x).toList ++ changesAfter (before ++ [x]) rest

end LiveData

namespace Board
variable {α β : Type} {b : Board α} {p : α → Bool} {a : α} {k : Nat}

def known : Board α → List (Nat × α)
  | silent => []
  | announcing l => l.registered

def map (f : α → β) : Board α → Board β
  | silent => silent
  | announcing l => announcing ⟨l.last, l.registered.map (Prod.map id f)⟩

theorem audience_eq (b : Board α) : b.audience = b.known.map Prod.snd := by
  cases b <;> rfl

theorem known_remove (b : Board α) (k : Nat) :
    (b.remove k).1.known = b.known.filter fun r => r.1 != k := by
  cases b <;> rfl

theorem remove_snd (b : Board α) (k : Nat) : (b.remove k).2 = b.known.any fun r => r.1 == k := by
  cases b <;> rfl

theorem mem_known_add {r : Nat × α} (h : r ∈ (b.add a).1.known) : r ∈ b.known ∨ r.2 = a := by
  cases b with
  | silent => exact .inl h
  | announcing l =>
      rcases List.mem_append.mp h with hknown | hnew
      · exact .inl hknown
      · obtain rfl := List.mem_singleton.mp hnew
        exact .inr rfl

/-- A listener who is not asked about does not show in the registrations that are. -/
theorem filter_known_add (ha : p a = false) :
    (b.add a).1.known.filter (fun r => p r.2) = b.known.filter fun r => p r.2 := by
  cases b with
  | silent => rfl
  | announcing l => simp [add, known, Listeners.add, ha]

theorem filter_known_remove (b : Board α) (p : α → Bool) (k : Nat) :
    (b.remove k).1.known.filter (fun r => p r.2) =
      (b.known.filter fun r => p r.2).filter fun r => r.1 != k := by
  rw [known_remove, List.filter_filter, List.filter_filter]
  simp only [Bool.and_comm]

theorem map_add (f : α → β) (b : Board α) (a : α) :
    ((b.map f).add (f a)).1 = (b.add a).1.map f := by
  cases b with
  | silent => rfl
  | announcing l => simp [map, add, Listeners.add]

theorem map_remove (f : α → β) (b : Board α) (k : Nat) :
    ((b.map f).remove k).1 = (b.remove k).1.map f := by
  cases b with
  | silent => rfl
  | announcing l =>
      simp only [map, remove, Listeners.remove, List.filter_map]
      rfl

theorem map_audience (f : α → β) (b : Board α) : (b.map f).audience = b.audience.map f := by
  cases b with
  | silent => rfl
  | announcing l => simp [map, audience]

end Board

namespace Exchange
variable {α β : Type}

inductive Call (α : Type) where
  | market (x : LiveData.Call)
  | listen (listener : α)
  | unlisten (number : Nat)

namespace Call

/-- What a call leaves, and who hears what of it. -/
def run (e : Exchange α) : Call α → Exchange α × List (α × ChangeEvent)
  | market (.set r v) => e.set r v
  | market (.remove r) => e.remove r
  | market x => ({ e with data := x.apply e.data }, [])
  | listen a => ({ e with board := (e.board.add a).1 }, [])
  | unlisten k => ({ e with board := (e.board.remove k).1 }, [])

def market? : Call α → Option LiveData.Call
  | market x => some x
  | listen _ | unlisten _ => none

def listener? : Call α → Option α
  | listen a => some a
  | market _ | unlisten _ => none

def ends (k : Nat) : Call α → Bool
  | unlisten j => j == k
  | market _ | listen _ => false

def map (f : α → β) : Call α → Call β
  | market x => market x
  | listen a => listen (f a)
  | unlisten k => unlisten k

@[simp] theorem ends_market (x : LiveData.Call) (k : Nat) :
    (market x : Call α).ends k = false := rfl

@[simp] theorem ends_listen (a : α) (k : Nat) : (listen a).ends k = false := rfl

@[simp] theorem ends_unlisten (j k : Nat) : (unlisten j : Call α).ends k = (j == k) := rfl

end Call

def after (e : Exchange α) (calls : List (Call α)) : Exchange α :=
  calls.foldl (fun e x => (x.run e).1) e

def heard (e : Exchange α) : List (Call α) → List (α × ChangeEvent)
  | [] => []
  | x :: rest => (x.run e).2 ++ heard (x.run e).1 rest

def hearing (p : α → Bool) (deliveries : List (α × ChangeEvent)) : List ChangeEvent :=
  (deliveries.filter fun d => p d.1).map Prod.snd

def marketCalls (calls : List (Call α)) : List LiveData.Call := calls.filterMap Call.market?

def listeners (calls : List (Call α)) : List α := calls.filterMap Call.listener?

def numberAfter (calls : List (Call α)) : Nat := (listeners calls).length + 1

/-- The same calls, `made` registrations having been made before, with each listener told its
number. -/
def numbered (made : Nat) : List (Call α) → List (Call (Nat × α))
  | [] => []
  | .market x :: rest => .market x :: numbered made rest
  | .listen a :: rest => .listen (made + 1, a) :: numbered (made + 1) rest
  | .unlisten k :: rest => .unlisten k :: numbered made rest

def opened : Exchange α := new (.announcing .empty)

/-- A registration made by some calls and not ended by those after it. -/
def InForce (calls : List (Call α)) (k : Nat) (a : α) : Prop :=
  ∃ before later, calls = before ++ .listen a :: later ∧ k = numberAfter before ∧
    .unlisten k ∉ later

variable {e : Exchange α} {p : α → Bool} {a : α} {k : Nat} {calls before later : List (Call α)}

theorem after_append (e : Exchange α) (before later : List (Call α)) :
    e.after (before ++ later) = (e.after before).after later := List.foldl_append

theorem after_concat (e : Exchange α) (calls : List (Call α)) (x : Call α) :
    e.after (calls ++ [x]) = (x.run (e.after calls)).1 := after_append e calls [x]

theorem heard_append (e : Exchange α) (before later : List (Call α)) :
    e.heard (before ++ later) = e.heard before ++ (e.after before).heard later := by
  induction before generalizing e with
  | nil => rfl
  | cons x before ih =>
      rw [List.cons_append, heard, heard, ih, List.append_assoc]
      rfl

theorem hearing_append (p : α → Bool) (earlier more : List (α × ChangeEvent)) :
    hearing p (earlier ++ more) = hearing p earlier ++ hearing p more := by
  simp [hearing]

@[simp] theorem marketCalls_cons (x : Call α) (calls : List (Call α)) :
    marketCalls (x :: calls) = x.market?.toList ++ marketCalls calls := by
  cases x <;> rfl

@[simp] theorem listeners_nil : listeners ([] : List (Call α)) = [] := rfl

@[simp] theorem listeners_cons (x : Call α) (calls : List (Call α)) :
    listeners (x :: calls) = x.listener?.toList ++ listeners calls := by
  cases x <;> rfl

@[simp] theorem listeners_append (before later : List (Call α)) :
    listeners (before ++ later) = listeners before ++ listeners later := List.filterMap_append

theorem mem_listeners : a ∈ listeners calls ↔ .listen a ∈ calls := by
  rw [listeners, List.mem_filterMap]
  constructor
  · rintro ⟨x, hx, ha⟩
    cases x with
    | listen b =>
        obtain rfl := Option.some.inj ha
        exact hx
    | market _ | unlisten _ => simp [Call.listener?] at ha
  · intro h
    exact ⟨.listen a, h, rfl⟩

/-- A call to the market, on the market that some calls have left: the change that it makes is
announced to those who are registered. -/
theorem run_market {before : List LiveData.Call} (h : e.data = LiveData.after before)
    (x : LiveData.Call) :
    (Call.market x).run e = ({ e with data := LiveData.after (before ++ [x]) },
      e.announce (LiveData.changeAfter before x)) := by
  rw [LiveData.after_concat, ← h]
  cases x with
  | set r v =>
      have hchange : e.data.changeOfSet r v = LiveData.changeAfter before (.set r v) := by
        rw [LiveData.changeOfSet, h, LiveData.current_after]
        rfl
      rw [← hchange]
      rfl
  | remove r =>
      have hchange : (e.data.remove r).2 = LiveData.changeAfter before (.remove r) := by
        have hheld : e.data.current.contains r = (LiveData.valueAfter before r).isSome := by
          rw [Std.ExtTreeMap.contains_eq_isSome_getElem?, h, LiveData.current_after]
        rw [LiveData.remove, LiveData.changeAfter, hheld]
        cases LiveData.valueAfter before r <;> rfl
      rw [← hchange]
      rfl
  | snapshot _ | query _ _ | release _ => rfl

theorem hearing_announce (e : Exchange α) (p : α → Bool) (event : Option ChangeEvent) :
    hearing p (e.announce event) =
      (e.board.known.filter fun r => p r.2).flatMap fun _ => event.toList := by
  cases event with
  | none => simp [announce, hearing]
  | some event =>
      rw [announce, hearing, Board.audience_eq, List.filter_map, List.filter_map, List.map_map,
        List.map_map, Option.toList_some, ← List.map_eq_flatMap]
      rfl

theorem mem_run {x : Call α} {d : α × ChangeEvent} (h : d ∈ (x.run e).2) :
    d.1 ∈ e.board.audience := by
  have hannounced : ∀ event, d ∈ e.announce event → d.1 ∈ e.board.audience := by
    intro event hd
    cases event with
    | none => exact absurd hd List.not_mem_nil
    | some event =>
        obtain ⟨a, ha, rfl⟩ := List.mem_map.mp hd
        exact ha
  cases x with
  | market x =>
      cases x with
      | set _ _ => exact hannounced _ h
      | remove _ => exact hannounced _ h
      | snapshot _ | query _ _ | release _ => exact absurd h List.not_mem_nil
  | listen _ | unlisten _ => exact absurd h List.not_mem_nil

theorem audience_run {x : Call α} (h : a ∈ (x.run e).1.board.audience) :
    a ∈ e.board.audience ∨ x.listener? = some a := by
  cases x with
  | market x => cases x <;> exact .inl h
  | listen b =>
      rw [Board.audience_eq] at h ⊢
      obtain ⟨r, hr, rfl⟩ := List.mem_map.mp h
      rcases Board.mem_known_add hr with hknown | hb
      · exact .inl (List.mem_map_of_mem hknown)
      · exact .inr (congrArg some hb.symm)
  | unlisten k =>
      rw [Board.audience_eq] at h ⊢
      obtain ⟨r, hr, rfl⟩ := List.mem_map.mp h
      change r ∈ (e.board.remove k).1.known at hr
      rw [Board.known_remove] at hr
      exact .inl (List.mem_map_of_mem (List.mem_filter.mp hr).1)

/-- Nobody hears of anything who is not registered at first or by the calls. -/
theorem mem_heard {d : α × ChangeEvent} (h : d ∈ e.heard calls) :
    d.1 ∈ e.board.audience ∨ d.1 ∈ listeners calls := by
  induction calls generalizing e with
  | nil => exact absurd h List.not_mem_nil
  | cons x calls ih =>
      rw [listeners_cons, List.mem_append]
      rcases List.mem_append.mp h with hnow | hlater
      · exact .inl (mem_run hnow)
      · rcases ih hlater with hregistered | hcalls
        · rcases audience_run hregistered with hbefore | hx
          · exact .inl hbefore
          · exact .inr (.inl (by simp [hx]))
        · exact .inr (.inr hcalls)

theorem hearing_eq_nil (hboard : ∀ a ∈ e.board.audience, p a = false)
    (hcalls : ∀ a ∈ listeners calls, p a = false) : hearing p (e.heard calls) = [] := by
  rw [hearing, List.map_eq_nil_iff, List.filter_eq_nil_iff]
  intro d hd
  rcases mem_heard hd with h | h
  · simp [hboard _ h]
  · simp [hcalls _ h]

/-- Those with one registration hear of the changes until it is ended. -/
theorem hearing_of_known {before : List LiveData.Call} (hdata : e.data = LiveData.after before)
    (hknown : (e.board.known.filter fun r => p r.2) = [(k, a)])
    (hcalls : ∀ b ∈ listeners calls, p b = false) :
    hearing p (e.heard calls) =
      LiveData.changesAfter before (marketCalls (calls.takeWhile fun x => !x.ends k)) := by
  induction calls generalizing e before with
  | nil => rfl
  | cons x calls ih =>
      rw [heard, hearing_append]
      cases x with
      | market x =>
          have hrest := ih (e := ⟨LiveData.after (before ++ [x]), e.board⟩) rfl hknown hcalls
          rw [run_market hdata, hearing_announce, hknown, hrest,
            List.takeWhile_cons_of_pos (by simp), marketCalls_cons]
          simp [Call.market?, LiveData.changesAfter]
      | listen b =>
          obtain ⟨hb, hcalls⟩ := List.forall_mem_cons.mp hcalls
          exact ih hdata ((Board.filter_known_add hb).trans hknown) hcalls
      | unlisten j =>
          have hleft := (Board.filter_known_remove e.board p j).trans (congrArg _ hknown)
          by_cases hj : j = k
          · subst hj
            -- Nobody asked about is left, and the calls that remain register nobody asked about.
            rw [List.takeWhile_cons_of_neg (by simp)]
            refine hearing_eq_nil (fun b hb => ?_) hcalls
            rw [Board.audience_eq] at hb
            obtain ⟨r, hr, rfl⟩ := List.mem_map.mp hb
            have hnone : ((e.board.remove j).1.known.filter fun r => p r.2) = [] := by
              simpa using hleft
            exact Bool.eq_false_iff.mpr (List.filter_eq_nil_iff.mp hnone r hr)
          · rw [List.takeWhile_cons_of_pos (by simp [hj])]
            refine ih hdata (hleft.trans ?_) hcalls
            simp [Ne.symm hj]

/-! ## Boards after calls -/

theorem data_after (calls : List (Call α)) :
    (opened.after calls).data = LiveData.after (marketCalls calls) := by
  induction calls using List.reverseRecOn with
  | nil => rfl
  | append_singleton calls x ih =>
      have hconcat : marketCalls (calls ++ [x]) = marketCalls calls ++ x.market?.toList := by
        rw [marketCalls, List.filterMap_append]
        cases x <;> rfl
      rw [after_concat, hconcat]
      cases x with
      | market x => rw [run_market ih, Call.market?, Option.toList_some]
      | listen _ | unlisten _ => exact ih.trans (congrArg _ (List.append_nil _).symm)

theorem inForce_concat {x : Call α} :
    InForce (calls ++ [x]) k a ↔
      x = .listen a ∧ k = numberAfter calls ∨ x ≠ .unlisten k ∧ InForce calls k a := by
  constructor
  · rintro ⟨before, later, hcalls, hk, hlater⟩
    rcases List.eq_nil_or_concat later with rfl | ⟨later, y, rfl⟩
    · obtain ⟨rfl, hlast⟩ := List.append_inj' hcalls rfl
      exact .inl ⟨List.singleton_inj.mp hlast, hk⟩
    · rw [List.concat_eq_append, ← List.cons_append, ← List.append_assoc] at hcalls
      obtain ⟨rfl, hlast⟩ := List.append_inj' hcalls rfl
      obtain rfl := List.singleton_inj.mp hlast
      rw [List.concat_eq_append, List.mem_append, not_or] at hlater
      refine .inr ⟨fun hx => ?_, before, later, rfl, hk, hlater.1⟩
      exact hlater.2 (List.mem_singleton.mpr hx.symm)
  · rintro (⟨rfl, rfl⟩ | ⟨hx, before, later, rfl, hk, hlater⟩)
    · exact ⟨calls, [], rfl, rfl, List.not_mem_nil⟩
    · refine ⟨before, later ++ [x], by simp, hk, ?_⟩
      simp [hlater, Ne.symm hx]

/-- After some calls a board numbers on from the count of the registrations, and the registrations
that it knows are those in force. -/
theorem board_after (calls : List (Call α)) :
    ∃ l : Listeners α, (opened.after calls).board = .announcing l ∧
      l.last = (listeners calls).length ∧ ∀ k a, (k, a) ∈ l.registered ↔ InForce calls k a := by
  induction calls using List.reverseRecOn with
  | nil =>
      refine ⟨.empty, rfl, rfl, fun k a => ⟨fun h => absurd h List.not_mem_nil, ?_⟩⟩
      rintro ⟨before, later, hcalls, -⟩
      simp at hcalls
  | append_singleton calls x ih =>
      obtain ⟨l, hboard, hlast, hregistered⟩ := ih
      rw [after_concat, listeners_append]
      cases x with
      | market x =>
          refine ⟨l, ?_, by simp [Call.listener?, hlast], fun k a => ?_⟩
          · rw [run_market (data_after calls)]
            exact hboard
          · simp [hregistered, inForce_concat]
      | listen b =>
          refine ⟨(l.add b).1, congrArg (fun b' => (Board.add b' b).1) hboard, ?_, fun k a => ?_⟩
          · simp [Call.listener?, Listeners.add, hlast]
          · rw [inForce_concat, Listeners.add, List.mem_append, hregistered, or_comm]
            simp [numberAfter, hlast, and_comm, eq_comm]
      | unlisten j =>
          refine ⟨(l.remove j).1, congrArg (fun b' => (Board.remove b' j).1) hboard, ?_,
            fun k a => ?_⟩
          · simp [Call.listener?, Listeners.remove, hlast]
          · simp only [Listeners.remove, List.mem_filter, hregistered, inForce_concat]
            simp [and_comm, @eq_comm _ k j]

theorem number_answered (calls : List (Call α)) (a : α) :
    ((opened.after calls).board.add a).2 = numberAfter calls := by
  obtain ⟨l, hboard, hlast, -⟩ := board_after calls
  rw [hboard, numberAfter, ← hlast]
  rfl

theorem remove_answered (calls : List (Call α)) (k : Nat) :
    ((opened.after calls).board.remove k).2 = true ↔ ∃ a, InForce calls k a := by
  obtain ⟨l, hboard, -, hregistered⟩ := board_after calls
  simp only [← hregistered, hboard, Board.remove_snd, Board.known, List.any_eq_true, beq_iff_eq]
  constructor
  · rintro ⟨⟨j, a⟩, hr, rfl⟩
    exact ⟨a, hr⟩
  · rintro ⟨a, hr⟩
    exact ⟨(k, a), hr, rfl⟩

theorem hearing_of_single (ha : p a = true) (hbefore : ∀ b ∈ listeners before, p b = false)
    (hlater : ∀ b ∈ listeners later, p b = false) :
    hearing p (opened.heard (before ++ .listen a :: later)) =
      LiveData.changesAfter (marketCalls before)
        (marketCalls (later.takeWhile fun x => !x.ends (numberAfter before))) := by
  have hnone : ∀ b ∈ (opened : Exchange α).board.audience, p b = false := by
    intro b hb
    exact absurd hb List.not_mem_nil
  obtain ⟨l, hboard, hlast, hregistered⟩ := board_after before
  have hothers : (l.registered.filter fun r => p r.2) = [] := by
    refine List.filter_eq_nil_iff.mpr fun r hr => ?_
    obtain ⟨earlier, rest, rfl, -⟩ := (hregistered r.1 r.2).mp hr
    simp [hbefore r.2 (mem_listeners.mpr (by simp))]
  rw [heard_append, hearing_append, hearing_eq_nil hnone hbefore, List.nil_append, heard,
    hearing_append]
  have hknown : (((opened.after before).board.add a).1.known.filter fun r => p r.2) =
      [(numberAfter before, a)] := by
    rw [hboard]
    simp [Board.add, Board.known, Listeners.add, hothers, ha, hlast, numberAfter]
  exact hearing_of_known (data_after before) hknown hlater

/-! ## Listeners who are told their numbers -/

theorem announce_map (f : α → β) (e : Exchange α) (event : Option ChangeEvent) :
    (Exchange.mk e.data (e.board.map f)).announce event =
      (e.announce event).map (Prod.map f id) := by
  cases event with
  | none => rfl
  | some event => simp [announce, Board.map_audience]

theorem run_map (f : α → β) (e : Exchange α) (x : Call α) :
    (x.map f).run ⟨e.data, e.board.map f⟩ =
      (⟨(x.run e).1.data, (x.run e).1.board.map f⟩, (x.run e).2.map (Prod.map f id)) := by
  cases x with
  | market x =>
      cases x with
      | set r v => exact congrArg (Prod.mk _) (announce_map f e _)
      | remove r => exact congrArg (Prod.mk _) (announce_map f e _)
      | snapshot _ | query _ _ | release _ => rfl
  | listen a => simp [Call.map, Call.run, Board.map_add]
  | unlisten k => simp [Call.map, Call.run, Board.map_remove]

theorem heard_map (f : α → β) (e : Exchange α) (calls : List (Call α)) :
    heard ⟨e.data, e.board.map f⟩ (calls.map (Call.map f)) =
      (e.heard calls).map (Prod.map f id) := by
  induction calls generalizing e with
  | nil => rfl
  | cons x calls ih => rw [List.map_cons, heard, run_map, heard, List.map_append, ih]

theorem map_numbered (made : Nat) (calls : List (Call α)) :
    (numbered made calls).map (Call.map Prod.snd) = calls := by
  induction calls generalizing made with
  | nil => rfl
  | cons x calls ih => cases x <;> simp [numbered, Call.map, ih]

theorem numbered_append (made : Nat) (before later : List (Call α)) :
    numbered made (before ++ later) =
      numbered made before ++ numbered (made + (listeners before).length) later := by
  induction before generalizing made with
  | nil => rfl
  | cons x before ih =>
      cases x with
      | market _ | unlisten _ => simp [numbered, ih, Call.listener?]
      | listen a => simp [numbered, ih, Call.listener?, Nat.add_assoc, Nat.add_comm 1]

theorem marketCalls_numbered (made : Nat) (calls : List (Call α)) :
    marketCalls (numbered made calls) = marketCalls calls := by
  induction calls generalizing made with
  | nil => rfl
  | cons x calls ih =>
      cases x with
      | market x => exact congrArg (x :: ·) (ih made)
      | listen _ => exact ih _
      | unlisten _ => exact ih _

theorem length_listeners_numbered (made : Nat) (calls : List (Call α)) :
    (listeners (numbered made calls)).length = (listeners calls).length := by
  induction calls generalizing made with
  | nil => rfl
  | cons x calls ih =>
      cases x with
      | listen _ => exact congrArg (· + 1) (ih _)
      | market _ => exact ih _
      | unlisten _ => exact ih _

theorem takeWhile_numbered (made : Nat) (calls : List (Call α)) (k : Nat) :
    (numbered made calls).takeWhile (fun x => !x.ends k) =
      numbered made (calls.takeWhile fun x => !x.ends k) := by
  induction calls generalizing made with
  | nil => rfl
  | cons x calls ih =>
      cases x with
      | market _ | listen _ => simp [numbered, ih]
      | unlisten j => by_cases hj : j = k <;> simp [numbered, List.takeWhile_cons, ih, hj]

theorem told_number {made : Nat} {t : Nat × α} (h : t ∈ listeners (numbered made calls)) :
    ∃ before later, calls = before ++ .listen t.2 :: later ∧ t.1 = made + numberAfter before := by
  induction calls generalizing made with
  | nil => exact absurd h List.not_mem_nil
  | cons x calls ih =>
      cases x with
      | market x =>
          obtain ⟨before, later, rfl, ht⟩ := ih h
          exact ⟨.market x :: before, later, rfl, ht⟩
      | listen a =>
          rcases List.mem_cons.mp h with rfl | h
          · exact ⟨[], calls, rfl, rfl⟩
          · obtain ⟨before, later, rfl, ht⟩ := ih h
            refine ⟨.listen a :: before, later, rfl, ?_⟩
            simp only [numberAfter, listeners_cons, Call.listener?, Option.toList_some,
              List.length_append, List.length_singleton] at ht ⊢
            omega
      | unlisten k =>
          obtain ⟨before, later, rfl, ht⟩ := ih h
          exact ⟨.unlisten k :: before, later, rfl, ht⟩

theorem hearing_numbered (before : List (Call α)) (a : α) (later : List (Call α)) :
    hearing (fun t => t.1 == numberAfter before)
        (opened.heard (numbered 0 (before ++ .listen a :: later))) =
      LiveData.changesAfter (marketCalls before)
        (marketCalls (later.takeWhile fun x => !x.ends (numberAfter before))) := by
  have hnumber : numberAfter (numbered 0 before) = numberAfter before := by
    rw [numberAfter, length_listeners_numbered, numberAfter]
  rw [numbered_append, Nat.zero_add, numbered]
  refine (hearing_of_single ?_ ?_ ?_).trans ?_
  · exact beq_self_eq_true _
  · intro t ht
    obtain ⟨earlier, rest, rfl, hlt⟩ := told_number ht
    have hlater : t.1 < numberAfter (earlier ++ .listen t.2 :: rest) := by
      simp only [numberAfter, listeners_append, listeners_cons, Call.listener?, Option.toList_some,
        List.length_append, List.length_singleton] at hlt ⊢
      omega
    exact beq_false_of_ne (Nat.ne_of_lt hlater)
  · intro t ht
    obtain ⟨earlier, rest, rfl, hlt⟩ := told_number ht
    have hearlier : numberAfter before < t.1 := by
      simp only [numberAfter] at hlt ⊢
      omega
    exact beq_false_of_ne (Nat.ne_of_gt hearlier)
  · rw [hnumber, marketCalls_numbered, takeWhile_numbered, marketCalls_numbered]

/-- Listeners hear what they hear when each is told the number of its registration. So told apart,
each registration hears, in order, of the changes that the calls to the market make after it until
it is ended, and nobody else hears of anything. The number of a registration counts those made so
far, and is less than that of any later one. A registration can be ended exactly if it was made and
has not been ended since. -/
theorem registrations_hear_changes (calls : List (Call α)) :
    opened.heard calls = (opened.heard (numbered 0 calls)).map (Prod.map Prod.snd id) ∧
    (∀ before a later, calls = before ++ .listen a :: later →
      hearing (fun t => t.1 == numberAfter before) (opened.heard (numbered 0 calls)) =
        LiveData.changesAfter (marketCalls before)
          (marketCalls (later.takeWhile fun x => !x.ends (numberAfter before)))) ∧
    (∀ d ∈ opened.heard (numbered 0 calls), ∃ before later,
      calls = before ++ .listen d.1.2 :: later ∧ d.1.1 = numberAfter before) ∧
    (∀ before a between b later, calls = before ++ .listen a :: between ++ .listen b :: later →
      ((opened.after before).board.add a).2 = numberAfter before ∧
      ((opened.after before).board.add a).2 <
        ((opened.after (before ++ .listen a :: between)).board.add b).2) ∧
    ∀ k, ((opened.after calls).board.remove k).2 = true ↔ ∃ a, InForce calls k a := by
  refine ⟨?_, ?_, ?_, ?_, remove_answered calls⟩
  · rw [← heard_map, map_numbered]
    rfl
  · rintro before a later rfl
    exact hearing_numbered before a later
  · intro d hd
    rcases mem_heard hd with h | h
    · exact absurd h List.not_mem_nil
    · simpa using told_number h
  · rintro before a between b later -
    rw [number_answered, number_answered]
    refine ⟨rfl, ?_⟩
    simp [numberAfter, Call.listener?]

namespace Sample
open LiveData.Sample

/-- A desk registers twice, ends its first registration twice, and sees the spot price come, move
and go; once the price is set to what it is. -/
def desk : List (Call String) :=
  [.unlisten 2, .listen "Desk", .market (.set (quoted "Spot") (.string "100")), .listen "Desk",
    .market (.set (quoted "Spot") (.string "100")), .unlisten 1,
    .market (.set (quoted "Spot") (.string "101")), .unlisten 1, .market (.remove (quoted "Spot"))]

end Sample
open Sample

/-- The first registration hears of the price only when it comes, the second when it moves and
goes. -/
theorem desk_hears_each_change_once :
    hearing (fun t => t.1 == 1) (opened.heard (numbered 0 desk)) =
      [⟨.added, ⟨"Ticker", "AAPL", none⟩⟩] ∧
    hearing (fun t => t.1 == 2) (opened.heard (numbered 0 desk)) =
      [⟨.changed, ⟨"Ticker", "AAPL", none⟩⟩, ⟨.removed, ⟨"Ticker", "AAPL", none⟩⟩] ∧
    ((opened.after desk).board.remove 2).2 = true := by
  obtain ⟨-, hhears, -, -, hended⟩ := registrations_hear_changes desk
  refine ⟨(hhears (desk.take 1) "Desk" (desk.drop 2) rfl).trans ?_,
    (hhears (desk.take 3) "Desk" (desk.drop 4) rfl).trans ?_, (hended 2).mpr ⟨"Desk", ?_⟩⟩
  · decide +kernel
  · decide +kernel
  · exact ⟨desk.take 3, desk.drop 4, rfl, rfl, by simp [desk]⟩

end Exchange
end ValuationCycle
