import Mathlib.Data.List.Induction
import ValuationCycle.Market.LiveData

/-!
# Snapshots of the market

The snapshot of a time is the market as it was when the time was first touched, by a snapshot or a
query, since its last release. Nothing but its release takes it away, and nothing changes it: so
what a query answers is told by the calls before the first touch, and two queries of a time
without a release between them see one market.
-/
namespace ValuationCycle
open Json Std

namespace LiveData
variable {d : LiveData} {t u : ValuationTime} {m : Market} {r : Requirement}

def market (d : LiveData) (t : ValuationTime) : Market := d.snapshots[t]?.getD d.current

theorem snapshots_snapshot (d : LiveData) (t u : ValuationTime) :
    (d.snapshot t).snapshots[u]? = if t = u then some (d.market t) else d.snapshots[u]? := by
  change (d.snapshots.insertIfNew t d.current)[u]? = _
  rw [ExtTreeMap.getElem?_insertIfNew]
  by_cases htu : t = u
  · subst htu
    rw [if_pos rfl, market]
    by_cases hmem : t ∈ d.snapshots
    · rw [if_neg fun h => h.2 hmem, ExtTreeMap.getElem?_eq_some_getElem hmem, Option.getD_some]
    · rw [if_pos ⟨ReflOrd.compare_self, hmem⟩, ExtTreeMap.getElem?_eq_none hmem, Option.getD_none]
  · rw [if_neg htu, if_neg fun h => htu (LawfulEqOrd.eq_of_compare h.1)]

theorem market_of_held (h : d.snapshots[t]? = some m) : d.market t = m := by
  rw [market, h]
  rfl

theorem market_of_none (h : d.snapshots[t]? = none) : d.market t = d.current := by
  rw [market, h]
  rfl

theorem query_snd (d : LiveData) (t : ValuationTime) (r : Requirement) :
    (d.query t r).2 = (d.market t)[r]? := by
  change (((d.snapshot t).snapshots[t]?).getD ∅)[r]? = _
  rw [snapshots_snapshot, if_pos rfl]
  rfl

inductive Call where
  | set (r : Requirement) (v : Value)
  | remove (r : Requirement)
  | snapshot (t : ValuationTime)
  | query (t : ValuationTime) (r : Requirement)
  | release (t : ValuationTime)

namespace Call

def apply (d : LiveData) : Call → LiveData
  | set r v => (d.set r v).1
  | remove r => (d.remove r).1
  | snapshot t => d.snapshot t
  | query t r => (d.query t r).1
  | release t => d.release t

/-- The call has the snapshot of a time taken, unless there is one. -/
def Touches (t : ValuationTime) : Call → Prop
  | snapshot u => u = t
  | query u _ => u = t
  | set _ _ | remove _ | release _ => False

def update? (r : Requirement) : Call → Option (Option Value)
  | set s v => if s = r then some (some v) else none
  | remove s => if s = r then some none else none
  | snapshot _ | query _ _ | release _ => none

end Call

def after (calls : List Call) : LiveData := calls.foldl Call.apply empty

/-- The value that a requirement has after some calls: the one last set, unless it was removed
after that. -/
def valueAfter (calls : List Call) (r : Requirement) : Option Value :=
  (calls.reverse.findSome? (Call.update? r)).join

/-- Every touch of the time has been followed by a release of it. -/
def Untouched (t : ValuationTime) (calls : List Call) : Prop :=
  ∀ before x rest, calls = before ++ x :: rest → x.Touches t → .release t ∈ rest

/-- The calls before the first touch of the time since its last release. -/
def BeforeFirstTouch (t : ValuationTime) (calls before : List Call) : Prop :=
  ∃ x rest, calls = before ++ x :: rest ∧ x.Touches t ∧ Untouched t before ∧ .release t ∉ rest

theorem after_append (calls later : List Call) :
    after (calls ++ later) = later.foldl Call.apply (after calls) := List.foldl_append

theorem after_concat (calls : List Call) (x : Call) :
    after (calls ++ [x]) = x.apply (after calls) := after_append calls [x]

theorem Call.current_apply (d : LiveData) (x : Call) (r : Requirement) :
    (x.apply d).current[r]? = (x.update? r).getD d.current[r]? := by
  cases x with
  | set s v =>
      change (d.current.insert s v)[r]? = _
      rw [ExtTreeMap.getElem?_insert]
      by_cases hs : s = r <;> simp [update?, hs]
  | remove s =>
      change (d.current.erase s)[r]? = _
      rw [ExtTreeMap.getElem?_erase]
      by_cases hs : s = r <;> simp [update?, hs]
  | snapshot _ | query _ _ | release _ => rfl

theorem current_after (calls : List Call) (r : Requirement) :
    (after calls).current[r]? = valueAfter calls r := by
  induction calls using List.reverseRecOn with
  | nil => simp [after, valueAfter, empty]
  | append_singleton calls x ih =>
      rw [after_concat, Call.current_apply, ih, valueAfter, valueAfter, List.reverse_concat,
        List.findSome?_cons]
      cases x.update? r <;> rfl

/-- What a call makes of the snapshot of a time: its release drops it, a touch takes it unless it
is there, and any other call leaves it. -/
theorem Call.snapshots_apply (d : LiveData) (x : Call) (t : ValuationTime) :
    (x = .release t ∧ (x.apply d).snapshots[t]? = none) ∨
      (x.Touches t ∧ (x.apply d).snapshots[t]? = some (d.market t)) ∨
      (x ≠ .release t ∧ ¬x.Touches t ∧ (x.apply d).snapshots[t]? = d.snapshots[t]?) := by
  have htaken : ∀ u, (u = t ∧ (d.snapshot u).snapshots[t]? = some (d.market t)) ∨
      (u ≠ t ∧ (d.snapshot u).snapshots[t]? = d.snapshots[t]?) := by
    intro u
    rw [snapshots_snapshot]
    by_cases hu : u = t
    · subst hu
      exact .inl ⟨rfl, if_pos rfl⟩
    · exact .inr ⟨hu, if_neg hu⟩
  cases x with
  | set _ _ => exact .inr (.inr ⟨nofun, id, rfl⟩)
  | remove _ => exact .inr (.inr ⟨nofun, id, rfl⟩)
  | snapshot u =>
      rcases htaken u with h | h
      · exact .inr (.inl h)
      · exact .inr (.inr ⟨nofun, h⟩)
  | query u _ =>
      rcases htaken u with h | h
      · exact .inr (.inl h)
      · exact .inr (.inr ⟨nofun, h⟩)
  | release u =>
      change _ ∨ _ ∨ _ ∧ _ ∧ (d.snapshots.erase u)[t]? = _
      by_cases hu : u = t
      · subst hu
        exact .inl ⟨rfl, ExtTreeMap.getElem?_erase_self⟩
      · refine .inr (.inr ⟨by simpa using hu, id, ?_⟩)
        rw [ExtTreeMap.getElem?_erase, if_neg fun he => hu (LawfulEqOrd.eq_of_compare he)]

theorem snapshots_foldl {calls : List Call} (hm : d.snapshots[t]? = some m)
    (hcalls : .release t ∉ calls) : (calls.foldl Call.apply d).snapshots[t]? = some m := by
  induction calls generalizing d with
  | nil => exact hm
  | cons x calls ih =>
      obtain ⟨hx, hcalls⟩ := List.ne_and_not_mem_of_not_mem_cons hcalls
      refine ih ?_ hcalls
      rcases x.snapshots_apply d t with ⟨rfl, -⟩ | ⟨-, htaken⟩ | ⟨-, -, hkept⟩
      · exact absurd rfl hx
      · rw [htaken, market_of_held hm]
      · rw [hkept, hm]

theorem untouched_nil (t : ValuationTime) : Untouched t [] := fun before x rest h => by simp at h

theorem untouched_concat {calls : List Call} {x : Call} :
    Untouched t (calls ++ [x]) ↔ x = .release t ∨ ¬x.Touches t ∧ Untouched t calls := by
  constructor
  · intro h
    by_cases hx : x = .release t
    · exact .inl hx
    · refine .inr ⟨fun htouches => ?_, fun before y rest hcalls hy => ?_⟩
      · exact absurd (h calls x [] rfl htouches) List.not_mem_nil
      · have hlater := h before y (rest ++ [x]) (by simp [hcalls]) hy
        rcases List.mem_append.mp hlater with hrest | hlast
        · exact hrest
        · exact absurd (List.mem_singleton.mp hlast).symm hx
  · intro h before y rest hcalls hy
    rcases List.eq_nil_or_concat rest with rfl | ⟨rest, z, rfl⟩
    · obtain ⟨rfl, hlast⟩ := List.append_inj' hcalls rfl
      obtain rfl := List.singleton_inj.mp hlast
      rcases h with rfl | ⟨hx, -⟩
      · exact hy.elim
      · exact absurd hy hx
    · rw [List.concat_eq_append, ← List.cons_append, ← List.append_assoc] at hcalls
      obtain ⟨hfront, hlast⟩ := List.append_inj' hcalls rfl
      obtain rfl := List.singleton_inj.mp hlast
      rcases h with rfl | ⟨-, huntouched⟩
      · simp
      · simp [huntouched before y rest hfront hy]

theorem snapshots_of_untouched {calls : List Call} (h : Untouched t calls) :
    (after calls).snapshots[t]? = none := by
  induction calls using List.reverseRecOn with
  | nil => simp [after, empty]
  | append_singleton calls x ih =>
      rw [after_concat]
      rcases x.snapshots_apply (after calls) t with ⟨-, hdropped⟩ | ⟨htouches, -⟩ | ⟨hx, -, hkept⟩
      · exact hdropped
      · rcases untouched_concat.mp h with rfl | ⟨hx, -⟩
        · exact htouches.elim
        · exact absurd htouches hx
      · rw [hkept]
        exact ih ((untouched_concat.mp h).resolve_left hx).2

/-- The snapshot of a time is the market as it was before the first touch since its last release. -/
theorem BeforeFirstTouch.snapshots {calls before : List Call}
    (h : BeforeFirstTouch t calls before) :
    (after calls).snapshots[t]? = some (after before).current := by
  obtain ⟨x, rest, rfl, htouches, huntouched, hrest⟩ := h
  rw [after_append, List.foldl_cons]
  refine snapshots_foldl ?_ hrest
  rcases x.snapshots_apply (after before) t with ⟨rfl, -⟩ | ⟨-, htaken⟩ | ⟨-, hx, -⟩
  · exact htouches.elim
  · rw [htaken, market_of_none (snapshots_of_untouched huntouched)]
  · exact absurd htouches hx

theorem untouched_or_beforeFirstTouch (t : ValuationTime) (calls : List Call) :
    Untouched t calls ∨ ∃ before, BeforeFirstTouch t calls before := by
  induction calls using List.reverseRecOn with
  | nil => exact .inl (untouched_nil t)
  | append_singleton calls x ih =>
      by_cases hx : x = .release t
      · exact .inl (untouched_concat.mpr (.inl hx))
      · rcases ih with huntouched | ⟨before, y, rest, hcalls, hy, hbefore, hrest⟩
        · by_cases htouches : x.Touches t
          · exact .inr ⟨calls, x, [], rfl, htouches, huntouched, List.not_mem_nil⟩
          · exact .inl (untouched_concat.mpr (.inr ⟨htouches, huntouched⟩))
        · refine .inr ⟨before, y, rest ++ [x], by simp [hcalls], hy, hbefore, ?_⟩
          simp [hrest, Ne.symm hx]

/-- A query answers what the requirement had in the market before the first touch of the time since
its last release, or has now if there was none; one or the other is the case. A later query, with
no release of the time in between, answers from the same market for every requirement, whatever
else is done in between. -/
theorem query_answers_first_touch (calls : List Call) (t : ValuationTime) :
    (Untouched t calls → ∀ r, ((after calls).query t r).2 = valueAfter calls r) ∧
    (∀ before, BeforeFirstTouch t calls before →
      ∀ r, ((after calls).query t r).2 = valueAfter before r) ∧
    (Untouched t calls ∨ ∃ before, BeforeFirstTouch t calls before) ∧
    ∀ s between, .release t ∉ between → ∀ r,
      ((after (calls ++ .query t s :: between)).query t r).2 = ((after calls).query t r).2 := by
  refine ⟨fun h r => ?_, fun before h r => ?_, untouched_or_beforeFirstTouch t calls,
    fun s between hbetween r => ?_⟩
  · rw [query_snd, market_of_none (snapshots_of_untouched h), current_after]
  · rw [query_snd, market_of_held h.snapshots, current_after]
  · have htaken : ((Call.query t s).apply (after calls)).snapshots[t]? =
        some ((after calls).market t) := by
      exact (snapshots_snapshot _ t t).trans (if_pos rfl)
    rw [query_snd, query_snd, after_append, List.foldl_cons,
      market_of_held (snapshots_foldl htaken hbetween)]

namespace Sample

def quoted (name : String) : Requirement := ⟨name, ⟨.security, ⟨"Ticker", "AAPL", none⟩⟩, .none⟩

/-- A price moves after a query for something else at the first time; the second time is released
again. -/
def moving : List Call :=
  [.set (quoted "Spot") (.string "100"), .query ⟨1⟩ (quoted "Volatility"),
    .set (quoted "Spot") (.string "101"), .snapshot ⟨2⟩, .remove (quoted "Volatility"),
    .release ⟨2⟩]

end Sample
open Sample

/-- The query for something else has frozen the price at the first time; at the second time it is
the one set last. -/
theorem price_frozen_by_other_query :
    BeforeFirstTouch ⟨1⟩ moving [.set (quoted "Spot") (.string "100")] ∧ Untouched ⟨2⟩ moving ∧
    ((after moving).query ⟨1⟩ (quoted "Spot")).2 = some (.string "100") ∧
    ((after moving).query ⟨2⟩ (quoted "Spot")).2 = some (.string "101") := by
  have hfirst : BeforeFirstTouch ⟨1⟩ moving [.set (quoted "Spot") (.string "100")] := by
    have hset : Untouched ⟨1⟩ ([] ++ [.set (quoted "Spot") (.string "100")]) :=
      untouched_concat.mpr (.inr ⟨id, untouched_nil ⟨1⟩⟩)
    exact ⟨_, _, rfl, rfl, hset, by simp⟩
  have hreleased : Untouched ⟨2⟩ (moving.dropLast ++ [.release ⟨2⟩]) :=
    untouched_concat.mpr (.inl rfl)
  obtain ⟨hnow, hthen, -⟩ := query_answers_first_touch moving ⟨1⟩
  obtain ⟨hnow', -⟩ := query_answers_first_touch moving ⟨2⟩
  refine ⟨hfirst, hreleased, (hthen _ hfirst _).trans ?_, (hnow' hreleased _).trans ?_⟩
  · decide +kernel
  · decide +kernel

end LiveData
end ValuationCycle
