import ValuationCycle.Cycle.Carry
import ValuationCycle.Cycle.Plans
import ValuationCycle.Cycle.Release
import ValuationCycle.Cycle.Reporting
import ValuationCycle.Proofs.Cycle.Preparing

/-!
# Lives of cycles

Whatever is done to a cycle, in whatever workspaces, each of its handles names a
cache of its own view and time under the handle's configuration. From the
preparation of its inputs to the release of its resources it has a handle for
every configuration of the view, all in one group; and until its plans are
executed it has marks for every configuration.
-/
namespace ValuationCycle
open Std

namespace Cycle

inductive Lived : Cycle → Prop
  | new (view : View) (t : ValuationTime) : Lived (.new view t)
  | interrupt {c : Cycle} : Lived c → Lived c.interrupt
  | mark {c c' : Cycle} {name : String} {f : NodeMarks → NodeMarks} : Lived c →
      c.mark name f = .ok c' → Lived c'
  | executableGraph {c c' : Cycle} {g g' : Graph} : Lived c →
      c.executableGraph g = .ok (c', g') → Lived c'
  | prepare {c : Cycle} (w : Workspace) : Lived c → Lived (c.prepare w).cycle
  | computeDelta {c : Cycle} (w : Workspace) (previous : Cycle) : Lived c →
      Lived (c.computeDelta w previous).cycle
  | execute {c : Cycle} {w : Workspace} {b : Behaviour} {reply : Reply Unit}
      {report : ExecutionReport} : Lived c → c.execute w b = some (reply, report) →
      Lived reply.cycle
  | populate {c : Cycle} (w : Workspace) (moment : ResultTimestamp) : Lived c →
      Lived (c.populate w moment).cycle
  | release {c : Cycle} (w : Workspace) : Lived c → Lived (c.release w).cycle

/-- A handle for every configuration of the view, and for no other, all in one group. -/
def Housed (group : CacheGroup) (c : Cycle) : Prop :=
  ∀ name, c.handles[name]? = if name ∈ c.view.model.names then some ⟨group, name⟩ else none

def Marked (c : Cycle) : Prop := ∀ name ∈ c.view.model.names, ∃ m, c.marks[name]? = some m

/-- A cycle whose inputs are prepared and whose plans are not executed yet. -/
structure Ready (group : CacheGroup) (c : Cycle) : Prop where
  state_eq : c.state = .inputsPrepared
  housed : c.Housed group
  marked : c.Marked

theorem Ready.handle {group : CacheGroup} {c : Cycle} (h : c.Ready group) :
    ∀ e ∈ c.view.model.graphs.toList, c.handles[e.1]? = some ⟨group, e.1⟩ :=
  fun e he => (h.housed e.1).trans (if_pos (EvaluationModel.name_mem he))

structure Kept (c : Cycle) : Prop where
  fresh : c.state = .created → c.handles = ∅
  housed : c.state ≠ .created → c.state ≠ .cleaned → ∃ k, c.Housed ⟨c.view.name, c.time, k⟩
  marked : c.state = .created ∨ c.state = .inputsPrepared → c.Marked

theorem Kept.ready {c : Cycle} (h : c.Kept) (hs : c.state = .inputsPrepared) :
    ∃ k, c.Ready ⟨c.view.name, c.time, k⟩ := by
  obtain ⟨k, hk⟩ := h.housed (by simp [hs]) (by simp [hs])
  exact ⟨k, hs, hk, h.marked (.inr hs)⟩

theorem kept_new (view : View) (t : ValuationTime) : (Cycle.new view t).Kept :=
  ⟨fun _ => rfl, fun h => absurd rfl h, fun _ _ hn => ⟨_, marks_new view t hn⟩⟩

/-- Only marks are changed, and none is lost. -/
structure Remarks (c c' : Cycle) : Prop where
  cycle_eq : c' = { c with marks := c'.marks }
  marks : ∀ (name : String) (m : NodeMarks), c.marks[name]? = some m →
    ∃ m', c'.marks[name]? = some m'

theorem remarks_refl (c : Cycle) : c.Remarks c := ⟨rfl, fun _ m hm => ⟨m, hm⟩⟩

theorem Remarks.trans {a b c : Cycle} (h : a.Remarks b) (h' : b.Remarks c) : a.Remarks c := by
  refine ⟨?_, fun name m hm => ?_⟩
  · rw [h'.cycle_eq, h.cycle_eq]
  · obtain ⟨m', hm'⟩ := h.marks name m hm
    exact h'.marks name m' hm'

theorem remarks_setMarks (c : Cycle) (name : String) (m : NodeMarks) :
    c.Remarks (c.setMarks name m) := by
  refine ⟨rfl, fun other m' hm' => ?_⟩
  rw [setMarks, ExtTreeMap.getElem?_insert]
  split
  · exact ⟨m, rfl⟩
  · exact ⟨m', hm'⟩

theorem remarks_mark {c c' : Cycle} {name : String} {f : NodeMarks → NodeMarks}
    (h : c.mark name f = .ok c') : c.Remarks c' := by
  unfold mark at h
  split at h
  · obtain rfl := Except.ok.inj h
    exact c.remarks_setMarks name _
  · simp at h

theorem remarks_executableGraph {c c' : Cycle} {g g' : Graph}
    (h : c.executableGraph g = .ok (c', g')) : c.Remarks c' := by
  unfold executableGraph at h
  split at h
  · obtain ⟨rfl, -⟩ := Prod.mk.inj (Except.ok.inj h)
    exact c.remarks_setMarks _ _
  · simp at h

theorem remarks_carryAll (previous : Cycle) (graphs : List (String × Graph)) (c : Cycle)
    (w : Workspace) : c.Remarks (carryAll previous c w graphs).cycle := by
  induction graphs generalizing c w with
  | nil => exact c.remarks_refl
  | cons e rest ih =>
      obtain ⟨name, g⟩ := e
      unfold carryAll
      split
      · split
        · exact ih c w
        · exact (c.remarks_setMarks name _).trans (ih _ _)
      · exact c.remarks_refl

theorem remarks_submissions (graphs : List (String × Graph)) (c : Cycle) :
    c.Remarks (c.submissions graphs).1 := by
  induction graphs generalizing c with
  | nil => exact c.remarks_refl
  | cons e rest ih =>
      obtain ⟨name, g⟩ := e
      unfold submissions
      split
      · exact c.remarks_refl
      · next c' g' hg =>
          have hmarked := remarks_executableGraph hg
          split
          · exact hmarked
          · exact hmarked.trans (ih c')

theorem Remarks.kept {c c' : Cycle} (h : c.Remarks c') (hc : c.Kept) : c'.Kept := by
  have hmarks := h.marks
  rw [h.cycle_eq] at hmarks ⊢
  refine ⟨hc.fresh, hc.housed, fun hs name hn => ?_⟩
  obtain ⟨m, hm⟩ := hc.marked hs name hn
  exact hmarks name m hm

theorem Remarks.ready {c c' : Cycle} {group : CacheGroup} (h : c.Remarks c') (hc : c.Ready group) :
    c'.Ready group := by
  have hmarks := h.marks
  rw [h.cycle_eq] at hmarks ⊢
  refine ⟨hc.state_eq, hc.housed, fun name hn => ?_⟩
  obtain ⟨m, hm⟩ := hc.marked name hn
  exact hmarks name m hm

theorem Prepares.ready {c c' : Cycle} {w w' : Workspace} (h : Prepares c w c' w') (hc : c.Kept)
    (hs : c.state = .created) : c'.Ready (w.caches.currentGroup c.view.name c.time) := by
  have hhandle := h.handle
  rw [h.cycle_eq] at hhandle ⊢
  exact ⟨rfl, hhandle, hc.marked (.inl hs)⟩

/-- A cycle that has begun to execute its plans does not come back before. -/
theorem Kept.executed {c c' : Cycle} (h : c.Kept) (hs : c.state ≠ .created ∧ c.state ≠ .cleaned)
    (hview : c'.view = c.view) (htime : c'.time = c.time) (hhandles : c'.handles = c.handles)
    (hstate : c'.state ≠ .created ∧ c'.state ≠ .inputsPrepared) : c'.Kept := by
  obtain ⟨k, hk⟩ := h.housed hs.1 hs.2
  refine ⟨fun hc => absurd hc hstate.1, fun _ _ => ⟨k, ?_⟩,
    fun hc => (hc.elim hstate.1 hstate.2).elim⟩
  unfold Housed
  rw [hhandles, hview, htime]
  exact hk

theorem state_of_permits {c : Cycle} {operation : CycleOperation} (h : c.permits operation = true) :
    c.state ∈ operation.allowedIn := by
  simpa [permits] using h

theorem Kept.prepare {c : Cycle} (h : c.Kept) (w : Workspace) : (c.prepare w).cycle.Kept := by
  by_cases hp : c.permits .prepareInputs = true
  · have hs : c.state = .created := List.mem_singleton.mp (state_of_permits hp)
    obtain ⟨c', w', hprepare, hc'⟩ := prepare_created hs (h.fresh hs) w
    have hhandle := hc'.handle
    rw [hprepare, hc'.cycle_eq]
    exact ⟨by simp, fun _ _ => ⟨_, hhandle⟩, fun _ => h.marked (.inl hs)⟩
  · rw [Cycle.prepare, if_neg hp]
    exact h

theorem Kept.execute {c : Cycle} (h : c.Kept) {w : Workspace} {b : Behaviour} {reply : Reply Unit}
    {report : ExecutionReport} (hx : c.execute w b = some (reply, report)) : reply.cycle.Kept := by
  unfold Cycle.execute at hx
  split at hx
  · next hp =>
      have hs : c.state = .inputsPrepared := List.mem_singleton.mp (state_of_permits hp)
      have hframe := remarks_submissions c.view.model.graphs.toList { c with state := .executing }
      dsimp only at hx
      split at hx
      · next c' e he =>
          have hc' : c' = { c with state := .executing, marks := c'.marks } := by
            simpa [he] using hframe.cycle_eq
          obtain ⟨rfl, -⟩ := Prod.mk.inj (Option.some.inj hx)
          change c'.Kept
          rw [hc']
          exact h.executed (by simp [hs]) rfl rfl rfl (by simp)
      · next c' submitted he =>
          have hc' : c' = { c with state := .executing, marks := c'.marks } := by
            simpa [he] using hframe.cycle_eq
          obtain ⟨r, -, hr⟩ := Option.map_eq_some_iff.mp hx
          obtain ⟨rfl, -⟩ := Prod.mk.inj hr
          change (c'.close r).Kept
          rw [hc']
          exact h.executed (by simp [hs]) rfl rfl rfl
            (by cases hv : r.verdict <;> simp [close, conclude, hv])
  · obtain ⟨rfl, -⟩ := Prod.mk.inj (Option.some.inj hx)
    exact h

theorem Kept.interrupt {c : Cycle} (h : c.Kept) : c.interrupt.Kept := ⟨h.fresh, h.housed, h.marked⟩

theorem Kept.computeDelta {c : Cycle} (h : c.Kept) (w : Workspace) (previous : Cycle) :
    (c.computeDelta w previous).cycle.Kept := by
  unfold Cycle.computeDelta
  split
  · split
    · exact (remarks_carryAll previous _ c w).kept h
    · exact h
  · exact h

theorem Kept.populate {c : Cycle} (h : c.Kept) (w : Workspace) (moment : ResultTimestamp) :
    (c.populate w moment).cycle.Kept := by
  unfold Cycle.populate
  split
  · split <;> exact ⟨h.fresh, h.housed, h.marked⟩
  · exact h

theorem Kept.release {c : Cycle} (h : c.Kept) (w : Workspace) : (c.release w).cycle.Kept := by
  unfold Cycle.release
  split
  · exact ⟨by simp, by simp, by simp⟩
  · exact h

theorem Lived.kept {c : Cycle} (h : c.Lived) : c.Kept := by
  induction h with
  | new view t => exact kept_new view t
  | interrupt _ ih => exact ih.interrupt
  | mark _ hm ih => exact (remarks_mark hm).kept ih
  | executableGraph _ hg ih => exact (remarks_executableGraph hg).kept ih
  | prepare w _ ih => exact ih.prepare w
  | computeDelta w previous _ ih => exact ih.computeDelta w previous
  | execute _ hx ih => exact ih.execute hx
  | populate w moment _ ih => exact ih.populate w moment
  | release w _ ih => exact ih.release w

theorem Lived.ready {c : Cycle} (h : c.Lived) (hs : c.state = .inputsPrepared) :
    ∃ k, c.Ready ⟨c.view.name, c.time, k⟩ := h.kept.ready hs

end Cycle
end ValuationCycle
