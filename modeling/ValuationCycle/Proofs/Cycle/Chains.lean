import ValuationCycle.Proofs.Cycle.Passes

/-!
# Chains of passes

In a chain each pass takes over from the one before, at a time of its own and with
whatever the market has become. No pass finds anything in the caches of its group,
and the last cycle is always one that can be taken over from.
-/
namespace ValuationCycle
open Json Std

/-- The workspace in which the next pass begins: as the last pass left it, with whatever
the market has become. -/
def resume (w : Workspace) (passes : List Pass) (market : LiveData) : Workspace :=
  { (passes.head?.map fun q => q.finished.workspace).getD w with liveData := market }

/-- Passes of a view at times of their own, the last one first. Each takes over from the
one before. -/
inductive Chain (view : View) (w : Workspace) : List Pass → Prop
  | nil : Chain view w []
  | cons {passes : List Pass} {market : LiveData} {t : ValuationTime} {b : Behaviour}
      {stamp : ResultTimestamp} {p : Pass} (earlier : Chain view w passes)
      (fresh : ∀ q ∈ passes, q.finished.cycle.time ≠ t) (runsHere : b.Local)
      (pass : view.pass t (passes.head?.map fun q => q.finished.cycle) b stamp
        (resume w passes market) = some p) : Chain view w (p :: passes)

def View.inputs (view : View) : List Specification :=
  view.model.graphs.toList.flatMap fun e => e.2.nodes.flatMap Node.inputs

/-- Passes over which the invariants of a chain are stated: what holds when all of them
are done. -/
structure Rested (known : List Specification) (view : View) (w : Workspace) (passes : List Pass)
    (market : LiveData) : Prop where
  numbered : (resume w passes market).Numbered w.repository known
  fresh : ∀ k : CacheHandle, k.group.view = view.name →
    (∀ q ∈ passes, q.finished.cycle.time ≠ k.group.time) → (resume w passes market).cache k = .empty
  last : ∀ q ∈ passes.head?, ∃ group, q.finished.cycle.Finished view group

section
variable {known : List Specification} {view : View} {w : Workspace} {passes : List Pass}
variable {market : LiveData} {t : ValuationTime} {b : Behaviour} {stamp : ResultTimestamp}
variable {p : Pass}

theorem Rested.finished_of_head (h : Rested known view w passes market)
    (ht : ∀ q ∈ passes, q.finished.cycle.time ≠ t) {previous : Option Cycle}
    (hprevious : previous = none ∨ previous = passes.head?.map fun q => q.finished.cycle) :
    ∀ c, previous = some c → ∃ earlier,
      earlier ≠ (resume w passes market).caches.currentGroup view.name t ∧
        c.Finished view earlier := by
  intro c hc
  rcases hprevious with rfl | rfl
  · simp at hc
  · obtain ⟨q, hq, rfl⟩ := Option.map_eq_some_iff.mp hc
    obtain ⟨group, hgroup⟩ := h.last q hq
    refine ⟨group, ?_, hgroup⟩
    rintro rfl
    exact ht q (List.mem_of_mem_head? hq) hgroup.time_eq

theorem Rested.exists_begin (h : Rested known view w passes market) (hs : view.Sound w.repository)
    (ht : ∀ q ∈ passes, q.finished.cycle.time ≠ t) {previous : Option Cycle}
    (hprevious : previous = none ∨ previous = passes.head?.map fun q => q.finished.cycle) :
    ∃ s, view.begin t previous (resume w passes market) = some s ∧
      Begun view t (resume w passes market) previous s :=
  View.Sound.exists_begin (h.numbered.repository_eq ▸ hs) (h.finished_of_head ht hprevious)

theorem Rested.passed (h : Rested known view w passes market) (hs : view.Sound w.repository)
    (hknown : ∀ e ∈ view.model.graphs.toList, ∀ n ∈ e.2.nodes, n.inputs ⊆ known)
    (hsize : known.length < 2 ^ 63) (ht : ∀ q ∈ passes, q.finished.cycle.time ≠ t) (hb : b.Local)
    {previous : Option Cycle}
    (hprevious : previous = none ∨ previous = passes.head?.map fun q => q.finished.cycle)
    (hp : view.pass t previous b stamp (resume w passes market) = some p) :
    Passed known view t (resume w passes market) previous p := by
  have hrepository := h.numbered.repository_eq
  exact View.Sound.passed (hrepository ▸ hs) (hrepository ▸ h.numbered) hknown hsize hb
    (h.finished_of_head ht hprevious) hp

/-- No cache of the group in which the next pass begins has been written to. -/
theorem Rested.fresh_group (h : Rested known view w passes market)
    (ht : ∀ q ∈ passes, q.finished.cycle.time ≠ t) (k : CacheHandle)
    (hk : k.group = (resume w passes market).caches.currentGroup view.name t) :
    (resume w passes market).cache k = .empty :=
  h.fresh k (by rw [hk]; rfl) fun q hq => by
    rw [hk]
    exact ht q hq

theorem Chain.rested (hs : view.Sound w.repository) (hw : w.Numbered w.repository known)
    (hknown : ∀ e ∈ view.model.graphs.toList, ∀ n ∈ e.2.nodes, n.inputs ⊆ known)
    (hsize : known.length < 2 ^ 63)
    (hfresh : ∀ k : CacheHandle, k.group.view = view.name → w.cache k = .empty)
    (h : Chain view w passes) (market : LiveData) : Rested known view w passes market := by
  induction h generalizing market with
  | nil => exact ⟨⟨rfl, hw.sound, hw.subset⟩, fun k hk _ => hfresh k hk, by simp⟩
  | @cons passes market' t b stamp p _ ht hb hp ih =>
      have hpassed := (ih market').passed hs hknown hsize ht hb (.inr rfl) hp
      have hrepository := (ih market').numbered.repository_eq
      refine ⟨?_, fun k hk hk' => ?_, ?_⟩
      · obtain ⟨hr, hsound, hsubset⟩ := hpassed.numbered
        exact ⟨hr.trans hrepository, hsound, hsubset⟩
      · have htime : p.finished.cycle.time = t := hpassed.finished.time_eq
        refine (hpassed.cache_eq k fun he => ?_).trans
          ((ih market').fresh k hk fun q hq => hk' q (List.mem_cons_of_mem _ hq))
        exact hk' p (by simp) (htime.trans (by rw [he]; rfl))
      · rintro q hq
        obtain rfl := Option.some.inj hq
        exact ⟨_, hpassed.finished⟩

end

end ValuationCycle
