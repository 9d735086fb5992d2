import ValuationCycle.Proofs.Cache.Lending
import ValuationCycle.Proofs.Cycle.Pinning
import ValuationCycle.Proofs.Cycle.Yield

/-!
# What prepared inputs are

Where no cache of a view and time is held, the caches that are opened next are empty, whatever was
stored before through handles that are still about. So after the inputs of a cycle are prepared its
caches have the live data of the snapshot, all of them the same, and nothing else.
-/
namespace ValuationCycle
open Json Std Graph.Sample

namespace Lending
variable {l l' : Lending} {call : CacheCall CacheHandle} {calls : List (CacheCall CacheHandle)}

structure Opened (l : Lending) : Prop where
  handles : ∀ h ∈ l.handles, h ∈ l.source.privates
  shared : ∀ group ∈ l.source.shared,
    ∃ configuration, (⟨group, configuration⟩ : CacheHandle) ∈ l.source.privates

theorem opened_start : start.Opened :=
  ⟨by simp [start], by simp [start, CacheSource.empty]⟩

theorem Opened.change (ho : l.Opened) {h : CacheHandle} {f : Cache → Cache}
    (hc : l.change? h f = some l') : l'.Opened := by
  unfold change? at hc
  split at hc
  · next hh =>
      obtain rfl := Option.some.inj hc
      have hkept : ∀ k ∈ l.source.privates, k ∈ (l.source.update h f).privates := fun k hk =>
        ExtTreeMap.mem_insert.mpr (.inr hk)
      refine ⟨fun k hk => hkept k (ho.handles k hk), fun group hgroup => ?_⟩
      rcases ExtTreeMap.mem_insert.mp hgroup with he | hgroup
      · rw [← LawfulEqOrd.eq_of_compare he]
        exact ⟨h.configuration, hkept h (ho.handles h hh)⟩
      · obtain ⟨configuration, hk⟩ := ho.shared group hgroup
        exact ⟨configuration, hkept _ hk⟩
  · simp at hc

theorem Opened.step (ho : l.Opened) (h : l.call? call = some l') : l'.Opened := by
  cases call with
  | openCache view t configuration =>
      obtain rfl := Option.some.inj h
      have hkept : ∀ k ∈ l.source.privates,
          k ∈ (l.source.openCache view t configuration).1.privates := fun k hk =>
        ExtTreeMap.mem_insertIfNew.mpr (.inr hk)
      refine ⟨fun k hk => ?_, fun group hgroup => ?_⟩
      · rcases List.mem_append.mp hk with hk | hk
        · exact hkept k (ho.handles k hk)
        · rw [List.mem_singleton.mp hk]
          exact ExtTreeMap.mem_insertIfNew.mpr (.inl ReflOrd.compare_self)
      · obtain ⟨other, hk⟩ := ho.shared group hgroup
        exact ⟨other, hkept _ hk⟩
  | release view t =>
      obtain rfl := Option.some.inj h
      exact ⟨ho.handles, ho.shared⟩
  | putShared | putPrivate | putMany => exact ho.change h

theorem Opened.steps (ho : l.Opened) (h : l.calls? calls = some l') : l'.Opened := by
  induction calls generalizing l with
  | nil => exact Option.some.inj h ▸ ho
  | cons call calls ih =>
      rw [calls?_cons] at h
      obtain ⟨next, hcall, h⟩ := Option.bind_eq_some_iff.mp h
      exact ih (ho.step hcall) h

end Lending

/-- If no cache of a view and time is held, the next ones are empty. -/
theorem Workspace.cache_eq_empty_of_not_held {w : Workspace} {handles : List CacheHandle}
    (ho : Lending.Opened ⟨w.caches, handles⟩) {view : String} {t : ValuationTime}
    (hnone : ∀ k ∈ w.caches.held, ¬(k.group.view = view ∧ k.group.time = t)) {k : CacheHandle}
    (hk : k.group = w.caches.currentGroup view t) : w.cache k = .empty := by
  have hnot : ∀ other : CacheHandle, other.group = w.caches.currentGroup view t →
      other ∉ w.caches.privates := by
    intro other hgroup hother
    refine hnone other ((CacheSource.mem_held _).mpr ⟨hother, ?_⟩) ?_ <;> rw [hgroup]
    · rfl
    · exact ⟨rfl, rfl⟩
  refine w.cache_eq_empty (fun hshared => ?_) (hnot k hk)
  obtain ⟨configuration, hopened⟩ := ho.shared _ hshared
  exact hnot ⟨k.group, configuration⟩ hk hopened

def View.Sourced (view : View) (s : Specification) : Prop :=
  ∃ name g, view.model.graph? name = some g ∧ ∃ n ∈ g.nodes, n.isLive = true ∧ s ∈ n.outputs

theorem View.sourced_iff {view : View} {s : Specification} :
    view.Sourced s ↔ s ∈ view.model.liveOutputs := by
  rw [EvaluationModel.mem_liveOutputs_iff]
  constructor
  · rintro ⟨name, g, hg, hn⟩
    exact ⟨(name, g), ExtTreeMap.mem_toList_iff_getElem?_eq_some.mpr hg, hn⟩
  · rintro ⟨⟨name, g⟩, he, hn⟩
    exact ⟨name, g, ExtTreeMap.mem_toList_iff_getElem?_eq_some.mp he, hn⟩

namespace Cycle
variable {c c' : Cycle} {w w' : Workspace} {s : Specification}

theorem loaded_of_sourced (hs : c.view.Sourced s) (d : LiveData) :
    c.loaded d s = (d.market c.time)[s.requirement]? := by
  rw [loaded, if_pos (View.sourced_iff.mp hs), LiveData.value?_eq]

theorem loaded_of_not_sourced (hs : ¬c.view.Sourced s) (d : LiveData) : c.loaded d s = none := by
  rw [loaded, if_neg fun hlive => hs (View.sourced_iff.mpr hlive)]

theorem mem_missing (c : Cycle) (d : LiveData) (r : Requirement) :
    r ∈ c.missing d ↔
      ∃ s, c.view.Sourced s ∧ s.requirement = r ∧ (d.market c.time)[r]? = none := by
  simp only [missing, List.mem_map, List.mem_filter, ExtTreeSet.mem_toList, ← View.sourced_iff,
    LiveData.value?_eq, Option.isNone_iff_eq_none]
  constructor
  · rintro ⟨s, ⟨hs, hnone⟩, rfl⟩
    exact ⟨s, hs, rfl, hnone⟩
  · rintro ⟨s, hs, rfl, hnone⟩
    exact ⟨s, ⟨hs, hnone⟩, rfl⟩

theorem Prepares.cache?_eq (h : Prepares c w c' w') (name : String) : c'.cache? w' name =
    if name ∈ c.view.model.names then
      some (w'.cache ⟨w.caches.currentGroup c.view.name c.time, name⟩)
    else none := by
  rw [Cycle.cache?, h.handle]
  split <;> rfl

theorem Prepares.parts (h : Prepares c w c' w')
    (hempty : ∀ k : CacheHandle, k.group = w.caches.currentGroup c.view.name c.time →
      w.cache k = .empty) {name : String} {cache : Cache}
    (hcache : c'.cache? w' name = some cache) :
    cache.privatePart = ∅ ∧ ∀ s : Specification, cache.sharedPart[s]? = c.loaded w.liveData s := by
  rw [h.cache?_eq, Option.ite_none_right_eq_some] at hcache
  obtain ⟨-, hcache⟩ := hcache
  obtain rfl := Option.some.inj hcache
  refine ⟨by rw [h.private_eq, hempty _ rfl]; rfl, fun s => ?_⟩
  rw [h.shared_eq _ rfl, hempty _ rfl]
  exact Option.or_none

/-- Preparing takes the snapshot of its time if there is something to load. -/
theorem Prepares.liveData_cases (h : Prepares c w c' w') :
    (∃ s, c.view.Sourced s) ∧ w'.liveData = w.liveData.snapshot c.time ∨
      (¬∃ s, c.view.Sourced s) ∧ w'.liveData = w.liveData := by
  have hnil : c.view.model.liveOutputs.toList = [] ↔ ¬∃ s, c.view.Sourced s := by
    simp only [List.eq_nil_iff_forall_not_mem, ExtTreeSet.mem_toList, not_exists, View.sourced_iff]
  rw [h.liveData_eq, ← hnil]
  split
  · next hno => exact .inr ⟨hno, rfl⟩
  · next hlive => exact .inl ⟨not_not.mp (mt hnil.mpr hlive), rfl⟩

theorem Prepares.snapshots (h : Prepares c w c' w') :
    (c.time ∈ w'.liveData.snapshots ↔
      c.time ∈ w.liveData.snapshots ∨ ∃ s, c.view.Sourced s) ∧
    (c.time ∈ w'.liveData.snapshots →
      w'.liveData.snapshots[c.time]? = some (w.liveData.market c.time)) ∧
    ∀ t, t ≠ c.time → w'.liveData.snapshots[t]? = w.liveData.snapshots[t]? := by
  rcases h.liveData_cases with ⟨hlive, heq⟩ | ⟨hno, heq⟩
  · have htaken : w'.liveData.snapshots[c.time]? = some (w.liveData.market c.time) := by
      rw [heq, LiveData.snapshots_snapshot, if_pos rfl]
    have hmem : c.time ∈ w'.liveData.snapshots :=
      ExtTreeMap.isSome_getElem?_iff_mem.mp (by rw [htaken]; rfl)
    refine ⟨iff_of_true hmem (.inr hlive), fun _ => htaken, fun t ht => ?_⟩
    rw [heq, LiveData.snapshots_snapshot, if_neg (Ne.symm ht)]
  · rw [heq]
    refine ⟨by simp [hno], fun hheld => ?_, fun t _ => rfl⟩
    have hm := ExtTreeMap.getElem?_eq_some_getElem hheld
    rw [hm, LiveData.market_of_held hm]

/-- Whatever calls the source of the caches has seen: if no cache of its view and time is held, a
cycle's inputs are prepared without an error. The cycle then has a cache for each configuration of
its view, all alike, with nothing private. Under each output of a live data sourcing node of any
configuration there is what the market of the time has for its requirement, whatever the function
id, and under no other specification is there anything. What is without a value is answered. The
market is the snapshot of the time if one was held, else the current one; its snapshot is held
afterwards exactly if it was held before or there is such an output, and those of other times are
as they were. -/
theorem live_data_fanned_out {calls : List (CacheCall CacheHandle)} {handles : List CacheHandle}
    (hcalls : Lending.start.calls? calls = some ⟨w.caches, handles⟩) (hc : c.Lived)
    (hs : c.state = .created)
    (hnone : ∀ k ∈ w.caches.held, ¬(k.group.view = c.view.name ∧ k.group.time = c.time)) :
    ∃ c' w' missing, c.prepare w = ⟨c', w', .ok missing⟩ ∧
      let market := w.liveData.market c.time
      (∀ name, (∃ cache, c'.cache? w' name = some cache) ↔
        ∃ g, c.view.model.graph? name = some g) ∧
      (∀ name cache, c'.cache? w' name = some cache → cache.privatePart = ∅ ∧
        (∀ s, c.view.Sourced s → cache.get? s = market[s.requirement]? ∧
          ∀ id, c.view.Sourced { s with functionId := id } →
            cache.get? { s with functionId := id } = cache.get? s) ∧
        ∀ s, ¬c.view.Sourced s → cache.get? s = none) ∧
      (∀ name other cache cache', c'.cache? w' name = some cache →
        c'.cache? w' other = some cache' → cache = cache') ∧
      (∀ r, r ∈ missing ↔ ∃ s, c.view.Sourced s ∧ s.requirement = r ∧ market[r]? = none) ∧
      (c.time ∈ w'.liveData.snapshots ↔
        c.time ∈ w.liveData.snapshots ∨ ∃ s, c.view.Sourced s) ∧
      (c.time ∈ w'.liveData.snapshots → w'.liveData.snapshots[c.time]? = some market) ∧
      ∀ t, t ≠ c.time → w'.liveData.snapshots[t]? = w.liveData.snapshots[t]? := by
  have hempty : ∀ k : CacheHandle, k.group = w.caches.currentGroup c.view.name c.time →
      w.cache k = .empty := fun k =>
    Workspace.cache_eq_empty_of_not_held (Lending.opened_start.steps hcalls) hnone
  obtain ⟨c', w', hprepare, h⟩ := prepare_created hs (hc.kept.fresh hs) w
  refine ⟨c', w', _, hprepare, fun name => ?_, fun name cache hcache => ?_,
    fun name other cache cache' hcache hcache' => ?_, c.mem_missing w.liveData, h.snapshots⟩
  · rw [h.cache?_eq, EvaluationModel.graph?, ← Option.isSome_iff_exists, Option.isSome_ite,
      EvaluationModel.names, ExtTreeMap.mem_keys, ← Option.isSome_iff_exists,
      ExtTreeMap.isSome_getElem?_iff_mem]
  · obtain ⟨hprivate, hshared⟩ := h.parts hempty hcache
    have hread : ∀ s, cache.get? s = c.loaded w.liveData s := fun s => by
      rw [Cache.get?, hprivate, hshared, ExtTreeMap.getElem?_empty, Option.none_or]
    refine ⟨hprivate, fun s hs => ⟨(hread s).trans (loaded_of_sourced hs _), fun id hid => ?_⟩,
      fun s hs => (hread s).trans (loaded_of_not_sourced hs _)⟩
    rw [hread, hread, loaded_of_sourced hid, loaded_of_sourced hs]
    rfl
  · obtain ⟨hprivate, hshared⟩ := h.parts hempty hcache
    obtain ⟨hprivate', hshared'⟩ := h.parts hempty hcache'
    refine Cache.ext_getElem? (ExtTreeMap.ext_getElem? fun s => ?_) fun s => ?_
    · rw [hshared, hshared']
    · rw [hprivate, hprivate']

namespace Sample

/-- A view with the spot price on both sides, under different function ids, and with a rate. -/
def doubled : View where
  definition := { name := "View" }
  model := .ofGraphs [graph "Left" [quoted], graph "Right"
    [step "3" .liveDataSourcing [] (quantity "Spot" "3"),
      step "4" .liveDataSourcing [] (quantity "Rate" "4")]]

/-- A cache of the view and time was opened, has got another spot price, and is released. -/
def past : List (CacheCall CacheHandle) :=
  [.openCache "View" ⟨1⟩ "Left",
    .putShared (Lending.Sample.handle 0 "Left") ⟨quantity "Spot" "2", .string "99"⟩,
    .release "View" ⟨1⟩]

def reopened : Workspace :=
  { spotted .empty with caches := ((Lending.start.calls? past).map Lending.source).getD .empty }

end Sample
open Cycle.Sample

/-- Both sides have the spot price under both ids, and have neither the rate nor what is past. -/
theorem spot_on_both_sides : ∃ c w missing, ∃ cache : Cache,
    Lending.start.calls? past = some ⟨reopened.caches, [Lending.Sample.handle 0 "Left"]⟩ ∧
    (Cycle.new doubled ⟨1⟩).prepare reopened = ⟨c, w, .ok missing⟩ ∧
    (quantity "Rate" "4").requirement ∈ missing ∧
    c.cache? w "Left" = some cache ∧ c.cache? w "Right" = some cache ∧
    cache.get? (quantity "Spot" "2") = some (.string "10") ∧
    cache.get? (quantity "Spot" "3") = some (.string "10") ∧
    cache.get? (quantity "Rate" "4") = none ∧ cache.get? (quantity "Price" "1") = none := by
  have hcalls : Lending.start.calls? past =
      some ⟨reopened.caches, [Lending.Sample.handle 0 "Left"]⟩ := by rfl
  have hheld : reopened.caches.held = [] := by rfl
  obtain ⟨c, w, missing, hprepare, hcaches, hread, hsame, hmissing, -⟩ :=
    live_data_fanned_out hcalls (.new doubled ⟨1⟩) rfl (by simp [hheld])
  obtain ⟨cache, hleft⟩ := (hcaches "Left").mpr ⟨_, rfl⟩
  obtain ⟨other, hright⟩ := (hcaches "Right").mpr ⟨_, rfl⟩
  obtain rfl := hsame _ _ _ _ hleft hright
  obtain ⟨-, hloaded, hnothing⟩ := hread _ _ hleft
  have hspot : doubled.Sourced (quantity "Spot" "2") := View.sourced_iff.mpr (by decide +kernel)
  have hother : doubled.Sourced (quantity "Spot" "3") := View.sourced_iff.mpr (by decide +kernel)
  have hrate : doubled.Sourced (quantity "Rate" "4") := View.sourced_iff.mpr (by decide +kernel)
  have hprice : ¬doubled.Sourced (quantity "Price" "1") := by
    rw [View.sourced_iff]
    decide +kernel
  exact ⟨c, w, missing, cache, hcalls, hprepare, (hmissing _).mpr ⟨_, hrate, rfl, rfl⟩, hleft,
    hright, (hloaded _ hspot).1, (hloaded _ hother).1, (hloaded _ hrate).1, hnothing _ hprice⟩

end Cycle
end ValuationCycle
