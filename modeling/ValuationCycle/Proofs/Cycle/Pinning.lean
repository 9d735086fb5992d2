import ValuationCycle.Proofs.Cycle.Desk
import ValuationCycle.Proofs.Cycle.Inheriting
import ValuationCycle.Proofs.Market.Snapshots

/-!
# Live data in use

A snapshot belongs to a time, not to the cycles that use it: whichever cycle of
a time releases its resources first drops it, for all of them. Until that happens
every cycle of the time loads from the same market, and what a cycle has loaded
is read unchanged, whatever else is done at the desk. After it the next cycle of
the time loads what the market is by then, also into caches in use.
-/
namespace ValuationCycle
open Json Std Graph.Sample Cycle.Sample

theorem LiveData.value?_eq (d : LiveData) (t : ValuationTime) (output : Specification) :
    d.value? t output = (d.market t)[output.requirement]? := d.query_snd t output.requirement

def View.Sources (view : View) (s : Specification) : Prop :=
  ∀ e ∈ view.model.graphs.toList, ∀ n ∈ e.2.nodes, s ∈ n.outputs → n.isLive = true

theorem View.Sources.isPrivate {view : View} {s : Specification} (h : view.Sources s)
    {e : String × Graph} (he : e ∈ view.model.graphs.toList) :
    (CacheHint.ofGraph e.2).isPrivate s = false := by
  rw [← Bool.not_eq_true, CacheHint.isPrivate_ofGraph]
  rintro ⟨n, hn, hl, hs⟩
  rw [h e he n hn hs] at hl
  exact absurd hl (by decide)

namespace Cycle
variable {c c' : Cycle} {w w' : Workspace} {vs : List Storing} {ts : List ValuationTime}
  {group : CacheGroup} {s : Specification} {value : Value}

theorem Ready.shares (previous : Cycle) {k : Nat} (hready : c.Ready ⟨c.view.name, c.time, k⟩)
    (hbare : ∀ name, (w.cache ⟨⟨c.view.name, c.time, k⟩, name⟩).privatePart[s]? = none) :
    Shares s ⟨c.view.name, c.time, k⟩ c.view.model.graphs.toList w
      (carryAll previous c w c.view.model.graphs.toList).workspace :=
  carryAll_shares c.view.model.nodup_map_fst hready.handle fun e _ _ => hbare e.1

namespace Moves

theorem view_eq (h : Moves c w c' w' vs ts) : c'.view = c.view ∧ c'.time = c.time := by
  cases h with
  | prepared _ hp => exact hp.cycle_eq ▸ ⟨rfl, rfl⟩
  | carried _ _ _ hstays _ => exact ⟨hstays.view_eq, hstays.time_eq⟩
  | stored hstays _ => exact ⟨hstays.view_eq, hstays.time_eq⟩
  | released hr => exact hr.cycle_eq ▸ ⟨rfl, rfl⟩

/-- A snapshot is held until its time is released. -/
theorem held (h : Moves c w c' w' vs ts) {t : ValuationTime} {m : Market}
    (hm : w.liveData.snapshots[t]? = some m) (ht : t ∉ ts) :
    w'.liveData.snapshots[t]? = some m := by
  cases h with
  | prepared _ hp =>
      rw [hp.liveData_eq]
      split
      · exact hm
      · rw [LiveData.snapshots_snapshot]
        split
        · next htime => rw [htime, LiveData.market_of_held hm]
        · exact hm
  | carried previous _ _ _ hw => rwa [hw, carryAll_liveData]
  | stored _ hstored => rwa [hstored.liveData_eq]
  | released hr =>
      have hne : compare c.time t ≠ .eq := fun he =>
        ht (by simp [LawfulEqOrd.eq_of_compare he])
      rw [hr.liveData_eq, LiveData.release, ExtTreeMap.getElem?_erase, if_neg hne]
      exact hm

theorem currentGroup_eq (h : Moves c w c' w' vs ts) (view : String) {t : ValuationTime}
    (ht : t ∉ ts) : w'.caches.currentGroup view t = w.caches.currentGroup view t := by
  cases h with
  | prepared _ hp => exact CacheSource.currentGroup_congr hp.aside.releases_eq view t
  | carried previous _ hready _ hw =>
      rw [hw]
      exact CacheSource.currentGroup_congr
        (carryAll_aside hready.handle).releases_eq view t
  | stored _ hstored => exact CacheSource.currentGroup_congr hstored.releases_eq view t
  | released hr =>
      rw [hr.caches_eq]
      exact w.caches.currentGroup_release_of_ne (fun he => ht (by simp [he])) view c.view.name

/-- No private value comes under a specification that no computing node has and under which
nothing is stored. -/
theorem bare (h : Moves c w c' w' vs ts)
    (hsources : c.view.name = group.view → c.time = group.time → c.view.Sources s)
    (hvs : ∀ v ∈ vs, v.request.cache.group = group → v.value.specification ≠ s)
    (hbare : ∀ name, (w.cache ⟨group, name⟩).privatePart[s]? = none) (name : String) :
    (w'.cache ⟨group, name⟩).privatePart[s]? = none := by
  cases h with
  | prepared _ hp => rw [hp.private_eq, hbare]
  | carried previous k hready _ hw =>
      rw [hw]
      by_cases hg : group = ⟨c.view.name, c.time, k⟩
      · subst hg
        rw [(hready.shares previous hbare).private_eq _ fun e he _ =>
          (hsources rfl rfl).isPrivate he, hbare]
      · rw [(carryAll_aside hready.handle).cache_eq _ hg, hbare]
  | stored _ hstored =>
      have hnone : lastValue? (Storing.kept ⟨group, name⟩ vs) s = none := by
        refine lastValue?_eq_none fun u hu => ?_
        obtain ⟨v, hv, hcache, -, rfl⟩ := Storing.mem_kept.mp hu
        exact hvs v hv (congrArg CacheHandle.group hcache)
      rw [hstored.private_eq, hnone, hbare, Option.none_or]
  | released hr =>
      rw [Workspace.cache, hr.caches_eq]
      exact hbare name

end Moves

theorem Prepares.snapshot_of_mem (h : Prepares c w c' w') (hs : s ∈ c.view.model.liveOutputs) :
    w'.liveData.snapshots[c.time]? = some (w.liveData.market c.time) := by
  rw [h.liveData_eq, if_neg (List.ne_nil_of_mem (ExtTreeSet.mem_toList.mpr hs)),
    LiveData.snapshots_snapshot, if_pos rfl]

/-- A value that a snapshot has and that the caches of a group show, while the group is the one
in which caches are opened. -/
structure Pinned (group : CacheGroup) (s : Specification) (value : Value) (w : Workspace) :
    Prop where
  held : ∃ m : Market, w.liveData.snapshots[group.time]? = some m ∧
    m[s.requirement]? = some value
  current : w.caches.currentGroup group.view group.time = group
  same : ∀ name, sameValue (some value) ((w.cache ⟨group, name⟩).sharedPart[s]?) = true

/-- A value stays pinned until its time is released. -/
theorem Pinned.moves (hpinned : Pinned group s value w) (h : Moves c w c' w' vs ts)
    (hvs : ∀ v ∈ vs, v.request.cache.group = group → v.value.specification ≠ s)
    (hbare : ∀ name, (w.cache ⟨group, name⟩).privatePart[s]? = none) (ht : group.time ∉ ts) :
    Pinned group s value w' := by
  obtain ⟨⟨m, hm, hvalue⟩, hcurrent, hsame⟩ := hpinned
  refine ⟨⟨m, h.held hm ht, hvalue⟩, (h.currentGroup_eq group.view ht).trans hcurrent,
    fun name => ?_⟩
  cases h with
  | prepared _ hp =>
      -- a cycle with the same caches reads the same snapshot, any other leaves them aside
      by_cases hg : group = w.caches.currentGroup c.view.name c.time
      · have htime : c.time = group.time := congrArg CacheGroup.time hg.symm
        rw [hp.shared_eq _ hg, loaded, LiveData.value?_eq, htime, LiveData.market_of_held hm,
          hvalue]
        split
        · exact sameValue_refl _
        · exact hsame name
      · rw [hp.aside.cache_eq _ hg]
        exact hsame name
  | carried previous k hready _ hw =>
      rw [hw]
      by_cases hg : group = ⟨c.view.name, c.time, k⟩
      · subst hg
        exact sameValue_trans (hsame name)
          ((hready.shares previous hbare).same _ rfl)
      · rw [(carryAll_aside hready.handle).cache_eq _ hg]
        exact hsame name
  | stored _ hstored =>
      have hnone : lastValue? (Storing.spilled group vs) s = none := by
        refine lastValue?_eq_none fun u hu => ?_
        obtain ⟨v, hv, hgroup, -, rfl⟩ := Storing.mem_spilled.mp hu
        exact hvs v hv hgroup
      rw [hstored.shared_eq, hnone, Option.none_or]
      exact hsame name
  | released hr =>
      rw [Workspace.cache, hr.caches_eq]
      exact hsame name

structure Resident (view : View) (group : CacheGroup) (c : Cycle) : Prop where
  view_eq : c.view = view
  time_eq : c.time = group.time
  created : c.state ≠ .created
  cleaned : c.state ≠ .cleaned
  housed : c.Housed group

theorem Resident.moves {view : View} (hc : Resident view group c) (h : Moves c w c' w' vs ts)
    (ht : group.time ∉ ts) : Resident view group c' := by
  have hstays : c.Stays c' := by
    cases h with
    | prepared hs _ => exact absurd hs hc.created
    | carried _ _ _ hstays _ => exact hstays
    | stored hstays _ => exact hstays
    | released _ => exact absurd (by simp [hc.time_eq]) ht
  refine ⟨hstays.view_eq.trans hc.view_eq, hstays.time_eq.trans hc.time_eq,
    fun hs => hc.created (hstays.created_iff.mp hs),
    fun hs => hc.cleaned (hstays.cleaned_iff.mp hs), ?_⟩
  unfold Housed
  rw [hstays.handles_eq, hstays.view_eq]
  exact hc.housed

end Cycle

namespace Desk
variable {d d' : Desk} {e : DeskEvent} {es : List DeskEvent} {t : ValuationTime}
  {group : CacheGroup} {s : Specification} {value : Value} {i : Nat} {x : Seat}

theorem snd_mem_of_moments {m : Desk × DeskEvent} (h : m ∈ d.moments es) : m.2 ∈ es := by
  induction es generalizing d with
  | nil => exact absurd h List.not_mem_nil
  | cons e es ih =>
      rcases List.mem_cons.mp h with rfl | h
      · exact List.mem_cons_self
      · cases he : d.step? e with
        | none => simp [he] at h
        | some d₁ => exact List.mem_cons_of_mem _ (ih (by simpa [he] using h))

/-- An event neither brings a view in which other nodes than live data sourcing ones have the
output, for caches of the group's view and time, nor stores a value under it in the group. -/
structure Spares (group : CacheGroup) (s : Specification) (d : Desk) (e : DeskEvent) : Prop where
  sources : ∀ view, e = .create view group.time → view.name = group.view → view.Sources s
  stored : ∀ v ∈ d.stored e, v.request.cache.group = group → v.value.specification ≠ s

structure Clear (group : CacheGroup) (s : Specification) (d : Desk) : Prop where
  kept : d.Kept
  sources : ∀ x ∈ d.seats, x.cycle.view.name = group.view → x.cycle.time = group.time →
    x.cycle.view.Sources s
  bare : ∀ name, (d.workspace.cache ⟨group, name⟩).privatePart[s]? = none

theorem clear_start (r : Repository) (dumps : DumpDirectory) : (start r dumps).Clear group s :=
  ⟨kept_start r dumps, fun _ hx => absurd hx List.not_mem_nil, fun _ => rfl⟩

theorem Clear.step (hd : d.Clear group s) (hspares : d.Spares group s e)
    (h : d.step? e = some d') : d'.Clear group s := by
  rcases step?_cases hd.kept h with ⟨current, rfl⟩ | ⟨view, t, rfl, rfl⟩ |
    ⟨i, x, y, hx, hseats, hmoves⟩
  · exact ⟨hd.kept.step h, hd.sources, hd.bare⟩
  · refine ⟨hd.kept.step h, fun x hx hview htime => ?_, hd.bare⟩
    rcases List.mem_append.mp hx with hx | hx
    · exact hd.sources x hx hview htime
    · obtain rfl := List.mem_singleton.mp hx
      exact hspares.sources view (congrArg (DeskEvent.create view) htime) hview
  · have hsources := hd.sources x (List.mem_of_getElem? hx)
    refine ⟨hd.kept.step h, fun z hz => ?_, hmoves.bare hsources hspares.stored hd.bare⟩
    rw [hseats] at hz
    rcases List.mem_or_eq_of_mem_set hz with hz | rfl
    · exact hd.sources z hz
    · rw [hmoves.view_eq.1, hmoves.view_eq.2]
      exact hsources

theorem held_step {m : Market} (hd : d.Kept) (hm : d.workspace.liveData.snapshots[t]? = some m)
    (ht : t ∉ d.freed e) (h : d.step? e = some d') :
    d'.workspace.liveData.snapshots[t]? = some m := by
  rcases step?_cases hd h with ⟨current, rfl⟩ | ⟨view, u, rfl, rfl⟩ | ⟨i, x, y, -, -, hmoves⟩
  · exact hm
  · exact hm
  · exact hmoves.held hm ht

theorem pinned_step (hd : d.Clear group s) (hspares : d.Spares group s e)
    (hp : Cycle.Pinned group s value d.workspace) (ht : group.time ∉ d.freed e)
    (h : d.step? e = some d') : Cycle.Pinned group s value d'.workspace := by
  rcases step?_cases hd.kept h with ⟨current, rfl⟩ | ⟨view, u, rfl, rfl⟩ | ⟨i, x, y, -, -, hmoves⟩
  · exact ⟨hp.held, hp.current, hp.same⟩
  · exact hp
  · exact hp.moves hmoves hspares.stored hd.bare ht

theorem resident_step {view : View} (hd : d.Kept) (hx : d.seats[i]? = some x)
    (hr : Cycle.Resident view group x.cycle) (ht : group.time ∉ d.freed e)
    (h : d.step? e = some d') :
    ∃ y, d'.seats[i]? = some y ∧ Cycle.Resident view group y.cycle := by
  rcases step?_cases hd h with ⟨current, rfl⟩ | ⟨view, u, rfl, rfl⟩ |
    ⟨j, z, y, hz, hseats, hmoves⟩
  · exact ⟨x, hx, hr⟩
  · exact ⟨x, (List.getElem?_append_left (List.getElem?_eq_some_iff.mp hx).1).trans hx, hr⟩
  · by_cases hij : i = j
    · subst hij
      obtain rfl := Option.some.inj (hx.symm.trans hz)
      refine ⟨y, ?_, hr.moves hmoves ht⟩
      rw [hseats]
      exact List.getElem?_set_self (List.getElem?_eq_some_iff.mp hx).1
    · refine ⟨x, ?_, hr⟩
      rw [hseats, List.getElem?_set_ne (Ne.symm hij)]
      exact hx

theorem step?_prepare (hd : d.Kept) (hx : d.seats[i]? = some x) (hs : x.cycle.state = .created)
    (h : d.step? (.act i .prepare) = some d') :
    ∃ c, Cycle.Prepares x.cycle d.workspace c d'.workspace ∧
      d'.seats = d.seats.set i { x with cycle := c } := by
  obtain ⟨x', y, hx', hy, hseats⟩ := act_eq_some h
  obtain rfl := Option.some.inj (hx.symm.trans hx')
  obtain ⟨c, w, hprepare, hc⟩ :=
    Cycle.prepare_created hs ((hd x (List.mem_of_getElem? hx)).fresh hs) d.workspace
  have hafter : x.after (x.cycle.prepare d.workspace) = (d'.workspace, y) := Option.some.inj hy
  rw [hprepare] at hafter
  obtain ⟨rfl, rfl⟩ := Prod.mk.inj hafter
  exact ⟨c, hc, hseats⟩

/-- The cycle at a seat has caches in a group where a value is pinned, and nothing hides it. -/
structure InUse (view : View) (group : CacheGroup) (s : Specification) (value : Value) (i : Nat)
    (d : Desk) : Prop where
  clear : d.Clear group s
  pinned : Cycle.Pinned group s value d.workspace
  resident : ∃ x, d.seats[i]? = some x ∧ Cycle.Resident view group x.cycle

theorem InUse.step {view : View} (hd : d.InUse view group s value i)
    (hspares : d.Spares group s e) (ht : group.time ∉ d.freed e) (h : d.step? e = some d') :
    d'.InUse view group s value i := by
  obtain ⟨x, hx, hr⟩ := hd.resident
  exact ⟨hd.clear.step hspares h, pinned_step hd.clear hspares hd.pinned ht h,
    resident_step hd.clear.kept hx hr ht h⟩

theorem inUse_prepare (hd : d.Clear (d.workspace.caches.currentGroup x.cycle.view.name
      x.cycle.time) s) (hx : d.seats[i]? = some x) (hs : x.cycle.state = .created)
    (hvalue : x.cycle.loaded d.workspace.liveData s = some value)
    (hspares : d.Spares (d.workspace.caches.currentGroup x.cycle.view.name x.cycle.time) s
      (.act i .prepare))
    (h : d.step? (.act i .prepare) = some d') :
    d'.InUse x.cycle.view (d.workspace.caches.currentGroup x.cycle.view.name x.cycle.time) s
      value i := by
  obtain ⟨c, hc, hseats⟩ := step?_prepare hd.kept hx hs h
  have hlive : s ∈ x.cycle.view.model.liveOutputs := by
    by_contra hno
    rw [Cycle.loaded, if_neg hno] at hvalue
    exact absurd hvalue (by simp)
  refine ⟨hd.step hspares h, ⟨⟨_, hc.snapshot_of_mem hlive, ?_⟩,
    CacheSource.currentGroup_congr hc.aside.releases_eq _ _, fun name => ?_⟩,
    { x with cycle := c }, ?_, ?_⟩
  · rw [Cycle.loaded, if_pos hlive, LiveData.value?_eq] at hvalue
    exact hvalue
  · rw [hc.shared_eq _ rfl, hvalue, Option.some_or]
    exact sameValue_refl _
  · rw [hseats]
    exact List.getElem?_set_self (List.getElem?_eq_some_iff.mp hx).1
  · have hready := hc.ready (hd.kept x (List.mem_of_getElem? hx)) hs
    rw [hc.cycle_eq] at hready ⊢
    exact ⟨rfl, rfl, by simp, by simp, hready.housed⟩

theorem InUse.read {view : View} (hd : d.InUse view group s value i) :
    ∃ x, d.seats[i]? = some x ∧ x.cycle.view = view ∧ x.cycle.time = group.time ∧
      x.cycle.state ≠ .created ∧ x.cycle.state ≠ .cleaned ∧
      ∀ name ∈ view.model.names, ∃ value',
        (x.cycle.cache? d.workspace name).bind (·.get? s) = some value' ∧
          value.same value' = true := by
  obtain ⟨x, hx, hr⟩ := hd.resident
  refine ⟨x, hx, hr.view_eq, hr.time_eq, hr.created, hr.cleaned, fun name hn => ?_⟩
  have hsame := hd.pinned.same name
  have hhandle := (hr.housed name).trans (if_pos (hr.view_eq ▸ hn))
  rw [Cycle.cache?, hhandle, Option.map_some, Option.bind_some, Cache.get?, hd.clear.bare,
    Option.none_or]
  cases hshared : (d.workspace.cache ⟨group, name⟩).sharedPart[s]? with
  | none => simp [hshared, sameValue] at hsame
  | some value' => exact ⟨value', rfl, by simpa [hshared, sameValue] using hsame⟩

/-- From the preparation of a cycle until some cycle of the same time is released, every cycle
of the time that is prepared loads what this one loaded, or nothing where it loaded nothing;
and what it loaded is read in every configuration as it was, up to what stands for the same,
where only live data sourcing nodes have the output and no function stores a value under it. -/
theorem pinned_until_released {r : Repository} {dumps : DumpDirectory}
    {before es : List DeskEvent} {d₀ d₁ d : Desk} {i : Nat} {x : Seat}
    (hbefore : (start r dumps).steps? before = some d₀) (hx : d₀.seats[i]? = some x)
    (hs : x.cycle.state = .created) (hprepare : d₀.step? (.act i .prepare) = some d₁)
    (hes : d₁.steps? es = some d)
    (hheld : ∀ m ∈ d₁.moments es, x.cycle.time ∉ m.1.freed m.2) :
    (∀ y ∈ d.seats, y.cycle.state = .created → y.cycle.time = x.cycle.time →
      ∃ c w, y.cycle.prepare d.workspace = ⟨c, w, .ok (y.cycle.missing d.workspace.liveData)⟩ ∧
        (∀ name ∈ y.cycle.view.model.names, ∃ h, c.handles[name]? = some h ∧
          ∀ u, (w.cache h).sharedPart[u]? = (y.cycle.loaded d.workspace.liveData u).or
            (d.workspace.cache h).sharedPart[u]?) ∧
        ∀ u ∈ x.cycle.view.model.liveOutputs, ∀ v ∈ y.cycle.view.model.liveOutputs,
          v.requirement = u.requirement →
          y.cycle.loaded d.workspace.liveData v = x.cycle.loaded d₀.workspace.liveData u) ∧
    let group := d₀.workspace.caches.currentGroup x.cycle.view.name x.cycle.time
    ∀ s value, x.cycle.loaded d₀.workspace.liveData s = some value →
      (∀ m ∈ (start r dumps).moments (before ++ .act i .prepare :: es), m.1.Spares group s m.2) →
      ∃ z, d.seats[i]? = some z ∧ z.cycle.view = x.cycle.view ∧ z.cycle.time = x.cycle.time ∧
        z.cycle.state ≠ .created ∧ z.cycle.state ≠ .cleaned ∧
        ∀ name ∈ x.cycle.view.model.names, ∃ value',
          (z.cycle.cache? d.workspace name).bind (·.get? s) = some value' ∧
            value.same value' = true := by
  have hkept₀ : d₀.Kept := (kept_start r dumps).steps hbefore
  have hkept₁ : d₁.Kept := hkept₀.step hprepare
  have hkept : d.Kept := hkept₁.steps hes
  refine ⟨fun y hy hcreated htime => ?_, fun s value hvalue hspares => ?_⟩
  -- the snapshot that was read is still held, so it is read again
  · obtain ⟨c', w', hprepared, hc'⟩ :=
      Cycle.prepare_created hcreated ((hkept y hy).fresh hcreated) d.workspace
    refine ⟨c', w', hprepared, fun name hn => ⟨_, (hc'.handle name).trans (if_pos hn), fun u =>
      hc'.shared_eq _ rfl u⟩, fun u hu v hv hrequirement => ?_⟩
    obtain ⟨c, hc, -⟩ := step?_prepare hkept₀ hx hs hprepare
    have hmarket : d.workspace.liveData.snapshots[x.cycle.time]? =
        some (d₀.workspace.liveData.market x.cycle.time) := by
      refine (steps?_induction (P := fun d => d.Kept ∧
        d.workspace.liveData.snapshots[x.cycle.time]? = _) hes (fun m hm d₂ hd he => ?_)
        ⟨hkept₁, hc.snapshot_of_mem hu⟩).2
      exact ⟨hd.1.step he, held_step hd.1 hd.2 (hheld m hm) he⟩
    rw [Cycle.loaded, if_pos hv, Cycle.loaded, if_pos hu, LiveData.value?_eq, LiveData.value?_eq,
      htime, LiveData.market_of_held hmarket, hrequirement]
  -- nothing hides the value before the preparation, which shows it, nor in the events after it
  · rw [moments_append hbefore, moments_cons hprepare] at hspares
    have hclear : d₀.Clear _ s := steps?_induction hbefore
      (fun m hm d₂ hd he => hd.step (hspares m (by simp [hm])) he) (clear_start r dumps)
    have hloaded : d₁.InUse x.cycle.view _ s value i :=
      inUse_prepare hclear hx hs hvalue (hspares (d₀, .act i .prepare) (by simp)) hprepare
    have hkept : d.InUse x.cycle.view _ s value i := steps?_induction hes
      (fun m hm d₂ hd he => hd.step (hspares m (by simp [hm])) (hheld m hm) he) hloaded
    exact hkept.read

namespace Sample

def spot : Specification := quantity "Spot" "1"

def bystander : View where
  definition := { name := "Bystander" }
  model := .ofGraphs [graph "Market" []]

/-- A price is set, and two cycles of one time are created. -/
def opening : List DeskEvent :=
  [.set spot.requirement (.string "10"), .create early ⟨1⟩, .create bystander ⟨1⟩]

def working : List DeskEvent :=
  [.act 1 .prepare, .act 1 .submit, .act 1 (.run "Market" .finish), .act 1 (.conclude .finished)]

def moving : List DeskEvent :=
  [.set spot.requirement (.string "20"), .create early ⟨1⟩]

def price? (d : Desk) (i : Nat) : Option Value :=
  d.seats[i]?.bind fun x => (x.cycle.cache? d.workspace "Market").bind (·.get? spot)

def stand? (d : Desk) (i : Nat) : Option (CycleState × ValuationTime) :=
  d.seats[i]?.map fun x => (x.cycle.state, x.cycle.time)

theorem sources_early : early.Sources spot := by
  intro e he n hn _
  rw [graphs_early] at he
  obtain rfl := List.mem_singleton.mp he
  obtain rfl := List.mem_singleton.mp hn
  rfl

theorem quiet {d : Desk} {e : DeskEvent}
    (he : e ∈ opening ++ .act 0 .prepare :: (working ++ moving)) :
    d.freed e = [] ∧ d.stored e = [] := by
  have hfinish : ∀ x : Execution, x.storedBy "Market" .finish = [] := by
    intro x
    rw [Execution.storedBy]
    cases x.site? "Market" <;> rfl
  have hnone : ∀ {α : Type} (x : Option Seat), (x.map fun _ => ([] : List α)).getD [] = [] := by
    intro α x
    cases x <;> rfl
  simp only [opening, working, moving, List.cons_append, List.nil_append, List.mem_cons,
    List.not_mem_nil, or_false] at he
  rcases he with rfl | rfl | rfl | rfl | rfl | rfl | rfl | rfl | rfl | rfl <;>
    simp [freed, stored, Seat.freed, Seat.stored, hfinish, hnone]

theorem spares_spot {d : Desk} {e : DeskEvent}
    (he : e ∈ opening ++ .act 0 .prepare :: (working ++ moving)) :
    d.Spares ⟨"View", ⟨1⟩, 0⟩ spot e := by
  refine ⟨?_, by simp [(quiet he).2]⟩
  rintro view rfl hname
  have hview : view = early ∨ view = bystander := by
    simpa [opening, working, moving, or_comm, or_assoc] using he
  rcases hview with rfl | rfl
  · exact sources_early
  · exact absurd hname (by decide)

end Sample
open Desk.Sample

/-- After a cycle of another view is released, a third cycle of the time loads the price as it is
by then, into the caches of the first as well. -/
theorem release_unpins : ∃ d₁ d,
    (start .empty .missing).steps? (opening ++ [.act 0 .prepare]) = some d₁ ∧
    stand? d₁ 0 = some (.inputsPrepared, ⟨1⟩) ∧ price? d₁ 0 = some (.string "10") ∧
    d₁.steps? (working ++ [.act 1 .release] ++ moving ++ [.act 2 .prepare]) = some d ∧
    stand? d 0 = some (.inputsPrepared, ⟨1⟩) ∧ price? d 0 = some (.string "20") ∧
    stand? d 2 = some (.inputsPrepared, ⟨1⟩) ∧ price? d 2 = some (.string "20") ∧
    (Value.string "10").same (.string "20") = false := by
  have h : ((start .empty .missing).steps? (opening ++ [.act 0 .prepare])).bind (fun d₁ =>
      (d₁.steps? (working ++ [.act 1 .release] ++ moving ++ [.act 2 .prepare])).map fun d =>
        (stand? d₁ 0, price? d₁ 0, stand? d 0, price? d 0, stand? d 2, price? d 2)) =
      some (some (.inputsPrepared, ⟨1⟩), some (.string "10"), some (.inputsPrepared, ⟨1⟩),
        some (.string "20"), some (.inputsPrepared, ⟨1⟩), some (.string "20")) := by rfl
  obtain ⟨d₁, h₁, h⟩ := Option.bind_eq_some_iff.mp h
  obtain ⟨d, hd, h⟩ := Option.map_eq_some_iff.mp h
  simp only [Prod.mk.injEq] at h
  obtain ⟨hbefore, hten, hafter, htwenty, hthird, hread⟩ := h
  exact ⟨d₁, d, h₁, hbefore, hten, hd, hafter, htwenty, hthird, hread, by decide⟩

/-- While no cycle of the time is released, the price stays what it was when the first cycle was
prepared, for that cycle and for one that is prepared later. -/
theorem snapshot_pins : ∃ d₀ d₁ d x y,
    (start .empty .missing).steps? opening = some d₀ ∧ d₀.seats[0]? = some x ∧
    x.cycle.state = .created ∧ d₀.step? (.act 0 .prepare) = some d₁ ∧
    d₁.steps? (working ++ moving) = some d ∧ d.seats[2]? = some y ∧
    y.cycle.loaded d.workspace.liveData spot = some (.string "10") ∧
    ∃ z value, d.seats[0]? = some z ∧
      (z.cycle.cache? d.workspace "Market").bind (·.get? spot) = some value ∧
      (Value.string "10").same value = true := by
  have h : ((start .empty .missing).steps? opening).bind (fun d₀ =>
      (d₀.step? (.act 0 .prepare)).bind fun d₁ => (d₁.steps? (working ++ moving)).map fun d =>
        (d₀.seats[0]?, (Cycle.new early ⟨1⟩).loaded d₀.workspace.liveData spot,
          d₀.workspace.caches.currentGroup "View" ⟨1⟩, d.seats[2]?)) =
      some (some (.new (.new early ⟨1⟩)), some (.string "10"), ⟨"View", ⟨1⟩, 0⟩,
        some (.new (.new early ⟨1⟩))) := by rfl
  obtain ⟨d₀, h₀, h⟩ := Option.bind_eq_some_iff.mp h
  obtain ⟨d₁, h₁, h⟩ := Option.bind_eq_some_iff.mp h
  obtain ⟨d, hd, h⟩ := Option.map_eq_some_iff.mp h
  simp only [Prod.mk.injEq] at h
  obtain ⟨hx, hvalue, hgroup, hy⟩ := h
  obtain ⟨hload, hread⟩ := pinned_until_released h₀ hx rfl h₁ hd fun m hm => by
    rw [(quiet (by simp [snd_mem_of_moments hm])).1]
    exact List.not_mem_nil
  have hlive : spot ∈ early.model.liveOutputs := by decide +kernel
  obtain ⟨-, -, -, -, hsame⟩ := hload _ (List.mem_of_getElem? hy) rfl rfl
  obtain ⟨z, hz, -, -, -, -, hall⟩ := hread spot _ hvalue fun m hm =>
    hgroup ▸ spares_spot (snd_mem_of_moments hm)
  obtain ⟨value, hvalue', hvalue''⟩ := hall "Market" (by decide +kernel)
  exact ⟨d₀, d₁, d, _, _, h₀, hx, rfl, h₁, hd, hy, (hsame spot hlive spot hlive rfl).trans hvalue,
    z, value, hz, hvalue', hvalue''⟩

end Desk
end ValuationCycle
