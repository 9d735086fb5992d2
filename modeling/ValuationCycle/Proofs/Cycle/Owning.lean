import ValuationCycle.Proofs.Cycle.Pinning

/-!
# Resources and their owners

Caches are opened and snapshots are taken for a cycle when its inputs are prepared, and both are
let go of when it is released. Cycles of one view and time have the same caches, and cycles of
one time the same snapshot, so that releasing one of them takes from the others. At every moment
all that is held is owned by some cycle that is prepared and not cleaned: the executions of a
cleaned one may go on and store values, but only in caches that are let go of.
-/
namespace ValuationCycle
open Json Std

namespace Workspace
variable {w : Workspace} {p : CacheHandle → Prop}

theorem touches_updateCache {h : CacheHandle} (hp : p h) (f : Cache → Cache) :
    w.caches.Touches p (w.updateCache h f).caches := CacheSource.touches_update (s := w.caches) f hp

theorem touches_fanOut {hs : List CacheHandle} (hp : ∀ h ∈ hs, p h) (v : ComputedValue) :
    w.caches.Touches p (w.fanOut hs v).caches := by
  induction hs generalizing w with
  | nil => exact CacheSource.touches_refl p w.caches
  | cons h hs ih =>
      exact (touches_updateCache (hp h (by simp)) fun c => c.putShared v).trans
        (ih fun k hk => hp k (by simp [hk]))

theorem touches_load {hs : List CacheHandle} (hp : ∀ h ∈ hs, p h) (t : ValuationTime)
    (outputs : List Specification) : w.caches.Touches p (w.load t hs outputs).1.caches := by
  induction outputs generalizing w with
  | nil => exact CacheSource.touches_refl p w.caches
  | cons output outputs ih =>
      rw [load]
      split
      · next w' v hw =>
          obtain rfl : (w.query t output).1 = w' := by rw [hw]
          have hfan : w.caches.Touches p ((w.query t output).1.fanOut hs ⟨output, v⟩).caches :=
            touches_fanOut (w := (w.query t output).1) hp ⟨output, v⟩
          exact hfan.trans ih
      · next w' hw =>
          obtain rfl : (w.query t output).1 = w' := by rw [hw]
          exact ih (w := (w.query t output).1)

theorem touches_copyAll {current : CacheHandle} (hp : p current) (previous : CacheHandle)
    (hint : CacheHint) (ns : List Node) :
    w.caches.Touches p (w.copyAll previous current hint ns).caches := by
  induction ns generalizing w with
  | nil => exact CacheSource.touches_refl p w.caches
  | cons n ns ih =>
      have hfirst : w.caches.Touches p (w.copyOutputs previous current hint n).caches :=
        touches_updateCache hp _
      exact hfirst.trans ih

end Workspace

namespace Cycle
variable {c : Cycle} {w : Workspace} {p : CacheHandle → Prop}

theorem touches_openCaches (names : List String) (c : Cycle) (w : Workspace) :
    w.caches.Touches (fun k => k.group = w.caches.currentGroup c.view.name c.time)
      (names.foldl (fun s name => s.1.openCache s.2 name) (c, w)).2.caches := by
  induction names generalizing c w with
  | nil => exact CacheSource.touches_refl _ w.caches
  | cons name names ih =>
      have hfirst : w.caches.Touches (fun k => k.group = w.caches.currentGroup c.view.name c.time)
          (c.openCache w name).2.caches := CacheSource.touches_openCache _ _ _ rfl
      exact hfirst.trans (ih (c.openCache w name).1 (c.openCache w name).2)

theorem touches_prepare (hp : c.permits .prepareInputs = true) (hc : c.handles = ∅)
    (w : Workspace) :
    w.caches.Touches (fun k => k.group = w.caches.currentGroup c.view.name c.time)
      (c.prepare w).workspace.caches := by
  obtain ⟨⟨handles, hcycle, hhandles⟩, -⟩ :=
    openCaches_eq { c with started := true } w c.view.model.names
  rw [prepare, if_pos hp]
  refine (touches_openCaches c.view.model.names { c with started := true } w).trans
    (Workspace.touches_load (fun h hh => ?_) _ _)
  change h ∈ (c.view.model.names.foldl (fun (s : Cycle × Workspace) name => s.1.openCache s.2 name)
    ({ c with started := true }, w)).1.handles.values at hh
  rw [values_eq_map_toList, List.mem_map] at hh
  obtain ⟨⟨name, h⟩, hm, rfl⟩ := hh
  rw [ExtTreeMap.mem_toList_iff_getElem?_eq_some, hcycle, hhandles, hc,
    ExtTreeMap.getElem?_empty] at hm
  split at hm
  · exact (Option.some.inj hm) ▸ rfl
  · simp at hm

theorem touches_carryAll (hp : ∀ (name : String) (h : CacheHandle), c.handles[name]? = some h → p h)
    (previous : Cycle) (graphs : List (String × Graph)) :
    w.caches.Touches p (carryAll previous c w graphs).workspace.caches := by
  induction graphs generalizing c w with
  | nil => exact CacheSource.touches_refl p w.caches
  | cons e rest ih =>
      obtain ⟨name, g⟩ := e
      unfold carryAll
      split
      · next current m hcurrent hm =>
          split
          · exact ih hp
          · next old hold =>
              exact (Workspace.touches_copyAll (hp name current hcurrent) old _ _).trans
                (ih (c := c.setMarks name _) hp)
      · exact CacheSource.touches_refl p w.caches

end Cycle

theorem Site.touches_step? {s s' : Site} {e : RunEvent} (h : s.step? e = some s') :
    s.workspace.caches.Touches (· = s.run.request.cache) s'.workspace.caches := by
  have hfail : ∀ (s : Site) (err : ExecutionError),
      (s.fail err).workspace.caches = s.workspace.caches := by
    intro s err
    unfold fail
    split <;> rfl
  have hrefl := CacheSource.touches_refl (· = s.run.request.cache) s.workspace.caches
  cases e with
  | dispatch i =>
      obtain ⟨-, -, n, -, rfl⟩ := dispatch_eq_some h
      exact hrefl
  | number i =>
      obtain ⟨-, numbers, input, rest, -, rfl⟩ := number_eq_some h
      exact hrefl
  | evaluate i =>
      obtain ⟨numbers, n, -, -, rfl⟩ := evaluate_eq_some h
      exact hrefl
  | record i =>
      obtain ⟨-, numbers, unnumbered, a, n, -, -, rfl⟩ := record_eq_some h
      rcases a with e | (values | e | _)
      · exact (hfail { s with run := s.run.dropJob i } _).symm ▸ hrefl
      · exact Workspace.touches_updateCache (w := s.workspace) (p := (· = s.run.request.cache))
          rfl _
      · exact hrefl
      · exact (hfail { s with run := s.run.dropJob i } _).symm ▸ hrefl
  | finish =>
      obtain ⟨-, -, -, rfl⟩ := finish_eq_some h
      dsimp only
      split <;> exact hrefl
  | cancel =>
      obtain ⟨-, rfl⟩ := cancel_eq_some h
      exact hrefl

namespace Seat

def Holds (x : Seat) (k : CacheHandle) : Prop :=
  (∃ name : String, x.cycle.handles[name]? = some k) ∨
    ∃ (name : String) (run : Run), x.runs[name]? = some run ∧ run.request.cache = k

/-- A cache is one of those that cycles of the same view and time have. -/
def Owns (x : Seat) (k : CacheHandle) : Prop :=
  k.group.view = x.cycle.view.name ∧ k.group.time = x.cycle.time

def InWork (x : Seat) : Prop := x.cycle.state ≠ .created ∧ x.cycle.state ≠ .cleaned

/-- What an event of a cycle does about the resources of a workspace. -/
inductive Turns (x : Seat) (w : Workspace) (y : Seat) (w' : Workspace) : Prop
  | prepared : x.cycle.state = .created → x.cycle.Prepares w y.cycle w' → y.runs = x.runs →
      w.caches.Touches
        (fun k => k.group = w.caches.currentGroup x.cycle.view.name x.cycle.time) w'.caches →
      Turns x w y w'
  | worked : x.cycle.Stays y.cycle → (∀ k, y.Holds k → x.Holds k) →
      w.caches.Touches x.Holds w'.caches → w'.liveData = w.liveData → Turns x w y w'
  | released : x.cycle.Releases w y.cycle w' → y.runs = x.runs → Turns x w y w'

variable {x y : Seat} {w w' : Workspace} {seats : List Seat} {e : SeatEvent}

theorem InWork.stays (h : x.InWork) (hstays : x.cycle.Stays y.cycle) : y.InWork :=
  ⟨fun hs => h.1 (hstays.created_iff.mp hs), fun hs => h.2 (hstays.cleaned_iff.mp hs)⟩

theorem inWork_of_prepares (h : x.cycle.Prepares w y.cycle w') : y.InWork := by
  rw [InWork, h.cycle_eq]
  exact ⟨by simp, by simp⟩

theorem turns_of_stays (h : x.cycle.Stays y.cycle) (hruns : y.runs = x.runs) :
    Turns x w y w := by
  refine .worked h (fun k hk => ?_) (CacheSource.touches_refl _ _) rfl
  rwa [Holds, h.handles_eq, hruns] at hk

theorem turns_refl (x : Seat) (w : Workspace) : Turns x w x w :=
  turns_of_stays x.cycle.stays_refl rfl

theorem holds_submit {group : CacheGroup} (h : x.cycle.Ready group) {k : CacheHandle}
    (hk : (x.submit w).Holds k) : x.Holds k := by
  obtain ⟨c, submitted, hsubmissions, hc, hrequests, -⟩ := h.execute_eq w
  have hpermits : x.cycle.permits .executePlans = true := by
    rw [Cycle.permits, h.state_eq]
    rfl
  rw [submit_eq hpermits hsubmissions hrequests] at hk
  left
  rcases hk with ⟨name, hname⟩ | ⟨name, run, hrun, rfl⟩
  · change c.handles[name]? = some k at hname
    rw [hc] at hname
    exact ⟨name, hname⟩
  · obtain ⟨q, hq, -, rfl⟩ := (Execution.runs_submitAll w c.marks _ (by
      rw [x.cycle.map_configuration_requests]
      exact x.cycle.view.model.nodup_names) name run).mp hrun
    obtain ⟨e, he, rfl⟩ := List.mem_map.mp hq
    exact ⟨e.1, h.handle e he⟩

theorem turns_prepare (hx : x.cycle.Kept) (w : Workspace) :
    Turns x w { x with cycle := (x.cycle.prepare w).cycle } (x.cycle.prepare w).workspace := by
  by_cases hp : x.cycle.permits .prepareInputs = true
  · have hs : x.cycle.state = .created := List.mem_singleton.mp (Cycle.state_of_permits hp)
    have htouches := Cycle.touches_prepare hp (hx.fresh hs) w
    obtain ⟨c', w', hprepare, hc'⟩ := Cycle.prepare_created hs (hx.fresh hs) w
    rw [hprepare] at htouches ⊢
    exact .prepared hs hc' rfl htouches
  · rw [Cycle.prepare, if_neg hp]
    exact x.turns_refl w

theorem turns_carry (previous : Cycle) : Turns x w
    { x with cycle := (x.cycle.computeDelta w previous).cycle }
    (x.cycle.computeDelta w previous).workspace := by
  unfold Cycle.computeDelta
  split
  · split
    · have hstays := (Cycle.remarks_carryAll previous x.cycle.view.model.graphs.toList
        x.cycle w).stays
      refine .worked hstays (fun k hk => ?_)
        (Cycle.touches_carryAll (fun name h hh => .inl ⟨name, hh⟩) previous _)
        (Cycle.carryAll_liveData previous x.cycle w _)
      rcases hk with ⟨name, hname⟩ | hrun
      · exact .inl ⟨name, hstays.handles_eq ▸ hname⟩
      · exact .inr hrun
    · exact x.turns_refl w
  · exact x.turns_refl w

theorem turns_submit (hx : x.cycle.Kept) (w : Workspace) : Turns x w (x.submit w) w := by
  by_cases hp : x.cycle.permits .executePlans = true
  · obtain ⟨k, hk⟩ := hx.ready (List.mem_singleton.mp (Cycle.state_of_permits hp))
    exact .worked (x.stays_submit w) (fun k => holds_submit hk) (CacheSource.touches_refl _ _) rfl
  · rw [submit, if_neg hp]
    exact x.turns_refl w

theorem turns_run {configuration : String} {event : RunEvent} {z : Execution}
    (h : (x.execution w).step? configuration event = some z) :
    Turns x w (ofExecution x.cycle z) z.workspace := by
  have hstays := (ofExecution_remarks h).stays
  have hlive := (Execution.step?_stored h).liveData_eq
  obtain ⟨s, s', hsite, he, rfl⟩ := Execution.step?_eq_some h
  obtain ⟨hworkspace, -, hrun, -⟩ := Execution.site?_eq_some hsite
  have htouches := Site.touches_step? he
  rw [hworkspace] at htouches
  refine .worked hstays (fun k hk => ?_) ⟨htouches.releases_eq, fun k hk => ?_⟩ hlive
  · rcases hk with hname | ⟨name, run, hname, rfl⟩
    · exact .inl hname
    · right
      change ((x.execution w).restore configuration s').runs[name]? = some run at hname
      rw [Execution.runs_restore] at hname
      split at hname
      · obtain rfl := Option.some.inj hname
        exact ⟨configuration, s.run, hrun, by rw [Site.step?_request he]⟩
      · exact ⟨name, run, hname, rfl⟩
  · rcases htouches.mem_privates k hk with hk | rfl
    · exact .inl hk
    · exact .inr (.inr ⟨configuration, s.run, hrun, rfl⟩)

theorem turns_release (x : Seat) (w : Workspace) :
    Turns x w { x with cycle := (x.cycle.release w).cycle } (x.cycle.release w).workspace := by
  by_cases hp : x.cycle.permits .releaseResources = true
  · exact .released (Cycle.release_of_permits hp w) rfl
  · rw [Cycle.release, if_neg hp]
    exact x.turns_refl w

theorem step?_turns (hx : x.cycle.Kept) (h : x.step? w seats e = some (w', y)) :
    Turns x w y w' := by
  cases e with
  | prepare =>
      obtain ⟨rfl, rfl⟩ := Prod.mk.inj (Option.some.inj h)
      exact turns_prepare hx w
  | carry previous =>
      obtain ⟨z, -, hz⟩ := Option.map_eq_some_iff.mp h
      obtain ⟨rfl, rfl⟩ := Prod.mk.inj hz
      exact turns_carry z.cycle
  | submit =>
      obtain ⟨rfl, rfl⟩ := Prod.mk.inj (Option.some.inj h)
      exact turns_submit hx w
  | run configuration event =>
      obtain ⟨z, hz, hy⟩ := Option.map_eq_some_iff.mp h
      obtain ⟨rfl, rfl⟩ := Prod.mk.inj hy
      exact turns_run hz
  | conclude verdict =>
      obtain ⟨hs, hy⟩ := Option.ite_none_right_eq_some.mp h
      obtain ⟨rfl, rfl⟩ := Prod.mk.inj (Option.some.inj hy)
      exact turns_of_stays (stays_conclude hs verdict) rfl
  | populate moment =>
      obtain ⟨rfl, rfl⟩ := Prod.mk.inj (Option.some.inj h)
      obtain ⟨hstays, hworkspace⟩ := x.cycle.stays_populate w moment
      rw [hworkspace]
      exact turns_of_stays hstays rfl
  | release =>
      obtain ⟨rfl, rfl⟩ := Prod.mk.inj (Option.some.inj h)
      exact x.turns_release w
  | interrupt =>
      obtain ⟨rfl, rfl⟩ := Prod.mk.inj (Option.some.inj h)
      exact turns_of_stays ⟨rfl, rfl, rfl, Iff.rfl, Iff.rfl⟩ rfl

/-- A cycle and its executions have handles of its own caches, which have been opened. If it is
cleaned, these have been let go of. -/
structure Orderly (s : CacheSource) (x : Seat) : Prop where
  fresh : x.cycle.state = .created → ∀ k, ¬x.Holds k
  owns : ∀ k, x.Holds k → x.Owns k
  opened : ∀ k, x.Holds k → k.group.releases ≤ s.releaseCount k.group.view k.group.time
  spent : x.cycle.state = .cleaned →
    ∀ k, x.Holds k → k.group.releases < s.releaseCount k.group.view k.group.time

theorem orderly_new (s : CacheSource) (view : View) (t : ValuationTime) :
    (Seat.new (.new view t)).Orderly s := by
  have hnone : ∀ k, ¬(Seat.new (.new view t)).Holds k := by
    rintro k (⟨name, hname⟩ | ⟨name, run, hrun, -⟩)
    · simp [new, Cycle.new] at hname
    · simp [new] at hrun
  exact ⟨fun _ => hnone, fun k hk => absurd hk (hnone k), fun k hk => absurd hk (hnone k),
    fun _ k hk => absurd hk (hnone k)⟩

theorem Orderly.mono {s s' : CacheSource} (hx : x.Orderly s)
    (h : ∀ view t, s.releaseCount view t ≤ s'.releaseCount view t) : x.Orderly s' :=
  ⟨hx.fresh, hx.owns, fun k hk => (hx.opened k hk).trans (h _ _),
    fun hs k hk => (hx.spent hs k hk).trans_le (h _ _)⟩

def Keeps (x : Seat) (k : CacheHandle) : Prop := x.InWork ∧ x.Owns k

def Reads (x : Seat) (t : ValuationTime) : Prop := x.InWork ∧ x.cycle.time = t

namespace Turns

theorem releaseCount_le (h : Turns x w y w') (view : String) (t : ValuationTime) :
    w.caches.releaseCount view t ≤ w'.caches.releaseCount view t := by
  cases h with
  | prepared _ _ _ htouches => exact (htouches.releaseCount_eq view t).ge
  | worked _ _ htouches _ => exact (htouches.releaseCount_eq view t).ge
  | released hr _ =>
      rw [hr.caches_eq, CacheSource.releaseCount_release]
      exact Nat.le_add_right _ _

theorem owns_of_group {k : CacheHandle} (hview : y.cycle.view = x.cycle.view)
    (htime : y.cycle.time = x.cycle.time)
    (hk : k.group = w.caches.currentGroup x.cycle.view.name x.cycle.time) :
    y.Owns k ∧ k.group.releases = w.caches.releaseCount k.group.view k.group.time := by
  rw [Owns, hk, hview, htime]
  exact ⟨⟨rfl, rfl⟩, rfl⟩

theorem orderly (h : Turns x w y w') (hx : x.Orderly w.caches) : y.Orderly w'.caches := by
  have hle := h.releaseCount_le
  cases h with
  | prepared hs hp hruns htouches =>
      have hview : y.cycle.view = x.cycle.view := by rw [hp.cycle_eq]
      have htime : y.cycle.time = x.cycle.time := by rw [hp.cycle_eq]
      have hstate : y.cycle.state = .inputsPrepared := by rw [hp.cycle_eq]
      have hgroup : ∀ k, y.Holds k →
          k.group = w.caches.currentGroup x.cycle.view.name x.cycle.time := by
        rintro k (⟨name, hname⟩ | ⟨name, run, hrun, hcache⟩)
        · rw [hp.handle] at hname
          split at hname
          · exact Option.some.inj hname ▸ rfl
          · simp at hname
        · exact absurd (.inr ⟨name, run, hruns ▸ hrun, hcache⟩) (hx.fresh hs k)
      refine ⟨by simp [hstate], fun k hk => (owns_of_group hview htime (hgroup k hk)).1,
        fun k hk => ?_, by simp [hstate]⟩
      exact (owns_of_group hview htime (hgroup k hk)).2.le.trans (hle _ _)
  | worked hstays hholds _ _ =>
      refine ⟨fun hs k hk => hx.fresh (hstays.created_iff.mp hs) k (hholds k hk), fun k hk => ?_,
        fun k hk => (hx.opened k (hholds k hk)).trans (hle _ _),
        fun hs k hk => (hx.spent (hstays.cleaned_iff.mp hs) k (hholds k hk)).trans_le (hle _ _)⟩
      rw [Owns, hstays.view_eq, hstays.time_eq]
      exact hx.owns k (hholds k hk)
  | released hr hruns =>
      have hview : y.cycle.view = x.cycle.view := by rw [hr.cycle_eq]
      have htime : y.cycle.time = x.cycle.time := by rw [hr.cycle_eq]
      have hholds : ∀ k, y.Holds k → x.Holds k := by
        rintro k (⟨name, hname⟩ | ⟨name, run, hrun, hcache⟩)
        · simp [hr.cycle_eq] at hname
        · exact .inr ⟨name, run, hruns ▸ hrun, hcache⟩
      refine ⟨by simp [hr.cycle_eq], fun k hk => ?_,
        fun k hk => (hx.opened k (hholds k hk)).trans (hle _ _), fun _ k hk => ?_⟩
      · rw [Owns, hview, htime]
        exact hx.owns k (hholds k hk)
      · obtain ⟨hkview, hktime⟩ := hx.owns k (hholds k hk)
        rw [hr.caches_eq, CacheSource.releaseCount_release, if_pos ⟨hkview.symm, hktime.symm⟩]
        exact Nat.lt_succ_of_le (hx.opened k (hholds k hk))

theorem dated (h : Turns x w y w') (hx : x.Orderly w.caches) (hw : w.caches.Dated) :
    w'.caches.Dated := by
  intro k hk
  refine Nat.le_trans ?_ (h.releaseCount_le _ _)
  cases h with
  | prepared _ _ _ htouches =>
      rcases htouches.mem_privates k hk with hk | hk
      · exact hw k hk
      · exact (owns_of_group (x := x) rfl rfl hk).2.le
  | worked _ _ htouches _ =>
      rcases htouches.mem_privates k hk with hk | hk
      · exact hw k hk
      · exact hx.opened k hk
  | released hr _ =>
      rw [hr.caches_eq] at hk
      exact hw k hk

/-- A cache that is held is kept by the cycle, or was held before and not kept by it. -/
theorem held (h : Turns x w y w') (hx : x.Orderly w.caches) (hw : w.caches.Dated)
    {k : CacheHandle} (hk : k ∈ w'.caches.held) : y.Keeps k ∨ k ∈ w.caches.held ∧ ¬x.Keeps k := by
  cases h with
  | prepared hs hp _ htouches =>
      rcases htouches.mem_held hk with hk | ⟨hk, -⟩
      · exact .inr ⟨hk, fun hkeeps => hkeeps.1.1 hs⟩
      · exact .inl ⟨inWork_of_prepares hp,
          (owns_of_group (by rw [hp.cycle_eq]) (by rw [hp.cycle_eq]) hk).1⟩
  | worked hstays hholds htouches _ =>
      have hkeeps : x.Keeps k → y.Keeps k := by
        rintro ⟨hwork, howns⟩
        refine ⟨hwork.stays hstays, ?_⟩
        rw [Owns, hstays.view_eq, hstays.time_eq]
        exact howns
      rcases htouches.mem_held hk with hk | ⟨hk, hcurrent⟩
      · by_cases hx : x.Keeps k
        · exact .inl (hkeeps hx)
        · exact .inr ⟨hk, hx⟩
      -- an execution of a cleaned cycle may store values, but in a cache that is let go of
      · exact .inl (hkeeps ⟨⟨fun hs => hx.fresh hs k hk,
          fun hs => (hx.spent hs k hk).ne hcurrent⟩, hx.owns k hk⟩)
  | released hr _ =>
      rw [hr.caches_eq, CacheSource.mem_held, CacheSource.releaseCount_release] at hk
      by_cases howns : x.Owns k
      -- the group of a cache is one opened before the release, so it is let go of
      · have hle := hw k hk.1
        rw [if_pos ⟨howns.1.symm, howns.2.symm⟩] at hk
        omega
      · rw [if_neg fun hc => howns ⟨hc.1.symm, hc.2.symm⟩] at hk
        exact .inr ⟨(CacheSource.mem_held _).mpr hk, fun hkeeps => howns hkeeps.2⟩

theorem snapshots (h : Turns x w y w') {t : ValuationTime} (ht : t ∈ w'.liveData.snapshots) :
    y.Reads t ∨ t ∈ w.liveData.snapshots ∧ ¬x.Reads t := by
  cases h with
  | prepared hs hp _ _ =>
      rw [hp.liveData_eq] at ht
      split at ht
      · exact .inr ⟨ht, fun hreads => hreads.1.1 hs⟩
      · change t ∈ w.liveData.snapshots.insertIfNew x.cycle.time _ at ht
        rw [ExtTreeMap.mem_insertIfNew, LawfulEqOrd.compare_eq_iff_eq] at ht
        rcases ht with rfl | ht
        · exact .inl ⟨inWork_of_prepares hp, by rw [hp.cycle_eq]⟩
        · exact .inr ⟨ht, fun hreads => hreads.1.1 hs⟩
  | worked hstays _ _ hlive =>
      rw [hlive] at ht
      by_cases hreads : x.Reads t
      · exact .inl ⟨hreads.1.stays hstays, hstays.time_eq.trans hreads.2⟩
      · exact .inr ⟨ht, hreads⟩
  | released hr _ =>
      rw [hr.liveData_eq, LiveData.release, ExtTreeMap.mem_erase] at ht
      refine .inr ⟨ht.2, fun hreads => ht.1 ?_⟩
      rw [hreads.2]
      exact ReflOrd.compare_self

end Turns
end Seat

namespace Desk
variable {d d' : Desk} {e : DeskEvent} {es : List DeskEvent}

/-- Every cache and every snapshot that is held has an owner. -/
structure Accounted (d : Desk) : Prop where
  kept : d.Kept
  orderly : ∀ x ∈ d.seats, x.Orderly d.workspace.caches
  dated : d.workspace.caches.Dated
  caches : ∀ k ∈ d.workspace.caches.held, ∃ x ∈ d.seats, x.Keeps k
  snapshots : ∀ t ∈ d.workspace.liveData.snapshots, ∃ x ∈ d.seats, x.Reads t

theorem accounted_start (r : Repository) (dumps : DumpDirectory) : (start r dumps).Accounted := by
  refine ⟨kept_start r dumps, ?_, ?_, ?_, ?_⟩ <;> simp [start, Workspace.new, CacheSource.empty,
    CacheSource.held, CacheSource.Dated, LiveData.empty]

/-- An owner is still one after an event of another cycle. -/
theorem exists_owner {seats : List Seat} {i : Nat} {x y : Seat} {p : Seat → Prop}
    (hx : seats[i]? = some x) (h : p y ∨ (∃ z ∈ seats, p z) ∧ ¬p x) :
    ∃ z ∈ seats.set i y, p z := by
  have hi : i < seats.length := (List.getElem?_eq_some_iff.mp hx).1
  rcases h with hy | ⟨⟨z, hz, hp⟩, hno⟩
  · exact ⟨y, List.mem_of_getElem? (List.getElem?_set_self hi), hy⟩
  · obtain ⟨j, hj⟩ := List.mem_iff_getElem?.mp hz
    have hne : i ≠ j := by
      rintro rfl
      obtain rfl := Option.some.inj (hx.symm.trans hj)
      exact hno hp
    exact ⟨z, List.mem_of_getElem? ((List.getElem?_set_ne hne).trans hj), hp⟩

theorem Accounted.step (hd : d.Accounted) (h : d.step? e = some d') : d'.Accounted := by
  have hkept := hd.kept.step h
  cases e with
  | set r v => exact Option.some.inj h ▸ ⟨hd.kept, hd.orderly, hd.dated, hd.caches, hd.snapshots⟩
  | remove r => exact Option.some.inj h ▸ ⟨hd.kept, hd.orderly, hd.dated, hd.caches, hd.snapshots⟩
  | create view t =>
      obtain rfl := Option.some.inj h
      have hmore : ∀ {p : Seat → Prop}, (∃ x ∈ d.seats, p x) →
          ∃ x ∈ d.seats ++ [.new (.new view t)], p x := by
        rintro p ⟨x, hx, hp⟩
        exact ⟨x, List.mem_append_left _ hx, hp⟩
      refine ⟨hkept, fun x hx => ?_, hd.dated, fun k hk => hmore (hd.caches k hk),
        fun u hu => hmore (hd.snapshots u hu)⟩
      rcases List.mem_append.mp hx with hx | hx
      · exact hd.orderly x hx
      · rw [List.mem_singleton.mp hx]
        exact Seat.orderly_new _ view t
  | act i e =>
      obtain ⟨x, y, hx, hy, hseats⟩ := act_eq_some h
      have hmem : x ∈ d.seats := List.mem_of_getElem? hx
      have horderly := hd.orderly x hmem
      have hturns := Seat.step?_turns (hd.kept x hmem) hy
      refine ⟨hkept, fun z hz => ?_, hturns.dated horderly hd.dated, fun k hk => ?_,
        fun t ht => ?_⟩
      · rw [hseats] at hz
        rcases List.mem_or_eq_of_mem_set hz with hz | rfl
        · exact (hd.orderly z hz).mono hturns.releaseCount_le
        · exact hturns.orderly horderly
      · rw [hseats]
        refine exists_owner hx ((hturns.held horderly hd.dated hk).imp_right fun hk' => ?_)
        exact ⟨hd.caches k hk'.1, hk'.2⟩
      · rw [hseats]
        refine exists_owner hx ((hturns.snapshots ht).imp_right fun ht' => ?_)
        exact ⟨hd.snapshots t ht'.1, ht'.2⟩

/-- At every moment of every row of events each cache that is held has the view and the time of
some cycle that is prepared and not cleaned, and each snapshot has the time of such a cycle. Once
all cycles that were prepared are cleaned, nothing is held. -/
theorem nothing_held_without_owner {r : Repository} {dumps : DumpDirectory}
    (h : (start r dumps).steps? es = some d) :
    (∀ k ∈ d.workspace.caches.held, ∃ x ∈ d.seats, x.cycle.state ≠ .created ∧
      x.cycle.state ≠ .cleaned ∧ x.cycle.view.name = k.group.view ∧ x.cycle.time = k.group.time) ∧
    (∀ t ∈ d.workspace.liveData.snapshots, ∃ x ∈ d.seats, x.cycle.state ≠ .created ∧
      x.cycle.state ≠ .cleaned ∧ x.cycle.time = t) ∧
    ((∀ x ∈ d.seats, x.cycle.state = .created ∨ x.cycle.state = .cleaned) →
      d.workspace.caches.count = 0 ∧ d.workspace.liveData.snapshots.size = 0) := by
  have hd : d.Accounted := steps?_induction h (fun _ _ _ hd he => hd.step he)
    (accounted_start r dumps)
  have hout : (∀ x ∈ d.seats, x.cycle.state = .created ∨ x.cycle.state = .cleaned) →
      ∀ x ∈ d.seats, ¬x.InWork := by
    intro hall x hx hwork
    exact (hall x hx).elim hwork.1 hwork.2
  refine ⟨fun k hk => ?_, fun t ht => ?_, fun hall => ⟨?_, ?_⟩⟩
  · obtain ⟨x, hx, hwork, howns⟩ := hd.caches k hk
    exact ⟨x, hx, hwork.1, hwork.2, howns.1.symm, howns.2.symm⟩
  · obtain ⟨x, hx, hwork, htime⟩ := hd.snapshots t ht
    exact ⟨x, hx, hwork.1, hwork.2, htime⟩
  · rw [CacheSource.count, List.length_eq_zero_iff, List.eq_nil_iff_forall_not_mem]
    intro k hk
    obtain ⟨x, hx, hwork, -⟩ := hd.caches k hk
    exact hout hall x hx hwork
  · rw [← ExtTreeMap.eq_empty_iff_size_eq_zero, ExtTreeMap.eq_empty_iff_forall_not_mem]
    intro t ht
    obtain ⟨x, hx, hwork, -⟩ := hd.snapshots t ht
    exact hout hall x hx hwork

namespace Sample

def closing (i : Nat) : List DeskEvent :=
  [.act i .submit, .act i (.run "Market" .finish), .act i (.conclude .finished), .act i .release]

end Sample
open Desk.Sample

/-- Of two cycles of one time the second takes the snapshot along when it is released, and leaves
the cache of the first; when that is released too, nothing is held. -/
theorem last_release_frees : ∃ d₁ d,
    (start .empty .missing).steps? (opening ++ .act 0 .prepare :: (working ++ [.act 1 .release])) =
      some d₁ ∧
    d₁.workspace.caches.held = [⟨⟨"View", ⟨1⟩, 0⟩, "Market"⟩] ∧
    d₁.workspace.liveData.snapshots.size = 0 ∧
    d₁.steps? (closing 0) = some d ∧ stand? d 0 = some (.cleaned, ⟨1⟩) ∧
    d.workspace.caches.count = 0 ∧ d.workspace.liveData.snapshots.size = 0 := by
  have h : ((start .empty .missing).steps?
      (opening ++ .act 0 .prepare :: (working ++ [.act 1 .release]))).bind (fun d₁ =>
        (d₁.steps? (closing 0)).map fun d => (d₁.workspace.caches.held,
          d₁.workspace.liveData.snapshots.size, stand? d 0, d.seats.map (·.cycle.state))) =
      some ([⟨⟨"View", ⟨1⟩, 0⟩, "Market"⟩], 0, some (.cleaned, ⟨1⟩), [.cleaned, .cleaned]) := by rfl
  obtain ⟨d₁, h₁, h⟩ := Option.bind_eq_some_iff.mp h
  obtain ⟨d, hd, h⟩ := Option.map_eq_some_iff.mp h
  simp only [Prod.mk.injEq] at h
  obtain ⟨hheld, hsize, hstand, hstates⟩ := h
  have hrow : (start .empty .missing).steps?
      (opening ++ .act 0 .prepare :: (working ++ [.act 1 .release]) ++ closing 0) = some d := by
    rw [steps?_append, h₁, Option.bind_some, hd]
  obtain ⟨-, -, hnone⟩ := nothing_held_without_owner hrow
  refine ⟨d₁, d, h₁, hheld, hsize, hd, hstand, hnone fun x hx => .inr ?_⟩
  have hmem : x.cycle.state ∈ d.seats.map (·.cycle.state) := List.mem_map_of_mem hx
  simpa [hstates] using hmem

end Desk
end ValuationCycle
