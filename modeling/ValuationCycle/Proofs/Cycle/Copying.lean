import ValuationCycle.Proofs.Cycle.Querying

/-!
# What taking over changes

Configuration after configuration, a cycle takes over nodes from a previous one and copies their
outputs. Copies that go to the shared partition are read in all configurations, and the caches that
are copied from may be the very caches that are copied to. Still no copy disturbs the comparison of
a later configuration, or hides another value: what is there already is only ever replaced by what
stands for the same.
-/
namespace ValuationCycle
open Json Std

/-- Two caches hold the same privately, and what they share stands for the same. -/
def Cache.Alike (before after : Cache) : Prop :=
  after.privatePart = before.privatePart ∧
    ∀ s : Specification, sameValue (before.sharedPart[s]?) (after.sharedPart[s]?) = true

theorem Cache.Alike.get? {before after : Cache} (h : before.Alike after) (s : Specification) :
    sameValue (before.get? s) (after.get? s) = true := by
  rw [Cache.get?, Cache.get?, h.1]
  exact sameValue_or (sameValue_refl _) (h.2 s)

theorem Delta.unchangedNodes_congr {g : Graph} {current current' previous previous' : Cache}
    (hcurrent : current.Alike current') (hprevious : previous.Alike previous') :
    unchangedNodes g current previous = unchangedNodes g current' previous' := by
  rw [unchangedNodes, unchangedNodes, compute_congr hcurrent.get? hprevious.get?]

namespace Cycle
variable {c previous : Cycle} {w w' : Workspace} {group : CacheGroup} {name : String} {g : Graph}
  {graphs : List (String × Graph)} {s : Specification}

def read? (c : Cycle) (w : Workspace) (name : String) (s : Specification) : Option Value :=
  (c.cache? w name).bind fun cache => cache.get? s

theorem read?_of_handle {h : CacheHandle} (hh : c.handles[name]? = some h) (w : Workspace)
    (s : Specification) : c.read? w name s = (w.cache h).get? s := by
  rw [read?, cache?, hh]
  rfl

def Takes (c previous : Cycle) (w : Workspace) (e : String × Graph) (s : Specification) : Prop :=
  ∃ n, c.Carries previous w e.1 e.2 n ∧ s ∈ n.outputs

theorem carryAll_cons_eq (previous : Cycle) {h : CacheHandle} {m : NodeMarks}
    (hh : c.handles[name]? = some h) (hm : c.marks[name]? = some m) (w : Workspace) (g : Graph)
    (rest : List (String × Graph)) :
    let first := carryAll previous c w [(name, g)]
    (carryAll previous c w ((name, g) :: rest)).cycle =
        (carryAll previous first.cycle first.workspace rest).cycle ∧
      (carryAll previous c w ((name, g) :: rest)).workspace =
        (carryAll previous first.cycle first.workspace rest).workspace := by
  obtain ⟨c₁, w₁, note, -, -, -, hcons⟩ := carryAll_cons previous hh hm w g
  simp only [hcons]
  exact ⟨rfl, rfl⟩

/-- Other configurations are not disturbed. -/
theorem carryAll_alike (previous : Cycle) (hnames : (graphs.map Prod.fst).Nodup)
    (hhandles : ∀ e ∈ graphs, c.handles[e.1]? = some ⟨group, e.1⟩) (hu : Unhidden group graphs w)
    {k : CacheHandle} (hk : k.configuration ∉ graphs.map Prod.fst) :
    (w.cache k).Alike ((carryAll previous c w graphs).workspace.cache k) := by
  have hshares : ∀ s, Shares s group graphs w (carryAll previous c w graphs).workspace := fun s =>
    carryAll_shares hnames hhandles fun e he => hu e he s
  by_cases hg : k.group = group
  · refine ⟨ExtTreeMap.ext_getElem? fun s => (hshares s).private_eq k fun e he hc => ?_,
      fun s => (hshares s).same k hg⟩
    exact absurd (List.mem_map.mpr ⟨e, he, congrArg CacheHandle.configuration hc.symm⟩) hk
  · rw [(carryAll_aside hhandles).cache_eq k hg]
    exact ⟨rfl, fun s => sameValue_refl _⟩

theorem Unhidden.of_alike (hu : Unhidden group graphs w)
    (h : ∀ e ∈ graphs, (w.cache ⟨group, e.1⟩).Alike (w'.cache ⟨group, e.1⟩)) :
    Unhidden group graphs w' := by
  intro e he s hs
  rw [(h e he).1]
  exact hu e he s hs

/-- In one configuration, private and shared values are replaced by what the previous cycle has. -/
theorem carryOne_parts (previous : Cycle) (w : Workspace) (g : Graph) {m : NodeMarks}
    (hh : c.handles[name]? = some ⟨group, name⟩) (hm : c.marks[name]? = some m)
    (s : Specification) :
    let after := (carryAll previous c w [(name, g)]).workspace.cache ⟨group, name⟩
    ((CacheHint.ofGraph g).isPrivate s = true ∧ c.Takes previous w (name, g) s →
      after.privatePart[s]? =
        (previous.read? w name s).or (w.cache ⟨group, name⟩).privatePart[s]?) ∧
    (¬((CacheHint.ofGraph g).isPrivate s = true ∧ c.Takes previous w (name, g) s) →
      after.privatePart[s]? = (w.cache ⟨group, name⟩).privatePart[s]?) ∧
    ((CacheHint.ofGraph g).isPrivate s = false ∧ c.Takes previous w (name, g) s →
      after.sharedPart[s]? =
        (previous.read? w name s).or (w.cache ⟨group, name⟩).sharedPart[s]?) := by
  cases hp : previous.handles[name]? with
  | none =>
      have hnone : ¬c.Takes previous w (name, g) s := by
        rintro ⟨n, ⟨current, old, -, hold, -⟩, -⟩
        exact absurd (hold.symm.trans hp) (by simp)
      have hsame : (carryAll previous c w [(name, g)]).workspace = w := by
        rw [carryAll, hh, hm, hp]
        rfl
      rw [hsame]
      exact ⟨fun h => absurd h.2 hnone, fun _ => rfl, fun h => absurd h.2 hnone⟩
  | some old =>
      obtain ⟨note, hcarry⟩ := carryConfiguration_eq w g ⟨group, name⟩ old m
      set ns := Delta.unchangedNodes g (w.cache ⟨group, name⟩) (w.cache old) with hns
      have hworkspace : (carryAll previous c w [(name, g)]).workspace =
          w.copyAll old ⟨group, name⟩ (.ofGraph g) ns := by
        rw [carryAll, hh, hm, hp]
        simp only [hcarry]
        rfl
      have htakes : c.Takes previous w (name, g) s ↔ ∃ n ∈ ns, s ∈ n.outputs := by
        simp [Takes, Carries, hh, hp, hns]
      obtain ⟨hprivate, hshared⟩ := w.copyAll_parts old ⟨group, name⟩ (.ofGraph g) ns
      rw [hworkspace, htakes, read?_of_handle hp]
      exact ⟨(hprivate s).1, (hprivate s).2, (hshared s).1⟩

/-- What is taken over in a configuration depends on its own caches only, and on no more of them
than what their values stand for. -/
theorem carries_congr {c' : Cycle} (hhandles : c'.handles = c.handles)
    (hcurrent : ∀ h, c.handles[name]? = some h → (w.cache h).Alike (w'.cache h))
    (hprevious : ∀ h, previous.handles[name]? = some h → (w.cache h).Alike (w'.cache h))
    (n : Node) :
    c'.Carries previous w' name g n ↔ c.Carries previous w name g n := by
  unfold Carries
  rw [hhandles]
  refine exists_congr fun current => exists_congr fun old => and_congr_right fun h =>
    and_congr_right fun hold => ?_
  rw [Delta.unchangedNodes_congr (hcurrent current h) (hprevious old hold)]

theorem sameValue_read? (h : ∀ h, c.handles[name]? = some h → (w.cache h).Alike (w'.cache h))
    (s : Specification) : sameValue (c.read? w name s) (c.read? w' name s) = true := by
  unfold read? cache?
  cases hh : c.handles[name]? with
  | none => rfl
  | some k => exact (h k hh).get? s

def Named (c : Cycle) : Prop :=
  ∀ (name : String) (h : CacheHandle), c.handles[name]? = some h → h.configuration = name

theorem Housed.named (h : c.Housed group) : c.Named := by
  intro name k hk
  rw [h name, Option.ite_none_right_eq_some] at hk
  exact (Option.some.inj hk.2) ▸ rfl

/-- No failed mark is set or lost, and none at all is in a configuration of which the previous
cycle has no cache. -/
theorem failed_carryAll (previous c : Cycle) (w : Workspace) (graphs : List (String × Graph))
    (name : String) :
    let after := (carryAll previous c w graphs).cycle.marks[name]?
    after.map NodeMarks.failed = c.marks[name]?.map NodeMarks.failed ∧
      (previous.handles[name]? = none → after = c.marks[name]?) := by
  induction graphs generalizing c w with
  | nil => exact ⟨rfl, fun _ => rfl⟩
  | cons e rest ih =>
      obtain ⟨other, g⟩ := e
      unfold carryAll
      split
      · next current m hcurrent hm =>
          split
          · exact ih c w
          · next old hold =>
              obtain ⟨note, hcarry⟩ := carryConfiguration_eq w g current old m
              simp only [hcarry]
              obtain ⟨hfailed, hnone⟩ := ih (c.setMarks other _) _
              refine ⟨hfailed.trans ?_, fun h => (hnone h).trans ?_⟩
              · rw [setMarks, ExtTreeMap.getElem?_insert]
                split
                · next ho =>
                    obtain rfl := LawfulEqOrd.eq_of_compare ho
                    rw [hm, Option.map_some, Option.map_some, NodeMarks.failed_foldl]
                · rfl
              · rw [setMarks, ExtTreeMap.getElem?_insert, if_neg]
                intro ho
                obtain rfl := LawfulEqOrd.eq_of_compare ho
                exact absurd (hold.symm.trans h) (by simp)
      · exact ⟨rfl, fun _ => rfl⟩

/-- What taking over from a previous cycle changes, and what it leaves as it is. -/
structure Copies (group : CacheGroup) (previous c : Cycle) (w : Workspace) (c' : Cycle)
    (w' : Workspace) : Prop where
  cycle_eq : c' = { c with marks := c'.marks }
  aside : Workspace.Aside group w w'
  liveData_eq : w'.liveData = w.liveData
  /-- Marked executed are the nodes that count as unchanged before anything is copied. -/
  executed : ∀ e ∈ c.view.model.graphs.toList, ∀ n,
    n ∈ c'.executed e.1 ↔ n ∈ c.executed e.1 ∨ c.Carries previous w e.1 e.2 n
  executable : ∀ e ∈ c.view.model.graphs.toList, ∃ c'' rest,
    c'.executableGraph e.2 = .ok (c'', rest) ∧ ∀ n, n ∈ rest.nodes ↔ n ∈ e.2.nodes ∧
      n.isLive = false ∧ n ∉ c.executed e.1 ∧ ¬c.Carries previous w e.1 e.2 n
  failed : ∀ name : String,
    c'.marks[name]?.map NodeMarks.failed = c.marks[name]?.map NodeMarks.failed
  /-- What the previous cycle has under outputs that are taken over is found both ways. -/
  found : ∀ e ∈ c.view.model.graphs.toList, ∀ s v, c.Takes previous w e s →
    previous.read? w e.1 s = some v → ∃ v', v.same v' = true ∧
      c'.read? w' e.1 s = some v' ∧ (w'.cache ⟨group, e.1⟩).getHinted? (.ofGraph e.2) s = some v'
  /-- Under all other specifications the same is read as before. -/
  kept : ∀ e ∈ c.view.model.graphs.toList, ∀ s,
    (c.Takes previous w e s → previous.read? w e.1 s = none) →
      (w'.cache ⟨group, e.1⟩).privatePart[s]? = (w.cache ⟨group, e.1⟩).privatePart[s]? ∧
      sameValue (c.read? w e.1 s) (c'.read? w' e.1 s) = true
  shared : ∀ k : CacheHandle, k.group = group → ∀ s : Specification,
    sameValue ((w.cache k).sharedPart[s]?) ((w'.cache k).sharedPart[s]?) = true
  untouched : ∀ e ∈ c.view.model.graphs.toList, previous.handles[e.1]? = none →
    c'.marks[e.1]? = c.marks[e.1]? ∧ (w.cache ⟨group, e.1⟩).Alike (w'.cache ⟨group, e.1⟩)
  /-- The same is read from the previous cycle, even if its caches are those of the cycle. -/
  previous_same : ∀ name s, sameValue (previous.read? w name s) (previous.read? w' name s) = true

theorem exists_of_sameValue {u : Value} {v : Option Value} (h : sameValue (some u) v = true) :
    ∃ v', v = some v' ∧ u.same v' = true := by
  cases v with
  | none => simp [sameValue] at h
  | some v' => exact ⟨v', rfl, h⟩

/-- A node that is taken over, of which an output is shared, is live; so the values that the two
cycles have under it stand for the same. -/
theorem Carries.sameValue {n : Node} (h : c.Carries previous w name g n) (hs : s ∈ n.outputs)
    (hshared : (CacheHint.ofGraph g).isPrivate s = false) :
    sameValue (c.read? w name s) (previous.read? w name s) = true := by
  obtain ⟨current, old, hcurrent, hold, hn⟩ := h
  obtain ⟨i, hi, hin⟩ := List.mem_filterMap.mp hn
  have hlive : n.isLive = true := by
    rw [← Bool.not_eq_false]
    intro hl
    have hp := CacheHint.isPrivate_ofGraph.mpr ⟨n, List.mem_of_getElem? hin, hl, hs⟩
    exact absurd (hp.symm.trans hshared) (by decide)
  rw [read?_of_handle hcurrent, read?_of_handle hold]
  exact Delta.sameValue_of_unchanged hi hin hlive hs

section
variable {before after : List (String × Graph)}

/-- When a configuration has its turn, its caches show what they showed at first. -/
theorem turn_alike (previous : Cycle) (hnames : (graphs.map Prod.fst).Nodup)
    (hhandles : ∀ e ∈ graphs, c.handles[e.1]? = some ⟨group, e.1⟩) (hu : Unhidden group graphs w)
    (hsplit : graphs = before ++ (name, g) :: after) {k : CacheHandle}
    (hk : k.configuration = name) :
    (w.cache k).Alike ((carryAll previous c w before).workspace.cache k) := by
  subst hsplit
  rw [List.map_append, List.nodup_append] at hnames
  refine carryAll_alike previous hnames.1 (fun e he => hhandles e (List.mem_append_left _ he))
    (fun e he => hu e (List.mem_append_left _ he)) fun hn => ?_
  exact hnames.2.2 _ hn name (List.mem_cons_self ..) hk

theorem carries_turn (hnames : (graphs.map Prod.fst).Nodup)
    (hhandles : ∀ e ∈ graphs, c.handles[e.1]? = some ⟨group, e.1⟩) (hu : Unhidden group graphs w)
    (hprevious : previous.Named) (hsplit : graphs = before ++ (name, g) :: after) (n : Node) :
    c.Carries previous (carryAll previous c w before).workspace name g n ↔
      c.Carries previous w name g n := by
  have hturn : ∀ k : CacheHandle, k.configuration = name → (w.cache k).Alike
      ((carryAll previous c w before).workspace.cache k) := fun k hk =>
    turn_alike previous hnames hhandles hu hsplit hk
  refine carries_congr rfl (fun h hh => hturn h ?_) (fun h hh => hturn h (hprevious _ _ hh)) n
  rw [hhandles (name, g) (hsplit ▸ List.mem_append_right _ (List.mem_cons_self ..))] at hh
  exact Option.some.inj hh ▸ rfl

theorem carryAll_append_eq (previous : Cycle)
    (hhandles : ∀ e ∈ before, ∃ h, c.handles[e.1]? = some h)
    (hmarks : ∀ e ∈ before, ∃ m, c.marks[e.1]? = some m) (w : Workspace)
    (after : List (String × Graph)) :
    let first := carryAll previous c w before
    (carryAll previous c w (before ++ after)).workspace =
      (carryAll previous first.cycle first.workspace after).workspace := by
  induction before generalizing c w with
  | nil => rfl
  | cons e rest ih =>
      obtain ⟨name, g⟩ := e
      simp only [List.mem_cons, forall_eq_or_imp] at hhandles hmarks
      obtain ⟨⟨h, hh⟩, hhandles⟩ := hhandles
      obtain ⟨⟨m, hm⟩, hmarks⟩ := hmarks
      have hremarks := remarks_carryAll previous [(name, g)] c w
      obtain ⟨hcycle, hworkspace⟩ := carryAll_cons_eq previous hh hm w g rest
      dsimp only
      rw [List.cons_append, (carryAll_cons_eq previous hh hm w g (rest ++ after)).2, hcycle,
        hworkspace]
      refine ih (fun e he => ?_) (fun e he => ?_) _
      · rw [hremarks.cycle_eq]
        exact hhandles e he
      · obtain ⟨m, hm⟩ := hmarks e he
        exact hremarks.marks e.1 m hm

theorem later_alike (previous : Cycle) (hnames : (graphs.map Prod.fst).Nodup)
    (hhandles : ∀ e ∈ graphs, c.handles[e.1]? = some ⟨group, e.1⟩)
    (hmarks : ∀ e ∈ graphs, ∃ m, c.marks[e.1]? = some m) (hu : Unhidden group graphs w)
    (hsplit : graphs = before ++ after) {k : CacheHandle}
    (hk : k.configuration ∉ after.map Prod.fst) :
    ((carryAll previous c w before).workspace.cache k).Alike
      ((carryAll previous c w graphs).workspace.cache k) := by
  subst hsplit
  rw [List.map_append, List.nodup_append] at hnames
  have hleft : ∀ e ∈ before, e ∈ before ++ after := fun e he => List.mem_append_left _ he
  have hright : ∀ e ∈ after, e ∈ before ++ after := fun e he => List.mem_append_right _ he
  rw [carryAll_append_eq previous (fun e he => ⟨_, hhandles e (hleft e he)⟩)
    fun e he => hmarks e (hleft e he)]
  have hunhidden : Unhidden group after (carryAll previous c w before).workspace := by
    refine Unhidden.of_alike (fun e he => hu e (hright e he)) fun e he => ?_
    exact carryAll_alike previous hnames.1 (fun e he => hhandles e (hleft e he))
      (fun e he => hu e (hleft e he)) fun hn =>
        hnames.2.2 _ hn _ (List.mem_map_of_mem he) rfl
  refine carryAll_alike previous hnames.2.1 (fun e he => ?_) hunhidden hk
  rw [(remarks_carryAll previous before c w).cycle_eq]
  exact hhandles e (hright e he)

end

/-- In every configuration private values are replaced by what the previous cycle had before, or
what stands for the same. -/
theorem carryAll_private (hnames : (graphs.map Prod.fst).Nodup)
    (hhandles : ∀ e ∈ graphs, c.handles[e.1]? = some ⟨group, e.1⟩)
    (hmarks : ∀ e ∈ graphs, ∃ m, c.marks[e.1]? = some m) (hu : Unhidden group graphs w)
    (hprevious : previous.Named) {e : String × Graph} (he : e ∈ graphs) (s : Specification) :
    let after := ((carryAll previous c w graphs).workspace.cache ⟨group, e.1⟩).privatePart[s]?
    ((CacheHint.ofGraph e.2).isPrivate s = true ∧ c.Takes previous w e s →
      ∃ v, sameValue (previous.read? w e.1 s) v = true ∧
        after = v.or (w.cache ⟨group, e.1⟩).privatePart[s]?) ∧
    (¬((CacheHint.ofGraph e.2).isPrivate s = true ∧ c.Takes previous w e s) →
      after = (w.cache ⟨group, e.1⟩).privatePart[s]?) := by
  obtain ⟨name, g⟩ := e
  obtain ⟨before, after, hsplit⟩ := List.append_of_mem he
  have hupto : graphs = (before ++ [(name, g)]) ++ after := hsplit.trans (by simp)
  have hbefore : ∀ e ∈ before, e ∈ graphs := fun e he => hsplit ▸ List.mem_append_left _ he
  have hturn := fun k hk => turn_alike previous hnames hhandles hu hsplit (k := k) hk
  have hremarks := remarks_carryAll previous before c w
  have htakes : (carryAll previous c w before).cycle.Takes previous
      (carryAll previous c w before).workspace (name, g) s ↔ c.Takes previous w (name, g) s := by
    refine exists_congr fun n => and_congr_left fun _ => ?_
    rw [← carries_turn hnames hhandles hu hprevious hsplit n, Carries, Carries,
      hremarks.cycle_eq]
  have hlater := later_alike previous hnames hhandles hmarks hu hupto (k := ⟨group, name⟩)
    fun hn => by
      rw [hupto, List.map_append, List.nodup_append] at hnames
      exact hnames.2.2 name (by simp) name hn rfl
  obtain ⟨m, hm⟩ := hmarks _ he
  obtain ⟨m', hm'⟩ := hremarks.marks name m hm
  have hhandle : (carryAll previous c w before).cycle.handles[name]? = some ⟨group, name⟩ := by
    rw [hremarks.cycle_eq]
    exact hhandles _ he
  have hone := carryOne_parts previous (carryAll previous c w before).workspace g hhandle hm' s
  rw [← carryAll_append_eq previous (fun e he => ⟨_, hhandles e (hbefore e he)⟩)
    (fun e he => hmarks e (hbefore e he)) w, htakes, (hturn ⟨group, name⟩ rfl).1] at hone
  rw [hlater.1]
  refine ⟨fun h => ⟨_, ?_, hone.1 h⟩, hone.2.1⟩
  exact sameValue_read? (fun h hh => hturn h (hprevious _ _ hh)) s

structure Overlays (group : CacheGroup) (previous c : Cycle) (w w' : Workspace) : Prop where
  taken : ∀ e ∈ c.view.model.graphs.toList, ∀ s,
    (CacheHint.ofGraph e.2).isPrivate s = true ∧ c.Takes previous w e s →
      ∃ v, sameValue (previous.read? w e.1 s) v = true ∧
        (w'.cache ⟨group, e.1⟩).privatePart[s]? = v.or (w.cache ⟨group, e.1⟩).privatePart[s]?
  other : ∀ e ∈ c.view.model.graphs.toList, ∀ s,
    ¬((CacheHint.ofGraph e.2).isPrivate s = true ∧ c.Takes previous w e s) →
      (w'.cache ⟨group, e.1⟩).privatePart[s]? = (w.cache ⟨group, e.1⟩).privatePart[s]?
  alike : ∀ k : CacheHandle, k.configuration ∉ c.view.model.graphs.toList.map Prod.fst →
    (w.cache k).Alike (w'.cache k)
  aside : Workspace.Aside group w w'
  shared : ∀ k : CacheHandle, k.group = group → ∀ s : Specification,
    sameValue ((w.cache k).sharedPart[s]?) ((w'.cache k).sharedPart[s]?) = true

theorem Ready.overlays (h : c.Ready group) (hu : Unhidden group c.view.model.graphs.toList w)
    (hprevious : previous.Named) :
    Overlays group previous c w (carryAll previous c w c.view.model.graphs.toList).workspace := by
  have hnames := c.view.model.nodup_map_fst
  have hprivate := fun (e : String × Graph) (he : e ∈ c.view.model.graphs.toList) =>
    carryAll_private hnames h.handle (fun e he => h.marked e.1 (EvaluationModel.name_mem he)) hu
      hprevious he
  exact ⟨fun e he s => (hprivate e he s).1, fun e he s => (hprivate e he s).2,
    fun k hk => carryAll_alike previous hnames h.handle hu hk, carryAll_aside h.handle,
    fun k hk s => (carryAll_shares hnames h.handle fun e he => hu e he s).same k hk⟩

section
variable {e : String × Graph}

/-- What is taken over is found in both ways of reading. -/
theorem Overlays.found (h : Overlays group previous c w w')
    (hu : Unhidden group c.view.model.graphs.toList w) (hc : c.Housed group)
    (he : e ∈ c.view.model.graphs.toList) (htakes : c.Takes previous w e s) {v : Value}
    (hread : previous.read? w e.1 s = some v) : ∃ v', v.same v' = true ∧
      (w'.cache ⟨group, e.1⟩).get? s = some v' ∧
      (w'.cache ⟨group, e.1⟩).getHinted? (.ofGraph e.2) s = some v' := by
  rw [Cache.getHinted?, Cache.get?]
  cases hp : (CacheHint.ofGraph e.2).isPrivate s with
  | true =>
      obtain ⟨v', hv', hafter⟩ := h.taken e he s ⟨hp, htakes⟩
      rw [hread] at hv'
      obtain ⟨u, rfl, hsame⟩ := exists_of_sameValue hv'
      rw [Option.some_or] at hafter
      exact ⟨u, hsame, by rw [hafter, Option.some_or], by rw [if_pos rfl, hafter]⟩
  | false =>
      obtain ⟨n, hcarries, hn⟩ := htakes
      have hnone := h.other e he s fun h => by simp [hp] at h
      have hsame := hcarries.sameValue hn hp
      have hhandle := (hc e.1).trans (if_pos (EvaluationModel.name_mem he))
      rw [hu e he s hp] at hnone
      rw [read?_of_handle hhandle, Cache.get?, hu e he s hp, Option.none_or, hread] at hsame
      obtain ⟨u, hafter, hsame⟩ := exists_of_sameValue
        (sameValue_trans (sameValue_symm hsame) (h.shared ⟨group, e.1⟩ rfl s))
      exact ⟨u, hsame, by rw [hnone, Option.none_or, hafter], by rw [if_neg (by decide), hafter]⟩

/-- Where nothing is taken over, or nothing is there to be copied, the same is read. -/
theorem Overlays.kept (h : Overlays group previous c w w') (he : e ∈ c.view.model.graphs.toList)
    (hnone : c.Takes previous w e s → previous.read? w e.1 s = none) :
    (w'.cache ⟨group, e.1⟩).privatePart[s]? = (w.cache ⟨group, e.1⟩).privatePart[s]? ∧
      sameValue ((w.cache ⟨group, e.1⟩).get? s) ((w'.cache ⟨group, e.1⟩).get? s) = true := by
  have hsame : (w'.cache ⟨group, e.1⟩).privatePart[s]? =
      (w.cache ⟨group, e.1⟩).privatePart[s]? := by
    by_cases ht : (CacheHint.ofGraph e.2).isPrivate s = true ∧ c.Takes previous w e s
    · obtain ⟨v, hv, hafter⟩ := h.taken e he s ht
      rw [hnone ht.2] at hv
      cases v with
      | none => exact hafter
      | some v => simp [sameValue] at hv
    · exact h.other e he s ht
  refine ⟨hsame, ?_⟩
  rw [Cache.get?, Cache.get?, hsame]
  exact sameValue_or (sameValue_refl _) (h.shared _ rfl s)

/-- A cache that is copied into itself shows what it showed. -/
theorem Overlays.self (h : Overlays group previous c w w') (he : e ∈ c.view.model.graphs.toList)
    (hold : previous.handles[e.1]? = some ⟨group, e.1⟩) (s : Specification) :
    sameValue ((w.cache ⟨group, e.1⟩).get? s) ((w'.cache ⟨group, e.1⟩).get? s) = true := by
  by_cases ht : (CacheHint.ofGraph e.2).isPrivate s = true ∧ c.Takes previous w e s
  · obtain ⟨v, hv, hafter⟩ := h.taken e he s ht
    rw [read?_of_handle hold] at hv
    have hself : (w.cache ⟨group, e.1⟩).get? s =
        (((w.cache ⟨group, e.1⟩).get? s).or (w.cache ⟨group, e.1⟩).privatePart[s]?).or
          (w.cache ⟨group, e.1⟩).sharedPart[s]? := by
      rw [Option.or_assoc, ← Cache.get?, Option.or_self]
    have hcopied : (w'.cache ⟨group, e.1⟩).get? s =
        (v.or (w.cache ⟨group, e.1⟩).privatePart[s]?).or
          (w'.cache ⟨group, e.1⟩).sharedPart[s]? := by
      rw [Cache.get?, hafter]
    rw [hself, hcopied]
    exact sameValue_or (sameValue_or hv (sameValue_refl _)) (h.shared _ rfl s)
  · rw [Cache.get?, Cache.get?, h.other e he s ht]
    exact sameValue_or (sameValue_refl _) (h.shared _ rfl s)

theorem Overlays.previous_same (h : Overlays group previous c w w') (hprevious : previous.Named)
    (name : String) (s : Specification) :
    sameValue (previous.read? w name s) (previous.read? w' name s) = true := by
  cases hold : previous.handles[name]? with
  | none =>
      rw [read?, read?, cache?, cache?, hold]
      rfl
  | some old =>
      rw [read?_of_handle hold, read?_of_handle hold]
      by_cases hg : old.group = group
      · obtain rfl : old = ⟨group, name⟩ := by rw [← hg, ← hprevious name old hold]
        by_cases hn : name ∈ c.view.model.graphs.toList.map Prod.fst
        · obtain ⟨e, he, rfl⟩ := List.mem_map.mp hn
          exact h.self he hold s
        · exact (h.alike ⟨group, name⟩ hn).get? s
      · rw [h.aside.cache_eq old hg]
        exact sameValue_refl _

end

theorem Ready.copies (h : c.Ready group) (hu : Unhidden group c.view.model.graphs.toList w)
    (hp : previous.Kept) (hf : previous.state = .finished) :
    ∃ c' w' notes, c.computeDelta w previous = ⟨c', w', .ok notes⟩ ∧
      Copies group previous c w c' w' := by
  obtain ⟨earlier, hearlier⟩ := hp.housed (by simp [hf]) (by simp [hf])
  obtain ⟨c', w', notes, hdelta, hremarks, hturn⟩ := h.computeDelta w hf
  have hcarry := (h.computeDelta_eq w hf).symm.trans hdelta
  have hoverlays := h.overlays hu hearlier.named
  have hfailed := failed_carryAll previous c w c.view.model.graphs.toList
  have hlive := carryAll_liveData previous c w c.view.model.graphs.toList
  rw [hcarry] at hoverlays hfailed hlive
  have hhandles : ∀ e ∈ c.view.model.graphs.toList, c'.handles[e.1]? = some ⟨group, e.1⟩ :=
    fun e he => by
      rw [hremarks.cycle_eq]
      exact h.handle e he
  have hexecuted : ∀ e ∈ c.view.model.graphs.toList, ∀ n,
      n ∈ c'.executed e.1 ↔ n ∈ c.executed e.1 ∨ c.Carries previous w e.1 e.2 n := by
    intro e he n
    obtain ⟨before, after, hsplit⟩ := List.append_of_mem he
    rw [← isExecuted_iff, ← isExecuted_iff, hturn before e.1 e.2 after hsplit n,
      carries_turn c.view.model.nodup_map_fst h.handle hu hearlier.named hsplit]
  refine ⟨c', w', notes, hdelta, hremarks.cycle_eq, hoverlays.aside, hlive, hexecuted,
    fun e he => ?_, fun name => (hfailed name).1, fun e he s v htakes hread => ?_,
    fun e he s hnone => ?_, hoverlays.shared, fun e he hnone => ⟨(hfailed e.1).2 hnone, ?_⟩,
    hoverlays.previous_same hearlier.named⟩
  · obtain ⟨m, hm⟩ := h.marked e.1 (EvaluationModel.name_mem he)
    obtain ⟨m', hm'⟩ := hremarks.marks e.1 m hm
    refine ⟨_, _, executableGraph_eq (EvaluationModel.configuration_of_mem he) hm' group,
      fun n => ?_⟩
    rw [mem_nodes_request, hexecuted e he, not_or]
  · rw [read?_of_handle (hhandles e he)]
    exact hoverlays.found hu h.housed he htakes hread
  · rw [read?_of_handle (h.handle e he), read?_of_handle (hhandles e he)]
    exact hoverlays.kept he hnone
  · refine ⟨ExtTreeMap.ext_getElem? fun s => hoverlays.other e he s ?_, hoverlays.shared _ rfl⟩
    rintro ⟨-, n, ⟨current, old, -, hold, -⟩, -⟩
    exact absurd (hold.symm.trans hnone) (by simp)

/-- What taking over from any finished cycle does to a cycle whose inputs were prepared in fresh
caches: see `Copies`. It goes for the cycle as its own calls have left it, and, whatever happened
in the workspace since, as long as no private value came under a specification where the
configuration reads the shared one. -/
theorem computeDelta_copies (c₀ : Cycle) (hc₀ : c₀.Lived) (hs₀ : c₀.state = .created)
    (w₀ : Workspace)
    (hfresh : ∀ k, k.group = w₀.caches.currentGroup c₀.view.name c₀.time → w₀.cache k = .empty) :
    let group := w₀.caches.currentGroup c₀.view.name c₀.time
    let graphs := c₀.view.model.graphs.toList
    ∃ c₁ w₁, c₀.prepare w₀ = ⟨c₁, w₁, .ok (c₀.missing w₀.liveData)⟩ ∧
      ∀ c w, Adjusted c₁ w₁ c w → c.view = c₀.view ∧ Unhidden group graphs w ∧
        ∀ w', Unhidden group graphs w' → ∀ previous, previous.Lived → previous.state = .finished →
          ∃ c' w'' notes, c.computeDelta w' previous = ⟨c', w'', .ok notes⟩ ∧
            Copies group previous c w' c' w'' := by
  intro group graphs
  obtain ⟨c₁, w₁, hprepare, hp⟩ := prepare_created hs₀ (hc₀.kept.fresh hs₀) w₀
  have hview : c₁.view = c₀.view := by rw [hp.cycle_eq]
  refine ⟨c₁, w₁, hprepare, fun c w hadjusted => ?_⟩
  have h := hadjusted.adjusts (hp.ready hc₀.kept hs₀) fun e _ u _ => by
    rw [hp.private_eq, hfresh _ rfl]
    rfl
  have hgraphs : c.view.model.graphs.toList = graphs := by rw [h.view_eq, hview]
  have hunhidden : Unhidden group graphs w := by
    rw [← show c₁.view.model.graphs.toList = graphs by rw [hview]]
    exact h.unhidden
  refine ⟨h.view_eq.trans hview, hunhidden, fun w' hu previous hlived hf => ?_⟩
  exact h.ready.copies (hgraphs ▸ hu) hlived.kept hf

namespace Sample
open Graph.Sample

def worth (v : Value) : Workspace :=
  { Workspace.new .empty .missing with
    liveData := (LiveData.empty.set spot10.specification.requirement v).1 }

def moved (w : Workspace) (v : Value) : Workspace :=
  { w with liveData := (w.liveData.set spot10.specification.requirement v).1 }

/-- The execution of a cycle for the price, which has nothing to run. -/
def concluding (v : Value) : Option (Reply Unit × ExecutionReport) :=
  (prepared outspoken ⟨1⟩ (worth v)).cycle.execute (prepared outspoken ⟨1⟩ (worth v)).workspace
    (.row [("Market", .finish)])

def marketAt (t : ValuationTime) : CacheHandle := ⟨⟨"View", t, 0⟩, "Market"⟩

def following (reply : Reply Unit) (v : Value) : Reply (List Requirement) :=
  prepared outspoken ⟨2⟩ (moved reply.workspace v)

def sharedAfter (reply : Reply Unit) (v : Value) (w : Workspace) : Option Value :=
  (((following reply v).cycle.computeDelta w reply.cycle).workspace.cache
    (marketAt ⟨2⟩)).sharedPart[spot10.specification]?

/-- How the first cycle ends, and what both cycles then have under the price. -/
def priceAfter (v u : Value) : Option (CycleState × Option CacheHandle × Option CacheHandle ×
    Option Value × Option Value × Option Value) :=
  (concluding v).map fun r => (r.1.cycle.state, r.1.cycle.handles["Market"]?,
    (following r.1 u).cycle.handles["Market"]?,
    ((following r.1 u).workspace.cache (marketAt ⟨1⟩)).get? spot10.specification,
    ((following r.1 u).workspace.cache (marketAt ⟨2⟩)).privatePart[spot10.specification]?,
    ((following r.1 u).workspace.cache (marketAt ⟨2⟩)).sharedPart[spot10.specification]?)

/-- A finished cycle had one value under the price, and the next one has loaded another. -/
structure PriceMoves (v u : Value) (reply : Reply Unit) : Prop where
  state_eq : reply.cycle.state = .finished
  old_handle : reply.cycle.handles["Market"]? = some (marketAt ⟨1⟩)
  new_handle : (following reply u).cycle.handles["Market"]? = some (marketAt ⟨2⟩)
  old_eq : ((following reply u).workspace.cache (marketAt ⟨1⟩)).get? spot10.specification = some v
  private_eq :
    ((following reply u).workspace.cache (marketAt ⟨2⟩)).privatePart[spot10.specification]? = none
  shared_eq :
    ((following reply u).workspace.cache (marketAt ⟨2⟩)).sharedPart[spot10.specification]? = some u

theorem exists_priceMoves {v u : Value} (h : priceAfter v u = some
      (.finished, some (marketAt ⟨1⟩), some (marketAt ⟨2⟩), some v, none, some u)) :
    ∃ reply report, concluding v = some (reply, report) ∧ PriceMoves v u reply := by
  obtain ⟨⟨reply, report⟩, hr, he⟩ := Option.map_eq_some_iff.mp h
  simp only [Prod.mk.injEq] at he
  obtain ⟨hstate, hold, hnew, hv, hnone, hu⟩ := he
  exact ⟨reply, report, hr, hstate, hold, hnew, hv, hnone, hu⟩

theorem following_spec (reply : Reply Unit) (v : Value) :
    (following reply v).cycle.view = outspoken ∧ (following reply v).cycle.Ready
      ((moved reply.workspace v).caches.currentGroup outspoken.name ⟨2⟩) :=
  have h := prepared_spec outspoken ⟨2⟩ (moved reply.workspace v)
  ⟨h.2.1, h.2.2.1⟩

theorem graphs_outspoken :
    outspoken.model.graphs.toList = [("Market", graph "Market" [loading])] := by rfl

theorem PriceMoves.carries {v u : Value} {reply : Reply Unit} (h : PriceMoves v u reply)
    {w : Workspace} (hold : (w.cache (marketAt ⟨1⟩)).get? spot10.specification = some v)
    (hsame : sameValue ((w.cache (marketAt ⟨2⟩)).get? spot10.specification) (some v) = true) :
    (following reply u).cycle.Carries reply.cycle w "Market" (graph "Market" [loading])
      loading := by
  refine ⟨_, _, h.new_handle, h.old_handle, Delta.mem_unchangedNodes_of_live (i := 0)
    (ValuationCycle.Sample.acyclic_graph _ _) rfl rfl fun s hs => ?_⟩
  obtain rfl : s = spot10.specification := mem_outputs_step.mp hs
  rw [hold]
  exact hsame

theorem PriceMoves.shared_after {v u : Value} {reply : Reply Unit} (h : PriceMoves v u reply)
    {w : Workspace} (hold : (w.cache (marketAt ⟨1⟩)).get? spot10.specification = some v)
    (hsame : sameValue ((w.cache (marketAt ⟨2⟩)).get? spot10.specification) (some v) = true) :
    sharedAfter reply u w = some v := by
  obtain ⟨hview, hready⟩ := following_spec reply u
  obtain ⟨m, hm⟩ := hready.marked "Market" (hview ▸ market_mem_names.2)
  rw [sharedAfter, hready.computeDelta_eq w h.state_eq, hview, graphs_outspoken]
  have hhandle : (following reply u).cycle.handles["Market"]? =
      some ⟨(marketAt ⟨2⟩).group, "Market"⟩ := h.new_handle
  obtain ⟨-, -, hshared⟩ := carryOne_parts reply.cycle w (graph "Market" [loading]) hhandle hm
    spot10.specification
  refine (hshared ⟨by decide +kernel, loading, h.carries hold hsame,
    mem_outputs_step.mpr rfl⟩).trans ?_
  rw [read?_of_handle h.old_handle, hold, Option.some_or]

def zero (negative : Bool) : Value := ⟨.float (.zero negative), trivial⟩

theorem zero_turns_negative : ∃ reply report, concluding (zero true) = some (reply, report) ∧
    PriceMoves (zero true) (zero false) reply ∧
    sharedAfter reply (zero false) (following reply (zero false)).workspace =
      some (zero true) := by
  obtain ⟨reply, report, hr, h⟩ := exists_priceMoves (v := zero true) (u := zero false) (by rfl)
  refine ⟨reply, report, hr, h, h.shared_after h.old_eq ?_⟩
  rw [Cache.get?, h.private_eq, h.shared_eq]
  rfl

/-- What the next cycle has if the old price is put aside. -/
def puttingAside (reply : Reply Unit) : Workspace :=
  (following reply (.string "10")).workspace.updateCache (marketAt ⟨2⟩) fun cache =>
    cache.putPrivate ⟨spot10.specification, .string "99"⟩

theorem old_price_comes_back : ∃ reply report, concluding (.string "99") = some (reply, report) ∧
    PriceMoves (.string "99") (.string "10") reply ∧
    ((puttingAside reply).cache (marketAt ⟨2⟩)).sharedPart[spot10.specification]? =
      some (.string "10") ∧
    sharedAfter reply (.string "10") (puttingAside reply) = some (.string "99") := by
  obtain ⟨reply, report, hr, h⟩ :=
    exists_priceMoves (v := .string "99") (u := .string "10") (by rfl)
  have hcache : (puttingAside reply).cache (marketAt ⟨2⟩) =
      ((following reply (.string "10")).workspace.cache (marketAt ⟨2⟩)).putPrivate
        ⟨spot10.specification, .string "99"⟩ := Workspace.cache_updateCache _ _
  refine ⟨reply, report, hr, h, hcache ▸ h.shared_eq, h.shared_after ?_ ?_⟩
  · rw [puttingAside, Workspace.cache_updateCache_of_ne _ _ (by decide) rfl]
    exact h.old_eq
  · rw [hcache, Cache.get?, Cache.putPrivate, ExtTreeMap.getElem?_insert_self]
    rfl

def first : Reply (List Requirement) := prepared (facing spot) ⟨1⟩ (spotted .empty)

def second : Reply (List Requirement) := prepared (facing spot) ⟨1⟩ first.workspace

/-- The execution of the other cycle, after its node on the left was marked executed. -/
def skipping : Option (Reply Unit × ExecutionReport) :=
  match second.cycle.markExecuted "Left" (some (computing spot)) with
  | .ok c => c.execute second.workspace (.row [("Left", .finish), ("Right", .finish)])
  | .error _ => none

theorem exists_skipping : ∃ reply report, skipping = some (reply, report) ∧ reply.cycle.Lived ∧
    reply.cycle.view = facing spot ∧ reply.cycle.state = .finished ∧
    reply.cycle.result = .empty "View" ⟨1⟩ ∧
    reply.cycle.handles["Left"]? = some (side "Left") ∧
    (reply.workspace.cache (side "Left")).privatePart = ∅ ∧
    (reply.workspace.cache (side "Right")).privatePart = ∅ ∧
    (reply.workspace.cache (side "Left")).sharedPart[spot]? = some (.string "10") := by
  have h : skipping.map (fun r => (r.1.cycle.view, r.1.cycle.state, r.1.cycle.result,
      r.1.cycle.handles["Left"]?,
      (r.1.workspace.cache (side "Left")).privatePart,
      (r.1.workspace.cache (side "Right")).privatePart,
      (r.1.workspace.cache (side "Left")).sharedPart[spot]?)) =
        some (facing spot, .finished, .empty "View" ⟨1⟩, some (side "Left"), ∅, ∅,
          some (.string "10")) := by rfl
  obtain ⟨⟨reply, report⟩, hr, he⟩ := Option.map_eq_some_iff.mp h
  simp only [Prod.mk.injEq] at he
  refine ⟨reply, report, hr, ?_, he⟩
  have hlived : second.cycle.Lived := (prepared_spec _ _ _).1
  unfold skipping at hr
  split at hr
  · next c hc => exact .execute (.mark hlived hc) hr
  · exact absurd hr (by simp)

theorem left_side_appears : ∃ reply report, skipping = some (reply, report) ∧
    reply.cycle.state = .finished ∧
    (∃ result, reply.cycle.populate reply.workspace ⟨5⟩ =
      ⟨{ reply.cycle with result }, reply.workspace, .ok ()⟩ ∧ result.value? "Left" spot = none) ∧
    ∃ w result, (first.cycle.computeDelta reply.workspace reply.cycle).workspace = w ∧
      reply.cycle.populate w ⟨5⟩ = ⟨{ reply.cycle with result }, w, .ok ()⟩ ∧
      (result.value? "Left" spot).isSome = true := by
  obtain ⟨reply, report, hr, hlived, hview, hstate, hresult, hleft, hprivate, hprivate',
    hshared⟩ := exists_skipping
  obtain ⟨-, hview₀, hready, -⟩ : first.cycle.Lived ∧ first.cycle.view = facing spot ∧
    first.cycle.Ready (side "Left").group ∧ _ := prepared_spec (facing spot) ⟨1⟩ (spotted .empty)
  have hmem : ("Left", graph "Left" [computing spot]) ∈ (facing spot).model.graphs.toList := by
    rw [graphs_facing]
    exact List.mem_cons_self ..
  have hhoused : reply.cycle.Housed (side "Left").group := by
    obtain ⟨group, hgroup⟩ := hlived.kept.housed (by simp [hstate]) (by simp [hstate])
    have hhandle := (hgroup "Left").trans
      (if_pos (hview ▸ EvaluationModel.name_mem (e := (_, _)) hmem))
    rw [hleft] at hhandle
    exact congrArg CacheHandle.group (Option.some.inj hhandle) ▸ hgroup
  have hunhidden : Unhidden (side "Left").group first.cycle.view.model.graphs.toList
      reply.workspace := by
    rw [hview₀, graphs_facing]
    simp only [Unhidden, List.mem_cons, List.not_mem_nil, or_false, forall_eq_or_imp, forall_eq]
    exact ⟨fun s _ => hprivate ▸ ExtTreeMap.getElem?_empty,
      fun s _ => hprivate' ▸ ExtTreeMap.getElem?_empty⟩
  obtain ⟨c', w', notes, hdelta, hcopies⟩ := hready.copies hunhidden hlived.kept hstate
  have hcarries : first.cycle.Carries reply.cycle reply.workspace "Left"
      (graph "Left" [computing spot]) (computing spot) := by
    refine ⟨_, _, hready.handle _ (hview₀ ▸ hmem), hleft, ?_⟩
    exact Delta.mem_unchangedNodes (i := 0) (ValuationCycle.Sample.acyclic_graph _ _) rfl rfl
      (ValuationCycle.Sample.not_edge _ _ _) _ _
  have hread : reply.cycle.read? reply.workspace "Left" spot = some (.string "10") := by
    rw [read?_of_handle hleft, Cache.get?, hprivate, hshared]
    rfl
  obtain ⟨v, -, -, hfound⟩ := hcopies.found _ (hview₀ ▸ hmem) spot _
    ⟨_, hcarries, mem_outputs_step.mpr rfl⟩ hread
  have hpopulate : ∀ w, ∃ result,
      reply.cycle.populate w ⟨5⟩ = ⟨{ reply.cycle with result }, w, .ok ()⟩ ∧
      result.value? "Left" spot =
        (w.cache (side "Left")).getHinted? (.ofGraph (graph "Left" [computing spot])) spot := by
    intro w
    obtain ⟨result, hpopulate, -, hvalues⟩ := reply.cycle.populate_eq w (side "Left").group hstate
      (fun name hn => (hhoused name).trans (if_pos hn)) (fun _ => by rw [hresult]; rfl) ⟨5⟩
    refine ⟨result, hpopulate, (hvalues _ (hview ▸ hmem) spot).trans (if_pos ?_)⟩
    rw [reported, hview]
    decide +kernel
  obtain ⟨before, hbefore, hnone⟩ := hpopulate reply.workspace
  obtain ⟨after, hafter, hsome⟩ := hpopulate w'
  refine ⟨reply, report, hr, hstate, ⟨before, hbefore, hnone.trans ?_⟩, w', after, by rw [hdelta],
    hafter, Option.isSome_iff_exists.mpr ⟨v, hsome.trans hfound⟩⟩
  rw [Cache.getHinted?, if_pos (by decide +kernel), hprivate]
  exact ExtTreeMap.getElem?_empty

def stated : Specification := quantity "Price" "1"

def later : CacheGroup := ⟨"View", ⟨2⟩, 0⟩

theorem later_ne : later ≠ (side "Left").group := by decide

theorem mem_graphs_announced :
    ("Left", graph "Left" [speaking]) ∈ announced.model.graphs.toList ∧
      ("Right", graph "Right" [quoted]) ∈ announced.model.graphs.toList := by
  rw [announced, graphs_facing]
  exact ⟨List.mem_cons_self .., List.mem_cons_of_mem _ (List.mem_cons_self ..)⟩

theorem mem_liveOutputs_announced : spot ∈ announced.model.liveOutputs :=
  EvaluationModel.mem_liveOutputs_iff.mpr
    ⟨_, mem_graphs_announced.2, quoted, List.mem_singleton.mpr rfl, rfl, by decide⟩

/-- What is left when the plans of the view were executed: the price on the left, the spot price on
the right, and no caches but those. -/
structure Announced (reply : Reply Unit) : Prop where
  lived : reply.cycle.Lived
  state_eq : reply.cycle.state = .finished
  handle : ∀ name ∈ announced.model.names, reply.cycle.handles[name]? = some (side name)
  price_eq : (reply.workspace.cache (side "Left")).get? stated = some (.bool true)
  spot_eq : (reply.workspace.cache (side "Right")).get? spot = some (.string "10")
  empty : ∀ k, k.group ≠ (side "Left").group → reply.workspace.cache k = .empty
  group_eq : reply.workspace.caches.currentGroup "View" ⟨2⟩ = later
  loaded_eq : (Cycle.new announced ⟨2⟩).loaded reply.workspace.liveData spot = some (.string "10")

theorem announced_of_execute {c : Cycle} {w : Workspace} {missing : List Requirement}
    {b : Behaviour} {reply : Reply Unit} {report : ExecutionReport}
    (hprepare : (Cycle.new announced ⟨1⟩).prepare announcing = ⟨c, w, .ok missing⟩)
    (hb : b.Local) (hx : c.execute w b = some (reply, report)) (hok : reply.answer = .ok ()) :
    Announced reply := by
  obtain ⟨c₁, w₁, hprepare₁, hp⟩ := prepare_created (c := .new announced ⟨1⟩) rfl rfl announcing
  obtain ⟨rfl, rfl, -⟩ := Reply.mk.inj (hprepare.symm.trans hprepare₁)
  obtain ⟨hc, haside, hprivate, hshared⟩ := prepared_of_eq hprepare
  have hnumbered := numbered_spotted haside
  have hrepository := hnumbered.repository_eq
  have hexecuted := hc.executed hb
    (by rw [hc.view_eq, hrepository]; exact sound_facing confined_speaking)
    (hrepository ▸ hnumbered) (hc.view_eq ▸ inputs_facing) (by decide) hx hok
  obtain ⟨-, m, es, y, -, hes, -, hworkspace, hcycle⟩ := hc.ready.execute hb hx hok
  obtain ⟨hstored, -⟩ := stored_requests hes
  rw [← hworkspace] at hstored
  obtain ⟨hleft, hright⟩ := mem_graphs_announced
  rw [← hc.view_eq] at hleft hright
  refine ⟨?_, by rw [hcycle], fun name hn => ?_, ?_, ?_, fun k hk => ?_, ?_, ?_⟩
  · have hlived := Lived.prepare announcing (.new announced ⟨1⟩)
    rw [hprepare] at hlived
    exact hlived.execute hx
  · rw [hcycle]
    exact (hc.handle name).trans (if_pos hn)
  · obtain ⟨answers, hsettled, hanswering, -⟩ := hexecuted.settled _ hleft
    obtain ⟨a, ha⟩ := (hanswering speaking).mpr ⟨List.mem_singleton.mpr rfl, rfl, by
      rw [executed, hp.cycle_eq]
      exact List.not_mem_nil⟩
    have hanswer := hsettled.answered _ ha
    rw [hrepository, answer_speaking] at hanswer
    have hwritten := hsettled.written _ ha stated (mem_outputs_step.mpr rfl)
    rw [hanswer] at hwritten
    exact congrArg (Option.or · _) hwritten
  · obtain ⟨answers, hsettled, hanswering, -⟩ := hexecuted.settled _ hright
    have huntouched := hsettled.untouched spot fun o ho => by
      obtain ⟨hn, hl, -⟩ := (hanswering o.1).mp ⟨o.2, ho⟩
      rw [List.mem_singleton.mp hn] at hl
      exact absurd hl (by decide)
    have hloaded := hshared "Right" (by decide +kernel) spot
    rw [if_pos mem_liveOutputs_announced] at hloaded
    rw [hprivate] at huntouched
    rw [← hsettled.shared_eq] at hloaded
    exact congrArg₂ Option.or huntouched hloaded
  · rw [hexecuted.cache_eq k hk, haside.cache_eq k hk]
    rfl
  · exact CacheSource.currentGroup_congr (hstored.releases_eq.trans haside.releases_eq) "View" ⟨2⟩
  · rw [hstored.liveData_eq, hp.liveData_eq]
    rfl

section
variable {reply : Reply Unit} {c : Cycle} {w : Workspace} {missing : List Requirement}

/-- Nothing but the spot price is there for the next time at first, and what there was for the time
before can still be read. -/
theorem Announced.next (h : Announced reply)
    (hprepare : (Cycle.new announced ⟨2⟩).prepare reply.workspace = ⟨c, w, .ok missing⟩) :
    Prepared announced ⟨2⟩ later c ∧ ∀ name ∈ announced.model.names, ∀ s : Specification,
      c.read? w name s = (Cycle.new announced ⟨2⟩).loaded reply.workspace.liveData s ∧
      reply.cycle.read? w name s = (reply.workspace.cache (side name)).get? s := by
  have hgroup : reply.workspace.caches.currentGroup announced.name ⟨2⟩ = later := h.group_eq
  obtain ⟨hc, haside, hprivate, hshared⟩ := prepared_of_eq hprepare
  rw [hgroup] at hc haside hshared
  refine ⟨hc, fun name hn s => ⟨?_, ?_⟩⟩
  · rw [read?_of_handle ((hc.handle name).trans (if_pos hn)), Cache.get?, hprivate,
      hshared name hn, h.empty _ later_ne]
    exact Option.none_or.trans Option.or_none
  · rw [read?_of_handle (h.handle name hn), haside.cache_eq (side name) later_ne.symm]

/-- The speaker has no inputs, and the spot price is what it was. -/
theorem Announced.carries (h : Announced reply)
    (hprepare : (Cycle.new announced ⟨2⟩).prepare reply.workspace = ⟨c, w, .ok missing⟩) :
    c.Carries reply.cycle w "Left" (graph "Left" [speaking]) speaking ∧
      c.Carries reply.cycle w "Right" (graph "Right" [quoted]) quoted := by
  obtain ⟨hc, hread⟩ := h.next hprepare
  have hleft : "Left" ∈ announced.model.names := by decide +kernel
  have hright : "Right" ∈ announced.model.names := by decide +kernel
  have hcurrent := fun name (hn : name ∈ announced.model.names) =>
    (hc.handle name).trans (if_pos hn)
  refine ⟨⟨_, _, hcurrent _ hleft, h.handle _ hleft, ?_⟩,
    ⟨_, _, hcurrent _ hright, h.handle _ hright, ?_⟩⟩
  · exact Delta.mem_unchangedNodes (i := 0) (ValuationCycle.Sample.acyclic_graph _ _) rfl rfl
      (ValuationCycle.Sample.not_edge _ _ _) _ _
  · refine Delta.mem_unchangedNodes_of_live (i := 0) (ValuationCycle.Sample.acyclic_graph _ _) rfl
      rfl fun s hs => ?_
    obtain rfl : s = spot := mem_outputs_step.mp hs
    obtain ⟨hnow, hthen⟩ := hread _ hright spot
    rw [read?_of_handle (hcurrent _ hright), h.loaded_eq] at hnow
    rw [read?_of_handle (h.handle _ hright), h.spot_eq] at hthen
    rw [hnow, hthen]
    exact sameValue_refl _

end

end Sample
open Cycle.Sample Graph.Sample

/-- What is shared does not stay as it is written, and becomes what a private value stands for; and
a previous cycle that has the same caches reports more than it did. -/
theorem taking_over_shows :
    (∃ reply report, concluding (zero true) = some (reply, report) ∧
      PriceMoves (zero true) (zero false) reply ∧
      sharedAfter reply (zero false) (following reply (zero false)).workspace =
        some (zero true)) ∧
    (∃ reply report, concluding (.string "99") = some (reply, report) ∧
      PriceMoves (.string "99") (.string "10") reply ∧
      ((puttingAside reply).cache (marketAt ⟨2⟩)).sharedPart[spot10.specification]? =
        some (.string "10") ∧
      sharedAfter reply (.string "10") (puttingAside reply) = some (.string "99")) ∧
    ∃ reply report, skipping = some (reply, report) ∧ reply.cycle.state = .finished ∧
      (∃ result, reply.cycle.populate reply.workspace ⟨5⟩ =
        ⟨{ reply.cycle with result }, reply.workspace, .ok ()⟩ ∧
          result.value? "Left" spot = none) ∧
      ∃ w result, (first.cycle.computeDelta reply.workspace reply.cycle).workspace = w ∧
        reply.cycle.populate w ⟨5⟩ = ⟨{ reply.cycle with result }, w, .ok ()⟩ ∧
        (result.value? "Left" spot).isSome = true :=
  ⟨zero_turns_negative, old_price_comes_back, left_side_appears⟩

/-- A price that was computed on the left is copied for the next time, and is read on the left only;
the spot price, which was loaded again, is taken over on the right. -/
theorem price_taken_over : ∃ c₁ w₁ missing b reply report c w missing' c' w' notes v v',
    (Cycle.new announced ⟨1⟩).prepare announcing = ⟨c₁, w₁, .ok missing⟩ ∧ Behaviour.Local b ∧
    c₁.execute w₁ b = some (reply, report) ∧ reply.answer = .ok () ∧
    (Cycle.new announced ⟨2⟩).prepare reply.workspace = ⟨c, w, .ok missing'⟩ ∧
    c.read? w "Left" stated = none ∧ c.computeDelta w reply.cycle = ⟨c', w', .ok notes⟩ ∧
    speaking ∈ c'.executed "Left" ∧ quoted ∈ c'.executed "Right" ∧
    Value.same (.bool true) v = true ∧ Value.same (.string "10") v' = true ∧
    (w'.cache ⟨later, "Left"⟩).privatePart[stated]? = some v ∧
    c'.read? w' "Left" stated = some v ∧ c'.read? w' "Right" stated = none ∧
    c'.read? w' "Right" spot = some v' := by
  obtain ⟨c₁, w₁, missing, b, reply, report, hprepare₁, hb, hx, hok⟩ := exists_announcing
  have h := announced_of_execute hprepare₁ hb hx hok
  have hgroup : reply.workspace.caches.currentGroup announced.name ⟨2⟩ = later := h.group_eq
  obtain ⟨c, w, hprepare, hall⟩ := computeDelta_copies (.new announced ⟨2⟩) (.new _ _) rfl
    reply.workspace fun k hk => h.empty k ((hk.trans hgroup).trans_ne later_ne)
  obtain ⟨hview, hunhidden, hdelta⟩ := hall c w .none
  obtain ⟨c', w', notes, hdelta, hcopies⟩ :=
    hdelta w hunhidden reply.cycle h.lived h.state_eq
  replace hcopies : Copies (reply.workspace.caches.currentGroup announced.name ⟨2⟩) reply.cycle c w
    c' w' := hcopies
  rw [hgroup] at hcopies
  obtain ⟨hc, hread⟩ := h.next hprepare
  obtain ⟨hspeaking, hquoted⟩ := h.carries hprepare
  obtain ⟨hleft, hright⟩ := mem_graphs_announced
  obtain ⟨hnow, hthen⟩ := hread _ (EvaluationModel.name_mem hleft) stated
  have hnone : (Cycle.new announced ⟨2⟩).loaded reply.workspace.liveData stated = none :=
    if_neg (by decide +kernel)
  have hkept : c.read? w "Right" stated = none :=
    (hread _ (EvaluationModel.name_mem hright) stated).1.trans hnone
  have hspot := (hread _ (EvaluationModel.name_mem hright) spot).2.trans h.spot_eq
  rw [← hc.view_eq] at hleft hright
  obtain ⟨v, hv, hprice, hhinted⟩ := hcopies.found _ hleft stated (.bool true)
    ⟨speaking, hspeaking, mem_outputs_step.mpr rfl⟩ (hthen.trans h.price_eq)
  obtain ⟨v', hv', hspot, -⟩ := hcopies.found _ hright spot (.string "10")
    ⟨quoted, hquoted, mem_outputs_step.mpr rfl⟩ hspot
  obtain ⟨-, hother⟩ := hcopies.kept _ hright stated fun ⟨n, ⟨_, _, _, _, hn⟩, hs⟩ => by
    obtain ⟨i, -, hi⟩ := List.mem_filterMap.mp hn
    rw [List.mem_singleton.mp (List.mem_of_getElem? hi)] at hs
    exact absurd (mem_outputs_step.mp hs : stated = spot) (by decide)
  refine ⟨c₁, w₁, missing, b, reply, report, c, w, _, c', w', notes, v, v', hprepare₁, hb, hx, hok,
    hprepare, hnow.trans hnone, hdelta, (hcopies.executed _ hleft _).mpr (.inr hspeaking),
    (hcopies.executed _ hright _).mpr (.inr hquoted), hv, hv', ?_, hprice, ?_, hspot⟩
  · rwa [Cache.getHinted?, if_pos (by decide +kernel)] at hhinted
  · have hsome := isSome_of_sameValue hother
    rw [hkept] at hsome
    exact Option.isSome_eq_false_iff.mp hsome.symm |> Option.isNone_iff_eq_none.mp

end Cycle
end ValuationCycle
