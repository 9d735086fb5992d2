import ValuationCycle.Proofs.Cycle.Executing
import ValuationCycle.Proofs.Cycle.Reporting

/-!
# Passes

A pass takes a new cycle from its inputs to its result, and may take over from a
previous cycle before it executes its plans.
-/
namespace ValuationCycle
open Json Std

structure Moment where
  cycle : Cycle
  workspace : Workspace

def Moment.cache (m : Moment) (name : String) : Cache :=
  (m.cycle.cache? m.workspace name).getD .empty

def Reply.moment? {α : Type} (r : Reply α) : Option Moment :=
  match r.answer with
  | .ok _ => some ⟨r.cycle, r.workspace⟩
  | .error _ => none

/-- A pass that has not executed anything yet: when its inputs are prepared, and when it has
taken over what it does not compute. -/
structure Beginning where
  prepared : Moment
  carried : Moment

structure Pass extends Beginning where
  finished : Moment

def Moment.carry (m : Moment) : Option Cycle → Option Moment
  | none => some m
  | some previous => (m.cycle.computeDelta m.workspace previous).moment?

def Moment.complete (m : Moment) (b : Behaviour) (stamp : ResultTimestamp) : Option Moment := do
  let (executed, _) ← m.cycle.execute m.workspace b
  let executed ← executed.moment?
  (executed.cycle.populate executed.workspace stamp).moment?

def View.begin (view : View) (t : ValuationTime) (previous : Option Cycle) (w : Workspace) :
    Option Beginning := do
  let prepared ← ((Cycle.new view t).prepare w).moment?
  let carried ← prepared.carry previous
  return ⟨prepared, carried⟩

/-- One pass of a view; there is none if some operation does not succeed. -/
def View.pass (view : View) (t : ValuationTime) (previous : Option Cycle) (b : Behaviour)
    (stamp : ResultTimestamp) (w : Workspace) : Option Pass := do
  let s ← view.begin t previous w
  let finished ← s.carried.complete b stamp
  return { s with finished }

def previousCache (previous : Option Cycle) (w : Workspace) (name : String) : Cache :=
  (previous.bind fun c => c.cache? w name).getD .empty

theorem Reply.moment?_eq_some {α : Type} {r : Reply α} {m : Moment} (h : r.moment? = some m) :
    ∃ a, r = ⟨m.cycle, m.workspace, .ok a⟩ := by
  obtain ⟨c, w, answer⟩ := r
  cases answer with
  | ok a =>
      obtain rfl := Option.some.inj h
      exact ⟨a, rfl⟩
  | error e => simp [moment?] at h

theorem View.pass_eq_some {view : View} {t : ValuationTime} {previous : Option Cycle}
    {b : Behaviour} {stamp : ResultTimestamp} {w : Workspace} {p : Pass} :
    view.pass t previous b stamp w = some p ↔ view.begin t previous w = some p.toBeginning ∧
      p.carried.complete b stamp = some p.finished := by
  constructor
  · intro hp
    obtain ⟨s, hbegin, hp⟩ := Option.bind_eq_some_iff.mp hp
    obtain ⟨finished, hcomplete, hp⟩ := Option.bind_eq_some_iff.mp hp
    obtain rfl := Option.some.inj hp
    exact ⟨hbegin, hcomplete⟩
  · rintro ⟨hbegin, hcomplete⟩
    rw [pass, hbegin]
    change (p.carried.complete b stamp).bind _ = _
    rw [hcomplete]
    rfl

structure Cycle.Finished (view : View) (group : CacheGroup) (c : Cycle) : Prop where
  state_eq : c.state = .finished
  time_eq : c.time = group.time
  handle : ∀ name ∈ view.model.names, c.handles[name]? = some ⟨group, name⟩

structure Begun (view : View) (t : ValuationTime) (w : Workspace) (previous : Option Cycle)
    (s : Beginning) : Prop where
  prepared_eq : ((Cycle.new view t).prepare w).moment? = some s.prepared
  alone : previous = none → s.carried = s.prepared ∧
    ∀ name ∈ view.model.names, s.carried.cycle.executed name = []
  cycle : Cycle.Prepared view t (w.caches.currentGroup view.name t) s.carried.cycle
  aside : Workspace.Aside (w.caches.currentGroup view.name t) w s.carried.workspace
  cache_carried : ∀ name ∈ view.model.names, s.carried.cache name =
    s.carried.workspace.cache ⟨w.caches.currentGroup view.name t, name⟩
  private_eq : ∀ name ∈ view.model.names, (s.prepared.cache name).privatePart =
    (w.cache ⟨w.caches.currentGroup view.name t, name⟩).privatePart
  shared_eq : ∀ name ∈ view.model.names, ∀ other ∈ view.model.names,
    (s.prepared.cache name).sharedPart = (s.prepared.cache other).sharedPart
  loaded : ∀ name ∈ view.model.names, ∀ u : Specification, (s.prepared.cache name).sharedPart[u]? =
    (if u ∈ view.model.liveOutputs then w.liveData.value? t u else none).or
      (w.cache ⟨w.caches.currentGroup view.name t, name⟩).sharedPart[u]?
  unchanged : previous ≠ none → ∀ e ∈ view.model.graphs.toList, ∃ current, ∀ n,
    n ∈ s.carried.cycle.executed e.1 ↔
      n ∈ Delta.unchangedNodes e.2 current (previousCache previous w e.1)
  taken : ∀ e ∈ view.model.graphs.toList, TakenOver e.2 (s.carried.cycle.executed e.1)
    (previousCache previous w e.1) (s.prepared.cache e.1) (s.carried.cache e.1)
  shared : ∀ name ∈ view.model.names, ∀ u : Specification,
    (s.carried.cache name).sharedPart[u]? = (s.prepared.cache name).sharedPart[u]? ∨
      ∃ e ∈ view.model.graphs.toList, (CacheHint.ofGraph e.2).isPrivate u = false ∧
        ∃ n ∈ s.carried.cycle.executed e.1, u ∈ n.outputs ∧
          (s.carried.cache name).sharedPart[u]? = (previousCache previous w e.1).get? u

structure Passed (known : List Specification) (view : View) (t : ValuationTime) (w : Workspace)
    (previous : Option Cycle) (p : Pass) : Prop extends Begun view t w previous p.toBeginning where
  finished : p.finished.cycle.Finished view (w.caches.currentGroup view.name t)
  cache_finished : ∀ name ∈ view.model.names, p.finished.cache name =
    p.finished.workspace.cache ⟨w.caches.currentGroup view.name t, name⟩
  numbered : p.finished.workspace.Numbered w.repository known
  cache_eq : ∀ k, k.group ≠ w.caches.currentGroup view.name t →
    p.finished.workspace.cache k = w.cache k
  settled : ∀ e ∈ view.model.graphs.toList, ∃ answers,
    Settled w.repository (p.carried.cache e.1) answers (p.finished.cache e.1) ∧
      e.2.Answering answers (· ∉ p.carried.cycle.executed e.1) ∧ ∀ o ∈ answers, o.2.settles = true
  notReported : ∀ name, name ∉ view.model.names → ∀ s,
    p.finished.cycle.result.value? name s = none
  reported : ∀ e ∈ view.model.graphs.toList, ∀ s, p.finished.cycle.result.value? e.1 s =
    if s ∈ e.2.outputs.filter (view.definition.policy.reports e.2) then
      (p.finished.cache e.1).getHinted? (.ofGraph e.2) s
    else none

theorem Moment.cache_eq {m : Moment} {name : String} {h : CacheHandle}
    (hh : m.cycle.handles[name]? = some h) : m.cache name = m.workspace.cache h := by
  rw [cache, Cycle.cache?, hh]
  rfl

section
variable {view : View} {t : ValuationTime} {w : Workspace} {group : CacheGroup}
variable {previous : Option Cycle} {known : List Specification}

structure Moment.Carried (view : View) (t : ValuationTime) (group : CacheGroup) (carried : Prop)
    (previous : String → Cache) (m m' : Moment) : Prop where
  prepared : Cycle.Prepared view t group m'.cycle
  aside : Workspace.Aside group m.workspace m'.workspace
  unchanged : carried → ∀ e ∈ view.model.graphs.toList, ∃ current, ∀ n,
    n ∈ m'.cycle.executed e.1 ↔ n ∈ Delta.unchangedNodes e.2 current (previous e.1)
  taken : ∀ e ∈ view.model.graphs.toList, TakenOver e.2 (m'.cycle.executed e.1) (previous e.1)
    (m.workspace.cache ⟨group, e.1⟩) (m'.workspace.cache ⟨group, e.1⟩)
  shared : ∀ k, k.group = group → ∀ s : Specification,
    (m'.workspace.cache k).sharedPart[s]? = (m.workspace.cache k).sharedPart[s]? ∨
      ∃ e ∈ view.model.graphs.toList, (CacheHint.ofGraph e.2).isPrivate s = false ∧
        ∃ n ∈ m'.cycle.executed e.1, s ∈ n.outputs ∧
          (m'.workspace.cache k).sharedPart[s]? = (previous e.1).get? s

theorem Moment.exists_carry {m : Moment} (hs : view.Sound w.repository)
    (hm : Cycle.Prepared view t group m.cycle)
    (hmarks : ∀ name ∈ view.model.names, m.cycle.marks[name]? = some .empty)
    (hw : Workspace.Aside group w m.workspace)
    (hprevious : ∀ q, previous = some q → ∃ earlier, earlier ≠ group ∧ q.Finished view earlier) :
    ∃ m', m.carry previous = some m' ∧
      Moment.Carried view t group (previous ≠ none) (previousCache previous w) m m' := by
  cases previous with
  | none =>
      refine ⟨m, rfl, hm, m.workspace.aside_refl group, fun h => absurd rfl h, fun e he => ?_,
        fun k hk s => .inl rfl⟩
      have hexecuted : m.cycle.executed e.1 = [] := by
        rw [Cycle.executed, hmarks _ (EvaluationModel.name_mem he)]
        rfl
      rw [hexecuted]
      exact TakenOver.nil _ _ _
  | some q =>
      obtain ⟨earlier, hne, hq⟩ := hprevious q rfl
      obtain ⟨c', w', notes, heq, hprepared, htakes⟩ := hm.computeDelta (w := m.workspace) hne
        (fun e he => (hs e he).built) (fun e he => (hs e he).acyclic) hmarks hq.state_eq hq.handle
      have hcache : ∀ e ∈ view.model.graphs.toList,
          previousCache (some q) w e.1 = m.workspace.cache ⟨earlier, e.1⟩ := by
        intro e he
        rw [hw.cache_eq _ hne, previousCache, Option.bind_some, Cycle.cache?,
          hq.handle _ (EvaluationModel.name_mem he)]
        rfl
      refine ⟨⟨c', w'⟩, ?_, hprepared, htakes.aside, fun _ e he => ?_, fun e he => ?_,
        fun k hk s => ?_⟩
      · rw [carry, heq]
        rfl
      · rw [hcache e he]
        exact htakes.unchanged e he
      · rw [hcache e he]
        exact htakes.taken e he
      · rcases htakes.shared k hk s with hs | ⟨e, he, hp, n, hn, hsn, hs⟩
        · exact .inl hs
        · exact .inr ⟨e, he, hp, n, hn, hsn, by rw [hcache e he]; exact hs⟩

structure Moment.Completed (known : List Specification) (view : View) (group : CacheGroup)
    (m m' : Moment) : Prop where
  finished : m'.cycle.Finished view group
  numbered : m'.workspace.Numbered m.workspace.repository known
  cache_eq : ∀ k, k.group ≠ group → m'.workspace.cache k = m.workspace.cache k
  settled : ∀ e ∈ view.model.graphs.toList, ∃ answers,
    Settled m.workspace.repository (m.workspace.cache ⟨group, e.1⟩) answers
      (m'.workspace.cache ⟨group, e.1⟩) ∧ e.2.Answering answers (· ∉ m.cycle.executed e.1) ∧
        ∀ o ∈ answers, o.2.settles = true
  notReported : ∀ name, name ∉ view.model.names → ∀ s, m'.cycle.result.value? name s = none
  reported : ∀ e ∈ view.model.graphs.toList, ∀ s, m'.cycle.result.value? e.1 s =
    if s ∈ e.2.outputs.filter (view.definition.policy.reports e.2) then
      (m'.workspace.cache ⟨group, e.1⟩).getHinted? (.ofGraph e.2) s
    else none

theorem Moment.complete_eq {m : Moment} {b : Behaviour} (hm : Cycle.Prepared view t group m.cycle)
    (hb : b.Local) {reply : Reply Unit} {report : ExecutionReport}
    (hx : m.cycle.execute m.workspace b = some (reply, report)) (hok : reply.answer = .ok ())
    (stamp : ResultTimestamp) :
    ∃ c, m.complete b stamp = some ⟨c, reply.workspace⟩ ∧ c.state = .finished ∧
      c.time = m.cycle.time ∧ c.handles = m.cycle.handles ∧
      (∀ name, name ∉ view.model.names → ∀ s, c.result.value? name s = none) ∧
      ∀ e ∈ view.model.graphs.toList, ∀ s, c.result.value? e.1 s =
        if s ∈ e.2.outputs.filter (view.definition.policy.reports e.2) then
          (reply.workspace.cache ⟨group, e.1⟩).getHinted? (.ofGraph e.2) s
        else none := by
  obtain rfl := hm.view_eq
  obtain ⟨marks, es, x, -, -, -, hcycle⟩ := hm.execute hb hx hok
  obtain ⟨c, w, answer⟩ := reply
  obtain rfl : answer = .ok () := hok
  obtain rfl : c = _ := hcycle
  have hempty : ∀ name, m.cycle.result.values name = [] := by
    intro name
    rw [hm.result_eq]
    simp [ResultModel.values, ResultModel.empty]
  obtain ⟨r, hpopulate, hnone, hvalue⟩ := Cycle.populate_eq
    { m.cycle with state := .finished, marks := x.marks, ended := true } w group rfl
    (fun name hn => (hm.handle name).trans (if_pos hn)) hempty stamp
  refine ⟨{ m.cycle with state := .finished, marks := x.marks, ended := true, result := r }, ?_,
    rfl, rfl, rfl, hnone, hvalue⟩
  rw [complete, hx]
  change (Cycle.populate _ w stamp).moment? = _
  rw [hpopulate]
  rfl

theorem Moment.complete_spec {m m' : Moment} {b : Behaviour} {stamp : ResultTimestamp}
    (hm : Cycle.Prepared view t group m.cycle) (ht : group.time = t) (hb : b.Local)
    (hs : view.Sound m.workspace.repository)
    (hw : m.workspace.Numbered m.workspace.repository known)
    (hknown : ∀ e ∈ view.model.graphs.toList, ∀ n ∈ e.2.nodes, n.inputs ⊆ known)
    (hsize : known.length < 2 ^ 63) (hx : m.complete b stamp = some m') :
    Completed known view group m m' := by
  obtain rfl := hm.view_eq
  obtain ⟨⟨reply, report⟩, hexecute, hrest⟩ := Option.bind_eq_some_iff.mp hx
  obtain ⟨executed, hok, -⟩ := Option.bind_eq_some_iff.mp hrest
  obtain ⟨a, rfl⟩ := Reply.moment?_eq_some hok
  obtain ⟨-, hnumbered, hcache, hsettled⟩ := hm.executed hb hs hw hknown hsize hexecute rfl
  obtain ⟨c, hcomplete, hstate, htime, hhandles, hnone, hvalue⟩ :=
    Moment.complete_eq hm hb hexecute rfl stamp
  obtain rfl := Option.some.inj (hx.symm.trans hcomplete)
  refine ⟨⟨hstate, htime.trans (hm.time_eq.trans ht.symm), fun name hn => ?_⟩, hnumbered, hcache,
    hsettled, hnone, hvalue⟩
  rw [hhandles, hm.handle, if_pos hn]

theorem View.Sound.exists_begin (hs : view.Sound w.repository)
    (hprevious : ∀ q, previous = some q → ∃ earlier,
      earlier ≠ w.caches.currentGroup view.name t ∧ q.Finished view earlier) :
    ∃ s, view.begin t previous w = some s ∧ Begun view t w previous s := by
  obtain ⟨c, w', missing, hprepare, hprepared, hmarks, haside, hprivate, hlive⟩ :=
    Cycle.prepare_new view t w
  obtain ⟨carried, hcarry, hcarried⟩ := Moment.exists_carry (m := ⟨c, w'⟩) hs hprepared hmarks
    haside hprevious
  have hcache : ∀ {m : Moment}, Cycle.Prepared view t (w.caches.currentGroup view.name t) m.cycle →
      ∀ name ∈ view.model.names, m.cache name =
        m.workspace.cache ⟨w.caches.currentGroup view.name t, name⟩ := fun h name hn =>
    Moment.cache_eq (by rw [h.handle, if_pos hn])
  have hloaded := hcache (m := ⟨c, w'⟩) hprepared
  have htaken := hcache hcarried.prepared
  refine ⟨⟨⟨c, w'⟩, carried⟩, ?_, by rw [hprepare]; rfl, ?_, hcarried.prepared,
    haside.trans hcarried.aside, htaken, fun name hn => ?_, fun name hn other ho => ?_,
    fun name hn u => by rw [hloaded name hn, hlive name hn], hcarried.unchanged,
    fun e he => ?_, fun name hn u => ?_⟩
  · rw [View.begin, hprepare]
    change ((Moment.mk c w').carry previous).bind _ = _
    rw [hcarry]
    rfl
  · rintro rfl
    obtain rfl := Option.some.inj hcarry
    exact ⟨rfl, fun name hn => by rw [Cycle.executed, hmarks name hn]; rfl⟩
  · rw [hloaded name hn, hprivate]
  · rw [hloaded name hn, hloaded other ho]
    exact Workspace.sharedPart_of_group _ rfl
  · have hn := EvaluationModel.name_mem he
    rw [hloaded _ hn, htaken _ hn]
    exact hcarried.taken e he
  · rw [hloaded name hn, htaken name hn]
    exact hcarried.shared _ rfl u

theorem Begun.numbered {s : Beginning} (h : Begun view t w previous s)
    (hw : w.Numbered w.repository known) :
    s.carried.workspace.Numbered s.carried.workspace.repository known :=
  ⟨rfl, h.aside.identifiers_eq ▸ hw.sound, h.aside.identifiers_eq ▸ hw.subset⟩

/-- A pass that has begun can come to its result if no answer ends a run. -/
theorem Begun.exists_complete {s : Beginning} (h : Begun view t w previous s)
    (hs : view.Sound w.repository) (hw : w.Numbered w.repository known)
    (hknown : ∀ e ∈ view.model.graphs.toList, ∀ n ∈ e.2.nodes, n.inputs ⊆ known)
    (hsize : known.length < 2 ^ 63)
    (hsafe : ∀ m, Execution.Safe s.carried.workspace m known
      (s.carried.cycle.requests (w.caches.currentGroup view.name t))) (stamp : ResultTimestamp) :
    ∃ b finished, Behaviour.Local b ∧ s.carried.complete b stamp = some finished := by
  have hview := h.cycle.view_eq
  have hcompatible : Compatible s.carried.workspace known
      (s.carried.cycle.requests (w.caches.currentGroup view.name t)) :=
    Cycle.compatible_requests (hview ▸ h.aside.repository_eq ▸ hs) (h.numbered hw)
      (hview ▸ hknown) hsize
  obtain ⟨b, reply, report, hb, hexecute, hok⟩ := h.cycle.exists_execute fun m =>
    Execution.exists_run hcompatible (hsafe m)
  obtain ⟨c, hcomplete, -⟩ := Moment.complete_eq h.cycle hb hexecute hok stamp
  exact ⟨b, _, hb, hcomplete⟩

theorem View.Sound.passed {b : Behaviour} {stamp : ResultTimestamp} {p : Pass}
    (hs : view.Sound w.repository) (hw : w.Numbered w.repository known)
    (hknown : ∀ e ∈ view.model.graphs.toList, ∀ n ∈ e.2.nodes, n.inputs ⊆ known)
    (hsize : known.length < 2 ^ 63) (hb : b.Local)
    (hprevious : ∀ q, previous = some q → ∃ earlier,
      earlier ≠ w.caches.currentGroup view.name t ∧ q.Finished view earlier)
    (hp : view.pass t previous b stamp w = some p) : Passed known view t w previous p := by
  obtain ⟨s, finished⟩ := p
  obtain ⟨hbegin, hcomplete⟩ := View.pass_eq_some.mp hp
  obtain ⟨s', hbegin', hbegun⟩ := hs.exists_begin (t := t) hprevious
  obtain rfl : s = s' := Option.some.inj (hbegin.symm.trans hbegin')
  have hrepository := hbegun.aside.repository_eq
  have hdone := Moment.complete_spec hbegun.cycle rfl hb (hrepository ▸ hs) (hbegun.numbered hw)
    hknown hsize hcomplete
  have hcache := fun name hn => Moment.cache_eq (m := finished) (hdone.finished.handle name hn)
  refine ⟨hbegun, hdone.finished, hcache, hrepository ▸ hdone.numbered, fun k hk => ?_,
    fun e he => ?_, hdone.notReported, fun e he s => ?_⟩
  · rw [hdone.cache_eq k hk, hbegun.aside.cache_eq k hk]
  · have hn := EvaluationModel.name_mem he
    rw [hbegun.cache_carried _ hn, hcache _ hn, ← hrepository]
    exact hdone.settled e he
  · rw [hcache _ (EvaluationModel.name_mem he)]
    exact hdone.reported e he s

end
end ValuationCycle
