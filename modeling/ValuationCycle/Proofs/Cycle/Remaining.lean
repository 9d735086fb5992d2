import Mathlib.Logic.Relation
import ValuationCycle.Proofs.Cycle.Listing
import ValuationCycle.Proofs.Graph.Membership

/-!
# What is left to execute

Whatever is done to a cycle, it has marks for the configurations of its view and for no other.
So what is left of a graph can be asked for exactly if the view has the graph's configuration, and
it is the part of the graph whose nodes are not live and have no executed mark. Asking marks
the live data sourcing nodes of the graph, but these are not left anyway: asked again, the answer
is the same.
-/
namespace ValuationCycle
open Std Relation

theorem mem_iff_getElem?_eq_some {β : Type} {m : ExtTreeMap String β} {name : String} :
    name ∈ m ↔ ∃ b, m[name]? = some b := by
  rw [ExtTreeMap.mem_iff_isSome_getElem?, Option.isSome_iff_exists]

theorem mem_insert_iff {β : Type} {m : ExtTreeMap String β} {name other : String} {b : β} :
    other ∈ m.insert name b ↔ other = name ∨ other ∈ m := by
  rw [ExtTreeMap.mem_insert, LawfulEqOrd.compare_eq_iff_eq, eq_comm]

namespace Execution
variable {x y : Execution}

def Marked (x : Execution) : Prop := ∀ name, name ∈ x.runs → name ∈ x.marks

theorem Marked.step? {c : String} {e : RunEvent} (hx : x.Marked) (h : x.step? c e = some y) :
    y.Marked ∧ ∀ name, name ∈ y.marks ↔ name ∈ x.marks := by
  obtain ⟨s, s', hs, -, rfl⟩ := step?_eq_some h
  obtain ⟨-, -, hrun, -⟩ := site?_eq_some hs
  have hc : c ∈ x.runs := mem_iff_getElem?_eq_some.mpr ⟨_, hrun⟩
  have hnames : ∀ name, name ∈ (x.restore c s').marks ↔ name ∈ x.marks := fun name => by
    rw [restore, mem_insert_iff]
    exact or_iff_right_of_imp fun he => he ▸ hx c hc
  refine ⟨fun name hname => (hnames name).mpr ?_, hnames⟩
  rw [restore, mem_insert_iff] at hname
  rcases hname with rfl | hname
  · exact hx _ hc
  · exact hx name hname

theorem Marked.steps? {es : List (String × RunEvent)} (hx : x.Marked)
    (h : x.steps? es = some y) : ∀ name, name ∈ y.marks ↔ name ∈ x.marks := by
  induction es generalizing x with
  | nil =>
      obtain rfl := Option.some.inj h
      exact fun _ => Iff.rfl
  | cons e es ih =>
      obtain ⟨x', he, h⟩ := Option.bind_eq_some_iff.mp h
      obtain ⟨hx', hnames⟩ := hx.step? he
      exact fun name => (ih hx' h name).trans (hnames name)

end Execution

/-- However waiting ends, there are marks for the same configurations as before: whoever runs a
graph marks nodes of its configuration and nothing else. -/
def Behaviour.Confined (b : Behaviour) : Prop :=
  ∀ (signalled : Bool) (names : List String) (x : Execution) (r : WaitReport), x.Marked →
    waitFor signalled x names (b names x) = some r →
    ∀ name, name ∈ r.execution.marks ↔ name ∈ x.marks

theorem Behaviour.Local.confined {b : Behaviour} (hb : b.Local) : b.Confined := by
  intro signalled names x r hx hwait
  obtain ⟨es, hes⟩ := waitFor_steps (hb names x) hwait
  exact hx.steps? hes

theorem NodeMarks.markLive_eq_self {m : NodeMarks} {g : Graph}
    (h : ∀ n ∈ g.nodes, n.isLive = true → n ∈ m.executed) : m.markLive g = m := by
  have hfold : ∀ ns : List Node, (∀ n ∈ ns, n ∈ m.executed) →
      ns.foldl (fun m n => m.markExecuted (some n)) m = m := by
    intro ns
    induction ns with
    | nil => exact fun _ => rfl
    | cons n ns ih =>
        intro hns
        rw [List.foldl_cons, markExecuted, List.insert_of_mem (hns n (by simp))]
        exact ih fun k hk => hns k (List.mem_cons_of_mem n hk)
  refine hfold _ fun n hn => ?_
  rw [List.mem_filter, ← n.isLive_eq] at hn
  exact h n hn.1 hn.2

namespace Cycle
variable {c c' : Cycle} {view : View} {t : ValuationTime} {w : Workspace}

/-- What may be done to a cycle. While it executes its plans, what is left of its graphs is asked
for and nodes are marked, by the cycle itself as by anybody else. -/
inductive Deed : Cycle → Cycle → Prop
  | interrupt (c : Cycle) : Deed c c.interrupt
  | mark {c c' : Cycle} {name : String} {f : NodeMarks → NodeMarks} : c.mark name f = .ok c' →
      Deed c c'
  | executableGraph {c c' : Cycle} {g rest : Graph} : c.executableGraph g = .ok (c', rest) →
      Deed c c'
  | begin {c : Cycle} : c.permits .executePlans = true → Deed c { c with state := .executing }
  | call {c : Cycle} {w : Workspace} {call : CycleCall} {reply : Reply Unit} :
      (∀ b, call = .executePlans b → b.Confined) → c.call? w call = some reply →
      Deed c reply.cycle

def Reached (view : View) (t : ValuationTime) : Cycle → Prop := ReflTransGen Deed (.new view t)

theorem Reached.deed (h : Reached view t c) (hd : Deed c c') : Reached view t c' := h.tail hd

/-- A cycle of a view, with marks for the configurations of the view and for no other. -/
structure Belongs (view : View) (c : Cycle) : Prop where
  kept : c.Kept
  view_eq : c.view = view
  marks : ∀ name, name ∈ c.marks ↔ name ∈ view.model.names

theorem belongs_new (view : View) (t : ValuationTime) : (Cycle.new view t).Belongs view := by
  have hfold : ∀ (names : List String) (m : ExtTreeMap String NodeMarks) (name : String),
      name ∈ names.foldl (fun m name => m.insert name NodeMarks.empty) m ↔
        name ∈ names ∨ name ∈ m := by
    intro names
    induction names with
    | nil => simp
    | cons first names ih =>
        intro m name
        rw [List.foldl_cons, ih, mem_insert_iff, List.mem_cons, or_left_comm, or_assoc]
  exact ⟨kept_new view t, rfl, fun name => (hfold _ _ name).trans (or_iff_left (by simp))⟩

theorem marks_setMarks_of_ne {name other : String} (m : NodeMarks) (h : other ≠ name) :
    (c.setMarks name m).marks[other]? = c.marks[other]? := by
  rw [setMarks, ExtTreeMap.getElem?_insert,
    if_neg fun he => h (LawfulEqOrd.eq_of_compare he).symm]

theorem Belongs.remarks (h : c.Belongs view) (hr : c.Remarks c')
    (hothers : ∀ name, name ∉ view.model.names → c'.marks[name]? = c.marks[name]?) :
    c'.Belongs view := by
  refine ⟨hr.kept h.kept, by rw [hr.cycle_eq]; exact h.view_eq, fun name => ?_⟩
  rw [← h.marks name, mem_iff_getElem?_eq_some, mem_iff_getElem?_eq_some]
  by_cases hn : name ∈ view.model.names
  · obtain ⟨m, hm⟩ := mem_iff_getElem?_eq_some.mp ((h.marks name).mpr hn)
    exact iff_of_true (hr.marks name m hm) ⟨m, hm⟩
  · rw [hothers name hn]

theorem Belongs.setMarks (h : c.Belongs view) {name : String} (hn : name ∈ view.model.names)
    (m : NodeMarks) : (c.setMarks name m).Belongs view := by
  refine h.remarks (c.remarks_setMarks name m) fun other ho => marks_setMarks_of_ne m ?_
  rintro rfl
  exact ho hn

theorem Belongs.of_mark (h : c.Belongs view) {name : String} {f : NodeMarks → NodeMarks}
    (hm : c.mark name f = .ok c') : c'.Belongs view := by
  unfold Cycle.mark at hm
  split at hm
  · next m hname =>
      obtain rfl := Except.ok.inj hm
      exact h.setMarks ((h.marks name).mp (mem_iff_getElem?_eq_some.mpr ⟨m, hname⟩)) _
  · simp at hm

theorem Belongs.of_executableGraph (h : c.Belongs view) {g rest : Graph}
    (hg : c.executableGraph g = .ok (c', rest)) : c'.Belongs view := by
  unfold Cycle.executableGraph at hg
  split at hg
  · next m hname =>
      obtain ⟨rfl, -⟩ := Prod.mk.inj (Except.ok.inj hg)
      exact h.setMarks ((h.marks _).mp (mem_iff_getElem?_eq_some.mpr ⟨m, hname⟩)) _
  · simp at hg

theorem Belongs.begin (h : c.Belongs view) (hp : c.permits .executePlans = true) :
    Belongs view { c with state := .executing } := by
  have hs : c.state = .inputsPrepared := List.mem_singleton.mp (state_of_permits hp)
  exact ⟨h.kept.executed (by simp [hs]) rfl rfl rfl (by simp), h.view_eq, h.marks⟩

theorem Belongs.computeDelta (h : c.Belongs view) (w : Workspace) (previous : Cycle) :
    (c.computeDelta w previous).cycle.Belongs view := by
  obtain rfl := h.view_eq
  unfold Cycle.computeDelta
  split
  · next hp =>
      split
      · obtain ⟨k, hready⟩ := h.kept.ready (List.mem_singleton.mp (state_of_permits hp))
        obtain ⟨-, hothers, -⟩ := carryAll_marks previous (w := w) c.view.model.nodup_map_fst
          (fun e he => ⟨_, hready.handle e he⟩)
          fun e he => hready.marked e.1 (EvaluationModel.name_mem he)
        rw [c.view.model.map_fst_toList] at hothers
        exact h.remarks (remarks_carryAll previous _ c w) hothers
      · exact h
  · exact h

theorem Belongs.execute (h : c.Belongs view) {b : Behaviour} (hb : b.Confined)
    {reply : Reply Unit} {report : ExecutionReport}
    (hx : c.execute w b = some (reply, report)) (name : String) :
    name ∈ reply.cycle.marks ↔ name ∈ view.model.names := by
  obtain rfl := h.view_eq
  by_cases hp : c.permits .executePlans = true
  · obtain ⟨k, hready⟩ := h.kept.ready (List.mem_singleton.mp (state_of_permits hp))
    obtain ⟨c', submitted, hsubmissions, hc', -, -, heq⟩ := hready.execute_eq w
    obtain ⟨c'', submitted', hsubmissions', -, -, hothers, -⟩ := submissions_eq
      { c with state := .executing } _ c.view.model.nodup_map_fst
      (fun e he => EvaluationModel.configuration_of_mem he) hready.handle
      fun e he => hready.marked _ (EvaluationModel.name_mem he)
    obtain ⟨rfl, -⟩ := Prod.mk.inj (hsubmissions.symm.trans hsubmissions')
    rw [c.view.model.map_fst_toList] at hothers
    have hremarks := remarks_submissions c.view.model.graphs.toList { c with state := .executing }
    rw [hsubmissions] at hremarks
    have hnames := ((h.begin hp).remarks hremarks hothers).marks
    obtain ⟨-, hmarks, -⟩ := Execution.submitAll_frame w c'.marks
      (c.requests ⟨c.view.name, c.time, k⟩)
    have hmarked : (Execution.submitAll w c'.marks
        (c.requests ⟨c.view.name, c.time, k⟩)).Marked := by
      intro name hrun
      obtain ⟨run, hrun⟩ := mem_iff_getElem?_eq_some.mp hrun
      rw [Execution.runs_submitAll _ _ _
        (by rw [map_configuration_requests]; exact c.view.model.nodup_names)] at hrun
      obtain ⟨q, hq, rfl, -⟩ := hrun
      rw [hmarks, hnames, ← map_configuration_requests c ⟨c.view.name, c.time, k⟩]
      exact List.mem_map_of_mem hq
    rw [heq] at hx
    obtain ⟨r, hwait, hr⟩ := Option.map_eq_some_iff.mp hx
    obtain ⟨rfl, -⟩ := Prod.mk.inj hr
    refine (hb _ _ _ r hmarked hwait name).trans ?_
    rw [hmarks]
    exact hnames name
  · rw [Cycle.execute, if_neg hp] at hx
    obtain ⟨rfl, -⟩ := Prod.mk.inj (Option.some.inj hx)
    exact h.marks name

theorem Belongs.call (h : c.Belongs view) {call : CycleCall} {reply : Reply Unit}
    (hb : ∀ b, call = .executePlans b → b.Confined) (hr : c.call? w call = some reply) :
    reply.cycle.Belongs view := by
  refine ⟨(h.kept.call hr).1, (h.kept.leaves hr).view_eq.trans h.view_eq, fun name => ?_⟩
  cases call with
  | prepareInputs =>
      obtain rfl := Option.some.inj hr
      by_cases hp : c.permits .prepareInputs = true
      · have hs : c.state = .created := List.mem_singleton.mp (state_of_permits hp)
        obtain ⟨c', w', hprepare, hc'⟩ := prepare_created hs (h.kept.fresh hs) w
        rw [hprepare, Reply.plain, hc'.cycle_eq]
        exact h.marks name
      · rw [Cycle.prepare, if_neg hp]
        exact h.marks name
  | computeDelta previous =>
      obtain rfl := Option.some.inj hr
      exact (h.computeDelta w previous).marks name
  | executePlans b =>
      obtain ⟨⟨reply', report⟩, hx, rfl⟩ := Option.map_eq_some_iff.mp hr
      exact h.execute (hb b rfl) hx name
  | populateResult moment =>
      obtain rfl := Option.some.inj hr
      unfold Cycle.populate
      split
      · split <;> exact h.marks name
      · exact h.marks name
  | releaseResources =>
      obtain rfl := Option.some.inj hr
      unfold Cycle.release
      split <;> exact h.marks name

theorem Belongs.deed (h : c.Belongs view) (hd : Deed c c') : c'.Belongs view := by
  cases hd with
  | interrupt => exact ⟨h.kept.interrupt, h.view_eq, h.marks⟩
  | mark hm => exact h.of_mark hm
  | executableGraph hg => exact h.of_executableGraph hg
  | begin hp => exact h.begin hp
  | call hb hr => exact h.call hb hr

theorem Reached.belongs (h : Reached view t c) : c.Belongs view := by
  induction h with
  | refl => exact belongs_new view t
  | tail _ hd ih => exact ih.deed hd

section
variable {g : Graph} {m : NodeMarks}

theorem setMarks_eq_self {name : String} (hm : c.marks[name]? = some m) :
    c.setMarks name m = c := by
  have hmarks : c.marks.insert name m = c.marks := by
    refine ExtTreeMap.ext_getElem? fun other => ?_
    rw [ExtTreeMap.getElem?_insert]
    split
    · next he => rw [← LawfulEqOrd.eq_of_compare he, hm]
    · rfl
  rw [setMarks, hmarks]

/-- The part of a graph whose nodes are not live and have no executed mark. -/
def remaining (c : Cycle) (g : Graph) : Graph :=
  g.extract fun n => !n.isLive && !c.isExecuted g.configuration (some n)

theorem executableGraph_of_marks (hm : c.marks[g.configuration]? = some m) :
    c.executableGraph g =
      .ok (c.setMarks g.configuration (m.markLive g), c.remaining g) := by
  have hrest : (g.extract fun n => !(m.markLive g).isExecuted n) = c.remaining g := by
    refine Graph.extract_congr fun n hn => ?_
    have hmarked : (m.markLive g).isExecuted (some n) =
        (m.isExecuted (some n) || n.isLive) := by
      rw [Bool.eq_iff_iff]
      simp [NodeMarks.isExecuted, NodeMarks.mem_executed_markLive, hn]
    rw [hmarked, Bool.not_or, Bool.and_comm, isExecuted, hm, Option.getD_some]
  rw [executableGraph, hm, ← hrest]

/-- If the live data sourcing nodes are marked, asking what is left changes nothing. -/
theorem executableGraph_of_live_executed (hm : c.marks[g.configuration]? = some m)
    (h : ∀ n ∈ g.nodes, n.isLive = true → n ∈ m.executed) :
    c.executableGraph g = .ok (c, c.remaining g) := by
  rw [executableGraph_of_marks hm, NodeMarks.markLive_eq_self h, setMarks_eq_self hm]

theorem remaining_remaining {c₁ : Cycle}
    (h : ∀ n, c.isExecuted g.configuration (some n) = true →
      c₁.isExecuted g.configuration (some n) = true) :
    c₁.remaining (c.remaining g) = c₁.remaining g := by
  have hconfiguration : (c.remaining g).configuration = g.configuration :=
    Graph.configuration_extract g _
  rw [remaining, hconfiguration, remaining, Graph.extract_extract, remaining]
  refine Graph.extract_congr fun n _ => ?_
  have := h n
  cases n.isLive <;> cases hc : c.isExecuted g.configuration (some n) <;> simp_all

structure Asked (c : Cycle) (g : Graph) (c' : Cycle) : Prop where
  cycle_eq : c' = { c with marks := c'.marks }
  executed_iff : ∀ n : Node, c'.isExecuted g.configuration (some n) = true ↔
    c.isExecuted g.configuration (some n) = true ∨ n ∈ g.nodes ∧ n.isLive = true
  failed_eq : ∀ name : String,
    c'.marks[name]?.map NodeMarks.failed = c.marks[name]?.map NodeMarks.failed
  others_eq : ∀ name : String, name ≠ g.configuration → c'.marks[name]? = c.marks[name]?

theorem asked_setMarks (hm : c.marks[g.configuration]? = some m) :
    c.Asked g (c.setMarks g.configuration (m.markLive g)) := by
  have hself : (c.setMarks g.configuration (m.markLive g)).marks[g.configuration]? =
      some (m.markLive g) := ExtTreeMap.getElem?_insert_self
  refine ⟨rfl, fun n => ?_, fun name => ?_, fun name => marks_setMarks_of_ne _⟩
  · rw [isExecuted_iff, isExecuted_iff, executed, executed, hself, hm]
    exact NodeMarks.mem_executed_markLive
  · by_cases hn : name = g.configuration
    · subst hn
      rw [hself, hm, Option.map_some, Option.map_some, NodeMarks.failed_markLive]
    · rw [marks_setMarks_of_ne _ hn]

theorem Asked.again (h : c.Asked g c') (hm : c'.marks[g.configuration]? = some m) :
    c'.executableGraph g = .ok (c', c.remaining g) ∧
      c'.executableGraph (c.remaining g) = .ok (c', c.remaining g) := by
  have hconfiguration : (c.remaining g).configuration = g.configuration :=
    Graph.configuration_extract g _
  have hlive : ∀ n ∈ g.nodes, n.isLive = true → n ∈ m.executed := by
    intro n hn hl
    have hexecuted := isExecuted_iff.mp ((h.executed_iff n).mpr (.inr ⟨hn, hl⟩))
    rwa [executed, hm] at hexecuted
  have hrest : c'.remaining g = c.remaining g := by
    refine Graph.extract_congr fun n hn => ?_
    have hexecuted := h.executed_iff n
    cases hl : n.isLive with
    | true => rfl
    | false =>
        have he : c'.isExecuted g.configuration (some n) =
            c.isExecuted g.configuration (some n) := by
          rw [Bool.eq_iff_iff, hexecuted, hl]
          simp
        rw [he]
  have hliveRest : ∀ n ∈ (c.remaining g).nodes, n.isLive = true → n ∈ m.executed :=
    fun n hn hl => hlive n (Graph.mem_nodes_extract.mp hn).1 hl
  have hagain := executableGraph_of_live_executed (g := c.remaining g) (hconfiguration ▸ hm)
    hliveRest
  rw [remaining_remaining fun n hn => (h.executed_iff n).mpr (.inl hn), hrest] at hagain
  exact ⟨hrest ▸ executableGraph_of_live_executed hm hlive, hagain⟩

theorem Reached.exists_marks (h : Reached view t c) {name : String}
    (hn : name ∈ view.model.names) : ∃ m, c.marks[name]? = some m :=
  mem_iff_getElem?_eq_some.mp ((h.belongs.marks name).mpr hn)

theorem Reached.executableGraph (h : Reached view t c)
    (hn : g.configuration ∈ view.model.names) :
    ∃ c', c.executableGraph g = .ok (c', c.remaining g) ∧ c.Asked g c' := by
  obtain ⟨m, hm⟩ := h.exists_marks hn
  exact ⟨_, executableGraph_of_marks hm, asked_setMarks hm⟩

theorem isExecuted_of_markFailed {name : String} {n : Option Node}
    (h : c.markFailed name n = .ok c') (other : String) (k : Option Node) :
    c'.isExecuted other k = c.isExecuted other k := by
  unfold markFailed mark at h
  split at h
  · next m hm =>
      obtain rfl := Except.ok.inj h
      have hexecuted : (m.markFailed n).executed = m.executed := by cases n <;> rfl
      have hmarked : ∀ k, (m.markFailed n).isExecuted k = m.isExecuted k := fun k => by
        cases k with
        | none => rfl
        | some k => rw [NodeMarks.isExecuted, NodeMarks.isExecuted, hexecuted]
      rw [isExecuted, isExecuted, setMarks, ExtTreeMap.getElem?_insert]
      split
      · next he =>
          rw [← LawfulEqOrd.eq_of_compare he, hm, Option.getD_some, Option.getD_some, hmarked]
      · rfl
  · simp at h

/-- Whatever was done to a cycle, and whether a graph is of its view or not: if the view has the
configuration of the graph, what is left of the graph are, in their order, the nodes that neither
are live nor were marked executed, with the terminal outputs that they have, be they marked failed
or not. Asking marks executed the live data sourcing nodes of the graph and changes nothing else;
asked again, about the graph or about what is left of it, the cycle stays and answers the same.
The more was marked executed, the less is left. If the view does not have the configuration, the
answer is that it is unknown. -/
theorem executableGraph_leaves_unmarked (h : Reached view t c) (g : Graph) :
    (g.configuration ∈ view.model.names → ∃ c' rest,
      c.executableGraph g = .ok (c', rest) ∧ c.Asked g c' ∧
      (rest.nodes = g.nodes.filter fun n =>
        !n.isLive && !c.isExecuted g.configuration (some n)) ∧
      (∀ s, s ∈ rest.terminal ↔ s ∈ g.terminal ∧ ∃ n ∈ rest.nodes, s ∈ n.outputs) ∧
      c'.executableGraph g = .ok (c', rest) ∧ c'.executableGraph rest = .ok (c', rest) ∧
      (∀ n c₁, c.markFailed g.configuration n = .ok c₁ →
        ∃ c₁', c₁.executableGraph g = .ok (c₁', rest)) ∧
      ∀ c₁, Reached view t c₁ →
        (∀ n, c.isExecuted g.configuration (some n) = true →
          c₁.isExecuted g.configuration (some n) = true) →
        ∃ c₁' rest₁, c₁.executableGraph g = .ok (c₁', rest₁) ∧
          rest₁.nodes.Sublist rest.nodes ∧ ∀ s ∈ rest₁.terminal, s ∈ rest.terminal) ∧
    (g.configuration ∉ view.model.names →
      c.executableGraph g = .error (.unknownConfiguration g.configuration)) := by
  refine ⟨fun hn => ?_, fun hn => ?_⟩
  · obtain ⟨c', hasked, hc'⟩ := h.executableGraph hn
    obtain ⟨m, hm⟩ := (h.deed (.executableGraph hasked)).exists_marks hn
    obtain ⟨hagain, hrest⟩ := hc'.again hm
    refine ⟨c', c.remaining g, hasked, hc', g.nodes_extract _, fun s => Graph.mem_terminal_extract,
      hagain, hrest, fun n c₁ hfailed => ?_, fun c₁ h₁ hmore => ?_⟩
    · obtain ⟨c₁', hasked₁, -⟩ := (h.deed (.mark hfailed)).executableGraph hn
      have hsame : c₁.remaining g = c.remaining g :=
        Graph.extract_congr fun k _ => by rw [isExecuted_of_markFailed hfailed]
      exact ⟨c₁', hsame ▸ hasked₁⟩
    · obtain ⟨c₁', hasked₁, -⟩ := h₁.executableGraph hn
      rw [← remaining_remaining hmore] at hasked₁
      refine ⟨c₁', _, hasked₁, ?_, fun s hs => (Graph.mem_terminal_extract.mp hs).1⟩
      rw [remaining, Graph.nodes_extract]
      exact List.filter_sublist
  · have hnone : c.marks[g.configuration]? = none :=
      ExtTreeMap.getElem?_eq_none fun hm => hn ((h.belongs.marks _).mp hm)
    rw [Cycle.executableGraph, hnone]

end

namespace Sample
open Graph.Sample

/-- A graph that is not of the view, with a node that loads and two that are computed. -/
def foreign : Graph := graph "Market" [loading, added, pricing "first"]

/-- A cycle has finished, and of two nodes then one is marked executed and one failed. -/
theorem exists_marked : ∃ c, Reached early ⟨1⟩ c ∧
    c.isExecuted "Market" (some added) = true ∧
    c.isFailed "Market" (some (pricing "first")) = true ∧
    foreign.nodes.filter (fun n => !n.isLive && !c.isExecuted "Market" (some n)) =
      [pricing "first"] := by
  obtain ⟨reply, report, hfinishing, -, -, -, hmarks⟩ := exists_finishing
  have hprepare : (Cycle.new early ⟨1⟩).call? (.new .empty .missing) .prepareInputs =
      some (prepared early ⟨1⟩ (.new .empty .missing)).plain := rfl
  have hexecute : (prepared early ⟨1⟩ (.new .empty .missing)).cycle.call?
      (prepared early ⟨1⟩ (.new .empty .missing)).workspace
      (.executePlans (.row [("Market", .finish)])) = some reply :=
    congrArg (Option.map Prod.fst) hfinishing
  have hfinished : Reached early ⟨1⟩ reply.cycle := by
    refine Reached.deed (.single (.call (by simp) hprepare)) (.call ?_ hexecute)
    rintro b hb
    obtain rfl := CycleCall.executePlans.inj hb
    exact (Behaviour.local_row _).confined
  have hexecuted : reply.cycle.markExecuted "Market" (some added) =
      .ok (reply.cycle.setMarks "Market" ⟨[added, loading], []⟩) := by
    rw [markExecuted, mark, hmarks]
    rfl
  have hfailed : (reply.cycle.setMarks "Market" ⟨[added, loading], []⟩).markFailed "Market"
      (some (pricing "first")) =
        .ok ((reply.cycle.setMarks "Market" ⟨[added, loading], []⟩).setMarks "Market"
          ⟨[added, loading], [pricing "first"]⟩) := by
    rw [markFailed, mark, setMarks, ExtTreeMap.getElem?_insert_self]
    rfl
  refine ⟨_, (hfinished.deed (.mark hexecuted)).deed (.mark hfailed), ?_, ?_, ?_⟩
  · rw [isExecuted, setMarks, ExtTreeMap.getElem?_insert_self]
    decide +kernel
  · rw [isFailed, setMarks, ExtTreeMap.getElem?_insert_self]
    decide +kernel
  · simp only [isExecuted, setMarks, ExtTreeMap.getElem?_insert_self]
    decide +kernel

end Sample
open Cycle.Sample Graph.Sample

/-- Of a graph that the view does not have the failed node is left, and nothing of a graph of a
configuration that it does not have. -/
theorem failed_node_is_left : ∃ c c' rest, Reached early ⟨1⟩ c ∧
    c.isExecuted "Market" (some added) = true ∧
    c.isFailed "Market" (some (pricing "first")) = true ∧
    c.executableGraph foreign = .ok (c', rest) ∧ rest.nodes = [pricing "first"] ∧
    c'.isExecuted "Market" (some loading) = true ∧
    c'.executableGraph rest = .ok (c', rest) ∧
    c.executableGraph (graph "Elsewhere" [added]) =
      .error (.unknownConfiguration "Elsewhere") := by
  obtain ⟨c, hc, hexecuted, hfailed, hnodes⟩ := exists_marked
  obtain ⟨c', rest, hasked, hc', hrest, -, -, hagain, -⟩ :=
    (executableGraph_leaves_unmarked hc foreign).1 market_mem_names.2
  have hunknown := (executableGraph_leaves_unmarked hc (graph "Elsewhere" [added])).2
    (by decide +kernel)
  exact ⟨c, c', rest, hc, hexecuted, hfailed, hasked, hrest.trans hnodes,
    (hc'.executed_iff loading).mpr (.inr (by decide +kernel)), hagain, hunknown⟩

end Cycle
end ValuationCycle
