import ValuationCycle.Proofs.Cycle.Carrying
import ValuationCycle.Proofs.Execution.Settled
import ValuationCycle.Proofs.Graph.Extract

/-!
# Reuse

Executing what was not taken over leads to the cache that executing everything
leads to exactly if what was taken over is up to date: the shared values are
those just loaded, and each node taken over, invoked on what is now under its
inputs, answers what the cache has under its outputs. Values that no node taken
over takes in may change freely; those that its graph does not produce may not.
-/
namespace ValuationCycle
open Json Std

def Graph.Answering (g : Graph) (answers : List (Node × Answer)) (p : Node → Prop) : Prop :=
  ∀ n, (∃ a, (n, a) ∈ answers) ↔ n ∈ g.nodes ∧ n.isLive = false ∧ p n

def Node.Feeds (m n : Node) : Prop := ∃ s ∈ n.inputs, s ∉ n.outputs ∧ s ∈ m.outputs

theorem Graph.Edge.feeds {g : Graph} {i j : Nat} (h : g.Edge i j) (hc : g.Consistent)
    (hd : g.Disjoint) {n : Node} (hn : g.nodes[i]? = some n) :
    ∃ m, g.nodes[j]? = some m ∧ m.Feeds n := by
  obtain ⟨n', hn', hne, s, hs, hp⟩ := edge_iff.mp h
  obtain rfl := Option.some.inj (hn.symm.trans hn')
  obtain ⟨m, hm, hsm⟩ := ((hc.producer?_iff s j).mp hp).1
  exact ⟨m, hm, s, hs, fun hsn => hne (hd.eq_of_mem hm hn hsm hsn), hsm⟩

theorem Graph.Answering.apart {g : Graph} {answers : List (Node × Answer)} {p : Node → Prop}
    (h : g.Answering answers p) : ∀ o ∈ answers, o.1 ∈ g.nodes ∧ p o.1 := by
  rintro ⟨n, a⟩ ho
  obtain ⟨hn, -, hp⟩ := (h n).mp ⟨a, ho⟩
  exact ⟨hn, hp⟩

/-- What was taken over is what there would be without. -/
structure UpToDate (r : Repository) (taken : List Node) (loaded carried : Cache) : Prop where
  shared_eq : carried.sharedPart = loaded.sharedPart
  answers : ∀ n ∈ taken, n.isLive = false → ∀ s ∈ n.outputs,
    carried.privatePart[s]? = (n.answer r (n.look loaded carried)).value? s

section
variable {g : Graph} {r : Repository} {taken : List Node}
variable {previous loaded carried after full : Cache}
variable {answers all : List (Node × Answer)}

namespace TakenOver

theorem nil (g : Graph) (previous c : Cache) : TakenOver g [] previous c c :=
  ⟨List.nil_subset _, by simp, fun s => by simp⟩

theorem mem_of_feeds (h : TakenOver g taken previous loaded carried) (hs : g.Sound r)
    {n m : Node} (hn : n ∈ taken) (hl : n.isLive = false) (hm : m ∈ g.nodes) (hf : m.Feeds n) :
    m ∈ taken := by
  obtain ⟨s, hsn, hso, hsm⟩ := hf
  obtain ⟨i, hi⟩ := List.mem_iff_getElem?.mp (h.subset hn)
  obtain ⟨j, hj⟩ := List.mem_iff_getElem?.mp hm
  exact h.closed i n hi hn hl j m
    (hs.built.consistent.edge_of_mem hs.disjoint hi hj hsn hsm hso) hj

theorem isPrivate_iff (h : TakenOver g taken previous loaded carried) (hs : g.Sound r)
    {s : Specification} :
    ((CacheHint.ofGraph g).isPrivate s = true ∧ ∃ n ∈ taken, s ∈ n.outputs) ↔
      ∃ n ∈ taken, n.isLive = false ∧ s ∈ n.outputs := by
  rw [CacheHint.isPrivate_ofGraph]
  constructor
  · rintro ⟨⟨m, hm, hl, hsm⟩, n, hn, hsn⟩
    obtain rfl := hs.disjoint.eq_of_mem_nodes hm (h.subset hn) hsm hsn
    exact ⟨m, hn, hl, hsn⟩
  · rintro ⟨n, hn, hl, hsn⟩
    exact ⟨⟨n, h.subset hn, hl, hsn⟩, n, hn, hsn⟩

/-- What stays out of reach of the nodes executed: they produce neither what was taken
over nor what it was computed from. -/
theorem apart (h : TakenOver g taken previous loaded carried) (hs : g.Sound r)
    (ho : ∀ o ∈ answers, o.1 ∈ g.nodes ∧ o.1 ∉ taken) {n : Node} (hn : n ∈ taken)
    (hl : n.isLive = false) {s : Specification}
    (hsn : s ∈ n.outputs ∨ s ∈ n.inputs ∧ s ∉ n.outputs) :
    ∀ o ∈ answers, s ∉ o.1.outputs := by
  rintro o hm hsm
  obtain ⟨hmg, hmt⟩ := ho o hm
  rcases hsn with hsn | ⟨hsn, hso⟩
  · obtain hno := hs.disjoint.eq_of_mem_nodes (h.subset hn) hmg hsn hsm
    exact hmt (hno ▸ hn)
  · exact hmt (h.mem_of_feeds hs hn hl hmg ⟨s, hsn, hso, hsm⟩)

end TakenOver

def Graph.computed (g : Graph) : Graph := g.extract fun n => !n.isLive

theorem Graph.mem_nodes_computed {n : Node} :
    n ∈ g.computed.nodes ↔ n ∈ g.nodes ∧ n.isLive = false := by
  rw [computed, mem_nodes_extract, Bool.not_eq_true']

theorem Graph.Sound.computed (hs : g.Sound r) :
    g.computed.Consistent ∧ g.computed.Disjoint ∧ g.computed.Acyclic :=
  ⟨(hs.built.extract _).consistent, hs.disjoint.extract _ hs.built,
    hs.acyclic.extract _ hs.built hs.disjoint⟩

theorem Graph.Sound.feeds_of_edge (hs : g.Sound r) {i j : Nat} {n : Node}
    (he : g.computed.Edge i j) (hn : g.computed.nodes[i]? = some n) :
    ∃ m, g.computed.nodes[j]? = some m ∧ m ∈ g.nodes ∧ m.isLive = false ∧ m.Feeds n := by
  obtain ⟨hc, hd, -⟩ := hs.computed
  obtain ⟨m, hm, hf⟩ := he.feeds hc hd hn
  obtain ⟨hmem, hlive⟩ := Graph.mem_nodes_computed.mp (List.mem_of_getElem? hm)
  exact ⟨m, hm, hmem, hlive, hf⟩

theorem Graph.Answering.mem_nodes_computed {p : Node → Prop} (h : g.Answering answers p) :
    ∀ o ∈ answers, o.1 ∈ g.computed.nodes := by
  rintro ⟨n, a⟩ hn
  obtain ⟨hmem, hlive, -⟩ := (h n).mp ⟨a, hn⟩
  exact Graph.mem_nodes_computed.mpr ⟨hmem, hlive⟩

theorem Graph.Answering.covered_computed (h : g.Answering answers fun _ => True) :
    g.computed.Covered answers := by
  intro n hn
  obtain ⟨hmem, hlive⟩ := Graph.mem_nodes_computed.mp hn
  exact (h n).mpr ⟨hmem, hlive, trivial⟩

/-- When all nodes that are not live have answered there is only one cache. -/
theorem Settled.unique_of_answering (hs : g.Sound r) (h : Settled r loaded answers after)
    (h' : Settled r loaded all full) (ho : g.Answering answers fun _ => True)
    (ho' : g.Answering all fun _ => True) : after = full := by
  obtain ⟨hc, hd, hacyclic⟩ := hs.computed
  exact Settled.unique hc hd hacyclic h h' ho.mem_nodes_computed ho'.mem_nodes_computed
    ho.covered_computed ho'.covered_computed

/-- The answers that the nodes taken over stand for. -/
def takenAnswers (r : Repository) (taken : List Node) (loaded carried : Cache) :
    List (Node × Answer) :=
  (taken.filter fun n => !n.isLive).map fun n => (n, n.answer r (n.look loaded carried))

theorem mem_takenAnswers {n : Node} {a : Answer} : (n, a) ∈ takenAnswers r taken loaded carried ↔
    n ∈ taken ∧ n.isLive = false ∧ a = n.answer r (n.look loaded carried) := by
  simp only [takenAnswers, List.mem_map, List.mem_filter, Bool.not_eq_true', Prod.mk.injEq]
  constructor
  · rintro ⟨m, ⟨hm, hl⟩, rfl, rfl⟩
    exact ⟨hm, hl, rfl⟩
  · rintro ⟨hn, hl, rfl⟩
    exact ⟨n, ⟨hn, hl⟩, rfl, rfl⟩

namespace UpToDate
variable {now : Cache} {part : List (Node × Answer)}

theorem settled (hu : UpToDate r taken loaded carried) (hs : g.Sound r)
    (h : TakenOver g taken previous loaded carried)
    (hempty : ∀ s : Specification, loaded.privatePart[s]? = none) :
    Settled r loaded (takenAnswers r taken loaded carried) carried := by
  refine ⟨hu.shared_eq, fun s hso => (h.private_eq s).2 fun hc => ?_, fun o ho s hso => ?_,
    fun o ho => ?_⟩
  · obtain ⟨n, hn, hl, hsn⟩ := (h.isPrivate_iff hs).mp hc
    exact hso (n, _) (mem_takenAnswers.mpr ⟨hn, hl, rfl⟩) hsn
  · obtain ⟨hn, hl, ha⟩ := mem_takenAnswers.mp ho
    rw [hempty, Option.or_none, ha]
    exact hu.answers o.1 hn hl s hso
  · exact (mem_takenAnswers.mp ho).2.2

theorem settled_append (hu : UpToDate r taken loaded carried) (hs : g.Sound r)
    (h : TakenOver g taken previous loaded carried)
    (hempty : ∀ s : Specification, loaded.privatePart[s]? = none)
    (hnow : Settled r carried part now) (ho : ∀ o ∈ part, o.1 ∈ g.nodes ∧ o.1 ∉ taken) :
    Settled r loaded (takenAnswers r taken loaded carried ++ part) now := by
  refine (hu.settled hs h hempty).trans hnow ?_ ?_
  · rintro ⟨n, a⟩ hm o hm' s hso
    obtain ⟨hn, hl, -⟩ := mem_takenAnswers.mp hm
    exact h.apart hs ho hn hl (.inl hso) o hm'
  · rintro ⟨n, a⟩ hm o hm' s hsi hso
    obtain ⟨hn, hl, -⟩ := mem_takenAnswers.mp hm
    exact h.apart hs ho hn hl (.inr ⟨hsi, hso⟩) o hm'

theorem settled_all (hu : UpToDate r taken loaded carried) (hs : g.Sound r)
    (h : TakenOver g taken previous loaded carried)
    (hempty : ∀ s : Specification, loaded.privatePart[s]? = none)
    (hafter : Settled r carried answers after) (ho : g.Answering answers (· ∉ taken)) :
    ∃ all, Settled r loaded all after ∧ g.Answering all fun _ => True := by
  refine ⟨_, hu.settled_append hs h hempty hafter ho.apart, fun n => ⟨?_, ?_⟩⟩
  · rintro ⟨a, ha⟩
    rcases List.mem_append.mp ha with ha | ha
    · obtain ⟨hn, hl, -⟩ := mem_takenAnswers.mp ha
      exact ⟨h.subset hn, hl, trivial⟩
    · obtain ⟨hmem, hlive, -⟩ := (ho n).mp ⟨a, ha⟩
      exact ⟨hmem, hlive, trivial⟩
  · rintro ⟨hmem, hlive, -⟩
    by_cases hn : n ∈ taken
    · exact ⟨_, List.mem_append_left _ (mem_takenAnswers.mpr ⟨hn, hlive, rfl⟩)⟩
    · obtain ⟨a, ha⟩ := (ho n).mpr ⟨hmem, hlive, hn⟩
      exact ⟨a, List.mem_append_right _ ha⟩

theorem exists_answer (carried : Cache) {m : Node} (hl : m.isLive = false)
    (hm : m ∉ taken → ∃ a, (m, a) ∈ part) :
    ∃ a, (m, a) ∈ takenAnswers r taken loaded carried ++ part := by
  by_cases hmt : m ∈ taken
  · exact ⟨_, List.mem_append_left _ (mem_takenAnswers.mpr ⟨hmt, hl, rfl⟩)⟩
  · obtain ⟨a, ha⟩ := hm hmt
    exact ⟨a, List.mem_append_right _ ha⟩

theorem mem_nodes_computed (h : TakenOver g taken previous loaded carried)
    (hpart : ∀ o ∈ part, o.1 ∈ g.nodes ∧ o.1.isLive = false ∧ o.1 ∉ taken) :
    ∀ o ∈ takenAnswers r taken loaded carried ++ part, o.1 ∈ g.computed.nodes := by
  rintro ⟨m, a⟩ hm
  rw [Graph.mem_nodes_computed]
  rcases List.mem_append.mp hm with hm | hm
  · obtain ⟨hmt, hl, -⟩ := mem_takenAnswers.mp hm
    exact ⟨h.subset hmt, hl⟩
  · exact ⟨(hpart _ hm).1, (hpart _ hm).2.1⟩

theorem backed (hs : g.Sound r) (h : TakenOver g taken previous loaded carried)
    (hbacked : ∀ o ∈ part, ∀ m ∈ g.nodes, m.isLive = false → m ∉ taken → m.Feeds o.1 →
      ∃ a, (m, a) ∈ part) :
    g.computed.Backed (takenAnswers r taken loaded carried ++ part) := by
  intro i k a hi hk j hj
  obtain ⟨m, hm, hmem, hl, hf⟩ := hs.feeds_of_edge hj hi
  have hanswered : m ∉ taken → ∃ b, (m, b) ∈ part := by
    intro hmt
    rcases List.mem_append.mp hk with hk | hk
    · obtain ⟨hkt, hlk, -⟩ := mem_takenAnswers.mp hk
      exact absurd (h.mem_of_feeds hs hkt hlk hmem hf) hmt
    · exact hbacked _ hk m hmem hl hmt hf
  obtain ⟨b, hb⟩ := exists_answer carried hl hanswered
  exact ⟨m, b, hm, hb⟩

/-- A node that was not taken over finds nothing under its own outputs that was. -/
theorem look_own (hu : UpToDate r taken loaded carried) (hs : g.Sound r)
    (h : TakenOver g taken previous loaded carried) {n : Node} (hn : n ∈ g.nodes)
    (hnt : n ∉ taken) (s : Specification) : n.look carried now s = n.look loaded now s := by
  unfold Node.look
  split
  · next hso =>
      refine Cache.get?_congr hu.shared_eq ((h.private_eq s).2 fun hcopied => ?_)
      obtain ⟨k, hk, -, hsk⟩ := (h.isPrivate_iff hs).mp hcopied
      obtain rfl := hs.disjoint.eq_of_mem_nodes hn (h.subset hk) hso hsk
      exact hnt hk
  · rfl

/-- While the other nodes are executed, a node whose inputs are there gets the answer that
it gets when all nodes are executed. -/
theorem answer_mem (hu : UpToDate r taken loaded carried) (hs : g.Sound r)
    (h : TakenOver g taken previous loaded carried)
    (hempty : ∀ s : Specification, loaded.privatePart[s]? = none)
    (hnow : Settled r carried part now)
    (hpart : ∀ o ∈ part, o.1 ∈ g.nodes ∧ o.1.isLive = false ∧ o.1 ∉ taken)
    (hbacked : ∀ o ∈ part, ∀ m ∈ g.nodes, m.isLive = false → m ∉ taken → m.Feeds o.1 →
      ∃ a, (m, a) ∈ part)
    (hfull : Settled r loaded all full) (ho : g.Answering all fun _ => True) {n : Node}
    (hn : n ∈ g.nodes) (hl : n.isLive = false) (hnt : n ∉ taken)
    (hfed : ∀ m ∈ g.nodes, m.isLive = false → m ∉ taken → m.Feeds n → ∃ a, (m, a) ∈ part) :
    (n, n.answer r (n.look carried now)) ∈ all := by
  obtain ⟨hc, hd, hacyclic⟩ := hs.computed
  have hsettled := hu.settled_append hs h hempty hnow fun o hm => ⟨(hpart o hm).1, (hpart o hm).2.2⟩
  have hmem := mem_nodes_computed (r := r) h hpart
  have hback := backed hs h hbacked
  have hsub := ho.mem_nodes_computed
  have hcovered := ho.covered_computed
  obtain ⟨i, hi⟩ := List.mem_iff_getElem?.mp (Graph.mem_nodes_computed.mpr ⟨hn, hl⟩)
  have hlook := Settled.look_congr hc hd hsettled hfull hmem hsub hi fun j hj => by
    obtain ⟨m, hm, hmg, hlm, hf⟩ := hs.feeds_of_edge hj hi
    obtain ⟨a, ha⟩ := exists_answer carried hlm fun hmt => hfed m hmg hlm hmt hf
    obtain ⟨b, hb⟩ := hcovered m (List.mem_of_getElem? hm)
    obtain rfl := Settled.agree hc hd hacyclic hsettled hfull hmem hsub hback
      (hcovered.backed hc) ha hb
    exact ⟨m, a, hm, ha, hb⟩
  obtain ⟨b, hb⟩ := (ho n).mpr ⟨hn, hl, trivial⟩
  have hanswer : b = n.answer r (n.look loaded full) := hfull.answered _ hb
  have hown : ∀ s ∈ n.inputs, n.look carried now s = n.look loaded now s := fun s _ =>
    hu.look_own hs h hn hnt s
  rwa [Node.answer_congr hown, Node.answer_congr hlook, ← hanswer]

end UpToDate

/-- Executing what was not taken over leads to where executing everything leads exactly if
what was taken over is up to date. -/
theorem after_eq_iff_upToDate (hs : g.Sound r) (h : TakenOver g taken previous loaded carried)
    (hempty : ∀ s : Specification, loaded.privatePart[s]? = none)
    (hafter : Settled r carried answers after) (ho : g.Answering answers (· ∉ taken))
    (hfull : Settled r loaded all full) (ho' : g.Answering all fun _ => True) :
    after = full ↔ UpToDate r taken loaded carried := by
  constructor
  · rintro rfl
    refine ⟨hafter.shared_eq.symm.trans hfull.shared_eq, fun n hn hl s hsn => ?_⟩
    obtain ⟨a, ha⟩ := (ho' n).mpr ⟨h.subset hn, hl, trivial⟩
    have hanswer : a = n.answer r (n.look loaded after) := hfull.answered _ ha
    have hlook : ∀ s ∈ n.inputs, n.look loaded after s = n.look loaded carried s := by
      intro s hsi
      unfold Node.look
      split
      · rfl
      · next hso =>
          exact Cache.get?_congr hafter.shared_eq
            (hafter.untouched s (h.apart hs ho.apart hn hl (.inr ⟨hsi, hso⟩)))
    calc carried.privatePart[s]?
      _ = after.privatePart[s]? := (hafter.untouched s (h.apart hs ho.apart hn hl (.inl hsn))).symm
      _ = a.value? s := by rw [hfull.written _ ha s hsn, hempty, Option.or_none]
      _ = (n.answer r (n.look loaded carried)).value? s := by
        rw [hanswer, Node.answer_congr hlook]
  · intro hu
    obtain ⟨answers', hanswers, hall⟩ := hu.settled_all hs h hempty hafter ho
    exact Settled.unique_of_answering hs hanswers hfull hall ho'

/-- No node taken over has lost sight of a change: what it exposes, and what it takes in
that its graph does not produce, is what it was, and nothing is loaded under what it
computes. -/
structure Undisturbed (g : Graph) (taken : List Node) (old new : Partition) : Prop where
  live : ∀ n ∈ taken, n.isLive = true → ∀ s ∈ n.outputs, new[s]? = old[s]?
  inputs : ∀ n ∈ taken, n.isLive = false → ∀ s ∈ n.inputs, (∀ m ∈ g.nodes, s ∉ m.outputs) →
    new[s]? = old[s]?
  outputs : ∀ n ∈ taken, n.isLive = false → ∀ s ∈ n.outputs, new[s]? = none ∧ old[s]? = none

theorem Undisturbed.look_eq {earlier : Cache}
    (hu : Undisturbed g taken previous.sharedPart loaded.sharedPart)
    (hs : g.Sound r) (h : TakenOver g taken previous loaded carried)
    (hshared : carried.sharedPart = loaded.sharedPart)
    (hempty : ∀ s : Specification, loaded.privatePart[s]? = none)
    (hempty' : ∀ s : Specification, earlier.privatePart[s]? = none)
    (hprevious : Settled r earlier all previous) (ho : g.Answering all fun _ => True) {n : Node}
    (hn : n ∈ taken) (hl : n.isLive = false) {s : Specification} (hsn : s ∈ n.inputs) :
    n.look earlier previous s = n.look loaded carried s := by
  have hnone : (∀ m ∈ g.nodes, m.isLive = false → s ∉ m.outputs) →
      previous.get? s = previous.sharedPart[s]? ∧ carried.get? s = loaded.sharedPart[s]? := by
    intro hp
    constructor
    · rw [Cache.get?, hprevious.untouched s fun o hm => ?_, hempty', Option.none_or]
      obtain ⟨hmem, hlive, -⟩ := (ho o.1).mp ⟨o.2, hm⟩
      exact hp _ hmem hlive
    · rw [Cache.get?, (h.private_eq s).2 fun hc => ?_, hempty, Option.none_or, hshared]
      obtain ⟨m, hm, hlive, hsm⟩ := (h.isPrivate_iff hs).mp hc
      exact hp m (h.subset hm) hlive hsm
  unfold Node.look
  split
  · next hso =>
      obtain ⟨hnew, hold⟩ := hu.outputs n hn hl s hso
      rw [Cache.get?, Cache.get?, hempty, hempty', ← hprevious.shared_eq, hnew, hold]
  · next hso =>
      by_cases hp : ∃ m ∈ g.nodes, s ∈ m.outputs
      · obtain ⟨m, hm, hsm⟩ := hp
        have hmt := h.mem_of_feeds hs hn hl hm ⟨s, hsn, hso, hsm⟩
        cases hlive : m.isLive with
        | true =>
            obtain ⟨hp, hc⟩ := hnone fun k hk hkl hsk => by
              obtain rfl := hs.disjoint.eq_of_mem_nodes hm hk hsm hsk
              simp [hlive] at hkl
            rw [hp, hc, hu.live m hmt hlive s hsm]
        | false =>
            have hcopied := (h.private_eq s).1 ((h.isPrivate_iff hs).mpr ⟨m, hmt, hlive, hsm⟩)
            have hget : carried.get? s = carried.privatePart[s]?.or carried.sharedPart[s]? := rfl
            rw [hget, hcopied, hempty, hshared, (hu.outputs m hmt hlive s hsm).1]
            simp
      · simp only [not_exists, not_and] at hp
        obtain ⟨hp', hc⟩ := hnone fun m hm _ => hp m hm
        rw [hp', hc, hu.inputs n hn hl s hsn hp]

theorem Undisturbed.upToDate {earlier : Cache}
    (hu : Undisturbed g taken previous.sharedPart loaded.sharedPart)
    (hs : g.Sound r) (h : TakenOver g taken previous loaded carried)
    (hshared : carried.sharedPart = loaded.sharedPart)
    (hempty : ∀ s : Specification, loaded.privatePart[s]? = none)
    (hempty' : ∀ s : Specification, earlier.privatePart[s]? = none)
    (hprevious : Settled r earlier all previous) (ho : g.Answering all fun _ => True) :
    UpToDate r taken loaded carried := by
  refine ⟨hshared, fun n hn hl s hso => ?_⟩
  obtain ⟨a, ha⟩ := (ho n).mpr ⟨h.subset hn, hl, trivial⟩
  have hanswer : a = n.answer r (n.look earlier previous) := hprevious.answered _ ha
  have hcopied := (h.private_eq s).1 ((h.isPrivate_iff hs).mpr ⟨n, hn, hl, hso⟩)
  calc carried.privatePart[s]?
    _ = previous.get? s := by rw [hcopied, hempty, Option.or_none]
    _ = previous.privatePart[s]? := by
      rw [Cache.get?, (hu.outputs n hn hl s hso).2, Option.or_none]
    _ = a.value? s := by rw [hprevious.written _ ha s hso, hempty', Option.or_none]
    _ = (n.answer r (n.look loaded carried)).value? s := by
      rw [hanswer, Node.answer_congr fun s hsn =>
        hu.look_eq hs h hshared hempty hempty' hprevious ho hn hl hsn]

end
end ValuationCycle
