import ValuationCycle.Proofs.Cache.Storing
import ValuationCycle.Proofs.Graph.Built
import ValuationCycle.Proofs.Job.Answers

/-!
# Settled caches

What a cache holds once some nodes have answered is tied to the answers from both
sides: under the outputs of a node stands what it returned, and a node answered
by what stands under its inputs. On an acyclic graph in which no output has two
producers there is only one way to tie the two, so the order in which nodes
answered cannot be told from the cache.
-/
namespace ValuationCycle
open Json Std

namespace Answer

def values : Answer → List ComputedValue
  | .ran (.returned values) => values
  | _ => []

def value? (a : Answer) (s : Specification) : Option Value := lastValue? a.values s

/-- Whether a run goes on with an answer. -/
def settles : Answer → Bool
  | .ran (.returned _) | .ran (.failed _) => true
  | _ => false

end Answer

theorem Node.Confined.mem_outputs {r : Repository} {n : Node} (hn : n.Confined r)
    {look : Specification → Option Value} {v : ComputedValue}
    (hv : v ∈ (n.answer r look).values) : v.specification ∈ n.outputs := by
  cases ha : n.answer r look with
  | unreadable e => simp [ha, Answer.values] at hv
  | ran outcome =>
      cases outcome with
      | returned values => exact hn look values ha v (by simpa [ha, Answer.values] using hv)
      | failed e => simp [ha, Answer.values] at hv
      | brokeDown => simp [ha, Answer.values] at hv

theorem Node.Confined.value?_eq_none {r : Repository} {n : Node} (hn : n.Confined r)
    {look : Specification → Option Value} {s : Specification} (hs : s ∉ n.outputs) :
    (n.answer r look).value? s = none :=
  lastValue?_eq_none fun _ hv he => hs (he ▸ hn.mem_outputs hv)

/-- What a node finds under its inputs. Under its own outputs nothing of its own is
there yet. -/
def Node.look (n : Node) (before after : Cache) (s : Specification) : Option Value :=
  if s ∈ n.outputs then before.get? s else after.get? s

/-- A cache after the answers of some nodes, and before any. -/
structure Settled (r : Repository) (before : Cache) (answers : List (Node × Answer))
    (after : Cache) : Prop where
  shared_eq : after.sharedPart = before.sharedPart
  untouched : ∀ s : Specification, (∀ o ∈ answers, s ∉ o.1.outputs) →
    after.privatePart[s]? = before.privatePart[s]?
  written : ∀ o ∈ answers, ∀ s ∈ o.1.outputs,
    after.privatePart[s]? = (o.2.value? s).or before.privatePart[s]?
  answered : ∀ o ∈ answers, o.2 = o.1.answer r (o.1.look before after)

theorem settled_nil (r : Repository) (c : Cache) : Settled r c [] c :=
  ⟨rfl, fun _ _ => rfl, by simp, by simp⟩

namespace Graph
variable {g : Graph}

theorem Disjoint.eq_of_mem (hd : g.Disjoint) {i j : Nat} {n m : Node} {s : Specification}
    (hn : g.nodes[i]? = some n) (hm : g.nodes[j]? = some m) (hsn : s ∈ n.outputs)
    (hsm : s ∈ m.outputs) : i = j := hd s i j ⟨n, hn, hsn⟩ ⟨m, hm, hsm⟩

theorem Disjoint.eq_of_mem_nodes (hd : g.Disjoint) {n m : Node} (hn : n ∈ g.nodes)
    (hm : m ∈ g.nodes) {s : Specification} (hs : s ∈ n.outputs) (hsm : s ∈ m.outputs) : n = m := by
  obtain ⟨i, hi⟩ := List.mem_iff_getElem?.mp hn
  obtain ⟨j, hj⟩ := List.mem_iff_getElem?.mp hm
  obtain rfl := hd.eq_of_mem hi hj hs hsm
  exact Option.some.inj (hi.symm.trans hj)

theorem Consistent.edge_of_mem (hc : g.Consistent) (hd : g.Disjoint) {i j : Nat} {n m : Node}
    {s : Specification} (hn : g.nodes[i]? = some n) (hm : g.nodes[j]? = some m)
    (hs : s ∈ n.inputs) (hsm : s ∈ m.outputs) (hsn : s ∉ n.outputs) : g.Edge i j := by
  refine edge_iff.mpr ⟨n, hn, ?_, s, hs, (hc.producer?_eq_some hd).mpr ⟨m, hm, hsm⟩⟩
  rintro rfl
  rw [hn, Option.some.injEq] at hm
  exact hsn (hm ▸ hsm)

/-- Along with a node, those that it takes inputs from have answered. -/
def Backed (g : Graph) (answers : List (Node × Answer)) : Prop :=
  ∀ i n a, g.nodes[i]? = some n → (n, a) ∈ answers →
    ∀ j, g.Edge i j → ∃ m b, g.nodes[j]? = some m ∧ (m, b) ∈ answers

def answersIn (g : Graph) (outcomes : List (Nat × Answer)) : List (Node × Answer) :=
  outcomes.filterMap fun o => g.nodes[o.1]?.map (·, o.2)

theorem mem_answersIn {outcomes : List (Nat × Answer)} {n : Node} {a : Answer} :
    (n, a) ∈ g.answersIn outcomes ↔ ∃ i, (i, a) ∈ outcomes ∧ g.nodes[i]? = some n := by
  simp only [answersIn, List.mem_filterMap, Option.map_eq_some_iff, Prod.mk.injEq, Prod.exists]
  constructor
  · rintro ⟨i, b, ho, m, hm, rfl, rfl⟩
    exact ⟨i, ho, hm⟩
  · rintro ⟨i, ho, hn⟩
    exact ⟨i, a, ho, n, hn, rfl, rfl⟩

theorem mem_nodes_of_mem_answersIn {outcomes : List (Nat × Answer)} :
    ∀ o ∈ g.answersIn outcomes, o.1 ∈ g.nodes := by
  rintro ⟨n, a⟩ ho
  obtain ⟨i, -, hn⟩ := mem_answersIn.mp ho
  exact List.mem_of_getElem? hn

theorem answersIn_concat {outcomes : List (Nat × Answer)} {i : Nat} {n : Node} (a : Answer)
    (hn : g.nodes[i]? = some n) :
    g.answersIn (outcomes ++ [(i, a)]) = g.answersIn outcomes ++ [(n, a)] := by
  simp [answersIn, List.filterMap_append, hn]

/-- A graph whose outputs have one producer each, and whose functions return values under
the outputs of their nodes. -/
structure Sound (g : Graph) (r : Repository) : Prop where
  built : g.Built
  acyclic : g.Acyclic
  disjoint : g.Disjoint
  confined : ∀ n ∈ g.nodes, n.isLive = false → n.Confined r

def Covered (g : Graph) (answers : List (Node × Answer)) : Prop :=
  ∀ n ∈ g.nodes, ∃ a, (n, a) ∈ answers

theorem Covered.backed (hc : g.Consistent) {answers : List (Node × Answer)}
    (h : g.Covered answers) : g.Backed answers := by
  intro i n a _ _ j hj
  have hm := List.getElem?_eq_getElem (hc.edge_lt hj)
  obtain ⟨b, hb⟩ := h _ (List.mem_of_getElem? hm)
  exact ⟨_, b, hm, hb⟩

end Graph

namespace Settled
variable {r : Repository} {before after after' : Cache} {answers answers' : List (Node × Answer)}
variable {g : Graph} {n : Node} {i : Nat}

theorem concat {a : Answer} (h : Settled r before answers after)
    (houtputs : ∀ o ∈ answers, ∀ s ∈ n.outputs, s ∉ o.1.outputs)
    (hinputs : ∀ o ∈ answers, ∀ s ∈ o.1.inputs, s ∉ o.1.outputs → s ∉ n.outputs)
    (ha : a = n.answer r (n.look before after)) (hn : n.Confined r)
    (hshared : after'.sharedPart = after.sharedPart)
    (hprivate : ∀ s : Specification,
      after'.privatePart[s]? = (a.value? s).or after.privatePart[s]?) :
    Settled r before (answers ++ [(n, a)]) after' := by
  have hsame : ∀ s : Specification, s ∉ n.outputs →
      after'.privatePart[s]? = after.privatePart[s]? := by
    intro s hs
    rw [hprivate, ha, hn.value?_eq_none hs, Option.none_or]
  have hget : ∀ s, s ∉ n.outputs → after'.get? s = after.get? s := fun s hs =>
    Cache.get?_congr hshared (hsame s hs)
  refine ⟨hshared.trans h.shared_eq, fun s hs => ?_, fun o ho s hs => ?_, fun o ho => ?_⟩
  · rw [hsame s (hs (n, a) (by simp)), h.untouched s fun o ho => hs o (by simp [ho])]
  · rcases List.mem_append.mp ho with ho | ho
    · rw [hsame s fun hsn => houtputs o ho s hsn hs, h.written o ho s hs]
    · obtain rfl := List.mem_singleton.mp ho
      rw [hprivate, h.untouched s fun o ho => houtputs o ho s hs]
  · rcases List.mem_append.mp ho with ho | ho
    · refine (h.answered o ho).trans (Node.answer_congr fun s hs => ?_)
      unfold Node.look
      split
      · rfl
      · next hso => rw [hget s (hinputs o ho s hs hso)]
    · obtain rfl := List.mem_singleton.mp ho
      refine ha.trans (Node.answer_congr fun s _ => ?_)
      unfold Node.look
      split
      · rfl
      · next hsn => rw [hget s hsn]

/-- Some nodes answer after others, and no input or output of those is an output of theirs. -/
theorem trans {middle : Cache} {earlier later : List (Node × Answer)}
    (h : Settled r before earlier middle) (h' : Settled r middle later after)
    (houtputs : ∀ o ∈ earlier, ∀ o' ∈ later, ∀ s ∈ o.1.outputs, s ∉ o'.1.outputs)
    (hinputs : ∀ o ∈ earlier, ∀ o' ∈ later, ∀ s ∈ o.1.inputs, s ∉ o.1.outputs → s ∉ o'.1.outputs) :
    Settled r before (earlier ++ later) after := by
  refine ⟨h'.shared_eq.trans h.shared_eq, fun s hs => ?_, fun o ho s hs => ?_, fun o ho => ?_⟩
  · rw [h'.untouched s fun o ho => hs o (List.mem_append_right _ ho),
      h.untouched s fun o ho => hs o (List.mem_append_left _ ho)]
  · rcases List.mem_append.mp ho with ho | ho
    · rw [h'.untouched s fun o' ho' => houtputs o ho o' ho' s hs, h.written o ho s hs]
    · rw [h'.written o ho s hs, h.untouched s fun o' ho' hso => houtputs o' ho' o ho s hso hs]
  · rcases List.mem_append.mp ho with ho | ho
    · refine (h.answered o ho).trans (Node.answer_congr fun s hs => ?_)
      unfold Node.look
      split
      · rfl
      · next hso =>
          exact Cache.get?_congr h'.shared_eq.symm
            (h'.untouched s fun o' ho' => hinputs o ho o' ho' s hs hso).symm
    · refine (h'.answered o ho).trans (Node.answer_congr fun s hs => ?_)
      unfold Node.look
      split
      · next hso =>
          exact Cache.get?_congr h.shared_eq
            (h.untouched s fun o' ho' hs' => houtputs o' ho' o ho s hs' hso)
      · rfl

/-- A node finds the same where the nodes that it takes inputs from have answered alike. -/
theorem look_congr (hc : g.Consistent) (hd : g.Disjoint)
    (h : Settled r before answers after) (h' : Settled r before answers' after')
    (hsub : ∀ o ∈ answers, o.1 ∈ g.nodes) (hsub' : ∀ o ∈ answers', o.1 ∈ g.nodes)
    (hn : g.nodes[i]? = some n)
    (hedge : ∀ j, g.Edge i j → ∃ m a, g.nodes[j]? = some m ∧ (m, a) ∈ answers ∧ (m, a) ∈ answers') :
    ∀ s ∈ n.inputs, n.look before after s = n.look before after' s := by
  intro s hs
  unfold Node.look
  split
  · rfl
  · next hsn =>
      refine Cache.get?_congr (h.shared_eq.trans h'.shared_eq.symm) ?_
      by_cases hp : ∃ m ∈ g.nodes, s ∈ m.outputs
      · obtain ⟨m, hm, hsm⟩ := hp
        obtain ⟨j, hj⟩ := List.mem_iff_getElem?.mp hm
        obtain ⟨m', a, hj', ha, ha'⟩ := hedge j (hc.edge_of_mem hd hn hj hs hsm hsn)
        obtain rfl := Option.some.inj (hj.symm.trans hj')
        rw [h.written _ ha s hsm, h'.written _ ha' s hsm]
      · rw [h.untouched s fun o ho hso => hp ⟨o.1, hsub o ho, hso⟩,
          h'.untouched s fun o ho hso => hp ⟨o.1, hsub' o ho, hso⟩]

theorem agree (hc : g.Consistent) (hd : g.Disjoint) (hacyclic : g.Acyclic)
    (h : Settled r before answers after) (h' : Settled r before answers' after')
    (hsub : ∀ o ∈ answers, o.1 ∈ g.nodes) (hsub' : ∀ o ∈ answers', o.1 ∈ g.nodes)
    (hbacked : g.Backed answers) (hbacked' : g.Backed answers') {a a' : Answer}
    (ha : (n, a) ∈ answers) (ha' : (n, a') ∈ answers') : a = a' := by
  obtain ⟨i, hn⟩ := List.mem_iff_getElem?.mp (hsub _ ha)
  have hi : i < g.size := (List.getElem?_eq_some_iff.mp hn).choose
  refine Graph.Grounded.induction hc
    (p := fun i => ∀ n a a', g.nodes[i]? = some n → (n, a) ∈ answers → (n, a') ∈ answers' → a = a')
    ?_ hi (hacyclic.grounded i) n a a' hn ha ha'
  intro i _ _ ih n a a' hn ha ha'
  have hlook := look_congr hc hd h h' hsub hsub' hn fun j hj => by
    obtain ⟨m, b, hm, hb⟩ := hbacked i n a hn ha j hj
    obtain ⟨m', b', hm', hb'⟩ := hbacked' i n a' hn ha' j hj
    obtain rfl := Option.some.inj (hm.symm.trans hm')
    obtain rfl := ih j hj m b b' hm hb hb'
    exact ⟨m, b, hm, hb, hb'⟩
  calc
    a = n.answer r (n.look before after) := h.answered _ ha
    _ = n.answer r (n.look before after') := Node.answer_congr hlook
    _ = a' := (h'.answered _ ha').symm

theorem mem_iff (hc : g.Consistent) (hd : g.Disjoint) (hacyclic : g.Acyclic)
    (h : Settled r before answers after) (h' : Settled r before answers' after')
    (hsub : ∀ o ∈ answers, o.1 ∈ g.nodes) (hsub' : ∀ o ∈ answers', o.1 ∈ g.nodes)
    (hall : g.Covered answers) (hall' : g.Covered answers') (n : Node) (a : Answer) :
    (n, a) ∈ answers ↔ (n, a) ∈ answers' := by
  have hagree : ∀ {a a'}, (n, a) ∈ answers → (n, a') ∈ answers' → a = a' :=
    agree hc hd hacyclic h h' hsub hsub' (hall.backed hc) (hall'.backed hc)
  constructor
  · intro ha
    obtain ⟨a', ha'⟩ := hall' n (hsub _ ha)
    rwa [hagree ha ha']
  · intro ha'
    obtain ⟨a, ha⟩ := hall n (hsub' _ ha')
    rwa [← hagree ha ha']

/-- When all nodes have answered there is only one cache. -/
theorem unique (hc : g.Consistent) (hd : g.Disjoint) (hacyclic : g.Acyclic)
    (h : Settled r before answers after) (h' : Settled r before answers' after')
    (hsub : ∀ o ∈ answers, o.1 ∈ g.nodes) (hsub' : ∀ o ∈ answers', o.1 ∈ g.nodes)
    (hall : g.Covered answers) (hall' : g.Covered answers') : after = after' := by
  refine Cache.ext_getElem? (h.shared_eq.trans h'.shared_eq.symm) fun s => ?_
  by_cases hp : ∃ m ∈ g.nodes, s ∈ m.outputs
  · obtain ⟨m, hm, hs⟩ := hp
    obtain ⟨a, ha⟩ := hall m hm
    obtain ⟨a', ha'⟩ := hall' m hm
    obtain rfl := agree hc hd hacyclic h h' hsub hsub' (hall.backed hc) (hall'.backed hc) ha ha'
    rw [h.written _ ha s hs, h'.written _ ha' s hs]
  · rw [h.untouched s fun o ho hso => hp ⟨o.1, hsub o ho, hso⟩,
      h'.untouched s fun o ho hso => hp ⟨o.1, hsub' o ho, hso⟩]

end Settled
end ValuationCycle
