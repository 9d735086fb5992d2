import Mathlib.Algebra.BigOperators.Group.Finset.Basic
import Mathlib.Data.List.Range
import ValuationCycle.Proofs.Graph.Delta

/-!
# Every visit of the delta walk

The walk taken apart into what it does at each look at its stack: it begins at a
root, opens a node, decides an open one, or drops an entry that has nothing left
to decide. On any graph, with circles or without, the walks from all roots are
one row of such visits: a node not yet opened pays for its own entry and those of
its inputs, every visit costs one, and so no row is longer than three visits for
every node and one for every input. Each node is decided in exactly one visit,
and what is decided there is what the delta says.
-/
namespace ValuationCycle
open Relation

namespace Graph

/-- What the walk does when it looks at its stack. -/
inductive Visit where
  | start (root : Nat)
  | enter (i : Nat)
  | settle (i : Nat) (changed : Bool)
  | drop (i : Nat)
  deriving DecidableEq

def Visit.settled? : Visit → Option Nat
  | .settle i _ => some i
  | _ => none

theorem Visit.mem_settled {visits : List Visit} {i : Nat} :
    i ∈ visits.filterMap settled? ↔ ∃ c, .settle i c ∈ visits := by
  rw [List.mem_filterMap]
  constructor
  · rintro ⟨v, hv, hi⟩
    cases v <;> simp only [settled?, Option.some.injEq, reduceCtorEq] at hi
    exact ⟨_, hi ▸ hv⟩
  · exact fun ⟨c, hc⟩ => ⟨_, hc, rfl⟩

/-- Nodes are decided once as long as no visit decides one that was decided before. -/
theorem Visit.nodup_settled {past : List Visit} {v : Visit}
    (h : (past.filterMap settled?).Nodup)
    (hv : ∀ i c, v = .settle i c → ∀ c', .settle i c' ∉ past) :
    ((past ++ [v]).filterMap settled?).Nodup := by
  rw [List.filterMap_append]
  cases v with
  | settle i c =>
      have hnew : i ∉ past.filterMap settled? := fun hi => by
        obtain ⟨c', hc'⟩ := mem_settled.mp hi
        exact hv i c rfl c' hc'
      exact List.nodup_append_comm.mp (List.nodup_cons.mpr ⟨hnew, h⟩)
  | start | enter | drop => exact (List.append_nil _).symm ▸ h

/-- How far the walks have come: the marks, the stack of the walk that is going on and the
roots of those to come. -/
structure Stage where
  marks : List Mark
  stack : List Nat
  roots : List Nat

namespace Stage

def first (g : Graph) : Stage := ⟨List.replicate g.size .unvisited, [], List.range g.size⟩

inductive Takes (g : Graph) (differs : Specification → Bool) : Stage → Visit → Stage → Prop
  | start (marks : List Mark) (root : Nat) (roots : List Nat) :
      Takes g differs ⟨marks, [], root :: roots⟩ (.start root) ⟨marks, [root], roots⟩
  | enter {marks : List Mark} {i : Nat} (rest roots : List Nat)
      (h : marks[i]? = some .unvisited) :
      Takes g differs ⟨marks, i :: rest, roots⟩ (.enter i)
        ⟨marks.set i .inProgress, g.unvisitedInputs (marks.set i .inProgress) i ++ i :: rest, roots⟩
  | settle {marks : List Mark} {i : Nat} (rest roots : List Nat)
      (h : marks[i]? = some .inProgress) :
      Takes g differs ⟨marks, i :: rest, roots⟩ (.settle i (g.isChanged differs marks i))
        ⟨marks.set i (.done (g.isChanged differs marks i)), rest, roots⟩
  | drop {marks : List Mark} {i : Nat} (rest roots : List Nat) (h : Closed marks i) :
      Takes g differs ⟨marks, i :: rest, roots⟩ (.drop i) ⟨marks, rest, roots⟩

inductive Row (g : Graph) (differs : Specification → Bool) : Stage → List Visit → Stage → Prop
  | nil (s : Stage) : Row g differs s [] s
  | cons {s s₁ s₂ : Stage} {v : Visit} {visits : List Visit} (first : Takes g differs s v s₁)
      (row : Row g differs s₁ visits s₂) : Row g differs s (v :: visits) s₂

variable {g : Graph} {differs : Specification → Bool} {s s₁ s₂ : Stage} {v v₁ v₂ : Visit}
  {visits : List Visit}

theorem Takes.unique (h₁ : Takes g differs s v₁ s₁) (h₂ : Takes g differs s v₂ s₂) :
    v₁ = v₂ ∧ s₁ = s₂ := by
  cases h₁ <;> cases h₂ <;> simp_all [Closed]

theorem Row.append {later : List Visit} (h₁ : Row g differs s visits s₁)
    (h₂ : Row g differs s₁ later s₂) : Row g differs s (visits ++ later) s₂ := by
  induction h₁ with
  | nil => exact h₂
  | cons first _ ih => exact .cons first (ih h₂)

/-- A row that has come to the end is the whole of every row from its beginning. -/
theorem Row.eq_append {whole : List Visit} {marks : List Mark}
    (h : Row g differs s whole ⟨marks, [], []⟩) (h₁ : Row g differs s visits s₁) :
    ∃ later, whole = visits ++ later ∧ Row g differs s₁ later ⟨marks, [], []⟩ := by
  induction h₁ generalizing whole with
  | nil => exact ⟨whole, rfl, h⟩
  | cons first row ih =>
      cases h with
      | nil => nomatch first
      | cons first' row' =>
          obtain ⟨rfl, rfl⟩ := first.unique first'
          obtain ⟨later, rfl, hlater⟩ := ih row'
          exact ⟨later, rfl, hlater⟩

theorem exists_row_walk (g : Graph) (differs : Specification → Bool) (marks : List Mark)
    (stack roots : List Nat) : ∃ visits,
      Row g differs ⟨marks, stack, roots⟩ visits ⟨g.walk differs marks stack, [], roots⟩ := by
  fun_induction Graph.walk g differs marks stack with
  | case1 => exact ⟨[], .nil _⟩
  | case2 marks i rest hi marks' ih =>
      obtain ⟨visits, h⟩ := ih
      exact ⟨_, .cons (.enter rest roots hi) h⟩
  | case3 marks i rest hi ih =>
      obtain ⟨visits, h⟩ := ih
      exact ⟨_, .cons (.settle rest roots hi) h⟩
  | case4 marks i rest hu hp ih =>
      obtain ⟨visits, h⟩ := ih
      exact ⟨_, .cons (.drop rest roots ⟨hu, hp⟩) h⟩

theorem exists_row_walkAll (g : Graph) (differs : Specification → Bool) (roots : List Nat)
    (marks : List Mark) : ∃ visits,
      Row g differs ⟨marks, [], roots⟩ visits ⟨g.walkAll differs roots marks, [], []⟩ := by
  induction roots generalizing marks with
  | nil => exact ⟨[], .nil _⟩
  | cons root roots ih =>
      obtain ⟨visits, h⟩ := exists_row_walk g differs marks [root] roots
      obtain ⟨later, h'⟩ := ih (g.walk differs marks [root])
      exact ⟨_, .cons (.start marks root roots) (h.append h')⟩

/-- What opening a node will cost: its own entry and those of its inputs. -/
def price (g : Graph) (marks : List Mark) (i : Nat) : Nat :=
  if marks[i]? = some .unvisited then 1 + (g.inputIndices i).length else 0

/-- What the visits to come may cost together: a root is put on the stack and taken from it. -/
def potential (g : Graph) (s : Stage) : Nat :=
  ∑ i ∈ Finset.range g.size, price g s.marks i + s.stack.length + 2 * s.roots.length

theorem potential_first : (first g).potential g =
    3 * g.size + ∑ i ∈ Finset.range g.size, (g.inputIndices i).length := by
  have h : ∀ i ∈ Finset.range g.size, price g (first g).marks i = 1 + (g.inputIndices i).length :=
    fun i hi => by simp [price, first, Finset.mem_range.mp hi]
  unfold potential
  rw [Finset.sum_congr rfl h, Finset.sum_add_distrib]
  simp [first]
  omega

theorem sum_price_set {marks : List Mark} {i : Nat} (hlen : marks.length = g.size)
    (hi : marks[i]? = some .unvisited) :
    ∑ j ∈ Finset.range g.size, price g marks j =
      1 + (g.inputIndices i).length +
        ∑ j ∈ Finset.range g.size, price g (marks.set i .inProgress) j := by
  have hlt : i < marks.length := (List.getElem?_eq_some_iff.mp hi).choose
  have hmem : i ∈ Finset.range g.size := Finset.mem_range.mpr (hlen ▸ hlt)
  have hself : price g (marks.set i .inProgress) i = 0 := by simp [price, hlt]
  have hother : ∀ j ∈ (Finset.range g.size).erase i,
      price g (marks.set i .inProgress) j = price g marks j := fun j hj => by
    rw [price, price, List.getElem?_set_ne (Finset.ne_of_mem_erase hj).symm]
  rw [← Finset.add_sum_erase _ _ hmem, ← Finset.add_sum_erase _ (price g (marks.set i _)) hmem,
    Finset.sum_congr rfl hother, hself, price, if_pos hi, Nat.zero_add]

theorem length_unvisitedInputs_le (marks : List Mark) (i : Nat) :
    (g.unvisitedInputs marks i).length ≤ (g.inputIndices i).length := by
  rw [unvisitedInputs, List.length_reverse]
  exact List.length_filter_le _ _

theorem getElem?_set_mark {marks : List Mark} {i : Nat} {m m' : Mark} (hi : marks[i]? = some m')
    (j : Nat) : (marks.set i m)[j]? = if i = j then some m else marks[j]? := by
  rw [List.getElem?_set, if_pos (List.getElem?_eq_some_iff.mp hi).choose]

theorem Takes.potential_lt (h : Takes g differs s v s₁) (hlen : s.marks.length = g.size) :
    s₁.potential g < s.potential g := by
  cases h with
  | start => simp only [potential, List.length_cons, List.length_nil]; omega
  | @enter marks i rest roots hi =>
      have hinputs := length_unvisitedInputs_le (g := g) (marks.set i .inProgress) i
      simp only [potential, List.length_append, List.length_cons, sum_price_set hlen hi]
      omega
  | @settle marks i rest roots hi =>
      have hsum : ∑ j ∈ Finset.range g.size,
          price g (marks.set i (.done (g.isChanged differs marks i))) j =
            ∑ j ∈ Finset.range g.size, price g marks j := by
        refine Finset.sum_congr rfl fun j _ => ?_
        rw [price, price, getElem?_set_mark hi]
        split
        · next hij => simp [← hij, hi]
        · rfl
      simp only [potential, List.length_cons, hsum]
      omega
  | drop => simp only [potential, List.length_cons]; omega

/-- What holds of a stage that visits have led to: they have decided the nodes that are marked
as decided, each once and as it is marked; open nodes are on the stack, nodes not yet opened
there or among the roots; and from every node found changed a path leads to a live data
sourcing node with an output that differs. -/
structure Ledger (g : Graph) (differs : Specification → Bool) (past : List Visit)
    (s : Stage) : Prop where
  length_eq : s.marks.length = g.size
  paid : past.length + s.potential g ≤ (first g).potential g
  settle_iff : ∀ i c, .settle i c ∈ past ↔ s.marks[i]? = some (.done c)
  nodup : (past.filterMap Visit.settled?).Nodup
  open_mem : ∀ i, s.marks[i]? = some .inProgress → i ∈ s.stack
  ahead : ∀ i, s.marks[i]? = some .unvisited → i ∈ s.stack ∨ i ∈ s.roots
  reaches : ∀ i, s.marks[i]? = some (.done true) →
    ∃ k, ReflTransGen g.Edge i k ∧ g.SourceDiffers differs k

theorem ledger_first : Ledger g differs [] (first g) := by
  have hmark : ∀ (i : Nat) (m : Mark), (first g).marks[i]? = some m →
      m = .unvisited ∧ i < g.size := by
    intro i m hm
    obtain ⟨hi, rfl⟩ := List.getElem?_eq_some_iff.mp hm
    exact ⟨by simp [first], by simpa [first] using hi⟩
  refine ⟨by simp [first], by simp, fun i c => ?_, by simp, fun i hi => ?_, fun i hi => ?_,
    fun i hi => ?_⟩
  · simpa using fun hc => nomatch (hmark i _ hc).1
  · exact nomatch (hmark i _ hi).1
  · exact .inr (List.mem_range.mpr (hmark i _ hi).2)
  · exact nomatch (hmark i _ hi).1

/-- A node found changed is a live data sourcing node with an output that differs, or takes an
input from a node found changed before. -/
theorem Ledger.reaches_of_isChanged {past : List Visit} (h : Ledger g differs past s) {i : Nat}
    (hi : g.isChanged differs s.marks i = true) :
    ∃ k, ReflTransGen g.Edge i k ∧ g.SourceDiffers differs k := by
  cases hn : g.nodes[i]? with
  | none => simp [isChanged, hn] at hi
  | some n =>
      cases hl : n.isLive with
      | true => exact ⟨i, .refl, n, hn, hl, (isChanged_of_live hn hl).mp hi⟩
      | false =>
          obtain ⟨j, hj, hdone⟩ := (isChanged_of_not_live hn hl).mp hi
          obtain ⟨k, hp, hk⟩ := h.reaches j hdone
          exact ⟨k, .head hj hp, hk⟩

/-- Every visit is paid for out of what is left. -/
theorem Ledger.paid_takes {past : List Visit} (h : Ledger g differs past s)
    (hv : Takes g differs s v s₁) :
    (past ++ [v]).length + s₁.potential g ≤ (first g).potential g := by
  have hlt := hv.potential_lt h.length_eq
  have hle := h.paid
  simp only [List.length_append, List.length_singleton]
  omega

section
variable {past : List Visit} {marks : List Mark} {i : Nat} {rest roots : List Nat}

theorem Ledger.start (h : Ledger g differs past ⟨marks, [], i :: roots⟩) :
    Ledger g differs (past ++ [.start i]) ⟨marks, [i], roots⟩ := by
  refine ⟨h.length_eq, h.paid_takes (.start ..), fun j c => ?_, ?_, fun j hj => ?_, fun j hj => ?_,
    h.reaches⟩
  · simpa using h.settle_iff j c
  · exact Visit.nodup_settled h.nodup (by simp)
  · exact absurd (h.open_mem j hj) (by simp)
  · simpa [or_assoc] using h.ahead j hj

/-- Only the mark of the node on top changes, which is open now and still on the stack. -/
theorem Ledger.enter (h : Ledger g differs past ⟨marks, i :: rest, roots⟩)
    (hi : marks[i]? = some .unvisited) : Ledger g differs (past ++ [.enter i])
      ⟨marks.set i .inProgress, g.unvisitedInputs (marks.set i .inProgress) i ++ i :: rest,
        roots⟩ := by
  have hset := getElem?_set_mark (m := Mark.inProgress) hi
  refine ⟨by simpa using h.length_eq, h.paid_takes (.enter _ _ hi), fun j c => ?_, ?_,
    fun j hj => ?_, fun j hj => ?_, fun j hj => ?_⟩
  · rw [hset]
    by_cases hij : i = j
    · subst hij
      simp [h.settle_iff, hi]
    · simpa [hij] using h.settle_iff j c
  · exact Visit.nodup_settled h.nodup (by simp)
  · rw [hset] at hj
    by_cases hij : i = j
    · simp [hij]
    · exact List.mem_append_right _ (h.open_mem j (by simpa [hij] using hj))
  · rw [hset] at hj
    by_cases hij : i = j
    · simp [hij] at hj
    · exact (h.ahead j (by simpa [hij] using hj)).imp_left (List.mem_append_right _)
  · rw [hset] at hj
    by_cases hij : i = j
    · simp [hij] at hj
    · exact h.reaches j (by simpa [hij] using hj)

/-- The node on top is decided for the first time: it was open, and a decided node is not. -/
theorem Ledger.settle (h : Ledger g differs past ⟨marks, i :: rest, roots⟩)
    (hi : marks[i]? = some .inProgress) :
    Ledger g differs (past ++ [.settle i (g.isChanged differs marks i)])
      ⟨marks.set i (.done (g.isChanged differs marks i)), rest, roots⟩ := by
  have hset := getElem?_set_mark (m := Mark.done (g.isChanged differs marks i)) hi
  have hnew : ∀ c, Visit.settle i c ∉ past := fun c hc => by
    simpa [hi] using (h.settle_iff i c).mp hc
  refine ⟨by simpa using h.length_eq, h.paid_takes (.settle _ _ hi), fun j c => ?_, ?_,
    fun j hj => ?_, fun j hj => ?_, fun j hj => ?_⟩
  · rw [hset]
    by_cases hij : i = j
    · subst hij
      simp [hnew, eq_comm]
    · simpa [hij, Ne.symm hij] using h.settle_iff j c
  · exact Visit.nodup_settled h.nodup fun j c hj => by
      obtain ⟨rfl, -⟩ := Visit.settle.inj hj
      exact hnew
  · rw [hset] at hj
    by_cases hij : i = j
    · simp [hij] at hj
    · have hmem := h.open_mem j (by simpa [hij] using hj)
      exact (List.mem_cons.mp hmem).resolve_left (Ne.symm hij)
  · rw [hset] at hj
    by_cases hij : i = j
    · simp [hij] at hj
    · exact (h.ahead j (by simpa [hij] using hj)).imp_left fun hm =>
        (List.mem_cons.mp hm).resolve_left (Ne.symm hij)
  · rw [hset] at hj
    by_cases hij : i = j
    · subst hij
      exact h.reaches_of_isChanged (by simpa using hj)
    · exact h.reaches j (by simpa [hij] using hj)

/-- A node that is dropped is neither open nor unvisited, so none of these leaves the stack. -/
theorem Ledger.drop (h : Ledger g differs past ⟨marks, i :: rest, roots⟩) (hi : Closed marks i) :
    Ledger g differs (past ++ [.drop i]) ⟨marks, rest, roots⟩ := by
  have hne : ∀ j m, marks[j]? = some m → m = .unvisited ∨ m = .inProgress → j ≠ i := by
    rintro j m hj (rfl | rfl) rfl
    · exact hi.1 hj
    · exact hi.2 hj
  refine ⟨h.length_eq, h.paid_takes (.drop _ _ hi), fun j c => ?_, ?_, fun j hj => ?_,
    fun j hj => ?_, h.reaches⟩
  · simpa using h.settle_iff j c
  · exact Visit.nodup_settled h.nodup (by simp)
  · exact (List.mem_cons.mp (h.open_mem j hj)).resolve_left (hne j _ hj (.inr rfl))
  · exact (h.ahead j hj).imp_left fun hm =>
      (List.mem_cons.mp hm).resolve_left (hne j _ hj (.inl rfl))

end

theorem Ledger.takes {past : List Visit} (h : Ledger g differs past s)
    (hv : Takes g differs s v s₁) : Ledger g differs (past ++ [v]) s₁ := by
  cases hv with
  | start => exact h.start
  | enter _ _ hi => exact h.enter hi
  | settle _ _ hi => exact h.settle hi
  | drop _ _ hi => exact h.drop hi

theorem Ledger.row {past : List Visit} (h : Ledger g differs past s)
    (hrow : Row g differs s visits s₁) : Ledger g differs (past ++ visits) s₁ := by
  induction hrow generalizing past with
  | nil => simpa using h
  | cons first row ih => simpa using ih (h.takes first)

theorem Ledger.exists_done {past : List Visit} {marks : List Mark}
    (h : Ledger g differs past ⟨marks, [], []⟩) {i : Nat} (hi : i < g.size) :
    ∃ c, marks[i]? = some (.done c) := by
  have hclosed : Closed marks i :=
    ⟨fun hu => by simpa using h.ahead i hu, fun hp => by simpa using h.open_mem i hp⟩
  have hlen : marks.length = g.size := h.length_eq
  refine (closed_iff.mp hclosed).resolve_left fun hnone => ?_
  rw [List.getElem?_eq_none_iff] at hnone
  omega

theorem Ledger.settled_perm {past : List Visit} {marks : List Mark}
    (h : Ledger g differs past ⟨marks, [], []⟩) :
    (past.filterMap Visit.settled?).Perm (List.range g.size) := by
  refine (List.perm_ext_iff_of_nodup h.nodup List.nodup_range).mpr fun i => ?_
  rw [Visit.mem_settled, List.mem_range]
  refine ⟨fun ⟨c, hc⟩ => ?_, fun hi => ?_⟩
  · exact h.length_eq ▸ (List.getElem?_eq_some_iff.mp ((h.settle_iff i c).mp hc)).choose
  · exact (h.exists_done hi).imp fun c hc => (h.settle_iff i c).mpr hc

end Stage
end Graph

namespace Delta
open Graph.Stage

variable {g : Graph} {current previous : Cache}

theorem changed_append_unchanged_perm :
    ((compute g current previous).changed ++ (compute g current previous).unchanged).Perm
      (List.range g.size) := List.filter_append_perm _ _

theorem mem_changed_iff {i : Nat} : i ∈ (compute g current previous).changed ↔
    i < g.size ∧ (g.classify (differs current previous))[i]? = some (.done true) := by
  simp only [compute, List.mem_filter, List.mem_range, beq_iff_eq]
  rfl

/-- On any graph, whatever circles and repeated inputs it has, the walks from all roots are one
row of visits, bounded by the nodes and inputs of the graph, and whatever visits have been made
are the beginning of it. It decides each node in one visit, and the delta is what it decided:
the changed and the unchanged nodes share out the nodes, both in the order of the graph, and a
changed node is, or leads along inputs to, a live data sourcing node with an output that
differs between the caches. -/
theorem decides_each_node_once (g : Graph) (current previous : Cache) :
    (∃ visits : List Graph.Visit,
      Row g (differs current previous) (first g) visits
        ⟨g.classify (differs current previous), [], []⟩ ∧
      visits.length ≤ 3 * g.size + ∑ i ∈ Finset.range g.size, (g.inputIndices i).length ∧
      (∀ (begun : List Graph.Visit) (s : Graph.Stage),
        Row g (differs current previous) (first g) begun s → begun <+: visits) ∧
      (visits.filterMap Graph.Visit.settled?).Perm (List.range g.size) ∧
      ∀ i c, .settle i c ∈ visits → (c = true ↔ i ∈ (compute g current previous).changed)) ∧
    ((compute g current previous).changed ++ (compute g current previous).unchanged).Perm
      (List.range g.size) ∧
    (compute g current previous).changed.Pairwise (· < ·) ∧
    (compute g current previous).unchanged.Pairwise (· < ·) ∧
    ∀ i ∈ (compute g current previous).changed, ∃ (k : Nat) (n : Node),
      ReflTransGen g.Edge i k ∧ g.nodes[k]? = some n ∧ n.isLive = true ∧
      ∃ s ∈ n.outputs, sameValue (current.get? s) (previous.get? s) = false := by
  obtain ⟨visits, hrow⟩ := exists_row_walkAll g (differs current previous)
    (List.range g.size) (List.replicate g.size .unvisited)
  change Row g _ (first g) visits ⟨g.classify (differs current previous), [], []⟩ at hrow
  have hledger := ledger_first.row hrow
  rw [List.nil_append] at hledger
  have hbound := hledger.paid
  rw [potential_first] at hbound
  refine ⟨⟨visits, hrow, by omega, fun begun s hbegun => ?_, ?_, fun i c hic => ?_⟩,
    changed_append_unchanged_perm, List.pairwise_lt_range.filter _,
    List.pairwise_lt_range.filter _, fun i hi => ?_⟩
  · obtain ⟨later, rfl, -⟩ := hrow.eq_append hbegun
    exact List.prefix_append _ _
  · exact hledger.settled_perm
  · have hmark := (hledger.settle_iff i c).mp hic
    have hlt : i < g.size := hledger.length_eq ▸ (List.getElem?_eq_some_iff.mp hmark).choose
    simp [mem_changed_iff, hlt, show (g.classify _)[i]? = _ from hmark]
  · obtain ⟨k, hp, n, hn, hl, s, hs, hd⟩ := hledger.reaches i (mem_changed_iff.mp hi).2
    exact ⟨k, n, hp, hn, hl, s, hs, by simpa [differs] using hd⟩

open Graph.Sample in
/-- Two nodes that take inputs from each other, the second one twice, and the spot price. -/
def Sample.ring : Graph :=
  graph "Default"
    [step "left" .security [quantity "Right" "right", quantity "Left" "left"]
        (quantity "Left" "left"),
      step "right" .security [quantity "Left" "left", quantity "Left" "left",
        quantity "Spot" "spot"] (quantity "Right" "right"),
      step "spot" .liveDataSourcing [] (quantity "Spot" "spot")]

open Graph.Sample Sample in
/-- Under a circle, too, the changed spot price is found, and a source is found from it. -/
theorem ring_source_found :
    ¬ring.Acyclic ∧ 2 ∈ (compute ring (spot ⟨2, by decide⟩) (spot ⟨1, by decide⟩)).changed ∧
    ∃ (k : Nat) (n : Node), ReflTransGen ring.Edge 2 k ∧ ring.nodes[k]? = some n ∧
      n.isLive = true ∧ ∃ s ∈ n.outputs,
        sameValue ((spot ⟨2, by decide⟩).get? s) ((spot ⟨1, by decide⟩).get? s) = false := by
  have hcircle : ¬ring.Acyclic := fun h =>
    h 0 (.tail (.single (show ring.Edge 0 1 by decide +kernel)) (by decide +kernel))
  have hchanged : 2 ∈ (compute ring (spot ⟨2, by decide⟩) (spot ⟨1, by decide⟩)).changed := by
    by_contra hmem
    have hun := mem_unchanged.mpr ⟨show 2 < ring.size by decide +kernel, hmem⟩
    have hsame := sameValue_of_unchanged hun
      (n := step "spot" .liveDataSourcing [] (quantity "Spot" "spot")) rfl rfl
      (s := quantity "Spot" "spot") (by decide)
    exact absurd hsame (by decide)
  exact ⟨hcircle, hchanged, (decides_each_node_once ring _ _).2.2.2.2 2 hchanged⟩

end Delta
end ValuationCycle
