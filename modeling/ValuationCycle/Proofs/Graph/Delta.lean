import ValuationCycle.Graph.Delta
import ValuationCycle.Proofs.Graph.Edges
import ValuationCycle.Proofs.Json.Sameness

/-!
# What the delta walk decides

On an acyclic graph the walk decides of every node what the paths of the graph
say: a live data sourcing node is changed if one of its outputs differs, any
other node if a path leads from it, through nodes that are not live data
sourcing, to a changed live data sourcing node. The invariant of the walk speaks
of open nodes: every input of an open node is closed or lies above it on the
stack, and whatever lies above the topmost entry of an open node is reached
from it.
-/
namespace ValuationCycle
open Relation Std

theorem sameValue_refl (v : Option Json.Value) : sameValue v v = true := by
  cases v with
  | none => rfl
  | some v => exact v.same_refl

theorem sameValue_symm {u v : Option Json.Value} (h : sameValue u v = true) :
    sameValue v u = true := by
  cases u <;> cases v <;> simp only [sameValue, Bool.false_eq_true] at h ⊢
  exact Json.Value.same_symm h

theorem sameValue_trans {u v w : Option Json.Value} (h : sameValue u v = true)
    (h' : sameValue v w = true) : sameValue u w = true := by
  cases u <;> cases v <;> cases w <;> simp only [sameValue, Bool.false_eq_true] at h h' ⊢
  exact Json.Value.same_trans h h'

theorem sameValue_congr {u u' v v' : Option Json.Value} (hu : sameValue u u' = true)
    (hv : sameValue v v' = true) : sameValue u v = sameValue u' v' := by
  refine Bool.eq_iff_iff.mpr ⟨fun h => ?_, fun h => ?_⟩
  · exact sameValue_trans (sameValue_trans (sameValue_symm hu) h) hv
  · exact sameValue_trans (sameValue_trans hu h) (sameValue_symm hv)

theorem sameValue_or {u u' v v' : Option Json.Value} (hu : sameValue u u' = true)
    (hv : sameValue v v' = true) : sameValue (u.or v) (u'.or v') = true := by
  cases u <;> cases u' <;> simp_all [sameValue]

theorem isSome_of_sameValue {u v : Option Json.Value} (h : sameValue u v = true) :
    u.isSome = v.isSome := by
  cases u <;> cases v <;> simp_all [sameValue]

namespace Graph

/-- An edge out of a node that is not live data sourcing. -/
def Passes (g : Graph) (i j : Nat) : Prop :=
  g.Edge i j ∧ ∃ n, g.nodes[i]? = some n ∧ n.isLive = false

def SourceDiffers (g : Graph) (differs : Specification → Bool) (k : Nat) : Prop :=
  ∃ n, g.nodes[k]? = some n ∧ n.isLive = true ∧ ∃ s ∈ n.outputs, differs s = true

/-- A path through nodes that are not live data sourcing ends in a live data
sourcing node with an output that differs. -/
def Changed (g : Graph) (differs : Specification → Bool) (i : Nat) : Prop :=
  ∃ k, ReflTransGen g.Passes i k ∧ g.SourceDiffers differs k

variable {g : Graph} {differs : Specification → Bool}

theorem changed_of_live {i : Nat} {n : Node} (hn : g.nodes[i]? = some n) (hl : n.isLive = true) :
    g.Changed differs i ↔ ∃ s ∈ n.outputs, differs s = true := by
  constructor
  · rintro ⟨k, hp, m, hm, -, hs⟩
    rcases hp.cases_head with rfl | ⟨j, ⟨-, n', hn', hl'⟩, -⟩
    · obtain rfl := Option.some.inj (hn.symm.trans hm)
      exact hs
    · obtain rfl := Option.some.inj (hn.symm.trans hn')
      exact absurd hl (by simp [hl'])
  · exact fun hs => ⟨i, .refl, n, hn, hl, hs⟩

theorem changed_of_not_live {i : Nat} {n : Node} (hn : g.nodes[i]? = some n)
    (hl : n.isLive = false) :
    g.Changed differs i ↔ ∃ j, g.Edge i j ∧ g.Changed differs j := by
  constructor
  · rintro ⟨k, hp, hk⟩
    rcases hp.cases_head with rfl | ⟨j, hj, hp⟩
    · obtain ⟨m, hm, hlm, -⟩ := hk
      obtain rfl := Option.some.inj (hn.symm.trans hm)
      exact absurd hlm (by simp [hl])
    · exact ⟨j, hj.1, k, hp, hk⟩
  · rintro ⟨j, hj, k, hp, hk⟩
    exact ⟨k, .head ⟨hj, n, hn, hl⟩ hp, hk⟩

theorem not_changed_of_none {i : Nat} (hn : g.nodes[i]? = none) : ¬g.Changed differs i := by
  rintro ⟨k, hp, m, hm, -⟩
  rcases hp.cases_head with rfl | ⟨j, ⟨-, n, hn', -⟩, -⟩
  · simp [hn] at hm
  · simp [hn] at hn'

/-- Nothing more will be decided of the position: it is closed, or not one of the graph. -/
def Closed (marks : List Mark) (i : Nat) : Prop :=
  marks[i]? ≠ some .unvisited ∧ marks[i]? ≠ some .inProgress

theorem closed_iff {marks : List Mark} {i : Nat} :
    Closed marks i ↔ marks[i]? = none ∨ ∃ c, marks[i]? = some (.done c) := by
  unfold Closed
  cases h : marks[i]? with
  | none => simp
  | some m => cases m <;> simp

/-- What holds whenever the walk looks at the top of its stack. -/
structure Walking (g : Graph) (differs : Specification → Bool) (marks : List Mark)
    (stack : List Nat) : Prop where
  length_eq : marks.length = g.size
  done_iff : ∀ i c, marks[i]? = some (.done c) → (c = true ↔ g.Changed differs i)
  open_mem : ∀ i, marks[i]? = some .inProgress → i ∈ stack
  inputs : ∀ above i below, stack = above ++ i :: below → marks[i]? = some .inProgress →
    ∀ j, g.Edge i j → j ∈ above ∨ Closed marks j
  reached : ∀ above i below, stack = above ++ i :: below → marks[i]? = some .inProgress →
    i ∉ above → ∀ j ∈ above, TransGen g.Edge i j

theorem isChanged_of_live {marks : List Mark} {i : Nat} {n : Node} (hn : g.nodes[i]? = some n)
    (hl : n.isLive = true) :
    g.isChanged differs marks i = true ↔ ∃ s ∈ n.outputs, differs s = true := by
  simp [isChanged, hn, hl]

theorem isChanged_of_not_live {marks : List Mark} {i : Nat} {n : Node}
    (hn : g.nodes[i]? = some n) (hl : n.isLive = false) :
    g.isChanged differs marks i = true ↔ ∃ j, g.Edge i j ∧ marks[j]? = some (.done true) := by
  simp [isChanged, hn, hl, Edge]

theorem Walking.isChanged_iff {marks : List Mark} {stack : List Nat} {i : Nat}
    (h : Walking g differs marks stack) (hi : ∀ j, g.Edge i j → Closed marks j) :
    g.isChanged differs marks i = true ↔ g.Changed differs i := by
  cases hn : g.nodes[i]? with
  | none => simpa [isChanged, hn] using not_changed_of_none hn
  | some n =>
      cases hl : n.isLive with
      | true => rw [isChanged_of_live hn hl, changed_of_live hn hl]
      | false =>
          rw [isChanged_of_not_live hn hl, changed_of_not_live hn hl]
          refine exists_congr fun j => and_congr_right fun hj => ?_
          rcases closed_iff.mp (hi j hj) with hj | ⟨c, hc⟩
          · have hnone : g.nodes[j]? = none := by
              have hlen : marks.length = g.nodes.length := h.length_eq
              rw [List.getElem?_eq_none_iff] at hj ⊢
              omega
            simpa [hj] using not_changed_of_none hnone
          · rw [hc, ← h.done_iff j c hc]
            simp

/-- Entries above a later one than a prefix that does not hold it begin with the prefix. -/
theorem split_append {α : Type} {x : α} {pre rest above below : List α} (hx : x ∉ pre)
    (h : pre ++ rest = above ++ x :: below) :
    ∃ mid, above = pre ++ mid ∧ rest = mid ++ x :: below := by
  rcases List.append_eq_append_iff.mp h with ⟨mid, rfl, hr⟩ | ⟨mid, rfl, hr⟩
  · exact ⟨mid, rfl, hr⟩
  · cases mid with
    | nil => exact ⟨[], by simp, by simpa using hr.symm⟩
    | cons y mid =>
        obtain ⟨rfl, -⟩ := List.cons.inj hr
        exact absurd (by simp) hx

theorem mem_unvisitedInputs {marks : List Mark} {i j : Nat} :
    j ∈ g.unvisitedInputs marks i ↔ g.Edge i j ∧ marks[j]? = some .unvisited := by
  simp [unvisitedInputs, Edge]

theorem Closed.set {marks : List Mark} {i j : Nat} {c : Bool} (h : Closed marks j) :
    Closed (marks.set i (.done c)) j := by
  unfold Closed at h ⊢
  rw [List.getElem?_set]
  split
  · split <;> simp
  · exact h

theorem Walking.reached_of_open {marks : List Mark} {i j : Nat} {rest : List Nat}
    (h : Walking g differs marks (i :: rest)) (hj : marks[j]? = some .inProgress) (hji : j ≠ i) :
    TransGen g.Edge j i := by
  obtain ⟨pre, below, he, hpre⟩ := List.eq_append_cons_of_mem (h.open_mem j hj)
  refine h.reached pre j below he hj hpre i ?_
  rcases List.cons_eq_append_iff.mp he with ⟨-, hcons⟩ | ⟨pre', rfl, -⟩
  · exact absurd (List.cons.inj hcons).1 hji
  · simp

/-- Opening the top of the stack keeps the invariant. An input that is open would
be reached from the node it is an input of, which no acyclic graph allows. -/
theorem Walking.open {marks : List Mark} {i : Nat} {rest : List Nat} (hg : g.Acyclic)
    (h : Walking g differs marks (i :: rest)) (hi : marks[i]? = some .unvisited) :
    Walking g differs (marks.set i .inProgress)
      (g.unvisitedInputs (marks.set i .inProgress) i ++ i :: rest) := by
  have hlt : i < marks.length := (List.getElem?_eq_some_iff.mp hi).choose
  have hself : (marks.set i .inProgress)[i]? = some .inProgress := by simp [hlt]
  have hother : ∀ j, j ≠ i → (marks.set i .inProgress)[j]? = marks[j]? :=
    fun j hj => List.getElem?_set_ne hj.symm
  have hopen : ∀ j, (marks.set i .inProgress)[j]? = some .inProgress →
      j ∉ g.unvisitedInputs (marks.set i .inProgress) i := by
    intro j hj hm
    have hu := (mem_unvisitedInputs.mp hm).2
    simp [hj] at hu
  have hinputs : ∀ j, g.Edge i j → j ∈ g.unvisitedInputs (marks.set i .inProgress) i ∨
      Closed (marks.set i .inProgress) j := by
    intro j hj
    by_cases hu : (marks.set i .inProgress)[j]? = some .unvisited
    · exact .inl (mem_unvisitedInputs.mpr ⟨hj, hu⟩)
    · -- an input that is open was reached from here, and would close a circle
      refine .inr ⟨hu, fun hp => ?_⟩
      rw [hother j hj.ne] at hp
      exact hg i ((TransGen.single hj).trans (h.reached_of_open hp hj.ne))
  refine ⟨by simpa using h.length_eq, ?_, ?_, ?_, ?_⟩
  · intro j c hc
    by_cases hj : j = i
    · simp [hj, hself] at hc
    · exact h.done_iff j c (hother j hj ▸ hc)
  · intro j hj
    by_cases hji : j = i
    · simp [hji]
    · exact List.mem_append_right _ (h.open_mem j (hother j hji ▸ hj))
  · intro above k below hs hk j hj
    obtain ⟨mid, rfl, hmid⟩ := split_append (hopen k hk) hs
    by_cases hki : k = i
    · subst hki
      exact (hinputs j hj).imp_left (List.mem_append_left _)
    · rcases h.inputs mid k below hmid (hother k hki ▸ hk) j hj with hj | hj
      · exact .inl (List.mem_append_right _ hj)
      · by_cases hji : j = i
        · subst hji
          exact absurd hi hj.1
        · exact .inr (by unfold Closed at hj ⊢; rwa [hother j hji])
  · intro above k below hs hk hka j hj
    obtain ⟨mid, rfl, hmid⟩ := split_append (hopen k hk) hs
    rcases List.cons_eq_append_iff.mp hmid with ⟨rfl, hcons⟩ | ⟨mid, rfl, -⟩
    · obtain ⟨rfl, -⟩ := List.cons.inj hcons
      exact .single (mem_unvisitedInputs.mp (by simpa using hj)).1
    · have hki : k ≠ i := fun he => hka (by simp [he])
      have hold := h.reached _ k below hmid (hother k hki ▸ hk) (fun hm => hka (by simp [hm]))
      rcases List.mem_append.mp hj with hj | hj
      · exact (hold i (by simp)).tail (mem_unvisitedInputs.mp hj).1
      · exact hold j hj

theorem Walking.close {marks : List Mark} {i : Nat} {rest : List Nat}
    (h : Walking g differs marks (i :: rest)) (hi : marks[i]? = some .inProgress) :
    Walking g differs (marks.set i (.done (g.isChanged differs marks i))) rest := by
  have hlt : i < marks.length := (List.getElem?_eq_some_iff.mp hi).choose
  have hself : (marks.set i (.done (g.isChanged differs marks i)))[i]? =
      some (.done (g.isChanged differs marks i)) := by simp [hlt]
  have hother : ∀ j, j ≠ i →
      (marks.set i (.done (g.isChanged differs marks i)))[j]? = marks[j]? :=
    fun j hj => List.getElem?_set_ne hj.symm
  have hne : ∀ j, (marks.set i (.done (g.isChanged differs marks i)))[j]? = some .inProgress →
      j ≠ i := by
    rintro j hj rfl
    simp [hself] at hj
  refine ⟨by simpa using h.length_eq, ?_, ?_, ?_, ?_⟩
  · intro j c hc
    by_cases hj : j = i
    · subst hj
      have hinputs : ∀ k, g.Edge j k → Closed marks k := fun k hk =>
        (h.inputs [] j rest rfl hi k hk).resolve_left (by simp)
      obtain rfl : g.isChanged differs marks j = c := by simpa [hself] using hc
      exact h.isChanged_iff hinputs
    · exact h.done_iff j c (hother j hj ▸ hc)
  · intro j hj
    have hji := hne j hj
    exact (List.mem_cons.mp (h.open_mem j (hother j hji ▸ hj))).resolve_left hji
  · intro above k below hs hk j hj
    rcases h.inputs (i :: above) k below (by simp [hs]) (hother k (hne k hk) ▸ hk) j hj with hj | hj
    · rcases List.mem_cons.mp hj with rfl | hj
      · exact .inr (closed_iff.mpr (.inr ⟨_, hself⟩))
      · exact .inl hj
    · exact .inr hj.set
  · intro above k below hs hk hka j hj
    have hki := hne k hk
    exact h.reached (i :: above) k below (by simp [hs]) (hother k hki ▸ hk)
      (by simp [hki, hka]) j (by simp [hj])

theorem Walking.drop {marks : List Mark} {i : Nat} {rest : List Nat}
    (h : Walking g differs marks (i :: rest)) (hi : Closed marks i) :
    Walking g differs marks rest := by
  have hne : ∀ j, marks[j]? = some .inProgress → j ≠ i := by
    rintro j hj rfl
    exact hi.2 hj
  refine ⟨h.length_eq, h.done_iff, ?_, ?_, ?_⟩
  · exact fun j hj => (List.mem_cons.mp (h.open_mem j hj)).resolve_left (hne j hj)
  · intro above k below hs hk j hj
    rcases h.inputs (i :: above) k below (by simp [hs]) hk j hj with hj | hj
    · rcases List.mem_cons.mp hj with rfl | hj
      · exact .inr hi
      · exact .inl hj
    · exact .inr hj
  · intro above k below hs hk hka j hj
    exact h.reached (i :: above) k below (by simp [hs]) hk (by simp [hne k hk, hka]) j
      (by simp [hj])

theorem Walking.walk (hg : g.Acyclic) {marks : List Mark} {stack : List Nat}
    (h : Walking g differs marks stack) : Walking g differs (g.walk differs marks stack) [] := by
  fun_induction Graph.walk g differs marks stack with
  | case1 => exact h
  | case2 marks i rest hi marks' ih => exact ih (h.open hg hi)
  | case3 marks i rest hi ih => exact ih (h.close hi)
  | case4 marks i rest hu hp ih => exact ih (h.drop ⟨hu, hp⟩)

theorem walk_ne_unvisited {marks : List Mark} {stack : List Nat} {i : Nat}
    (hi : marks[i]? ≠ some .unvisited) : (g.walk differs marks stack)[i]? ≠ some .unvisited := by
  fun_induction Graph.walk g differs marks stack with
  | case1 => exact hi
  | case2 marks k rest hk marks' ih =>
      apply ih
      rw [List.getElem?_set]
      split
      · split <;> simp
      · exact hi
  | case3 marks k rest hk ih =>
      apply ih
      rw [List.getElem?_set]
      split
      · split <;> simp
      · exact hi
  | case4 marks k rest hu hp ih => exact ih hi

theorem walk_visits {marks : List Mark} {stack : List Nat} {i : Nat} (hi : i ∈ stack) :
    (g.walk differs marks stack)[i]? ≠ some .unvisited := by
  fun_induction Graph.walk g differs marks stack with
  | case1 => simp at hi
  | case2 marks k rest hk marks' ih => exact ih (by simp_all)
  | case3 marks k rest hk ih =>
      rcases List.mem_cons.mp hi with rfl | hi
      · exact walk_ne_unvisited (by
          rw [List.getElem?_set]
          split
          · split <;> simp
          · simp [hk])
      · exact ih hi
  | case4 marks k rest hu hp ih =>
      rcases List.mem_cons.mp hi with rfl | hi
      · exact walk_ne_unvisited hu
      · exact ih hi

def walkAll (g : Graph) (differs : Specification → Bool) (roots : List Nat) (marks : List Mark) :
    List Mark :=
  roots.foldl (fun marks root => g.walk differs marks [root]) marks

/-- Between two walks nothing is open, so the next may begin anywhere. -/
theorem Walking.begin {marks : List Mark} (h : Walking g differs marks []) (stack : List Nat) :
    Walking g differs marks stack := by
  have hnone : ∀ j, marks[j]? ≠ some Mark.inProgress := fun j hj => by simpa using h.open_mem j hj
  exact ⟨h.length_eq, h.done_iff, fun j hj => absurd hj (hnone j),
    fun _ j _ _ hj => absurd hj (hnone j), fun _ j _ _ hj => absurd hj (hnone j)⟩

theorem Walking.walkAll (hg : g.Acyclic) {marks : List Mark} (h : Walking g differs marks [])
    (roots : List Nat) : Walking g differs (g.walkAll differs roots marks) [] := by
  induction roots generalizing marks with
  | nil => exact h
  | cons root roots ih => exact ih ((h.begin [root]).walk hg)

theorem walkAll_ne_unvisited {marks : List Mark} {roots : List Nat} {i : Nat}
    (hi : marks[i]? ≠ some .unvisited ∨ i ∈ roots) :
    (g.walkAll differs roots marks)[i]? ≠ some .unvisited := by
  induction roots generalizing marks with
  | nil => exact hi.resolve_right (by simp)
  | cons root roots ih =>
      apply ih
      rcases hi with hi | hi
      · exact .inl (walk_ne_unvisited hi)
      · rcases List.mem_cons.mp hi with rfl | hi
        · exact .inl (walk_visits (by simp))
        · exact .inr hi

theorem walking_start : Walking g differs (List.replicate g.size .unvisited) [] := by
  have hmark : ∀ (i : Nat) (m : Mark), (List.replicate g.size Mark.unvisited)[i]? = some m →
      m = Mark.unvisited := by
    intro i m hm
    exact List.eq_of_mem_replicate (List.mem_of_getElem? hm)
  refine ⟨by simp, fun i c hc => ?_, fun i hi => ?_, fun _ i _ _ hi => ?_, fun _ i _ _ hi => ?_⟩
  · exact absurd (hmark i _ hc) (by simp)
  all_goals exact absurd (hmark i _ hi) (by simp)

/-- Wherever walks begin, in whatever order and however often, a node that they
begin at is decided as the paths of the graph say. -/
theorem walkAll_eq_done (hg : g.Acyclic) {roots : List Nat} {i : Nat} (hr : i ∈ roots)
    (hi : i < g.size) :
    ∃ c, (g.walkAll differs roots (List.replicate g.size .unvisited))[i]? = some (.done c) ∧
      (c = true ↔ g.Changed differs i) := by
  have hstart : Walking g differs (List.replicate g.size .unvisited) [] := walking_start
  have h := hstart.walkAll hg roots
  have hclosed : Closed (g.walkAll differs roots (List.replicate g.size .unvisited)) i :=
    ⟨walkAll_ne_unvisited (.inr hr), fun hp => by simpa using h.open_mem i hp⟩
  rcases closed_iff.mp hclosed with hn | ⟨c, hc⟩
  · rw [List.getElem?_eq_none_iff, h.length_eq] at hn
    omega
  · exact ⟨c, hc, h.done_iff i c hc⟩

/-- What holds of live data sourcing nodes whenever the walk looks at the top of its stack, on
any graph: they are decided as their outputs say, whatever circles there are. -/
structure Sourcing (g : Graph) (differs : Specification → Bool) (marks : List Mark)
    (stack : List Nat) : Prop where
  length_eq : marks.length = g.size
  done_iff : ∀ (i : Nat) (c : Bool) (n : Node), marks[i]? = some (.done c) →
    g.nodes[i]? = some n → n.isLive = true → (c = true ↔ ∃ s ∈ n.outputs, differs s = true)
  open_mem : ∀ i, marks[i]? = some .inProgress → i ∈ stack

theorem Sourcing.walk {marks : List Mark} {stack : List Nat}
    (h : Sourcing g differs marks stack) : Sourcing g differs (g.walk differs marks stack) [] := by
  fun_induction Graph.walk g differs marks stack with
  | case1 => exact h
  | case2 marks i rest hi marks' ih =>
      have hlt : i < marks.length := (List.getElem?_eq_some_iff.mp hi).choose
      refine ih ⟨by simpa [marks'] using h.length_eq, fun j c n hj => ?_, fun j hj => ?_⟩ <;>
        by_cases hji : j = i
      · simp [marks', hji, hlt] at hj
      · rw [List.getElem?_set_ne (Ne.symm hji)] at hj
        exact h.done_iff j c n hj
      · simp [hji]
      · rw [List.getElem?_set_ne (Ne.symm hji)] at hj
        exact List.mem_append_right _ (h.open_mem j hj)
  | case3 marks i rest hi ih =>
      have hlt : i < marks.length := (List.getElem?_eq_some_iff.mp hi).choose
      refine ih ⟨by simpa using h.length_eq, fun j c n hj hn hl => ?_, fun j hj => ?_⟩ <;>
        by_cases hji : j = i
      · subst hji
        obtain rfl : g.isChanged differs marks j = c := by simpa [hlt] using hj
        exact isChanged_of_live hn hl
      · rw [List.getElem?_set_ne (Ne.symm hji)] at hj
        exact h.done_iff j c n hj hn hl
      · simp [hji, hlt] at hj
      · rw [List.getElem?_set_ne (Ne.symm hji)] at hj
        exact (List.mem_cons.mp (h.open_mem j hj)).resolve_left hji
  | case4 marks i rest hu hp ih =>
      refine ih ⟨h.length_eq, h.done_iff, fun j hj => ?_⟩
      refine (List.mem_cons.mp (h.open_mem j hj)).resolve_left fun hji => ?_
      exact hp (hji ▸ hj)

theorem Sourcing.walkAll {marks : List Mark} (h : Sourcing g differs marks [])
    (roots : List Nat) : Sourcing g differs (g.walkAll differs roots marks) [] := by
  induction roots generalizing marks with
  | nil => exact h
  | cons root roots ih =>
      have hnone : ∀ j, marks[j]? ≠ some Mark.inProgress := fun j hj => by
        simpa using h.open_mem j hj
      exact ih (Sourcing.walk ⟨h.length_eq, h.done_iff, fun j hj => absurd hj (hnone j)⟩)

structure SameButInputOrder (g g' : Graph) : Prop where
  producers_eq : g'.producers = g.producers
  size_eq : g'.size = g.size
  nodes_rel : ∀ (i : Nat) (n : Node), g.nodes[i]? = some n → ∃ n' : Node,
    g'.nodes[i]? = some n' ∧ n'.function = n.function ∧ n'.target = n.target ∧
      n'.outputs = n.outputs ∧ n'.inputs.Perm n.inputs

theorem SameButInputOrder.exists_node_iff {g g' : Graph} (h : g.SameButInputOrder g') {i : Nat}
    {p : Node → Prop}
    (hp : ∀ n n' : Node, n'.function = n.function → n'.target = n.target →
      n'.outputs = n.outputs → n'.inputs.Perm n.inputs → (p n' ↔ p n)) :
    (∃ n', g'.nodes[i]? = some n' ∧ p n') ↔ ∃ n, g.nodes[i]? = some n ∧ p n := by
  cases hn : g.nodes[i]? with
  | none =>
      have hsize : g'.nodes.length = g.nodes.length := h.size_eq
      have hn' : g'.nodes[i]? = none := by
        rw [List.getElem?_eq_none_iff] at hn ⊢
        omega
      simp [hn']
  | some n =>
      obtain ⟨n', hn', hf, ht, ho, hi⟩ := h.nodes_rel i n hn
      simp [hn', hp n n' hf ht ho hi]

theorem SameButInputOrder.edge_eq {g g' : Graph} (h : g.SameButInputOrder g') :
    g'.Edge = g.Edge := by
  funext i j
  simp only [eq_iff_iff, edge_iff, producer?, h.producers_eq]
  exact h.exists_node_iff fun n n' _ _ _ hi => by simp only [hi.mem_iff]

theorem SameButInputOrder.changed_iff {g g' : Graph} (h : g.SameButInputOrder g') {i : Nat} :
    g'.Changed differs i ↔ g.Changed differs i := by
  have hpasses : g'.Passes = g.Passes := by
    funext j k
    unfold Passes
    rw [h.edge_eq, h.exists_node_iff fun n n' hf _ _ _ => by rw [Node.isLive, Node.isLive, hf]]
  have hsource : ∀ k, g'.SourceDiffers differs k ↔ g.SourceDiffers differs k := fun k =>
    h.exists_node_iff fun n n' hf _ ho _ => by rw [Node.isLive, Node.isLive, hf, ho]
  simp only [Changed, hpasses, hsource]

end Graph

namespace Delta

def differs (current previous : Cache) (s : Specification) : Bool :=
  !sameValue (current.get? s) (previous.get? s)

variable {g : Graph} {current previous : Cache}

theorem compute_congr {current' previous' : Cache}
    (hcurrent : ∀ s, sameValue (current.get? s) (current'.get? s) = true)
    (hprevious : ∀ s, sameValue (previous.get? s) (previous'.get? s) = true) :
    compute g current previous = compute g current' previous' := by
  have hsame : (fun s => !sameValue (current.get? s) (previous.get? s)) =
      fun s => !sameValue (current'.get? s) (previous'.get? s) :=
    funext fun s => congrArg not (sameValue_congr (hcurrent s) (hprevious s))
  rw [compute, compute, hsame]

theorem mem_changed {i : Nat} (hg : g.Acyclic) : i ∈ (compute g current previous).changed ↔
    i < g.size ∧ g.Changed (differs current previous) i := by
  change i ∈ (List.range g.size).filter (fun i =>
    (g.walkAll (differs current previous) (List.range g.size)
      (List.replicate g.size .unvisited))[i]? == some (.done true)) ↔ _
  rw [List.mem_filter, List.mem_range]
  refine and_congr_right fun hi => ?_
  obtain ⟨c, hc, hiff⟩ := Graph.walkAll_eq_done hg (List.mem_range.mpr hi) hi
  rw [hc, ← hiff]
  simp

theorem mem_unchanged {i : Nat} : i ∈ (compute g current previous).unchanged ↔
    i < g.size ∧ i ∉ (compute g current previous).changed := by
  simp only [compute, List.mem_filter, List.mem_range, Bool.not_eq_true']
  grind

theorem sameValue_of_unchanged {i : Nat} {n : Node} {s : Specification}
    (hi : i ∈ (compute g current previous).unchanged) (hn : g.nodes[i]? = some n)
    (hl : n.isLive = true) (hs : s ∈ n.outputs) :
    sameValue (current.get? s) (previous.get? s) = true := by
  have hmark : ∀ (j : Nat) (m : Mark), (List.replicate g.size Mark.unvisited)[j]? = some m →
      m = Mark.unvisited := fun j m hm => List.eq_of_mem_replicate (List.mem_of_getElem? hm)
  have hstart : Graph.Sourcing g (differs current previous)
      (List.replicate g.size .unvisited) [] :=
    ⟨by simp, fun j c _ hc => absurd (hmark j _ hc) (by simp),
      fun j hj => absurd (hmark j _ hj) (by simp)⟩
  have h := hstart.walkAll (List.range g.size)
  have hlt := List.mem_range.mpr (mem_unchanged.mp hi).1
  have hvisited : (g.walkAll (differs current previous) (List.range g.size)
    (List.replicate g.size .unvisited))[i]? ≠ some .unvisited :=
    Graph.walkAll_ne_unvisited (.inr hlt)
  replace hi := (List.mem_filter.mp hi).2
  change (!(g.walkAll (differs current previous) (List.range g.size)
    (List.replicate g.size .unvisited))[i]? == some (.done true)) = true at hi
  generalize g.walkAll (differs current previous) (List.range g.size)
    (List.replicate g.size .unvisited) = marks at h hvisited hi
  rcases Graph.closed_iff.mp ⟨hvisited, fun hp => by simpa using h.open_mem i hp⟩ with
    hnone | ⟨c, hc⟩
  · rw [List.getElem?_eq_none_iff, h.length_eq] at hnone
    exact absurd (List.mem_range.mp hlt) (by omega)
  · cases c with
    | true => simp [hc] at hi
    | false =>
        have hsame : ¬differs current previous s = true := fun hd =>
          absurd ((h.done_iff i false n hc hn hl).mpr ⟨s, hs, hd⟩) (by simp)
        simpa [differs] using hsame

theorem compute_ext {g' : Graph} (hs : g'.size = g.size)
    (h : ∀ i,
      i ∈ (compute g' current previous).changed ↔ i ∈ (compute g current previous).changed) :
    compute g' current previous = compute g current previous := by
  simp only [compute, hs, List.mem_filter, List.mem_range] at h ⊢
  congr 1 <;> refine List.filter_congr fun i hi => ?_
  all_goals
    have hi' := h i
    rw [List.mem_range] at hi
    grind

/-- On an acyclic graph, a live data sourcing node is changed exactly if one of its
outputs differs between the caches, and any other node exactly if a path through
nodes that are not live data sourcing leads from it to a changed live data
sourcing node. Neither the places where walks begin nor the order of the inputs
of nodes matter. -/
theorem changed_iff_path (g : Graph) (hg : g.Acyclic) (current previous : Cache) :
    (∀ (i : Nat) (n : Node), g.nodes[i]? = some n →
      (n.isLive = true → (i ∈ (compute g current previous).changed ↔
        ∃ s ∈ n.outputs, sameValue (current.get? s) (previous.get? s) = false)) ∧
      (n.isLive = false → (i ∈ (compute g current previous).changed ↔
        ∃ (k : Nat) (m : Node), ReflTransGen g.Passes i k ∧ g.nodes[k]? = some m ∧
          m.isLive = true ∧ k ∈ (compute g current previous).changed)) ∧
      (i ∈ (compute g current previous).unchanged ↔
        i ∉ (compute g current previous).changed)) ∧
    (∀ (roots : List Nat) (i : Nat), i ∈ roots → i < g.size →
      (g.walkAll (differs current previous) roots (List.replicate g.size .unvisited))[i]? =
        some (.done (decide (i ∈ (compute g current previous).changed)))) ∧
    ∀ g' : Graph, g.SameButInputOrder g' →
      compute g' current previous = compute g current previous := by
  have hsize : ∀ {i : Nat} {n : Node}, g.nodes[i]? = some n → i < g.size :=
    fun hn => (List.getElem?_eq_some_iff.mp hn).choose
  have hlive : ∀ {i : Nat} {n : Node}, g.nodes[i]? = some n → n.isLive = true →
      (i ∈ (compute g current previous).changed ↔
        ∃ s ∈ n.outputs, sameValue (current.get? s) (previous.get? s) = false) := by
    intro i n hn hl
    simp [mem_changed hg, hsize hn, Graph.changed_of_live hn hl, differs]
  refine ⟨fun i n hn => ⟨hlive hn, fun hl => ?_, ?_⟩, fun roots i hr hi => ?_, fun g' hg' => ?_⟩
  · rw [mem_changed hg]
    constructor
    · rintro ⟨-, k, hp, m, hm, hlm, hs⟩
      exact ⟨k, m, hp, hm, hlm, (hlive hm hlm).mpr (by simpa [differs] using hs)⟩
    · rintro ⟨k, m, hp, hm, hlm, hk⟩
      exact ⟨hsize hn, k, hp, m, hm, hlm, by simpa [differs] using (hlive hm hlm).mp hk⟩
  · simp [mem_unchanged, hsize hn]
  · obtain ⟨c, hc, hiff⟩ := Graph.walkAll_eq_done hg hr hi
    rw [hc]
    congr 2
    rw [Bool.eq_iff_iff, hiff, decide_eq_true_iff, mem_changed hg]
    simp [hi]
  · refine compute_ext hg'.size_eq fun i => ?_
    have hg'' : g'.Acyclic := by
      unfold Graph.Acyclic
      rw [hg'.edge_eq]
      exact hg
    rw [mem_changed hg, mem_changed hg'', hg'.changed_iff, hg'.size_eq]

open Graph.Sample

def Sample.spot (n : Json.Integer) : Cache := ⟨{(quantity "Spot" "spot", .int n)}, ∅⟩

/-- The spot price of the diamond differs, and so the node above both paths is changed. -/
theorem diamond_top_changed : diamond.Acyclic ∧
    0 ∈ (compute diamond (Sample.spot ⟨2, by decide⟩) (Sample.spot ⟨1, by decide⟩)).changed := by
  refine ⟨diamond_acyclic, ?_⟩
  have h := (changed_iff_path diamond diamond_acyclic (Sample.spot ⟨2, by decide⟩)
    (Sample.spot ⟨1, by decide⟩)).1
  have hspot : 3 ∈ (compute diamond (Sample.spot ⟨2, by decide⟩)
      (Sample.spot ⟨1, by decide⟩)).changed :=
    ((h 3 (step "spot" .liveDataSourcing [] (quantity "Spot" "spot")) rfl).1 rfl).mpr
      ⟨quantity "Spot" "spot", by decide, by decide⟩
  have hleft : diamond.Passes 0 1 := ⟨by decide, _, rfl, rfl⟩
  have hright : diamond.Passes 1 3 := ⟨by decide, _, rfl, rfl⟩
  exact ((h 0 _ rfl).2.1 rfl).mpr ⟨3, _, .head hleft (.single hright), rfl, rfl, hspot⟩

end Delta
end ValuationCycle
