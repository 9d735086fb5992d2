import Mathlib.Data.List.Dedup
import Mathlib.Data.List.Forall2
import Mathlib.Logic.Function.Basic
import ValuationCycle.Proofs.Graph.Edges
import ValuationCycle.Proofs.Job.Answers

/-!
# Numbers asked for by many

Any number of threads ask for the numbers of specifications and for the specifications of
numbers, all at once. To number a specification is to look it up and, if nothing was found, to
look again and assign the next number; between the two anything may happen. So a row of steps
is an interleaving of looks and writes. The numbers assigned are always those from one on, each
of another specification, and what was once answered stays the answer.
-/
namespace ValuationCycle
open Std Wire

/-- What a thread asks the numbers of, in order, those it has got, and whether it has just looked
and found nothing. One specification is asked for as a row of one. -/
structure Inquiry where
  wanted : List Specification
  numbers : List Int64
  missed : Bool

namespace Inquiry

def numbered (q : Inquiry) : List Specification := q.wanted.take q.numbers.length

def left (q : Inquiry) : List Specification := q.wanted.drop q.numbers.length

def due? (q : Inquiry) : Option Specification := q.wanted[q.numbers.length]?

def got (q : Inquiry) (n : Int64) : Inquiry := ⟨q.wanted, q.numbers ++ [n], false⟩

variable {q : Inquiry} {s : Specification}

theorem numbered_got (h : q.due? = some s) (n : Int64) :
    (q.got n).numbered = q.numbered ++ [s] := by
  obtain ⟨hlt, rfl⟩ := List.getElem?_eq_some_iff.mp h
  rw [numbered, numbered, got, List.length_append, List.length_singleton,
    List.take_succ_eq_append_getElem hlt]

theorem left_got (h : q.due? = some s) (n : Int64) : q.left = s :: (q.got n).left := by
  obtain ⟨hlt, rfl⟩ := List.getElem?_eq_some_iff.mp h
  rw [left, left, got, List.length_append, List.length_singleton, List.drop_eq_getElem_cons hlt]

theorem left_of_due?_none (h : q.due? = none) : q.left = [] :=
  List.drop_eq_nil_iff.mpr (List.getElem?_eq_none_iff.mp h)

theorem numbered_of_due?_none (h : q.due? = none) : q.numbered = q.wanted :=
  List.take_of_length_le (List.getElem?_eq_none_iff.mp h)

end Inquiry

/-- What a thread was told: the number of one specification, the numbers of all that it had asked
for, or the specification of a number. -/
inductive IdentifierAnswer where
  | number (s : Specification) (n : Int64)
  | numbers (ss : List Specification) (ns : List Int64)
  | specification (n : Int64) (s : Option Specification)

inductive IssuingStep where
  /-- Begins to ask for numbers. -/
  | ask (thread : Nat) (wanted : List Specification)
  /-- Looks for a number without assigning one. -/
  | look (thread : Nat)
  /-- Looks again, and assigns a number if there still is none. -/
  | write (thread : Nat)
  /-- Takes the numbers away. -/
  | finish (thread : Nat)
  /-- Asks for the specification of a number. -/
  | resolve (thread : Nat) (n : Int64)

def IssuingStep.asked : IssuingStep → List Specification
  | ask _ wanted => wanted
  | look _ | write _ | finish _ | resolve _ _ => []

/-- The identifiers with what is being asked by whom and what was answered so far. -/
structure Issuing where
  identifiers : Identifiers
  inquiries : Nat → Option Inquiry
  answers : List IdentifierAnswer

namespace Issuing

def start : Issuing := ⟨.empty, fun _ => none, []⟩

def give (x : Issuing) (t : Nat) (q : Inquiry) (s : Specification) (n : Int64) : Issuing :=
  { x with
    inquiries := Function.update x.inquiries t (some (q.got n))
    answers := x.answers ++ [.number s n] }

section
variable (x : Issuing) (t : Nat) (q : Inquiry) (s : Specification) (n : Int64)

@[simp] theorem identifiers_give : (x.give t q s n).identifiers = x.identifiers := rfl

@[simp] theorem inquiries_give :
    (x.give t q s n).inquiries = Function.update x.inquiries t (some (q.got n)) := rfl

@[simp] theorem answers_give : (x.give t q s n).answers = x.answers ++ [.number s n] := rfl

end

def step? (x : Issuing) : IssuingStep → Option Issuing
  | .ask t wanted =>
    match x.inquiries t with
    | none => some { x with inquiries := Function.update x.inquiries t (some ⟨wanted, [], false⟩) }
    | some _ => none
  | .look t => do
    let q ← x.inquiries t
    let s ← q.due?
    if q.missed then none
    else match x.identifiers.find? s with
      | some n => some (x.give t q s n)
      | none => some { x with
          inquiries := Function.update x.inquiries t (some { q with missed := true }) }
  | .write t => do
    let q ← x.inquiries t
    let s ← q.due?
    if q.missed then
      let (identifiers, n) := x.identifiers.assign s
      some ({ x with identifiers }.give t q s n)
    else none
  | .finish t => do
    let q ← x.inquiries t
    match q.due? with
    | none => some { x with
        inquiries := Function.update x.inquiries t none
        answers := x.answers ++ [.numbers q.wanted q.numbers] }
    | some _ => none
  | .resolve t n =>
    match x.inquiries t with
    | none => some { x with
        answers := x.answers ++ [.specification n (x.identifiers.specification? n)] }
    | some _ => none

def steps? (x : Issuing) (es : List IssuingStep) : Option Issuing := es.foldlM step? x

/-- A number is being asked for and has not been got yet. -/
def Outstanding (x : Issuing) (s : Specification) : Prop :=
  ∃ t q, x.inquiries t = some q ∧ s ∈ q.left

/-- All that a step can do. A number that was found and one that was assigned are got alike. -/
inductive Effect (x : Issuing) : IssuingStep → Issuing → Prop
  | ask {t : Nat} {wanted : List Specification} : x.inquiries t = none →
      Effect x (.ask t wanted)
        { x with inquiries := Function.update x.inquiries t (some ⟨wanted, [], false⟩) }
  | miss {t : Nat} {q : Inquiry} {s : Specification} : x.inquiries t = some q →
      q.due? = some s → q.missed = false → x.identifiers.find? s = none →
      Effect x (.look t)
        { x with inquiries := Function.update x.inquiries t (some { q with missed := true }) }
  | get {e : IssuingStep} {t : Nat} {q : Inquiry} {s : Specification} :
      e = .look t ∧ q.missed = false ∨ e = .write t ∧ q.missed = true → x.inquiries t = some q →
      q.due? = some s →
      Effect x e ({ x with identifiers := (x.identifiers.identify s).1 }.give t q s
        (x.identifiers.identify s).2)
  | finish {t : Nat} {q : Inquiry} : x.inquiries t = some q → q.due? = none →
      Effect x (.finish t) { x with
        inquiries := Function.update x.inquiries t none
        answers := x.answers ++ [.numbers q.wanted q.numbers] }
  | resolve {t : Nat} {n : Int64} : x.inquiries t = none →
      Effect x (.resolve t n) { x with
        answers := x.answers ++ [.specification n (x.identifiers.specification? n)] }

variable {x y : Issuing} {e : IssuingStep}

theorem effect_of_step? (h : x.step? e = some y) : x.Effect e y := by
  cases e with
  | ask t wanted =>
      cases hq : x.inquiries t with
      | some q => simp [step?, hq] at h
      | none =>
          simp only [step?, hq, Option.some.injEq] at h
          exact h ▸ .ask hq
  | look t =>
      simp only [step?, Option.bind_eq_bind, Option.bind_eq_some_iff] at h
      obtain ⟨q, hq, s, hs, h⟩ := h
      cases hm : q.missed with
      | true => simp [hm] at h
      | false =>
          cases hf : x.identifiers.find? s with
          | none =>
              simp only [hm, hf, Bool.false_eq_true, reduceIte, Option.some.injEq] at h
              exact h ▸ .miss hq hs hm hf
          | some n =>
              simp only [hm, hf, Bool.false_eq_true, reduceIte, Option.some.injEq] at h
              have hget := Effect.get (.inl ⟨rfl, hm⟩) hq hs
              rw [Identifiers.identify_of_find? hf] at hget
              exact h ▸ hget
  | write t =>
      simp only [step?, Option.bind_eq_bind, Option.bind_eq_some_iff,
        Identifiers.assign_eq_identify] at h
      obtain ⟨q, hq, s, hs, h⟩ := h
      cases hm : q.missed with
      | true =>
          simp only [hm, reduceIte, Option.some.injEq] at h
          exact h ▸ .get (.inr ⟨rfl, hm⟩) hq hs
      | false => simp [hm] at h
  | finish t =>
      simp only [step?, Option.bind_eq_bind, Option.bind_eq_some_iff] at h
      obtain ⟨q, hq, h⟩ := h
      cases hs : q.due? with
      | none =>
          simp only [hs, Option.some.injEq] at h
          exact h ▸ .finish hq hs
      | some s => simp [hs] at h
  | resolve t n =>
      cases hq : x.inquiries t with
      | some q => simp [step?, hq] at h
      | none =>
          simp only [step?, hq, Option.some.injEq] at h
          exact h ▸ .resolve hq

/-- Nobody waits for another: who asks for numbers can go on. -/
theorem exists_step? {t : Nat} {q : Inquiry} (h : x.inquiries t = some q) :
    ∃ e ∈ [IssuingStep.look t, .write t, .finish t], (x.step? e).isSome := by
  cases hs : q.due? with
  | none => exact ⟨.finish t, by simp, by simp [step?, h, hs]⟩
  | some s =>
      cases hm : q.missed with
      | true => exact ⟨.write t, by simp, by simp [step?, h, hs, hm]⟩
      | false =>
          refine ⟨.look t, by simp, ?_⟩
          cases hf : x.identifiers.find? s <;> simp [step?, h, hs, hm, hf]

/-- A thread that looks and, if need be, writes at once gets what it asks for. -/
theorem exists_get {t : Nat} {q : Inquiry} {s : Specification} (hq : x.inquiries t = some q)
    (hs : q.due? = some s) (hm : q.missed = false) :
    ∃ es, x.steps? es = some ({ x with identifiers := (x.identifiers.identify s).1 }.give t q s
      (x.identifiers.identify s).2) := by
  cases hf : x.identifiers.find? s with
  | some n =>
      refine ⟨[.look t], ?_⟩
      simp [steps?, step?, hq, hs, hm, hf, Identifiers.identify_of_find? hf]
  | none =>
      have hdue : ({ q with missed := true } : Inquiry).due? = some s := hs
      have hgot : ∀ n, ({ q with missed := true } : Inquiry).got n = q.got n := fun _ => rfl
      refine ⟨[.look t, .write t], ?_⟩
      simp [steps?, step?, give, hq, hs, hm, hf, hdue, hgot, Identifiers.assign_eq_identify]

/-- A thread that nobody comes in between gets the numbers as one that is alone. -/
theorem exists_undisturbed {t : Nat} {q : Inquiry} (hq : x.inquiries t = some q)
    (hm : q.missed = false) : ∃ es y, x.steps? es = some y ∧
      y.identifiers = (x.identifiers.identifyAll q.left).1 ∧
      .numbers q.wanted (q.numbers ++ (x.identifiers.identifyAll q.left).2) ∈ y.answers := by
  induction hl : q.left generalizing x q with
  | nil =>
      have hs : q.due? = none := by
        rw [Inquiry.due?, List.getElem?_eq_none_iff]
        exact List.drop_eq_nil_iff.mp hl
      have hstep : x.steps? [.finish t] = some { x with
          inquiries := Function.update x.inquiries t none
          answers := x.answers ++ [.numbers q.wanted q.numbers] } := by
        simp [steps?, step?, hq, hs]
      exact ⟨[.finish t], _, hstep, rfl, by simp [Identifiers.identifyAll]⟩
  | cons s rest ih =>
      have hs : q.due? = some s := by
        rw [Inquiry.due?, ← List.head?_drop]
        exact congrArg List.head? hl
      obtain ⟨es, hes⟩ := exists_get hq hs hm
      have hrest : (q.got (x.identifiers.identify s).2).left = rest :=
        (List.cons.inj ((Inquiry.left_got hs _).symm.trans hl)).2
      obtain ⟨es', y, hes', hy, hanswer⟩ := ih (q := q.got (x.identifiers.identify s).2)
        (x := { x with identifiers := (x.identifiers.identify s).1 }.give t q s
          (x.identifiers.identify s).2) (by simp) rfl hrest
      refine ⟨es ++ es', y, ?_, hy, ?_⟩
      · rw [steps?, List.foldlM_append]
        exact Option.bind_eq_some_iff.mpr ⟨_, hes, hes'⟩
      · simpa [Inquiry.got, Identifiers.identifyAll] using hanswer

end Issuing

def Identifiers.Assigns (m : Identifiers) : List Specification → List Int64 → Prop :=
  List.Forall₂ fun s n => m.find? s = some n

namespace Issuing
variable {x y : Issuing} {e : IssuingStep}

/-- What holds between the steps, when these specifications have been asked for. -/
structure Kept (asked : List Specification) (x : Issuing) : Prop where
  sound : x.identifiers.Sound
  number : ∀ s n, .number s n ∈ x.answers ↔ x.identifiers.find? s = some n
  numbers : ∀ ss ns, .numbers ss ns ∈ x.answers → x.identifiers.Assigns ss ns
  numbered : ∀ t q, x.inquiries t = some q → x.identifiers.Assigns q.numbered q.numbers
  asked : ∀ s, s ∈ asked ↔ s ∈ x.identifiers.assigned ∨ x.Outstanding s

theorem kept_start : start.Kept [] where
  sound := Identifiers.sound_empty
  number := by simp [start, Identifiers.find?, Identifiers.empty]
  numbers := by simp [start]
  numbered := by simp [start]
  asked := by simp [start, Identifiers.empty, Outstanding]

theorem outstanding_update {t : Nat} {o : Option Inquiry} {s : Specification}
    (h : y.inquiries = Function.update x.inquiries t o) :
    y.Outstanding s ↔ (∃ q, o = some q ∧ s ∈ q.left) ∨
      ∃ t' ≠ t, ∃ q, x.inquiries t' = some q ∧ s ∈ q.left := by
  rw [Outstanding, h]
  exact Function.exists_update_iff x.inquiries fun _ o => ∃ q, o = some q ∧ s ∈ q.left

theorem outstanding_iff (t : Nat) {s : Specification} :
    x.Outstanding s ↔ (∃ q, x.inquiries t = some q ∧ s ∈ q.left) ∨
      ∃ t' ≠ t, ∃ q, x.inquiries t' = some q ∧ s ∈ q.left :=
  outstanding_update (Function.update_eq_self t x.inquiries).symm

theorem Kept.numbered_update {asked : List Specification} (h : x.Kept asked) {t : Nat}
    {o : Option Inquiry} (ho : ∀ q, o = some q → x.identifiers.Assigns q.numbered q.numbers)
    (t' : Nat) (q : Inquiry) (hq : Function.update x.inquiries t o t' = some q) :
    x.identifiers.Assigns q.numbered q.numbers := by
  by_cases ht : t' = t
  · subst ht
    exact ho q (by simpa using hq)
  · exact h.numbered t' q (by rwa [Function.update_of_ne ht] at hq)

theorem Kept.give {asked : List Specification} (h : x.Kept asked) {t : Nat} {q : Inquiry}
    {s : Specification} (hq : x.inquiries t = some q) (hs : q.due? = some s) :
    ({ x with identifiers := (x.identifiers.identify s).1 }.give t q s
      (x.identifiers.identify s).2).Kept asked := by
  have hsound := h.sound.identify s
  have hmono : ∀ s' n, x.identifiers.find? s' = some n →
      (x.identifiers.identify s).1.find? s' = some n :=
    fun _ _ => h.sound.find?_mono hsound (x.identifiers.assigned_identify s)
  have hnew := x.identifiers.find?_identify s
  refine ⟨hsound, fun s' n => ?_, fun ss ns hns => ?_, fun t' q' hq' => ?_, fun s' => ?_⟩
  · simp only [answers_give, identifiers_give, List.mem_append, List.mem_singleton, h.number,
      IdentifierAnswer.number.injEq]
    constructor
    · rintro (hn | ⟨rfl, rfl⟩)
      · exact hmono s' n hn
      · exact hnew
    · intro hn
      rcases (h.sound.mem_assigned_identify).mp (hsound.mem_assigned.mpr ⟨n, hn⟩) with hold | rfl
      · obtain ⟨n', hn'⟩ := h.sound.mem_assigned.mp hold
        obtain rfl := Option.some.inj (hn.symm.trans (hmono s' n' hn'))
        exact .inl hn'
      · exact .inr ⟨rfl, Option.some.inj (hn.symm.trans hnew)⟩
  · have hold : .numbers ss ns ∈ x.answers := by simpa using hns
    exact (h.numbers ss ns hold).imp hmono
  · by_cases ht : t' = t
    · subst ht
      obtain rfl : q.got (x.identifiers.identify s).2 = q' := by simpa using hq'
      rw [Inquiry.numbered_got hs]
      exact List.rel_append ((h.numbered t' q hq).imp hmono) (.cons hnew .nil)
    · rw [inquiries_give, Function.update_of_ne ht] at hq'
      exact (h.numbered t' q' hq').imp hmono
  · rw [h.asked, outstanding_iff t, outstanding_update (inquiries_give ..), identifiers_give,
      h.sound.mem_assigned_identify]
    simp only [hq, Option.some.injEq, exists_eq_left',
      Inquiry.left_got hs (x.identifiers.identify s).2, List.mem_cons, or_assoc]

theorem Kept.step {asked : List Specification} (h : x.Kept asked) (he : x.Effect e y) :
    y.Kept (asked ++ e.asked) := by
  cases he with
  | @ask t wanted hq =>
      refine ⟨h.sound, h.number, h.numbers, h.numbered_update ?_, fun s => ?_⟩
      · rintro q ⟨⟩
        exact .nil
      · rw [outstanding_update rfl, List.mem_append, h.asked, outstanding_iff t]
        simp [hq, IssuingStep.asked, Inquiry.left, or_right_comm, or_assoc]
  | @miss t q s hq hs hm hf =>
      refine ⟨h.sound, h.number, h.numbers, h.numbered_update ?_, fun s' => ?_⟩
      · rintro q' ⟨⟩
        exact h.numbered t q hq
      · rw [outstanding_update rfl, List.mem_append, h.asked, outstanding_iff t]
        simp [hq, IssuingStep.asked, Inquiry.left]
  | @get e t q s hm hq hs =>
      have hasked : e.asked = [] := by
        rcases hm with ⟨rfl, -⟩ | ⟨rfl, -⟩ <;> rfl
      rw [hasked, List.append_nil]
      exact h.give hq hs
  | @finish t q hq hs =>
      refine ⟨h.sound, by simpa using h.number, fun ss ns hns => ?_, h.numbered_update nofun,
        fun s' => ?_⟩
      · rcases List.mem_append.mp hns with hold | hnew
        · exact h.numbers ss ns hold
        · obtain ⟨rfl, rfl⟩ : ss = q.wanted ∧ ns = q.numbers := by simpa using hnew
          rw [← Inquiry.numbered_of_due?_none hs]
          exact h.numbered t q hq
      · rw [outstanding_update rfl, List.mem_append, h.asked, outstanding_iff t]
        simp [hq, IssuingStep.asked, Inquiry.left_of_due?_none hs]
  | @resolve t n hq =>
      exact ⟨h.sound, by simpa using h.number, by simpa using h.numbers, h.numbered,
        by simpa [IssuingStep.asked, Outstanding] using h.asked⟩

/-- A row of steps after another: numbers are only added, and so are answers. What was answered
about a number was looked up in numbers that were not fewer. -/
structure Extends (x y : Issuing) : Prop where
  assigned : x.identifiers.assigned <+: y.identifiers.assigned
  answers : ∃ new, y.answers = x.answers ++ new ∧ ∀ n r, .specification n r ∈ new →
    ∃ m : Identifiers, x.identifiers.assigned <+: m.assigned ∧ r = m.specification? n

theorem Extends.refl (x : Issuing) : x.Extends x :=
  ⟨List.prefix_refl _, [], by simp, by simp⟩

theorem Extends.trans {z : Issuing} (h : x.Extends y) (h' : y.Extends z) : x.Extends z := by
  obtain ⟨new, hnew, hr⟩ := h.answers
  obtain ⟨new', hnew', hr'⟩ := h'.answers
  refine ⟨h.assigned.trans h'.assigned, new ++ new', by simp [hnew, hnew'], fun n r hmem => ?_⟩
  rcases List.mem_append.mp hmem with hmem | hmem
  · exact hr n r hmem
  · obtain ⟨m, hm, heq⟩ := hr' n r hmem
    exact ⟨m, h.assigned.trans hm, heq⟩

theorem Effect.extends (h : x.Effect e y) : x.Extends y := by
  cases h with
  | ask | miss => exact ⟨List.prefix_refl _, [], by simp, by simp⟩
  | get => exact ⟨x.identifiers.assigned_identify _, _, rfl, by simp⟩
  | finish => exact ⟨List.prefix_refl _, _, rfl, by simp⟩
  | resolve =>
      refine ⟨List.prefix_refl _, _, rfl, fun n r hr => ⟨x.identifiers, List.prefix_refl _, ?_⟩⟩
      obtain ⟨rfl, rfl⟩ : n = _ ∧ r = _ := by simpa using hr
      rfl

theorem Kept.steps {es : List IssuingStep} {asked : List Specification} (h : x.Kept asked)
    (hy : x.steps? es = some y) :
    y.Kept (asked ++ es.flatMap IssuingStep.asked) ∧ x.Extends y := by
  induction es generalizing x asked with
  | nil =>
      obtain rfl : x = y := by simpa [steps?] using hy
      exact ⟨by simpa using h, .refl x⟩
  | cons e es ih =>
      obtain ⟨x', hx', hrest⟩ : ∃ x', x.step? e = some x' ∧ x'.steps? es = some y := by
        simpa [steps?, List.foldlM_cons, Option.bind_eq_some_iff] using hy
      have he := effect_of_step? hx'
      obtain ⟨hkept, hextends⟩ := ih (h.step he) hrest
      exact ⟨by simpa using hkept, he.extends.trans hextends⟩

/-- What holds of the numbers at every moment, when these specifications have been asked for. -/
structure Agreed (asked : List Specification) (x : Issuing) : Prop where
  /-- Exactly the numbers from one to the size are assigned. -/
  sequential : ∀ n, (∃ s, x.identifiers.find? s = some n) ↔
    1 ≤ n.toInt ∧ n.toInt ≤ x.identifiers.size
  /-- Specifications have a number when they have been asked for, unless the answer is due. -/
  asked : ∀ s, s ∈ asked ↔ (∃ n, x.identifiers.find? s = some n) ∨ x.Outstanding s
  distinct : ∀ s s' n, x.identifiers.find? s = some n → x.identifiers.find? s' = some n → s = s'
  answered : ∀ s n, .number s n ∈ x.answers ↔ x.identifiers.find? s = some n
  resolved : ∀ s n, x.identifiers.specification? n = some s ↔ x.identifiers.find? s = some n
  unassigned : ∀ n, x.identifiers.specification? n = none ↔
    n.toInt ≤ 0 ∨ x.identifiers.size < n.toInt
  /-- Who asks for numbers can go on, whatever the others do. -/
  proceeds : ∀ t q, x.inquiries t = some q →
    ∃ e ∈ [IssuingStep.look t, .write t, .finish t], (x.step? e).isSome

/-- What was answered at an earlier moment holds at a later one. -/
structure Upholds (x y : Issuing) : Prop where
  number : ∀ s n, .number s n ∈ x.answers → ∀ n', .number s n' ∈ y.answers → n' = n
  resolved : ∀ s n, .number s n ∈ x.answers → y.identifiers.specification? n = some s
  specification : ∀ s n, .number s n ∈ x.answers → ∀ new, y.answers = x.answers ++ new →
    ∀ r, .specification n r ∈ new → r = some s
  numbers : ∀ ss ns, .numbers ss ns ∈ x.answers →
    y.identifiers.Assigns ss ns ∧ y.identifiers.Resolves ns ss
  /-- A job that was written with the numbers of its node's inputs is read with numbers that lead
  to these inputs. -/
  job : ∀ (node : Node) ns, .numbers node.inputs ns ∈ x.answers →
    receivedPayload? node.function.parameters.payload ≠ none →
    ∃ j : JobItem, Codec.ofText (Codec.text (JobItem.ofNumbered node ns)) = .ok j ∧
      y.identifiers.Resolves j.inputs node.inputs

end Issuing

theorem Identifiers.Assigns.resolves {m : Identifiers} {ss : List Specification}
    {ns : List Int64} (h : m.Assigns ss ns) (hm : m.Sound) (hsize : m.size < 2 ^ 63) :
    m.Resolves ns ss := by
  induction h with
  | nil => exact resolves_nil
  | cons hs _ ih =>
      unfold Resolves at ih ⊢
      rw [List.map_cons, List.map_cons, hm.specification?_eq hsize hs, ih]

namespace Issuing
variable {x y : Issuing} {asked : List Specification}

theorem Kept.size_le (h : x.Kept asked) {known : List Specification} (hk : asked ⊆ known) :
    x.identifiers.size ≤ known.dedup.length :=
  h.sound.size_le fun s hs => List.mem_dedup.mpr (hk ((h.asked s).mpr (.inl hs)))

theorem Kept.agreed (h : x.Kept asked) (hsize : x.identifiers.size < 2 ^ 63) :
    x.Agreed asked where
  sequential n := by
    have hnone := x.identifiers.specification?_eq_none_iff (n := n)
    simp only [← h.sound.specification?_eq_some_iff hsize, ← Option.isSome_iff_exists,
      Option.isSome_iff_ne_none, ne_eq, hnone]
    omega
  asked s := by rw [h.asked, h.sound.mem_assigned]
  distinct s s' n hs hs' := Option.some.inj
    ((h.sound.specification?_eq hsize hs).symm.trans (h.sound.specification?_eq hsize hs'))
  answered := h.number
  resolved _ _ := h.sound.specification?_eq_some_iff hsize
  unassigned _ := Identifiers.specification?_eq_none_iff
  proceeds _ _ := exists_step?

theorem Kept.upholds {later : List Specification} (h : x.Kept asked) (h' : y.Kept later)
    (hxy : x.Extends y) (hsize : x.identifiers.size < 2 ^ 63)
    (hsize' : y.identifiers.size < 2 ^ 63) : x.Upholds y := by
  have hmono : ∀ s n, x.identifiers.find? s = some n → y.identifiers.find? s = some n :=
    fun _ _ => h.sound.find?_mono h'.sound hxy.assigned
  have hnumbers : ∀ ss ns, .numbers ss ns ∈ x.answers →
      y.identifiers.Assigns ss ns ∧ y.identifiers.Resolves ns ss := fun ss ns hns =>
    have hassigns := (h.numbers ss ns hns).imp hmono
    ⟨hassigns, Identifiers.Assigns.resolves hassigns h'.sound hsize'⟩
  refine ⟨fun s n hn n' hn' => ?_, fun s n hn => ?_, fun s n hn new hnew r hr => ?_, hnumbers,
    fun node ns hns hpayload => ?_⟩
  · exact Option.some.inj (((h'.number s n').mp hn').symm.trans (hmono s n ((h.number s n).mp hn)))
  · exact h'.sound.specification?_eq hsize' (hmono s n ((h.number s n).mp hn))
  · obtain ⟨new', hnew', hall⟩ := hxy.answers
    obtain rfl := List.append_cancel_left (hnew.symm.trans hnew')
    obtain ⟨m, hm, rfl⟩ := hall n r hr
    exact Identifiers.specification?_mono hm
      (h.sound.specification?_eq hsize ((h.number s n).mp hn))
  · obtain ⟨payload, hreceived⟩ := Option.ne_none_iff_exists'.mp hpayload
    have hread := ofText_text_jobItem (JobItem.ofNumbered node ns)
    rw [show (JobItem.ofNumbered node ns).parameters.payload = node.function.parameters.payload
      from rfl, hreceived] at hread
    exact ⟨_, hread, (hnumbers node.inputs ns hns).2⟩

/-- However the looks and writes of any number of threads fall between each other, as long as
fewer than `2 ^ 63` specifications are asked for: the numbers assigned are those from one on,
each the number of one specification that was asked for; no other number leads to a
specification; and whatever was answered about a number holds ever after, so that a job written
at any moment leads to the inputs of its node. -/
theorem agreed_and_upheld (es later : List IssuingStep) {x y : Issuing}
    (hx : start.steps? es = some x) (hy : x.steps? later = some y)
    (hfew : ((es ++ later).flatMap IssuingStep.asked).dedup.length < 2 ^ 63) :
    x.Agreed (es.flatMap IssuingStep.asked) ∧ x.Upholds y := by
  obtain ⟨hkept, -⟩ := kept_start.steps hx
  obtain ⟨hlater, hxy⟩ := hkept.steps hy
  rw [List.nil_append] at hkept hlater
  rw [← List.flatMap_append] at hlater
  have hsize' := (hlater.size_le (List.Subset.refl _)).trans_lt hfew
  have hsize := (hkept.size_le (by simp)).trans_lt hfew
  exact ⟨hkept.agreed hsize, hkept.upholds hlater hxy hsize hsize'⟩

namespace Sample
open Graph.Sample

/-- Two threads look for the number of one specification and find none; both go on to assign it. -/
def race : List IssuingStep :=
  [.ask 0 [quantity "Spot" "1"], .ask 1 [quantity "Spot" "1", quantity "Forward" "1"],
    .look 0, .look 1, .write 1, .write 0, .look 1, .write 1, .finish 1, .finish 0]

end Sample

open Graph.Sample Sample

/-- After the race both have the same number, and it stays. -/
theorem race_agreed_and_upheld : ∃ x y, start.steps? race = some x ∧
    x.steps? [.ask 2 [quantity "Forward" "1"], .look 2, .finish 2, .resolve 2 1] = some y ∧
    x.answers = [.number (quantity "Spot" "1") 1, .number (quantity "Spot" "1") 1,
      .number (quantity "Forward" "1") 2,
      .numbers [quantity "Spot" "1", quantity "Forward" "1"] [1, 2],
      .numbers [quantity "Spot" "1"] [1]] ∧
    y.answers = x.answers ++ [.number (quantity "Forward" "1") 2,
      .numbers [quantity "Forward" "1"] [2], .specification 1 (some (quantity "Spot" "1"))] ∧
    x.Agreed (race.flatMap IssuingStep.asked) ∧ x.Upholds y :=
  ⟨_, _, rfl, rfl, rfl, rfl, agreed_and_upheld race
    [.ask 2 [quantity "Forward" "1"], .look 2, .finish 2, .resolve 2 1] rfl rfl (by decide)⟩

end Issuing
end ValuationCycle
