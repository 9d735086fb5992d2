import Mathlib.Data.List.Perm.Basic
import ValuationCycle.Proofs.Job.Dispatching

/-!
# Inputs by name

A function may ask for an input by the name of its value. The values are gone through in an order
that has nothing to do with that of the inputs, so of several inputs of one name any may be found.
What is found is always the value of an input of the name, and nothing is found only if there is no
such input. It is sure to be the value of the first of them exactly if all of them have that value.
-/
namespace ValuationCycle
open Json Std Wire

namespace FunctionInputs
variable {i : FunctionInputs} {order : List (Specification × Value)} {name : String} {v : Value}

/-- The first value of a name, when the values are gone through in an order. -/
def found (order : List (Specification × Value)) (name : String) : Option Value :=
  (order.find? fun e => e.1.valueName == name).map Prod.snd

/-- What a lookup by name may find: the first value of the name, in some order of the values. -/
def MayFind (i : FunctionInputs) (name : String) (answer : Option Value) : Prop :=
  ∃ order, order.Perm i.values.toList ∧ found order name = answer

theorem mayFind_value? (i : FunctionInputs) (name : String) : i.MayFind name (i.value? name) :=
  ⟨i.values.toList, .refl _, rfl⟩

theorem found_eq_none_iff : found order name = none ↔ ∀ e ∈ order, e.1.valueName ≠ name := by
  simp [found]

theorem mem_of_found (h : found order name = some v) :
    ∃ s, (s, v) ∈ order ∧ s.valueName = name := by
  obtain ⟨⟨s, v⟩, he, rfl⟩ := Option.map_eq_some_iff.mp h
  exact ⟨s, List.mem_of_find?_eq_some he, by simpa using List.find?_some he⟩

theorem mayFind_none_iff :
    i.MayFind name none ↔ ∀ s v, i.get? s = some v → s.valueName ≠ name := by
  have hmem : ∀ s v, (s, v) ∈ i.values.toList ↔ i.get? s = some v := fun _ _ =>
    ExtTreeMap.mem_toList_iff_getElem?_eq_some
  constructor
  · rintro ⟨order, horder, hfound⟩ s v hs
    exact found_eq_none_iff.mp hfound (s, v) (horder.mem_iff.mpr ((hmem s v).mpr hs))
  · intro h
    refine ⟨i.values.toList, .refl _, found_eq_none_iff.mpr fun e he => ?_⟩
    exact h e.1 e.2 ((hmem e.1 e.2).mp he)

/-- Any value of the name may be found, since it may be the first that is come upon. -/
theorem mayFind_some_iff :
    i.MayFind name (some v) ↔ ∃ s, i.get? s = some v ∧ s.valueName = name := by
  have hmem : ∀ s, (s, v) ∈ i.values.toList ↔ i.get? s = some v := fun _ =>
    ExtTreeMap.mem_toList_iff_getElem?_eq_some
  constructor
  · rintro ⟨order, horder, hfound⟩
    obtain ⟨s, hs, hname⟩ := mem_of_found hfound
    exact ⟨s, (hmem s).mp (horder.mem_iff.mp hs), hname⟩
  · rintro ⟨s, hs, hname⟩
    refine ⟨(s, v) :: i.values.toList.erase (s, v), ?_, ?_⟩
    · exact (List.perm_cons_erase ((hmem s).mpr hs)).symm
    · simp [found, hname]

end FunctionInputs

namespace Node
variable {n : Node} {c : Cache} {parameters : Parameters} {i : Invocation} {name : String}

def firstNamed? (n : Node) (c : Cache) (name : String) : Option Value :=
  (n.inputs.find? fun s => s.valueName == name).bind c.get?

def Alike (n : Node) (c : Cache) (name : String) : Prop :=
  ∀ s ∈ n.inputs, ∀ t ∈ n.inputs, s.valueName = name → t.valueName = name → c.get? s = c.get? t

instance : Decidable (n.Alike c name) :=
  inferInstanceAs (Decidable (∀ s ∈ n.inputs, ∀ t ∈ n.inputs,
    s.valueName = name → t.valueName = name → c.get? s = c.get? t))

theorem firstNamed?_eq_none (h : ∀ s ∈ n.inputs, s.valueName ≠ name) :
    n.firstNamed? c name = none := by
  have hnone : (n.inputs.find? fun s => s.valueName == name) = none := by simpa using h
  rw [firstNamed?, hnone, Option.bind_none]

theorem firstNamed?_of_mem {s : Specification} (hs : s ∈ n.inputs) (hname : s.valueName = name) :
    ∃ t ∈ n.inputs, t.valueName = name ∧ n.firstNamed? c name = c.get? t := by
  obtain ⟨t, ht⟩ : ∃ t, (n.inputs.find? fun s => s.valueName == name) = some t := by
    rw [← Option.isSome_iff_exists, List.find?_isSome]
    exact ⟨s, hs, beq_iff_eq.mpr hname⟩
  refine ⟨t, List.mem_of_find?_eq_some ht, by simpa using List.find?_some ht, ?_⟩
  rw [firstNamed?, ht, Option.bind_some]

/-- What an invocation of the node has under a specification is the cached value of an input. -/
theorem Invokes.get?_eq_some_iff (h : n.Invokes parameters c i) {s : Specification} {v : Value} :
    i.inputs.get? s = some v ↔ s ∈ n.inputs ∧ c.get? s = some v := by
  rw [h.inputs]
  by_cases hs : s ∈ n.inputs <;> simp [hs]

theorem Invokes.mayFind_some_iff (h : n.Invokes parameters c i) {v : Value} :
    i.inputs.MayFind name (some v) ↔
      ∃ s ∈ n.inputs, s.valueName = name ∧ c.get? s = some v := by
  rw [FunctionInputs.mayFind_some_iff]
  refine exists_congr fun s => ?_
  rw [h.get?_eq_some_iff, and_assoc, and_comm (b := s.valueName = name)]

theorem Invokes.mayFind_none_iff (h : n.Invokes parameters c i)
    (hcache : ∀ s ∈ n.inputs, (c.get? s).isSome = true) :
    i.inputs.MayFind name none ↔ ∀ s ∈ n.inputs, s.valueName ≠ name := by
  simp only [FunctionInputs.mayFind_none_iff, h.get?_eq_some_iff]
  constructor
  · intro hnone s hs
    obtain ⟨v, hv⟩ := Option.isSome_iff_exists.mp (hcache s hs)
    exact hnone s v ⟨hs, hv⟩
  · exact fun hnone s v hs => hnone s hs.1

theorem Invokes.mayFind_only_first_iff (h : n.Invokes parameters c i)
    (hcache : ∀ s ∈ n.inputs, (c.get? s).isSome = true) :
    (∀ answer, i.inputs.MayFind name answer → answer = n.firstNamed? c name) ↔
      n.Alike c name := by
  constructor
  · intro honly
    have hfirst : ∀ s ∈ n.inputs, s.valueName = name → c.get? s = n.firstNamed? c name := by
      intro s hs hname
      obtain ⟨v, hv⟩ := Option.isSome_iff_exists.mp (hcache s hs)
      rw [hv]
      exact honly _ (h.mayFind_some_iff.mpr ⟨s, hs, hname, hv⟩)
    intro s hs t ht hsname htname
    rw [hfirst s hs hsname, hfirst t ht htname]
  · intro halike answer hanswer
    cases answer with
    | none => exact (firstNamed?_eq_none ((h.mayFind_none_iff hcache).mp hanswer)).symm
    | some v =>
        obtain ⟨s, hs, hname, hv⟩ := h.mayFind_some_iff.mp hanswer
        obtain ⟨t, ht, htname, hfirst⟩ := firstNamed?_of_mem (c := c) hs hname
        rw [hfirst, ← hv]
        exact halike s hs t ht hname htname

theorem invoked_of_resolves {w : Workspace} {numbers : List Int64} {item : JobItem}
    {invoker : Invoker} (hresolves : w.identifiers.Resolves numbers n.inputs)
    (hread : Codec.ofText (Codec.text (JobItem.ofNumbered n numbers)) = .ok item)
    (hsame : item.same (JobItem.ofNumbered n numbers) = true)
    (hinvoker : w.repository.invoker? n.function.functionId = some invoker)
    (hkind : invoker.kind.appliesTo n.target.targetType = true)
    (hcache : ∀ s ∈ n.inputs, (c.get? s).isSome = true) :
    ∃ i, Site.answerOf w c n numbers =
        (.ran (invoker.run i), [.invoked n.function.functionId]) ∧
      n.Invokes item.parameters c i :=
  (dispatched_of_resolves hresolves hread hsame).exists_invokes hinvoker hkind hcache

end Node

namespace Issuing
variable {n : Node} {numbers : List Int64} {w : Workspace} {c : Cache}

theorem resolves_later {es later : List IssuingStep} {x y : Issuing} {m : Identifiers}
    {ss : List Specification} (hx : start.steps? es = some x)
    (hnumbers : .numbers ss numbers ∈ x.answers) (hsize : x.identifiers.size < 2 ^ 63)
    (hy : x.steps? later = some y) (hm : m = y.identifiers) : m.Resolves numbers ss := by
  obtain ⟨hkept, -⟩ := kept_start.steps hx
  obtain ⟨-, hxy⟩ := hkept.steps hy
  rw [hm]
  have hresolves := (hkept.numbers ss numbers hnumbers).resolves hkept.sound hsize
  exact hresolves.mono hxy.assigned

/-- A node whose inputs all have values is invoked. A lookup by name finds nothing exactly if no
input has the name, and may find the value of any input that has it. So it is bound to find that of
the first one, in the order of the inputs, exactly if all have one value. -/
theorem found_by_name {es later : List IssuingStep} {x y : Issuing} {item : JobItem}
    {invoker : Invoker} (hx : start.steps? es = some x)
    (hnumbers : .numbers n.inputs numbers ∈ x.answers)
    (hsize : x.identifiers.size < 2 ^ 63) (hy : x.steps? later = some y)
    (hw : w.identifiers = y.identifiers)
    (hread : Codec.ofText (Codec.text (JobItem.ofNumbered n numbers)) = .ok item)
    (hsame : item.same (JobItem.ofNumbered n numbers) = true)
    (hinvoker : w.repository.invoker? n.function.functionId = some invoker)
    (hkind : invoker.kind.appliesTo n.target.targetType = true)
    (hcache : ∀ s ∈ n.inputs, (c.get? s).isSome = true) :
    ∃ i, Site.answerOf w c n numbers =
        (.ran (invoker.run i), [.invoked n.function.functionId]) ∧
      ∀ name,
        (i.inputs.value? name = none ↔ ∀ s ∈ n.inputs, s.valueName ≠ name) ∧
        (n.Alike c name → i.inputs.value? name = n.firstNamed? c name) ∧
        i.inputs.MayFind name (i.inputs.value? name) ∧
        (i.inputs.MayFind name none ↔ ∀ s ∈ n.inputs, s.valueName ≠ name) ∧
        (∀ v, i.inputs.MayFind name (some v) ↔
          ∃ s ∈ n.inputs, s.valueName = name ∧ c.get? s = some v) ∧
        ((∀ answer, i.inputs.MayFind name answer → answer = n.firstNamed? c name) ↔
          n.Alike c name) := by
  have hresolves := resolves_later hx hnumbers hsize hy hw
  obtain ⟨i, hanswer, hi⟩ :=
    Node.invoked_of_resolves hresolves hread hsame hinvoker hkind hcache
  refine ⟨i, hanswer, fun name => ?_⟩
  have hmay := i.inputs.mayFind_value? name
  have hfirst : (∀ answer, i.inputs.MayFind name answer → answer = n.firstNamed? c name) ↔
      n.Alike c name := hi.mayFind_only_first_iff hcache
  have hnone : i.inputs.value? name = none ↔ ∀ s ∈ n.inputs, s.valueName ≠ name := by
    constructor
    · intro hvalue
      exact (hi.mayFind_none_iff hcache).mp (hvalue ▸ hmay)
    · intro hnames
      refine Option.eq_none_iff_forall_ne_some.mpr fun v hvalue => ?_
      obtain ⟨s, hs, hname, -⟩ := hi.mayFind_some_iff.mp (hvalue ▸ hmay)
      exact hnames s hs hname
  exact ⟨hnone, fun halike => hfirst.mpr halike _ hmay, hmay, hi.mayFind_none_iff hcache,
    fun v => hi.mayFind_some_iff, hfirst⟩

namespace Sample
open Graph.Sample

/-- A node with two inputs of one name, in the order opposite to that of the specifications. -/
def swap : Node :=
  step "3" .security [quantity "Leg" "2", quantity "Leg" "1"] (quantity "Swap" "3")

def legs (near far : String) : Cache :=
  (Cache.empty.putShared ⟨quantity "Leg" "2", .string near⟩).putShared
    ⟨quantity "Leg" "1", .string far⟩

def picking : Invoker :=
  ⟨.security, fun i => .returned
    ((i.inputs.value? "Leg").toList.map fun v => ⟨quantity "Swap" "3", v⟩)⟩

def picky (identifiers : Identifiers) : Workspace :=
  { Workspace.new ⟨[⟨"3", "Swap", .security⟩],
      (∅ : ExtTreeMap String Invoker).insert "3" picking⟩ .missing with identifiers }

def numbering : List IssuingStep :=
  [.ask 0 swap.inputs, .look 0, .write 0, .look 0, .write 0, .finish 0]

theorem swap_read : Codec.ofText (Codec.text (JobItem.ofNumbered swap [1, 2])) =
    .ok (JobItem.ofNumbered swap [1, 2]) := by
  have hpayload : receivedPayload? (JobItem.ofNumbered swap [1, 2]).parameters.payload =
    some (JobItem.ofNumbered swap [1, 2]).parameters.payload := rfl
  rw [ofText_text_jobItem, hpayload]

end Sample

open Graph.Sample ValuationCycle.Issuing.Sample

/-- Of two legs of one value the value of the first is found. -/
theorem first_of_equal_legs : ∃ x, start.steps? numbering = some x ∧
    .numbers swap.inputs [1, 2] ∈ x.answers ∧ x.identifiers.size < 2 ^ 63 ∧
    (∀ s ∈ swap.inputs, ((legs "5" "5").get? s).isSome = true) ∧
    ∃ i, Site.answerOf (picky x.identifiers) (legs "5" "5") swap [1, 2] =
        (.ran (picking.run i), [.invoked "3"]) ∧
      swap.Alike (legs "5" "5") "Leg" ∧ i.inputs.value? "Leg" = some (.string "5") := by
  obtain ⟨x, hx, hnumbers, hsize⟩ : ∃ x, start.steps? numbering = some x ∧
      x.answers = [.number (quantity "Leg" "2") 1, .number (quantity "Leg" "1") 2,
        .numbers swap.inputs [1, 2]] ∧ x.identifiers.size = 2 := ⟨_, rfl, rfl, rfl⟩
  have hnumbers : .numbers swap.inputs [1, 2] ∈ x.answers := by simp [hnumbers]
  have hsize : x.identifiers.size < 2 ^ 63 := by omega
  have hcache : ∀ s ∈ swap.inputs, ((legs "5" "5").get? s).isSome = true := by decide +kernel
  have halike : swap.Alike (legs "5" "5") "Leg" := by decide +kernel
  have hlater : x.steps? [] = some x := rfl
  have hinvoker : (picky x.identifiers).repository.invoker? "3" = some picking := rfl
  obtain ⟨i, hanswer, hfound⟩ := found_by_name hx hnumbers hsize hlater
    (w := picky x.identifiers) rfl swap_read (by decide) hinvoker rfl hcache
  exact ⟨x, hx, hnumbers, hsize, hcache, i, hanswer, halike, (hfound "Leg").2.1 halike⟩

/-- Of a near and a far leg the far one is found, though the near one is the first. -/
theorem second_leg_found : ∃ x, start.steps? numbering = some x ∧
    .numbers swap.inputs [1, 2] ∈ x.answers ∧ x.identifiers.size < 2 ^ 63 ∧
    Site.answerOf (picky x.identifiers) (legs "near" "far") swap [1, 2] =
      (.ran (.returned [⟨quantity "Swap" "3", .string "far"⟩]), [.invoked "3"]) ∧
    swap.firstNamed? (legs "near" "far") "Leg" = some (.string "near") := by
  refine ⟨_, rfl, ?_, by decide, ?_, by decide +kernel⟩
  · change .numbers swap.inputs [1, 2] ∈ [IdentifierAnswer.number (quantity "Leg" "2") 1,
      .number (quantity "Leg" "1") 2, .numbers swap.inputs [1, 2]]
    simp
  · rw [Site.answerOf, swap_read]
    rfl

end Issuing
end ValuationCycle
