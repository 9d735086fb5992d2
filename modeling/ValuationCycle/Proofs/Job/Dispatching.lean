import ValuationCycle.Proofs.Cache.Issuing
import ValuationCycle.Proofs.Cache.Storing

/-!
# Nodes as they are dispatched

Between a node and the invocation of its function the inputs go by numbers, and the job is written
and read. If the job is read as it was written, nothing of this is seen: a function that is
invoked gets the values of the node's own inputs, and one that is not fails for the first cause
that holds of the node itself.
-/
namespace ValuationCycle
open Json Std Wire

theorem FunctionInputs.get?_ofList (vs : List ComputedValue) (s : Specification) :
    (FunctionInputs.ofList vs).get? s = lastValue? vs s := by
  have hfold : ∀ m : ExtTreeMap Specification Value,
      (vs.foldl (fun m v => m.insert v.specification v.value) m)[s]? =
        (lastValue? vs s).or m[s]? := by
    induction vs with
    | nil => simp [lastValue?]
    | cons v vs ih =>
        intro m
        rw [List.foldl_cons, ih, lastValue?_cons, Option.or_assoc, ExtTreeMap.getElem?_insert]
        by_cases hs : v.specification = s <;> simp [hs]
  simpa [get?, ofList] using hfold ∅

theorem lastValue?_found (look : Specification → Option Value) (ss : List Specification)
    (s : Specification) :
    lastValue? (ss.filterMap fun s => (look s).map (ComputedValue.mk s)) s =
      if s ∈ ss then look s else none := by
  induction ss with
  | nil => rfl
  | cons t ss ih =>
      rw [List.filterMap_cons]
      cases ht : look t with
      | none =>
          simp only [Option.map_none, ih, List.mem_cons]
          by_cases hs : s = t
          · simp [hs, ht]
          · simp [hs]
      | some v =>
          simp only [Option.map_some, lastValue?_cons, ih, List.mem_cons]
          by_cases hs : t = s
          · subst hs
            by_cases hmem : t ∈ ss <;> simp [hmem, ht]
          · simp [hs, Ne.symm hs]

/-- Jobs that are the same have payloads that stand for the same, and are otherwise equal. -/
theorem JobItem.eq_of_same {i j : JobItem} (h : i.same j = true) :
    i = { j with parameters := i.parameters } ∧ i.parameters.same j.parameters = true := by
  obtain ⟨functionId, parameters, target, inputs, desired⟩ := i
  simp only [same, Bool.and_eq_true, beq_iff_eq] at h
  obtain ⟨⟨⟨⟨rfl, hparameters⟩, rfl⟩, rfl⟩, rfl⟩ := h
  exact ⟨rfl, hparameters⟩

def Invocation.outputs (i : Invocation) : ExtTreeSet Specification :=
  .ofList (i.desired.map i.outputSpecification)

namespace Node

/-- The invocation is that of the node, with its parameters as they were read and with the values
that its inputs have in the cache. -/
structure Invokes (n : Node) (parameters : Parameters) (c : Cache) (i : Invocation) : Prop where
  functionId : i.functionId = n.function.functionId
  target : i.target = n.target
  parameters : i.parameters = parameters
  inputs : ∀ s, i.inputs.get? s = if s ∈ n.inputs then c.get? s else none
  desired : i.desired = n.outputs.toList.map Specification.requirement

def absent (n : Node) (c : Cache) : List Specification :=
  n.inputs.filter fun s => (c.get? s).isNone

/-- What comes of a node that is dispatched, and what is remembered of it: no function has the
id, or its kind does not apply to the target, or inputs are absent, or it is invoked. -/
inductive Dispatched (r : Repository) (c : Cache) (n : Node) (parameters : Parameters) :
    Answer × List JournalEntry → Prop
  | unknown : r.invoker? n.function.functionId = none →
      Dispatched r c n parameters
        (.ran (.failed (.unknownFunction n.function.functionId)), [])
  | mismatch {invoker : Invoker} : r.invoker? n.function.functionId = some invoker →
      invoker.kind.appliesTo n.target.targetType = false →
      Dispatched r c n parameters (.ran (.failed
        (.targetMismatch n.function.functionId invoker.kind n.target.targetType)), [])
  | missing {invoker : Invoker} : r.invoker? n.function.functionId = some invoker →
      invoker.kind.appliesTo n.target.targetType = true → n.absent c ≠ [] →
      Dispatched r c n parameters (.ran (.failed
        (.missingInputs n.function.functionId (n.absent c).length)), [])
  | invoked {invoker : Invoker} {i : Invocation} :
      r.invoker? n.function.functionId = some invoker →
      invoker.kind.appliesTo n.target.targetType = true → n.absent c = [] →
      n.Invokes parameters c i →
      Dispatched r c n parameters (.ran (invoker.run i), [.invoked n.function.functionId])

variable {r : Repository} {c : Cache} {n : Node} {parameters : Parameters}

theorem Invokes.outputs_eq_iff {i : Invocation} (h : n.Invokes parameters c i) :
    i.outputs = n.outputs ↔ ∀ o ∈ n.outputs, o.functionId = n.function.functionId := by
  have hrow : i.desired.map i.outputSpecification =
      n.outputs.toList.map fun o => { o with functionId := n.function.functionId } := by
    rw [h.desired, List.map_map, ← h.functionId]
    rfl
  have hmem : ∀ s, s ∈ i.outputs ↔
      ∃ o ∈ n.outputs, { o with functionId := n.function.functionId } = s := fun s => by
    rw [Invocation.outputs, hrow, ExtTreeSet.mem_ofList]
    simp
  constructor
  · intro heq o ho
    obtain ⟨o', -, rfl⟩ := (hmem o).mp (heq ▸ ho)
    rfl
  · intro hall
    refine ExtTreeSet.ext_mem fun s => ?_
    rw [hmem]
    constructor
    · rintro ⟨o, ho, rfl⟩
      rwa [← hall o ho]
    · exact fun hs => ⟨s, hs, by rw [← hall s hs]⟩

theorem dispatched_of_resolves {w : Workspace} {numbers : List Int64} {item : JobItem}
    (hresolves : w.identifiers.Resolves numbers n.inputs)
    (hread : Codec.ofText (Codec.text (JobItem.ofNumbered n numbers)) = .ok item)
    (hsame : item.same (JobItem.ofNumbered n numbers) = true) :
    Dispatched w.repository c n item.parameters (Site.answerOf w c n numbers) := by
  obtain ⟨hitem, -⟩ := JobItem.eq_of_same hsame
  have hfunction : item.functionId = n.function.functionId := by rw [hitem]; rfl
  have htarget : item.target = n.target := by rw [hitem]; rfl
  have hinputs : item.inputs = numbers := by rw [hitem]; rfl
  have hdesired : item.desired = n.outputs.toList.map Specification.requirement := by
    rw [hitem]; rfl
  have hresolved : item.inputs.map (resolveInput w.identifiers c) =
      n.inputs.map fun s => (c.get? s).map (ComputedValue.mk s) := by
    rw [hinputs, hresolves.map_resolveInput]
  have habsent : (n.inputs.map fun s => (c.get? s).map (ComputedValue.mk s)).countP
      Option.isNone = (n.absent c).length := by
    rw [List.countP_map, absent, List.countP_eq_length_filter]
    simp [Function.comp_def]
  rw [Site.answerOf, hread]
  dsimp only
  rw [prepareJob_eq, hresolved, prepareResolved, hfunction, htarget, habsent]
  cases hinvoker : w.repository.invoker? n.function.functionId with
  | none => exact .unknown hinvoker
  | some invoker =>
      dsimp only
      cases hkind : invoker.kind.appliesTo n.target.targetType with
      | false => exact .mismatch hinvoker hkind
      | true =>
          by_cases hmissing : n.absent c = []
          · rw [hmissing]
            refine .invoked hinvoker hkind hmissing ⟨rfl, rfl, rfl, fun s => ?_, hdesired⟩
            rw [FunctionInputs.get?_ofList, List.filterMap_map]
            exact lastValue?_found c.get? n.inputs s
          · have hpos : 0 < (n.absent c).length := List.length_pos_iff.mpr hmissing
            rw [if_pos hpos]
            exact .missing hinvoker hkind hmissing

theorem Dispatched.exists_invokes {o : Answer × List JournalEntry} {invoker : Invoker}
    (h : n.Dispatched r c parameters o)
    (hinvoker : r.invoker? n.function.functionId = some invoker)
    (hkind : invoker.kind.appliesTo n.target.targetType = true)
    (hcache : ∀ s ∈ n.inputs, (c.get? s).isSome = true) :
    ∃ i, o = (.ran (invoker.run i), [.invoked n.function.functionId]) ∧
      n.Invokes parameters c i := by
  cases h with
  | unknown hunknown => rw [hinvoker] at hunknown; exact absurd hunknown (by simp)
  | mismatch hinvoker' hmismatch =>
      obtain rfl := Option.some.inj (hinvoker.symm.trans hinvoker')
      rw [hkind] at hmismatch
      exact absurd hmismatch (by simp)
  | missing _ _ hmissing =>
      refine absurd (List.filter_eq_nil_iff.mpr fun s hs => ?_) hmissing
      simp [Option.isSome_iff_ne_none.mp (hcache s hs)]
  | invoked hinvoker' _ _ hinvokes =>
      obtain rfl := Option.some.inj (hinvoker.symm.trans hinvoker')
      exact ⟨_, rfl, hinvokes⟩

end Node

namespace Issuing
variable {n : Node} {numbers : List Int64}

/-- A node's inputs are numbered while any number of others ask for numbers, and its job is written
with these numbers. If the job is read as it was written, then whenever it is evaluated and
whatever numbers others have got by then, what comes of it is decided by the node, the repository
and the cache. A function that is invoked returns all desired values under the node's outputs
exactly if all outputs name the function. -/
theorem dispatched_as_numbered {es later : List IssuingStep} {x y : Issuing} {w : Workspace}
    {item : JobItem} (hx : start.steps? es = some x)
    (hnumbers : .numbers n.inputs numbers ∈ x.answers)
    (hsize : x.identifiers.size < 2 ^ 63) (hy : x.steps? later = some y)
    (hw : w.identifiers = y.identifiers)
    (hread : Codec.ofText (Codec.text (JobItem.ofNumbered n numbers)) = .ok item)
    (hsame : item.same (JobItem.ofNumbered n numbers) = true) (c : Cache) :
    n.Dispatched w.repository c item.parameters (Site.answerOf w c n numbers) ∧
      item.parameters.same n.function.parameters = true ∧
      ∀ i, n.Invokes item.parameters c i →
        (i.outputs = n.outputs ↔ ∀ o ∈ n.outputs, o.functionId = n.function.functionId) := by
  obtain ⟨hkept, -⟩ := kept_start.steps hx
  obtain ⟨-, hxy⟩ := hkept.steps hy
  have hassigns := hkept.numbers n.inputs numbers hnumbers
  have hresolves : w.identifiers.Resolves numbers n.inputs := by
    rw [hw]
    exact (hassigns.resolves hkept.sound hsize).mono hxy.assigned
  refine ⟨Node.dispatched_of_resolves hresolves hread hsame, (JobItem.eq_of_same hsame).2, ?_⟩
  exact fun i hi => hi.outputs_eq_iff

namespace Sample
open Graph.Sample

def carry : Node :=
  step "1" .security [quantity "Spot" "1", quantity "Forward" "1"] (quantity "Carry" "1")

def passing : Invoker where
  kind := .security
  run i := .returned ((i.inputs.value? "Spot").toList.flatMap fun v =>
    i.desired.map fun r => ⟨i.outputSpecification r, v⟩)

def passingOn (identifiers : Identifiers) : Workspace :=
  { Workspace.new ⟨[⟨"1", "Carry", .security⟩],
      (∅ : ExtTreeMap String Invoker).insert "1" passing⟩ .missing with identifiers }

def prices : Cache :=
  (Cache.empty.putShared ⟨quantity "Spot" "1", .string "10"⟩).putPrivate
    ⟨quantity "Forward" "1", .string "11"⟩

end Sample

open Graph.Sample ValuationCycle.Issuing.Sample

/-- The inputs of the node are numbered in a race, and when its job is evaluated another number has
been assigned. The function gets the spot and the forward, and what it is to return are the outputs
of the node. -/
theorem carry_dispatched : ∃ x y i, start.steps? race = some x ∧
    .numbers carry.inputs [1, 2] ∈ x.answers ∧ x.identifiers.size < 2 ^ 63 ∧
    x.steps? [.ask 2 [quantity "Rate" "1"], .look 2, .write 2] = some y ∧
    Site.answerOf (passingOn y.identifiers) prices carry [1, 2] =
      (.ran (passing.run i), [.invoked "1"]) ∧
    i.inputs.get? (quantity "Spot" "1") = some (.string "10") ∧
    i.inputs.get? (quantity "Forward" "1") = some (.string "11") ∧ i.outputs = carry.outputs := by
  obtain ⟨x, y, hx, hy, hanswers, hsize⟩ : ∃ x y, start.steps? race = some x ∧
      x.steps? [.ask 2 [quantity "Rate" "1"], .look 2, .write 2] = some y ∧
      x.answers = [.number (quantity "Spot" "1") 1, .number (quantity "Spot" "1") 1,
        .number (quantity "Forward" "1") 2, .numbers carry.inputs [1, 2],
        .numbers [quantity "Spot" "1"] [1]] ∧ x.identifiers.size = 2 :=
    ⟨_, _, rfl, rfl, rfl, rfl⟩
  have hnumbers : .numbers carry.inputs [1, 2] ∈ x.answers := by simp [hanswers]
  have hsize : x.identifiers.size < 2 ^ 63 := by omega
  have hread : Codec.ofText (Codec.text (JobItem.ofNumbered carry [1, 2])) =
      .ok (JobItem.ofNumbered carry [1, 2]) := by
    have hpayload : receivedPayload? (JobItem.ofNumbered carry [1, 2]).parameters.payload =
      some (JobItem.ofNumbered carry [1, 2]).parameters.payload := rfl
    rw [ofText_text_jobItem, hpayload]
  obtain ⟨hdispatched, -, houtputs⟩ := dispatched_as_numbered hx hnumbers hsize hy
    (w := passingOn y.identifiers) rfl hread (by decide) prices
  have hinvoker : (passingOn y.identifiers).repository.invoker? "1" = some passing := rfl
  obtain ⟨i, hanswer, hi⟩ := hdispatched.exists_invokes hinvoker rfl (by decide +kernel)
  have hown : ∀ o ∈ carry.outputs, o.functionId = carry.function.functionId := by
    intro o ho
    rw [mem_outputs_step.mp ho]
    rfl
  refine ⟨x, y, i, hx, hnumbers, hsize, hy, hanswer, ?_, ?_, (houtputs i hi).mpr hown⟩
  · rw [hi.inputs]
    rfl
  · rw [hi.inputs]
    rfl

end Issuing
end ValuationCycle
