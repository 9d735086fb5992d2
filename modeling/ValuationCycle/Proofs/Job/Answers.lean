import ValuationCycle.Execution.Run
import ValuationCycle.Proofs.Cache.Identifiers
import ValuationCycle.Proofs.Wire.Codecs

/-!
# Answers to jobs

What a calculation node makes of the job of a node depends on the repository and
on the values found under the inputs of the node. The numbers by which the inputs
went make no difference.
-/
namespace ValuationCycle
open Json Wire

/-- What is invoked for a job whose inputs have been looked up, or why nothing is. -/
def prepareResolved (r : Repository) (j : JobItem) (resolved : List (Option ComputedValue)) :
    Except InvocationError (Invoker × Invocation) :=
  match r.invoker? j.functionId with
  | none => .error (.unknownFunction j.functionId)
  | some invoker =>
    if !invoker.kind.appliesTo j.target.targetType then
      .error (.targetMismatch j.functionId invoker.kind j.target.targetType)
    else if 0 < resolved.countP Option.isNone then
      .error (.missingInputs j.functionId (resolved.countP Option.isNone))
    else
      .ok (invoker, ⟨j.functionId, j.target, j.parameters,
        .ofList (resolved.filterMap id), j.desired⟩)

theorem prepareJob_eq (r : Repository) (m : Identifiers) (c : Cache) (j : JobItem) :
    prepareJob r m c j = prepareResolved r j (j.inputs.map (resolveInput m c)) := rfl

namespace Node

/-- The job of a node as a calculation node reads it, but for the numbers of its inputs. -/
def received (n : Node) (payload : Value) : JobItem :=
  { JobItem.ofNumbered n [] with parameters := ⟨n.function.parameters.typeName, payload⟩ }

/-- The answer to the job of a node when its inputs have the given values. -/
def answer (r : Repository) (look : Specification → Option Value) (n : Node) : Answer :=
  match receivedPayload? n.function.parameters.payload with
  | none => .unreadable .malformed
  | some payload =>
    match prepareResolved r (n.received payload) (n.inputs.map fun s => (look s).map (⟨s, ·⟩)) with
    | .error e => .ran (.failed e)
    | .ok (invoker, invocation) => .ran (invoker.run invocation)

variable {r : Repository} {n : Node}

theorem answer_congr {look look' : Specification → Option Value}
    (h : ∀ s ∈ n.inputs, look s = look' s) : n.answer r look = n.answer r look' := by
  have hmap : (n.inputs.map fun s => (look s).map (ComputedValue.mk s)) =
      n.inputs.map fun s => (look' s).map (ComputedValue.mk s) :=
    List.map_congr_left fun s hs => by rw [h s hs]
  unfold answer
  rw [hmap]

def Confined (r : Repository) (n : Node) : Prop :=
  ∀ look values, n.answer r look = .ran (.returned values) →
    ∀ v ∈ values, v.specification ∈ n.outputs

end Node

def Identifiers.Resolves (m : Identifiers) (numbers : List Int64) (ss : List Specification) :
    Prop := numbers.map m.specification? = ss.map some

namespace Identifiers
variable {m m' : Identifiers} {numbers : List Int64} {ss : List Specification}

theorem resolves_nil : m.Resolves [] [] := rfl

theorem Resolves.concat {n : Int64} {s : Specification} (h : m.Resolves numbers ss)
    (hn : m.specification? n = some s) : m.Resolves (numbers ++ [n]) (ss ++ [s]) := by
  unfold Resolves at h ⊢
  rw [List.map_append, List.map_append, h]
  simp [hn]

theorem Resolves.mono (hm : m.assigned <+: m'.assigned) (h : m.Resolves numbers ss) :
    m'.Resolves numbers ss := by
  unfold Resolves at h ⊢
  induction numbers generalizing ss with
  | nil => simpa using h
  | cons n numbers ih =>
      cases ss with
      | nil => simp at h
      | cons s ss =>
          simp only [List.map_cons, List.cons.injEq] at h ⊢
          exact ⟨specification?_mono hm h.1, ih h.2⟩

theorem Resolves.map_resolveInput (h : m.Resolves numbers ss) (c : Cache) :
    numbers.map (resolveInput m c) = ss.map fun s => (c.get? s).map (⟨s, ·⟩) := by
  unfold Resolves at h
  induction numbers generalizing ss with
  | nil => simp_all
  | cons n numbers ih =>
      cases ss with
      | nil => simp at h
      | cons s ss =>
          simp only [List.map_cons, List.cons.injEq] at h ⊢
          refine ⟨?_, ih h.2⟩
          rw [resolveInput, h.1, Option.map_eq_bind]
          rfl

end Identifiers

/-- The answer that an evaluation gives is the answer for the values in the cache. -/
theorem Site.answerOf_eq {w : Workspace} {n : Node} {numbers : List Int64}
    (h : w.identifiers.Resolves numbers n.inputs) (cache : Cache) :
    (Site.answerOf w cache n numbers).1 = n.answer w.repository cache.get? := by
  unfold Site.answerOf Node.answer
  have hpayload : (JobItem.ofNumbered n numbers).parameters.payload =
      n.function.parameters.payload := rfl
  rw [ofText_text_jobItem, hpayload]
  cases receivedPayload? n.function.parameters.payload with
  | none => rfl
  | some payload =>
      have hprepare : prepareJob w.repository w.identifiers cache
          { JobItem.ofNumbered n numbers with
            parameters := ⟨(JobItem.ofNumbered n numbers).parameters.typeName, payload⟩ } =
            prepareResolved w.repository (n.received payload)
              (n.inputs.map fun s => (cache.get? s).map (ComputedValue.mk s)) := by
        rw [prepareJob_eq, ← h.map_resolveInput]
        rfl
      dsimp only
      rw [hprepare]
      cases prepareResolved w.repository (n.received payload)
        (n.inputs.map fun s => (cache.get? s).map (ComputedValue.mk s)) <;> rfl

/-- The job of a node has the answer for the values in the cache. -/
def Site.answered (s : Site) (i : Nat) (numbers : List Int64) (n : Node) : Site :=
  let cache := s.workspace.cache s.run.request.cache
  { s with
    run := s.run.setJob ⟨i, numbers, [], some (n.answer s.workspace.repository cache.get?)⟩
    journal := s.journal ++ (Site.answerOf s.workspace cache n numbers).2 }

theorem Site.evaluate_eq {s : Site} {i k : Nat} {numbers : List Int64} {n : Node}
    (hj : s.run.job? i = some ⟨k, numbers, [], none⟩) (hn : s.run.graph.nodes[i]? = some n)
    (h : s.workspace.identifiers.Resolves numbers n.inputs) :
    s.evaluate i = some (s.answered i numbers n) := by
  rw [Site.answered, ← Site.answerOf_eq h, Site.evaluate, hj, hn]

end ValuationCycle
