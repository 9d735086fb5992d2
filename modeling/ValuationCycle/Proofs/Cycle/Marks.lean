import ValuationCycle.Cycle.Marks
import ValuationCycle.Proofs.Graph.Membership
import ValuationCycle.Proofs.Json.Zeros

/-!
# What marks go by

A set of nodes holds a node if one of its nodes is equal to it and is hashed alike, and payloads
are hashed by their text. Equal payloads have the same text unless a zero has one sign in one of
them and the other sign in the other; so a graph may take two nodes for one while marks tell them
apart.
-/
namespace ValuationCycle
open Json Std

/-- What of parameters is hashed. -/
def Parameters.hashed (p : Parameters) : String × String := (p.typeName, p.payload.text)

theorem Parameters.same_iff {p q : Parameters} :
    p.same q = true ↔ p.typeName = q.typeName ∧ p.payload.same q.payload = true := by
  simp [same]

theorem Parameters.hashed_eq_iff {p q : Parameters} (h : p.same q = true) :
    p.hashed = q.hashed ↔ p.payload.zeroSigns = q.payload.zeroSigns := by
  obtain ⟨htype, hpayload⟩ := same_iff.mp h
  rw [← Value.eq_iff_zeroSigns_eq hpayload, ← Value.text_eq_iff hpayload]
  simp [hashed, htype]

/-- Without negative zeros equal parameters are hashed alike. -/
theorem Parameters.hashed_eq {p q : Parameters} (h : p.same q = true)
    (hp : true ∉ p.payload.zeroSigns) (hq : true ∉ q.payload.zeroSigns) : p.hashed = q.hashed := by
  have hlength := Value.length_zeroSigns (same_iff.mp h).2
  have hfalse : ∀ {v : Value}, true ∉ v.zeroSigns →
      v.zeroSigns = List.replicate v.zeroSigns.length false := fun hv =>
    List.eq_replicate_of_mem fun b hb => by cases b <;> simp_all
  rw [hashed_eq_iff h, hfalse hp, hfalse hq, hlength]

namespace Node
variable {m n : Node}

def hashed (n : Node) : String × FunctionKind × (String × String) × Target ×
    List Specification × List Specification :=
  (n.function.functionId, n.function.kind, n.function.parameters.hashed, n.target, n.inputs,
    n.outputs.toList)

theorem same_parameters (h : m.same n = true) :
    m.function.parameters.same n.function.parameters = true := by
  simp only [same, BoundFunction.same, Bool.and_eq_true] at h
  exact h.1.1.1.2

theorem eq_iff_of_same (h : m.same n = true) :
    m = n ↔ m.function.parameters.payload = n.function.parameters.payload := by
  refine ⟨fun he => he ▸ rfl, fun hpayload => ?_⟩
  simp only [same, BoundFunction.same, Parameters.same, Bool.and_eq_true, beq_iff_eq] at h
  obtain ⟨⟨⟨⟨⟨hid, hkind⟩, htype, -⟩, htarget⟩, hinputs⟩, houtputs⟩ := h
  obtain ⟨⟨_, _, _, _⟩, _, _, _, _⟩ := m
  obtain ⟨⟨_, _, _, _⟩, _, _, _, _⟩ := n
  simp_all

theorem eq_iff_zeroSigns_eq (h : m.same n = true) : m = n ↔
    m.function.parameters.payload.zeroSigns = n.function.parameters.payload.zeroSigns := by
  rw [eq_iff_of_same h,
    Value.eq_iff_zeroSigns_eq (Parameters.same_iff.mp (same_parameters h)).2]

theorem same_and_hashed_iff : m.same n = true ∧ m.hashed = n.hashed ↔ m = n := by
  constructor
  · rintro ⟨h, hh⟩
    have hparameters : m.function.parameters.hashed = n.function.parameters.hashed :=
      congrArg (fun d => d.2.2.1) hh
    exact (eq_iff_zeroSigns_eq h).mpr
      ((Parameters.hashed_eq_iff (same_parameters h)).mp hparameters)
  · rintro rfl
    exact ⟨m.same_refl, rfl⟩

end Node

namespace NodeMarks
variable {marks : NodeMarks} {m n : Node}

/-- Marks are looked up by hash and equality. -/
theorem isExecuted_iff_hashed : marks.isExecuted (some n) = true ↔
    ∃ m ∈ marks.executed, m.same n = true ∧ m.hashed = n.hashed := by
  simp [isExecuted, Node.same_and_hashed_iff]

theorem isFailed_iff_hashed : marks.isFailed (some n) = true ↔
    ∃ m ∈ marks.failed, m.same n = true ∧ m.hashed = n.hashed := by
  simp [isFailed, Node.same_and_hashed_iff]

/-- Marks treat nodes alike only if they are equal in all that is held. -/
theorem forall_isExecuted_eq_iff : (∀ marks : NodeMarks,
    marks.isExecuted (some m) = marks.isExecuted (some n) ∧
      marks.isFailed (some m) = marks.isFailed (some n)) ↔ m = n := by
  refine ⟨fun hall => ?_, fun he _ => he ▸ ⟨rfl, rfl⟩⟩
  have hmarked := (hall ⟨[m], []⟩).1
  simpa [isExecuted, eq_comm] using hmarked

/-- Equal parameters are hashed alike exactly if their zeros have the same signs from left to
right, as is the case without negative zeros. Of two equal nodes a graph that has one takes in no
other; the marks of a configuration tell the two apart exactly if a zero has different signs. -/
theorem hashed_eq_iff_zeroSigns {p q : Parameters} (h : p.same q = true)
    (hnodes : m.same n = true) :
    (p.hashed = q.hashed ↔ p.payload.zeroSigns = q.payload.zeroSigns) ∧
      (true ∉ p.payload.zeroSigns → true ∉ q.payload.zeroSigns → p.hashed = q.hashed) ∧
      (∀ g : Graph, m ∈ g.nodes → (g.add n).1 = g) ∧
      ((∀ marks : NodeMarks, marks.isExecuted (some m) = marks.isExecuted (some n) ∧
          marks.isFailed (some m) = marks.isFailed (some n)) ↔
        m.function.parameters.payload.zeroSigns = n.function.parameters.payload.zeroSigns) := by
  refine ⟨Parameters.hashed_eq_iff h, fun hp hq => Parameters.hashed_eq h hp hq,
    fun g hm => ?_, ?_⟩
  · cases hposition : g.position? n with
    | some i => simp [Graph.add, hposition]
    | none =>
        have := List.findIdx?_eq_none_iff.mp hposition m hm
        simp [hnodes] at this
  · rw [forall_isExecuted_eq_iff, Node.eq_iff_zeroSigns_eq hnodes]

namespace Sample

def shift (negative : Bool) : Parameters := ⟨"Shift", ⟨.float (.zero negative), trivial⟩⟩

def shifting (negative : Bool) : Node :=
  (Node.new ⟨"1", .security, shift negative⟩ ⟨.security, ⟨"Ticker", "AAPL", none⟩⟩).withOutput
    (Graph.Sample.quantity "Price" "1")

end Sample
open Sample

/-- The two zeros are equal and hashed by different texts. When the node with the one is in a
graph and marked executed, the node with the other is not added, and counts as not executed. -/
theorem zeros_are_told_apart :
    ((shift false).same (shift true) = true ∧ (shift false).hashed = ("Shift", "0.0") ∧
      (shift true).hashed = ("Shift", "-0.0")) ∧
    (shifting false).same (shifting true) = true ∧
    (Graph.Sample.graph "Default" [shifting false, shifting true]).nodes = [shifting false] ∧
    (NodeMarks.empty.markExecuted (shifting false)).isExecuted (shifting false) = true ∧
    (NodeMarks.empty.markExecuted (shifting false)).isExecuted (shifting true) = false := by
  decide +kernel

/-- That they are told apart is seen from their signs. -/
theorem zeros_by_their_signs :
    ((shift false).same (shift true) = true ∧ (shift false).hashed ≠ (shift true).hashed) ∧
    (shifting false).same (shifting true) = true ∧
    ¬∀ marks : NodeMarks,
      marks.isExecuted (some (shifting false)) = marks.isExecuted (some (shifting true)) ∧
        marks.isFailed (some (shifting false)) = marks.isFailed (some (shifting true)) := by
  have hsame : (shift false).same (shift true) = true := by decide +kernel
  have hnodes : (shifting false).same (shifting true) = true := by decide +kernel
  have hsigns : (shift false).payload.zeroSigns ≠ (shift true).payload.zeroSigns := by
    decide +kernel
  obtain ⟨hhashed, -, -, hmarks⟩ := hashed_eq_iff_zeroSigns hsame hnodes
  exact ⟨⟨hsame, fun h => hsigns (hhashed.mp h)⟩, hnodes, fun h => hsigns (hmarks.mp h)⟩

end NodeMarks
end ValuationCycle
