import ValuationCycle.Target
import ValuationCycle.Properties

/-!
# Requirements and specifications

A requirement asks for a value: a name, a target and constraints on the
producer. A specification is the key of a produced value: it also names the
function that produces it and the properties it was produced under. A computed
value is a value under its specification.
-/
namespace ValuationCycle
open Json Std

structure Requirement where
  valueName : String
  target : Target
  constraints : Properties
  deriving DecidableEq

namespace Requirement

instance : Ord Requirement :=
  ⟨compareLex (compareOn valueName) (compareLex (compareOn target) (compareOn constraints))⟩

instance : TransOrd Requirement :=
  inferInstanceAs (TransCmp (compareLex (compareOn valueName)
    (compareLex (compareOn target) (compareOn constraints))))

instance : LawfulEqOrd Requirement :=
  lawfulEqCmp_compareLex fun a b hn h => by
    have hn := eq_of_compareOn hn
    obtain ⟨ht, hc⟩ := compareLex_eq_eq.mp h
    have ht := eq_of_compareOn ht
    have hc := eq_of_compareOn hc
    cases a; cases b; simp_all

instance : ToString Requirement :=
  ⟨fun r => "ValueReq[" ++ r.valueName ++ ", " ++ toString r.target ++ ", " ++
    toString r.constraints ++ "]"⟩

def toDocument (r : Requirement) : Document :=
  .record [("value_name", .str r.valueName), ("target_specification", r.target.toDocument),
    ("constraints", r.constraints.toDocument)]

def ofDocument? : Reader Requirement := fun levels d => do
  let r ← Record.ofDocument? ["value_name", "target_specification", "constraints"] levels d
  return ⟨← r.required "value_name" .string, ← r.required "target_specification" Target.ofDocument?,
    ← r.required "constraints" Properties.ofDocument?⟩

end Requirement

/-- The key of a produced value. -/
structure Specification where
  valueName : String
  target : Target
  functionId : String
  properties : Properties
  deriving DecidableEq

namespace Specification

instance : Ord Specification :=
  ⟨compareLex (compareOn valueName) (compareLex (compareOn target)
    (compareLex (compareOn functionId) (compareOn properties)))⟩

instance : TransOrd Specification :=
  inferInstanceAs (TransCmp (compareLex (compareOn valueName) (compareLex (compareOn target)
    (compareLex (compareOn functionId) (compareOn properties)))))

instance : LawfulEqOrd Specification :=
  lawfulEqCmp_compareLex fun a b hn h => by
    have hn := eq_of_compareOn hn
    obtain ⟨ht, h⟩ := compareLex_eq_eq.mp h
    obtain ⟨hf, hp⟩ := compareLex_eq_eq.mp h
    have ht := eq_of_compareOn ht
    have hf := eq_of_compareOn hf
    have hp := eq_of_compareOn hp
    cases a; cases b; simp_all

instance : ToString Specification :=
  ⟨fun s => "VSpec[" ++ s.valueName ++ ", " ++ toString s.target ++ ", " ++ s.functionId ++ ", " ++
    toString s.properties ++ "]"⟩

/-- The requirement that the specification satisfies exactly, which is how market
values are asked for. -/
def requirement (s : Specification) : Requirement := ⟨s.valueName, s.target, s.properties⟩

def toDocument (s : Specification) : Document :=
  .record [("value_name", .str s.valueName), ("target_specification", s.target.toDocument),
    ("function_id", .str s.functionId), ("properties", s.properties.toDocument)]

def ofDocument? : Reader Specification := fun levels d => do
  let r ← Record.ofDocument? ["value_name", "target_specification", "function_id", "properties"]
    levels d
  return ⟨← r.required "value_name" .string, ← r.required "target_specification" Target.ofDocument?,
    ← r.required "function_id" .string, ← r.required "properties" Properties.ofDocument?⟩

end Specification

structure ComputedValue where
  specification : Specification
  value : Value

namespace ComputedValue

def toDocument (v : ComputedValue) : Document :=
  .record [("specification", v.specification.toDocument), ("value", v.value.toDocument)]

def ofDocument? : Reader ComputedValue := fun levels d => do
  let r ← Record.ofDocument? ["specification", "value"] levels d
  return ⟨← r.required "specification" Specification.ofDocument?,
    ← r.required "value" Value.ofDocument?⟩

end ComputedValue
end ValuationCycle
