import ValuationCycle.Order
import ValuationCycle.Json.Record

/-!
# Targets

A value is computed for a target: an entity of one of four types, known by its
identifier within a scheme and possibly by a version. An empty version is not
the same as none.
-/
namespace ValuationCycle
open Json Std

structure UniqueId where
  scheme : String
  value : String
  version : Option String
  deriving DecidableEq

namespace UniqueId

instance : Ord UniqueId :=
  ⟨compareLex (compareOn scheme) (compareLex (compareOn value) (compareOn version))⟩

instance : TransOrd UniqueId :=
  inferInstanceAs (TransCmp (compareLex (compareOn scheme)
    (compareLex (compareOn value) (compareOn version))))

instance : LawfulEqOrd UniqueId :=
  lawfulEqCmp_compareLex fun a b hs h => by
    have hs := eq_of_compareOn hs
    obtain ⟨hv, hr⟩ := compareLex_eq_eq.mp h
    have hv := eq_of_compareOn hv
    have hr := eq_of_compareOn hr
    cases a; cases b; simp_all

instance : ToString UniqueId :=
  ⟨fun id => id.scheme ++ "~" ++ id.value ++
    match id.version with
    | none => ""
    | some version => "~" ++ version⟩

def toDocument (id : UniqueId) : Document :=
  .record [("scheme", .str id.scheme), ("value", .str id.value),
    ("version", match id.version with | none => .null | some version => .str version)]

def ofDocument? : Reader UniqueId := fun levels d => do
  let r ← Record.ofDocument? ["scheme", "value", "version"] levels d
  return ⟨← r.required "scheme" .string, ← r.required "value" .string,
    ← r.optional "version" .string⟩

end UniqueId

inductive TargetType where
  | portfolioNode | position | security | primitive
  deriving DecidableEq

namespace TargetType

instance : Ord TargetType := ⟨compareOn TargetType.ctorIdx⟩

instance : TransOrd TargetType := inferInstanceAs (TransCmp (compareOn TargetType.ctorIdx))

instance : LawfulEqOrd TargetType :=
  lawfulEqCmp_compareOn fun a b h => by cases a <;> cases b <;> first | rfl | cases h

def all : List TargetType := [portfolioNode, position, security, primitive]

def name : TargetType → String
  | portfolioNode => "PORTFOLIO_NODE"
  | position => "POSITION"
  | security => "SECURITY"
  | primitive => "PRIMITIVE"

def ofName? (s : String) : Option TargetType := all.find? fun t => t.name == s

instance : ToString TargetType := ⟨name⟩

theorem ofName?_name (t : TargetType) : ofName? t.name = some t := by cases t <;> rfl

def toDocument (t : TargetType) : Document := .str t.name

def ofDocument? : Reader TargetType := Reader.choice ofName?

end TargetType

structure Target where
  targetType : TargetType
  identifier : UniqueId
  deriving DecidableEq

namespace Target

instance : Ord Target := ⟨compareLex (compareOn targetType) (compareOn identifier)⟩

instance : TransOrd Target :=
  inferInstanceAs (TransCmp (compareLex (compareOn targetType) (compareOn identifier)))

instance : LawfulEqOrd Target :=
  lawfulEqCmp_compareLex fun a b ht hi => by
    have ht := eq_of_compareOn ht
    have hi := eq_of_compareOn hi
    cases a; cases b; simp_all

instance : ToString Target :=
  ⟨fun t => "CTSpec[" ++ toString t.targetType ++ ", " ++ toString t.identifier ++ "]"⟩

def toDocument (t : Target) : Document :=
  .record [("target_type", t.targetType.toDocument), ("identifier", t.identifier.toDocument)]

def ofDocument? : Reader Target := fun levels d => do
  let r ← Record.ofDocument? ["target_type", "identifier"] levels d
  return ⟨← r.required "target_type" TargetType.ofDocument?,
    ← r.required "identifier" UniqueId.ofDocument?⟩

end Target
end ValuationCycle
