import ValuationCycle.Order
import ValuationCycle.Json.Record

/-!
# Properties

Properties qualify a value: each named property has a set of permitted values,
and an empty set permits any. A property that was declared without values is
kept. Both names and values are held in order, so equal properties have one form.
-/
namespace ValuationCycle
open Json Std

structure Properties where
  entries : ExtTreeMap String (ExtTreeSet String)
  deriving DecidableEq

namespace Properties

def none : Properties := ⟨∅⟩

def values? (p : Properties) (name : String) : Option (ExtTreeSet String) := p.entries[name]?

/-- Declares a property; values it already permits stay. -/
def declare (p : Properties) (name : String) : Properties :=
  ⟨p.entries.insert name ((p.values? name).getD ∅)⟩

def permit (p : Properties) (name value : String) : Properties :=
  ⟨p.entries.insert name (((p.values? name).getD ∅).insert value)⟩

def isEmpty (p : Properties) : Bool := p.entries.isEmpty

def toList (p : Properties) : List (String × List String) :=
  p.entries.toList.map fun (name, values) => (name, values.toList)

theorem toList_injective {p q : Properties} (h : p.toList = q.toList) : p = q := by
  obtain ⟨p⟩ := p
  obtain ⟨q⟩ := q
  refine congrArg mk (ExtTreeMap.toList_inj.mp (List.map_inj_right ?_ |>.mp h))
  rintro ⟨n, s⟩ ⟨m, t⟩ h
  obtain ⟨rfl, hs⟩ := Prod.mk.inj h
  rw [ExtTreeSet.toList_inj.mp hs]

def compareEntries : List (String × List String) → List (String × List String) → Ordering :=
  List.compareLex (compareLex (compareOn Prod.fst) (compareOn Prod.snd))

instance : LawfulEqCmp (compareLex (compareOn (Prod.fst (α := String) (β := List String)))
    (compareOn Prod.snd)) :=
  lawfulEqCmp_compareLex fun _ _ hf hs => Prod.ext (eq_of_compareOn hf) (eq_of_compareOn hs)

instance : TransCmp compareEntries :=
  inferInstanceAs
    (TransCmp (List.compareLex (compareLex (compareOn Prod.fst) (compareOn Prod.snd))))

instance : LawfulEqCmp compareEntries :=
  inferInstanceAs (LawfulEqCmp (List.compareLex
    (compareLex (compareOn (Prod.fst (α := String) (β := List String))) (compareOn Prod.snd))))

instance : Ord Properties := ⟨fun p q => compareEntries p.toList q.toList⟩

instance : TransOrd Properties where
  eq_swap := (inferInstance : OrientedCmp compareEntries).eq_swap
  isLE_trans := (inferInstance : TransCmp compareEntries).isLE_trans

instance : LawfulEqOrd Properties where
  compare_self := (inferInstance : ReflCmp compareEntries).compare_self
  eq_of_compare h :=
    toList_injective ((inferInstance : LawfulEqCmp compareEntries).eq_of_compare h)

instance : ToString Properties :=
  ⟨fun p => "\x7b" ++ ", ".intercalate (p.toList.map fun (name, values) =>
    name ++ "=[" ++ ", ".intercalate values ++ "]") ++ "\x7d"⟩

def toDocument (p : Properties) : Document :=
  .record (p.toList.map fun (name, values) => (name, .array (values.map .str)))

/-- Read from an object of arrays; a name that comes again takes the later values. -/
def ofDocument? : Reader Properties := fun levels d => do
  let entries ← Reader.members (Reader.list .string) levels d
  return ⟨entries.foldl (fun m (name, values) => m.insert name (ExtTreeSet.ofList values)) ∅⟩

end Properties
end ValuationCycle
