import ValuationCycle.Json.Value

/-!
# Readers and records

A reader takes a document that may nest so many levels more to what it stands
for. A record is read from an object, whose members are found by name, or from
an array, whose items stand for the fields in their order. In an object, a
member with an unknown name is passed over and a known name may come once; an
array may leave out fields at its end only if they have a default, and may have
no item too many.
-/
namespace ValuationCycle.Json

/-- Reads a document that may nest so many levels. -/
abbrev Reader (α : Type) := Nat → Document → Option α

namespace Reader

def string : Reader String
  | _, .string s => s
  | _, _ => none

def bool : Reader Bool
  | _, .bool b => some b
  | _, _ => none

/-- An integer not below `low` and below `high`; no other form of number is one. -/
def integer (low high : Int) : Reader Int
  | _, .number n => n.toInt?.filter fun i => low ≤ i && i < high
  | _, _ => none

def int64 : Reader Int64 := fun levels d =>
  (integer (-9223372036854775808) 9223372036854775808 levels d).map Int64.ofInt

/-- The null document or what another reader accepts. -/
def optional {α : Type} (content : Reader α) : Reader (Option α)
  | _, .null => some none
  | levels, d => (content levels d).map some

def list {α : Type} (item : Reader α) : Reader (List α)
  | levels + 1, .array items => items.mapM (item levels)
  | _, _ => none

/-- An object whose members have contents of one form, in the order written. -/
def members {α : Type} (content : Reader α) : Reader (List (String × α))
  | levels + 1, .object ms => ms.mapM fun (name, d) => do return (← name, ← content levels d)
  | _, _ => none

/-- A name standing for a choice without content: the name itself, or an object
with null under the name. -/
def choice {α : Type} (named? : String → Option α) : Reader α
  | _, .string s => s.bind named?
  | _ + 1, .object [(name, .null)] => name.bind named?
  | _, _ => none

end Reader

/-- The fields found in a document, the levels their contents may nest, and
whether they were found by name. -/
structure Record where
  levels : Nat
  named : Bool
  fields : List (String × Document)

namespace Record

def legible? (members : List (Option String × Document)) : Option (List (String × Document)) :=
  members.mapM fun (name, content) => name.map (·, content)

def ofDocument? (names : List String) : Reader Record
  | levels + 1, .object members => do
    let known := (← legible? members).filter fun m => names.contains m.1
    if (known.map Prod.fst).Nodup then some ⟨levels, true, known⟩ else none
  | levels + 1, .array items =>
    if items.length ≤ names.length then some ⟨levels, false, names.zip items⟩ else none
  | _, _ => none

/-- As `ofDocument?`, but an object may have no other members. -/
def strict? (names : List String) : Reader Record := fun levels d =>
  match d with
  | .object members =>
    if members.all fun m => m.1.any names.contains then ofDocument? names levels d else none
  | _ => ofDocument? names levels d

/-- A field that may not be left out. -/
def required {α : Type} (r : Record) (name : String) (content : Reader α) : Option α :=
  (r.fields.lookup name).bind (content r.levels)

/-- A field that may be null and, in an object, be left out. -/
def optional {α : Type} (r : Record) (name : String) (content : Reader α) : Option (Option α) :=
  match r.fields.lookup name with
  | some d => Reader.optional content r.levels d
  | none => if r.named then some none else none

/-- A field that has a default when it is left out. -/
def defaulted {α : Type} (r : Record) (name : String) (fallback : α) (content : Reader α) :
    Option α :=
  match r.fields.lookup name with
  | some d => content r.levels d
  | none => some fallback

end Record

/-- The levels that a whole text may nest. -/
def depthLimit : Nat := 127

def Reader.text? {α : Type} (reader : Reader α) (s : String) : Option α :=
  (Document.parse? s).bind (reader depthLimit)

def Value.parse? (s : String) : Option Value := Reader.text? Value.ofDocument? s

end ValuationCycle.Json
