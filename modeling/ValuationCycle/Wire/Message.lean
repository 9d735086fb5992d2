import ValuationCycle.Json.Record

/-!
# Messages

What travels between a cycle and a calculation node is a message: an ordered
list of fields with optional names, where a name may come again. A field holds
a string, a 64-bit integer, an array of them, a message, or an opaque value.
Looking up a name finds the first field of that name, and a mandatory field is
an error when it is missing or holds something of another kind.
-/
namespace ValuationCycle.Wire
open Json

inductive Content where
  | string (s : String)
  | long (n : Int64)
  | longs (ns : List Int64)
  | message (fields : List (Option String × Content))
  | json (v : Value)

abbrev Field := Option String × Content

structure Message where
  fields : List Field

inductive DecodeError where
  | missing (field : String)
  | invalid (field reason : String)
  | malformed
  deriving DecidableEq

/-- The message of an error; that of a malformed text is not specified. -/
def DecodeError.message : DecodeError → String
  | missing field => "message is missing mandatory field `" ++ field ++ "`"
  | invalid field reason => "field `" ++ field ++ "` is invalid: " ++ reason
  | malformed => "malformed message"

namespace Content

def kind : Content → String
  | string _ => "string"
  | long _ => "long"
  | longs _ => "long array"
  | message _ => "message"
  | json _ => "json"

mutual
def same : Content → Content → Bool
  | string a, string b => a == b
  | long a, long b => a == b
  | longs a, longs b => a == b
  | message a, message b => sameFields a b
  | json a, json b => a.same b
  | _, _ => false

def sameFields : List (Option String × Content) → List (Option String × Content) → Bool
  | [], [] => true
  | (m, a) :: as, (n, b) :: bs => m == n && same a b && sameFields as bs
  | _, _ => false
end

mutual
/-- Written as an object with the kind of the content as its only name. -/
def toDocument : Content → Document
  | string s => .record [("String", .str s)]
  | long n => .record [("Long", .int n.toInt)]
  | longs ns => .record [("LongArray", .array (ns.map fun n => .int n.toInt))]
  | message fields => .record [("Message", .record [("fields", .array (documentsOfFields fields))])]
  | json v => .record [("Json", v.toDocument)]

def documentsOfFields : List (Option String × Content) → List Document
  | [] => []
  | (name, content) :: rest =>
    .record [("name", match name with | none => .null | some name => .str name),
      ("value", toDocument content)] :: documentsOfFields rest
end

end Content

namespace Message

def empty : Message := ⟨[]⟩

def append (m : Message) (name : Option String) (content : Content) : Message :=
  ⟨m.fields ++ [(name, content)]⟩

def same (m n : Message) : Bool := Content.sameFields m.fields n.fields

def getAll (m : Message) (name : String) : List Content :=
  m.fields.filterMap fun f => if f.1 = some name then some f.2 else none

def get? (m : Message) (name : String) : Option Content := (m.getAll name).head?

def unexpected (name expected : String) (found : Content) : DecodeError :=
  .invalid name ("expected " ++ expected ++ ", got " ++ found.kind)

def require (m : Message) (name : String) : Except DecodeError Content :=
  match m.get? name with
  | some content => .ok content
  | none => .error (.missing name)

def requireString (m : Message) (name : String) : Except DecodeError String := do
  match ← m.require name with
  | .string s => .ok s
  | other => .error (unexpected name "string" other)

def requireLongs (m : Message) (name : String) : Except DecodeError (List Int64) := do
  match ← m.require name with
  | .longs ns => .ok ns
  | other => .error (unexpected name "long array" other)

def ofContent (name : String) : Content → Except DecodeError Message
  | .message fields => .ok ⟨fields⟩
  | other => .error (unexpected name "message" other)

def requireMessage (m : Message) (name : String) : Except DecodeError Message := do
  ofContent name (← m.require name)

/-- Every content under a name, each of which must be a message. -/
def messages (m : Message) (name : String) : Except DecodeError (List Message) :=
  (m.getAll name).mapM (ofContent name)

def toDocument (m : Message) : Document :=
  .record [("fields", .array (Content.documentsOfFields m.fields))]

mutual
def contentOfDocument? : Nat → Document → Option Content
  | levels + 1, .object [(some kind, d)] =>
    match kind with
    | "String" => (Reader.string levels d).map .string
    | "Long" => (Reader.int64 levels d).map .long
    | "LongArray" => (Reader.list .int64 levels d).map .longs
    | "Message" => (fieldsOfDocument? levels d).map .message
    | "Json" => (Value.ofDocument? levels d).map .json
    | _ => none
  | _, _ => none

def fieldsOfDocument? : Nat → Document → Option (List (Option String × Content))
  | levels + 2, d => do
    let r ← Record.ofDocument? ["fields"] (levels + 2) d
    match ← r.fields.lookup "fields" with
    | .array items => items.mapM (fieldOfDocument? levels)
    | _ => none
  | _, _ => none

def fieldOfDocument? : Nat → Document → Option (Option String × Content)
  | levels + 1, d => do
    let r ← Record.ofDocument? ["name", "value"] (levels + 1) d
    return (← r.optional "name" .string, ← contentOfDocument? levels (← r.fields.lookup "value"))
  | 0, _ => none
end

def ofDocument? : Reader Message := fun levels d => (fieldsOfDocument? levels d).map mk

def text (m : Message) : String := m.toDocument.text

def ofText (s : String) : Except DecodeError Message :=
  match Reader.text? ofDocument? s with
  | some m => .ok m
  | none => .error .malformed

end Message
end ValuationCycle.Wire
