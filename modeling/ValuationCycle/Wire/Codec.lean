import ValuationCycle.Wire.Message
import ValuationCycle.Specification
import ValuationCycle.Function.Parameters

/-!
# Codecs

A type that travels gives the fields it is written as and reads itself from a
message, looking only at the fields of its own names. A target lies flat in the
message of its container; identifiers, properties and parameters are messages
of their own. Reading makes nothing up: a missing field or one of another kind
is an error that names the field.
-/
namespace ValuationCycle.Wire
open Json Std

/-- A type that is written as fields and read from a message. -/
class Codec (α : Type) where
  /-- The fields of an object, in order. -/
  fields : α → List Field
  /-- The object that a message describes. -/
  decode : Message → Except DecodeError α

namespace Codec
variable {α : Type} [Codec α]

def toMessage (a : α) : Message := ⟨fields a⟩

def text (a : α) : String := (toMessage a).text

def ofText (s : String) : Except DecodeError α := do decode (← Message.ofText s)

end Codec

def stringField (name s : String) : Field := (some name, .string s)

def objectField {α : Type} [Codec α] (name : String) (a : α) : Field :=
  (some name, .message (Codec.fields a))

/-- Reads an optional string: absent, or a string under the name. -/
def Message.optionalString (m : Message) (name : String) : Except DecodeError (Option String) :=
  match m.get? name with
  | none => .ok none
  | some _ => some <$> m.requireString name

def Message.requireObject {α : Type} [Codec α] (m : Message) (name : String) :
    Except DecodeError α := do
  Codec.decode (← m.requireMessage name)

instance : Codec UniqueId where
  fields id := stringField "scheme" id.scheme :: stringField "value" id.value ::
    match id.version with
    | none => []
    | some version => [stringField "version" version]
  decode m := do
    return ⟨← m.requireString "scheme", ← m.requireString "value", ← m.optionalString "version"⟩

def decodeTargetType (name : String) : Except DecodeError TargetType :=
  match TargetType.ofName? name with
  | some t => .ok t
  | none => .error (.invalid "computationTargetType" ("unknown target type `" ++ name ++ "`"))

instance : Codec Target where
  fields t := [stringField "computationTargetType" t.targetType.name,
    objectField "computationTargetId" t.identifier]
  decode m := do
    return ⟨← decodeTargetType (← m.requireString "computationTargetType"),
      ← m.requireObject "computationTargetId"⟩

def decodePermitted (name : String) (p : Properties) (f : Field) : Except DecodeError Properties :=
  match f.2 with
  | .string value => .ok (p.permit name value)
  | _ => .error (.invalid "properties" ("property `" ++ name ++ "` holds a non-string value"))

def decodeProperty (p : Properties) (f : Field) : Except DecodeError Properties :=
  match f with
  | (some name, .message values) => values.foldlM (decodePermitted name) (p.declare name)
  | _ => .error (.invalid "properties" "expected named message per property")

instance : Codec Properties where
  fields p := p.toList.map fun (name, values) =>
    (some name, .message (values.map fun value => (none, .string value)))
  decode m := m.fields.foldlM decodeProperty .none

instance : Codec Requirement where
  fields r := stringField "valueName" r.valueName :: Codec.fields r.target ++
    [objectField "constraints" r.constraints]
  decode m := do
    return ⟨← m.requireString "valueName", ← Codec.decode m, ← m.requireObject "constraints"⟩

instance : Codec Specification where
  fields s := stringField "valueName" s.valueName :: Codec.fields s.target ++
    [stringField "functionUniqueId" s.functionId, objectField "properties" s.properties]
  decode m := do
    return ⟨← m.requireString "valueName", ← Codec.decode m, ← m.requireString "functionUniqueId",
      ← m.requireObject "properties"⟩

def decodePayload (m : Message) : Except DecodeError Value := do
  match ← m.require "payload" with
  | .json v => .ok v
  | _ => .error (.invalid "payload" "expected json")

instance : Codec Parameters where
  fields p := [stringField "type" p.typeName, (some "payload", .json p.payload)]
  decode m := do
    return ⟨← m.requireString "type", ← decodePayload m⟩

end ValuationCycle.Wire
