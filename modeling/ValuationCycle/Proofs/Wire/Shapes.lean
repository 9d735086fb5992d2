import Mathlib.Data.List.Basic
import ValuationCycle.Proofs.Wire.Grammar

/-!
# Shapes

The fields of every kind of message that an object is written as are laid down in a table: what
each has to hold, whether it may be missing and whether it may come again. Reading an object goes
through the table part by part and in its order, each part on its own. Only of a job item the parts
in which its target lies are read apart, since what is missing there is reported as the target;
and of properties every field is one.
-/
namespace ValuationCycle.Wire
open Json Message

inductive Shape where
  | uniqueId
  | target
  | properties
  | requirement
  | specification
  | parameters
  | jobItem
  | cacheQuery
  deriving DecidableEq

/-- What the fields of a name have to hold, and how many there are. -/
inductive Slot where
  | string
  | optionalString
  | targetType
  | longs
  | json
  | message (shape : Shape)
  | messages (shape : Shape)
  deriving DecidableEq

namespace Slot

def mandatory : Slot → Bool
  | optionalString | messages _ => false
  | _ => true

def repeated : Slot → Bool
  | messages _ => true
  | _ => false

def nested? : Slot → Option Shape
  | message shape | messages shape => some shape
  | _ => none

/-- Whether a field may hold a content; messages are not looked into. -/
def takes : Slot → Content → Bool
  | string, .string _ | optionalString, .string _ | longs, .longs _ | json, .json _
  | message _, .message _ | messages _, .message _ => true
  | targetType, .string name => (TargetType.ofName? name).isSome
  | _, _ => false

end Slot

namespace Shape

/-- The fields of a message by their names, in the order in which they are read. Of properties
every field is a property. -/
def parts : Shape → List (String × Slot)
  | uniqueId => [("scheme", .string), ("value", .string), ("version", .optionalString)]
  | target => [("computationTargetType", .targetType), ("computationTargetId", .message uniqueId)]
  | properties => []
  | requirement => [("valueName", .string), ("computationTargetType", .targetType),
      ("computationTargetId", .message uniqueId), ("constraints", .message properties)]
  | specification => [("valueName", .string), ("computationTargetType", .targetType),
      ("computationTargetId", .message uniqueId), ("functionUniqueId", .string),
      ("properties", .message properties)]
  | parameters => [("type", .string), ("payload", .json)]
  | jobItem => [("computationTargetType", .targetType), ("computationTargetId", .message uniqueId),
      ("functionUniqueIdentifier", .string), ("functionParameters", .message parameters),
      ("valueInput", .longs), ("desiredValue", .messages requirement)]
  | cacheQuery => [("calculationConfigurationName", .string),
      ("valueSpecification", .messages specification)]

/-- The fields that some object of the kind is written as. -/
def Encodes : Shape → List Field → Prop
  | uniqueId, fields => ∃ a : UniqueId, fields = Codec.fields a
  | target, fields => ∃ a : Target, fields = Codec.fields a
  | properties, fields => ∃ a : Properties, fields = Codec.fields a
  | requirement, fields => ∃ a : Requirement, fields = Codec.fields a
  | specification, fields => ∃ a : Specification, fields = Codec.fields a
  | parameters, fields => ∃ a : Parameters, fields = Codec.fields a
  | jobItem, fields => ∃ a : JobItem, fields = Codec.fields a
  | cacheQuery, fields => ∃ a : CacheQuery, fields = Codec.fields a

end Shape

section void
variable {α β : Type}

/-- A reading without what is read. -/
def void (x : Except DecodeError α) : Except DecodeError Unit := x >>= fun _ => .ok ()

theorem void_bind (x : Except DecodeError α) (f : α → Except DecodeError β) :
    void (x >>= f) = x >>= fun a => void (f a) := by
  cases x <;> rfl

theorem bind_const (x : Except DecodeError α) (y : Except DecodeError β) :
    (x >>= fun _ => y) = void x >>= fun _ => y := by
  cases x <;> rfl

theorem void_pure (a : α) : void (pure a) = pure () := rfl

theorem void_eq_error {x : Except DecodeError α} {e : DecodeError} :
    void x = .error e ↔ x = .error e := by
  cases x <;> simp [void, bind, Except.bind]

theorem void_eq_ok {x : Except DecodeError α} : void x = .ok () ↔ ∃ a, x = .ok a := by
  cases x <;> simp [void, bind, Except.bind]

theorem void_mapM (f : α → Except DecodeError β) (as : List α) :
    void (as.mapM f) = forM as fun a => void (f a) := by
  induction as with
  | nil => rfl
  | cons a as ih =>
      rw [List.mapM_cons, void_bind, List.forM_cons, ← ih]
      cases f a with
      | error e => rfl
      | ok b => cases as.mapM f <;> rfl

theorem forM_eq_ok_iff {f : α → Except DecodeError Unit} {as : List α} :
    forM as f = .ok () ↔ ∀ a ∈ as, f a = .ok () := by
  induction as with
  | nil => exact iff_of_true rfl (by simp)
  | cons a as ih =>
      rw [List.forM_cons, List.forall_mem_cons, ← ih, bind_eq_ok_iff]
      exact ⟨fun ⟨_, ha, has⟩ => ⟨ha, has⟩, fun ⟨ha, has⟩ => ⟨(), ha, has⟩⟩

end void

namespace Shape

def read : Shape → Message → Except DecodeError Unit
  | uniqueId, m => void (Codec.decode m : Except DecodeError UniqueId)
  | target, m => void (Codec.decode m : Except DecodeError Target)
  | properties, m => void (Codec.decode m : Except DecodeError Properties)
  | requirement, m => void (Codec.decode m : Except DecodeError Requirement)
  | specification, m => void (Codec.decode m : Except DecodeError Specification)
  | parameters, m => void (Codec.decode m : Except DecodeError Parameters)
  | jobItem, m => void (Codec.decode m : Except DecodeError JobItem)
  | cacheQuery, m => void (Codec.decode m : Except DecodeError CacheQuery)

def Refuses : Shape → Message → DecodeError → Prop
  | uniqueId, m, e => (Codec.decode m : Except DecodeError UniqueId) = .error e
  | target, m, e => (Codec.decode m : Except DecodeError Target) = .error e
  | properties, m, e => (Codec.decode m : Except DecodeError Properties) = .error e
  | requirement, m, e => (Codec.decode m : Except DecodeError Requirement) = .error e
  | specification, m, e => (Codec.decode m : Except DecodeError Specification) = .error e
  | parameters, m, e => (Codec.decode m : Except DecodeError Parameters) = .error e
  | jobItem, m, e => (Codec.decode m : Except DecodeError JobItem) = .error e
  | cacheQuery, m, e => (Codec.decode m : Except DecodeError CacheQuery) = .error e

theorem read_eq_error_iff (shape : Shape) {m : Message} {e : DecodeError} :
    shape.read m = .error e ↔ shape.Refuses m e := by
  cases shape <;> exact void_eq_error

theorem Encodes.read {shape : Shape} {fields : List Field} (h : shape.Encodes fields) :
    shape.read ⟨fields⟩ = .ok () := by
  cases shape <;> obtain ⟨a, rfl⟩ := h <;> refine void_eq_ok.mpr ⟨a, ?_⟩
  · exact decode_toMessage_uniqueId a
  · exact decode_toMessage_target a
  · exact decode_toMessage_properties a
  · exact decode_toMessage_requirement a
  · exact decode_toMessage_specification a
  · exact decode_toMessage_parameters a
  · exact decode_toMessage_jobItem a
  · exact Codec.decode_toMessage_cacheQuery a

end Shape

namespace Slot

def read (name : String) (m : Message) : Slot → Except DecodeError Unit
  | string => void (m.requireString name)
  | optionalString => void (m.optionalString name)
  | targetType => m.requireString name >>= fun s => match TargetType.ofName? s with
    | some _ => .ok ()
    | none => .error (.invalid name ("unknown target type `" ++ s ++ "`"))
  | longs => void (m.requireLongs name)
  | json => m.require name >>= fun c => match c with
    | .json _ => .ok ()
    | _ => .error (.invalid name "expected json")
  | message shape => m.requireMessage name >>= shape.read
  | messages shape => m.messages name >>= fun ms => forM ms shape.read

end Slot

namespace Shape
open Codec

def readParts (parts : List (String × Slot)) (m : Message) : Except DecodeError Unit :=
  forM parts fun p => p.2.read p.1 m

theorem readParts_cons (name : String) (slot : Slot) (parts : List (String × Slot)) (m : Message) :
    readParts ((name, slot) :: parts) m = slot.read name m >>= fun _ => readParts parts m := rfl

theorem void_requireObject {α : Type} [Codec α] (m : Message) (name : String) :
    void (m.requireObject name : Except DecodeError α) =
      m.requireMessage name >>= fun inner => void (decode inner : Except DecodeError α) :=
  void_bind _ _

theorem void_objects {α : Type} [Codec α] (m : Message) (name : String) :
    void (m.objects α name) = m.messages name >>= fun ms =>
      forM ms fun inner => void (decode inner : Except DecodeError α) := by
  rw [objects, void_bind]
  exact congrArg _ (funext fun ms => void_mapM _ ms)

theorem readParts_append (parts rest : List (String × Slot)) (m : Message) :
    readParts (parts ++ rest) m = readParts parts m >>= fun _ => readParts rest m :=
  List.forM_append

theorem readParts_eq_error {parts : List (String × Slot)} (hn : (parts.map Prod.fst).Nodup)
    {m : Message} {name : String} {slot : Slot} {e : DecodeError} (hp : (name, slot) ∈ parts)
    (he : slot.read name m = .error e)
    (hothers : ∀ p ∈ parts, p.1 ≠ name → p.2.read p.1 m = .ok ()) :
    readParts parts m = .error e := by
  induction parts with
  | nil => simp at hp
  | cons p parts ih =>
      rw [List.map_cons, List.nodup_cons] at hn
      rw [readParts_cons]
      cases hp with
      | head => rw [he]; rfl
      | tail _ hp =>
          have hne : p.1 ≠ name := fun h => hn.1 (h ▸ List.mem_map_of_mem hp)
          rw [hothers p List.mem_cons_self hne]
          exact ih hn.2 hp fun q hq => hothers q (List.mem_cons_of_mem p hq)

theorem read_uniqueId (m : Message) : uniqueId.read m = readParts uniqueId.parts m := by
  change void (do return ⟨← m.requireString "scheme", ← m.requireString "value",
    ← m.optionalString "version"⟩ : Except DecodeError UniqueId) = _
  simp only [void_bind, void_pure, bind_const (m.requireString _), bind_const (m.optionalString _)]
  rfl

theorem read_targetType (m : Message) : Slot.targetType.read "computationTargetType" m =
    m.requireString "computationTargetType" >>= fun s => void (decodeTargetType s) := by
  refine congrArg (m.requireString "computationTargetType" >>= ·) (funext fun s => ?_)
  rw [decodeTargetType]
  cases TargetType.ofName? s <;> rfl

theorem read_target (m : Message) : target.read m = readParts target.parts m := by
  change void (do return ⟨← decodeTargetType (← m.requireString "computationTargetType"),
    ← m.requireObject "computationTargetId"⟩ : Except DecodeError Target) = _
  simp only [void_bind, void_pure, bind_const (decodeTargetType _), bind_const (m.requireObject _),
    void_requireObject]
  change _ = Slot.targetType.read "computationTargetType" m >>= _
  rw [read_targetType]
  exact (bind_assoc ..).symm

theorem read_payload (m : Message) : Slot.json.read "payload" m = void (decodePayload m) := by
  rw [decodePayload, void_bind]
  exact congrArg (m.require "payload" >>= ·) (funext fun c => by cases c <;> rfl)

theorem read_parameters (m : Message) : parameters.read m = readParts parameters.parts m := by
  change void (do return ⟨← m.requireString "type", ← decodePayload m⟩ :
    Except DecodeError Parameters) = _
  simp only [void_bind, void_pure, bind_const (m.requireString _), bind_const (decodePayload m),
    ← read_payload]
  rfl

theorem read_requirement (m : Message) : requirement.read m = readParts requirement.parts m := by
  change void (do return ⟨← m.requireString "valueName", ← decode m,
    ← m.requireObject "constraints"⟩ : Except DecodeError Requirement) = _
  simp only [void_bind, void_pure, bind_const (m.requireString _), bind_const (decode m),
    bind_const (m.requireObject _), void_requireObject]
  change (Slot.string.read "valueName" m >>= fun _ => target.read m >>= fun _ =>
    readParts [("constraints", .message properties)] m) = _
  rw [read_target, ← readParts_append, ← readParts_cons]
  rfl

theorem read_specification (m : Message) :
    specification.read m = readParts specification.parts m := by
  change void (do return ⟨← m.requireString "valueName", ← decode m,
    ← m.requireString "functionUniqueId", ← m.requireObject "properties"⟩ :
    Except DecodeError Specification) = _
  simp only [void_bind, void_pure, bind_const (m.requireString _), bind_const (decode m),
    bind_const (m.requireObject _), void_requireObject]
  change (Slot.string.read "valueName" m >>= fun _ => target.read m >>= fun _ =>
    readParts [("functionUniqueId", .string), ("properties", .message properties)] m) = _
  rw [read_target, ← readParts_append, ← readParts_cons]
  rfl

theorem read_cacheQuery (m : Message) : cacheQuery.read m = readParts cacheQuery.parts m := by
  have hdecode : decode m = (do return ⟨← m.requireString "calculationConfigurationName",
      ← m.objects Specification "valueSpecification"⟩ : Except DecodeError CacheQuery) := by
    simp only [objects, bind_assoc]
    rfl
  change void (decode m : Except DecodeError CacheQuery) = _
  simp only [hdecode, void_bind, void_pure, bind_const (m.requireString _),
    bind_const (m.objects _ _), void_objects]
  rfl

def asTarget : DecodeError → DecodeError
  | .missing _ => .missing "computationTargetSpecification"
  | e => e

theorem void_decodeTarget (m : Message) :
    void (JobItem.decodeTarget m) = (readParts target.parts m).mapError asTarget := by
  rw [← read_target, JobItem.decodeTarget]
  change _ = (void (decode m : Except DecodeError Target)).mapError asTarget
  generalize (decode m : Except DecodeError Target) = t
  cases t with
  | ok t => rfl
  | error e => cases e <;> rfl

theorem parts_jobItem : jobItem.parts = target.parts ++ jobItem.parts.drop 2 := rfl

theorem read_jobItem (m : Message) : jobItem.read m =
    (readParts target.parts m).mapError asTarget >>= fun _ =>
      readParts (jobItem.parts.drop 2) m := by
  change void (decode m : Except DecodeError JobItem) = _
  simp only [decode_jobItem_eq, void_bind, void_pure, bind_const (JobItem.decodeTarget m),
    bind_const (m.requireString _), bind_const (m.requireObject _), bind_const (m.requireLongs _),
    bind_const (m.objects _ _), void_requireObject, void_objects, void_decodeTarget]
  rfl

end Shape

namespace Slot
variable {slot : Slot} {shape inner : Shape} {name : String} {m m' : Message}

theorem read_congr (h : m.getAll name = m'.getAll name) : slot.read name m = slot.read name m' := by
  have hfirst : m.get? name = m'.get? name := by rw [get?, get?, h]
  cases slot with
  | string => rw [read, read, requireString_congr hfirst]
  | optionalString => rw [read, read, optionalString_congr hfirst]
  | targetType => rw [read, read, requireString_congr hfirst]
  | longs => rw [read, read, requireLongs_congr hfirst]
  | json => rw [read, read, require_congr hfirst]
  | message => rw [read, read, requireMessage, requireMessage, require_congr hfirst]
  | messages => rw [read, read, messages_congr h]

theorem mapM_ofContent (name : String) (inners : List (List Field)) :
    (inners.map Content.message).mapM (ofContent name) = .ok (inners.map Message.mk) := by
  rw [List.mapM_map]
  exact List.mapM_pure

theorem read_messages {inners : List (List Field)}
    (h : m.getAll name = inners.map Content.message) :
    (messages shape).read name m = forM inners fun fields => shape.read ⟨fields⟩ := by
  rw [read, Message.messages, h, mapM_ofContent]
  exact List.forM_map

/-- What stands under a name in the encoding of an object. -/
def Holds : Slot → List Content → Prop
  | message shape, cs => ∃ fields, cs = [.message fields] ∧ shape.Encodes fields
  | messages shape, cs => ∃ inners : List (List Field), cs = inners.map Content.message ∧
      ∀ fields ∈ inners, shape.Encodes fields
  | _, cs => cs.length ≤ 1

theorem holds_objects {α : Type} [Codec α] (as : List α)
    (h : ∀ a : α, shape.Encodes (Codec.fields a)) :
    (messages shape).Holds (as.map fun a => Content.message (Codec.fields a)) :=
  ⟨as.map Codec.fields, by rw [List.map_map]; rfl, List.forall_mem_map.mpr fun a _ => h a⟩

end Slot

namespace Shape
variable {shape : Shape} {name : String} {slot : Slot} {fields : List Field}

theorem Encodes.holds (h : shape.Encodes fields) :
    ∀ p ∈ shape.parts, p.2.Holds (getAll ⟨fields⟩ p.1) := by
  cases shape with
  | uniqueId =>
      obtain ⟨⟨scheme, value, version⟩, rfl⟩ := h
      simp only [parts, List.forall_mem_cons]
      cases version with
      | none => exact ⟨Nat.le_refl 1, Nat.le_refl 1, Nat.zero_le 1, by simp⟩
      | some version => exact ⟨Nat.le_refl 1, Nat.le_refl 1, Nat.le_refl 1, by simp⟩
  | target =>
      obtain ⟨t, rfl⟩ := h
      simp only [parts, List.forall_mem_cons]
      exact ⟨Nat.le_refl 1, ⟨_, rfl, _, rfl⟩, by simp⟩
  | properties => simp [parts]
  | requirement =>
      obtain ⟨r, rfl⟩ := h
      simp only [parts, List.forall_mem_cons]
      exact ⟨Nat.le_refl 1, Nat.le_refl 1, ⟨_, rfl, _, rfl⟩, ⟨_, rfl, _, rfl⟩, by simp⟩
  | specification =>
      obtain ⟨s, rfl⟩ := h
      simp only [parts, List.forall_mem_cons]
      exact ⟨Nat.le_refl 1, Nat.le_refl 1, ⟨_, rfl, _, rfl⟩, Nat.le_refl 1, ⟨_, rfl, _, rfl⟩,
        by simp⟩
  | parameters =>
      obtain ⟨p, rfl⟩ := h
      simp only [parts, List.forall_mem_cons]
      exact ⟨Nat.le_refl 1, Nat.le_refl 1, by simp⟩
  | jobItem =>
      obtain ⟨j, rfl⟩ := h
      have hget : ∀ name, getAll ⟨Codec.fields j⟩ name = _ := getAll_toMessage_jobItem j
      simp only [parts, List.forall_mem_cons, hget, String.reduceEq, reduceIte, List.append_nil]
      exact ⟨Nat.le_refl 1, ⟨_, rfl, _, rfl⟩, Nat.le_refl 1, ⟨_, rfl, _, rfl⟩, Nat.le_refl 1,
        Slot.holds_objects j.desired fun r => ⟨r, rfl⟩, by simp⟩
  | cacheQuery =>
      obtain ⟨q, rfl⟩ := h
      have hget : ∀ name, getAll ⟨Codec.fields q⟩ name = _ := Codec.getAll_toMessage_cacheQuery q
      simp only [parts, List.forall_mem_cons, hget, String.reduceEq, reduceIte, List.append_nil,
        List.nil_append]
      exact ⟨Nat.le_refl 1, Slot.holds_objects q.specifications fun s => ⟨s, rfl⟩, by simp⟩

theorem nodup_parts (shape : Shape) : (shape.parts.map Prod.fst).Nodup := by
  cases shape <;> decide

theorem read_eq_readParts (hp : shape ≠ .properties) (hj : shape ≠ .jobItem) (m : Message) :
    shape.read m = readParts shape.parts m := by
  cases shape with
  | uniqueId => exact read_uniqueId m
  | target => exact read_target m
  | properties => exact absurd rfl hp
  | requirement => exact read_requirement m
  | specification => exact read_specification m
  | parameters => exact read_parameters m
  | jobItem => exact absurd rfl hj
  | cacheQuery => exact read_cacheQuery m

theorem mapError_eq_ok {x : Except DecodeError Unit} {f : DecodeError → DecodeError}
    (h : x.mapError f = .ok ()) : x = .ok () := by
  cases x with
  | ok => rfl
  | error => cases h

theorem read_part_of_read {m : Message} (h : shape.read m = .ok ()) :
    ∀ p ∈ shape.parts, p.2.read p.1 m = .ok () := by
  by_cases hp : shape = .properties
  · subst hp
    simp [parts]
  by_cases hj : shape = .jobItem
  · subst hj
    rw [read_jobItem, bind_eq_ok_iff] at h
    obtain ⟨_, htarget, hrest⟩ := h
    have hall := List.forall_mem_append.mpr
      ⟨forM_eq_ok_iff.mp (mapError_eq_ok htarget), forM_eq_ok_iff.mp hrest⟩
    exact hall
  · rw [read_eq_readParts hp hj] at h
    exact forM_eq_ok_iff.mp h

end Shape
end ValuationCycle.Wire
