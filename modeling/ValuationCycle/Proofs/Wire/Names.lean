import ValuationCycle.Cycle.Query
import ValuationCycle.Proofs.Wire.Codecs

/-!
# Objects among other fields

Of a message that an object is read from, only the contents under the names of its type count.
So an object is read back from its fields whatever other fields stand before and behind them,
which is what lets a target lie flat in the message of its container. Properties are the
exception: every field of their message is a property.
-/
namespace ValuationCycle.Wire
open Json

namespace Message
variable {m m' : Message} {name : String}

theorem getAll_eq_nil {fields : List Field} (h : ∀ f ∈ fields, f.1 ≠ some name) :
    getAll ⟨fields⟩ name = [] :=
  List.filterMap_eq_nil_iff.mpr fun f hf => if_neg (h f hf)

theorem require_congr (h : m.get? name = m'.get? name) : m.require name = m'.require name := by
  rw [require, require, h]

theorem requireString_congr (h : m.get? name = m'.get? name) :
    m.requireString name = m'.requireString name := by
  rw [requireString, requireString, require_congr h]

theorem requireLongs_congr (h : m.get? name = m'.get? name) :
    m.requireLongs name = m'.requireLongs name := by
  rw [requireLongs, requireLongs, require_congr h]

theorem requireObject_congr {α : Type} [Codec α] (h : m.get? name = m'.get? name) :
    (m.requireObject name : Except DecodeError α) = m'.requireObject name := by
  rw [requireObject, requireObject, requireMessage, requireMessage, require_congr h]

theorem optionalString_congr (h : m.get? name = m'.get? name) :
    m.optionalString name = m'.optionalString name := by
  rw [optionalString, optionalString, requireString_congr h, h]

theorem messages_congr (h : m.getAll name = m'.getAll name) :
    m.messages name = m'.messages name := by
  rw [messages, messages, h]

end Message

open Message

namespace Codec

/-- Whether a field of that name, put in front of some message, changes what is read. -/
def Reads (α : Type) [Codec α] (name : String) : Prop :=
  ∃ (m : Message) (c : Content),
    (decode ⟨(some name, c) :: m.fields⟩ : Except DecodeError α) ≠ decode m

/-- A type is read under some names and no others, and each object of it is read back from its
fields among fields of other names or of none. -/
structure ReadUnder (α : Type) [Codec α] (names : List String) : Prop where
  reads_iff : ∀ name, Reads α name ↔ name ∈ names
  decode_eq : ∀ (a : α) (before behind : List Field),
    (∀ f ∈ before ++ behind, ∀ name ∈ names, f.1 ≠ some name) →
    decode ⟨before ++ fields a ++ behind⟩ = .ok a

def DependsOn (α : Type) [Codec α] (names : List String) : Prop :=
  ∀ {m m' : Message}, (∀ name ∈ names, m.getAll name = m'.getAll name) →
    (decode m : Except DecodeError α) = decode m'

/-- What is read depends on no more than the first contents under some names and all contents under
some others. -/
def DependsOnFirst (α : Type) [Codec α] (singles repeated : List String) : Prop :=
  ∀ {m m' : Message}, (∀ name ∈ singles, m.get? name = m'.get? name) →
    (∀ name ∈ repeated, m.getAll name = m'.getAll name) →
    (decode m : Except DecodeError α) = decode m'

section
variable {α : Type} [Codec α] {names singles repeated : List String}

theorem DependsOn.mem_of_reads (h : DependsOn α names) {name : String} (hr : Reads α name) :
    name ∈ names := by
  obtain ⟨m, c, hne⟩ := hr
  by_contra hname
  refine hne (h fun other hother => ?_)
  have hdiff : (some name, c).1 ≠ some other := fun he =>
    hname (Option.some.inj he ▸ hother)
  rw [getAll_cons, if_neg hdiff, List.nil_append]

/-- It is enough that of one object each name counts: a number under it in front of the fields is
refused. -/
theorem DependsOn.readUnder (h : DependsOn α names)
    (hself : ∀ a : α, decode (toMessage a) = .ok a) (a : α)
    (hrefused : ∀ name ∈ names,
      (decode ⟨(some name, .long 0) :: fields a⟩ : Except DecodeError α).toBool = false) :
    ReadUnder α names := by
  refine ⟨fun name => ⟨h.mem_of_reads, fun hname => ?_⟩, fun a before behind hapart => ?_⟩
  · refine ⟨toMessage a, .long 0, fun he => ?_⟩
    have := hrefused name hname
    rw [show decode ⟨(some name, .long 0) :: fields a⟩ = _ from he.trans (hself a)] at this
    simp [Except.toBool] at this
  · refine (h fun name hname => ?_).trans (hself a)
    have hbefore : getAll ⟨before⟩ name = [] := getAll_eq_nil fun f hf =>
      hapart f (List.mem_append_left _ hf) name hname
    have hbehind : getAll ⟨behind⟩ name = [] := getAll_eq_nil fun f hf =>
      hapart f (List.mem_append_right _ hf) name hname
    rw [getAll_append, getAll_append, hbefore, hbehind, List.nil_append, List.append_nil,
      toMessage]

theorem DependsOnFirst.dependsOn (h : DependsOnFirst α singles repeated) :
    DependsOn α (singles ++ repeated) := by
  intro m m' hm
  refine h (fun name hname => ?_) fun name hname => hm name (List.mem_append_right _ hname)
  rw [get?, get?, hm name (List.mem_append_left _ hname)]

theorem DependsOnFirst.readUnder (h : DependsOnFirst α singles repeated)
    (hself : ∀ a : α, decode (toMessage a) = .ok a) (a : α)
    (hrefused : ∀ name ∈ singles ++ repeated,
      (decode ⟨(some name, .long 0) :: fields a⟩ : Except DecodeError α).toBool = false) :
    ReadUnder α (singles ++ repeated) := DependsOn.readUnder h.dependsOn hself a hrefused

end

theorem dependsOn_uniqueId : DependsOnFirst UniqueId ["scheme", "value", "version"] [] := by
  intro m m' h _
  change (do return ⟨← m.requireString "scheme", ← m.requireString "value",
    ← m.optionalString "version"⟩ : Except DecodeError UniqueId) = _
  rw [requireString_congr (h "scheme" (by simp)), requireString_congr (h "value" (by simp)),
    optionalString_congr (h "version" (by simp))]
  rfl

theorem dependsOn_target :
    DependsOnFirst Target ["computationTargetType", "computationTargetId"] [] := by
  intro m m' h _
  change (do return ⟨← decodeTargetType (← m.requireString "computationTargetType"),
    ← m.requireObject "computationTargetId"⟩ : Except DecodeError Target) = _
  rw [requireString_congr (h "computationTargetType" (by simp)),
    requireObject_congr (h "computationTargetId" (by simp))]
  rfl

theorem dependsOn_requirement : DependsOnFirst Requirement
    ["valueName", "computationTargetType", "computationTargetId", "constraints"] [] := by
  intro m m' h _
  have htarget : (decode m : Except DecodeError Target) = decode m' :=
    dependsOn_target (fun name hname => h name (by simp at hname ⊢; tauto)) (by simp)
  change (do return ⟨← m.requireString "valueName", ← decode m,
    ← m.requireObject "constraints"⟩ : Except DecodeError Requirement) = _
  rw [requireString_congr (h "valueName" (by simp)), htarget,
    requireObject_congr (h "constraints" (by simp))]
  rfl

theorem dependsOn_specification : DependsOnFirst Specification ["valueName",
    "computationTargetType", "computationTargetId", "functionUniqueId", "properties"] [] := by
  intro m m' h _
  have htarget : (decode m : Except DecodeError Target) = decode m' :=
    dependsOn_target (fun name hname => h name (by simp at hname ⊢; tauto)) (by simp)
  change (do return ⟨← m.requireString "valueName", ← decode m,
    ← m.requireString "functionUniqueId", ← m.requireObject "properties"⟩ :
    Except DecodeError Specification) = _
  rw [requireString_congr (h "valueName" (by simp)), htarget,
    requireString_congr (h "functionUniqueId" (by simp)),
    requireObject_congr (h "properties" (by simp))]
  rfl

theorem dependsOn_parameters : DependsOnFirst Parameters ["type", "payload"] [] := by
  intro m m' h _
  have hpayload : decodePayload m = decodePayload m' := by
    rw [decodePayload, decodePayload, require_congr (h "payload" (by simp))]
  change (do return ⟨← m.requireString "type", ← decodePayload m⟩ :
    Except DecodeError Parameters) = _
  rw [requireString_congr (h "type" (by simp)), hpayload]
  rfl

theorem dependsOn_jobItem : DependsOnFirst JobItem ["computationTargetType",
    "computationTargetId", "functionUniqueIdentifier", "functionParameters", "valueInput"]
    ["desiredValue"] := by
  intro m m' h hr
  have htarget : JobItem.decodeTarget m = JobItem.decodeTarget m' := by
    have hdecode : (decode m : Except DecodeError Target) = decode m' :=
      dependsOn_target (fun name hname => h name (by simp at hname ⊢; tauto)) (by simp)
    rw [JobItem.decodeTarget, JobItem.decodeTarget, hdecode]
  change (do
    let target ← JobItem.decodeTarget m
    let functionId ← m.requireString "functionUniqueIdentifier"
    let parameters ← m.requireObject "functionParameters"
    let inputs ← m.requireLongs "valueInput"
    let desired ← (← m.messages "desiredValue").mapM decode
    return ⟨functionId, parameters, target, inputs, desired⟩ : Except DecodeError JobItem) = _
  rw [htarget, requireString_congr (h "functionUniqueIdentifier" (by simp)),
    requireObject_congr (h "functionParameters" (by simp)),
    requireLongs_congr (h "valueInput" (by simp)), messages_congr (hr "desiredValue" (by simp))]
  rfl

theorem dependsOn_cacheQuery :
    DependsOnFirst CacheQuery ["calculationConfigurationName"] ["valueSpecification"] := by
  intro m m' h hr
  change (do
    let configuration ← m.requireString "calculationConfigurationName"
    let specifications ← (← m.messages "valueSpecification").mapM decode
    return ⟨configuration, specifications⟩ : Except DecodeError CacheQuery) = _
  rw [requireString_congr (h "calculationConfigurationName" (by simp)),
    messages_congr (hr "valueSpecification" (by simp))]
  rfl

theorem getAll_toMessage_cacheQuery (q : CacheQuery) (name : String) :
    (toMessage q).getAll name =
      (if "calculationConfigurationName" = name then [.string q.configuration] else []) ++
      if "valueSpecification" = name then q.specifications.map fun s => .message (fields s)
      else [] := by
  change getAll ⟨stringField _ _ :: q.specifications.map (objectField _)⟩ name = _
  rw [getAll_cons, getAll_map_objectField]
  simp only [stringField, Option.some.injEq]

theorem decode_toMessage_cacheQuery (q : CacheQuery) : decode (toMessage q) = .ok q := by
  have hname : (toMessage q).getAll "calculationConfigurationName" =
      [.string q.configuration] := by simp [getAll_toMessage_cacheQuery]
  have hspecifications : (toMessage q).getAll "valueSpecification" =
      q.specifications.map fun s => .message (fields s) := by simp [getAll_toMessage_cacheQuery]
  change (do
    let configuration ← (toMessage q).requireString "calculationConfigurationName"
    let specifications ← (← (toMessage q).messages "valueSpecification").mapM decode
    return ⟨configuration, specifications⟩ : Except DecodeError CacheQuery) = _
  rw [requireString_of_getAll hname, messages_of_getAll hspecifications]
  change ((q.specifications.map toMessage).mapM decode >>= _) = _
  rw [mapM_decode_toMessage fun s _ => decode_toMessage_specification s]
  rfl

/-- Every type that travels is read under its names alone, and an object is read back from its
fields wherever they stand among fields of other names or of none. Properties are read back from
a message of their own. -/
theorem decode_among_other_fields :
    ReadUnder UniqueId ["scheme", "value", "version"] ∧
    ReadUnder Target ["computationTargetType", "computationTargetId"] ∧
    ReadUnder Requirement
      ["valueName", "computationTargetType", "computationTargetId", "constraints"] ∧
    ReadUnder Specification ["valueName", "computationTargetType", "computationTargetId",
      "functionUniqueId", "properties"] ∧
    ReadUnder Parameters ["type", "payload"] ∧
    ReadUnder JobItem ["computationTargetType", "computationTargetId", "functionUniqueIdentifier",
      "functionParameters", "valueInput", "desiredValue"] ∧
    ReadUnder CacheQuery ["calculationConfigurationName", "valueSpecification"] ∧
    ∀ p : Properties, decode (toMessage p) = .ok p := by
  let id : UniqueId := ⟨"", "", none⟩
  let target : Target := ⟨.primitive, id⟩
  refine ⟨?_, ?_, ?_, ?_, ?_, ?_, ?_, decode_toMessage_properties⟩
  · exact dependsOn_uniqueId.readUnder decode_toMessage_uniqueId id (by decide)
  · exact dependsOn_target.readUnder decode_toMessage_target target (by decide)
  · exact dependsOn_requirement.readUnder decode_toMessage_requirement ⟨"", target, .none⟩
      (by decide)
  · exact dependsOn_specification.readUnder decode_toMessage_specification
      ⟨"", target, "", .none⟩ (by decide)
  · exact dependsOn_parameters.readUnder decode_toMessage_parameters .empty (by decide)
  · exact dependsOn_jobItem.readUnder decode_toMessage_jobItem ⟨"", .empty, target, [], []⟩
      (by decide)
  · exact dependsOn_cacheQuery.readUnder decode_toMessage_cacheQuery ⟨"", []⟩ (by decide)

namespace Sample

def properties : Properties := (Properties.none.declare "properties").permit "scheme" ""

def specification : Specification :=
  ⟨"valueName", ⟨.security, ⟨"Ticker", "AAPL", some ""⟩⟩, "7", properties⟩

/-- Fields that could be taken for others. -/
def strays : List Field := [(none, .string "scheme"), stringField "scheme" "Other",
  (some "constraints", .longs [0]), stringField "valuename" "Other"]

end Sample

open Sample in
/-- A specification is read back from between fields that are not its own. -/
theorem specification_among_strays :
    (∀ f ∈ strays ++ strays, ∀ name ∈ ["valueName", "computationTargetType",
      "computationTargetId", "functionUniqueId", "properties"], f.1 ≠ some name) ∧
    decode ⟨strays ++ fields specification ++ strays⟩ = .ok specification := by
  have hstrays : ∀ f ∈ strays ++ strays, ∀ name ∈ ["valueName", "computationTargetType",
      "computationTargetId", "functionUniqueId", "properties"], f.1 ≠ some name := by
    simp [strays, stringField]
  exact ⟨hstrays, decode_among_other_fields.2.2.2.1.decode_eq specification strays strays hstrays⟩

end Codec
end ValuationCycle.Wire
