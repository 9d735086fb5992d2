import Mathlib.Data.List.Forall2
import ValuationCycle.Proofs.Wire.Names

/-!
# What a message tells

A message tells an object by the first fields of certain names and, where a name may come again,
by all fields of it. What each message must tell for an object to be read from it is laid down
here beside the object; nothing else is accepted and nothing is made up. Fields of other names or
of none, later fields of a name of which the first counts, and the order of fields of different
names make no difference, neither to what is read nor to the error.
-/
namespace ValuationCycle.Wire
open Json

theorem bind_eq_ok_iff {ε α β : Type} {x : Except ε α} {f : α → Except ε β} {b : β} :
    x >>= f = .ok b ↔ ∃ a, x = .ok a ∧ f a = .ok b := by
  cases x <;> simp [bind, Except.bind]

theorem mapM_eq_ok_iff {ε α β : Type} {f : α → Except ε β} {as : List α} {bs : List β} :
    as.mapM f = .ok bs ↔ List.Forall₂ (fun a b => f a = .ok b) as bs := by
  induction as generalizing bs with
  | nil => cases bs <;> simp [pure, Except.pure]
  | cons a as ih =>
      simp only [List.mapM_cons, bind_eq_ok_iff, pure, Except.pure, Except.ok.injEq, ih]
      cases bs with
      | nil => simp
      | cons b bs => simp [List.forall₂_cons]

namespace Message
variable {m m' : Message} {name : String}

/-- The first field of a name, and what it holds. -/
def First (m : Message) (name : String) (c : Content) : Prop :=
  ∃ before behind, m.fields = before ++ (some name, c) :: behind ∧ ∀ f ∈ before, f.1 ≠ some name

def Lacks (m : Message) (name : String) : Prop := ∀ f ∈ m.fields, f.1 ≠ some name

theorem get?_eq_some_iff {c : Content} : m.get? name = some c ↔ m.First name c := by
  rw [get?, getAll, List.head?_filterMap, List.findSome?_eq_some_iff]
  constructor
  · rintro ⟨before, ⟨label, content⟩, behind, hm, hf, hbefore⟩
    obtain ⟨rfl, rfl⟩ : label = some name ∧ content = c := by simpa using hf
    exact ⟨before, behind, hm, fun f hf => by simpa using hbefore f hf⟩
  · rintro ⟨before, behind, hm, hbefore⟩
    exact ⟨before, _, behind, hm, by simp, fun f hf => by simpa using hbefore f hf⟩

theorem get?_eq_none_iff : m.get? name = none ↔ m.Lacks name := by
  rw [get?, getAll, List.head?_filterMap, List.findSome?_eq_none_iff]
  simp [Lacks]

theorem mem_getAll {c : Content} : c ∈ m.getAll name ↔ (some name, c) ∈ m.fields := by
  simp [getAll]

theorem require_eq_ok_iff {c : Content} : m.require name = .ok c ↔ m.First name c := by
  rw [← get?_eq_some_iff, require]
  cases m.get? name <;> simp

theorem requireString_eq_ok_iff {s : String} :
    m.requireString name = .ok s ↔ m.First name (.string s) := by
  rw [requireString, bind_eq_ok_iff, ← require_eq_ok_iff]
  constructor
  · rintro ⟨c, hc, hs⟩
    cases c with
    | string => exact Except.ok.inj hs ▸ hc
    | long | longs | message | json => cases hs
  · exact fun h => ⟨_, h, rfl⟩

theorem requireLongs_eq_ok_iff {ns : List Int64} :
    m.requireLongs name = .ok ns ↔ m.First name (.longs ns) := by
  rw [requireLongs, bind_eq_ok_iff, ← require_eq_ok_iff]
  constructor
  · rintro ⟨c, hc, hs⟩
    cases c with
    | longs => exact Except.ok.inj hs ▸ hc
    | string | long | message | json => cases hs
  · exact fun h => ⟨_, h, rfl⟩

theorem ofContent_eq_ok_iff {c : Content} {fields : List Field} :
    ofContent name c = .ok ⟨fields⟩ ↔ c = .message fields := by
  cases c <;> simp [ofContent]

theorem requireObject_eq_ok_iff {α : Type} [Codec α] {a : α} :
    m.requireObject name = .ok a ↔
      ∃ fields, m.First name (.message fields) ∧ Codec.decode ⟨fields⟩ = .ok a := by
  simp only [requireObject, requireMessage, bind_eq_ok_iff, require_eq_ok_iff]
  constructor
  · rintro ⟨⟨fields⟩, ⟨c, hc, hfields⟩, ha⟩
    obtain rfl := ofContent_eq_ok_iff.mp hfields
    exact ⟨fields, hc, ha⟩
  · rintro ⟨fields, hc, ha⟩
    exact ⟨⟨fields⟩, ⟨_, hc, rfl⟩, ha⟩

/-- An optional text: no field has the name, or the first that does holds the text. -/
def MayHold (m : Message) (name : String) : Option String → Prop
  | none => m.Lacks name
  | some s => m.First name (.string s)

theorem optionalString_eq_ok_iff {s : Option String} :
    m.optionalString name = .ok s ↔ m.MayHold name s := by
  rw [optionalString]
  cases hm : m.get? name with
  | none =>
      cases s with
      | none => exact iff_of_true rfl (get?_eq_none_iff.mp hm)
      | some s =>
          refine iff_of_false (by simp) fun h => ?_
          simp [get?_eq_some_iff.mpr h] at hm
  | some c =>
      cases s with
      | none =>
          refine iff_of_false ?_ fun h => ?_
          · cases m.requireString name <;> simp [Functor.map, Except.map]
          · simp [get?_eq_none_iff.mpr h] at hm
      | some s =>
          rw [MayHold, ← requireString_eq_ok_iff]
          cases m.requireString name <;> simp [Functor.map, Except.map]

def objects (m : Message) (α : Type) [Codec α] (name : String) : Except DecodeError (List α) := do
  (← m.messages name).mapM Codec.decode

theorem objects_eq_ok_iff {α : Type} [Codec α] {as : List α} : m.objects α name = .ok as ↔
    List.Forall₂ (fun c a => ∃ fields, c = .message fields ∧ Codec.decode ⟨fields⟩ = .ok a)
      (m.getAll name) as := by
  simp only [objects, messages, bind_eq_ok_iff, mapM_eq_ok_iff]
  generalize m.getAll name = cs
  constructor
  · rintro ⟨ms, hms, has⟩
    induction hms generalizing as with
    | nil =>
        obtain rfl := List.forall₂_nil_left_iff.mp has
        exact .nil
    | @cons c m cs ms hm _ ih =>
        obtain ⟨a, as, ha, htail, rfl⟩ := List.forall₂_cons_left_iff.mp has
        exact .cons ⟨m.fields, ofContent_eq_ok_iff.mp hm, ha⟩ (ih htail)
  · intro has
    induction has with
    | nil => exact ⟨[], .nil, .nil⟩
    | cons hc _ ih =>
        obtain ⟨fields, rfl, ha⟩ := hc
        obtain ⟨ms, hms, has⟩ := ih
        exact ⟨⟨fields⟩ :: ms, .cons rfl hms, .cons ha has⟩

end Message

open Message

structure TellsId (m : Message) (id : UniqueId) : Prop where
  scheme : m.First "scheme" (.string id.scheme)
  value : m.First "value" (.string id.value)
  version : m.MayHold "version" id.version

structure TellsTarget (m : Message) (t : Target) : Prop where
  targetType : m.First "computationTargetType" (.string t.targetType.name)
  identifier : ∃ fields, m.First "computationTargetId" (.message fields) ∧
    TellsId ⟨fields⟩ t.identifier

structure TellsRequirement (m : Message) (r : Requirement) : Prop where
  valueName : m.First "valueName" (.string r.valueName)
  target : TellsTarget m r.target
  constraints : ∃ fields, m.First "constraints" (.message fields) ∧
    Codec.decode ⟨fields⟩ = .ok r.constraints

structure TellsParameters (m : Message) (p : Parameters) : Prop where
  typeName : m.First "type" (.string p.typeName)
  payload : m.First "payload" (.json p.payload)

structure TellsItem (m : Message) (j : JobItem) : Prop where
  target : TellsTarget m j.target
  functionId : m.First "functionUniqueIdentifier" (.string j.functionId)
  parameters : ∃ fields, m.First "functionParameters" (.message fields) ∧
    TellsParameters ⟨fields⟩ j.parameters
  inputs : m.First "valueInput" (.longs j.inputs)
  desired : List.Forall₂ (fun c r => ∃ fields, c = .message fields ∧ Codec.decode ⟨fields⟩ = .ok r)
    (m.getAll "desiredValue") j.desired

namespace Codec
variable {m : Message}

theorem decode_uniqueId_eq_ok_iff {id : UniqueId} : decode m = .ok id ↔ TellsId m id := by
  change (do return ⟨← m.requireString "scheme", ← m.requireString "value",
    ← m.optionalString "version"⟩ : Except DecodeError UniqueId) = _ ↔ _
  simp only [bind_eq_ok_iff, requireString_eq_ok_iff, optionalString_eq_ok_iff, pure, Except.pure,
    Except.ok.injEq]
  constructor
  · rintro ⟨scheme, hscheme, value, hvalue, version, hversion, rfl⟩
    exact ⟨hscheme, hvalue, hversion⟩
  · exact fun h => ⟨_, h.scheme, _, h.value, _, h.version, rfl⟩

theorem decodeTargetType_eq_ok_iff {name : String} {t : TargetType} :
    decodeTargetType name = .ok t ↔ name = t.name := by
  constructor
  · intro h
    unfold decodeTargetType at h
    split at h
    · next t' ht =>
        obtain rfl := Except.ok.inj h
        have hname : t'.name = name := by simpa using List.find?_some ht
        exact hname.symm
    · simp at h
  · rintro rfl
    rw [decodeTargetType, TargetType.ofName?_name]

theorem decode_target_eq_ok_iff {t : Target} : decode m = .ok t ↔ TellsTarget m t := by
  change (do return ⟨← decodeTargetType (← m.requireString "computationTargetType"),
    ← m.requireObject "computationTargetId"⟩ : Except DecodeError Target) = _ ↔ _
  simp only [bind_eq_ok_iff, requireString_eq_ok_iff, decodeTargetType_eq_ok_iff,
    requireObject_eq_ok_iff, decode_uniqueId_eq_ok_iff, pure, Except.pure, Except.ok.injEq]
  constructor
  · rintro ⟨name, hname, targetType, rfl, id, hid, rfl⟩
    exact ⟨hname, hid⟩
  · exact fun h => ⟨_, h.targetType, _, rfl, _, h.identifier, rfl⟩

theorem decode_requirement_eq_ok_iff {r : Requirement} :
    decode m = .ok r ↔ TellsRequirement m r := by
  change (do return ⟨← m.requireString "valueName", ← decode m,
    ← m.requireObject "constraints"⟩ : Except DecodeError Requirement) = _ ↔ _
  simp only [bind_eq_ok_iff, requireString_eq_ok_iff, decode_target_eq_ok_iff,
    requireObject_eq_ok_iff, pure, Except.pure, Except.ok.injEq]
  constructor
  · rintro ⟨valueName, hname, target, htarget, constraints, hconstraints, rfl⟩
    exact ⟨hname, htarget, hconstraints⟩
  · exact fun h => ⟨_, h.valueName, _, h.target, _, h.constraints, rfl⟩

theorem decodePayload_eq_ok_iff {v : Value} :
    decodePayload m = .ok v ↔ m.First "payload" (.json v) := by
  rw [decodePayload, bind_eq_ok_iff, ← require_eq_ok_iff]
  constructor
  · rintro ⟨c, hc, hv⟩
    cases c with
    | json => exact Except.ok.inj hv ▸ hc
    | string | long | longs | message => cases hv
  · exact fun h => ⟨_, h, rfl⟩

theorem decode_parameters_eq_ok_iff {p : Parameters} :
    decode m = .ok p ↔ TellsParameters m p := by
  change (do return ⟨← m.requireString "type", ← decodePayload m⟩ :
    Except DecodeError Parameters) = _ ↔ _
  simp only [bind_eq_ok_iff, requireString_eq_ok_iff, decodePayload_eq_ok_iff, pure, Except.pure,
    Except.ok.injEq]
  constructor
  · rintro ⟨typeName, htype, payload, hpayload, rfl⟩
    exact ⟨htype, hpayload⟩
  · exact fun h => ⟨_, h.typeName, _, h.payload, rfl⟩

theorem decodeTarget_eq_ok_iff {t : Target} :
    JobItem.decodeTarget m = .ok t ↔ TellsTarget m t := by
  rw [← decode_target_eq_ok_iff, JobItem.decodeTarget]
  split
  · next h => simp [h]
  · rfl

theorem decode_jobItem_eq (m : Message) : decode m = (do
    let target ← JobItem.decodeTarget m
    let functionId ← m.requireString "functionUniqueIdentifier"
    let parameters ← m.requireObject "functionParameters"
    let inputs ← m.requireLongs "valueInput"
    let desired ← m.objects Requirement "desiredValue"
    return ⟨functionId, parameters, target, inputs, desired⟩ : Except DecodeError JobItem) := by
  simp only [objects, bind_assoc]
  rfl

theorem decode_jobItem_eq_ok_iff {j : JobItem} : decode m = .ok j ↔ TellsItem m j := by
  simp only [decode_jobItem_eq, bind_eq_ok_iff, decodeTarget_eq_ok_iff, requireString_eq_ok_iff,
    requireObject_eq_ok_iff, decode_parameters_eq_ok_iff, requireLongs_eq_ok_iff,
    objects_eq_ok_iff, pure, Except.pure, Except.ok.injEq]
  constructor
  · rintro ⟨target, htarget, functionId, hfunction, parameters, hparameters, inputs, hinputs,
      desired, hdesired, rfl⟩
    exact ⟨htarget, hfunction, hparameters, hinputs, hdesired⟩
  · exact fun h => ⟨_, h.target, _, h.functionId, _, h.parameters, _, h.inputs, _, h.desired, rfl⟩

end Codec

/-- A message of an identifier: the first scheme and the first value are texts, and so is the first
version if there is any. -/
structure IsId (m : Message) : Prop where
  scheme : ∃ s, m.First "scheme" (.string s)
  value : ∃ s, m.First "value" (.string s)
  version : ∀ c, m.First "version" c → ∃ s, c = .string s

structure IsParameters (m : Message) : Prop where
  typeName : ∃ s, m.First "type" (.string s)
  payload : ∃ v, m.First "payload" (.json v)

/-- A message of a job item: the first field of each name that counts holds what it must, and every
desired value is a message of a requirement. -/
structure IsItem (m : Message) : Prop where
  targetType : ∃ t : TargetType, m.First "computationTargetType" (.string t.name)
  identifier : ∃ fields, m.First "computationTargetId" (.message fields) ∧ IsId ⟨fields⟩
  functionId : ∃ s, m.First "functionUniqueIdentifier" (.string s)
  parameters : ∃ fields, m.First "functionParameters" (.message fields) ∧ IsParameters ⟨fields⟩
  inputs : ∃ ns, m.First "valueInput" (.longs ns)
  desired : ∀ c, (some "desiredValue", c) ∈ m.fields → ∃ fields, c = .message fields ∧
    ∃ r : Requirement, Codec.decode ⟨fields⟩ = .ok r

theorem exists_tellsId_iff {m : Message} : (∃ id, TellsId m id) ↔ IsId m := by
  constructor
  · rintro ⟨⟨scheme, value, version⟩, h⟩
    refine ⟨⟨_, h.scheme⟩, ⟨_, h.value⟩, fun c hc => ?_⟩
    have hversion := h.version
    rw [← get?_eq_some_iff] at hc
    cases version with
    | none => simp [get?_eq_none_iff.mpr hversion] at hc
    | some s =>
        rw [get?_eq_some_iff.mpr hversion] at hc
        exact ⟨s, (Option.some.inj hc).symm⟩
  · rintro ⟨⟨scheme, hscheme⟩, ⟨value, hvalue⟩, hversion⟩
    cases hm : m.get? "version" with
    | none => exact ⟨⟨scheme, value, none⟩, hscheme, hvalue, get?_eq_none_iff.mp hm⟩
    | some c =>
        obtain ⟨s, rfl⟩ := hversion c (get?_eq_some_iff.mp hm)
        exact ⟨⟨scheme, value, some s⟩, hscheme, hvalue, get?_eq_some_iff.mp hm⟩

theorem exists_tellsParameters_iff {m : Message} : (∃ p, TellsParameters m p) ↔ IsParameters m :=
  ⟨fun ⟨_, h⟩ => ⟨⟨_, h.typeName⟩, ⟨_, h.payload⟩⟩,
    fun ⟨⟨s, hs⟩, ⟨v, hv⟩⟩ => ⟨⟨s, v⟩, hs, hv⟩⟩

theorem exists_forall₂_iff {α β : Type} {R : α → β → Prop} {as : List α} :
    (∃ bs, List.Forall₂ R as bs) ↔ ∀ a ∈ as, ∃ b, R a b := by
  induction as with
  | nil => simp
  | cons a as ih =>
      rw [List.forall_mem_cons, ← ih]
      constructor
      · rintro ⟨bs, h⟩
        obtain ⟨b, bs, hb, hbs, -⟩ := List.forall₂_cons_left_iff.mp h
        exact ⟨⟨b, hb⟩, bs, hbs⟩
      · rintro ⟨⟨b, hb⟩, bs, hbs⟩
        exact ⟨b :: bs, .cons hb hbs⟩

theorem exists_tellsItem_iff {m : Message} : (∃ j, TellsItem m j) ↔ IsItem m := by
  have hdesired : (∃ rs : List Requirement, List.Forall₂ (fun c r =>
      ∃ fields, c = .message fields ∧ Codec.decode ⟨fields⟩ = .ok r) (m.getAll "desiredValue") rs) ↔
      ∀ c ∈ m.getAll "desiredValue", ∃ (r : Requirement) (fields : List Field),
        c = .message fields ∧ Codec.decode ⟨fields⟩ = .ok r := exists_forall₂_iff
  constructor
  · rintro ⟨j, h⟩
    obtain ⟨fields, hid, hfields⟩ := h.target.identifier
    obtain ⟨pfields, hp, hpfields⟩ := h.parameters
    refine ⟨⟨_, h.target.targetType⟩, ⟨fields, hid, exists_tellsId_iff.mp ⟨_, hfields⟩⟩,
      ⟨_, h.functionId⟩, ⟨pfields, hp, exists_tellsParameters_iff.mp ⟨_, hpfields⟩⟩,
      ⟨_, h.inputs⟩, fun c hc => ?_⟩
    obtain ⟨r, fields, hfields, hr⟩ := hdesired.mp ⟨_, h.desired⟩ c (mem_getAll.mpr hc)
    exact ⟨fields, hfields, r, hr⟩
  · rintro ⟨⟨t, ht⟩, ⟨fields, hid, hfields⟩, ⟨functionId, hf⟩, ⟨pfields, hp, hpfields⟩,
      ⟨ns, hns⟩, hd⟩
    obtain ⟨id, hid'⟩ := exists_tellsId_iff.mpr hfields
    obtain ⟨p, hp'⟩ := exists_tellsParameters_iff.mpr hpfields
    obtain ⟨rs, hrs⟩ := hdesired.mpr fun c hc => by
      obtain ⟨fields, hfields, r, hr⟩ := hd c (mem_getAll.mp hc)
      exact ⟨r, fields, hfields, hr⟩
    exact ⟨⟨functionId, p, ⟨t, id⟩, ns, rs⟩, ⟨ht, fields, hid, hid'⟩, hf, ⟨pfields, hp, hp'⟩,
      hns, hrs⟩

namespace Message
variable {before behind : List Field} {name other : String} {c c' : Content}

theorem get?_append (p q : List Field) (name : String) :
    get? ⟨p ++ q⟩ name = (get? ⟨p⟩ name).or (get? ⟨q⟩ name) := by
  rw [get?, getAll_append, List.head?_append, get?, get?]

theorem get?_cons (f : Field) (fields : List Field) (name : String) :
    get? ⟨f :: fields⟩ name = if f.1 = some name then some f.2 else get? ⟨fields⟩ name := by
  rw [get?, getAll_cons, get?]
  split <;> rfl

/-- What a field holds matters under its own name only. -/
theorem getAll_replace_of_ne (h : other ≠ name) :
    getAll ⟨before ++ (some name, c) :: behind⟩ other =
      getAll ⟨before ++ (some name, c') :: behind⟩ other := by
  simp only [getAll_append, getAll_cons, Option.some.injEq, h.symm, reduceIte]

theorem get?_replace_of_ne (h : other ≠ name) :
    get? ⟨before ++ (some name, c) :: behind⟩ other =
      get? ⟨before ++ (some name, c') :: behind⟩ other := by
  rw [get?, get?, getAll_replace_of_ne h]

theorem requireObject_replace {α : Type} [Codec α] {inner inner' : List Field}
    (h : (Codec.decode ⟨inner⟩ : Except DecodeError α) = Codec.decode ⟨inner'⟩) :
    (requireObject ⟨before ++ (some name, .message inner) :: behind⟩ name : Except DecodeError α) =
      requireObject ⟨before ++ (some name, .message inner') :: behind⟩ name := by
  rw [requireObject, requireObject, requireMessage, requireMessage, require, require, get?_append,
    get?_append, get?_cons, get?_cons, if_pos rfl, if_pos rfl]
  cases get? ⟨before⟩ name with
  | none => exact h
  | some c => rfl

theorem objects_replace {α : Type} [Codec α] {inner inner' : List Field}
    (h : (Codec.decode ⟨inner⟩ : Except DecodeError α) = Codec.decode ⟨inner'⟩) :
    objects ⟨before ++ (some name, .message inner) :: behind⟩ α name =
      objects ⟨before ++ (some name, .message inner') :: behind⟩ α name := by
  have hinner : ∀ fields, ofContent name (.message fields) = pure ⟨fields⟩ := fun _ => rfl
  simp only [objects, messages, getAll_append, getAll_cons, reduceIte, List.mapM_append,
    List.cons_append, List.nil_append, List.mapM_cons, bind_assoc, pure_bind, hinner, h]

end Message

namespace Codec

/-- Differences between messages that make none to what is read, error or not: fields of other names
or of none, further fields of a name of which the first counts, and the order of neighbours of
different names. -/
structure Indifferent (α : Type) [Codec α] (singles repeated : List String) : Prop where
  stray : ∀ (before behind : List Field) (f : Field),
    (∀ name ∈ singles ++ repeated, f.1 ≠ some name) →
    (decode ⟨before ++ f :: behind⟩ : Except DecodeError α) = decode ⟨before ++ behind⟩
  again : ∀ (before between behind : List Field) (c c' : Content), ∀ name ∈ singles,
    (decode ⟨before ++ (some name, c) :: (between ++ (some name, c') :: behind)⟩ :
      Except DecodeError α) = decode ⟨before ++ (some name, c) :: (between ++ behind)⟩
  swap : ∀ (before behind : List Field) (f g : Field), f.1 ≠ g.1 →
    (decode ⟨before ++ f :: g :: behind⟩ : Except DecodeError α) =
      decode ⟨before ++ g :: f :: behind⟩

theorem DependsOnFirst.indifferent {α : Type} [Codec α] {singles repeated : List String}
    (h : DependsOnFirst α singles repeated) (hd : ∀ name ∈ singles, name ∉ repeated) :
    Indifferent α singles repeated where
  stray before behind f hf := by
    have hall : ∀ name ∈ singles ++ repeated,
        getAll ⟨before ++ f :: behind⟩ name = getAll ⟨before ++ behind⟩ name := fun name hn => by
      rw [getAll_append, getAll_cons, if_neg (hf name hn), getAll_append, List.nil_append]
    refine h (fun name hn => ?_) fun name hn => hall name (List.mem_append_right _ hn)
    rw [get?, get?, hall name (List.mem_append_left _ hn)]
  again before between behind c c' name hname := by
    refine h (fun other _ => ?_) fun other hother => ?_
    · simp only [get?_append, get?_cons]
      split
      · rfl
      · simp only [Option.or]
    · have hne : some name ≠ some other := fun he =>
        hd name hname (Option.some.inj he ▸ hother)
      simp only [getAll_append, getAll_cons, if_neg hne, List.nil_append]
  swap before behind f g hne := by
    have hall : ∀ name, getAll ⟨before ++ f :: g :: behind⟩ name =
        getAll ⟨before ++ g :: f :: behind⟩ name := fun name => by
      simp only [getAll_append, getAll_cons]
      grind
    refine h (fun name _ => ?_) fun name _ => hall name
    rw [get?, get?, hall name]

def ReadsThrough (α : Type) [Codec α] (name : String) (β : Type) [Codec β] : Prop :=
  ∀ before behind inner inner' : List Field,
    (decode ⟨inner⟩ : Except DecodeError β) = decode ⟨inner'⟩ →
    (decode ⟨before ++ (some name, .message inner) :: behind⟩ : Except DecodeError α) =
      decode ⟨before ++ (some name, .message inner') :: behind⟩

theorem decode_target_replace {before behind : List Field} {name : String} {c c' : Content}
    (h : name ∉ ["computationTargetType", "computationTargetId"]) :
    (decode ⟨before ++ (some name, c) :: behind⟩ : Except DecodeError Target) =
      decode ⟨before ++ (some name, c') :: behind⟩ :=
  dependsOn_target (fun _ hother => get?_replace_of_ne (ne_of_mem_of_not_mem hother h)) (by simp)

theorem readsThrough_targetId : ReadsThrough Target "computationTargetId" UniqueId := by
  intro before behind inner inner' h
  change (do return ⟨← decodeTargetType (← requireString _ "computationTargetType"),
    ← requireObject _ "computationTargetId"⟩ : Except DecodeError Target) = _
  rw [requireString_congr (get?_replace_of_ne (by decide)), requireObject_replace h]
  rfl

theorem readsThrough_requirementId : ReadsThrough Requirement "computationTargetId" UniqueId := by
  intro before behind inner inner' h
  change (do return ⟨← requireString _ "valueName", ← decode _,
    ← requireObject _ "constraints"⟩ : Except DecodeError Requirement) = _
  rw [requireString_congr (get?_replace_of_ne (by decide)), readsThrough_targetId _ _ _ _ h,
    requireObject_congr (get?_replace_of_ne (by decide))]
  rfl

theorem decode_jobItem_congr {m m' : Message}
    (htarget : (decode m : Except DecodeError Target) = decode m')
    (hfunction : m.requireString "functionUniqueIdentifier" =
      m'.requireString "functionUniqueIdentifier")
    (hparameters : (m.requireObject "functionParameters" : Except DecodeError Parameters) =
      m'.requireObject "functionParameters")
    (hinputs : m.requireLongs "valueInput" = m'.requireLongs "valueInput")
    (hdesired : m.objects Requirement "desiredValue" = m'.objects Requirement "desiredValue") :
    (decode m : Except DecodeError JobItem) = decode m' := by
  rw [decode_jobItem_eq, decode_jobItem_eq, JobItem.decodeTarget, JobItem.decodeTarget, htarget,
    hfunction, hparameters, hinputs, hdesired]

theorem objects_congr {α : Type} [Codec α] {m m' : Message} {name : String}
    (h : m.getAll name = m'.getAll name) : m.objects α name = m'.objects α name := by
  rw [objects, objects, messages_congr h]

theorem readsThrough_itemId : ReadsThrough JobItem "computationTargetId" UniqueId := by
  intro before behind inner inner' h
  exact decode_jobItem_congr (readsThrough_targetId _ _ _ _ h)
    (requireString_congr (get?_replace_of_ne (by decide)))
    (requireObject_congr (get?_replace_of_ne (by decide)))
    (requireLongs_congr (get?_replace_of_ne (by decide)))
    (objects_congr (getAll_replace_of_ne (by decide)))

theorem readsThrough_parameters : ReadsThrough JobItem "functionParameters" Parameters := by
  intro before behind inner inner' h
  exact decode_jobItem_congr (decode_target_replace (by decide))
    (requireString_congr (get?_replace_of_ne (by decide))) (requireObject_replace h)
    (requireLongs_congr (get?_replace_of_ne (by decide)))
    (objects_congr (getAll_replace_of_ne (by decide)))

theorem readsThrough_desired : ReadsThrough JobItem "desiredValue" Requirement := by
  intro before behind inner inner' h
  exact decode_jobItem_congr (decode_target_replace (by decide))
    (requireString_congr (get?_replace_of_ne (by decide)))
    (requireObject_congr (get?_replace_of_ne (by decide)))
    (requireLongs_congr (get?_replace_of_ne (by decide))) (objects_replace h)

/-- A job item is read exactly from the messages of job items, and it is then what the message
tells: the contents of the first fields of its names, and the desired values in the order of the
message. Strays, further fields of the names of which the first counts and the order of different
names make no difference, not even to the error; and so it is further down, in the messages of the
identifier, the parameters and the desired values. -/
theorem jobItem_read_as_told :
    (∀ m : Message, (∃ j : JobItem, decode m = .ok j) ↔ IsItem m) ∧
    (∀ (m : Message) (j : JobItem), decode m = .ok j ↔ TellsItem m j) ∧
    Indifferent JobItem ["computationTargetType", "computationTargetId",
      "functionUniqueIdentifier", "functionParameters", "valueInput"] ["desiredValue"] ∧
    (Indifferent UniqueId ["scheme", "value", "version"] [] ∧
      ReadsThrough JobItem "computationTargetId" UniqueId) ∧
    (Indifferent Parameters ["type", "payload"] [] ∧
      ReadsThrough JobItem "functionParameters" Parameters) ∧
    (Indifferent Requirement ["valueName", "computationTargetType", "computationTargetId",
        "constraints"] [] ∧
      ReadsThrough Requirement "computationTargetId" UniqueId ∧
      ReadsThrough JobItem "desiredValue" Requirement) ∧
    ∀ (m : Message) (r : Requirement), decode m = .ok r ↔ TellsRequirement m r := by
  refine ⟨fun m => ?_, fun m j => decode_jobItem_eq_ok_iff,
    dependsOn_jobItem.indifferent (by decide),
    ⟨dependsOn_uniqueId.indifferent (by decide), readsThrough_itemId⟩,
    ⟨dependsOn_parameters.indifferent (by decide), readsThrough_parameters⟩,
    ⟨dependsOn_requirement.indifferent (by decide), readsThrough_requirementId,
      readsThrough_desired⟩, fun m r => decode_requirement_eq_ok_iff⟩
  rw [← exists_tellsItem_iff]
  exact exists_congr fun j => decode_jobItem_eq_ok_iff

namespace Sample

def price : Requirement := ⟨"Price", ⟨.security, ⟨"Ticker", "AAPL", none⟩⟩, properties⟩

def pricing : JobItem := ⟨"7", .empty, price.target, [3, 1], [price]⟩

/-- The fields of a job item in no order, with some that do not count. -/
def crowded : List Field := [stringField "functionUniqueIdentifier" "7", (none, .longs []),
  (some "valueInput", .longs [3, 1]),
  (some "computationTargetId", .message [stringField "value" "AAPL", (none, .long 0),
    stringField "scheme" "Ticker", stringField "scheme" "Other"]),
  objectField "desiredValue" price, (some "functionUniqueIdentifier", .long 0),
  stringField "computationTargetType" "SECURITY", objectField "functionParameters" Parameters.empty,
  stringField "valueInput" ""]

theorem tellsItem_crowded : TellsItem ⟨crowded⟩ pricing where
  target := ⟨get?_eq_some_iff.mp rfl, _, get?_eq_some_iff.mp rfl, get?_eq_some_iff.mp rfl,
    get?_eq_some_iff.mp rfl, get?_eq_none_iff.mp rfl⟩
  functionId := get?_eq_some_iff.mp rfl
  parameters := ⟨_, get?_eq_some_iff.mp rfl, get?_eq_some_iff.mp rfl, get?_eq_some_iff.mp rfl⟩
  inputs := get?_eq_some_iff.mp rfl
  desired := .cons ⟨_, rfl, decode_toMessage_requirement price⟩ .nil

end Sample

open Codec.Sample in
/-- A job item is read from a crowded message, and still is when a stray comes before. -/
theorem pricing_read_from_crowd : decode ⟨crowded⟩ = .ok pricing ∧
    decode ⟨[] ++ (some "functionId", .string "8") :: crowded⟩ = .ok pricing := by
  obtain ⟨-, htold, hindifferent, -⟩ := jobItem_read_as_told
  have hread := (htold ⟨crowded⟩ pricing).mpr tellsItem_crowded
  exact ⟨hread, (hindifferent.stray [] crowded _ (by decide)).trans hread⟩

end Codec
end ValuationCycle.Wire
