import ValuationCycle.Job.Item
import ValuationCycle.Proofs.Wire.Rereading

/-!
# Objects read from their fields

Every type that travels is read back from the fields it is written as. A type
whose fields lie flat in another message is read from the contents under its own
names, whatever else the message has.
-/
namespace ValuationCycle.Wire
open Json Std

namespace Message

theorem getAll_nil (name : String) : getAll ⟨[]⟩ name = [] := rfl

theorem getAll_cons (f : Field) (fields : List Field) (name : String) : getAll ⟨f :: fields⟩ name =
    (if f.1 = some name then [f.2] else []) ++ getAll ⟨fields⟩ name := by
  simp only [getAll, List.filterMap_cons]
  split <;> split at * <;> simp_all

theorem getAll_append (p q : List Field) (name : String) :
    getAll ⟨p ++ q⟩ name = getAll ⟨p⟩ name ++ getAll ⟨q⟩ name := List.filterMap_append

theorem getAll_map_objectField {α : Type} [Codec α] (field name : String) (as : List α) :
    getAll ⟨as.map (objectField field)⟩ name =
      if field = name then as.map fun a => .message (Codec.fields a) else [] := by
  induction as with
  | nil => simp [getAll_nil]
  | cons a as ih =>
      rw [List.map_cons, getAll_cons, ih]
      by_cases h : field = name <;> simp [objectField, h]

variable {m : Message} {name : String} {rest : List Content}

theorem require_of_getAll {c : Content} (h : m.getAll name = c :: rest) :
    m.require name = .ok c := by
  simp [require, get?, h]

theorem requireString_of_getAll {s : String} (h : m.getAll name = .string s :: rest) :
    m.requireString name = .ok s := by
  rw [requireString, require_of_getAll h]
  rfl

theorem requireLongs_of_getAll {ns : List Int64} (h : m.getAll name = .longs ns :: rest) :
    m.requireLongs name = .ok ns := by
  rw [requireLongs, require_of_getAll h]
  rfl

theorem requireObject_of_getAll {α : Type} [Codec α] {fields : List Field}
    (h : m.getAll name = .message fields :: rest) :
    (m.requireObject name : Except DecodeError α) = Codec.decode ⟨fields⟩ := by
  rw [requireObject, requireMessage, require_of_getAll h]
  rfl

theorem messages_of_getAll {α : Type} [Codec α] {as : List α}
    (h : m.getAll name = as.map fun a => .message (Codec.fields a)) :
    m.messages name = .ok (as.map Codec.toMessage) := by
  rw [messages, h]
  clear h
  induction as with
  | nil => rfl
  | cons a as ih =>
      rw [List.map_cons, List.mapM_cons, ih]
      rfl

theorem mapM_decode_toMessage {α : Type} [Codec α] {as : List α}
    (h : ∀ a ∈ as, Codec.decode (Codec.toMessage a) = .ok a) :
    (as.map Codec.toMessage).mapM Codec.decode = .ok as := by
  induction as with
  | nil => rfl
  | cons a as ih =>
      rw [List.map_cons, List.mapM_cons, h a (by simp), ih fun a ha => h a (by simp [ha])]
      rfl

end Message

open Message

theorem decode_uniqueId {m : Message} {id : UniqueId}
    (hscheme : m.getAll "scheme" = [.string id.scheme])
    (hvalue : m.getAll "value" = [.string id.value])
    (hversion : m.getAll "version" = id.version.toList.map .string) :
    Codec.decode m = .ok id := by
  change (do return ⟨← m.requireString "scheme", ← m.requireString "value",
    ← m.optionalString "version"⟩ : Except DecodeError UniqueId) = _
  rw [requireString_of_getAll hscheme, requireString_of_getAll hvalue]
  obtain ⟨scheme, value, version⟩ := id
  cases version with
  | none =>
      have hnone : m.optionalString "version" = .ok none := by
        simp [optionalString, get?, hversion]
      rw [hnone]
      rfl
  | some version =>
      have hsome : m.optionalString "version" = .ok (some version) := by
        rw [optionalString, get?, hversion]
        simp only [Option.toList_some, List.map_cons, List.map_nil, List.head?_cons]
        rw [requireString_of_getAll hversion]
        rfl
      rw [hsome]
      rfl

theorem decode_toMessage_uniqueId (id : UniqueId) : Codec.decode (Codec.toMessage id) = .ok id := by
  obtain ⟨scheme, value, version⟩ := id
  cases version <;>
    exact decode_uniqueId rfl rfl rfl

theorem decode_target {m : Message} {t : Target}
    (htype : m.getAll "computationTargetType" = [.string t.targetType.name])
    (hid : m.getAll "computationTargetId" = [.message (Codec.fields t.identifier)]) :
    Codec.decode m = .ok t := by
  change (do return ⟨← decodeTargetType (← m.requireString "computationTargetType"),
    ← m.requireObject "computationTargetId"⟩ : Except DecodeError Target) = _
  have hid' : m.requireObject "computationTargetId" = .ok t.identifier := by
    rw [requireObject_of_getAll hid]
    exact decode_toMessage_uniqueId t.identifier
  rw [requireString_of_getAll htype, hid']
  simp only [bind, Except.bind, decodeTargetType, TargetType.ofName?_name, pure, Except.pure]

theorem decode_toMessage_target (t : Target) : Codec.decode (Codec.toMessage t) = .ok t :=
  decode_target rfl rfl

theorem Properties.foldl_permit (name : String) (m : ExtTreeMap String (ExtTreeSet String))
    (held : ExtTreeSet String) (values : List String) :
    values.foldl (fun p v => Properties.permit p name v) ⟨m.insert name held⟩ =
      ⟨m.insert name (values.foldl ExtTreeSet.insert held)⟩ := by
  induction values generalizing held with
  | nil => rfl
  | cons v values ih =>
      have hpermit : Properties.permit ⟨m.insert name held⟩ name v =
          ⟨m.insert name (held.insert v)⟩ := by
        rw [Properties.permit, Properties.values?]
        refine congrArg Properties.mk (ExtTreeMap.ext_getElem? fun k => ?_)
        simp only [ExtTreeMap.getElem?_insert, ReflOrd.compare_self, reduceIte, Option.getD_some]
        split <;> rfl
      rw [List.foldl_cons, hpermit, ih, List.foldl_cons]

theorem foldlM_decodePermitted (name : String) (p : Properties) (values : List String) :
    (values.map fun v => ((none, .string v) : Field)).foldlM (decodePermitted name) p =
      .ok (values.foldl (fun p v => p.permit name v) p) := by
  induction values generalizing p with
  | nil => rfl
  | cons v values ih => exact ih (p.permit name v)

theorem foldl_insert_toList (s : ExtTreeSet String) : s.toList.foldl ExtTreeSet.insert ∅ = s := by
  refine ExtTreeSet.ext_mem fun k => ?_
  have hfold : ∀ (l : List String) (held : ExtTreeSet String),
      k ∈ l.foldl ExtTreeSet.insert held ↔ k ∈ l ∨ k ∈ held := by
    intro l
    induction l with
    | nil => simp
    | cons v l ih =>
        intro held
        rw [List.foldl_cons, ih, ExtTreeSet.mem_insert, List.mem_cons,
          LawfulEqOrd.compare_eq_iff_eq]
        grind
  rw [hfold, ExtTreeSet.mem_toList]
  simp

theorem decodeProperty_of_fresh {m : ExtTreeMap String (ExtTreeSet String)} {name : String}
    (h : m[name]? = none) (values : ExtTreeSet String) :
    decodeProperty ⟨m⟩ (some name, .message (values.toList.map fun v => (none, .string v))) =
      .ok ⟨m.insert name values⟩ := by
  change ((values.toList.map fun v => ((none, .string v) : Field)).foldlM (decodePermitted name)
    (Properties.declare ⟨m⟩ name)) = _
  have hdeclare : Properties.declare ⟨m⟩ name = ⟨m.insert name ∅⟩ := by
    rw [Properties.declare, Properties.values?, h]
    rfl
  rw [foldlM_decodePermitted, hdeclare, Properties.foldl_permit, foldl_insert_toList]

theorem foldlM_decodeProperty (entries : List (String × ExtTreeSet String))
    (m : ExtTreeMap String (ExtTreeSet String)) (hn : (entries.map Prod.fst).Nodup)
    (hm : ∀ e ∈ entries, m[e.1]? = none) :
    (entries.map fun e => ((some e.1, .message (e.2.toList.map fun v => (none, .string v))) :
      Field)).foldlM decodeProperty ⟨m⟩ =
      .ok ⟨entries.foldl (fun m e => m.insert e.1 e.2) m⟩ := by
  induction entries generalizing m with
  | nil => rfl
  | cons e entries ih =>
      rw [List.map_cons, List.nodup_cons] at hn
      rw [List.map_cons, List.foldlM_cons, decodeProperty_of_fresh (hm e (by simp))]
      refine ih _ hn.2 fun f hf => ?_
      have hne : compare e.1 f.1 ≠ .eq := fun he =>
        hn.1 (LawfulEqOrd.eq_of_compare he ▸ List.mem_map_of_mem hf)
      rw [ExtTreeMap.getElem?_insert, if_neg hne]
      exact hm f (by simp [hf])

theorem foldl_insert_toList_map (m : ExtTreeMap String (ExtTreeSet String)) :
    m.toList.foldl (fun acc e => acc.insert e.1 e.2) ∅ = m := by
  rw [← ExtTreeMap.ofList_eq_foldl]
  refine ExtTreeMap.ext_getElem? fun k => ?_
  cases hk : m[k]? with
  | some v =>
      exact ExtTreeMap.getElem?_ofList_of_mem ReflOrd.compare_self m.distinct_keys_toList
        (ExtTreeMap.mem_toList_iff_getElem?_eq_some.mpr hk)
  | none =>
      refine ExtTreeMap.getElem?_ofList_of_contains_eq_false ?_
      rw [← Bool.not_eq_true, List.contains_iff_mem, List.mem_map]
      rintro ⟨e, he, rfl⟩
      rw [ExtTreeMap.mem_toList_iff_getElem?_eq_some.mp he] at hk
      simp at hk

theorem decode_toMessage_properties (p : Properties) :
    Codec.decode (Codec.toMessage p) = .ok p := by
  change ((p.toList.map fun e => ((some e.1, .message (e.2.map fun value =>
    (none, .string value))) : Field)).foldlM decodeProperty .none) = _
  have hfields : (p.toList.map fun e => ((some e.1, .message (e.2.map fun value =>
      (none, .string value))) : Field)) = p.entries.toList.map fun e =>
        (some e.1, .message (e.2.toList.map fun v => (none, .string v))) := by
    rw [Properties.toList, List.map_map]
    rfl
  rw [hfields]
  have hn : (p.entries.toList.map Prod.fst).Nodup := by
    rw [ExtTreeMap.map_fst_toList_eq_keys]
    exact ExtTreeMap.nodup_keys
  have := foldlM_decodeProperty p.entries.toList ∅ hn (by simp)
  rw [foldl_insert_toList_map] at this
  exact this

theorem decode_requirement {m : Message} {r : Requirement}
    (hname : m.getAll "valueName" = [.string r.valueName])
    (htype : m.getAll "computationTargetType" = [.string r.target.targetType.name])
    (hid : m.getAll "computationTargetId" = [.message (Codec.fields r.target.identifier)])
    (hconstraints : m.getAll "constraints" = [.message (Codec.fields r.constraints)]) :
    Codec.decode m = .ok r := by
  change (do return ⟨← m.requireString "valueName", ← Codec.decode m,
    ← m.requireObject "constraints"⟩ : Except DecodeError Requirement) = _
  have hconstraints' : m.requireObject "constraints" = .ok r.constraints := by
    rw [requireObject_of_getAll hconstraints]
    exact decode_toMessage_properties r.constraints
  rw [requireString_of_getAll hname, decode_target htype hid, hconstraints']
  rfl

theorem decode_toMessage_requirement (r : Requirement) :
    Codec.decode (Codec.toMessage r) = .ok r := decode_requirement rfl rfl rfl rfl

theorem decode_specification {m : Message} {s : Specification}
    (hname : m.getAll "valueName" = [.string s.valueName])
    (htype : m.getAll "computationTargetType" = [.string s.target.targetType.name])
    (hid : m.getAll "computationTargetId" = [.message (Codec.fields s.target.identifier)])
    (hfunction : m.getAll "functionUniqueId" = [.string s.functionId])
    (hproperties : m.getAll "properties" = [.message (Codec.fields s.properties)]) :
    Codec.decode m = .ok s := by
  change (do return ⟨← m.requireString "valueName", ← Codec.decode m,
    ← m.requireString "functionUniqueId", ← m.requireObject "properties"⟩ :
    Except DecodeError Specification) = _
  have hproperties' : m.requireObject "properties" = .ok s.properties := by
    rw [requireObject_of_getAll hproperties]
    exact decode_toMessage_properties s.properties
  rw [requireString_of_getAll hname, decode_target htype hid, requireString_of_getAll hfunction,
    hproperties']
  rfl

theorem decode_toMessage_specification (s : Specification) :
    Codec.decode (Codec.toMessage s) = .ok s := decode_specification rfl rfl rfl rfl rfl

theorem decode_parameters {m : Message} {p : Parameters}
    (htype : m.getAll "type" = [.string p.typeName])
    (hpayload : m.getAll "payload" = [.json p.payload]) : Codec.decode m = .ok p := by
  change (do return ⟨← m.requireString "type", ← decodePayload m⟩ :
    Except DecodeError Parameters) = _
  have hpayload' : decodePayload m = .ok p.payload := by
    rw [decodePayload, require_of_getAll hpayload]
    rfl
  rw [requireString_of_getAll htype, hpayload']
  rfl

theorem decode_toMessage_parameters (p : Parameters) :
    Codec.decode (Codec.toMessage p) = .ok p := decode_parameters rfl rfl

theorem decode_jobItem {m : Message} {j : JobItem}
    (htype : m.getAll "computationTargetType" = [.string j.target.targetType.name])
    (hid : m.getAll "computationTargetId" = [.message (Codec.fields j.target.identifier)])
    (hfunction : m.getAll "functionUniqueIdentifier" = [.string j.functionId])
    (hparameters : m.getAll "functionParameters" = [.message (Codec.fields j.parameters)])
    (hinputs : m.getAll "valueInput" = [.longs j.inputs])
    (hdesired : m.getAll "desiredValue" = j.desired.map fun r => .message (Codec.fields r)) :
    Codec.decode m = .ok j := by
  change (do
    let target ← JobItem.decodeTarget m
    let functionId ← m.requireString "functionUniqueIdentifier"
    let parameters ← m.requireObject "functionParameters"
    let inputs ← m.requireLongs "valueInput"
    let desired ← (← m.messages "desiredValue").mapM Codec.decode
    return ⟨functionId, parameters, target, inputs, desired⟩ : Except DecodeError JobItem) = _
  have htarget : JobItem.decodeTarget m = .ok j.target := by
    rw [JobItem.decodeTarget, decode_target htype hid]
  have hparameters' : m.requireObject "functionParameters" = .ok j.parameters := by
    rw [requireObject_of_getAll hparameters]
    exact decode_parameters rfl rfl
  rw [htarget, requireString_of_getAll hfunction, hparameters', requireLongs_of_getAll hinputs,
    messages_of_getAll hdesired]
  change ((j.desired.map Codec.toMessage).mapM Codec.decode >>= _) = _
  rw [mapM_decode_toMessage fun r _ => decode_toMessage_requirement r]
  rfl

theorem getAll_toMessage_jobItem (j : JobItem) (name : String) : (Codec.toMessage j).getAll name =
    getAll ⟨Codec.fields j.target ++ [stringField "functionUniqueIdentifier" j.functionId,
      objectField "functionParameters" j.parameters, (some "valueInput", .longs j.inputs)]⟩ name ++
    if "desiredValue" = name then j.desired.map fun r => .message (Codec.fields r) else [] := by
  rw [← getAll_map_objectField, ← getAll_append]
  rfl

theorem decode_toMessage_jobItem (j : JobItem) : Codec.decode (Codec.toMessage j) = .ok j := by
  refine decode_jobItem ?_ ?_ ?_ ?_ ?_ ?_
  all_goals
    rw [getAll_toMessage_jobItem]
    simp only [String.reduceEq, reduceIte, List.append_nil]
    rfl

namespace Content

theorem reread?_string (levels : Nat) (s : String) :
    (string s).reread? (levels + 1) = some (string s) := by rw [reread?]

/-- A message comes back as it is when its fields do, four levels further down. -/
theorem reread?_message {levels : Nat} {fields : List Field}
    (h : ∀ f ∈ fields, f.2.reread? levels = some f.2) :
    (message fields).reread? (levels + 4) = some (message fields) := by
  rw [reread?, rereadFields?_eq_self h]
  rfl

theorem reread?_uniqueId (levels : Nat) (id : UniqueId) :
    ∀ f ∈ Codec.fields id, f.2.reread? (levels + 1) = some f.2 := by
  obtain ⟨scheme, value, version⟩ := id
  intro f hf
  cases version with
  | none =>
      rcases List.mem_cons.mp hf with rfl | hf
      · exact reread?_string levels scheme
      · rw [List.mem_singleton.mp hf]
        exact reread?_string levels value
  | some version =>
      rcases List.mem_cons.mp hf with rfl | hf
      · exact reread?_string levels scheme
      · rcases List.mem_cons.mp hf with rfl | hf
        · exact reread?_string levels value
        · rw [List.mem_singleton.mp hf]
          exact reread?_string levels version

theorem reread?_target (levels : Nat) (t : Target) :
    ∀ f ∈ Codec.fields t, f.2.reread? (levels + 5) = some f.2 := by
  intro f hf
  rcases List.mem_cons.mp hf with rfl | hf
  · exact reread?_string _ _
  · rw [List.mem_singleton.mp hf]
    exact reread?_message (reread?_uniqueId levels t.identifier)

theorem reread?_properties (levels : Nat) (p : Properties) :
    ∀ f ∈ Codec.fields p, f.2.reread? (levels + 5) = some f.2 := by
  intro f hf
  obtain ⟨⟨name, values⟩, -, rfl⟩ := List.mem_map.mp hf
  have hvalues : ∀ g ∈ values.map (fun v => ((none, .string v) : Field)),
      g.2.reread? (levels + 1) = some g.2 := by
    intro g hg
    obtain ⟨v, -, rfl⟩ := List.mem_map.mp hg
    exact reread?_string levels v
  exact reread?_message hvalues

theorem reread?_requirement (levels : Nat) (r : Requirement) :
    ∀ f ∈ Codec.fields r, f.2.reread? (levels + 9) = some f.2 := by
  intro f hf
  rcases List.mem_append.mp hf with hf | hf
  · rcases List.mem_cons.mp hf with rfl | hf
    · exact reread?_string _ _
    · exact reread?_target (levels + 4) r.target f hf
  · rw [List.mem_singleton.mp hf]
    exact reread?_message (reread?_properties levels r.constraints)

end Content

/-- A payload as it comes back with the job item that it is sent in. -/
def receivedPayload? (v : Value) : Option Value := Value.ofDocument? 119 v.toDocument

theorem ofText_text_jobItem (j : JobItem) : Codec.ofText (Codec.text j) =
    match receivedPayload? j.parameters.payload with
    | some payload => .ok { j with parameters := ⟨j.parameters.typeName, payload⟩ }
    | none => .error .malformed := by
  have htarget : Content.rereadFields? 125 (Codec.fields j.target) =
      some (Codec.fields j.target) :=
    Content.rereadFields?_eq_self (Content.reread?_target 119 j.target)
  have hdesired : Content.rereadFields? 125 (j.desired.map (objectField "desiredValue")) =
      some (j.desired.map (objectField "desiredValue")) := by
    refine Content.rereadFields?_eq_self fun f hf => ?_
    obtain ⟨r, -, rfl⟩ := List.mem_map.mp hf
    exact Content.reread?_message (Content.reread?_requirement 111 r)
  have hparameters : (Content.message (Codec.fields j.parameters)).reread? 124 =
      (receivedPayload? j.parameters.payload).map fun payload =>
        .message (Codec.fields (⟨j.parameters.typeName, payload⟩ : Parameters)) := by
    change (Content.rereadFields? 121 [(some "type", .string j.parameters.typeName),
      (some "payload", .json j.parameters.payload)]).map Content.message = _
    simp only [Content.rereadFields?, Content.reread?]
    rw [receivedPayload?]
    cases Value.ofDocument? 119 j.parameters.payload.toDocument <;> rfl
  have hfields : Content.rereadFields? 125 (Codec.fields j) =
      (receivedPayload? j.parameters.payload).map fun payload =>
        Codec.fields { j with parameters := ⟨j.parameters.typeName, payload⟩ } := by
    change Content.rereadFields? 125 (Codec.fields j.target ++
      [stringField "functionUniqueIdentifier" j.functionId,
        (some "functionParameters", .message (Codec.fields j.parameters)),
        (some "valueInput", .longs j.inputs)] ++
      j.desired.map (objectField "desiredValue")) = _
    rw [Content.rereadFields?_append, Content.rereadFields?_append, htarget, hdesired]
    simp only [stringField, Content.rereadFields?, Content.reread?_string 123, hparameters]
    rw [Content.reread?]
    cases receivedPayload? j.parameters.payload <;> rfl
  rw [Codec.ofText, Codec.text, Message.ofText_text, Codec.toMessage, hfields]
  cases receivedPayload? j.parameters.payload with
  | none => rfl
  | some payload => exact decode_toMessage_jobItem _

end ValuationCycle.Wire
