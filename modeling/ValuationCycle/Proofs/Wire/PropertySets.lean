import Mathlib.Data.List.Sort
import Mathlib.Logic.Relation
import Mathlib.Data.String.Basic
import Mathlib.Order.Compare
import ValuationCycle.Proofs.Wire.Codecs

/-!
# Properties as sets

Properties are read from any message whose fields all have names and hold messages of texts. What
is read is the set of names and, for each name, the set of texts under it, so neither order nor
repetition counts, nor does it matter over how many fields the texts of a name are spread. Written
again, the names and the texts of each name come in strict order, and no other message in that
form reads the same.
-/
namespace ValuationCycle
open Std

namespace Properties
variable {p q : Properties} {name other value : String}

def Declares (p : Properties) (name : String) : Prop := ∃ values, p.values? name = some values

def Permits (p : Properties) (name value : String) : Prop :=
  ∃ values, p.values? name = some values ∧ value ∈ values

theorem Permits.declares (h : p.Permits name value) : p.Declares name :=
  h.imp fun _ hv => hv.1

theorem values?_declare (p : Properties) (name other : String) :
    (p.declare name).values? other =
      if name = other then some ((p.values? name).getD ∅) else p.values? other := by
  rw [values?, declare, ExtTreeMap.getElem?_insert]
  simp only [LawfulEqOrd.compare_eq_iff_eq, values?]

theorem values?_permit (p : Properties) (name value other : String) :
    (p.permit name value).values? other =
      if name = other then some (((p.values? name).getD ∅).insert value) else p.values? other := by
  rw [values?, permit, ExtTreeMap.getElem?_insert]
  simp only [LawfulEqOrd.compare_eq_iff_eq, values?]

theorem mem_getD_values? : value ∈ (p.values? name).getD ∅ ↔ p.Permits name value := by
  rw [Permits]
  cases p.values? name <;> simp

theorem declares_declare : (p.declare name).Declares other ↔ p.Declares other ∨ other = name := by
  rw [Declares, Declares, values?_declare]
  split <;> simp [*, eq_comm]

theorem permits_declare : (p.declare name).Permits other value ↔ p.Permits other value := by
  rw [Permits, values?_declare]
  split
  · next h =>
      subst h
      rw [← mem_getD_values?]
      simp
  · rfl

theorem declares_permit :
    (p.permit name value).Declares other ↔ p.Declares other ∨ other = name := by
  rw [Declares, Declares, values?_permit]
  split <;> simp [*, eq_comm]

theorem permits_permit {text : String} : (p.permit name text).Permits other value ↔
    p.Permits other value ∨ other = name ∧ value = text := by
  rw [Permits, values?_permit]
  split
  · next h =>
      subst h
      simp only [Option.some.injEq, exists_eq_left', ExtTreeSet.mem_insert, mem_getD_values?,
        LawfulEqOrd.compare_eq_iff_eq, true_and]
      rw [or_comm, eq_comm]
  · next h =>
      rw [or_iff_left fun ho => h ho.1.symm]
      rfl

theorem ext_declares (hd : ∀ name, p.Declares name ↔ q.Declares name)
    (hp : ∀ name value, p.Permits name value ↔ q.Permits name value) : p = q := by
  have hvalues : ∀ name, p.values? name = q.values? name := by
    intro name
    have hd := hd name
    have hp := hp name
    unfold Declares at hd
    unfold Permits at hp
    cases hv : p.values? name <;> cases hw : q.values? name <;> simp_all
    exact ExtTreeSet.ext_mem hp
  obtain ⟨p⟩ := p
  obtain ⟨q⟩ := q
  exact congrArg mk (ExtTreeMap.ext_getElem? hvalues)

end Properties

namespace Wire
open Relation

variable {fields fields' : List Field} {p q : Properties}

def IsText (f : Field) : Prop := ∃ text, f.2 = .string text

/-- A field that a property is read from: it has a name and holds a message of texts. -/
def IsProperty (f : Field) : Prop :=
  ∃ name texts, f = (some name, .message texts) ∧ ∀ t ∈ texts, IsText t

theorem isProperty_message {name : Option String} {texts : List Field} :
    IsProperty (name, .message texts) ↔ name ≠ none ∧ ∀ t ∈ texts, IsText t := by
  constructor
  · rintro ⟨name, texts', h, htexts⟩
    obtain ⟨rfl, hmessage⟩ := Prod.mk.inj h
    obtain rfl := Content.message.inj hmessage
    exact ⟨by simp, htexts⟩
  · rintro ⟨hname, htexts⟩
    obtain ⟨name, rfl⟩ := Option.ne_none_iff_exists'.mp hname
    exact ⟨name, texts, rfl, htexts⟩

def Declared (fields : List Field) (name : String) : Prop :=
  ∃ content, (some name, content) ∈ fields

/-- Whether a text is in the message of some field of a name. -/
def Permitted (fields : List Field) (name value : String) : Prop :=
  ∃ texts label, (some name, .message texts) ∈ fields ∧ (label, .string value) ∈ texts

theorem foldlM_decodePermitted_ok {name : String} {texts : List Field} (hp : p.Declares name)
    (h : texts.foldlM (decodePermitted name) p = .ok q) :
    (∀ t ∈ texts, IsText t) ∧ (∀ other, q.Declares other ↔ p.Declares other) ∧
      ∀ other value, q.Permits other value ↔
        p.Permits other value ∨ other = name ∧ ∃ label, (label, .string value) ∈ texts := by
  induction texts generalizing p with
  | nil =>
      obtain rfl := Except.ok.inj h
      simp
  | cons t texts ih =>
      obtain ⟨label, content⟩ := t
      cases content with
      | string text =>
          obtain ⟨htexts, hd, hv⟩ := ih (Properties.declares_permit.mpr (.inl hp)) h
          refine ⟨?_, fun other => ?_, fun other value => ?_⟩
          · simpa [IsText] using htexts
          · rw [hd, Properties.declares_permit]
            exact or_iff_left_of_imp fun ho => ho ▸ hp
          · rw [hv, Properties.permits_permit, or_assoc]
            refine or_congr_right ?_
            simp only [List.mem_cons, Prod.mk.injEq, Content.string.injEq]
            grind
      | long | longs | message | json => cases h

theorem exists_foldlM_decodePermitted {texts : List Field} (h : ∀ t ∈ texts, IsText t)
    (name : String) (p : Properties) : ∃ q, texts.foldlM (decodePermitted name) p = .ok q := by
  induction texts generalizing p with
  | nil => exact ⟨p, rfl⟩
  | cons t texts ih =>
      obtain ⟨⟨text, ht⟩, htexts⟩ := List.forall_mem_cons.mp h
      rw [List.foldlM_cons, decodePermitted, ht]
      exact ih htexts _

theorem decodeProperty_ok {f : Field} (h : decodeProperty p f = .ok q) :
    IsProperty f ∧ (∀ name, q.Declares name ↔ p.Declares name ∨ Declared [f] name) ∧
      ∀ name value, q.Permits name value ↔ p.Permits name value ∨ Permitted [f] name value := by
  unfold decodeProperty at h
  split at h
  · next name texts =>
      have hself : (p.declare name).Declares name := Properties.declares_declare.mpr (.inr rfl)
      obtain ⟨htexts, hd, hv⟩ := foldlM_decodePermitted_ok hself h
      refine ⟨⟨name, texts, rfl, htexts⟩, fun other => ?_, fun other value => ?_⟩
      · rw [hd, Properties.declares_declare]
        simp [Declared]
      · rw [hv, Properties.permits_declare]
        simp [Permitted, eq_comm]
  · simp at h

theorem exists_decodeProperty {f : Field} (h : IsProperty f) (p : Properties) :
    ∃ q, decodeProperty p f = .ok q := by
  obtain ⟨name, texts, rfl, htexts⟩ := h
  exact exists_foldlM_decodePermitted htexts name _

theorem declared_append {name : String} :
    Declared (fields ++ fields') name ↔ Declared fields name ∨ Declared fields' name := by
  simp [Declared, exists_or]

theorem permitted_append {name value : String} : Permitted (fields ++ fields') name value ↔
    Permitted fields name value ∨ Permitted fields' name value := by
  simp only [Permitted, List.mem_append, or_and_right, exists_or]

theorem foldlM_decodeProperty_ok (h : fields.foldlM decodeProperty p = .ok q) :
    (∀ f ∈ fields, IsProperty f) ∧
      (∀ name, q.Declares name ↔ p.Declares name ∨ Declared fields name) ∧
      ∀ name value, q.Permits name value ↔ p.Permits name value ∨ Permitted fields name value := by
  induction fields generalizing p with
  | nil =>
      obtain rfl := Except.ok.inj h
      simp [Declared, Permitted]
  | cons f fields ih =>
      rw [List.foldlM_cons] at h
      cases hf : decodeProperty p f with
      | error e => simp [hf, bind, Except.bind] at h
      | ok r =>
          rw [hf] at h
          obtain ⟨hproperty, hd, hv⟩ := decodeProperty_ok hf
          obtain ⟨hfields, hd', hv'⟩ := ih h
          refine ⟨List.forall_mem_cons.mpr ⟨hproperty, hfields⟩, fun name => ?_,
            fun name value => ?_⟩
          · rw [hd', hd, or_assoc, ← declared_append, List.singleton_append]
          · rw [hv', hv, or_assoc, ← permitted_append, List.singleton_append]

theorem exists_foldlM_decodeProperty (h : ∀ f ∈ fields, IsProperty f) (p : Properties) :
    ∃ q, fields.foldlM decodeProperty p = .ok q := by
  induction fields generalizing p with
  | nil => exact ⟨p, rfl⟩
  | cons f fields ih =>
      obtain ⟨hf, hfields⟩ := List.forall_mem_cons.mp h
      obtain ⟨q, hq⟩ := exists_decodeProperty hf p
      rw [List.foldlM_cons, hq]
      exact ih hfields q

/-- Properties are read from fields that properties are read from, and they are the names and the
texts under each name. -/
theorem decode_properties_eq_ok_iff : Codec.decode ⟨fields⟩ = .ok p ↔
    (∀ f ∈ fields, IsProperty f) ∧ (∀ name, p.Declares name ↔ Declared fields name) ∧
      ∀ name value, p.Permits name value ↔ Permitted fields name value := by
  have hnone : ∀ name, ¬Properties.none.Declares name := fun name => by
    simp [Properties.Declares, Properties.values?, Properties.none]
  have hread : ∀ q : Properties, Codec.decode ⟨fields⟩ = .ok q → (∀ f ∈ fields, IsProperty f) ∧
      (∀ name, q.Declares name ↔ Declared fields name) ∧
        ∀ name value, q.Permits name value ↔ Permitted fields name value := by
    intro q hq
    obtain ⟨hfields, hd, hv⟩ := foldlM_decodeProperty_ok hq
    refine ⟨hfields, fun name => ?_, fun name value => ?_⟩
    · rw [hd, or_iff_right (hnone name)]
    · rw [hv, or_iff_right fun hp => hnone name hp.declares]
  constructor
  · exact hread p
  · rintro ⟨hfields, hd, hv⟩
    obtain ⟨q, hq⟩ := exists_foldlM_decodeProperty hfields .none
    obtain ⟨-, hd', hv'⟩ := hread q hq
    have heq : q = p := Properties.ext_declares (fun name => (hd' name).trans (hd name).symm)
      fun name value => (hv' name value).trans (hv name value).symm
    exact heq ▸ hq

theorem exists_decode_properties_iff :
    (∃ p : Properties, Codec.decode ⟨fields⟩ = .ok p) ↔ ∀ f ∈ fields, IsProperty f :=
  ⟨fun ⟨_, h⟩ => (decode_properties_eq_ok_iff.mp h).1,
    fun h => exists_foldlM_decodeProperty h .none⟩

inductive Rearranged : List Field → List Field → Prop
  /-- The fields come in another order. -/
  | reordered {fields fields' : List Field} : fields.Perm fields' → Rearranged fields fields'
  /-- The texts of a field come in another order. -/
  | shuffled {before behind texts texts' : List Field} {name : Option String} :
      texts.Perm texts' → Rearranged (before ++ (name, .message texts) :: behind)
        (before ++ (name, .message texts') :: behind)
  /-- A text of a field comes once more, under a name or without. -/
  | repeated {before behind texts : List Field} {name label label' : Option String}
      {text : String} : (label, .string text) ∈ texts →
      Rearranged (before ++ (name, .message texts) :: behind)
        (before ++ (name, .message ((label', .string text) :: texts)) :: behind)
  /-- The texts of a field are spread over two fields of its name. -/
  | split {before behind texts texts' : List Field} {name : Option String} :
      Rearranged (before ++ (name, .message (texts ++ texts')) :: behind)
        (before ++ (name, .message texts) :: (name, .message texts') :: behind)

structure SameSets (fields fields' : List Field) : Prop where
  valid : (∀ f ∈ fields, IsProperty f) ↔ ∀ f ∈ fields', IsProperty f
  declared : ∀ name, Declared fields name ↔ Declared fields' name
  permitted : ∀ name value, Permitted fields name value ↔ Permitted fields' name value

theorem SameSets.decode_iff (h : SameSets fields fields') (p : Properties) :
    Codec.decode ⟨fields⟩ = .ok p ↔ Codec.decode ⟨fields'⟩ = .ok p := by
  rw [decode_properties_eq_ok_iff, decode_properties_eq_ok_iff, h.valid]
  simp only [h.declared, h.permitted]

/-- Fields may be exchanged for others of the same sets among any fields. -/
theorem SameSets.within (h : SameSets fields fields') (before behind : List Field) :
    SameSets (before ++ (fields ++ behind)) (before ++ (fields' ++ behind)) where
  valid := by simp only [List.forall_mem_append, h.valid]
  declared := by simp only [declared_append, h.declared, implies_true]
  permitted := by simp only [permitted_append, h.permitted, implies_true]

theorem sameSets_of_texts {texts texts' : List Field} (name : Option String)
    (ht : (∀ t ∈ texts, IsText t) ↔ ∀ t ∈ texts', IsText t)
    (hv : ∀ value, (∃ label, (label, Content.string value) ∈ texts) ↔
      ∃ label, (label, Content.string value) ∈ texts') :
    SameSets [(name, .message texts)] [(name, .message texts')] where
  valid := by
    rw [List.forall_mem_singleton, List.forall_mem_singleton, isProperty_message,
      isProperty_message, ht]
  declared := by simp [Declared]
  permitted := by cases name <;> simp [Permitted, hv]

theorem Rearranged.sameSets (h : Rearranged fields fields') : SameSets fields fields' := by
  cases h with
  | reordered h => exact ⟨by simp [h.mem_iff], by simp [Declared, h.mem_iff],
      by simp [Permitted, h.mem_iff]⟩
  | shuffled h => exact (sameSets_of_texts _ (by simp [h.mem_iff]) (by simp [h.mem_iff])).within _ _
  | repeated h => exact (sameSets_of_texts _ (by simp [IsText]) (by grind)).within _ _
  | @split before behind texts texts' name =>
      have hone : SameSets [(name, .message (texts ++ texts'))]
          [(name, .message texts), (name, .message texts')] := by
        constructor
        · simp only [List.forall_mem_cons, List.forall_mem_append, isProperty_message]
          tauto
        · simp [Declared, exists_or]
        · intro other value
          simp only [Permitted, List.mem_cons, List.not_mem_nil, or_false, Prod.mk.injEq,
            Content.message.injEq]
          grind
      exact hone.within before behind

theorem sameSets_of_eqvGen (h : EqvGen Rearranged fields fields') : SameSets fields fields' := by
  induction h with
  | rel _ _ h => exact h.sameSets
  | refl _ => exact ⟨Iff.rfl, fun _ => Iff.rfl, fun _ _ => Iff.rfl⟩
  | symm _ _ _ ih => exact ⟨ih.valid.symm, fun name => (ih.declared name).symm,
      fun name value => (ih.permitted name value).symm⟩
  | trans _ _ _ _ _ ih ih' => exact ⟨ih.valid.trans ih'.valid,
      fun name => (ih.declared name).trans (ih'.declared name),
      fun name value => (ih.permitted name value).trans (ih'.permitted name value)⟩

/-- A field for each of some properties, with the texts of the property in a message. -/
def propertyFields (entries : List (String × List String)) : List Field :=
  entries.map fun e => (some e.1, .message (e.2.map fun value => (none, .string value)))

structure Ordered (entries : List (String × List String)) : Prop where
  names : (entries.map Prod.fst).Pairwise (· < ·)
  values : ∀ e ∈ entries, e.2.Pairwise (· < ·)

/-- Names and texts come in strict order, and the texts have no names of their own. -/
def Canonical (fields : List Field) : Prop := ∃ entries, Ordered entries ∧
  fields = propertyFields entries

theorem ordered_toList (p : Properties) : Ordered p.toList := by
  constructor
  · rw [Properties.toList, List.map_map, List.pairwise_map]
    exact p.entries.ordered_keys_toList.imp compare_lt_iff_lt.mp
  · intro e he
    obtain ⟨entry, -, rfl⟩ := List.mem_map.mp he
    exact entry.2.ordered_toList.imp compare_lt_iff_lt.mp

theorem canonical_fields (p : Properties) : Canonical (Codec.fields p) :=
  ⟨p.toList, ordered_toList p, rfl⟩

theorem declared_propertyFields {entries : List (String × List String)} {name : String} :
    Declared (propertyFields entries) name ↔ name ∈ entries.map Prod.fst := by
  simp [Declared, propertyFields]

theorem permitted_propertyFields {entries : List (String × List String)} {name value : String} :
    Permitted (propertyFields entries) name value ↔
      ∃ values, (name, values) ∈ entries ∧ value ∈ values := by
  simp [Permitted, propertyFields]

theorem Ordered.permitted_iff {entries : List (String × List String)} (h : Ordered entries)
    {name value : String} {values : List String} (he : (name, values) ∈ entries) :
    Permitted (propertyFields entries) name value ↔ value ∈ values := by
  rw [permitted_propertyFields]
  constructor
  · rintro ⟨values', he', hv⟩
    have hone := List.inj_on_of_nodup_map h.names.nodup he' he rfl
    obtain ⟨-, rfl⟩ := Prod.mk.inj hone
    exact hv
  · exact fun hv => ⟨values, he, hv⟩

/-- Ordered entries are determined by the names and the texts under each. -/
theorem Ordered.eq_of_sameSets {entries entries' : List (String × List String)}
    (h : Ordered entries) (h' : Ordered entries')
    (hs : SameSets (propertyFields entries) (propertyFields entries')) : entries = entries' := by
  have hnames : entries.map Prod.fst = entries'.map Prod.fst :=
    h.names.eq_of_mem_iff h'.names fun name => by
      rw [← declared_propertyFields, ← declared_propertyFields, hs.declared]
  have hlength : entries.length = entries'.length := by simpa using congrArg List.length hnames
  refine List.ext_getElem hlength fun i hi hi' => ?_
  have hname : entries[i].1 = entries'[i].1 := by
    simpa [hi, hi'] using congrArg (·[i]?) hnames
  refine Prod.ext hname ((h.values _ (List.getElem_mem hi)).eq_of_mem_iff
    (h'.values _ (List.getElem_mem hi')) fun value => ?_)
  have hp : Permitted (propertyFields entries) entries[i].1 value ↔ value ∈ entries[i].2 :=
    h.permitted_iff (List.getElem_mem hi)
  have hp' : Permitted (propertyFields entries') entries'[i].1 value ↔ value ∈ entries'[i].2 :=
    h'.permitted_iff (List.getElem_mem hi')
  rw [← hp, ← hp', hname, hs.permitted]

theorem eq_fields_of_canonical (hc : Canonical fields) (h : Codec.decode ⟨fields⟩ = .ok p) :
    fields = Codec.fields p := by
  obtain ⟨entries, hordered, rfl⟩ := hc
  refine congrArg propertyFields (hordered.eq_of_sameSets (ordered_toList p) ?_)
  obtain ⟨hvalid, hd, hv⟩ := decode_properties_eq_ok_iff.mp h
  obtain ⟨hvalid', hd', hv'⟩ := decode_properties_eq_ok_iff.mp (decode_toMessage_properties p)
  exact ⟨iff_of_true hvalid hvalid', fun name => (hd name).symm.trans (hd' name),
    fun name value => (hv name value).symm.trans (hv' name value)⟩

namespace Codec

/-- Properties are read exactly from the messages of which every field has a name and holds a
message of texts, and they are then the names of the fields with the texts under each. In whatever
way the message is rearranged, the same properties are read or none still. Of the messages that
the same properties are read from, the one they are written as is the only one whose names and
texts come in strict order; so reading and writing again changes nothing the second time. -/
theorem decode_properties_as_sets :
    (∀ fields, (∃ p : Properties, decode ⟨fields⟩ = .ok p) ↔ ∀ f ∈ fields, IsProperty f) ∧
    (∀ fields (p : Properties), decode ⟨fields⟩ = .ok p →
      (∀ name, p.Declares name ↔ Declared fields name) ∧
      ∀ name value, p.Permits name value ↔ Permitted fields name value) ∧
    (∀ fields fields', EqvGen Rearranged fields fields' →
      ∀ p : Properties, decode ⟨fields⟩ = .ok p ↔ decode ⟨fields'⟩ = .ok p) ∧
    ∀ fields (p : Properties), decode ⟨fields⟩ = .ok p →
      Canonical (Codec.fields p) ∧ decode (toMessage p) = .ok p ∧
      ∀ fields', Canonical fields' → decode ⟨fields'⟩ = .ok p →
        (⟨fields'⟩ : Message) = toMessage p := by
  refine ⟨fun fields => exists_decode_properties_iff, fun fields p h =>
    (decode_properties_eq_ok_iff.mp h).2, fun fields fields' h => (sameSets_of_eqvGen h).decode_iff,
    fun fields p _ => ⟨canonical_fields p, decode_toMessage_properties p, ?_⟩⟩
  intro fields' hc h
  exact congrArg Message.mk (eq_fields_of_canonical hc h)

namespace Sample

/-- A property in two fields around another, with a text that comes twice. -/
def scattered : List Field := [(some "Currency", .message [(none, .string "USD")]),
  (some "Age", .message []),
  (some "Currency", .message [(none, .string "EUR"), (none, .string "USD")])]

def gathered : List Field := [(some "Age", .message []),
  (some "Currency", .message [(none, .string "EUR"), (none, .string "USD")])]

theorem rearranged_scattered : EqvGen Rearranged scattered gathered := by
  let currency : List Field → Field := fun texts => (some "Currency", .message texts)
  let usd : Field := (none, .string "USD")
  let eur : Field := (none, .string "EUR")
  let age : Field := (some "Age", .message [])
  have hswap : Rearranged scattered [age, currency [usd], currency [eur, usd]] :=
    .reordered (.swap ..)
  have hjoin : Rearranged ([age] ++ currency ([usd] ++ [eur, usd]) :: [])
      ([age] ++ currency [usd] :: currency [eur, usd] :: []) := .split
  have honce : Rearranged ([age] ++ currency [eur, usd] :: [])
      ([age] ++ currency (usd :: [eur, usd]) :: []) :=
    .repeated (List.mem_cons_of_mem eur (List.mem_singleton_self usd))
  exact .trans _ _ _ (.rel _ _ hswap) (.trans _ _ _ (.symm _ _ (.rel _ _ hjoin))
    (.symm _ _ (.rel _ _ honce)))

end Sample

open Codec.Sample in
/-- Scattered properties are read like those that are gathered, and written as these. -/
theorem scattered_read_as_gathered : ∃ p : Properties, decode ⟨scattered⟩ = .ok p ∧
    EqvGen Rearranged scattered gathered ∧ decode ⟨gathered⟩ = .ok p ∧
    p.Permits "Currency" "EUR" ∧ toMessage p = ⟨gathered⟩ := by
  obtain ⟨hread, hsets, hsame, hwritten⟩ := decode_properties_as_sets
  obtain ⟨p, hp⟩ := (hread scattered).mpr (by simp [scattered, isProperty_message, IsText])
  have hp' := (hsame _ _ rearranged_scattered p).mp hp
  have hcanonical : Canonical gathered :=
    ⟨[("Age", []), ("Currency", ["EUR", "USD"])], ⟨by decide, by decide⟩, rfl⟩
  have hpermits := ((hsets scattered p hp).2 "Currency" "EUR").mpr (by simp [Permitted, scattered])
  exact ⟨p, hp, rearranged_scattered, hp', hpermits,
    ((hwritten scattered p hp).2.2 gathered hcanonical hp').symm⟩

end Codec
end Wire
end ValuationCycle
