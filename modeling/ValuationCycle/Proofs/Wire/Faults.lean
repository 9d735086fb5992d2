import ValuationCycle.Proofs.Wire.PropertySets
import ValuationCycle.Proofs.Wire.Shapes

/-!
# Faults and the names in their errors

A message that is written for an object is damaged when a field that may not be missing is taken
out, or when a field is made to hold something that it does not take, in the message itself or in
one further down. Reading then always fails. The error names the field, or the field that holds the
properties if the fault is inside these, with two exceptions: inside constraints it names
properties, and what is missing of the identifier of a job item's target is reported as the target.
-/
namespace ValuationCycle.Wire
open Json Message

inductive Fault where
  | deleted
  | replaced
  deriving DecidableEq

/-- The way to a field: the kind of each message on the way, and the name that is followed in it. -/
abbrev Path := List (Shape × String)

/-- One fault in a message, at the end of a path: a field that has to be there is taken out, or a
field is made to hold what it does not take. A property has to hold a message, and the fields of
this have to hold texts. -/
inductive Damage : Shape → List Field → List Field → Path → Fault → Prop
  | deleted (before behind : List Field) (c : Content) {shape : Shape} {name : String}
      {slot : Slot} : (name, slot) ∈ shape.parts → slot.mandatory = true →
      Damage shape (before ++ (some name, c) :: behind) (before ++ behind) [(shape, name)] .deleted
  | replaced (before behind : List Field) (c c' : Content) {shape : Shape} {name : String}
      {slot : Slot} : (name, slot) ∈ shape.parts → slot.takes c' = false →
      Damage shape (before ++ (some name, c) :: behind) (before ++ (some name, c') :: behind)
        [(shape, name)] .replaced
  | inside (before behind : List Field) {fields fields' : List Field} {shape inner : Shape}
      {name : String} {slot : Slot} {path : Path} {fault : Fault} : (name, slot) ∈ shape.parts →
      slot.nested? = some inner → Damage inner fields fields' path fault →
      Damage shape (before ++ (some name, .message fields) :: behind)
        (before ++ (some name, .message fields') :: behind) ((shape, name) :: path) fault
  | property (before behind : List Field) (c c' : Content) {name : String} :
      (∀ texts, c' ≠ .message texts) →
      Damage .properties (before ++ (some name, c) :: behind)
        (before ++ (some name, c') :: behind) [(.properties, name)] .replaced
  | text (before behind first rest : List Field) (c c' : Content) {name : String}
      {label : Option String} : (∀ s, c' ≠ .string s) →
      Damage .properties
        (before ++ (some name, .message (first ++ (label, c) :: rest)) :: behind)
        (before ++ (some name, .message (first ++ (label, c') :: rest)) :: behind)
        [(.properties, name)] .replaced

def Fault.ReportedAs (name : String) : Fault → DecodeError → Prop
  | deleted, e => e = .missing name
  | replaced, e => ∃ reason, e = .invalid name reason

namespace Path

/-- The field that an error has to name: the last on the way that is not a property. -/
def blamed (path : Path) : Option String :=
  (path.filter fun step => step.1 ≠ .properties).getLast?.map Prod.snd

/-- A path that starts in a job item and follows one of the fields in which its target lies. -/
def IntoTarget (path : Path) : Prop :=
  ∃ name ∈ ["computationTargetType", "computationTargetId"], path.head? = some (.jobItem, name)

instance (path : Path) : Decidable path.IntoTarget :=
  inferInstanceAs (Decidable (∃ name ∈ _, _))

def ending : Path → String
  | [] => ""
  | [(.properties, _)] => "properties"
  | [(_, name)] => name
  | _ :: rest => ending rest

def reported (path : Path) (fault : Fault) : String :=
  if fault = .deleted ∧ path.IntoTarget then "computationTargetSpecification" else path.ending

/-- Whether an error names what is at fault. For one of the fields in which the target of a job item
lies the target may be named. -/
def NamedRightly (path : Path) (fault : Fault) (e : DecodeError) : Prop :=
  (∃ name, path.blamed = some name ∧ fault.ReportedAs name e) ∨
    path.IntoTarget ∧ path.length = 1 ∧ fault.ReportedAs "computationTargetSpecification" e

/-- The faults that are inside the constraints of a requirement, or that something is missing inside
the identifier of the target of a job item. -/
def Misreported (path : Path) (fault : Fault) : Prop :=
  (.requirement, "constraints") ∈ path.dropLast ∨
    fault = .deleted ∧ (.jobItem, "computationTargetId") ∈ path.dropLast

end Path

namespace Slot
variable {slot : Slot} {shape inner : Shape} {name : String} {m : Message}

theorem read_deleted (hm : slot.mandatory = true) (h : m.getAll name = []) :
    slot.read name m = .error (.missing name) := by
  have hmissing : m.require name = .error (.missing name) := by simp [require, get?, h]
  cases slot with
  | optionalString | messages => cases hm
  | string => rw [read, requireString, hmissing]; rfl
  | targetType => rw [read, requireString, hmissing]; rfl
  | longs => rw [read, requireLongs, hmissing]; rfl
  | json => rw [read, hmissing]; rfl
  | message => rw [read, requireMessage, hmissing]; rfl

theorem requireString_replaced {c : Content} (hc : ∀ s, c ≠ .string s)
    (h : m.require name = .ok c) :
    ∃ reason, m.requireString name = .error (.invalid name reason) := by
  rw [requireString, h]
  cases c with
  | string s => exact absurd rfl (hc s)
  | long | longs | message | json => exact ⟨_, rfl⟩

theorem read_replaced {c : Content} {rest : List Content} (hs : slot.repeated = false)
    (ht : slot.takes c = false) (h : m.getAll name = c :: rest) :
    ∃ reason, slot.read name m = .error (.invalid name reason) := by
  have hfound : m.require name = .ok c := require_of_getAll h
  cases slot with
  | messages => cases hs
  | string =>
      obtain ⟨reason, hreason⟩ := requireString_replaced (by rintro s rfl; cases ht) hfound
      exact ⟨reason, by rw [read, hreason]; rfl⟩
  | optionalString =>
      obtain ⟨reason, hreason⟩ := requireString_replaced (by rintro s rfl; cases ht) hfound
      have hfirst : m.get? name = some c := by simp [get?, h]
      exact ⟨reason, by rw [read, Message.optionalString, hfirst, hreason]; rfl⟩
  | targetType =>
      rw [read, requireString, hfound]
      cases c with
      | string s =>
          have hunknown : TargetType.ofName? s = none := by simpa [takes] using ht
          refine ⟨"unknown target type `" ++ s ++ "`", ?_⟩
          simp only [bind, Except.bind, hunknown]
      | long | longs | message | json => exact ⟨_, rfl⟩
  | longs =>
      rw [read, requireLongs, hfound]
      cases c with
      | longs => cases ht
      | string | long | message | json => exact ⟨_, rfl⟩
  | json =>
      rw [read, hfound]
      cases c with
      | json => cases ht
      | string | long | longs | message => exact ⟨_, rfl⟩
  | message =>
      rw [read, requireMessage, hfound]
      cases c with
      | message => cases ht
      | string | long | longs | json => exact ⟨_, rfl⟩

theorem read_messages_replaced {inners : List (List Field)} {c : Content} {rest : List Content}
    (ht : (messages shape).takes c = false)
    (h : m.getAll name = inners.map Content.message ++ c :: rest) :
    ∃ reason, (messages shape).read name m = .error (.invalid name reason) := by
  rw [read, Message.messages, h, List.mapM_append, mapM_ofContent, List.mapM_cons]
  cases c with
  | message => cases ht
  | string | long | longs | json => exact ⟨_, rfl⟩

theorem read_messages_inside {inners behind : List (List Field)} {fields : List Field}
    {e : DecodeError} (hinners : ∀ fields ∈ inners, shape.read ⟨fields⟩ = .ok ())
    (he : shape.read ⟨fields⟩ = .error e)
    (h : m.getAll name = (inners ++ fields :: behind).map Content.message) :
    (messages shape).read name m = .error e := by
  rw [read_messages h, List.forM_append, forM_eq_ok_iff.mpr hinners, List.forM_cons, he]
  rfl

variable {before behind : List Content} {c c' : Content} {fields fields' : List Field}

theorem repeated_of_mandatory (hm : slot.mandatory = true) : slot.repeated = false := by
  cases slot <;> first | rfl | cases hm

theorem Holds.alone (h : slot.Holds (before ++ c :: behind)) (hs : slot.repeated = false) :
    before = [] ∧ behind = [] := by
  have hlength : (before ++ c :: behind).length ≤ 1 := by
    cases slot with
    | messages => cases hs
    | message shape =>
        obtain ⟨fields, hcs, -⟩ := h
        simp [hcs]
    | string | optionalString | targetType | longs | json => exact h
  rw [List.length_append, List.length_cons] at hlength
  exact ⟨List.length_eq_zero_iff.mp (by omega), List.length_eq_zero_iff.mp (by omega)⟩

theorem Holds.messages (h : (messages shape).Holds (before ++ c :: behind)) :
    ∃ (inners rest : List (List Field)) (fields : List Field),
      before = inners.map Content.message ∧ c = .message fields ∧
        behind = rest.map Content.message ∧ shape.Encodes fields ∧
        ∀ fields ∈ inners, shape.Encodes fields := by
  obtain ⟨all, hall, hencodes⟩ := h
  obtain ⟨inners, tail, rfl, hinners, htail⟩ := List.map_eq_append_iff.mp hall.symm
  obtain ⟨fields, rest, rfl, hfields, hrest⟩ := List.map_eq_cons_iff.mp htail
  exact ⟨inners, rest, fields, hinners.symm, hfields.symm, hrest.symm, hencodes _ (by simp),
    fun fields hf => hencodes fields (List.mem_append_left _ hf)⟩

theorem Holds.encodes (h : slot.Holds (before ++ .message fields :: behind))
    (hn : slot.nested? = some inner) : inner.Encodes fields := by
  cases slot with
  | message shape =>
      obtain rfl := Option.some.inj hn
      obtain ⟨rfl, rfl⟩ := h.alone rfl
      obtain ⟨_, hfields, hencodes⟩ := h
      obtain ⟨hmessage, -⟩ := List.cons.inj hfields
      exact Content.message.inj hmessage ▸ hencodes
  | messages shape =>
      obtain rfl := Option.some.inj hn
      obtain ⟨_, _, _, -, hmessage, -, hencodes, -⟩ := h.messages
      exact Content.message.inj hmessage ▸ hencodes
  | string | optionalString | targetType | longs | json => cases hn

theorem Holds.deleted (h : slot.Holds (before ++ c :: behind)) (hm : slot.mandatory = true)
    (hall : m.getAll name = before ++ behind) : slot.read name m = .error (.missing name) := by
  obtain ⟨rfl, rfl⟩ := h.alone (repeated_of_mandatory hm)
  exact read_deleted hm hall

theorem Holds.replaced (h : slot.Holds (before ++ c :: behind)) (ht : slot.takes c' = false)
    (hall : m.getAll name = before ++ c' :: behind) :
    ∃ reason, slot.read name m = .error (.invalid name reason) := by
  cases hs : slot.repeated with
  | false =>
      obtain ⟨rfl, rfl⟩ := h.alone hs
      exact read_replaced hs ht hall
  | true =>
      cases slot with
      | messages shape =>
          obtain ⟨inners, _, _, rfl, -⟩ := h.messages
          exact read_messages_replaced ht hall
      | string | optionalString | targetType | longs | json | message => cases hs

theorem Holds.inside {e : DecodeError} (h : slot.Holds (before ++ .message fields :: behind))
    (hn : slot.nested? = some inner) (he : inner.read ⟨fields'⟩ = .error e)
    (hall : m.getAll name = before ++ .message fields' :: behind) :
    slot.read name m = .error e := by
  cases slot with
  | message shape =>
      obtain rfl := Option.some.inj hn
      have hmessage : m.requireMessage name = .ok ⟨fields'⟩ := by
        obtain ⟨rfl, rfl⟩ := h.alone rfl
        rw [requireMessage, require_of_getAll hall]
        rfl
      rw [read, hmessage]
      exact he
  | messages shape =>
      obtain rfl := Option.some.inj hn
      obtain ⟨inners, rest, _, rfl, -, rfl, -, hinners⟩ := h.messages
      have hmessages : m.getAll name = (inners ++ fields' :: rest).map Content.message := by
        rw [hall, List.map_append, List.map_cons]
      exact read_messages_inside (fun fields hf => (hinners fields hf).read) he hmessages
  | string | optionalString | targetType | longs | json => cases hn

end Slot

namespace Shape
variable {shape : Shape} {name : String} {slot : Slot} {fields : List Field}

theorem ne_properties (hp : (name, slot) ∈ shape.parts) : shape ≠ .properties := by
  rintro rfl
  simp [parts] at hp

/-- What becomes of an error under a name of a message. -/
def raised (shape : Shape) (name : String) (e : DecodeError) : DecodeError :=
  if Path.IntoTarget [(shape, name)] then asTarget e else e

/-- What is wrong with the target of a job item comes out first, and changed. -/
theorem read_jobItem_eq_error {m : Message} {e : DecodeError} (hp : (name, slot) ∈ jobItem.parts)
    (he : slot.read name m = .error e)
    (hothers : ∀ p ∈ jobItem.parts, p.1 ≠ name → p.2.read p.1 m = .ok ()) :
    jobItem.read m = .error (jobItem.raised name e) := by
  have hn := nodup_parts jobItem
  rw [parts_jobItem] at hp hothers hn
  rw [List.map_append, List.nodup_append] at hn
  obtain ⟨htargetNodup, hrestNodup, hapart⟩ := hn
  have htargets : ∀ q ∈ target.parts, q.1 ≠ name → q.2.read q.1 m = .ok () :=
    fun q hq => hothers q (List.mem_append_left _ hq)
  rw [read_jobItem]
  obtain hp | hp := List.mem_append.mp hp
  · have hname : name ∈ target.parts.map Prod.fst := List.mem_map_of_mem hp
    have hinto : Path.IntoTarget [(jobItem, name)] := ⟨name, hname, rfl⟩
    rw [readParts_eq_error htargetNodup hp he htargets, raised, if_pos hinto]
    rfl
  · have hne : ∀ other ∈ target.parts.map Prod.fst, other ≠ name := fun other hother =>
      hapart other hother name (List.mem_map_of_mem hp)
    have hinto : ¬Path.IntoTarget [(jobItem, name)] := by
      rintro ⟨other, hother, hname⟩
      exact hne other hother (by simpa using hname.symm)
    have htarget : readParts target.parts m = .ok () := forM_eq_ok_iff.mpr fun q hq =>
      htargets q hq (hne _ (List.mem_map_of_mem hq))
    rw [htarget, raised, if_neg hinto]
    exact readParts_eq_error hrestNodup hp he fun q hq => hothers q (List.mem_append_right _ hq)

theorem read_eq_error {m : Message} {e : DecodeError} (hp : (name, slot) ∈ shape.parts)
    (he : slot.read name m = .error e)
    (hothers : ∀ p ∈ shape.parts, p.1 ≠ name → p.2.read p.1 m = .ok ()) :
    shape.read m = .error (shape.raised name e) := by
  by_cases hj : shape = .jobItem
  · subst hj
    exact read_jobItem_eq_error hp he hothers
  · have hraised : shape.raised name e = e := if_neg fun h => by simp [Path.IntoTarget, hj] at h
    rw [read_eq_readParts (ne_properties hp) hj, hraised]
    exact readParts_eq_error (nodup_parts shape) hp he hothers

theorem Encodes.read_eq_error {fields' : List Field} {e : DecodeError} (h : shape.Encodes fields)
    (hp : (name, slot) ∈ shape.parts) (he : slot.read name ⟨fields'⟩ = .error e)
    (hsame : ∀ other, other ≠ name → getAll ⟨fields'⟩ other = getAll ⟨fields⟩ other) :
    shape.read ⟨fields'⟩ = .error (shape.raised name e) := by
  refine Shape.read_eq_error hp he fun p hp' hne => ?_
  rw [Slot.read_congr (hsame p.1 hne)]
  exact read_part_of_read h.read p hp'

theorem nested_ne_jobItem {inner : Shape} (hp : (name, slot) ∈ shape.parts)
    (hn : slot.nested? = some inner) : inner ≠ .jobItem := by
  have hall : ∀ p ∈ shape.parts, p.2.nested? ≠ some .jobItem := by cases shape <;> decide
  rintro rfl
  exact hall _ hp hn

end Shape

open Shape

theorem getAll_fields_cons (before behind : List Field) (name : String) (c : Content) :
    getAll ⟨before ++ (some name, c) :: behind⟩ name =
      getAll ⟨before⟩ name ++ c :: getAll ⟨behind⟩ name := by
  rw [getAll_append, getAll_cons, if_pos rfl, List.singleton_append]

theorem read_properties_eq_error {before behind : List Field} {f : Field} {e : DecodeError}
    (hbefore : ∀ f ∈ before, IsProperty f) (hf : ∀ p, decodeProperty p f = .error e) :
    properties.read ⟨before ++ f :: behind⟩ = .error e := by
  obtain ⟨p, hp⟩ := exists_foldlM_decodeProperty hbefore .none
  refine void_eq_error.mpr ?_
  change (before ++ f :: behind).foldlM decodeProperty .none = _
  rw [List.foldlM_append, hp]
  change (decodeProperty p f >>= _) = _
  rw [hf]
  rfl

theorem decodeProperty_of_not_message {name : String} {c : Content}
    (hc : ∀ texts, c ≠ .message texts) (p : Properties) : decodeProperty p (some name, c) =
      .error (.invalid "properties" "expected named message per property") := by
  cases c with
  | message texts => exact absurd rfl (hc texts)
  | string | long | longs | json => rfl

theorem decodeProperty_of_not_text {name : String} {first rest : List Field}
    {label : Option String} {c : Content} (hfirst : ∀ t ∈ first, IsText t) (hc : ∀ s, c ≠ .string s)
    (p : Properties) : decodeProperty p (some name, .message (first ++ (label, c) :: rest)) =
      .error (.invalid "properties" ("property `" ++ name ++ "` holds a non-string value")) := by
  obtain ⟨q, hq⟩ := exists_foldlM_decodePermitted hfirst name (p.declare name)
  change (first ++ (label, c) :: rest).foldlM (decodePermitted name) (p.declare name) = _
  rw [List.foldlM_append, hq]
  cases c with
  | string s => exact absurd rfl (hc s)
  | long | longs | message | json => rfl

theorem isProperty_of_encodes {fields : List Field} (h : properties.Encodes fields) :
    ∀ f ∈ fields, IsProperty f := by
  obtain ⟨p, rfl⟩ := h
  exact exists_decode_properties_iff.mp ⟨p, decode_toMessage_properties p⟩

namespace Path
variable {shape : Shape} {name : String} {path : Path}

theorem ending_single (h : shape ≠ .properties) : ending [(shape, name)] = name := by
  cases shape <;> first | rfl | exact absurd rfl h

theorem ending_cons (step : Shape × String) (h : path ≠ []) :
    ending (step :: path) = ending path := by
  cases path with
  | nil => exact absurd rfl h
  | cons => rw [ending] <;> simp

end Path

theorem Fault.ReportedAs.raised {fault : Fault} {shape : Shape} {name n : String}
    {e : DecodeError} (h : fault.ReportedAs n e) : fault.ReportedAs
      (if fault = .deleted ∧ Path.IntoTarget [(shape, name)] then "computationTargetSpecification"
        else n) (shape.raised name e) := by
  cases fault with
  | deleted =>
      obtain rfl := h
      rw [Shape.raised]
      simp only [true_and]
      split <;> rfl
  | replaced =>
      obtain ⟨reason, rfl⟩ := h
      rw [Shape.raised, if_neg (by simp)]
      split <;> exact ⟨reason, rfl⟩

variable {shape : Shape} {fields fields' : List Field} {path : Path} {fault : Fault}

theorem Damage.ne_nil (h : Damage shape fields fields' path fault) : path ≠ [] := by
  cases h <;> simp

theorem Damage.reported_of_ne (h : Damage shape fields fields' path fault)
    (hs : shape ≠ .jobItem) : path.reported fault = path.ending := by
  refine if_neg fun hinto => ?_
  cases h <;> simp [Path.IntoTarget, hs] at hinto

/-- A damaged encoding is refused, and this is how the fault is reported. -/
theorem Damage.read_eq_error (h : Damage shape fields fields' path fault)
    (he : shape.Encodes fields) :
    ∃ e, shape.read ⟨fields'⟩ = .error e ∧ fault.ReportedAs (path.reported fault) e := by
  induction h with
  | @deleted before behind c shape name slot hp hm =>
      have hheld := he.holds _ hp
      rw [getAll_fields_cons] at hheld
      have hread := hheld.deleted hm (getAll_append before behind name)
      refine ⟨_, he.read_eq_error hp hread fun other hne => ?_, ?_⟩
      · rw [getAll_append, getAll_append, getAll_cons, if_neg (by simpa using hne.symm),
          List.nil_append]
      · rw [Path.reported, Path.ending_single (ne_properties hp)]
        exact Fault.ReportedAs.raised rfl
  | @replaced before behind c c' shape name slot hp ht =>
      have hheld := he.holds _ hp
      rw [getAll_fields_cons] at hheld
      obtain ⟨reason, hread⟩ := hheld.replaced ht (getAll_fields_cons before behind name c')
      refine ⟨_, he.read_eq_error hp hread fun other hne => getAll_replace_of_ne hne, ?_⟩
      rw [Path.reported, Path.ending_single (ne_properties hp)]
      exact Fault.ReportedAs.raised ⟨reason, rfl⟩
  | @inside before behind fields fields' shape inner name slot path fault hp hn hd ih =>
      have hheld := he.holds _ hp
      rw [getAll_fields_cons] at hheld
      obtain ⟨e, hinner, hreported⟩ := ih (hheld.encodes hn)
      have hread := hheld.inside hn hinner (getAll_fields_cons before behind name _)
      refine ⟨_, he.read_eq_error hp hread fun other hne => getAll_replace_of_ne hne, ?_⟩
      rw [hd.reported_of_ne (nested_ne_jobItem hp hn)] at hreported
      rw [Path.reported, Path.ending_cons _ hd.ne_nil]
      exact hreported.raised
  | @property before behind c c' name hc =>
      obtain ⟨hbefore, -⟩ := List.forall_mem_append.mp (isProperty_of_encodes he)
      exact ⟨_, read_properties_eq_error hbefore (decodeProperty_of_not_message hc), _, rfl⟩
  | @text before behind first rest c c' name label hc =>
      obtain ⟨hbefore, hself⟩ := List.forall_mem_append.mp (isProperty_of_encodes he)
      obtain ⟨-, htexts⟩ := isProperty_message.mp (List.forall_mem_cons.mp hself).1
      obtain ⟨hfirst, -⟩ := List.forall_mem_append.mp htexts
      exact ⟨_, read_properties_eq_error hbefore (decodeProperty_of_not_text hfirst hc), _, rfl⟩

theorem Fault.ReportedAs.unique {n n' : String} {e : DecodeError} (h : fault.ReportedAs n e)
    (h' : fault.ReportedAs n' e) : n = n' := by
  cases fault with
  | deleted => exact DecodeError.missing.inj (h.symm.trans h')
  | replaced =>
      obtain ⟨reason, rfl⟩ := h
      obtain ⟨reason', h'⟩ := h'
      exact (DecodeError.invalid.inj h').1

theorem Path.blamed_cons {step : Shape × String} {name : String} (h : path.blamed = some name) :
    blamed (step :: path) = some name := by
  obtain ⟨last, hlast, rfl⟩ := Option.map_eq_some_iff.mp h
  rw [blamed, List.filter_cons]
  split
  · rw [List.getLast?_cons, hlast]
    rfl
  · exact h

theorem Damage.jobItem_notMem (h : Damage shape fields fields' path fault) (hs : shape ≠ .jobItem)
    (name : String) : (.jobItem, name) ∉ path := by
  induction h with
  | deleted | replaced | property | text => simp [Ne.symm hs]
  | inside _ _ hp hn _ ih =>
      rw [List.mem_cons, not_or]
      exact ⟨by simp [Ne.symm hs], ih (nested_ne_jobItem hp hn)⟩

theorem Damage.ending_ne (h : Damage shape fields fields' path fault) :
    path.ending ≠ "computationTargetSpecification" := by
  have hparts : ∀ shape : Shape, ∀ p ∈ shape.parts, p.1 ≠ "computationTargetSpecification" := by
    intro shape
    cases shape <;> decide
  induction h with
  | deleted _ _ _ hp | replaced _ _ _ _ hp =>
      rw [Path.ending_single (ne_properties hp)]
      exact hparts _ _ hp
  | inside _ _ _ _ hd ih => rwa [Path.ending_cons _ hd.ne_nil]
  | property | text => simp [Path.ending]

/-- Where the path of a fault ends: at a property of properties that travel alone, at the field that
has to be named, or inside the constraints of a requirement. -/
inductive Path.Ends : Shape → Path → Fault → Prop
  | property (name : String) : Ends .properties [(.properties, name)] .replaced
  | field {shape : Shape} {path : Path} {fault : Fault} : shape ≠ .properties →
      path.blamed = some path.ending → (.requirement, "constraints") ∉ path.dropLast →
      Ends shape path fault
  | constraint {shape : Shape} {path : Path} : shape ≠ .properties → path.ending = "properties" →
      path.blamed = some "constraints" → (.requirement, "constraints") ∈ path.dropLast →
      Ends shape path .replaced

theorem Damage.ends (h : Damage shape fields fields' path fault) : path.Ends shape fault := by
  induction h with
  | deleted _ _ _ hp | replaced _ _ _ _ hp =>
      have hs := ne_properties hp
      refine .field hs ?_ (by simp)
      rw [Path.ending_single hs]
      simp [Path.blamed, hs]
  | property | text => exact .property _
  | @inside _ _ _ _ shape inner name _ path _ hp hn hd ih =>
      have hs := ne_properties hp
      have hend : Path.ending ((shape, name) :: path) = path.ending := Path.ending_cons _ hd.ne_nil
      have hdropLast : List.dropLast ((shape, name) :: path) = (shape, name) :: path.dropLast :=
        List.dropLast_cons_of_ne_nil hd.ne_nil
      cases ih with
      | property entry =>
          -- only constraints and properties hold properties
          have hholder : ∀ p ∈ shape.parts, p.2.nested? = some .properties →
              (shape, p.1) = (.requirement, "constraints") ∨
                (shape, p.1) = (.specification, "properties") := by
            cases shape <;> decide
          obtain ⟨rfl, rfl⟩ | ⟨rfl, rfl⟩ := (hholder _ hp hn).imp Prod.mk.inj Prod.mk.inj
          · exact .constraint hs rfl rfl (by simp)
          · exact .field hs rfl (by simp)
      | field hinner hblamed hconstraints =>
          refine .field hs (hend ▸ Path.blamed_cons hblamed) ?_
          rw [hdropLast, List.mem_cons, not_or]
          refine ⟨fun h => hinner ?_, hconstraints⟩
          obtain ⟨rfl, rfl⟩ := Prod.mk.inj h
          have hproperties : ∀ p ∈ requirement.parts, p.1 = "constraints" →
              p.2.nested? = some .properties := by decide
          exact Option.some.inj (hn.symm.trans (hproperties _ hp rfl))
      | constraint _ hproperties hblamed hconstraints =>
          exact .constraint hs (hend.trans hproperties) (Path.blamed_cons hblamed)
            (hdropLast ▸ List.mem_cons_of_mem _ hconstraints)

theorem Damage.mem_dropLast_iff (h : Damage shape fields fields' path fault) :
    (.jobItem, "computationTargetId") ∈ path.dropLast ↔ path.IntoTarget ∧ path.length ≠ 1 := by
  cases h with
  | deleted | replaced | property | text => simp
  | @inside _ _ _ _ shape inner name slot path _ hp hn hd =>
      have hinner := hd.jobItem_notMem (nested_ne_jobItem hp hn) "computationTargetId"
      have hlength : ((shape, name) :: path).length ≠ 1 := by simpa using hd.ne_nil
      rw [List.dropLast_cons_of_ne_nil hd.ne_nil, List.mem_cons, and_iff_left hlength,
        or_iff_left fun h => hinner ((List.dropLast_subset path) h)]
      constructor
      · intro h
        exact ⟨"computationTargetId", by simp, congrArg some h.symm⟩
      · rintro ⟨other, hother, hhead⟩
        obtain ⟨rfl, rfl⟩ := Prod.mk.inj (Option.some.inj hhead)
        have htype : ∀ p ∈ jobItem.parts, p.1 = "computationTargetType" → p.2.nested? = none := by
          decide
        have hname : name ≠ "computationTargetType" := fun h => by simp [htype _ hp h] at hn
        obtain rfl := List.mem_singleton.mp (List.mem_of_ne_of_mem hname hother)
        rfl

theorem Path.namedRightly_iff {n : String} {e : DecodeError} (he : fault.ReportedAs n e) :
    path.NamedRightly fault e ↔ path.blamed = some n ∨
      path.IntoTarget ∧ path.length = 1 ∧ n = "computationTargetSpecification" := by
  refine or_congr ⟨?_, fun h => ⟨n, h, he⟩⟩ (and_congr_right fun _ => and_congr_right fun _ => ?_)
  · rintro ⟨name, hname, hreported⟩
    rw [hname, hreported.unique he]
  · exact ⟨fun h => he.unique h, fun h => h ▸ he⟩

/-- The error names what is at fault unless the fault is of those that are reported otherwise. -/
theorem Damage.namedRightly_iff (h : Damage shape fields fields' path fault)
    (hs : shape ≠ .properties) {e : DecodeError} (he : fault.ReportedAs (path.reported fault) e) :
    path.NamedRightly fault e ↔ ¬path.Misreported fault := by
  rw [Path.namedRightly_iff he, Path.Misreported, h.mem_dropLast_iff]
  by_cases hinto : fault = .deleted ∧ path.IntoTarget
  · obtain ⟨rfl, hinto⟩ := hinto
    have hreported : path.reported .deleted = "computationTargetSpecification" :=
      if_pos ⟨rfl, hinto⟩
    cases h.ends with
    | field _ hblamed hconstraints =>
        simp [hreported, hblamed, h.ending_ne, hinto, hconstraints]
  · have hreported : path.reported fault = path.ending := if_neg hinto
    have hthrough : ¬(fault = .deleted ∧ path.IntoTarget ∧ path.length ≠ 1) :=
      fun h => hinto ⟨h.1, h.2.1⟩
    rw [hreported, or_iff_left fun h' => h.ending_ne h'.2.2, or_iff_left hthrough]
    cases h.ends with
    | property => exact absurd rfl hs
    | field _ hblamed hconstraints => simp [hblamed, hconstraints]
    | constraint _ hend hblamed hconstraints => simp [hblamed, hend, hconstraints]

namespace Codec

/-- Whatever travels is refused when a field of its message, at any depth, is taken out that has to
be there or holds what it does not take. The error names the field, or the field that holds the
properties if the fault is inside these, with two exceptions: inside the constraints of a
requirement it names properties, and what is missing in the identifier of the target of a job item
it reports as the target. Properties that travel alone have no field that could be named. -/
theorem faults_reported (shape : Shape) (fields fields' : List Field) (path : Path) (fault : Fault)
    (he : shape.Encodes fields) (h : Damage shape fields fields' path fault) :
    ∃ e, shape.Refuses ⟨fields'⟩ e ∧ fault.ReportedAs (path.reported fault) e ∧
      (shape ≠ .properties → (path.NamedRightly fault e ↔ ¬path.Misreported fault)) := by
  obtain ⟨e, hread, hreported⟩ := h.read_eq_error he
  exact ⟨e, shape.read_eq_error_iff.mp hread, hreported, fun hs => h.namedRightly_iff hs hreported⟩

namespace Sample

def dollars : Requirement := { price with constraints := Properties.none.permit "Currency" "USD" }

/-- The fields of a job item in front of the desired values, but for the scheme of its target. -/
def unidentified : List Field := [stringField "computationTargetType" "SECURITY",
  (some "computationTargetId", .message [stringField "value" "AAPL"]),
  stringField "functionUniqueIdentifier" "7", objectField "functionParameters" Parameters.empty,
  (some "valueInput", .longs [3, 1])]

/-- The fields of a requirement with a number among the texts of its constraints. -/
def spoiled : List Field := [stringField "valueName" "Price",
  stringField "computationTargetType" "SECURITY",
  objectField "computationTargetId" price.target.identifier,
  (some "constraints", .message [(some "Currency", .message [(none, .long 0)])])]

theorem damage_spoiled : Damage .requirement (Codec.fields dollars) spoiled
    [(.requirement, "constraints"), (.properties, "Currency")] .replaced :=
  .inside (spoiled.take 3) []
    (by decide : (_, Slot.message .properties) ∈ Shape.parts .requirement) rfl
    (.text [] [] [] [] (.string "USD") (.long 0) (by simp))

theorem damage_unidentified : Damage .jobItem (Codec.fields pricing)
    (unidentified ++ [objectField "desiredValue" price])
    [(.jobItem, "computationTargetId"), (.uniqueId, "scheme")] .deleted :=
  .inside (unidentified.take 1) (unidentified.drop 2 ++ [objectField "desiredValue" price])
    (by decide : (_, Slot.message .uniqueId) ∈ Shape.parts .jobItem) rfl
    (.deleted [] [stringField "value" "AAPL"] (.string "Ticker")
      (by decide : (_, Slot.string) ∈ Shape.parts .uniqueId) rfl)

def mistyped : List Field := [stringField "valueName" "Price",
  stringField "computationTargetType" "BOND",
  objectField "computationTargetId" price.target.identifier,
  objectField "constraints" dollars.constraints]

theorem damage_mistyped : Damage .requirement (Codec.fields dollars) mistyped
    [(.requirement, "computationTargetType")] .replaced :=
  .replaced (mistyped.take 1) (mistyped.drop 2) (.string "SECURITY") (.string "BOND")
    (by decide : (_, Slot.targetType) ∈ Shape.parts .requirement) rfl

end Sample

open Codec.Sample in
/-- A number among the texts of the constraints is not reported as a fault of the constraints, and a
missing scheme is not reported as such for the target of a job item. -/
theorem faults_misreported :
    (Damage .requirement (Codec.fields dollars) spoiled
        [(.requirement, "constraints"), (.properties, "Currency")] .replaced ∧
      ∀ e, (decode ⟨spoiled⟩ : Except DecodeError Requirement) = .error e →
        ¬Path.NamedRightly [(.requirement, "constraints"), (.properties, "Currency")] .replaced e) ∧
    (Damage .jobItem (Codec.fields pricing) (unidentified ++ [objectField "desiredValue" price])
        [(.jobItem, "computationTargetId"), (.uniqueId, "scheme")] .deleted ∧
      ∀ e, (decode ⟨unidentified ++ [objectField "desiredValue" price]⟩ :
          Except DecodeError JobItem) = .error e →
        ¬Path.NamedRightly [(.jobItem, "computationTargetId"), (.uniqueId, "scheme")]
          .deleted e) := by
  refine ⟨⟨damage_spoiled, fun e he => ?_⟩, damage_unidentified, fun e he => ?_⟩
  · have hreported : Fault.replaced.ReportedAs "properties" e :=
      ⟨"property `Currency` holds a non-string value", (Except.error.inj he).symm⟩
    exact mt (Path.namedRightly_iff hreported).mp (by decide)
  · have hreported : Fault.deleted.ReportedAs "computationTargetSpecification" e :=
      (Except.error.inj he).symm
    exact mt (Path.namedRightly_iff hreported).mp (by decide)

open Codec.Sample in
/-- Of two faults in one requirement the one in its target is reported by the name of the field, the
one in its constraints is not. -/
theorem requirement_refused :
    (∃ e, (decode ⟨mistyped⟩ : Except DecodeError Requirement) = .error e ∧
      Path.NamedRightly [(.requirement, "computationTargetType")] .replaced e) ∧
    ∃ e, (decode ⟨spoiled⟩ : Except DecodeError Requirement) = .error e ∧
      Fault.replaced.ReportedAs "properties" e := by
  obtain ⟨e, he, -, hnamed⟩ := faults_reported .requirement _ _ _ _ ⟨dollars, rfl⟩ damage_mistyped
  obtain ⟨e', he', hreported, -⟩ :=
    faults_reported .requirement _ _ _ _ ⟨dollars, rfl⟩ damage_spoiled
  exact ⟨⟨e, he, (hnamed (by decide)).mpr (by simp [Path.Misreported])⟩, e', he', hreported⟩

end Codec
end ValuationCycle.Wire
