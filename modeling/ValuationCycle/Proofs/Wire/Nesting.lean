import ValuationCycle.Proofs.Json.Nesting
import ValuationCycle.Proofs.Wire.Codecs

/-!
# How deep messages nest

A message whose payloads have no floats comes back from its text just as it was, as long as the
text nests no deeper than texts are read. Around the payload of a job item the text of the item
has eight levels, and nothing else in it nests deeper than that.
-/
namespace ValuationCycle
open Json

namespace Json.Document

theorem depth_record_singleton (name : String) (d : Document) :
    (record [(name, d)]).depth = d.depth + 1 := by
  simp [record, depth, depthOfMembers]

theorem depthOfItems_ints (ns : List Int64) :
    depthOfItems (ns.map fun n => .int n.toInt) = 0 := by
  induction ns with
  | nil => rfl
  | cons n ns ih =>
      rw [List.map_cons, depthOfItems, ih]
      rfl

end Json.Document

namespace Wire
namespace Content
open Document

mutual
def FloatFree : Content → Prop
  | json v => v.FloatFree
  | message fields => FloatFreeFields fields
  | string _ | long _ | longs _ => True

def FloatFreeFields : List (Option String × Content) → Prop
  | [] => True
  | (_, content) :: rest => FloatFree content ∧ FloatFreeFields rest
end

theorem depth_field (name : Option String) (content : Content) :
    (record [("name", Message.nameDocument name), ("value", content.toDocument)]).depth =
      content.toDocument.depth + 1 := by
  cases name <;> simp [record, Message.nameDocument, str, depth, depthOfMembers]

mutual
theorem reread?_of_floatFree {c : Content} (h : c.FloatFree) (levels : Nat) :
    c.reread? levels = if c.toDocument.depth ≤ levels then some c else none := by
  cases c with
  | string s =>
      rw [toDocument, depth_record_singleton, str, depth]
      cases levels <;> simp [reread?]
  | long n =>
      rw [toDocument, depth_record_singleton, int, depth]
      cases levels <;> simp [reread?]
  | longs ns =>
      rw [toDocument, depth_record_singleton, depth, depthOfItems_ints]
      match levels with
      | 0 | 1 | levels + 2 => simp [reread?]
  | message fields =>
      rw [toDocument, depth_record_singleton, depth_record_singleton, depth]
      match levels with
      | 0 | 1 | 2 => simp [reread?]
      | levels + 3 =>
          rw [reread?, rereadFields?_of_floatFree h levels]
          by_cases hle : depthOfItems (documentsOfFields fields) ≤ levels <;> simp [hle]
  | json v =>
      rw [toDocument, depth_record_singleton]
      cases levels with
      | zero => simp [reread?]
      | succ levels =>
          rw [reread?, Value.ofDocument?_toDocument h levels]
          by_cases hle : v.toDocument.depth ≤ levels <;> simp [hle]

theorem rereadFields?_of_floatFree {fields : List (Option String × Content)}
    (h : FloatFreeFields fields) (levels : Nat) : rereadFields? levels fields =
      if depthOfItems (documentsOfFields fields) ≤ levels then some fields else none := by
  cases fields with
  | nil => simp [documentsOfFields, rereadFields?, depthOfItems]
  | cons field rest =>
      obtain ⟨name, content⟩ := field
      rw [Message.documentsOfFields_cons, depthOfItems, depth_field]
      cases levels with
      | zero => simp [rereadFields?]
      | succ levels =>
          rw [rereadFields?, reread?_of_floatFree h.1 levels,
            rereadFields?_of_floatFree h.2 (levels + 1)]
          simp only [Nat.max_le, Nat.add_le_add_iff_right]
          by_cases hcontent : content.toDocument.depth ≤ levels <;>
            by_cases hrest : depthOfItems (documentsOfFields rest) ≤ levels + 1 <;>
            simp [hcontent, hrest]
end

end Content

def Message.FloatFree (m : Message) : Prop := Content.FloatFreeFields m.fields

theorem Message.nesting_text (m : Message) :
    nesting m.text = Document.depthOfItems (Content.documentsOfFields m.fields) + 2 := by
  rw [text, Json.nesting_text, toDocument, Document.depth_record_singleton, Document.depth]

theorem receivedPayload?_of_floatFree {v : Value} (h : v.FloatFree) :
    receivedPayload? v = if nesting v.text ≤ 119 then some v else none := by
  rw [receivedPayload?, Value.ofDocument?_toDocument h, Value.text, nesting_text]

/-- Without floats, a message comes back from its text as it was if the text nests at most 127
levels and is refused as malformed otherwise, and a job item does so if its payload nests at
most 119 levels. -/
theorem ofText_text_eq_ite_nesting :
    (∀ m : Message, m.FloatFree →
      Message.ofText m.text = if nesting m.text ≤ 127 then .ok m else .error .malformed) ∧
    ∀ j : JobItem, j.parameters.payload.FloatFree → Codec.ofText (Codec.text j) =
      if nesting j.parameters.payload.text ≤ 119 then .ok j else .error .malformed := by
  constructor
  · intro m hm
    rw [Message.ofText_text, Content.rereadFields?_of_floatFree hm, Message.nesting_text]
    by_cases hle : Document.depthOfItems (Content.documentsOfFields m.fields) ≤ 125
    · rw [if_pos hle, if_pos (by omega)]
    · rw [if_neg hle, if_neg (by omega)]
  · intro j hj
    rw [ofText_text_jobItem, receivedPayload?_of_floatFree hj]
    by_cases hle : nesting j.parameters.payload.text ≤ 119
    · rw [if_pos hle, if_pos hle]
    · rw [if_neg hle, if_neg hle]

namespace Sample

/-- An array in an array and so on, so many of them. -/
def nested : Nat → Raw
  | 0 => .array []
  | n + 1 => .array [nested n]

theorem canonical_nested (n : Nat) : (nested n).Canonical := by
  induction n with
  | zero => exact trivial
  | succ n ih => exact ⟨ih, trivial⟩

theorem floatFree_nested (n : Nat) : (nested n).FloatFree := by
  induction n with
  | zero => exact trivial
  | succ n ih => exact ⟨ih, trivial⟩

theorem depth_nested (n : Nat) : (nested n).toDocument.depth = n + 1 := by
  induction n with
  | zero => rfl
  | succ n ih =>
      simp [nested, Raw.toDocument, Raw.documentsOfItems, Document.depth, Document.depthOfItems, ih]

def nestedValue (n : Nat) : Value := ⟨nested n, canonical_nested n⟩

theorem nesting_nestedValue (n : Nat) : nesting (nestedValue n).text = n + 1 :=
  (nesting_text _).trans (depth_nested n)

def bearer (v : Value) : Message := ⟨[(none, .json v)]⟩

theorem nesting_bearer (v : Value) : nesting (bearer v).text = v.toDocument.depth + 4 := by
  rw [Message.nesting_text, bearer, Message.documentsOfFields_cons, Document.depthOfItems,
    Content.depth_field, Content.toDocument, Document.depth_record_singleton,
    Content.documentsOfFields, Document.depthOfItems]
  omega

def itemOf (v : Value) : JobItem :=
  ⟨"1", ⟨"Curve", v⟩, ⟨.security, ⟨"Ticker", "AAPL", none⟩⟩, [], []⟩

end Sample

open Sample in
/-- Payloads just within the bounds come back, and with one level more they do not. -/
theorem bounds_are_sharp :
    (Message.ofText (bearer (nestedValue 122)).text = .ok (bearer (nestedValue 122)) ∧
      Message.ofText (bearer (nestedValue 123)).text = .error .malformed) ∧
    Codec.ofText (Codec.text (itemOf (nestedValue 118))) = .ok (itemOf (nestedValue 118)) ∧
      (Codec.ofText (Codec.text (itemOf (nestedValue 119))) : Except DecodeError JobItem) =
        .error .malformed := by
  have hbearer : ∀ n, (bearer (nestedValue n)).FloatFree := fun n => ⟨floatFree_nested n, trivial⟩
  have hnesting : ∀ n, nesting (bearer (nestedValue n)).text = n + 5 := fun n =>
    (nesting_bearer _).trans (congrArg (· + 4) (depth_nested n))
  have hitem : ∀ n, (itemOf (nestedValue n)).parameters.payload.FloatFree := floatFree_nested
  have hpayload : ∀ n, nesting (itemOf (nestedValue n)).parameters.payload.text = n + 1 :=
    nesting_nestedValue
  refine ⟨⟨?_, ?_⟩, ?_, ?_⟩
  · rw [ofText_text_eq_ite_nesting.1 _ (hbearer 122), hnesting, if_pos (by omega)]
  · rw [ofText_text_eq_ite_nesting.1 _ (hbearer 123), hnesting, if_neg (by omega)]
  · rw [ofText_text_eq_ite_nesting.2 _ (hitem 118), hpayload, if_pos (by omega)]
  · rw [ofText_text_eq_ite_nesting.2 _ (hitem 119), hpayload, if_neg (by omega)]

end Wire
end ValuationCycle
