import ValuationCycle.Proofs.Json.Reading
import ValuationCycle.Wire.Message

/-!
# Reading messages from their text

A message comes back from its text with every opaque payload read once more from
the document it is written as; this fails where the text nests too deep, and
otherwise changes nothing but payloads.
-/
namespace ValuationCycle
open Json

namespace Json

theorem Reader.int64_int (levels : Nat) (n : Int64) :
    Reader.int64 levels (.int n.toInt) = some n := by
  have hlow := n.le_toInt
  have hhigh := n.toInt_lt
  have hrange : (decide (-9223372036854775808 ≤ n.toInt) &&
      decide (n.toInt < 9223372036854775808)) = true := by
    simp only [Bool.and_eq_true, decide_eq_true_eq]
    omega
  simp [int64, integer, Document.int, Numeral.toInt?_ofInt, Option.filter, hrange]

theorem Reader.list_int64 (levels : Nat) (ns : List Int64) :
    Reader.list Reader.int64 (levels + 1) (.array (ns.map fun n => .int n.toInt)) = some ns := by
  induction ns with
  | nil => rfl
  | cons n ns ih =>
      simp only [list, List.map_cons, List.mapM_cons, int64_int] at ih ⊢
      rw [ih]
      rfl

theorem Record.legible?_record (members : List (String × Document)) :
    Record.legible? (members.map fun m => (some m.1, m.2)) = some members := by
  induction members with
  | nil => rfl
  | cons m members ih =>
      simp only [legible?, List.map_cons, List.mapM_cons, Option.map_some] at ih ⊢
      rw [ih]
      rfl

/-- A record with all of its fields, each once, is read as it was written. -/
theorem Record.ofDocument?_record (names : List String) (members : List (String × Document))
    (levels : Nat) (hnames : members.map Prod.fst = names) (hnodup : names.Nodup) :
    Record.ofDocument? names (levels + 1) (.record members) = some ⟨levels, true, members⟩ := by
  have hfilter : members.filter (fun m => names.contains m.1) = members := by
    refine List.filter_eq_self.mpr fun m hm => ?_
    rw [List.contains_iff_mem, ← hnames]
    exact List.mem_map_of_mem hm
  change (Record.legible? (members.map fun m => (some m.1, m.2)) >>= fun all => _) = _
  rw [legible?_record]
  simp only [Option.bind_eq_bind, Option.bind_some, hfilter]
  rw [if_pos (hnames ▸ hnodup)]

end Json

namespace Wire

mutual
/-- A content as it is read from what it is written as. -/
def Content.reread? : Nat → Content → Option Content
  | _ + 1, .string s => some (.string s)
  | _ + 1, .long n => some (.long n)
  | _ + 2, .longs ns => some (.longs ns)
  | levels + 3, .message fields => (Content.rereadFields? levels fields).map .message
  | levels + 1, .json v => (Value.ofDocument? levels v.toDocument).map .json
  | _, _ => none

def Content.rereadFields? : Nat → List (Option String × Content) →
    Option (List (Option String × Content))
  | _, [] => some []
  | levels + 1, (name, content) :: rest =>
    match Content.reread? levels content, Content.rereadFields? (levels + 1) rest with
    | some content, some rest => some ((name, content) :: rest)
    | _, _ => none
  | 0, _ :: _ => none
end

namespace Message

def nameDocument (name : Option String) : Document := (name.map Document.str).getD .null

theorem documentsOfFields_cons (name : Option String) (content : Content)
    (rest : List (Option String × Content)) :
    Content.documentsOfFields ((name, content) :: rest) =
      .record [("name", nameDocument name), ("value", content.toDocument)] ::
        Content.documentsOfFields rest := by
  cases name <;> rfl

theorem optional_name (levels : Nat) (name : Option String) (value : Document) :
    Record.optional ⟨levels, true, [("name", nameDocument name), ("value", value)]⟩ "name"
      Reader.string = some name := by
  cases name <;>
    simp [nameDocument, Record.optional, Reader.optional, Reader.string, Document.str]

theorem lookup_value (name value : Document) :
    [("name", name), ("value", value)].lookup "value" = some value := by
  rfl

theorem fieldsOfDocument?_record {levels : Nat} {items : List Document} :
    fieldsOfDocument? (levels + 2) (.record [("fields", .array items)]) =
      items.mapM (fieldOfDocument? levels) := by
  rw [fieldsOfDocument?, Record.ofDocument?_record ["fields"] _ _ rfl (by decide)]
  simp

theorem fieldsOfDocument?_shallow {levels : Nat} {items : List Document} (h : levels < 2) :
    fieldsOfDocument? levels (.record [("fields", .array items)]) = none := by
  match levels with
  | 0 | 1 => rfl

mutual
theorem contentOfDocument?_toDocument (levels : Nat) (c : Content) :
    contentOfDocument? levels c.toDocument = c.reread? levels := by
  cases levels with
  | zero =>
      cases c <;> rw [contentOfDocument?.eq_def, Content.reread?.eq_def]
  | succ levels =>
      cases c with
      | string s => rfl
      | long n =>
          change (Reader.int64 levels (.int n.toInt)).map Content.long = _
          rw [Reader.int64_int]
          rfl
      | longs ns =>
          change (Reader.list Reader.int64 levels (.array (ns.map fun n => .int n.toInt))).map
            Content.longs = _
          cases levels with
          | zero => rfl
          | succ levels =>
              rw [Reader.list_int64]
              rfl
      | message fields =>
          change (fieldsOfDocument? levels (.record
            [("fields", .array (Content.documentsOfFields fields))])).map Content.message = _
          match levels with
          | 0 => rw [fieldsOfDocument?_shallow (by decide)]; rfl
          | 1 => rw [fieldsOfDocument?_shallow (by decide)]; rfl
          | levels + 2 =>
              rw [fieldsOfDocument?_record, mapM_documentsOfFields levels fields]
              rfl
      | json v => rfl

theorem mapM_documentsOfFields (levels : Nat) (fields : List (Option String × Content)) :
    (Content.documentsOfFields fields).mapM (fieldOfDocument? levels) =
      Content.rereadFields? levels fields := by
  cases fields with
  | nil => rw [Content.rereadFields?]; rfl
  | cons field rest =>
      obtain ⟨name, content⟩ := field
      have ih := mapM_documentsOfFields levels rest
      rw [documentsOfFields_cons, List.mapM_cons, ih]
      cases levels with
      | zero => rw [fieldOfDocument?]; rfl
      | succ levels =>
          have hread : fieldOfDocument? (levels + 1)
              (.record [("name", nameDocument name), ("value", content.toDocument)]) =
              (content.reread? levels).map (name, ·) := by
            rw [fieldOfDocument?, Record.ofDocument?_record ["name", "value"] _ _ rfl (by decide)]
            simp only [Option.bind_eq_bind, Option.bind_some, optional_name, lookup_value,
              contentOfDocument?_toDocument levels content]
            cases content.reread? levels <;> rfl
          rw [hread, Content.rereadFields?]
          cases content.reread? levels with
          | none => rfl
          | some content =>
              cases Content.rereadFields? (levels + 1) rest <;> rfl
end

/-- A message is read from its text with its payloads read once more. -/
theorem ofText_text (m : Message) : ofText m.text =
    match Content.rereadFields? 125 m.fields with
    | some fields => .ok ⟨fields⟩
    | none => .error .malformed := by
  have h : Reader.text? ofDocument? m.text = (Content.rereadFields? 125 m.fields).map mk := by
    rw [Reader.text?, text, Document.parse?_text, Option.bind_some, ofDocument?, toDocument,
      depthLimit, fieldsOfDocument?_record, mapM_documentsOfFields]
  rw [ofText, h]
  cases Content.rereadFields? 125 m.fields <;> rfl

end Message

namespace Content

theorem rereadFields?_append (levels : Nat) (p q : List (Option String × Content)) :
    rereadFields? levels (p ++ q) =
      match rereadFields? levels p, rereadFields? levels q with
      | some p, some q => some (p ++ q)
      | _, _ => none := by
  induction p with
  | nil =>
      rw [List.nil_append, rereadFields?]
      cases rereadFields? levels q <;> rfl
  | cons field p ih =>
      obtain ⟨name, content⟩ := field
      cases levels with
      | zero => rw [List.cons_append, rereadFields?, rereadFields?]
      | succ levels =>
          rw [List.cons_append, rereadFields?, rereadFields?, ih]
          cases content.reread? levels with
          | none => rfl
          | some content =>
              cases rereadFields? (levels + 1) p <;> cases rereadFields? (levels + 1) q <;> rfl

theorem rereadFields?_eq_self {levels : Nat} {fields : List (Option String × Content)}
    (h : ∀ f ∈ fields, f.2.reread? levels = some f.2) :
    rereadFields? (levels + 1) fields = some fields := by
  induction fields with
  | nil => rw [rereadFields?]
  | cons field fields ih =>
      obtain ⟨name, content⟩ := field
      rw [rereadFields?, h (name, content) (by simp), ih fun f hf => h f (by simp [hf])]

end Content
end Wire
end ValuationCycle
