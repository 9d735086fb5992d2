import ValuationCycle.Json.Number

/-!
# Values

A value is the content of a document: numbers have a value and the members of
an object are listed by increasing name, each name once. `Raw` is the bare tree
and `Value` a tree whose objects are in that form, so two texts that differ
only in the order of members have the same value. Values compare as `same`:
integers by value, floats by what they stand for (both zeros are equal), and an
integer never equals a float.

Reading a value from a document fails beyond a given number of levels, each
array or object taking one, and on names or strings without content.
-/
namespace ValuationCycle.Json
open Decimal

inductive Raw where
  | null
  | bool (value : Bool)
  | int (value : Integer)
  | float (value : Binary64)
  | string (content : String)
  | array (items : List Raw)
  | object (members : List (String × Raw))

namespace Raw

/-- The member list with one member set, kept in increasing order of names. -/
def insertMember (name : String) (content : Raw) : List (String × Raw) → List (String × Raw)
  | [] => [(name, content)]
  | (other, held) :: rest =>
    match compare name other with
    | .lt => (name, content) :: (other, held) :: rest
    | .eq => (name, content) :: rest
    | .gt => (other, held) :: insertMember name content rest

mutual
/-- Whether the members of every object are listed by increasing name. -/
def Canonical : Raw → Prop
  | array items => CanonicalItems items
  | object members =>
    members.Pairwise (fun a b => compare a.1 b.1 = .lt) ∧ CanonicalMembers members
  | _ => True

def CanonicalItems : List Raw → Prop
  | [] => True
  | item :: rest => Canonical item ∧ CanonicalItems rest

def CanonicalMembers : List (String × Raw) → Prop
  | [] => True
  | (_, content) :: rest => Canonical content ∧ CanonicalMembers rest
end

mutual
/-- Equality of what the trees stand for. -/
def same : Raw → Raw → Bool
  | null, null => true
  | bool a, bool b => a == b
  | int a, int b => a == b
  | float a, float b => a.same b
  | string a, string b => a == b
  | array as, array bs => sameItems as bs
  | object as, object bs => sameMembers as bs
  | _, _ => false

def sameItems : List Raw → List Raw → Bool
  | [], [] => true
  | a :: as, b :: bs => same a b && sameItems as bs
  | _, _ => false

def sameMembers : List (String × Raw) → List (String × Raw) → Bool
  | [], [] => true
  | (m, a) :: as, (n, b) :: bs => m == n && same a b && sameMembers as bs
  | _, _ => false
end

mutual
/-- Equality of the trees themselves, which tells the two zeros apart. -/
def identical : Raw → Raw → Bool
  | null, null => true
  | bool a, bool b => a == b
  | int a, int b => a == b
  | float a, float b => a == b
  | string a, string b => a == b
  | array as, array bs => identicalItems as bs
  | object as, object bs => identicalMembers as bs
  | _, _ => false

def identicalItems : List Raw → List Raw → Bool
  | [], [] => true
  | a :: as, b :: bs => identical a b && identicalItems as bs
  | _, _ => false

def identicalMembers : List (String × Raw) → List (String × Raw) → Bool
  | [], [] => true
  | (m, a) :: as, (n, b) :: bs => m == n && identical a b && identicalMembers as bs
  | _, _ => false
end

mutual
theorem identical_iff {a b : Raw} : identical a b = true ↔ a = b := by
  match a with
  | null => cases b <;> simp [identical]
  | bool _ => cases b <;> simp [identical]
  | int _ => cases b <;> simp [identical, Subtype.ext_iff]
  | float _ => cases b <;> simp [identical]
  | string _ => cases b <;> simp [identical]
  | array as => cases b <;> simp [identical, identicalItems_iff]
  | object as => cases b <;> simp [identical, identicalMembers_iff]

theorem identicalItems_iff {as bs : List Raw} : identicalItems as bs = true ↔ as = bs := by
  match as, bs with
  | [], [] | [], _ :: _ | _ :: _, [] => simp [identicalItems]
  | a :: as, b :: bs => simp [identicalItems, identical_iff, identicalItems_iff]

theorem identicalMembers_iff {as bs : List (String × Raw)} :
    identicalMembers as bs = true ↔ as = bs := by
  match as, bs with
  | [], [] | [], _ :: _ | _ :: _, [] => simp [identicalMembers]
  | (m, a) :: as, (n, b) :: bs =>
    simp [identicalMembers, identical_iff, identicalMembers_iff]
end

instance : DecidableEq Raw := fun _ _ => decidable_of_iff _ identical_iff

mutual
def toDocument : Raw → Document
  | null => .null
  | bool b => .bool b
  | int n => .int n.val
  | float x => .number (.ofFloat x)
  | string s => .str s
  | array items => .array (documentsOfItems items)
  | object members => .object (documentsOfMembers members)

def documentsOfItems : List Raw → List Document
  | [] => []
  | item :: rest => toDocument item :: documentsOfItems rest

def documentsOfMembers : List (String × Raw) → List (Option String × Document)
  | [] => []
  | (name, content) :: rest => (some name, toDocument content) :: documentsOfMembers rest
end

def ofNumber : Number → Raw
  | .int n => int n
  | .float x => float x

mutual
def ofDocument? : Nat → Document → Option Raw
  | _, .null => some null
  | _, .bool b => some (bool b)
  | _, .number n => n.number?.map ofNumber
  | _, .string s => s.map string
  | 0, .array _ => none
  | levels + 1, .array items => (itemsOfDocuments? levels items).map array
  | 0, .object _ => none
  | levels + 1, .object members => (membersOfDocuments? levels [] members).map object

def itemsOfDocuments? (levels : Nat) : List Document → Option (List Raw)
  | [] => some []
  | item :: rest =>
    match ofDocument? levels item, itemsOfDocuments? levels rest with
    | some item, some rest => some (item :: rest)
    | _, _ => none

/-- The members read so far with those of a document added; a name that comes
again takes the later content. -/
def membersOfDocuments? (levels : Nat) (held : List (String × Raw)) :
    List (Option String × Document) → Option (List (String × Raw))
  | [] => some held
  | (some name, content) :: rest =>
    match ofDocument? levels content with
    | some content => membersOfDocuments? levels (insertMember name content held) rest
    | none => none
  | (none, _) :: _ => none
end

theorem mem_insertMember {name : String} {content : Raw} {members : List (String × Raw)}
    {m : String × Raw} (h : m ∈ insertMember name content members) :
    m = (name, content) ∨ m ∈ members := by
  induction members with
  | nil => simpa [insertMember] using h
  | cons head rest ih =>
    obtain ⟨other, held⟩ := head
    simp only [insertMember] at h
    split at h <;> simp only [List.mem_cons] at h ⊢ <;> grind

theorem pairwise_insertMember {name : String} {content : Raw} {members : List (String × Raw)}
    (h : members.Pairwise (fun a b => compare a.1 b.1 = .lt)) :
    (insertMember name content members).Pairwise (fun a b => compare a.1 b.1 = .lt) := by
  induction members with
  | nil => simp [insertMember]
  | cons head rest ih =>
    obtain ⟨other, held⟩ := head
    obtain ⟨hhead, hrest⟩ := List.pairwise_cons.mp h
    simp only [insertMember]
    split
    · next hlt =>
      refine List.pairwise_cons.mpr ⟨?_, h⟩
      intro m hm
      rcases List.mem_cons.mp hm with rfl | hm
      · exact hlt
      · exact Std.TransCmp.lt_trans hlt (hhead m hm)
    · next heq =>
      refine List.pairwise_cons.mpr ⟨fun m hm => ?_, hrest⟩
      rw [Std.TransCmp.congr_left heq]
      exact hhead m hm
    · next hgt =>
      refine List.pairwise_cons.mpr ⟨fun m hm => ?_, ih hrest⟩
      rcases mem_insertMember hm with rfl | hm
      · exact Std.OrientedCmp.lt_of_gt hgt
      · exact hhead m hm

theorem canonicalMembers_iff {members : List (String × Raw)} :
    CanonicalMembers members ↔ ∀ m ∈ members, Canonical m.2 := by
  induction members with
  | nil => simp [CanonicalMembers]
  | cons head rest ih => simp [CanonicalMembers, ih]

theorem canonicalMembers_insertMember {name : String} {content : Raw}
    {members : List (String × Raw)} (hc : Canonical content) (hm : CanonicalMembers members) :
    CanonicalMembers (insertMember name content members) := by
  rw [canonicalMembers_iff] at hm ⊢
  intro m h
  rcases mem_insertMember h with rfl | h
  · exact hc
  · exact hm m h

mutual
theorem canonical_of_ofDocument? {levels : Nat} {d : Document} {r : Raw}
    (h : ofDocument? levels d = some r) : Canonical r := by
  match levels, d with
  | _, .null | _, .bool _ =>
    simp only [ofDocument?, Option.some.injEq] at h
    subst h
    exact trivial
  | _, .number n =>
    simp only [ofDocument?, Option.map_eq_some_iff] at h
    obtain ⟨n, -, rfl⟩ := h
    cases n <;> exact trivial
  | _, .string s =>
    simp only [ofDocument?, Option.map_eq_some_iff] at h
    obtain ⟨s, -, rfl⟩ := h
    exact trivial
  | 0, .array _ | 0, .object _ => simp [ofDocument?] at h
  | levels + 1, .array items =>
    simp only [ofDocument?, Option.map_eq_some_iff] at h
    obtain ⟨items, hi, rfl⟩ := h
    exact canonicalItems_of_itemsOfDocuments? hi
  | levels + 1, .object members =>
    simp only [ofDocument?, Option.map_eq_some_iff] at h
    obtain ⟨members, hm, rfl⟩ := h
    exact canonical_of_membersOfDocuments? hm (by simp) trivial

theorem canonicalItems_of_itemsOfDocuments? {levels : Nat} {ds : List Document} {items : List Raw}
    (h : itemsOfDocuments? levels ds = some items) : CanonicalItems items := by
  match ds with
  | [] =>
    simp only [itemsOfDocuments?, Option.some.injEq] at h
    subst h
    exact trivial
  | d :: ds =>
    simp only [itemsOfDocuments?] at h
    split at h
    · next hd hds =>
      obtain rfl := Option.some.inj h
      exact ⟨canonical_of_ofDocument? hd, canonicalItems_of_itemsOfDocuments? hds⟩
    · simp at h

theorem canonical_of_membersOfDocuments? {levels : Nat} {held members : List (String × Raw)}
    {ds : List (Option String × Document)} (h : membersOfDocuments? levels held ds = some members)
    (hs : held.Pairwise (fun a b => compare a.1 b.1 = .lt)) (hc : CanonicalMembers held) :
    members.Pairwise (fun a b => compare a.1 b.1 = .lt) ∧ CanonicalMembers members := by
  match ds with
  | [] =>
    simp only [membersOfDocuments?, Option.some.injEq] at h
    subst h
    exact ⟨hs, hc⟩
  | (some name, d) :: ds =>
    simp only [membersOfDocuments?] at h
    split at h
    · next hd =>
      exact canonical_of_membersOfDocuments? h (pairwise_insertMember hs)
        (canonicalMembers_insertMember (canonical_of_ofDocument? hd) hc)
    · simp at h
  | (none, _) :: _ => simp [membersOfDocuments?] at h
end

end Raw

/-- A tree whose objects list their members by increasing name. -/
structure Value where
  raw : Raw
  canonical : raw.Canonical
  deriving DecidableEq

namespace Value

def null : Value := ⟨.null, trivial⟩

def string (s : String) : Value := ⟨.string s, trivial⟩

def int (n : Integer) : Value := ⟨.int n, trivial⟩

def bool (b : Bool) : Value := ⟨.bool b, trivial⟩

def same (v w : Value) : Bool := v.raw.same w.raw

def toDocument (v : Value) : Document := v.raw.toDocument

def text (v : Value) : String := v.toDocument.text

def ofDocument? (levels : Nat) (d : Document) : Option Value :=
  match h : Raw.ofDocument? levels d with
  | some raw => some ⟨raw, Raw.canonical_of_ofDocument? h⟩
  | none => none

def int64? (v : Value) : Option Int :=
  match v.raw with
  | .int n => if n.val < 9223372036854775808 then some n.val else none
  | _ => none

/-- The content of a member, if the value is an object that has it. -/
def member? (v : Value) (name : String) : Option Value :=
  match v with
  | ⟨.object members, h⟩ =>
    match hm : members.find? (fun m => m.1 == name) with
    | some m => some ⟨m.2, Raw.canonicalMembers_iff.mp h.2 m (List.mem_of_find?_eq_some hm)⟩
    | none => none
  | _ => none

/-- The value with the content of one member set; a value that is no object has no
members and stays what it is. -/
def setMember (v : Value) (name : String) (content : Value) : Value :=
  match v with
  | ⟨.object members, h⟩ =>
    ⟨.object (Raw.insertMember name content.raw members), Raw.pairwise_insertMember h.1,
      Raw.canonicalMembers_insertMember content.canonical h.2⟩
  | v => v

end Value
end ValuationCycle.Json
