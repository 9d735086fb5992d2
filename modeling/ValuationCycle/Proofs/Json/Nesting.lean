import ValuationCycle.Json.Record
import ValuationCycle.Proofs.Json.Reading

/-!
# How deep a text nests

The nesting of a text is the largest number of brackets that are open in it at one time. For a
text that a document was written as it is the depth of the document. A value is read at most
from as many levels as are allowed, and one without floats is then read as it was written.
-/
namespace ValuationCycle.Json
open Std

namespace Document

mutual
/-- The number of arrays and objects one within the other at the deepest place. -/
def depth : Document → Nat
  | array items => depthOfItems items + 1
  | object members => depthOfMembers members + 1
  | null | bool _ | number _ | string _ => 0

def depthOfItems : List Document → Nat
  | [] => 0
  | item :: rest => max (depth item) (depthOfItems rest)

def depthOfMembers : List (Option String × Document) → Nat
  | [] => 0
  | (_, content) :: rest => max (depth content) (depthOfMembers rest)
end

end Document

namespace Token

/-- The brackets that are open after a token, given how many were open before it. -/
def levelAfter (level : Nat) : Token → Nat
  | openArray | openObject => level + 1
  | closeArray | closeObject => level - 1
  | comma | colon | null | bool _ | number _ | string _ => level

/-- The largest number of brackets that are open at one time from a level on. -/
def highest (level : Nat) : List Token → Nat
  | [] => level
  | t :: ts => max level (highest (t.levelAfter level) ts)

theorem le_highest (level : Nat) (ts : List Token) : level ≤ highest level ts := by
  cases ts with
  | nil => exact Nat.le_refl _
  | cons t ts => exact Nat.le_max_left _ _

theorem highest_cons_of_eq {level : Nat} {t : Token} (h : t.levelAfter level = level)
    (ts : List Token) : highest level (t :: ts) = highest level ts := by
  rw [highest, h, Nat.max_eq_right (le_highest level ts)]

open Document

mutual
/-- A document rises by its depth and falls back to where it began. -/
theorem highest_tokens (d : Document) (level : Nat) (ts : List Token) :
    highest level (d.tokens ++ ts) = max (level + d.depth) (highest level ts) := by
  have hle := le_highest level ts
  cases d with
  | array items =>
      have hitems := highest_items items (level + 1) (.closeArray :: ts)
      simp only [tokens, List.cons_append, List.append_assoc, List.nil_append, depth]
      rw [highest, levelAfter, hitems, highest, levelAfter, Nat.add_sub_cancel]
      omega
  | object members =>
      have hmembers := highest_members members (level + 1) (.closeObject :: ts)
      simp only [tokens, List.cons_append, List.append_assoc, List.nil_append, depth]
      rw [highest, levelAfter, hmembers, highest, levelAfter, Nat.add_sub_cancel]
      omega
  | _ =>
      rw [tokens, depth, List.cons_append, List.nil_append, highest_cons_of_eq rfl]
      omega

theorem highest_items (items : List Document) (level : Nat) (ts : List Token) :
    highest level (separated (tokensOfItems items) ++ ts) =
      max (level + depthOfItems items) (highest level ts) := by
  have hle := le_highest level ts
  cases items with
  | nil =>
      rw [tokensOfItems, separated, List.nil_append, depthOfItems]
      omega
  | cons item rest =>
      cases rest with
      | nil =>
          have hitem := highest_tokens item level ts
          simp only [tokensOfItems, separated, depthOfItems, hitem]
          omega
      | cons next rest =>
          have hrest := highest_items (next :: rest) level ts
          have hdepth : depthOfItems (item :: next :: rest) =
              max item.depth (depthOfItems (next :: rest)) := rfl
          change highest level ((item.tokens ++
            .comma :: separated (tokensOfItems (next :: rest))) ++ ts) = _
          rw [List.append_assoc, List.cons_append, highest_tokens item, highest_cons_of_eq rfl,
            hrest, hdepth]
          omega

theorem highest_members (members : List (Option String × Document)) (level : Nat)
    (ts : List Token) : highest level (separated (tokensOfMembers members) ++ ts) =
      max (level + depthOfMembers members) (highest level ts) := by
  have hle := le_highest level ts
  cases members with
  | nil =>
      rw [tokensOfMembers, separated, List.nil_append, depthOfMembers]
      omega
  | cons member rest =>
      obtain ⟨name, content⟩ := member
      cases rest with
      | nil =>
          have hcontent := highest_tokens content level ts
          simp only [tokensOfMembers, separated, depthOfMembers, List.cons_append,
            highest_cons_of_eq (show (string name).levelAfter level = level from rfl),
            highest_cons_of_eq (show colon.levelAfter level = level from rfl), hcontent]
          omega
      | cons next rest =>
          have hrest := highest_members (next :: rest) level ts
          have hdepth : depthOfMembers ((name, content) :: next :: rest) =
              max content.depth (depthOfMembers (next :: rest)) := rfl
          change highest level (.string name :: .colon :: ((content.tokens ++
            .comma :: separated (tokensOfMembers (next :: rest))) ++ ts)) = _
          rw [highest_cons_of_eq rfl, highest_cons_of_eq rfl, List.append_assoc, List.cons_append,
            highest_tokens content, highest_cons_of_eq rfl, hrest, hdepth]
          omega
end

end Token

/-- The largest number of brackets that are open at one time in a text; none if the text is not
made of tokens. -/
def nesting (s : String) : Nat := ((Token.lex? s.toList).map (Token.highest 0)).getD 0

theorem nesting_text (d : Document) : nesting d.text = d.depth := by
  have hhighest := Token.highest_tokens d 0 []
  rw [List.append_nil, Token.highest] at hhighest
  rw [nesting, Document.text, String.toList_ofList,
    Token.lex?_flatMap_chars (Document.isChain_tokens d), Option.map_some, Option.getD_some,
    hhighest]
  omega

namespace Raw

mutual
def FloatFree : Raw → Prop
  | float _ => False
  | array items => FloatFreeItems items
  | object members => FloatFreeMembers members
  | null | bool _ | int _ | string _ => True

def FloatFreeItems : List Raw → Prop
  | [] => True
  | item :: rest => FloatFree item ∧ FloatFreeItems rest

def FloatFreeMembers : List (String × Raw) → Prop
  | [] => True
  | (_, content) :: rest => FloatFree content ∧ FloatFreeMembers rest
end

theorem number?_ofInt (n : Integer) : (Numeral.ofInt n.val).number? = some (.int n) := by
  rw [Numeral.number?, Numeral.toInt?_ofInt]
  exact dif_pos n.property

theorem insertMember_of_lt {name : String} {content : Raw} {held : List (String × Raw)}
    (h : ∀ m ∈ held, compare m.1 name = .lt) :
    insertMember name content held = held ++ [(name, content)] := by
  induction held with
  | nil => rfl
  | cons m held ih =>
      obtain ⟨other, kept⟩ := m
      have hother : compare name other = .gt := OrientedCmp.gt_of_lt (h (other, kept) (by simp))
      rw [insertMember, hother, ih fun m hm => h m (by simp [hm])]
      rfl

mutual
/-- A tree is read back from its document exactly where the levels suffice. -/
theorem ofDocument?_toDocument {r : Raw} (hf : r.FloatFree) (hc : r.Canonical) (levels : Nat) :
    ofDocument? levels r.toDocument = if r.toDocument.depth ≤ levels then some r else none := by
  cases r with
  | float x => exact absurd hf id
  | int n => simp [toDocument, Document.int, ofDocument?, number?_ofInt, ofNumber, Document.depth]
  | array items =>
      rw [toDocument, Document.depth]
      cases levels with
      | zero => simp [ofDocument?]
      | succ levels =>
          rw [ofDocument?, itemsOfDocuments?_documentsOfItems hf hc levels]
          by_cases h : Document.depthOfItems (documentsOfItems items) ≤ levels <;> simp [h]
  | object members =>
      rw [toDocument, Document.depth]
      cases levels with
      | zero => simp [ofDocument?]
      | succ levels =>
          rw [ofDocument?, membersOfDocuments?_documentsOfMembers hf hc.2 hc.1 (by simp) levels]
          by_cases h : Document.depthOfMembers (documentsOfMembers members) ≤ levels <;> simp [h]
  | _ => simp [toDocument, Document.str, ofDocument?, Document.depth]

theorem itemsOfDocuments?_documentsOfItems {items : List Raw} (hf : FloatFreeItems items)
    (hc : CanonicalItems items) (levels : Nat) :
    itemsOfDocuments? levels (documentsOfItems items) =
      if Document.depthOfItems (documentsOfItems items) ≤ levels then some items else none := by
  cases items with
  | nil => simp [documentsOfItems, itemsOfDocuments?, Document.depthOfItems]
  | cons item rest =>
      rw [documentsOfItems, itemsOfDocuments?, ofDocument?_toDocument hf.1 hc.1 levels,
        itemsOfDocuments?_documentsOfItems hf.2 hc.2 levels, Document.depthOfItems]
      simp only [Nat.max_le]
      by_cases hitem : item.toDocument.depth ≤ levels <;>
        by_cases hrest : Document.depthOfItems (documentsOfItems rest) ≤ levels <;>
        simp [hitem, hrest]

theorem membersOfDocuments?_documentsOfMembers {held members : List (String × Raw)}
    (hf : FloatFreeMembers members) (hc : CanonicalMembers members)
    (hs : members.Pairwise fun a b => compare a.1 b.1 = .lt)
    (hheld : ∀ m ∈ held, ∀ n ∈ members, compare m.1 n.1 = .lt) (levels : Nat) :
    membersOfDocuments? levels held (documentsOfMembers members) =
      if Document.depthOfMembers (documentsOfMembers members) ≤ levels then some (held ++ members)
      else none := by
  cases members with
  | nil => simp [documentsOfMembers, membersOfDocuments?, Document.depthOfMembers]
  | cons member rest =>
      obtain ⟨name, content⟩ := member
      obtain ⟨hhead, hrest⟩ := List.pairwise_cons.mp hs
      have hafter : ∀ m ∈ held ++ [(name, content)], ∀ n ∈ rest, compare m.1 n.1 = .lt := by
        intro m hm n hn
        rcases List.mem_append.mp hm with hm | hm
        · exact hheld m hm n (by simp [hn])
        · exact List.mem_singleton.mp hm ▸ hhead n hn
      have hinsert : insertMember name content held = held ++ [(name, content)] :=
        insertMember_of_lt fun m hm => hheld m hm (name, content) (by simp)
      rw [documentsOfMembers, membersOfDocuments?, ofDocument?_toDocument hf.1 hc.1 levels,
        Document.depthOfMembers]
      simp only [Nat.max_le]
      by_cases hcontent : content.toDocument.depth ≤ levels
      · have ih := membersOfDocuments?_documentsOfMembers hf.2 hc.2 hrest hafter levels
        simp [hcontent, hinsert, ih]
      · simp [hcontent]
end

end Raw

namespace Value

def FloatFree (v : Value) : Prop := v.raw.FloatFree

theorem ofDocument?_toDocument {v : Value} (h : v.FloatFree) (levels : Nat) :
    ofDocument? levels v.toDocument = if v.toDocument.depth ≤ levels then some v else none := by
  have hraw := Raw.ofDocument?_toDocument h v.canonical levels
  change Raw.ofDocument? levels v.toDocument =
    if v.toDocument.depth ≤ levels then some v.raw else none at hraw
  unfold ofDocument?
  split
  · next raw hr =>
      rw [hr] at hraw
      split at hraw
      · next hle =>
          obtain rfl := Option.some.inj hraw
          rw [if_pos hle]
      · simp at hraw
  · next hr =>
      rw [hr] at hraw
      split at hraw
      · simp at hraw
      · next hle => rw [if_neg hle]

end Value
end ValuationCycle.Json
