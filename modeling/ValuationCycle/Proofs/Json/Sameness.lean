import ValuationCycle.Json.Value

/-!
# Values that stand for the same

Every value stands for the same as itself, two values stand for the same either way,
and what stands for the same as a third value stands for the same.
-/
namespace ValuationCycle

theorem Decimal.Binary64.same_trans {x y z : Binary64} (h : x.same y = true)
    (h' : y.same z = true) : x.same z = true := by
  simp only [same, Bool.and_eq_true, beq_iff_eq, Bool.or_eq_true] at h h' ⊢
  grind

namespace Json
namespace Raw

mutual
theorem same_refl (r : Raw) : r.same r = true := by
  cases r with
  | float x => exact Decimal.Binary64.same_refl x
  | array items => exact sameItems_refl items
  | object members => exact sameMembers_refl members
  | _ => simp [same]

theorem sameItems_refl (items : List Raw) : sameItems items items = true := by
  cases items with
  | nil => rfl
  | cons item rest => simp [sameItems, same_refl item, sameItems_refl rest]

theorem sameMembers_refl (members : List (String × Raw)) : sameMembers members members = true := by
  cases members with
  | nil => rfl
  | cons member rest =>
      obtain ⟨name, content⟩ := member
      simp [sameMembers, same_refl content, sameMembers_refl rest]
end

mutual
theorem same_symm {a b : Raw} (h : a.same b = true) : b.same a = true := by
  cases a with
  | float x =>
      cases b with
      | float y => exact (y.same_symm x).trans h
      | _ => simp [same] at h
  | array as =>
      cases b with
      | array bs => exact sameItems_symm h
      | _ => simp [same] at h
  | object as =>
      cases b with
      | object bs => exact sameMembers_symm h
      | _ => simp [same] at h
  | _ => cases b <;> simp_all [same]
termination_by structural a

theorem sameItems_symm {as bs : List Raw} (h : sameItems as bs = true) :
    sameItems bs as = true := by
  cases as with
  | nil => cases bs <;> simp_all [sameItems]
  | cons a as =>
      cases bs with
      | nil => simp [sameItems] at h
      | cons b bs =>
          simp only [sameItems, Bool.and_eq_true] at h ⊢
          exact ⟨same_symm h.1, sameItems_symm h.2⟩
termination_by structural as

theorem sameMembers_symm {as bs : List (String × Raw)} (h : sameMembers as bs = true) :
    sameMembers bs as = true := by
  cases as with
  | nil => cases bs <;> simp_all [sameMembers]
  | cons a as =>
      obtain ⟨name, a⟩ := a
      cases bs with
      | nil => simp [sameMembers] at h
      | cons b bs =>
          simp only [sameMembers, Bool.and_eq_true, beq_iff_eq] at h ⊢
          exact ⟨⟨h.1.1.symm, same_symm h.1.2⟩, sameMembers_symm h.2⟩
termination_by structural as
end

mutual
theorem same_trans {a b c : Raw} (h : a.same b = true) (h' : b.same c = true) :
    a.same c = true := by
  cases a with
  | null =>
      cases b with
      | null => exact h'
      | _ => simp [same] at h
  | bool x =>
      cases b with
      | bool y =>
          obtain rfl : x = y := by simpa [same] using h
          exact h'
      | _ => simp [same] at h
  | string x =>
      cases b with
      | string y =>
          obtain rfl : x = y := by simpa [same] using h
          exact h'
      | _ => simp [same] at h
  | int x =>
      cases b with
      | int y =>
          obtain rfl : x = y := Subtype.ext (by simpa [same] using h)
          exact h'
      | _ => simp [same] at h
  | float x =>
      cases b with
      | float y =>
          cases c with
          | float z => exact Decimal.Binary64.same_trans h h'
          | _ => simp [same] at h'
      | _ => simp [same] at h
  | array as =>
      cases b with
      | array bs =>
          cases c with
          | array cs => exact sameItems_trans h h'
          | _ => simp [same] at h'
      | _ => simp [same] at h
  | object as =>
      cases b with
      | object bs =>
          cases c with
          | object cs => exact sameMembers_trans h h'
          | _ => simp [same] at h'
      | _ => simp [same] at h
termination_by structural a

theorem sameItems_trans {as bs cs : List Raw} (h : sameItems as bs = true)
    (h' : sameItems bs cs = true) : sameItems as cs = true := by
  cases as with
  | nil => cases bs <;> simp_all [sameItems]
  | cons a as =>
      cases bs with
      | nil => simp [sameItems] at h
      | cons b bs =>
          cases cs with
          | nil => simp [sameItems] at h'
          | cons c cs =>
              simp only [sameItems, Bool.and_eq_true] at h h' ⊢
              exact ⟨same_trans h.1 h'.1, sameItems_trans h.2 h'.2⟩
termination_by structural as

theorem sameMembers_trans {as bs cs : List (String × Raw)} (h : sameMembers as bs = true)
    (h' : sameMembers bs cs = true) : sameMembers as cs = true := by
  cases as with
  | nil => cases bs <;> simp_all [sameMembers]
  | cons a as =>
      obtain ⟨name, a⟩ := a
      cases bs with
      | nil => simp [sameMembers] at h
      | cons b bs =>
          cases cs with
          | nil => simp [sameMembers] at h'
          | cons c cs =>
              simp only [sameMembers, Bool.and_eq_true, beq_iff_eq] at h h' ⊢
              exact ⟨⟨h.1.1.trans h'.1.1, same_trans h.1.2 h'.1.2⟩, sameMembers_trans h.2 h'.2⟩
termination_by structural as
end

end Raw

namespace Value

theorem same_refl (v : Value) : v.same v = true := v.raw.same_refl

theorem same_symm {v w : Value} (h : v.same w = true) : w.same v = true := Raw.same_symm h

theorem same_trans {u v w : Value} (h : u.same v = true) (h' : v.same w = true) :
    u.same w = true := Raw.same_trans h h'

end Value
end Json
end ValuationCycle
