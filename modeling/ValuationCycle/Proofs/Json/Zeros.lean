import Mathlib.Tactic.Ring
import ValuationCycle.Proofs.Json.Reading
import ValuationCycle.Proofs.Json.Sameness

/-!
# Zeros of either sign

Values that stand for the same differ at most in the signs of their zeros, and where such a sign
differs, so does the text.
-/
namespace ValuationCycle

namespace Decimal.Binary64
variable {x y : Binary64}

/-- A magnitude has one mantissa and one shift: of two shifts the larger one would come with a
full mantissa, for which the other mantissa has no room. -/
theorem parts_eq_of_numerator_eq (h : x.numerator = y.numerator) :
    x.mantissa = y.mantissa ∧ x.shift = y.shift := by
  have hlt : ∀ {x y : Binary64}, x.numerator = y.numerator → ¬x.shift < y.shift := by
    intro x y h hlt
    obtain ⟨d, hd⟩ := Nat.exists_eq_add_of_lt hlt
    have hfull : 4503599627370496 ≤ y.mantissa := y.full.resolve_left (by omega)
    have hx := x.mantissa_lt
    have hmul : x.mantissa * 2 ^ x.shift = 2 * (y.mantissa * 2 ^ d) * 2 ^ x.shift := by
      change x.mantissa * 2 ^ x.shift = y.mantissa * 2 ^ y.shift at h
      rw [h, hd]
      ring
    have hcancel := Nat.eq_of_mul_eq_mul_right (Nat.two_pow_pos _) hmul
    have hle := Nat.le_mul_of_pos_right y.mantissa (Nat.two_pow_pos d)
    omega
  have hshift : x.shift = y.shift :=
    Nat.le_antisymm (Nat.not_lt.mp (hlt h.symm)) (Nat.not_lt.mp (hlt h))
  change x.mantissa * 2 ^ x.shift = y.mantissa * 2 ^ y.shift at h
  rw [hshift] at h
  exact ⟨Nat.eq_of_mul_eq_mul_right (Nat.two_pow_pos _) h, hshift⟩

theorem mantissa_eq_of_same (h : x.same y = true) : x.mantissa = y.mantissa := by
  simp only [same, Bool.and_eq_true, beq_iff_eq] at h
  exact (parts_eq_of_numerator_eq h.1).1

theorem eq_of_same (h : x.same y = true) (hsign : x.negative = y.negative) : x = y := by
  simp only [same, Bool.and_eq_true, beq_iff_eq] at h
  obtain ⟨hmantissa, hshift⟩ := parts_eq_of_numerator_eq h.1
  cases x
  cases y
  simp_all

/-- Other numbers than zero have the same sign if they stand for the same. -/
theorem negative_eq_of_same (h : x.same y = true) (hx : x.mantissa ≠ 0) :
    x.negative = y.negative := by
  simp only [same, numerator, Bool.and_eq_true, Bool.or_eq_true, beq_iff_eq] at h
  refine h.2.resolve_right fun hzero => ?_
  rcases Nat.mul_eq_zero.mp hzero with hm | hp
  · exact hx hm
  · exact absurd hp (Nat.two_pow_pos _).ne'

end Decimal.Binary64

namespace Json

theorem Document.text_injective {d e : Document} (h : d.text = e.text) : d = e :=
  Option.some.inj ((parse?_text d).symm.trans ((congrArg parse? h).trans (parse?_text e)))

namespace Raw

mutual
/-- The signs of the zeros in a tree from left to right, true for a negative one. -/
def zeroSigns : Raw → List Bool
  | float x => if x.mantissa = 0 then [x.negative] else []
  | array items => zeroSignsOfItems items
  | object members => zeroSignsOfMembers members
  | null | bool _ | int _ | string _ => []

def zeroSignsOfItems : List Raw → List Bool
  | [] => []
  | item :: rest => zeroSigns item ++ zeroSignsOfItems rest

def zeroSignsOfMembers : List (String × Raw) → List Bool
  | [] => []
  | (_, content) :: rest => zeroSigns content ++ zeroSignsOfMembers rest
end

mutual
theorem length_zeroSigns {a b : Raw} (h : a.same b = true) :
    a.zeroSigns.length = b.zeroSigns.length := by
  cases a with
  | float x =>
      cases b with
      | float y =>
          rw [zeroSigns, zeroSigns, Decimal.Binary64.mantissa_eq_of_same h]
          split <;> rfl
      | _ => simp [same] at h
  | array as =>
      cases b with
      | array bs => exact length_zeroSignsOfItems h
      | _ => simp [same] at h
  | object as =>
      cases b with
      | object bs => exact length_zeroSignsOfMembers h
      | _ => simp [same] at h
  | _ => cases b <;> simp_all [same, zeroSigns]
termination_by structural a

theorem length_zeroSignsOfItems {as bs : List Raw} (h : sameItems as bs = true) :
    (zeroSignsOfItems as).length = (zeroSignsOfItems bs).length := by
  cases as with
  | nil => cases bs <;> simp_all [sameItems]
  | cons a as =>
      cases bs with
      | nil => simp [sameItems] at h
      | cons b bs =>
          simp only [sameItems, Bool.and_eq_true] at h
          simp [zeroSignsOfItems, length_zeroSigns h.1, length_zeroSignsOfItems h.2]
termination_by structural as

theorem length_zeroSignsOfMembers {as bs : List (String × Raw)} (h : sameMembers as bs = true) :
    (zeroSignsOfMembers as).length = (zeroSignsOfMembers bs).length := by
  cases as with
  | nil => cases bs <;> simp_all [sameMembers]
  | cons a as =>
      obtain ⟨name, a⟩ := a
      cases bs with
      | nil => simp [sameMembers] at h
      | cons b bs =>
          simp only [sameMembers, Bool.and_eq_true] at h
          simp [zeroSignsOfMembers, length_zeroSigns h.1.2, length_zeroSignsOfMembers h.2]
termination_by structural as
end

mutual
/-- Trees that stand for the same and have the same zeros are equal. -/
theorem eq_of_same {a b : Raw} (h : a.same b = true) (hzeros : a.zeroSigns = b.zeroSigns) :
    a = b := by
  cases a with
  | float x =>
      cases b with
      | float y =>
          refine congrArg float (Decimal.Binary64.eq_of_same h ?_)
          by_cases hx : x.mantissa = 0
          · have hy : y.mantissa = 0 := Decimal.Binary64.mantissa_eq_of_same h ▸ hx
            simpa [zeroSigns, hx, hy] using hzeros
          · exact Decimal.Binary64.negative_eq_of_same h hx
      | _ => simp [same] at h
  | array as =>
      cases b with
      | array bs => exact congrArg array (items_eq_of_same h hzeros)
      | _ => simp [same] at h
  | object as =>
      cases b with
      | object bs => exact congrArg object (members_eq_of_same h hzeros)
      | _ => simp [same] at h
  | _ => cases b <;> simp_all [same, Subtype.ext_iff]
termination_by structural a

theorem items_eq_of_same {as bs : List Raw} (h : sameItems as bs = true)
    (hzeros : zeroSignsOfItems as = zeroSignsOfItems bs) : as = bs := by
  cases as with
  | nil => cases bs <;> simp_all [sameItems]
  | cons a as =>
      cases bs with
      | nil => simp [sameItems] at h
      | cons b bs =>
          simp only [sameItems, Bool.and_eq_true] at h
          obtain ⟨hfirst, hrest⟩ := List.append_inj hzeros (length_zeroSigns h.1)
          rw [eq_of_same h.1 hfirst, items_eq_of_same h.2 hrest]
termination_by structural as

theorem members_eq_of_same {as bs : List (String × Raw)} (h : sameMembers as bs = true)
    (hzeros : zeroSignsOfMembers as = zeroSignsOfMembers bs) : as = bs := by
  cases as with
  | nil => cases bs <;> simp_all [sameMembers]
  | cons a as =>
      obtain ⟨name, a⟩ := a
      cases bs with
      | nil => simp [sameMembers] at h
      | cons b bs =>
          obtain ⟨other, b⟩ := b
          simp only [sameMembers, Bool.and_eq_true, beq_iff_eq] at h
          obtain ⟨hfirst, hrest⟩ := List.append_inj hzeros (length_zeroSigns h.1.2)
          rw [h.1.1, eq_of_same h.1.2 hfirst, members_eq_of_same h.2 hrest]
termination_by structural as
end

theorem negative_ofFloat (x : Decimal.Binary64) : (Numeral.ofFloat x).negative = x.negative := rfl

mutual
theorem eq_of_toDocument_eq {a b : Raw} (h : a.same b = true) (hd : a.toDocument = b.toDocument) :
    a = b := by
  cases a with
  | float x =>
      cases b with
      | float y =>
          have hnumeral : Numeral.ofFloat x = Numeral.ofFloat y := by
            simpa [toDocument] using hd
          refine congrArg float (Decimal.Binary64.eq_of_same h ?_)
          rw [← negative_ofFloat, hnumeral, negative_ofFloat]
      | _ => simp [same] at h
  | array as =>
      cases b with
      | array bs =>
          exact congrArg array (eq_of_documentsOfItems_eq h (by simpa [toDocument] using hd))
      | _ => simp [same] at h
  | object as =>
      cases b with
      | object bs =>
          exact congrArg object (eq_of_documentsOfMembers_eq h (by simpa [toDocument] using hd))
      | _ => simp [same] at h
  | _ => cases b <;> simp_all [same, Subtype.ext_iff]
termination_by structural a

theorem eq_of_documentsOfItems_eq {as bs : List Raw} (h : sameItems as bs = true)
    (hd : documentsOfItems as = documentsOfItems bs) : as = bs := by
  cases as with
  | nil => cases bs <;> simp_all [sameItems]
  | cons a as =>
      cases bs with
      | nil => simp [sameItems] at h
      | cons b bs =>
          simp only [sameItems, Bool.and_eq_true] at h
          obtain ⟨hfirst, hrest⟩ := List.cons.inj hd
          rw [eq_of_toDocument_eq h.1 hfirst, eq_of_documentsOfItems_eq h.2 hrest]
termination_by structural as

theorem eq_of_documentsOfMembers_eq {as bs : List (String × Raw)} (h : sameMembers as bs = true)
    (hd : documentsOfMembers as = documentsOfMembers bs) : as = bs := by
  cases as with
  | nil => cases bs <;> simp_all [sameMembers]
  | cons a as =>
      obtain ⟨name, a⟩ := a
      cases bs with
      | nil => simp [sameMembers] at h
      | cons b bs =>
          obtain ⟨other, b⟩ := b
          simp only [sameMembers, Bool.and_eq_true, beq_iff_eq] at h
          obtain ⟨hfirst, hrest⟩ := List.cons.inj hd
          rw [h.1.1, eq_of_toDocument_eq h.1.2 (Prod.mk.inj hfirst).2,
            eq_of_documentsOfMembers_eq h.2 hrest]
termination_by structural as
end

end Raw

namespace Value
variable {v w : Value}

def zeroSigns (v : Value) : List Bool := v.raw.zeroSigns

theorem eq_iff_zeroSigns_eq (h : v.same w = true) : v = w ↔ v.zeroSigns = w.zeroSigns := by
  refine ⟨fun he => he ▸ rfl, fun hzeros => ?_⟩
  obtain ⟨v, hv⟩ := v
  obtain ⟨w, hw⟩ := w
  obtain rfl : v = w := Raw.eq_of_same h hzeros
  rfl

/-- Values that stand for the same have the same text only if they are equal. -/
theorem text_eq_iff (h : v.same w = true) : v.text = w.text ↔ v = w := by
  refine ⟨fun ht => ?_, fun he => he ▸ rfl⟩
  obtain ⟨v, hv⟩ := v
  obtain ⟨w, hw⟩ := w
  obtain rfl : v = w := Raw.eq_of_toDocument_eq h (Document.text_injective ht)
  rfl

theorem length_zeroSigns (h : v.same w = true) : v.zeroSigns.length = w.zeroSigns.length :=
  Raw.length_zeroSigns h

end Value
end Json
end ValuationCycle
