import Mathlib.Algebra.Order.Ring.Nat
import Mathlib.Data.List.Perm.Subperm
import ValuationCycle.Cache.Identifiers

/-!
# Numbers of specifications

Numbers come about by asking for them, one after the other. However many are
asked for, and by whom, a number that a specification has once got leads back to
that specification, as long as the numbers do not run out.
-/
namespace ValuationCycle
open Std

namespace Identifiers

inductive Issued : Identifiers → Prop
  | empty : Issued empty
  | identify {m : Identifiers} (s : Specification) : Issued m → Issued (m.identify s).1

/-- The two directions belong together. -/
structure Sound (m : Identifiers) : Prop where
  nodup : m.assigned.Nodup
  find?_iff : ∀ s n, m.find? s = some n ↔ ∃ k, m.assigned[k]? = some s ∧ n = Int64.ofNat (k + 1)

theorem sound_empty : empty.Sound := ⟨List.nodup_nil, by simp [find?, empty]⟩

/-- Looking again before assigning comes to the same as asking at once. -/
theorem assign_eq_identify (m : Identifiers) (s : Specification) : m.assign s = m.identify s := by
  cases hs : m.find? s <;> simp [assign, identify, hs]

theorem identify_of_find? {m : Identifiers} {s : Specification} {n : Int64}
    (h : m.find? s = some n) : m.identify s = (m, n) := by
  simp [identify, h]

theorem identify_of_find?_none {m : Identifiers} {s : Specification} (h : m.find? s = none) :
    m.identify s = (⟨m.assigned ++ [s], m.numbers.insert s (Int64.ofNat (m.size + 1))⟩,
      Int64.ofNat (m.size + 1)) := by
  simp [identify, assign, h]

theorem find?_identify (m : Identifiers) (s : Specification) :
    (m.identify s).1.find? s = some (m.identify s).2 := by
  cases hs : m.find? s with
  | some n => rwa [identify_of_find? hs]
  | none =>
      rw [identify_of_find?_none hs]
      simp [find?]

namespace Sound
variable {m : Identifiers} {s : Specification} {n : Int64}

theorem mem_assigned (h : m.Sound) : s ∈ m.assigned ↔ ∃ n, m.find? s = some n := by
  rw [List.mem_iff_getElem?]
  constructor
  · rintro ⟨k, hk⟩
    exact ⟨_, (h.find?_iff s _).mpr ⟨k, hk, rfl⟩⟩
  · rintro ⟨n, hn⟩
    obtain ⟨k, hk, -⟩ := (h.find?_iff s n).mp hn
    exact ⟨k, hk⟩

theorem notMem_assigned (h : m.Sound) (hs : m.find? s = none) : s ∉ m.assigned := by
  intro hm
  obtain ⟨n, hn⟩ := h.mem_assigned.mp hm
  simp [hs] at hn

theorem assign (h : m.Sound) (hs : m.find? s = none) :
    Sound ⟨m.assigned ++ [s], m.numbers.insert s (Int64.ofNat (m.size + 1))⟩ := by
  have hnew := h.notMem_assigned hs
  refine ⟨?_, fun t n => ?_⟩
  · exact List.nodup_append.mpr ⟨h.nodup, by simp, by
      rintro a ha b hb rfl
      exact hnew (List.mem_singleton.mp hb ▸ ha)⟩
  · have hnone : ∀ k, m.assigned[k]? ≠ some s := fun k hk => hnew (List.mem_of_getElem? hk)
    rw [find?, ExtTreeMap.getElem?_insert]
    by_cases ht : s = t
    · subst ht
      simp only [LawfulEqOrd.compare_eq_iff_eq, reduceIte, Option.some.injEq]
      constructor
      · rintro rfl
        exact ⟨m.size, by simp [size], rfl⟩
      · rintro ⟨k, hk, rfl⟩
        rcases Nat.lt_trichotomy k m.assigned.length with hlt | rfl | hlt
        · rw [List.getElem?_append_left hlt] at hk
          exact absurd hk (hnone k)
        · rfl
        · rw [List.getElem?_eq_none (by simp; omega)] at hk
          simp at hk
    · rw [if_neg fun he => ht (LawfulEqOrd.eq_of_compare he)]
      refine (h.find?_iff t n).trans (exists_congr fun k => and_congr_left fun _ => ?_)
      rw [List.getElem?_append]
      split
      · rfl
      · rw [List.getElem?_eq_none (by omega)]
        simp only [reduceCtorEq, false_iff]
        intro hk
        have := List.mem_of_getElem? hk
        exact ht (List.mem_singleton.mp this).symm

theorem identify (h : m.Sound) (s : Specification) : (m.identify s).1.Sound := by
  cases hs : m.find? s with
  | some n => rwa [identify_of_find? hs]
  | none =>
      rw [identify_of_find?_none hs]
      exact h.assign hs

theorem specification?_eq (h : m.Sound) (hsize : m.size < 2 ^ 63) (hs : m.find? s = some n) :
    m.specification? n = some s := by
  obtain ⟨k, hk, rfl⟩ := (h.find?_iff s n).mp hs
  have hlt : k < m.assigned.length := (List.getElem?_eq_some_iff.mp hk).choose
  have hint : (Int64.ofNat (k + 1)).toInt = ((k + 1 : Nat) : Int) :=
    Int64.toInt_ofNat_of_lt (by unfold size at hsize; omega)
  rw [specification?, hint, if_neg (by omega)]
  simpa using hk

end Sound

theorem Issued.sound {m : Identifiers} (h : m.Issued) : m.Sound := by
  induction h with
  | empty => exact sound_empty
  | identify s _ ih => exact ih.identify s

theorem assigned_identify (m : Identifiers) (s : Specification) :
    m.assigned <+: (m.identify s).1.assigned := by
  cases hs : m.find? s with
  | some n =>
      have hsame : (m.identify s).1 = m := by rw [identify_of_find? hs]
      exact hsame.symm ▸ List.prefix_refl _
  | none =>
      rw [identify_of_find?_none hs]
      exact List.prefix_append _ _

theorem assigned_identify_subset {m : Identifiers} {s : Specification}
    {known : List Specification} (h : m.assigned ⊆ known) (hs : s ∈ known) :
    (m.identify s).1.assigned ⊆ known := by
  cases hf : m.find? s with
  | some n => rwa [identify_of_find? hf]
  | none =>
      rw [identify_of_find?_none hf]
      simpa using ⟨h, hs⟩

theorem specification?_mono {m m' : Identifiers} {n : Int64} {s : Specification}
    (h : m.assigned <+: m'.assigned) (hs : m.specification? n = some s) :
    m'.specification? n = some s := by
  unfold specification? at hs ⊢
  split
  · next hn => simp [hn] at hs
  · next hn =>
      rw [if_neg hn] at hs
      obtain ⟨rest, he⟩ := h
      have hlt := (List.getElem?_eq_some_iff.mp hs).choose
      rw [← he, List.getElem?_append_left hlt, hs]

theorem Sound.size_le {m : Identifiers} (h : m.Sound) {known : List Specification}
    (hk : m.assigned ⊆ known) : m.size ≤ known.length := (h.nodup.subperm hk).length_le

namespace Sound
variable {m m' : Identifiers} {s s' : Specification} {n : Int64}

theorem mem_assigned_identify (h : m.Sound) :
    s' ∈ (m.identify s).1.assigned ↔ s' ∈ m.assigned ∨ s' = s := by
  cases hs : m.find? s with
  | some n =>
      rw [identify_of_find? hs, or_iff_left_of_imp]
      rintro rfl
      exact h.mem_assigned.mpr ⟨n, hs⟩
  | none => simp [identify_of_find?_none hs]

theorem find?_mono (h : m.Sound) (h' : m'.Sound) (hm : m.assigned <+: m'.assigned)
    (hs : m.find? s = some n) : m'.find? s = some n := by
  obtain ⟨k, hk, rfl⟩ := (h.find?_iff s n).mp hs
  obtain ⟨rest, he⟩ := hm
  have hlt := (List.getElem?_eq_some_iff.mp hk).choose
  exact (h'.find?_iff s _).mpr ⟨k, by rw [← he, List.getElem?_append_left hlt, hk], rfl⟩

/-- The two directions are inverse to each other. -/
theorem specification?_eq_some_iff (h : m.Sound) (hsize : m.size < 2 ^ 63) :
    m.specification? n = some s ↔ m.find? s = some n := by
  refine ⟨fun hn => ?_, h.specification?_eq hsize⟩
  have hpos : ¬n.toInt ≤ 0 := fun hle => by simp [specification?, hle] at hn
  rw [specification?, if_neg hpos] at hn
  refine (h.find?_iff s n).mpr ⟨_, hn, ?_⟩
  rw [show n.toInt.toNat - 1 + 1 = n.toInt.toNat by omega, ← Int64.ofInt_eq_ofNat,
    Int.toNat_of_nonneg (by omega), Int64.ofInt_toInt]

end Sound

/-- Numbers from one to the size stand for specifications, no others do. -/
theorem specification?_eq_none_iff {m : Identifiers} {n : Int64} :
    m.specification? n = none ↔ n.toInt ≤ 0 ∨ m.size < n.toInt := by
  unfold specification? size
  split
  · next hn => simp [hn]
  · next hn =>
      rw [List.getElem?_eq_none_iff]
      omega

end Identifiers
end ValuationCycle
