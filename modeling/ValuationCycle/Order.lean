import Std.Data.ExtTreeMap
import Std.Data.ExtTreeSet

/-!
# Orders by a key

Records are ordered by their fields, one after the other, and enumerations by
position. Such an order compares a key, and tells different things apart when
the key does.
-/
namespace ValuationCycle
open Std

/-- An order by a key that determines the thing is lawful. -/
theorem lawfulEqCmp_compareOn {α β : Type} [Ord β] [LawfulEqOrd β] {f : α → β}
    (hf : ∀ a b, f a = f b → a = b) : LawfulEqCmp (compareOn f) where
  compare_self := ReflOrd.compare_self
  eq_of_compare {a b} h := hf a b (LawfulEqOrd.eq_of_compare h)

/-- Two lawful orders, the second deciding where the first does not, are lawful
when equality under both is equality. -/
theorem lawfulEqCmp_compareLex {α : Type} {c₁ c₂ : α → α → Ordering} [ReflCmp c₁] [ReflCmp c₂]
    (h : ∀ a b, c₁ a b = .eq → c₂ a b = .eq → a = b) : LawfulEqCmp (compareLex c₁ c₂) where
  compare_self := by simp [compareLex, ReflCmp.compare_self]
  eq_of_compare {a b} hc := by
    simp only [compareLex_eq_eq] at hc
    exact h a b hc.1 hc.2

theorem eq_of_compareOn {α β : Type} [Ord β] [LawfulEqOrd β] {f : α → β} {a b : α}
    (h : compareOn f a b = .eq) : f a = f b := LawfulEqOrd.eq_of_compare h

end ValuationCycle
