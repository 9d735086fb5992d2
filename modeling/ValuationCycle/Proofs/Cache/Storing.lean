import ValuationCycle.Proofs.Cache.Source
import ValuationCycle.Workspace

/-!
# Storing values

Values stored under a hint that makes all of them private leave the shared
partition as it is, and so no other cache of the group sees them.
-/
namespace ValuationCycle
open Json Std

def lastValue? (values : List ComputedValue) (s : Specification) : Option Value :=
  values.reverse.findSome? fun v => if v.specification = s then some v.value else none

theorem lastValue?_cons (v : ComputedValue) (values : List ComputedValue) (s : Specification) :
    lastValue? (v :: values) s =
      (lastValue? values s).or (if v.specification = s then some v.value else none) := by
  simp [lastValue?, List.findSome?_append]

theorem lastValue?_eq_none {values : List ComputedValue} {s : Specification}
    (h : ∀ v ∈ values, v.specification ≠ s) : lastValue? values s = none := by
  rw [lastValue?, List.findSome?_eq_none_iff]
  intro v hv
  rw [if_neg (h v (List.mem_reverse.mp hv))]

theorem lastValue?_append (vs ws : List ComputedValue) (s : Specification) :
    lastValue? (vs ++ ws) s = (lastValue? ws s).or (lastValue? vs s) := by
  rw [lastValue?, List.reverse_append, List.findSome?_append]
  rfl

theorem exists_of_lastValue? {values : List ComputedValue} {s : Specification} {v : Value}
    (h : lastValue? values s = some v) : ∃ u ∈ values, u.specification = s ∧ u.value = v := by
  obtain ⟨u, hu, hv⟩ := List.exists_of_findSome?_eq_some h
  split at hv
  · next hs => exact ⟨u, List.mem_reverse.mp hu, hs, Option.some.inj hv⟩
  · simp at hv

theorem exists_lastValue? {values : List ComputedValue} {u : ComputedValue} (hu : u ∈ values) :
    ∃ v, lastValue? values u.specification = some v := by
  rw [← Option.isSome_iff_exists, lastValue?, List.findSome?_isSome_iff]
  exact ⟨u, List.mem_reverse.mpr hu, by simp⟩

/-- Among the values under some of all specifications the last one under each of these is the
last one of all. -/
theorem lastValue?_filter (p : Specification → Bool) (values : List ComputedValue)
    (s : Specification) : lastValue? (values.filter fun v => p v.specification) s =
      if p s then lastValue? values s else none := by
  induction values with
  | nil => simp [lastValue?]
  | cons v values ih =>
      rw [List.filter_cons]
      by_cases hs : v.specification = s
      · subst hs
        cases hp : p v.specification <;> simp [hp, lastValue?_cons, ih]
      · cases hp : p v.specification <;> simp [lastValue?_cons, ih, hs]

theorem lastValue?_ite_filter (c : Prop) [Decidable c] (p : Specification → Bool)
    (values : List ComputedValue) (s : Specification) :
    lastValue? (if c then values.filter fun v => p v.specification else []) s =
      if c ∧ p s then lastValue? values s else none := by
  by_cases hc : c
  · rw [if_pos hc, lastValue?_filter]
    simp only [hc, true_and]
  · rw [if_neg hc, if_neg fun h => hc h.1]
    rfl

theorem CacheHint.isPrivate_ofGraph {g : Graph} {s : Specification} :
    (ofGraph g).isPrivate s = true ↔ ∃ n ∈ g.nodes, n.isLive = false ∧ s ∈ n.outputs := by
  simp [ofGraph, isPrivate, and_assoc]

namespace Cache

theorem get?_congr {c d : Cache} {s : Specification} (hshared : c.sharedPart = d.sharedPart)
    (hprivate : c.privatePart[s]? = d.privatePart[s]?) : c.get? s = d.get? s := by
  rw [get?, get?, hshared, hprivate]

theorem mem_entries {c : Cache} {s : Specification} {v : Value} :
    (s, v) ∈ c.entries ↔ c.get? s = some v := by
  rw [entries, ← ExtTreeMap.insertMany_list_eq_foldl, ExtTreeMap.mem_toList_iff_getElem?_eq_some,
    get?]
  cases hs : c.privatePart[s]? with
  | some u =>
      rw [ExtTreeMap.getElem?_insertMany_list_of_mem ReflOrd.compare_self
        c.privatePart.distinct_keys_toList (ExtTreeMap.mem_toList_iff_getElem?_eq_some.mpr hs)]
      rfl
  | none =>
      rw [ExtTreeMap.getElem?_insertMany_list_of_contains_eq_false, Option.none_or]
      rw [ExtTreeMap.map_fst_toList_eq_keys, ← Bool.not_eq_true, List.contains_iff_mem,
        ExtTreeMap.mem_keys]
      exact fun hm => by simp [ExtTreeMap.getElem?_eq_some_getElem hm] at hs

theorem nodup_entries (c : Cache) : (c.entries.map Prod.fst).Nodup := by
  rw [entries, ExtTreeMap.map_fst_toList_eq_keys]
  exact ExtTreeMap.nodup_keys

/-- A value is stored in one partition under one specification. -/
theorem put_parts (hint : CacheHint) (v : ComputedValue) (c : Cache) (s : Specification) :
    (c.put hint v).privatePart[s]? =
        (if hint.isPrivate s ∧ v.specification = s then some v.value else none).or
          c.privatePart[s]? ∧
      (c.put hint v).sharedPart[s]? =
        (if ¬hint.isPrivate s ∧ v.specification = s then some v.value else none).or
          c.sharedPart[s]? := by
  unfold put
  by_cases hs : v.specification = s
  · subst hs
    by_cases hp : hint.isPrivate v.specification = true <;> simp [hp, putPrivate, putShared]
  · have hne : compare v.specification s ≠ .eq := fun he => hs (LawfulEqOrd.eq_of_compare he)
    by_cases hp : hint.isPrivate v.specification = true <;>
      simp [hp, hs, hne, putPrivate, putShared, ExtTreeMap.getElem?_insert]

/-- After values are stored, each partition shows the last of those that went there. -/
theorem putMany_parts (hint : CacheHint) (values : List ComputedValue) (c : Cache)
    (s : Specification) :
    (c.putMany hint values).privatePart[s]? =
        (if hint.isPrivate s then lastValue? values s else none).or c.privatePart[s]? ∧
      (c.putMany hint values).sharedPart[s]? =
        (if hint.isPrivate s then none else lastValue? values s).or c.sharedPart[s]? := by
  induction values generalizing c with
  | nil => simp [putMany, lastValue?]
  | cons v values ih =>
      have hcons : c.putMany hint (v :: values) = (c.put hint v).putMany hint values := rfl
      obtain ⟨hprivate, hshared⟩ := ih (c.put hint v)
      rw [hcons, hprivate, hshared, lastValue?_cons, (put_parts hint v c s).1,
        (put_parts hint v c s).2]
      by_cases hs : hint.isPrivate s = true <;> simp [hs, Option.or_assoc]

theorem putMany_private {hint : CacheHint} {values : List ComputedValue}
    (h : ∀ v ∈ values, hint.isPrivate v.specification = true) (c : Cache) :
    (c.putMany hint values).sharedPart = c.sharedPart ∧
      ∀ s, (c.putMany hint values).privatePart[s]? =
        (lastValue? values s).or c.privatePart[s]? := by
  have hnone : ∀ s, hint.isPrivate s ≠ true → lastValue? values s = none := fun s hs =>
    lastValue?_eq_none fun v hv he => hs (he ▸ h v hv)
  refine ⟨ExtTreeMap.ext_getElem? fun s => ?_, fun s => ?_⟩
  · rw [(putMany_parts hint values c s).2]
    by_cases hs : hint.isPrivate s = true <;> simp [hs, hnone]
  · rw [(putMany_parts hint values c s).1]
    by_cases hs : hint.isPrivate s = true <;> simp [hs, hnone]

end Cache

/-- Storing values through one handle, as all caches see it. -/
theorem CacheSource.update_putMany (s : CacheSource) (h k : CacheHandle) (hint : CacheHint)
    (values : List ComputedValue) (u : Specification) :
    ((s.update h fun c => c.putMany hint values).cache k).privatePart[u]? =
        (if h = k ∧ hint.isPrivate u then lastValue? values u else none).or
          (s.cache k).privatePart[u]? ∧
      ((s.update h fun c => c.putMany hint values).cache k).sharedPart[u]? =
        (if h.group = k.group ∧ !hint.isPrivate u then lastValue? values u else none).or
          (s.cache k).sharedPart[u]? := by
  constructor
  · by_cases hk : h = k
    · subst hk
      simp only [cache_update, (Cache.putMany_parts hint values _ u).1, true_and]
    · rw [if_neg fun hc => hk hc.1, privatePart_update_of_ne s _ (Ne.symm hk), Option.none_or]
  · rw [sharedPart_update]
    by_cases hg : h.group = k.group
    · rw [if_pos hg.symm, (Cache.putMany_parts hint values _ u).2, s.sharedPart_of_group hg.symm]
      cases hint.isPrivate u <;> simp [hg]
    · rw [if_neg (Ne.symm hg), if_neg fun hc => hg hc.1, Option.none_or]

namespace Workspace
variable (w : Workspace) (f : Cache → Cache) {h k : CacheHandle}

theorem sharedPart_of_group (hk : k.group = h.group) :
    (w.cache k).sharedPart = (w.cache h).sharedPart := w.caches.sharedPart_of_group hk

theorem cache_eq_empty (hs : k.group ∉ w.caches.shared) (hp : k ∉ w.caches.privates) :
    w.cache k = .empty := by
  rw [cache, CacheSource.cache, ExtTreeMap.getElem?_eq_none hs, ExtTreeMap.getElem?_eq_none hp]
  rfl

theorem cache_updateCache : (w.updateCache h f).cache h = f (w.cache h) := w.caches.cache_update f

theorem privatePart_updateCache_of_ne (hk : k ≠ h) :
    ((w.updateCache h f).cache k).privatePart = (w.cache k).privatePart :=
  w.caches.privatePart_update_of_ne f hk

theorem sharedPart_updateCache : ((w.updateCache h f).cache k).sharedPart =
    if k.group = h.group then (f (w.cache h)).sharedPart else (w.cache k).sharedPart :=
  w.caches.sharedPart_update f

/-- A change that leaves the shared partition alone is seen by no other cache. -/
theorem cache_updateCache_of_ne (hk : k ≠ h)
    (hf : (f (w.cache h)).sharedPart = (w.cache h).sharedPart) :
    (w.updateCache h f).cache k = w.cache k := by
  refine Cache.ext_getElem? ?_ fun s => by rw [privatePart_updateCache_of_ne w f hk]
  rw [sharedPart_updateCache, hf]
  split
  · next hg => exact (sharedPart_of_group w hg).symm
  · rfl

/-- Nothing is changed but the market and what the caches of one group hold. -/
structure Aside (group : CacheGroup) (w w' : Workspace) : Prop where
  repository_eq : w'.repository = w.repository
  identifiers_eq : w'.identifiers = w.identifiers
  releases_eq : w'.caches.releases = w.caches.releases
  cache_eq : ∀ k, k.group ≠ group → w'.cache k = w.cache k

theorem aside_refl (group : CacheGroup) : Aside group w w := ⟨rfl, rfl, rfl, fun _ _ => rfl⟩

variable {w} {w' w'' : Workspace} {group : CacheGroup}

theorem Aside.trans (h : Aside group w w') (h' : Aside group w' w'') : Aside group w w'' :=
  ⟨h'.repository_eq.trans h.repository_eq, h'.identifiers_eq.trans h.identifiers_eq,
    h'.releases_eq.trans h.releases_eq, fun k hk => (h'.cache_eq k hk).trans (h.cache_eq k hk)⟩

theorem aside_updateCache (hh : h.group = group) : Aside group w (w.updateCache h f) := by
  refine ⟨rfl, rfl, rfl, fun k hk => ?_⟩
  have hne : k.group ≠ h.group := fun he => hk (he.trans hh)
  refine Cache.ext_getElem? ?_ fun s => ?_
  · rw [sharedPart_updateCache, if_neg hne]
  · rw [privatePart_updateCache_of_ne w f fun he => hne (congrArg CacheHandle.group he)]

end Workspace
end ValuationCycle
