import ValuationCycle.Cache.Source

/-!
# What a source does to its caches

Opening a cache changes no value in any. Changing one cache reaches the others of its group
through the partition that they share, and reaches no cache of another group. Releasing a view
at a time changes no value either: it counts on, so that the next cache is opened in a new
group, and lets go of the caches of the groups before.
-/
namespace ValuationCycle
open Json Std

theorem Cache.ext_getElem? {c d : Cache} (hshared : c.sharedPart = d.sharedPart)
    (hprivate : ∀ s : Specification, c.privatePart[s]? = d.privatePart[s]?) : c = d := by
  cases c
  cases d
  simp only [mk.injEq]
  exact ⟨hshared, ExtTreeMap.ext_getElem? hprivate⟩

namespace CacheSource
variable (s : CacheSource) {h k : CacheHandle} (f : Cache → Cache)
variable (view other configuration : String) (t u : ValuationTime)

theorem releaseCount_release : (s.release view t).releaseCount other u =
    s.releaseCount other u + if view = other ∧ t = u then 1 else 0 := by
  change (((s.releases.insert view ((s.releases[view]?.getD ∅).insert t
    (s.releaseCount view t + 1)))[other]?.getD ∅)[u]?).getD 0 = _
  rw [ExtTreeMap.getElem?_insert]
  by_cases hv : view = other
  · subst hv
    rw [if_pos ReflOrd.compare_self, Option.getD_some, ExtTreeMap.getElem?_insert]
    by_cases ht : t = u
    · subst ht
      simp
    · rw [if_neg fun hc => ht (LawfulEqOrd.eq_of_compare hc), if_neg fun hc => ht hc.2]
      rfl
  · rw [if_neg fun hc => hv (LawfulEqOrd.eq_of_compare hc), if_neg fun hc => hv hc.1]
    rfl

theorem currentGroup_congr {s s' : CacheSource} (h : s'.releases = s.releases) (view : String)
    (t : ValuationTime) : s'.currentGroup view t = s.currentGroup view t := by
  rw [currentGroup, currentGroup, releaseCount, releaseCount, h]

theorem currentGroup_release_of_ne {t u : ValuationTime} (h : t ≠ u) (view other : String) :
    (s.release other t).currentGroup view u = s.currentGroup view u := by
  rw [currentGroup, currentGroup, releaseCount_release, if_neg fun he => h he.2, Nat.add_zero]

theorem cache_openCache : (s.openCache view t configuration).1.cache k = s.cache k := by
  refine Cache.ext_getElem? rfl fun v => ?_
  change ((s.privates.insertIfNew ⟨s.currentGroup view t, configuration⟩ ∅)[k]?.getD ∅)[v]? =
    (s.privates[k]?.getD ∅)[v]?
  rw [ExtTreeMap.getElem?_insertIfNew]
  split
  · next hk =>
      have hnone : s.privates[k]? = none := by
        rw [← LawfulEqOrd.eq_of_compare hk.1]
        exact ExtTreeMap.getElem?_eq_none hk.2
      rw [hnone]
      rfl
  · rfl

theorem cache_update : (s.update h f).cache h = f (s.cache h) := by
  simp [update, setCache, cache]

theorem update_update (g : Cache → Cache) :
    (s.update h f).update h g = s.update h fun c => g (f c) := by
  have hinsert {α : Type} [Ord α] [TransOrd α] [LawfulEqOrd α] (m : ExtTreeMap α Partition)
      (a : α) (x y : Partition) : (m.insert a x).insert a y = m.insert a y :=
    ExtTreeMap.ext_getElem? fun b => by
      simp only [ExtTreeMap.getElem?_insert]
      split <;> rfl
  rw [update, cache_update]
  simp only [update, setCache, hinsert]

theorem privatePart_update_of_ne (hk : k ≠ h) :
    ((s.update h f).cache k).privatePart = (s.cache k).privatePart := by
  have hne : compare h k ≠ .eq := fun he => hk (LawfulEqOrd.eq_of_compare he).symm
  change ((s.privates.insert h _)[k]?).getD ∅ = (s.privates[k]?).getD ∅
  rw [ExtTreeMap.getElem?_insert, if_neg hne]

theorem sharedPart_update : ((s.update h f).cache k).sharedPart =
    if k.group = h.group then (f (s.cache h)).sharedPart else (s.cache k).sharedPart := by
  change ((s.shared.insert h.group _)[k.group]?).getD ∅ = _
  rw [ExtTreeMap.getElem?_insert]
  by_cases hk : k.group = h.group
  · simp [hk]
  · rw [if_neg hk, if_neg fun he => hk (LawfulEqOrd.eq_of_compare he).symm]
    rfl

theorem sharedPart_of_group (hk : k.group = h.group) :
    (s.cache k).sharedPart = (s.cache h).sharedPart := by
  simp [cache, hk]

theorem mem_held : k ∈ s.held ↔
    k ∈ s.privates ∧ k.group.releases = s.releaseCount k.group.view k.group.time := by
  simp [held, isHeld]

/-- No cache is of a group that is still to come. -/
def Dated : Prop :=
  ∀ k ∈ s.privates, k.group.releases ≤ s.releaseCount k.group.view k.group.time

/-- Nothing is released, and only some caches are opened or changed. -/
structure Touches (p : CacheHandle → Prop) (s s' : CacheSource) : Prop where
  releases_eq : s'.releases = s.releases
  mem_privates : ∀ k ∈ s'.privates, k ∈ s.privates ∨ p k

section Touches
variable {s} {s' s'' : CacheSource} {p : CacheHandle → Prop}

theorem touches_refl (p : CacheHandle → Prop) (s : CacheSource) : Touches p s s :=
  ⟨rfl, fun _ hk => .inl hk⟩

theorem Touches.trans (h : Touches p s s') (h' : Touches p s' s'') : Touches p s s'' := by
  refine ⟨h'.releases_eq.trans h.releases_eq, fun k hk => ?_⟩
  rcases h'.mem_privates k hk with hk | hp
  · exact h.mem_privates k hk
  · exact .inr hp

theorem touches_openCache (hp : p (s.openCache view t configuration).2) :
    Touches p s (s.openCache view t configuration).1 := by
  refine ⟨rfl, fun k hk => ?_⟩
  change k ∈ s.privates.insertIfNew ⟨s.currentGroup view t, configuration⟩ ∅ at hk
  rw [ExtTreeMap.mem_insertIfNew, LawfulEqOrd.compare_eq_iff_eq] at hk
  rcases hk with rfl | hk
  · exact .inr hp
  · exact .inl hk

theorem touches_update (hp : p h) : Touches p s (s.update h f) := by
  refine ⟨rfl, fun k hk => ?_⟩
  change k ∈ s.privates.insert h _ at hk
  rw [ExtTreeMap.mem_insert, LawfulEqOrd.compare_eq_iff_eq] at hk
  rcases hk with rfl | hk
  · exact .inr hp
  · exact .inl hk

theorem Touches.releaseCount_eq (h : Touches p s s') :
    s'.releaseCount view t = s.releaseCount view t := by
  rw [releaseCount, releaseCount, h.releases_eq]

theorem Touches.mem_held (h : Touches p s s') (hk : k ∈ s'.held) :
    k ∈ s.held ∨ p k ∧ k.group.releases = s.releaseCount k.group.view k.group.time := by
  rw [CacheSource.mem_held, h.releaseCount_eq] at hk
  rcases h.mem_privates k hk.1 with hprivate | hp
  · exact .inl ((CacheSource.mem_held s).mpr ⟨hprivate, hk.2⟩)
  · exact .inr ⟨hp, hk.2⟩

end Touches

end CacheSource
end ValuationCycle
