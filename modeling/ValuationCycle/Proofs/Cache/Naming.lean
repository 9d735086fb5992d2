import Mathlib.Logic.Function.Basic
import ValuationCycle.Cache.Pool
import ValuationCycle.Proofs.Cache.Lending

/-!
# Names of pooled caches

What a pool keeps by keys and lets go of is what a source names by counting releases. The stores
and caches of a pool can be given groups and handles for names, such that every call of the pool
is the call of the source with the name of the place, and both have the same values after it.
-/
namespace ValuationCycle
open Json Std

namespace CachePool
variable {p p' : CachePool} {call : CacheCall Nat} {calls later : List (CacheCall Nat)}

/-- A change through the place of a cache. Every cache was handed out when it was created. -/
def change? (p : CachePool) (place : Nat) (p' : CachePool) : Option CachePool :=
  if place < p.caches.length then some p' else none

/-- The effect of a call; there is none through a place that was not handed out. -/
def call? (p : CachePool) : CacheCall Nat → Option CachePool
  | .openCache view t configuration => some (p.openCache ⟨⟨view, t⟩, configuration⟩).1
  | .release view t => some (p.release ⟨view, t⟩)
  | .putShared i v => p.change? i (p.putShared i v)
  | .putPrivate i v => p.change? i (p.putPrivate i v)
  | .putMany i hint vs => p.change? i (p.putMany i hint vs)

def calls? (p : CachePool) (calls : List (CacheCall Nat)) : Option CachePool :=
  calls.foldlM call? p

theorem calls?_append : p.calls? (calls ++ later) = (p.calls? calls).bind fun p => p.calls? later :=
  List.foldlM_append ..

theorem calls?_cons : p.calls? (call :: calls) = (p.call? call).bind fun p => p.calls? calls :=
  List.foldlM_cons ..

theorem change?_eq_some {q : CachePool} {i : Nat} (h : p.change? i q = some p') :
    i < p.caches.length ∧ p' = q := by
  unfold change? at h
  split at h
  · next hi => exact ⟨hi, (Option.some.inj h).symm⟩
  · simp at h

theorem lt_of_call? (h : p.call? call = some p') {i : Nat} (hi : call.handle? = some i) :
    i < p.caches.length := by
  cases call with
  | openCache | release => simp [CacheCall.handle?] at hi
  | putShared | putPrivate | putMany =>
      obtain rfl := Option.some.inj hi
      exact (change?_eq_some h).1

/-- The same stores are kept and shared by the same caches, whatever is in them. -/
structure SameShape (p p' : CachePool) : Prop where
  stores_length : p'.stores.length = p.stores.length
  store?_eq : ∀ i, p'.store? i = p.store? i
  storeAt_eq : p'.storeAt = p.storeAt
  cacheAt_eq : p'.cacheAt = p.cacheAt

theorem sameShape_refl (p : CachePool) : SameShape p p := ⟨rfl, fun _ => rfl, rfl, rfl⟩

theorem SameShape.trans {p'' : CachePool} (h : SameShape p p') (h' : SameShape p' p'') :
    SameShape p p'' :=
  ⟨h'.stores_length.trans h.stores_length, fun i => (h'.store?_eq i).trans (h.store?_eq i),
    h'.storeAt_eq.trans h.storeAt_eq, h'.cacheAt_eq.trans h.cacheAt_eq⟩

theorem sameShape_putShared (p : CachePool) (i : Nat) (v : ComputedValue) :
    SameShape p (p.putShared i v) := by
  unfold putShared
  split
  · exact ⟨List.length_modify .., fun _ => rfl, rfl, rfl⟩
  · exact sameShape_refl p

theorem sameShape_putPrivate (p : CachePool) (i : Nat) (v : ComputedValue) :
    SameShape p (p.putPrivate i v) := by
  refine ⟨rfl, fun j => ?_, rfl, rfl⟩
  simp only [store?, putPrivate, List.getElem?_modify]
  cases p.caches[j]? with
  | none => rfl
  | some c => by_cases hij : i = j <;> simp [hij]

theorem sameShape_put (p : CachePool) (i : Nat) (hint : CacheHint) (v : ComputedValue) :
    SameShape p (p.put i hint v) := by
  unfold put
  split
  · exact sameShape_putPrivate p i v
  · exact sameShape_putShared p i v

theorem sameShape_putMany (p : CachePool) (i : Nat) (hint : CacheHint) (vs : List ComputedValue) :
    SameShape p (p.putMany i hint vs) := by
  induction vs generalizing p with
  | nil => exact sameShape_refl p
  | cons v vs ih => exact (sameShape_put p i hint v).trans (ih (p.put i hint v))

theorem SameShape.caches_length (h : SameShape p p') : p'.caches.length = p.caches.length := by
  have hstores : p'.caches.map PooledCache.store = p.caches.map PooledCache.store := by
    refine List.ext_getElem? fun i => ?_
    rw [List.getElem?_map, List.getElem?_map]
    exact h.store?_eq i
  simpa using congrArg List.length hstores

theorem store?_lt {i j : Nat} (h : p.store? i = some j) : j < p.stores.length := by
  obtain ⟨c, hc, rfl⟩ := Option.map_eq_some_iff.mp h
  exact p.store_lt c (List.mem_of_getElem? hc)

theorem exists_store? {i : Nat} (hi : i < p.caches.length) : ∃ j, p.store? i = some j :=
  ⟨_, congrArg (Option.map PooledCache.store) (List.getElem?_eq_getElem hi)⟩

theorem caches_openStore (key : StoreKey) : (p.openStore key).1.caches = p.caches := by
  unfold openStore
  split <;> rfl

theorem cacheAt_openStore (key : StoreKey) : (p.openStore key).1.cacheAt = p.cacheAt := by
  unfold openStore
  split <;> rfl

theorem length_openCache (key : CacheKey) :
    p.caches.length ≤ (p.openCache key).1.caches.length := by
  unfold openCache
  split
  · exact Nat.le_refl _
  · change _ ≤ ((p.openStore key.store).1.caches ++ [_]).length
    rw [caches_openStore, List.length_append]
    exact Nat.le_add_right ..

theorem call?_length (h : p.call? call = some p') : p.caches.length ≤ p'.caches.length := by
  cases call with
  | openCache view t configuration =>
      obtain rfl := Option.some.inj h
      exact length_openCache _
  | release =>
      obtain rfl := Option.some.inj h
      exact Nat.le_refl _
  | putShared i v =>
      obtain ⟨-, rfl⟩ := change?_eq_some h
      exact Nat.le_of_eq (sameShape_putShared p i v).caches_length.symm
  | putPrivate i v =>
      obtain ⟨-, rfl⟩ := change?_eq_some h
      exact Nat.le_of_eq (sameShape_putPrivate p i v).caches_length.symm
  | putMany i hint vs =>
      obtain ⟨-, rfl⟩ := change?_eq_some h
      exact Nat.le_of_eq (sameShape_putMany p i hint vs).caches_length.symm

theorem calls?_length (h : p.calls? calls = some p') : p.caches.length ≤ p'.caches.length := by
  induction calls generalizing p with
  | nil => exact Option.some.inj h ▸ Nat.le_refl _
  | cons call calls ih =>
      rw [calls?_cons] at h
      obtain ⟨next, hcall, h⟩ := Option.bind_eq_some_iff.mp h
      exact Nat.le_trans (call?_length hcall) (ih h)

theorem lt_of_calls? (h : p.calls? calls = some p') {call : CacheCall Nat} (hmem : call ∈ calls)
    {i : Nat} (hi : call.handle? = some i) : i < p'.caches.length := by
  induction calls generalizing p with
  | nil => simp at hmem
  | cons first calls ih =>
      rw [calls?_cons] at h
      obtain ⟨next, hcall, hrest⟩ := Option.bind_eq_some_iff.mp h
      rcases List.mem_cons.mp hmem with rfl | hmem
      · exact Nat.lt_of_lt_of_le (lt_of_call? hcall hi)
          (Nat.le_trans (call?_length hcall) (calls?_length hrest))
      · exact ih hrest hmem

theorem caches_putShared (i : Nat) (v : ComputedValue) : (p.putShared i v).caches = p.caches := by
  unfold putShared
  split <;> rfl

theorem stores_putShared {i j : Nat} (h : p.store? i = some j) (v : ComputedValue) :
    (p.putShared i v).stores =
      p.stores.modify j fun part => part.insert v.specification v.value := by
  unfold putShared
  split
  · next k hk =>
      obtain rfl := Option.some.inj (hk.symm.trans h)
      rfl
  · next hnone => exact absurd (hnone.symm.trans h) (Option.some_ne_none j).symm

end CachePool

theorem getElem?_concat_eq_some {α : Type} {xs : List α} {x y : α} {i : Nat}
    (h : (xs ++ [x])[i]? = some y) : xs[i]? = some y ∨ i = xs.length ∧ y = x := by
  rw [List.getElem?_append] at h
  split at h
  · exact .inl h
  · rw [List.getElem?_singleton, Option.ite_none_right_eq_some, Option.some.injEq] at h
    exact .inr ⟨by omega, h.2.symm⟩

/-- A table gives the places that have the names of its keys, of which no two are the same. -/
structure Tracks {κ α : Type} [Ord κ] [TransOrd κ] (t : ExtTreeMap κ Nat) (count : Nat)
    (named : Nat → α) (name : κ → α) : Prop where
  inj : ∀ i j, i < count → j < count → named i = named j → i = j
  getElem?_iff : ∀ key i, t[key]? = some i ↔ i < count ∧ named i = name key

namespace Tracks
variable {κ α : Type} [Ord κ] [TransOrd κ] {t : ExtTreeMap κ Nat} {count : Nat}
variable {named : Nat → α} {name : κ → α}

theorem ne_of_none (h : Tracks t count named name) {key : κ} (hnone : t[key]? = none) {i : Nat}
    (hi : i < count) : named i ≠ name key := fun he => by
  have hsome := (h.getElem?_iff key i).mpr ⟨hi, he⟩
  simp [hnone] at hsome

theorem insert [LawfulEqOrd κ] (h : Tracks t count named name)
    (hname : ∀ a b, name a = name b → a = b) {key : κ} (hnone : t[key]? = none) :
    Tracks (t.insert key count) (count + 1) (Function.update named count (name key)) name := by
  have hold : ∀ i, i < count → Function.update named count (name key) i = named i := fun i hi =>
    Function.update_of_ne (Nat.ne_of_lt hi) ..
  have hnew : Function.update named count (name key) count = name key := Function.update_self ..
  have hne := fun i => h.ne_of_none hnone (i := i)
  refine ⟨fun i j hi hj he => ?_, fun other i => ?_⟩
  · rcases Nat.lt_succ_iff_lt_or_eq.mp hi with hi | rfl <;>
      rcases Nat.lt_succ_iff_lt_or_eq.mp hj with hj | rfl
    · rw [hold i hi, hold j hj] at he
      exact h.inj i j hi hj he
    · rw [hold i hi, hnew] at he
      exact absurd he (hne i hi)
    · rw [hold j hj, hnew] at he
      exact absurd he.symm (hne j hj)
    · rfl
  · rw [ExtTreeMap.getElem?_insert, Nat.lt_succ_iff_lt_or_eq]
    by_cases hkey : key = other
    · subst hkey
      rw [if_pos ReflOrd.compare_self, Option.some.injEq]
      constructor
      · rintro rfl
        exact ⟨.inr rfl, hnew⟩
      · rintro ⟨hi | rfl, he⟩
        · exact absurd (hold i hi ▸ he) (hne i hi)
        · rfl
    · rw [if_neg fun he => hkey (LawfulEqOrd.eq_of_compare he), h.getElem?_iff]
      constructor
      · rintro ⟨hi, he⟩
        exact ⟨.inl hi, (hold i hi).trans he⟩
      · rintro ⟨hi | rfl, he⟩
        · exact ⟨hi, (hold i hi).symm.trans he⟩
        · exact absurd (hname _ _ (hnew.symm.trans he)) hkey

theorem filter [LawfulEqOrd κ] (h : Tracks t count named name) {renamed : κ → α} {kept : κ → Bool}
    (hkept : ∀ key, kept key = true → renamed key = name key)
    (hgone : ∀ key, kept key = false → ∀ i < count, named i ≠ renamed key) :
    Tracks (t.filter fun key _ => kept key) count named renamed := by
  refine ⟨h.inj, fun key i => ?_⟩
  rw [ExtTreeMap.getElem?_filter', Option.filter_eq_some_iff, h.getElem?_iff]
  cases hk : kept key with
  | true => simp [hkept key hk]
  | false => exact ⟨fun hc => by simp at hc, fun hc => absurd hc.2 (hgone key hk i hc.1)⟩

end Tracks

namespace CacheSource

def groupAt (s : CacheSource) (key : StoreKey) : CacheGroup := s.currentGroup key.view key.time

def handleAt (s : CacheSource) (key : CacheKey) : CacheHandle :=
  ⟨s.groupAt key.store, key.configuration⟩

theorem groupAt_inj (s : CacheSource) (a b : StoreKey) (h : s.groupAt a = s.groupAt b) : a = b := by
  rw [groupAt, groupAt, currentGroup, currentGroup, CacheGroup.mk.injEq] at h
  exact StoreKey.mk.injEq .. ▸ ⟨h.1, h.2.1⟩

theorem handleAt_inj (s : CacheSource) (a b : CacheKey) (h : s.handleAt a = s.handleAt b) :
    a = b := by
  rw [handleAt, handleAt, CacheHandle.mk.injEq] at h
  exact CacheKey.mk.injEq .. ▸ ⟨s.groupAt_inj _ _ h.1, h.2⟩

end CacheSource

/-- Groups for the places of stores and handles for the places of caches. -/
structure Naming where
  group : Nat → CacheGroup
  handle : Nat → CacheHandle

namespace Naming
variable {n : Naming} {p p' : CachePool} {l l' : Lending} {i : Nat}

/-- What is kept is what has a name of now, and a cache is named in the group of its store. -/
structure Named (n : Naming) (p : CachePool) (l : Lending) : Prop where
  stores : Tracks p.storeAt p.stores.length n.group l.source.groupAt
  caches : Tracks p.cacheAt p.caches.length n.handle l.source.handleAt
  group_of : ∀ i j, p.store? i = some j → n.group j = (n.handle i).group
  dated : ∀ i < p.stores.length,
    (n.group i).releases ≤ l.source.releaseCount (n.group i).view (n.group i).time
  handed : ∀ i < p.caches.length, n.handle i ∈ l.handles
  mem_privates : ∀ k, k ∈ l.source.privates ↔ ∃ i < p.caches.length, n.handle i = k
  mem_shared : ∀ g ∈ l.source.shared, ∃ i < p.stores.length, n.group i = g

/-- What lies at a place is what the source has under its name. -/
structure Filled (n : Naming) (p : CachePool) (s : CacheSource) : Prop where
  private_eq : ∀ i c, p.caches[i]? = some c → (s.cache (n.handle i)).privatePart = c.privatePart
  shared_eq : ∀ i part, p.stores[i]? = some part →
    ∀ k : CacheHandle, k.group = n.group i → (s.cache k).sharedPart = part

/-- A pool is what a source is under the names that count releases. -/
structure Represents (n : Naming) (p : CachePool) (l : Lending) : Prop
    extends n.Named p l, n.Filled p l.source

theorem Filled.congr {s s' : CacheSource} (hf : n.Filled p s)
    (h : ∀ k, s'.cache k = s.cache k) : n.Filled p s' := by
  refine ⟨fun i c hc => ?_, fun i part hpart k hk => ?_⟩
  · rw [h, hf.private_eq i c hc]
  · rw [h, hf.shared_eq i part hpart k hk]

theorem Named.cache_eq (hn : n.Named p l) (hf : n.Filled p l.source) (hi : i < p.caches.length) :
    p.cache i = l.source.cache (n.handle i) := by
  have hc := List.getElem?_eq_getElem hi
  have hstore : p.store? i = some p.caches[i].store := by rw [CachePool.store?, hc]; rfl
  have hpart := List.getElem?_eq_getElem (CachePool.store?_lt hstore)
  rw [CachePool.cache, hc]
  simp only [hpart, Option.getD_some, ← hf.private_eq i _ hc,
    ← hf.shared_eq _ _ hpart (n.handle i) (hn.group_of _ _ hstore).symm]

theorem Named.store?_eq_iff (hn : n.Named p l) {j : Nat} (hi : i < p.caches.length)
    (hj : j < p.caches.length) :
    p.store? i = p.store? j ↔ (n.handle i).group = (n.handle j).group := by
  obtain ⟨a, ha⟩ := CachePool.exists_store? hi
  obtain ⟨b, hb⟩ := CachePool.exists_store? hj
  rw [ha, hb, Option.some.injEq, ← hn.group_of i a ha, ← hn.group_of j b hb]
  exact ⟨congrArg n.group,
    hn.stores.inj a b (CachePool.store?_lt ha) (CachePool.store?_lt hb)⟩

/-- Names stay when values are stored. -/
theorem Named.update (hn : n.Named p l) (h : CachePool.SameShape p p') (hi : i < p.caches.length)
    (f : Cache → Cache) : n.Named p' { l with source := l.source.update (n.handle i) f } := by
  have hlen := h.caches_length
  refine ⟨?_, ?_, fun a b hab => hn.group_of a b (h.store?_eq a ▸ hab), ?_, ?_, fun k => ?_,
    fun g hg => ?_⟩
  · rw [h.storeAt_eq, h.stores_length]
    exact hn.stores
  · rw [h.cacheAt_eq, hlen]
    exact hn.caches
  · rw [h.stores_length]
    exact hn.dated
  · rw [hlen]
    exact hn.handed
  · rw [hlen, ← hn.mem_privates]
    change k ∈ l.source.privates.insert _ _ ↔ _
    rw [ExtTreeMap.mem_insert, LawfulEqOrd.compare_eq_iff_eq, or_iff_right_iff_imp]
    rintro rfl
    exact (hn.mem_privates _).mpr ⟨i, hi, rfl⟩
  · rw [h.stores_length]
    change g ∈ l.source.shared.insert _ _ at hg
    rw [ExtTreeMap.mem_insert, LawfulEqOrd.compare_eq_iff_eq] at hg
    rcases hg with rfl | hg
    · obtain ⟨a, ha⟩ := CachePool.exists_store? hi
      exact ⟨a, CachePool.store?_lt ha, hn.group_of i a ha⟩
    · exact hn.mem_shared g hg

theorem Filled.putPrivate (hn : n.Named p l) (hf : n.Filled p l.source)
    (hi : i < p.caches.length) (v : ComputedValue) :
    n.Filled (p.putPrivate i v) (l.source.update (n.handle i) fun c => c.putPrivate v) := by
  refine ⟨fun j c hc => ?_, fun j part hpart k hk => ?_⟩
  · change (p.caches.modify i _)[j]? = some c at hc
    rw [List.getElem?_modify] at hc
    obtain ⟨d, hd, rfl⟩ := Option.map_eq_some_iff.mp hc
    by_cases hij : i = j
    · subst hij
      rw [CacheSource.cache_update, if_pos rfl, ← hf.private_eq i d hd]
      rfl
    · have hj : j < p.caches.length := (List.getElem?_eq_some_iff.mp hd).1
      have hne : n.handle j ≠ n.handle i := fun he => hij (hn.caches.inj i j hi hj he.symm)
      rw [CacheSource.privatePart_update_of_ne _ _ hne, if_neg hij, hf.private_eq j d hd]
  · rw [CacheSource.sharedPart_update, ← hf.shared_eq j part hpart k hk]
    split
    · next hg => exact (l.source.sharedPart_of_group hg).symm
    · rfl

theorem Filled.putShared (hn : n.Named p l) (hf : n.Filled p l.source)
    (hi : i < p.caches.length) (v : ComputedValue) :
    n.Filled (p.putShared i v) (l.source.update (n.handle i) fun c => c.putShared v) := by
  obtain ⟨a, ha⟩ := CachePool.exists_store? hi
  refine ⟨fun j c hc => ?_, fun j part hpart k hk => ?_⟩
  · rw [CachePool.caches_putShared] at hc
    rw [← hf.private_eq j c hc]
    by_cases hne : n.handle j = n.handle i
    · rw [hne, CacheSource.cache_update]
      rfl
    · rw [CacheSource.privatePart_update_of_ne _ _ hne]
  · rw [CachePool.stores_putShared ha, List.getElem?_modify] at hpart
    obtain ⟨old, hold, rfl⟩ := Option.map_eq_some_iff.mp hpart
    have hj : j < p.stores.length := (List.getElem?_eq_some_iff.mp hold).1
    have hgroup : k.group = (n.handle i).group ↔ a = j := by
      rw [hk, ← hn.group_of i a ha]
      exact ⟨fun he => (hn.stores.inj j a hj (CachePool.store?_lt ha) he).symm,
        fun he => he ▸ rfl⟩
    rw [CacheSource.sharedPart_update]
    by_cases haj : a = j
    · rw [if_pos (hgroup.mpr haj), if_pos haj, ← hf.shared_eq j old hold (n.handle i)
        ((hgroup.mpr haj).symm.trans hk)]
      rfl
    · rw [if_neg fun he => haj (hgroup.mp he), if_neg haj, hf.shared_eq j old hold k hk]

theorem Filled.putMany (hn : n.Named p l) (hf : n.Filled p l.source) (hi : i < p.caches.length)
    (hint : CacheHint) (vs : List ComputedValue) : n.Filled (p.putMany i hint vs)
      (l.source.update (n.handle i) fun c => c.putMany hint vs) := by
  induction vs generalizing p l with
  | nil =>
      refine hf.congr fun k => Cache.ext_getElem? ?_ fun u => ?_
      · rw [CacheSource.sharedPart_update]
        split
        · next hg => exact (l.source.sharedPart_of_group hg).symm
        · rfl
      · by_cases hk : k = n.handle i
        · rw [hk, CacheSource.cache_update]
          rfl
        · rw [CacheSource.privatePart_update_of_ne _ _ hk]
  | cons v vs ih =>
      have hput : n.Filled (p.put i hint v)
          (l.source.update (n.handle i) fun c => c.put hint v) := by
        unfold CachePool.put Cache.put
        split
        · exact hf.putPrivate hn hi v
        · exact hf.putShared hn hi v
      have hshape := CachePool.sameShape_put p i hint v
      have hrest := ih (hn.update hshape hi fun c => c.put hint v) hput (hshape.caches_length ▸ hi)
      rwa [CacheSource.update_update] at hrest

/-- A store that is created has the group of now for a name. -/
def withStore (n : Naming) (p : CachePool) (g : CacheGroup) : Naming :=
  { n with group := Function.update n.group p.stores.length g }

def withCache (n : Naming) (p : CachePool) (k : CacheHandle) : Naming :=
  { n with handle := Function.update n.handle p.caches.length k }

theorem group_withStore_of_lt {g : CacheGroup} (hi : i < p.stores.length) :
    (n.withStore p g).group i = n.group i := Function.update_of_ne (Nat.ne_of_lt hi) ..

theorem group_withStore {g : CacheGroup} : (n.withStore p g).group p.stores.length = g :=
  Function.update_self ..

theorem handle_withCache_of_lt {k : CacheHandle} (hi : i < p.caches.length) :
    (n.withCache p k).handle i = n.handle i := Function.update_of_ne (Nat.ne_of_lt hi) ..

theorem handle_withCache {k : CacheHandle} : (n.withCache p k).handle p.caches.length = k :=
  Function.update_self ..

theorem Named.addStore (hn : n.Named p l) {key : StoreKey} (hnone : p.storeAt[key]? = none) :
    (n.withStore p (l.source.groupAt key)).Named (p.addStore key) l := by
  have hlen : (p.addStore key).stores.length = p.stores.length + 1 := List.length_append
  refine ⟨?_, hn.caches, fun a b hab => ?_, fun a ha => ?_, hn.handed, hn.mem_privates,
    fun g hg => ?_⟩
  · rw [hlen]
    exact hn.stores.insert l.source.groupAt_inj hnone
  · exact (group_withStore_of_lt (CachePool.store?_lt (p := p) hab)).trans (hn.group_of a b hab)
  · rw [hlen, Nat.lt_succ_iff_lt_or_eq] at ha
    rcases ha with ha | rfl
    · rw [group_withStore_of_lt ha]
      exact hn.dated a ha
    · rw [group_withStore]
      exact Nat.le_refl _
  · obtain ⟨a, ha, rfl⟩ := hn.mem_shared g hg
    exact ⟨a, hlen ▸ Nat.lt_succ_of_lt ha, group_withStore_of_lt ha⟩

theorem Filled.addStore (hn : n.Named p l) (hf : n.Filled p l.source) {key : StoreKey}
    (hnone : p.storeAt[key]? = none) :
    (n.withStore p (l.source.groupAt key)).Filled (p.addStore key) l.source := by
  refine ⟨hf.private_eq, fun j part hpart k hk => ?_⟩
  change (p.stores ++ [∅])[j]? = some part at hpart
  rcases getElem?_concat_eq_some hpart with hpart | ⟨rfl, rfl⟩
  · rw [group_withStore_of_lt (List.getElem?_eq_some_iff.mp hpart).1] at hk
    exact hf.shared_eq j part hpart k hk
  · rw [group_withStore] at hk
    have hnew : k.group ∉ l.source.shared := fun hmem => by
      obtain ⟨a, ha, he⟩ := hn.mem_shared _ hmem
      exact hn.stores.ne_of_none hnone ha (he.trans hk)
    rw [CacheSource.cache, ExtTreeMap.getElem?_eq_none hnew]
    rfl

theorem Represents.openStore (h : n.Represents p l) (key : StoreKey) :
    ∃ n' : Naming, n'.handle = n.handle ∧ n'.Represents (p.openStore key).1 l ∧
      n'.group (p.openStore key).2 = l.source.groupAt key := by
  unfold CachePool.openStore
  split
  · next place hplace =>
      exact ⟨n, rfl, h, ((h.stores.getElem?_iff key place).mp hplace).2⟩
  · next hnone =>
      exact ⟨n.withStore p (l.source.groupAt key), rfl,
        ⟨h.toNamed.addStore hnone, h.toFilled.addStore h.toNamed hnone⟩, group_withStore⟩

theorem Named.addCache (hn : n.Named p l) {key : CacheKey} {store : Nat}
    (hstore : store < p.stores.length) (hgroup : n.group store = l.source.groupAt key.store)
    (hnone : p.cacheAt[key]? = none) :
    (n.withCache p (l.source.handleAt key)).Named (p.addCache key store hstore)
      ⟨(l.source.openCache key.store.view key.store.time key.configuration).1,
        l.handles ++ [l.source.handleAt key]⟩ := by
  have hlen : (p.addCache key store hstore).caches.length = p.caches.length + 1 :=
    List.length_append
  refine ⟨hn.stores, ?_, fun a b hab => ?_, hn.dated, fun a ha => ?_, fun k => ?_, hn.mem_shared⟩
  · rw [hlen]
    exact hn.caches.insert l.source.handleAt_inj hnone
  · obtain ⟨c, hc, rfl⟩ := Option.map_eq_some_iff.mp hab
    rcases getElem?_concat_eq_some hc with hc | ⟨rfl, rfl⟩
    · rw [handle_withCache_of_lt (List.getElem?_eq_some_iff.mp hc).1]
      exact hn.group_of a c.store (congrArg (Option.map PooledCache.store) hc)
    · rw [handle_withCache]
      exact hgroup
  · rw [hlen, Nat.lt_succ_iff_lt_or_eq] at ha
    rcases ha with ha | rfl
    · rw [handle_withCache_of_lt ha]
      exact List.mem_append_left _ (hn.handed a ha)
    · rw [handle_withCache]
      exact List.mem_append_right _ List.mem_cons_self
  · change k ∈ l.source.privates.insertIfNew (l.source.handleAt key) ∅ ↔ _
    rw [ExtTreeMap.mem_insertIfNew, LawfulEqOrd.compare_eq_iff_eq, hn.mem_privates, hlen]
    constructor
    · rintro (rfl | ⟨a, ha, rfl⟩)
      · exact ⟨_, Nat.lt_succ_self _, handle_withCache⟩
      · exact ⟨a, Nat.lt_succ_of_lt ha, handle_withCache_of_lt ha⟩
    · rintro ⟨a, ha, rfl⟩
      rcases Nat.lt_succ_iff_lt_or_eq.mp ha with ha | rfl
      · exact .inr ⟨a, ha, (handle_withCache_of_lt ha).symm⟩
      · exact .inl handle_withCache.symm

theorem Filled.addCache (hn : n.Named p l) (hf : n.Filled p l.source) {key : CacheKey}
    {store : Nat} (hstore : store < p.stores.length) (hnone : p.cacheAt[key]? = none) :
    (n.withCache p (l.source.handleAt key)).Filled (p.addCache key store hstore) l.source := by
  refine ⟨fun j c hc => ?_, hf.shared_eq⟩
  rcases getElem?_concat_eq_some hc with hc | ⟨rfl, rfl⟩
  · rw [handle_withCache_of_lt (List.getElem?_eq_some_iff.mp hc).1]
    exact hf.private_eq j c hc
  · rw [handle_withCache]
    have hnew : l.source.handleAt key ∉ l.source.privates := fun hmem => by
      obtain ⟨a, ha, he⟩ := (hn.mem_privates _).mp hmem
      exact hn.caches.ne_of_none hnone ha he
    rw [CacheSource.cache, ExtTreeMap.getElem?_eq_none hnew]
    rfl

theorem Represents.openCache (h : n.Represents p l) (key : CacheKey) :
    ∃ n' : Naming, (∀ i < p.caches.length, n'.handle i = n.handle i) ∧
      n'.handle (p.openCache key).2 = l.source.handleAt key ∧
      n'.Represents (p.openCache key).1
        ⟨(l.source.openCache key.store.view key.store.time key.configuration).1,
          l.handles ++ [l.source.handleAt key]⟩ := by
  have hsame k := l.source.cache_openCache (k := k) key.store.view key.configuration key.store.time
  unfold CachePool.openCache
  split
  · next place hplace =>
      obtain ⟨hlt, hplaced⟩ := (h.caches.getElem?_iff key place).mp hplace
      refine ⟨n, fun _ _ => rfl, hplaced, { h with
        handed := fun a ha => List.mem_append_left _ (h.handed a ha)
        mem_privates := fun k => ?_
        toFilled := h.toFilled.congr hsame }⟩
      change k ∈ l.source.privates.insertIfNew (l.source.handleAt key) ∅ ↔ _
      rw [ExtTreeMap.mem_insertIfNew, LawfulEqOrd.compare_eq_iff_eq, ← h.mem_privates,
        or_iff_right_iff_imp]
      rintro rfl
      exact (h.mem_privates _).mpr ⟨place, hlt, hplaced⟩
  · next hnone =>
      obtain ⟨n', hhandle, hopened, hgroup⟩ := h.openStore key.store
      have hlt := p.openStore_lt key.store
      have hfresh : (p.openStore key.store).1.cacheAt[key]? = none := by
        rw [CachePool.cacheAt_openStore, hnone]
      have hlen : (p.openStore key.store).1.caches.length = p.caches.length := by
        rw [CachePool.caches_openStore]
      refine ⟨_, fun a ha => ?_, ?_, hopened.toNamed.addCache hlt hgroup hfresh,
        (hopened.toFilled.addCache hopened.toNamed hlt hfresh).congr hsame⟩
      · rw [handle_withCache_of_lt (hlen ▸ ha), hhandle]
      · rw [← hlen, handle_withCache]

/-- A release changes what is named now, and no name of a place. -/
theorem Represents.release (h : n.Represents p l) (key : StoreKey) :
    n.Represents (p.release key) { l with source := l.source.release key.view key.time } := by
  have hcount (view : String) (t : ValuationTime) :=
    l.source.releaseCount_release key.view view key.time t
  have hkept : ∀ other, other ≠ key →
      (l.source.release key.view key.time).groupAt other = l.source.groupAt other := by
    intro other hne
    rw [CacheSource.groupAt, CacheSource.currentGroup, hcount, if_neg, Nat.add_zero]
    · rfl
    · rintro ⟨hv, ht⟩
      exact hne (StoreKey.mk.injEq .. ▸ ⟨hv.symm, ht.symm⟩)
  have hgone : ∀ i < p.stores.length,
      n.group i ≠ (l.source.release key.view key.time).groupAt key := by
    intro i hi he
    have hdated := h.dated i hi
    rw [he, CacheSource.groupAt, CacheSource.currentGroup, hcount, if_pos ⟨rfl, rfl⟩] at hdated
    exact Nat.not_succ_le_self _ hdated
  refine { h with stores := ?_, caches := ?_, dated := fun i hi => ?_ }
  · refine h.stores.filter (fun other hother => hkept other (by simpa using hother)) ?_
    intro other hother i hi
    obtain rfl : other = key := by simpa using hother
    exact hgone i hi
  · refine h.caches.filter (fun other hother => ?_) fun other hother i hi he => ?_
    · rw [CacheSource.handleAt, hkept other.store (by simpa using hother)]
      rfl
    · obtain ⟨a, ha⟩ := CachePool.exists_store? hi
      obtain rfl : other.store = key := by simpa using hother
      exact hgone a (CachePool.store?_lt ha)
        ((h.group_of i a ha).trans (congrArg CacheHandle.group he))
  · exact Nat.le_trans (h.dated i hi) (hcount .. ▸ Nat.le_add_right ..)

/-- A call of a pool is the call of the source with the name of the place. -/
theorem Represents.step (h : n.Represents p l) {call : CacheCall Nat}
    (hcall : p.call? call = some p') :
    ∃ (n' : Naming) (l' : Lending), (∀ i < p.caches.length, n'.handle i = n.handle i) ∧
      l.call? (call.map n'.handle) = some l' ∧ n'.Represents p' l' := by
  have hput {i : Nat} {q : CachePool} {f : Cache → Cache} (hq : p.change? i q = some p')
      (hshape : CachePool.SameShape p q)
      (hfilled : i < p.caches.length → n.Filled q (l.source.update (n.handle i) f)) :
      ∃ l', l.change? (n.handle i) f = some l' ∧ n.Represents p' l' := by
    obtain ⟨hi, rfl⟩ := CachePool.change?_eq_some hq
    exact ⟨_, if_pos (h.handed i hi), h.toNamed.update hshape hi f, hfilled hi⟩
  cases call with
  | openCache view t configuration =>
      obtain rfl := Option.some.inj hcall
      obtain ⟨n', hsame, -, h'⟩ := h.openCache ⟨⟨view, t⟩, configuration⟩
      exact ⟨n', _, hsame, rfl, h'⟩
  | release view t =>
      obtain rfl := Option.some.inj hcall
      exact ⟨n, _, fun _ _ => rfl, rfl, h.release ⟨view, t⟩⟩
  | putShared i v =>
      obtain ⟨l', hl, h'⟩ := hput hcall (CachePool.sameShape_putShared p i v) fun hi =>
        h.toFilled.putShared h.toNamed hi v
      exact ⟨n, l', fun _ _ => rfl, hl, h'⟩
  | putPrivate i v =>
      obtain ⟨l', hl, h'⟩ := hput hcall (CachePool.sameShape_putPrivate p i v) fun hi =>
        h.toFilled.putPrivate h.toNamed hi v
      exact ⟨n, l', fun _ _ => rfl, hl, h'⟩
  | putMany i hint vs =>
      obtain ⟨l', hl, h'⟩ := hput hcall (CachePool.sameShape_putMany p i hint vs) fun hi =>
        h.toFilled.putMany h.toNamed hi hint vs
      exact ⟨n, l', fun _ _ => rfl, hl, h'⟩

/-- A row of calls of a pool is the row of calls of the source with the names of the places. -/
theorem Represents.steps (h : n.Represents p l) {calls : List (CacheCall Nat)}
    (hcalls : p.calls? calls = some p') :
    ∃ (n' : Naming) (l' : Lending), (∀ i < p.caches.length, n'.handle i = n.handle i) ∧
      l.calls? (calls.map (CacheCall.map n'.handle)) = some l' ∧ n'.Represents p' l' := by
  induction calls generalizing n p l with
  | nil =>
      obtain rfl := Option.some.inj hcalls
      exact ⟨n, l, fun _ _ => rfl, rfl, h⟩
  | cons call calls ih =>
      rw [CachePool.calls?_cons] at hcalls
      obtain ⟨q, hcall, hcalls⟩ := Option.bind_eq_some_iff.mp hcalls
      obtain ⟨n₁, l₁, hsame, hl, h₁⟩ := h.step hcall
      obtain ⟨n₂, l₂, hsame', hl', h₂⟩ := ih h₁ hcalls
      have hlen := CachePool.call?_length hcall
      refine ⟨n₂, l₂, fun i hi => ?_, ?_, h₂⟩
      · rw [hsame' i (Nat.lt_of_lt_of_le hi hlen), hsame i hi]
      · have hmap : call.map n₂.handle = call.map n₁.handle := CacheCall.map_congr fun i hi =>
          hsame' i (Nat.lt_of_lt_of_le (CachePool.lt_of_call? hcall hi) hlen)
        rw [List.map_cons, Lending.calls?_cons, hmap, hl, Option.bind_some, hl']

/-- Before any call every naming will do. -/
theorem represents_start (n : Naming) : n.Represents .empty .start where
  stores := ⟨by simp [CachePool.empty], by simp [CachePool.empty]⟩
  caches := ⟨by simp [CachePool.empty], by simp [CachePool.empty]⟩
  group_of := by simp [CachePool.empty, CachePool.store?]
  dated := by simp [CachePool.empty]
  handed := by simp [CachePool.empty]
  mem_privates := by simp [CachePool.empty, Lending.start, CacheSource.empty]
  mem_shared := by simp [Lending.start, CacheSource.empty]
  private_eq := by simp [CachePool.empty]
  shared_eq := by simp [CachePool.empty]

/-- Whatever calls a pool has seen, its places can be named such that a source has seen the same
calls and is what the pool is. -/
theorem exists_represents {calls : List (CacheCall Nat)}
    (h : CachePool.empty.calls? calls = some p) :
    ∃ (n : Naming) (l : Lending),
      Lending.start.calls? (calls.map (CacheCall.map n.handle)) = some l ∧ n.Represents p l := by
  let unnamed : CacheGroup := ⟨"", ⟨0⟩, 0⟩
  obtain ⟨n, l, -, hl, hn⟩ :=
    (represents_start ⟨fun _ => unnamed, fun _ => ⟨unnamed, ""⟩⟩).steps h
  exact ⟨n, l, hl, hn⟩

/-- As many caches are kept as the source holds. -/
theorem Represents.count_eq (h : n.Represents p l) : p.count = l.source.count := by
  have hperm : (p.cacheAt.keys.map l.source.handleAt).Perm l.source.held := by
    have hkeys : (p.cacheAt.keys.map l.source.handleAt).Nodup := List.Pairwise.map _
      (fun a b hne he => hne (l.source.handleAt_inj a b he)) ExtTreeMap.nodup_keys
    have hheld : l.source.held.Nodup := List.Pairwise.filter _ ExtTreeMap.nodup_keys
    refine (List.perm_ext_iff_of_nodup hkeys hheld).mpr fun k => ?_
    rw [List.mem_map, CacheSource.mem_held, h.mem_privates]
    constructor
    · rintro ⟨key, hkey, rfl⟩
      obtain ⟨i, hi⟩ := Option.isSome_iff_exists.mp
        (ExtTreeMap.isSome_getElem?_iff_mem.mpr (ExtTreeMap.mem_keys.mp hkey))
      exact ⟨⟨i, (h.caches.getElem?_iff key i).mp hi⟩, rfl⟩
    · rintro ⟨⟨i, hi, rfl⟩, hreleases⟩
      let key : CacheKey := ⟨⟨(n.handle i).group.view, (n.handle i).group.time⟩,
        (n.handle i).configuration⟩
      have hkey : l.source.handleAt key = n.handle i := by
        rw [CacheSource.handleAt, CacheSource.groupAt, CacheSource.currentGroup, ← hreleases]
      have hplaced := (h.caches.getElem?_iff key i).mpr ⟨hi, hkey.symm⟩
      refine ⟨key, ExtTreeMap.mem_keys.mpr (ExtTreeMap.isSome_getElem?_iff_mem.mp ?_), hkey⟩
      rw [hplaced]
      rfl
  have hlen := hperm.length_eq
  rwa [List.length_map, ExtTreeMap.length_keys] at hlen

end Naming
end ValuationCycle
