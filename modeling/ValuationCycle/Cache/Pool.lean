import ValuationCycle.Cache.Basic
import ValuationCycle.Time

/-!
# Pools of caches

A pool keeps caches by view, time and configuration, and the stores that they share by view and
time. Stores and caches lie at numbered places, and a cache is handed out by its place. A cache
that is not kept when it is asked for is created with the store kept for its view and time, and so
is the store. A release keeps the caches and the store of a view and time no longer, and destroys
none of them: whoever has the place of a cache goes on using it.
-/
namespace ValuationCycle
open Json Std

structure StoreKey where
  view : String
  time : ValuationTime
  deriving DecidableEq

namespace StoreKey

instance : Ord StoreKey := ⟨compareLex (compareOn view) (compareOn time)⟩

instance : TransOrd StoreKey :=
  inferInstanceAs (TransCmp (compareLex (compareOn view) (compareOn time)))

instance : LawfulEqOrd StoreKey :=
  lawfulEqCmp_compareLex fun a b hv ht => by
    have hv := eq_of_compareOn hv
    have ht := eq_of_compareOn ht
    cases a; cases b; simp_all

end StoreKey

structure CacheKey where
  store : StoreKey
  configuration : String
  deriving DecidableEq

namespace CacheKey

instance : Ord CacheKey := ⟨compareLex (compareOn store) (compareOn configuration)⟩

instance : TransOrd CacheKey :=
  inferInstanceAs (TransCmp (compareLex (compareOn store) (compareOn configuration)))

instance : LawfulEqOrd CacheKey :=
  lawfulEqCmp_compareLex fun a b hs hc => by
    have hs := eq_of_compareOn hs
    have hc := eq_of_compareOn hc
    cases a; cases b; simp_all

end CacheKey

/-- A cache by the place of the store that it shares and by its own values. -/
structure PooledCache where
  store : Nat
  privatePart : Partition

/-- All stores and caches ever created, and the places of those that are kept. -/
structure CachePool where
  stores : List Partition
  caches : List PooledCache
  storeAt : ExtTreeMap StoreKey Nat
  cacheAt : ExtTreeMap CacheKey Nat
  store_lt : ∀ c ∈ caches, c.store < stores.length
  storeAt_lt : ∀ (key : StoreKey) (place : Nat), storeAt[key]? = some place → place < stores.length
  cacheAt_lt : ∀ (key : CacheKey) (place : Nat), cacheAt[key]? = some place → place < caches.length

namespace CachePool

def empty : CachePool where
  stores := []
  caches := []
  storeAt := ∅
  cacheAt := ∅
  store_lt := by simp
  storeAt_lt := by simp
  cacheAt_lt := by simp

def count (p : CachePool) : Nat := p.cacheAt.size

def addStore (p : CachePool) (key : StoreKey) : CachePool :=
  { p with
    stores := p.stores ++ [∅]
    storeAt := p.storeAt.insert key p.stores.length
    store_lt := fun c hc => by simpa using Nat.lt_succ_of_lt (p.store_lt c hc)
    storeAt_lt := fun k place hk => by
      rw [ExtTreeMap.getElem?_insert] at hk
      split at hk
      · simp [← Option.some.inj hk]
      · simpa using Nat.lt_succ_of_lt (p.storeAt_lt k place hk) }

/-- The place of the store of a key. -/
def openStore (p : CachePool) (key : StoreKey) : CachePool × Nat :=
  match p.storeAt[key]? with
  | some place => (p, place)
  | none => (p.addStore key, p.stores.length)

theorem openStore_lt (p : CachePool) (key : StoreKey) :
    (p.openStore key).2 < (p.openStore key).1.stores.length := by
  unfold openStore
  split
  · next place h => exact p.storeAt_lt key place h
  · simp [addStore]

def addCache (p : CachePool) (key : CacheKey) (store : Nat) (h : store < p.stores.length) :
    CachePool :=
  { p with
    caches := p.caches ++ [⟨store, ∅⟩]
    cacheAt := p.cacheAt.insert key p.caches.length
    store_lt := fun c hc => by
      rcases List.mem_append.mp hc with hc | hc
      · exact p.store_lt c hc
      · rw [List.mem_singleton.mp hc]
        exact h
    cacheAt_lt := fun k place hk => by
      rw [ExtTreeMap.getElem?_insert] at hk
      split at hk
      · simp [← Option.some.inj hk]
      · simpa using Nat.lt_succ_of_lt (p.cacheAt_lt k place hk) }

def openCache (p : CachePool) (key : CacheKey) : CachePool × Nat :=
  match p.cacheAt[key]? with
  | some place => (p, place)
  | none =>
    ((p.openStore key.store).1.addCache key (p.openStore key.store).2 (p.openStore_lt key.store),
      p.caches.length)

/-- No longer keeps what is kept for a view and time. -/
def release (p : CachePool) (key : StoreKey) : CachePool :=
  { p with
    storeAt := p.storeAt.filter fun k _ => k ≠ key
    cacheAt := p.cacheAt.filter fun k _ => k.store ≠ key
    storeAt_lt := fun k place hk => by
      rw [ExtTreeMap.getElem?_filter', Option.filter_eq_some_iff] at hk
      exact p.storeAt_lt k place hk.1
    cacheAt_lt := fun k place hk => by
      rw [ExtTreeMap.getElem?_filter', Option.filter_eq_some_iff] at hk
      exact p.cacheAt_lt k place hk.1 }

def store? (p : CachePool) (place : Nat) : Option Nat := p.caches[place]?.map PooledCache.store

/-- The cache at a place; where none lies there is nothing. -/
def cache (p : CachePool) (place : Nat) : Cache :=
  match p.caches[place]? with
  | some c => ⟨p.stores[c.store]?.getD ∅, c.privatePart⟩
  | none => .empty

def putShared (p : CachePool) (place : Nat) (v : ComputedValue) : CachePool :=
  match p.store? place with
  | some store =>
    { p with
      stores := p.stores.modify store fun part => part.insert v.specification v.value
      store_lt := by simpa using p.store_lt
      storeAt_lt := by simpa using p.storeAt_lt }
  | none => p

def putPrivate (p : CachePool) (place : Nat) (v : ComputedValue) : CachePool :=
  { p with
    caches := p.caches.modify place fun c =>
      { c with privatePart := c.privatePart.insert v.specification v.value }
    store_lt := fun c hc => by
      obtain ⟨i, hi⟩ := List.mem_iff_getElem?.mp hc
      rw [List.getElem?_modify] at hi
      obtain ⟨d, hd, rfl⟩ := Option.map_eq_some_iff.mp hi
      have hlt := p.store_lt d (List.mem_of_getElem? hd)
      split <;> exact hlt
    cacheAt_lt := by simpa using p.cacheAt_lt }

def put (p : CachePool) (place : Nat) (hint : CacheHint) (v : ComputedValue) : CachePool :=
  if hint.isPrivate v.specification then p.putPrivate place v else p.putShared place v

def putMany (p : CachePool) (place : Nat) (hint : CacheHint) (vs : List ComputedValue) :
    CachePool := vs.foldl (fun p v => p.put place hint v) p

end CachePool
end ValuationCycle
