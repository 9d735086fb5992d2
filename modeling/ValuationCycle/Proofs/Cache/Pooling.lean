import Mathlib.Data.List.Basic
import ValuationCycle.Proofs.Cache.Naming

/-!
# Pooled caches

Which caches are one, and which share a store, is told by the calls that a pool has seen: a cache
is another one than that handed out before for its key exactly if there was a release in between.
What is read through a place is the last value stored privately through the same place, else the
last one stored for sharing through any place with the same store.
-/
namespace ValuationCycle
open Json Std

namespace CachePool
variable {p p' : CachePool} {calls later : List (CacheCall Nat)} {call : CacheCall Nat} {i : Nat}

theorem openCache_lt (p : CachePool) (key : CacheKey) :
    (p.openCache key).2 < (p.openCache key).1.caches.length := by
  unfold openCache
  split
  · next place hplace => exact p.cacheAt_lt key place hplace
  · change _ < ((p.openStore key.store).1.caches ++ [_]).length
    rw [caches_openStore, List.length_append]
    exact Nat.lt_succ_self _

theorem calls?_split (h : p.calls? (calls ++ call :: later) = some p') :
    ∃ x y, p.calls? calls = some x ∧ x.call? call = some y ∧ y.calls? later = some p' := by
  rw [calls?_append] at h
  obtain ⟨x, hx, h⟩ := Option.bind_eq_some_iff.mp h
  rw [calls?_cons] at h
  obtain ⟨y, hy, h⟩ := Option.bind_eq_some_iff.mp h
  exact ⟨x, y, hx, hy, h⟩

/-- Two places that are handed out are one exactly if they were asked for under one key with no
release of its view and time in between, and they have one store exactly if they were asked for
under one view and time with no such release. -/
theorem places_of_openings {before middle : List (CacheCall Nat)} {view other : String}
    {t u : ValuationTime} {configuration name : String} (h : empty.calls? calls = some p)
    (hcalls : calls =
      before ++ .openCache view t configuration :: (middle ++ .openCache other u name :: later)) :
    ∃ x y, empty.calls? before = some x ∧
      empty.calls? (before ++ .openCache view t configuration :: middle) = some y ∧
      let first := (x.openCache ⟨⟨view, t⟩, configuration⟩).2
      let second := (y.openCache ⟨⟨other, u⟩, name⟩).2
      first < p.caches.length ∧ second < p.caches.length ∧
        (first = second ↔
          view = other ∧ t = u ∧ configuration = name ∧ .release view t ∉ middle) ∧
        (p.store? first = p.store? second ↔ view = other ∧ t = u ∧ .release view t ∉ middle) := by
  rw [hcalls] at h
  obtain ⟨x, x', hx, hfirst, h⟩ := calls?_split h
  obtain ⟨y, y', hy, hsecond, h⟩ := calls?_split h
  obtain rfl := Option.some.inj hfirst
  obtain rfl := Option.some.inj hsecond
  have hbefore : empty.calls? (before ++ .openCache view t configuration :: middle) = some y := by
    rw [calls?_append, hx, Option.bind_some, calls?_cons, hfirst, Option.bind_some, hy]
  -- The names of both places are followed from where they are given to the end.
  obtain ⟨n₀, l₀, -, h₀⟩ := Naming.exists_represents hx
  obtain ⟨n₁, -, hname₁, h₁⟩ := h₀.openCache ⟨⟨view, t⟩, configuration⟩
  obtain ⟨n₂, l₂, hsame₂, hmiddle, h₂⟩ := h₁.steps hy
  obtain ⟨n₃, hsame₃, hname₃, h₃⟩ := h₂.openCache ⟨⟨other, u⟩, name⟩
  obtain ⟨n₄, l₄, hsame₄, -, h₄⟩ := h₃.steps h
  have hlt₁ := x.openCache_lt ⟨⟨view, t⟩, configuration⟩
  have hlt₂ := Nat.lt_of_lt_of_le hlt₁ (calls?_length hy)
  have hlt₃ := Nat.lt_of_lt_of_le hlt₂ (length_openCache ⟨⟨other, u⟩, name⟩)
  have hlt := y.openCache_lt ⟨⟨other, u⟩, name⟩
  have hlen := calls?_length h
  have hfirst : n₄.handle (x.openCache ⟨⟨view, t⟩, configuration⟩).2 =
      ⟨l₀.source.currentGroup view t, configuration⟩ := by
    rw [hsame₄ _ hlt₃, hsame₃ _ hlt₂, hsame₂ _ hlt₁, hname₁]
    rfl
  have hsecond : n₄.handle (y.openCache ⟨⟨other, u⟩, name⟩).2 =
      ⟨l₂.source.currentGroup other u, name⟩ := by
    rw [hsame₄ _ hlt, hname₃]
    rfl
  have hgroup : l₀.source.currentGroup view t = l₂.source.currentGroup other u ↔
      view = other ∧ t = u ∧ .release view t ∉ middle := by
    have hiff := Lending.currentGroup_calls? hmiddle view other t u
    rwa [CacheCall.release_mem_map] at hiff
  have hlt₄ := Nat.lt_of_lt_of_le hlt₃ hlen
  have hlt₅ := Nat.lt_of_lt_of_le hlt hlen
  refine ⟨x, y, hx, hbefore, hlt₄, hlt₅, ?_, ?_⟩
  · have hiff : (x.openCache ⟨⟨view, t⟩, configuration⟩).2 =
        (y.openCache ⟨⟨other, u⟩, name⟩).2 ↔
        n₄.handle (x.openCache ⟨⟨view, t⟩, configuration⟩).2 =
          n₄.handle (y.openCache ⟨⟨other, u⟩, name⟩).2 :=
      ⟨congrArg n₄.handle, h₄.caches.inj _ _ hlt₄ hlt₅⟩
    rw [hiff, hfirst, hsecond, CacheHandle.mk.injEq, hgroup, and_assoc, and_assoc,
      and_comm (b := configuration = name)]
  · rw [h₄.store?_eq_iff hlt₄ hlt₅, hfirst, hsecond, hgroup]

theorem parts_of_calls (h : empty.calls? calls = some p) (hi : i < p.caches.length)
    (s : Specification) :
    (p.cache i).privatePart[s]? = lastValue? (calls.flatMap (CacheCall.keeps i)) s ∧
      (p.cache i).sharedPart[s]? =
        lastValue? (calls.flatMap (CacheCall.shares fun j => p.store? j = p.store? i)) s := by
  obtain ⟨n, l, hl, hn⟩ := Naming.exists_represents h
  obtain ⟨hprivate, hshared⟩ := Lending.parts_of_calls hl (n.handle i) s
  rw [hn.cache_eq hn.toFilled hi, hprivate, hshared, List.flatMap_map, List.flatMap_map]
  constructor
  · refine congrArg (lastValue? · s) (List.flatMap_congr fun call hcall => ?_)
    exact CacheCall.keeps_map n.handle i fun j hj =>
      hn.caches.inj j i (lt_of_calls? h hcall hj) hi
  · refine congrArg (lastValue? · s) (List.flatMap_congr fun call hcall => ?_)
    exact CacheCall.shares_map n.handle _ _ fun j hj =>
      (hn.store?_eq_iff (lt_of_calls? h hcall hj) hi).symm

theorem getElem?_filter_of_kept {κ : Type} [Ord κ] [TransOrd κ] [LawfulEqOrd κ]
    (t : ExtTreeMap κ Nat) (kept : κ → Bool) {key : κ} (h : kept key = true) :
    (t.filter fun k _ => kept k)[key]? = t[key]? := by
  rw [ExtTreeMap.getElem?_filter']
  cases t[key]? with
  | none => rfl
  | some place => simp [h]

/-- After a release a cache of another view or time is handed out as it would have been. -/
theorem openCache_release {released : StoreKey} {key : CacheKey} (hne : key.store ≠ released) :
    ((p.release released).openCache key).2 = (p.openCache key).2 ∧
      ((p.release released).openCache key).1.stores = (p.openCache key).1.stores ∧
      ((p.release released).openCache key).1.caches = (p.openCache key).1.caches := by
  have hcache : (p.release released).cacheAt[key]? = p.cacheAt[key]? :=
    getElem?_filter_of_kept p.cacheAt (fun k => k.store ≠ released) (by simpa using hne)
  have hstore : (p.release released).storeAt[key.store]? = p.storeAt[key.store]? :=
    getElem?_filter_of_kept p.storeAt (fun k => k ≠ released) (by simpa using hne)
  have hopened : ((p.release released).openStore key.store).2 = (p.openStore key.store).2 ∧
      ((p.release released).openStore key.store).1.stores = (p.openStore key.store).1.stores := by
    rw [openStore, openStore, hstore]
    split <;> exact ⟨rfl, rfl⟩
  rw [openCache, openCache, hcache]
  split
  · exact ⟨rfl, rfl, rfl⟩
  · refine ⟨rfl, hopened.2, ?_⟩
    change ((p.release released).openStore key.store).1.caches ++ [_] =
      (p.openStore key.store).1.caches ++ [_]
    rw [caches_openStore, caches_openStore, hopened.1]
    rfl

theorem cache_congr (hstores : p'.stores = p.stores) (hcaches : p'.caches = p.caches) (i : Nat) :
    p'.cache i = p.cache i ∧ p'.store? i = p.store? i := by
  rw [cache, cache, store?, store?, hstores, hcaches]
  exact ⟨rfl, rfl⟩

theorem exists_call?_iff :
    (∃ q, p.call? call = some q) ↔ ∀ i, call.handle? = some i → i < p.caches.length := by
  constructor
  · rintro ⟨q, hq⟩ i hi
    exact lt_of_call? hq hi
  · intro h
    cases call with
    | openCache | release => exact ⟨_, rfl⟩
    | putShared | putPrivate | putMany => exact ⟨_, if_pos (h _ rfl)⟩

/-- After any calls every further one through a place that was handed out has an effect. The calls
alone say which of these places are one cache, which share a store, and what is read through each:
under a specification the last value stored privately through the same place, else the last one
stored for sharing through a place with the same store. The entries list every value that is read,
once; many values are read in the order asked, each from the partition that the hint points at. A
release changes nothing of what is read through any place, and nothing of how a cache of another
view or time is handed out and of what is in it. -/
theorem caches_follow_calls (h : empty.calls? calls = some p) :
    (∀ call : CacheCall Nat, (∃ q, p.call? call = some q) ↔
      ∀ i, call.handle? = some i → i < p.caches.length) ∧
    (∀ before middle later view t configuration other u name, calls =
        before ++ .openCache view t configuration :: (middle ++ .openCache other u name :: later) →
      ∃ x y, empty.calls? before = some x ∧
        empty.calls? (before ++ .openCache view t configuration :: middle) = some y ∧
        let first := (x.openCache ⟨⟨view, t⟩, configuration⟩).2
        let second := (y.openCache ⟨⟨other, u⟩, name⟩).2
        first < p.caches.length ∧ second < p.caches.length ∧
          (first = second ↔
            view = other ∧ t = u ∧ configuration = name ∧ .release view t ∉ middle) ∧
          (p.store? first = p.store? second ↔
            view = other ∧ t = u ∧ .release view t ∉ middle)) ∧
    (∀ i < p.caches.length,
      let own := calls.flatMap (CacheCall.keeps i)
      let common := calls.flatMap (CacheCall.shares fun j => p.store? j = p.store? i)
      (∀ s, (p.cache i).get? s = (lastValue? own s).or (lastValue? common s)) ∧
      ((p.cache i).entries.map Prod.fst).Nodup ∧
      (∀ s v, (s, v) ∈ (p.cache i).entries ↔ (p.cache i).get? s = some v) ∧
      ∀ hint ss, (p.cache i).getMany hint ss = ss.map fun s =>
        (s, if hint.isPrivate s then lastValue? own s else lastValue? common s)) ∧
    ∀ view t, ∃ q, p.call? (.release view t) = some q ∧
      (∀ i, q.cache i = p.cache i ∧ q.store? i = p.store? i) ∧
      ∀ key : CacheKey, key.store ≠ ⟨view, t⟩ →
        (q.openCache key).2 = (p.openCache key).2 ∧
        ∀ i, (q.openCache key).1.cache i = (p.openCache key).1.cache i ∧
          (q.openCache key).1.store? i = (p.openCache key).1.store? i := by
  refine ⟨fun _ => exists_call?_iff,
    fun _ _ _ _ _ _ _ _ _ hcalls => places_of_openings h hcalls, fun i hi => ?_,
    fun view t => ⟨_, rfl, cache_congr rfl rfl, fun key hne => ?_⟩⟩
  · have hparts := parts_of_calls h hi
    refine ⟨fun s => ?_, Cache.nodup_entries _, fun s v => Cache.mem_entries, fun hint ss => ?_⟩
    · rw [Cache.get?, (hparts s).1, (hparts s).2]
    · refine List.map_congr_left fun s _ => ?_
      rw [Cache.getHinted?, (hparts s).1, (hparts s).2]
  · obtain ⟨hplace, hstores, hcaches⟩ := openCache_release (p := p) hne
    exact ⟨hplace, cache_congr hstores hcaches⟩

namespace Sample

def spot : Specification := Graph.Sample.quantity "Spot" "1"

/-- Two caches that share a store, one of which is asked for again after a release. -/
def renewal : List (CacheCall Nat) :=
  [.openCache "View" ⟨1⟩ "Left", .openCache "View" ⟨1⟩ "Right",
    .putShared 0 ⟨spot, .string "10"⟩, .release "View" ⟨1⟩, .openCache "View" ⟨1⟩ "Left",
    .putMany 2 .allShared [⟨spot, .string "20"⟩], .putPrivate 0 ⟨spot, .string "30"⟩]

def renewed : CachePool := (empty.calls? renewal).getD empty

end Sample
open CachePool.Sample

/-- A cache that outlives its release is another one than the cache opened after it, and goes on
sharing values with the other cache of its store. -/
theorem renewed_cache_is_another : empty.calls? renewal = some renewed ∧
    (∃ x y, empty.calls? [] = some x ∧ empty.calls? (renewal.take 4) = some y ∧
      (x.openCache ⟨⟨"View", ⟨1⟩⟩, "Left"⟩).2 ≠ (y.openCache ⟨⟨"View", ⟨1⟩⟩, "Left"⟩).2) ∧
    (renewed.cache 0).get? spot = some (.string "30") ∧
    (renewed.cache 1).get? spot = some (.string "10") ∧
    (renewed.cache 2).get? spot = some (.string "20") := by
  have h : empty.calls? renewal = some renewed := by
    have hsome : (empty.calls? renewal).isSome = true := by decide +kernel
    obtain ⟨p, hp⟩ := Option.isSome_iff_exists.mp hsome
    rw [renewed, hp, Option.getD_some]
  obtain ⟨-, hopenings, hread, -⟩ := caches_follow_calls h
  refine ⟨h, ?_, ?_, ?_, ?_⟩
  · obtain ⟨x, y, hx, hy, -, -, hsame, -⟩ := hopenings [] (renewal.tail.take 3) (renewal.drop 5)
      "View" ⟨1⟩ "Left" "View" ⟨1⟩ "Left" rfl
    exact ⟨x, y, hx, hy, fun he => (hsame.mp he).2.2.2 (by simp [renewal])⟩
  · exact ((hread 0 (by decide +kernel)).1 spot).trans (by decide +kernel)
  · exact ((hread 1 (by decide +kernel)).1 spot).trans (by decide +kernel)
  · exact ((hread 2 (by decide +kernel)).1 spot).trans (by decide +kernel)

end CachePool
end ValuationCycle
