import ValuationCycle.Proofs.Cache.Storing
import ValuationCycle.Proofs.Graph.Edges

/-!
# Lent caches

A source hands out caches by handles, any number of times and also for groups that it has let go
of since. All that can be seen through a handle is told by the calls made so far: under a
specification there is the last value stored privately through the same cache, else the last one
stored in the partition that its group shares.
-/
namespace ValuationCycle
open Json Std

/-- A call of a source, or of a cache through what it was handed out as. Calls that only read are
left out. -/
inductive CacheCall (η : Type) where
  | openCache (view : String) (time : ValuationTime) (configuration : String)
  | release (view : String) (time : ValuationTime)
  | putShared (handle : η) (value : ComputedValue)
  | putPrivate (handle : η) (value : ComputedValue)
  | putMany (handle : η) (hint : CacheHint) (values : List ComputedValue)

namespace CacheCall
variable {η θ : Type}

/-- The values that a call stores in shared partitions, through some of all handles. -/
def shares (p : η → Prop) [DecidablePred p] : CacheCall η → List ComputedValue
  | putShared h v => if p h then [v] else []
  | putMany h hint vs => if p h then vs.filter fun v => !hint.isPrivate v.specification else []
  | openCache .. | release .. | putPrivate .. => []

/-- The values that a call stores for one cache to keep. -/
def keeps [DecidableEq η] (k : η) : CacheCall η → List ComputedValue
  | putPrivate h v => if h = k then [v] else []
  | putMany h hint vs => if h = k then vs.filter fun v => hint.isPrivate v.specification else []
  | openCache .. | release .. | putShared .. => []

def isRelease (view : String) (t : ValuationTime) : CacheCall η → Bool
  | release other u => other = view ∧ u = t
  | openCache .. | putShared .. | putPrivate .. | putMany .. => false

theorem isRelease_iff {view : String} {t : ValuationTime} {call : CacheCall η} :
    call.isRelease view t = true ↔ call = release view t := by
  cases call <;> simp [isRelease]

def handle? : CacheCall η → Option η
  | putShared h _ | putPrivate h _ | putMany h _ _ => some h
  | openCache .. | release .. => none

def map (f : η → θ) : CacheCall η → CacheCall θ
  | openCache view t configuration => openCache view t configuration
  | release view t => release view t
  | putShared h v => putShared (f h) v
  | putPrivate h v => putPrivate (f h) v
  | putMany h hint vs => putMany (f h) hint vs

theorem map_congr {f g : η → θ} {call : CacheCall η} (h : ∀ k, call.handle? = some k → f k = g k) :
    call.map f = call.map g := by
  cases call with
  | openCache | release => rfl
  | putShared | putPrivate | putMany => simp only [map, h _ rfl]

theorem release_mem_map {f : η → θ} {calls : List (CacheCall η)} {view : String}
    {t : ValuationTime} : release view t ∈ calls.map (map f) ↔ release view t ∈ calls := by
  rw [List.mem_map]
  constructor
  · rintro ⟨call, hmem, he⟩
    cases call <;> simp_all [map]
  · exact fun hmem => ⟨_, hmem, rfl⟩

theorem shares_map (f : η → θ) (p : θ → Prop) [DecidablePred p] (q : η → Prop) [DecidablePred q]
    {call : CacheCall η} (h : ∀ k, call.handle? = some k → (p (f k) ↔ q k)) :
    (call.map f).shares p = call.shares q := by
  cases call with
  | openCache | release | putPrivate => rfl
  | putShared | putMany => simp only [map, shares, h _ rfl]

theorem keeps_map [DecidableEq η] [DecidableEq θ] (f : η → θ) (k : η) {call : CacheCall η}
    (h : ∀ j, call.handle? = some j → f j = f k → j = k) :
    (call.map f).keeps (f k) = call.keeps k := by
  have hiff : ∀ j, call.handle? = some j → (f j = f k ↔ j = k) := fun j hj =>
    ⟨h j hj, congrArg f⟩
  cases call with
  | openCache | release | putShared => rfl
  | putPrivate | putMany => simp only [map, keeps, hiff _ rfl]

end CacheCall

/-- A source with the handles that it has handed out. -/
structure Lending where
  source : CacheSource
  handles : List CacheHandle

namespace Lending

def start : Lending := ⟨.empty, []⟩

/-- Changes a cache for which there is a handle. -/
def change? (l : Lending) (h : CacheHandle) (f : Cache → Cache) : Option Lending :=
  if h ∈ l.handles then some { l with source := l.source.update h f } else none

/-- The effect of a call; there is none through a handle that was not handed out. -/
def call? (l : Lending) : CacheCall CacheHandle → Option Lending
  | .openCache view t configuration =>
    let (source, h) := l.source.openCache view t configuration
    some ⟨source, l.handles ++ [h]⟩
  | .release view t => some { l with source := l.source.release view t }
  | .putShared h v => l.change? h fun c => c.putShared v
  | .putPrivate h v => l.change? h fun c => c.putPrivate v
  | .putMany h hint vs => l.change? h fun c => c.putMany hint vs

def calls? (l : Lending) (calls : List (CacheCall CacheHandle)) : Option Lending :=
  calls.foldlM call? l

end Lending

namespace Lending
variable {l l' : Lending}
variable {call : CacheCall CacheHandle} {calls : List (CacheCall CacheHandle)}

theorem change?_eq_some {h : CacheHandle} {f : Cache → Cache} (hc : l.change? h f = some l') :
    l' = { l with source := l.source.update h f } := by
  unfold change? at hc
  split at hc
  · exact (Option.some.inj hc).symm
  · simp at hc

theorem putMany_parts {h : CacheHandle} {hint : CacheHint} {values : List ComputedValue}
    (hc : l.change? h (fun c => c.putMany hint values) = some l') (k : CacheHandle)
    (u : Specification) :
    (l'.source.cache k).privatePart[u]? =
        (lastValue? (CacheCall.keeps k (.putMany h hint values)) u).or
          (l.source.cache k).privatePart[u]? ∧
      (l'.source.cache k).sharedPart[u]? =
        (lastValue? (CacheCall.shares (fun h => h.group = k.group)
          (.putMany h hint values)) u).or (l.source.cache k).sharedPart[u]? := by
  obtain rfl := change?_eq_some hc
  simp only [CacheCall.keeps, CacheCall.shares, lastValue?_ite_filter,
    lastValue?_ite_filter _ fun u => !hint.isPrivate u]
  exact l.source.update_putMany h k hint values u

theorem calls?_cons : l.calls? (call :: calls) = (l.call? call).bind fun l => l.calls? calls :=
  List.foldlM_cons ..

theorem call?_parts (h : l.call? call = some l') (k : CacheHandle) (u : Specification) :
    (l'.source.cache k).privatePart[u]? =
        (lastValue? (call.keeps k) u).or (l.source.cache k).privatePart[u]? ∧
      (l'.source.cache k).sharedPart[u]? =
        (lastValue? (call.shares fun h => h.group = k.group) u).or
          (l.source.cache k).sharedPart[u]? := by
  cases call with
  | openCache view t configuration =>
      obtain rfl := Option.some.inj h
      have hsame := l.source.cache_openCache (k := k) view configuration t
      exact ⟨congrArg (fun c => c.privatePart[u]?) hsame,
        congrArg (fun c => c.sharedPart[u]?) hsame⟩
  | release view t =>
      obtain rfl := Option.some.inj h
      exact ⟨rfl, rfl⟩
  | putShared j v =>
      have hput : l.change? j (fun c => c.putMany .allShared [v]) = some l' := h
      simpa [CacheCall.keeps, CacheCall.shares, CacheHint.isPrivate] using putMany_parts hput k u
  | putPrivate j v =>
      have hput : l.change? j (fun c => c.putMany .allPrivate [v]) = some l' := h
      simpa [CacheCall.keeps, CacheCall.shares, CacheHint.isPrivate] using putMany_parts hput k u
  | putMany j hint vs => exact putMany_parts h k u

theorem call?_releaseCount (h : l.call? call = some l') (view : String) (t : ValuationTime) :
    l'.source.releaseCount view t =
      l.source.releaseCount view t + if call.isRelease view t then 1 else 0 := by
  cases call with
  | openCache other u configuration =>
      obtain rfl := Option.some.inj h
      rfl
  | release other u =>
      obtain rfl := Option.some.inj h
      refine (l.source.releaseCount_release other view u t).trans ?_
      simp [CacheCall.isRelease]
  | putShared | putPrivate | putMany =>
      obtain rfl := change?_eq_some h
      rfl

theorem call?_handles (h : l.call? call = some l') : l.handles ⊆ l'.handles := by
  cases call with
  | openCache view t configuration =>
      obtain rfl := Option.some.inj h
      exact List.subset_append_left _ _
  | release view t =>
      obtain rfl := Option.some.inj h
      exact List.Subset.refl _
  | putShared | putPrivate | putMany =>
      obtain rfl := change?_eq_some h
      exact List.Subset.refl _

theorem calls?_spec (h : l.calls? calls = some l') :
    (∀ (k : CacheHandle) (u : Specification),
      (l'.source.cache k).privatePart[u]? =
          (lastValue? (calls.flatMap (CacheCall.keeps k)) u).or (l.source.cache k).privatePart[u]? ∧
        (l'.source.cache k).sharedPart[u]? =
          (lastValue? (calls.flatMap (CacheCall.shares fun h => h.group = k.group)) u).or
            (l.source.cache k).sharedPart[u]?) ∧
      (∀ view t, l'.source.releaseCount view t =
        l.source.releaseCount view t + calls.countP (CacheCall.isRelease view t)) ∧
      l.handles ⊆ l'.handles := by
  induction calls generalizing l with
  | nil =>
      obtain rfl := Option.some.inj h
      exact ⟨fun _ _ => ⟨rfl, rfl⟩, fun _ _ => rfl, List.Subset.refl _⟩
  | cons call calls ih =>
      rw [calls?_cons] at h
      obtain ⟨next, hcall, h⟩ := Option.bind_eq_some_iff.mp h
      obtain ⟨hparts, hcount, hhandles⟩ := ih h
      refine ⟨fun k u => ?_, fun view t => ?_, fun k hk => hhandles (call?_handles hcall hk)⟩
      · rw [(hparts k u).1, (hparts k u).2, (call?_parts hcall k u).1, (call?_parts hcall k u).2]
        simp only [List.flatMap_cons, lastValue?_append, Option.or_assoc, and_self]
      · rw [hcount, call?_releaseCount hcall, List.countP_cons]
        omega

/-- Between two calls the group in which a cache is opened stays what it is exactly if it is not
released. -/
theorem currentGroup_calls? (h : l.calls? calls = some l') (view other : String)
    (t u : ValuationTime) : l.source.currentGroup view t = l'.source.currentGroup other u ↔
      view = other ∧ t = u ∧ .release view t ∉ calls := by
  rw [CacheSource.currentGroup, CacheSource.currentGroup, CacheGroup.mk.injEq, and_congr_right_iff]
  rintro rfl
  rw [and_congr_right_iff]
  rintro rfl
  have hcount := (calls?_spec h).2.1 view t
  have hnone : calls.countP (CacheCall.isRelease view t) = 0 ↔ .release view t ∉ calls := by
    rw [List.countP_eq_zero]
    constructor
    · intro hno hmem
      exact hno _ hmem (CacheCall.isRelease_iff.mpr rfl)
    · intro hno call hcall hrelease
      exact hno (CacheCall.isRelease_iff.mp hrelease ▸ hcall)
  rw [← hnone]
  omega

theorem parts_of_calls (h : start.calls? calls = some l) (k : CacheHandle) (s : Specification) :
    (l.source.cache k).privatePart[s]? = lastValue? (calls.flatMap (CacheCall.keeps k)) s ∧
      (l.source.cache k).sharedPart[s]? =
        lastValue? (calls.flatMap (CacheCall.shares fun h => h.group = k.group)) s := by
  obtain ⟨hprivate, hshared⟩ := (calls?_spec h).1 k s
  exact ⟨hprivate.trans (Option.or_none ..), hshared.trans (Option.or_none ..)⟩

namespace Sample

def handle (releases : Nat) (configuration : String) : CacheHandle :=
  ⟨⟨"View", ⟨1⟩, releases⟩, configuration⟩

end Sample

end Lending
end ValuationCycle
