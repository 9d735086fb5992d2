import ValuationCycle.Cache.Basic
import ValuationCycle.Time

/-!
# Cache source

Caches of one view at one valuation time form a group with one shared
partition. A source opens caches and releases groups. After a release, opening
a cache of the same view and time starts a new group, and the handles of the old
group keep naming the caches of the old one. A group is therefore named by its
view, its time and the number of releases before it.
-/
namespace ValuationCycle
open Json Std

/-- The names of caches that share a partition. -/
structure CacheGroup where
  view : String
  time : ValuationTime
  releases : Nat
  deriving DecidableEq

namespace CacheGroup

instance : Ord CacheGroup :=
  ⟨compareLex (compareOn view) (compareLex (compareOn time) (compareOn releases))⟩

instance : TransOrd CacheGroup :=
  inferInstanceAs (TransCmp (compareLex (compareOn view)
    (compareLex (compareOn time) (compareOn releases))))

instance : LawfulEqOrd CacheGroup :=
  lawfulEqCmp_compareLex fun a b hv h => by
    have hv := eq_of_compareOn hv
    obtain ⟨ht, hr⟩ := compareLex_eq_eq.mp h
    have ht := eq_of_compareOn ht
    have hr := eq_of_compareOn hr
    cases a; cases b; simp_all

end CacheGroup

/-- The name of a cache: its group and its configuration. -/
structure CacheHandle where
  group : CacheGroup
  configuration : String
  deriving DecidableEq

namespace CacheHandle

instance : Ord CacheHandle := ⟨compareLex (compareOn group) (compareOn configuration)⟩

instance : TransOrd CacheHandle :=
  inferInstanceAs (TransCmp (compareLex (compareOn group) (compareOn configuration)))

instance : LawfulEqOrd CacheHandle :=
  lawfulEqCmp_compareLex fun a b hg hc => by
    have hg := eq_of_compareOn hg
    have hc := eq_of_compareOn hc
    cases a; cases b; simp_all

end CacheHandle

/-- All partitions ever opened, and how often each view and time was released. -/
structure CacheSource where
  shared : ExtTreeMap CacheGroup Partition
  privates : ExtTreeMap CacheHandle Partition
  releases : ExtTreeMap String (ExtTreeMap ValuationTime Nat)

namespace CacheSource

def empty : CacheSource := ⟨∅, ∅, ∅⟩

def releaseCount (s : CacheSource) (view : String) (time : ValuationTime) : Nat :=
  ((s.releases[view]?.getD ∅)[time]?).getD 0

/-- The group in which caches of a view at a time are opened now. -/
def currentGroup (s : CacheSource) (view : String) (time : ValuationTime) : CacheGroup :=
  ⟨view, time, s.releaseCount view time⟩

/-- The cache of a configuration; it is new if the current group has none. -/
def openCache (s : CacheSource) (view : String) (time : ValuationTime) (configuration : String) :
    CacheSource × CacheHandle :=
  let handle : CacheHandle := ⟨s.currentGroup view time, configuration⟩
  ({ s with privates := s.privates.insertIfNew handle ∅ }, handle)

/-- Lets go of the caches of a view at a time. -/
def release (s : CacheSource) (view : String) (time : ValuationTime) : CacheSource :=
  let counts := (s.releases[view]?.getD ∅).insert time (s.releaseCount view time + 1)
  { s with releases := s.releases.insert view counts }

def isHeld (s : CacheSource) (h : CacheHandle) : Bool :=
  h.group.releases == s.releaseCount h.group.view h.group.time

def held (s : CacheSource) : List CacheHandle := s.privates.keys.filter s.isHeld

def count (s : CacheSource) : Nat := s.held.length

def cache (s : CacheSource) (h : CacheHandle) : Cache :=
  ⟨s.shared[h.group]?.getD ∅, s.privates[h]?.getD ∅⟩

def setCache (s : CacheSource) (h : CacheHandle) (c : Cache) : CacheSource :=
  { s with
    shared := s.shared.insert h.group c.sharedPart
    privates := s.privates.insert h c.privatePart }

def update (s : CacheSource) (h : CacheHandle) (f : Cache → Cache) : CacheSource :=
  s.setCache h (f (s.cache h))

end CacheSource
end ValuationCycle
