import ValuationCycle.Graph.Basic

/-!
# Caches

A cache holds the computed values of one calculation configuration in two
partitions: shared values are also seen by the other configurations, private
ones by no other. Reading looks into the private partition first. A hint tells
for every specification which partition its values live in; reading with a hint
looks into that partition only, and storing with a hint writes there.
-/
namespace ValuationCycle
open Json Std

abbrev Partition := ExtTreeMap Specification Value

inductive CacheHint where
  | allShared
  | allPrivate
  | privateValues (specifications : ExtTreeSet Specification)

namespace CacheHint

def isPrivate : CacheHint → Specification → Bool
  | allShared, _ => false
  | allPrivate, _ => true
  | privateValues specifications, s => specifications.contains s

/-- The hint by which outputs of a graph are stored: those of live data sourcing
nodes are shared, the outputs of all other nodes private. -/
def ofGraph (g : Graph) : CacheHint :=
  privateValues (ExtTreeSet.ofList
    ((g.nodes.filter fun n => !n.isLive).flatMap fun n => n.outputs.toList))

end CacheHint

structure Cache where
  sharedPart : Partition
  privatePart : Partition

namespace Cache

def empty : Cache := ⟨∅, ∅⟩

/-- The value under a specification, private before shared. -/
def get? (c : Cache) (s : Specification) : Option Value :=
  c.privatePart[s]?.or c.sharedPart[s]?

/-- The value under a specification in the partition that a hint points at. -/
def getHinted? (c : Cache) (hint : CacheHint) (s : Specification) : Option Value :=
  if hint.isPrivate s then c.privatePart[s]? else c.sharedPart[s]?

def getMany (c : Cache) (hint : CacheHint) (ss : List Specification) :
    List (Specification × Option Value) :=
  ss.map fun s => (s, c.getHinted? hint s)

def putShared (c : Cache) (v : ComputedValue) : Cache :=
  { c with sharedPart := c.sharedPart.insert v.specification v.value }

def putPrivate (c : Cache) (v : ComputedValue) : Cache :=
  { c with privatePart := c.privatePart.insert v.specification v.value }

/-- Stores a value in the partition that a hint points at. -/
def put (c : Cache) (hint : CacheHint) (v : ComputedValue) : Cache :=
  if hint.isPrivate v.specification then c.putPrivate v else c.putShared v

def putMany (c : Cache) (hint : CacheHint) (vs : List ComputedValue) : Cache :=
  vs.foldl (fun c v => c.put hint v) c

/-- Every visible value, in the order of specifications. -/
def entries (c : Cache) : List (Specification × Value) :=
  (c.privatePart.toList.foldl (fun m e => m.insert e.1 e.2) c.sharedPart).toList

end Cache
end ValuationCycle
