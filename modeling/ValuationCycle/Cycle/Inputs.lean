import ValuationCycle.Cycle.Basic

/-!
# Preparing inputs

Preparing the inputs opens the cache of every configuration and loads the live
data of the whole view into each of them. The snapshot is asked for an output by
the requirement that it satisfies; the value is written once for every cache,
into the partition that they share. A requirement without a value is reported
and otherwise passed over.
-/
namespace ValuationCycle
open Json

/-- A requirement without a value, in words. -/
def describeMissing (r : Requirement) : String :=
  "[" ++ r.valueName ++ " on " ++ r.target.targetType.name ++ "-" ++ r.target.identifier.scheme ++
    ":" ++ r.target.identifier.value ++ "]"

/-- The warning about requirements without a value, if there are any. -/
def missingWarning (rs : List Requirement) : Option String :=
  if rs.isEmpty then none
  else some ("missing live data: " ++ String.intercalate ", " (rs.map describeMissing))

namespace Workspace

def fanOut (w : Workspace) (hs : List CacheHandle) (v : ComputedValue) : Workspace :=
  hs.foldl (fun w h => w.updateCache h fun c => c.putShared v) w

def query (w : Workspace) (t : ValuationTime) (output : Specification) :
    Workspace × Option Value :=
  let (liveData, v) := w.liveData.query t output.requirement
  ({ w with liveData }, v)

/-- Loads outputs of live data into some caches; answers the requirements without
a value. -/
def load (w : Workspace) (t : ValuationTime) (hs : List CacheHandle) :
    List Specification → Workspace × List Requirement
  | [] => (w, [])
  | output :: rest =>
    match w.query t output with
    | (w, some v) => (w.fanOut hs ⟨output, v⟩).load t hs rest
    | (w, none) =>
      let (w, missing) := w.load t hs rest
      (w, output.requirement :: missing)

end Workspace

namespace Cycle

def openCache (c : Cycle) (w : Workspace) (configuration : String) : Cycle × Workspace :=
  let (caches, h) := w.caches.openCache c.view.name c.time configuration
  ({ c with handles := c.handles.insert configuration h }, { w with caches })

def openCaches (c : Cycle) (w : Workspace) : Cycle × Workspace :=
  c.view.model.names.foldl (fun s name => s.1.openCache s.2 name) (c, w)

/-- Opens the caches and loads live data into them; answers the requirements
without a value. -/
def prepare (c : Cycle) (w : Workspace) : Reply (List Requirement) :=
  if c.permits .prepareInputs then
    let (c, w) := { c with started := true }.openCaches w
    let (w, missing) := w.load c.time c.handles.values c.view.model.liveOutputs.toList
    ⟨{ c with state := .inputsPrepared }, w, .ok missing⟩
  else c.refuse w .prepareInputs

end Cycle
end ValuationCycle
