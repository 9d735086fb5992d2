import ValuationCycle.Cycle.Basic
import ValuationCycle.Cycle.Query

/-!
# Reporting

When a cycle is finished, the outputs that the view asks for and its caches have
are added to the result, configuration by configuration, in the order of nodes
and outputs. Values are read from the partition where the graph's outputs live,
whereas a query sees both partitions.
-/
namespace ValuationCycle

namespace ResultModel

def addFound (r : ResultModel) (configuration : String)
    (found : List (Specification × Option Json.Value)) : ResultModel :=
  found.foldl (fun r e => match e.2 with
    | some v => r.add configuration ⟨e.1, v⟩
    | none => r) r

end ResultModel

namespace Cycle

/-- The outputs of a graph that the view asks for. -/
def reported (c : Cycle) (g : Graph) : List Specification :=
  g.outputs.filter (c.view.definition.policy.reports g)

def report (c : Cycle) (w : Workspace) (r : ResultModel) :
    List (String × Graph) → ResultModel × Except CycleError Unit
  | [] => (r, .ok ())
  | (name, g) :: rest =>
    let r := r.addConfiguration name
    match c.handles[name]? with
    | none => (r, .error (.unknownConfiguration name))
    | some h =>
      c.report w (r.addFound name ((w.cache h).getMany (.ofGraph g) (c.reported g))) rest

/-- Completes the result and stamps it with the moment. -/
def populate (c : Cycle) (w : Workspace) (moment : ResultTimestamp) : Reply Unit :=
  if c.permits .populateResult then
    match c.report w c.result c.view.model.graphs.toList with
    | (r, .ok ()) => ⟨{ c with result := r.stamp moment }, w, .ok ()⟩
    | (r, .error e) => ⟨{ c with result := r }, w, .error e⟩
  else c.refuse w .populateResult

/-- What the cache of a configuration holds, if the cycle has one. -/
def cache? (c : Cycle) (w : Workspace) (configuration : String) : Option Cache :=
  c.handles[configuration]?.map w.cache

/-- The values that a query asks for and the cache has, in the order asked. -/
def query (c : Cycle) (w : Workspace) (q : CacheQuery) : Except CycleError (List ComputedValue) :=
  match c.cache? w q.configuration with
  | some cache =>
    .ok (q.specifications.filterMap fun s => (cache.get? s).map fun v => ⟨s, v⟩)
  | none => .error (.unknownConfiguration q.configuration)

end Cycle
end ValuationCycle
