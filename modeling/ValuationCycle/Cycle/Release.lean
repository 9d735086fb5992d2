import ValuationCycle.Cycle.Basic

/-!
# Releasing resources

A cycle that has come to its end lets go of the snapshot of its time and of the
caches of its view at that time. If the view asks for it, the caches are dumped
first; a dump that cannot be written is reported and prevents nothing.
-/
namespace ValuationCycle

def dumpWarning : String := "failed to dump computation caches"

namespace Cycle

def dumps (c : Cycle) (w : Workspace) : List Dump :=
  c.handles.toList.map fun e => .ofCache e.1 (w.cache e.2)

/-- Writes the dumps up to the first that cannot be written; tells whether all
were. -/
def dump (c : Cycle) (w : Workspace) : Workspace × Bool :=
  let (dumps, all) := w.dumps.writeAll (c.dumps w)
  ({ w with dumps }, all)

/-- Releases the resources of the cycle; answers whether every dump asked for was
written. -/
def release (c : Cycle) (w : Workspace) : Reply Bool :=
  if c.permits .releaseResources then
    let (w, dumped) := if c.view.definition.dumpsCaches then c.dump w else (w, true)
    let w := { w with
      liveData := w.liveData.release c.time
      caches := w.caches.release c.view.name c.time }
    ⟨{ c with handles := ∅, state := .cleaned }, w, .ok dumped⟩
  else c.refuse w .releaseResources

end Cycle
end ValuationCycle
