import ValuationCycle.Cache.Dump
import ValuationCycle.Cache.Source
import ValuationCycle.Cache.Identifiers
import ValuationCycle.Cycle.Statistics
import ValuationCycle.Function.Repository
import ValuationCycle.Market.LiveData

/-!
# Workspaces

A workspace is what the cycles of all views have in common: the live data, the
source of caches, the numbers of specifications, the functions, the statistics
and the directory for dumps.
-/
namespace ValuationCycle

structure Workspace where
  liveData : LiveData
  caches : CacheSource
  identifiers : Identifiers
  repository : Repository
  statistics : Statistics
  dumps : DumpDirectory

namespace Workspace

def new (repository : Repository) (dumps : DumpDirectory) : Workspace :=
  ⟨.empty, .empty, .empty, repository, .empty, dumps⟩

def updateCache (w : Workspace) (h : CacheHandle) (f : Cache → Cache) : Workspace :=
  { w with caches := w.caches.update h f }

def cache (w : Workspace) (h : CacheHandle) : Cache := w.caches.cache h

end Workspace
end ValuationCycle
