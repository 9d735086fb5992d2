import ValuationCycle.Time

/-!
# Configuration of cycles

A cycle waits for one execution at most the poll interval before it turns to
the next, and writes dumps into a directory, or into the one of the system if
none is named. Both have defaults.
-/
namespace ValuationCycle
open Json

structure CycleConfig where
  pollInterval : Span := Span.seconds 5 (by decide)
  dumpDirectory : Option String := none
  deriving DecidableEq

namespace CycleConfig

def toDocument (c : CycleConfig) : Document :=
  .record [("poll_interval", c.pollInterval.toDocument),
    ("dump_directory", match c.dumpDirectory with | none => .null | some path => .str path)]

/-- Read from a record that only needs to mention what it changes. -/
def ofDocument? : Reader CycleConfig := fun levels d => do
  let r ← Record.ofDocument? ["poll_interval", "dump_directory"] levels d
  return ⟨← r.defaulted "poll_interval" (Span.seconds 5 (by decide)) Span.ofDocument?,
    ← r.defaulted "dump_directory" none (Reader.optional .string)⟩

end CycleConfig
end ValuationCycle
