import ValuationCycle.Cache.Basic

/-!
# Dumps

A dump is a text file that lists the visible entries of one cache, a record for
each specification's text in the order of the texts. The name of the file begins
with the name of the configuration and ends in a random part; a file can be
written when its directory is there and the system accepts such a name. Files
are never replaced.
-/
namespace ValuationCycle
open Json Std

structure Dump where
  configuration : String
  records : List (String × Value)

namespace Dump

/-- The dump of what a cache holds. Of two entries whose specifications have the
same text the later one counts. -/
def ofCache (configuration : String) (c : Cache) : Dump :=
  ⟨configuration, (c.entries.foldl (fun (m : ExtTreeMap String Value) e =>
    m.insert (toString e.1) e.2) ∅).toList⟩

def line (r : String × Value) : String := r.1 ++ " -> " ++ r.2.text

def text (d : Dump) : String := String.join (d.records.map fun r => line r ++ "\n")

/-- What the name of the file begins with. -/
def stem (d : Dump) : String := "computation-cache-" ++ d.configuration

/-- The longest file name, in bytes. -/
def maxNameSize : Nat := 255

/-- What follows the stem in a file name: a dash, six random letters and `.txt`. -/
def nameRestSize : Nat := 11

/-- Whether a file name that begins with the stem is one that the system accepts. -/
def isNameable (d : Dump) : Bool :=
  !d.configuration.contains '/' && !d.configuration.contains '\x00' &&
    d.stem.utf8ByteSize + nameRestSize ≤ maxNameSize

end Dump

/-- A directory for dumps: it is missing, or holds the dumps written so far. -/
inductive DumpDirectory where
  | missing
  | holding (dumps : List Dump)

namespace DumpDirectory

def dumps : DumpDirectory → List Dump
  | missing => []
  | holding ds => ds

def write? (directory : DumpDirectory) (d : Dump) : Option DumpDirectory :=
  match directory with
  | missing => none
  | holding ds => if d.isNameable then some (holding (ds ++ [d])) else none

/-- Writes dumps up to the first that cannot be written; tells whether all were. -/
def writeAll (directory : DumpDirectory) : List Dump → DumpDirectory × Bool
  | [] => (directory, true)
  | d :: rest =>
    match directory.write? d with
    | none => (directory, false)
    | some directory => directory.writeAll rest

end DumpDirectory
end ValuationCycle
