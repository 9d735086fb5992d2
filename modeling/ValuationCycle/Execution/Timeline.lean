import ValuationCycle.Execution.Waiting

/-!
# Timelines

A timeline tells what the waits of a cycle see when it is known who executes
the graph of each configuration.

Its instants are numbered, three for each tick of a clock that ticks once a
millisecond; waiting begins at tick 0. A delay is over at the first tick by which
it has wholly passed, and since it begins between two ticks that is one tick more
than it has milliseconds. At instant `3 * m` waits time out at tick `m`; at
`3 * m + 1` the interrupter fires and executions elsewhere end, in this order.

All executions begin at instant 1, while the cycle first waits. Some end there: those
elsewhere that need no time, and the runs here that need no calculation node. All
other runs here have their answers at instant 2, before the first wait times out; a
wait that ends before that leaves them as they began.
-/
namespace ValuationCycle

inductive Backend where
  /-- It is run here. -/
  | here
  /-- It is executed elsewhere and never ends. -/
  | never
  /-- It is executed elsewhere and ends as it begins. -/
  | atOnce (ending : Ending)
  /-- It is executed elsewhere and ends after some milliseconds. -/
  | after (delay : Nat) (ending : Ending)

/-- Who executes what, how many milliseconds a wait lasts at most, and after how
many the interrupter fires. -/
structure Timeline where
  backend : String → Backend
  poll : Nat
  interruptAfter : Option Nat

namespace Timeline

def delayed (delay : Nat) : Nat := 3 * (delay + 1) + 1

/-- Whether the interrupter has fired by an instant. -/
def interruptedBy (t : Timeline) (instant : Nat) : Bool :=
  t.interruptAfter.any fun delay => delayed delay ≤ instant

def timeout (t : Timeline) (now : Nat) : Nat := 3 * (now / 3 + t.poll + 1)

/-- What a wait that begins at an instant sees of an execution that ends at some
instant or never, and when the wait is over. -/
def see (t : Timeline) (now : Nat) (ending : Option (Nat × Ending)) : Seen × Nat :=
  match ending.filter fun e => e.1 < t.timeout now with
  | some (instant, e) =>
    let later := max now instant
    (if t.interruptedBy later then .interrupted else .ended e, later)
  | none =>
    let later := t.timeout now
    (if t.interruptedBy later then .interrupted else .timedOut, later)

def ours (t : Timeline) (names : List String) : List String :=
  names.filter fun name => t.backend name matches .here

/-- What executions do when they begin. -/
def launch (t : Timeline) (names : List String) (x : Execution) : Execution :=
  (t.ours names).foldl Execution.launch x

/-- What executions do once the cycle waits for longer. -/
def drain (t : Timeline) (names : List String) (x : Execution) : Execution :=
  (t.ours names).foldl Execution.drain x

/-- What executions do after one instant and up to another. -/
def work (t : Timeline) (names : List String) (now later : Nat) (x : Execution) : Execution :=
  let x := if now < 1 ∧ 1 ≤ later then t.launch names x else x
  if now < 2 ∧ 2 ≤ later then t.drain names x else x

/-- When and how an execution ends, by what the runs here are at instants 1 and 2. -/
def ending? (t : Timeline) (launched drained : Execution) (name : String) :
    Option (Nat × Ending) :=
  match t.backend name with
  | .here =>
    match launched.ending? name with
    | some e => some (1, e)
    | none => (drained.ending? name).map fun e => (2, e)
  | .never => none
  | .atOnce ending => some (1, ending)
  | .after delay ending => some (delayed delay, ending)

/-- At most so many waits for what is in the queue, from an instant on. -/
def waitsFrom (t : Timeline) (names : List String) (ending? : String → Option (Nat × Ending)) :
    Nat → Nat → List String → List Wait
  | 0, _, _ => []
  | _, _, [] => []
  | count + 1, now, name :: rest =>
    let (seen, later) := t.see now (ending? name)
    ⟨false, t.work names now later, seen⟩ :: match seen with
      | .timedOut => t.waitsFrom names ending? count later (rest ++ [name])
      | .ended (.ok ()) => t.waitsFrom names ending? count later rest
      | _ => []

/-- The instant by which everything that depends on the clock has happened. -/
def last (t : Timeline) (names : List String) : Nat :=
  (t.interruptAfter.toList.map delayed ++ names.filterMap fun name =>
    match t.backend name with
    | .after delay _ => some (delayed delay)
    | _ => none).foldl max 2

/-- The waits for submitted executions; there are as many as it takes for
everything to happen. -/
def waits (t : Timeline) (names : List String) (x : Execution) : List Wait :=
  let launched := t.launch names x
  let drained := t.drain names launched
  t.waitsFrom names (t.ending? launched drained)
    (t.last names / (t.poll + 1) + 2 * names.length + 2) 0 names

end Timeline
end ValuationCycle
