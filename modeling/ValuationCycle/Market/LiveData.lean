import ValuationCycle.Specification
import ValuationCycle.Market.Changes
import ValuationCycle.Time

/-!
# Live data

The market holds the current value of every requirement that has one. Cycles do
not read it directly: they read the snapshot of a valuation time, which is taken
when it is first asked for and stays as it is until it is released. A value set
or removed is worth announcing when the market changed by it.
-/
namespace ValuationCycle
open Json Std

abbrev Market := ExtTreeMap Requirement Value

structure LiveData where
  current : Market
  snapshots : ExtTreeMap ValuationTime Market

namespace LiveData

def empty : LiveData := ⟨∅, ∅⟩

def changeOfSet (d : LiveData) (r : Requirement) (v : Value) : Option ChangeEvent :=
  match d.current[r]? with
  | none => some ⟨.added, r.target.identifier⟩
  | some held => if held.same v then none else some ⟨.changed, r.target.identifier⟩

def set (d : LiveData) (r : Requirement) (v : Value) : LiveData × Option ChangeEvent :=
  ({ d with current := d.current.insert r v }, d.changeOfSet r v)

def remove (d : LiveData) (r : Requirement) : LiveData × Option ChangeEvent :=
  ({ d with current := d.current.erase r },
    if d.current.contains r then some ⟨.removed, r.target.identifier⟩ else none)

/-- Takes the snapshot of a time, unless there is one. -/
def snapshot (d : LiveData) (t : ValuationTime) : LiveData :=
  { d with snapshots := d.snapshots.insertIfNew t d.current }

/-- The value of a requirement in the snapshot of a time, which is taken first if
there is none. -/
def query (d : LiveData) (t : ValuationTime) (r : Requirement) : LiveData × Option Value :=
  (d.snapshot t, ((d.snapshot t).snapshots[t]?.getD ∅)[r]?)

def release (d : LiveData) (t : ValuationTime) : LiveData :=
  { d with snapshots := d.snapshots.erase t }

end LiveData

structure Exchange (α : Type) where
  data : LiveData
  board : Board α

namespace Exchange
variable {α : Type}

def new (board : Board α) : Exchange α := ⟨.empty, board⟩

/-- Everyone registered, with the event, if there is one to announce. -/
def announce (e : Exchange α) (event : Option ChangeEvent) : List (α × ChangeEvent) :=
  match event with
  | some event => e.board.audience.map (·, event)
  | none => []

/-- Sets a market value and announces the change, if it is one. -/
def set (e : Exchange α) (r : Requirement) (v : Value) : Exchange α × List (α × ChangeEvent) :=
  let (data, event) := e.data.set r v
  ({ e with data }, e.announce event)

def remove (e : Exchange α) (r : Requirement) : Exchange α × List (α × ChangeEvent) :=
  let (data, event) := e.data.remove r
  ({ e with data }, e.announce event)

end Exchange
end ValuationCycle
