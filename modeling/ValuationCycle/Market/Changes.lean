import ValuationCycle.Target

/-!
# Announcements of changes

A board announces that an entity was added, changed or removed to everyone who
is registered at that moment, in the order of registration. Registrations are
numbered from one and a number is never used again. A silent board registers
and announces nothing.
-/
namespace ValuationCycle

inductive ChangeType where
  | added | changed | removed
  deriving DecidableEq

def ChangeType.name : ChangeType → String
  | added => "Added"
  | changed => "Changed"
  | removed => "Removed"

structure ChangeEvent where
  change : ChangeType
  entity : UniqueId
  deriving DecidableEq

/-- Registrations of listeners, each with its number, and the last number used. Numbers are kept in
words of 64 bits, so this is right for fewer than `2 ^ 64` registrations in all. -/
structure Listeners (α : Type) where
  last : Nat
  registered : List (Nat × α)

namespace Listeners
variable {α : Type}

def empty : Listeners α := ⟨0, []⟩

def add (l : Listeners α) (listener : α) : Listeners α × Nat :=
  (⟨l.last + 1, l.registered ++ [(l.last + 1, listener)]⟩, l.last + 1)

/-- Ends a registration; tells whether there was one. -/
def remove (l : Listeners α) (number : Nat) : Listeners α × Bool :=
  (⟨l.last, l.registered.filter fun r => r.1 != number⟩,
    l.registered.any fun r => r.1 == number)

end Listeners

inductive Board (α : Type) where
  | silent
  | announcing (listeners : Listeners α)

namespace Board
variable {α : Type}

/-- Registers a listener; a silent board gives every listener the number zero. -/
def add (b : Board α) (listener : α) : Board α × Nat :=
  match b with
  | silent => (silent, 0)
  | announcing l => (announcing (l.add listener).1, (l.add listener).2)

def remove (b : Board α) (number : Nat) : Board α × Bool :=
  match b with
  | silent => (silent, false)
  | announcing l => (announcing (l.remove number).1, (l.remove number).2)

/-- Who hears an announcement made now, in order. -/
def audience : Board α → List α
  | silent => []
  | announcing l => l.registered.map Prod.snd

end Board
end ValuationCycle
