import Radish.RadishEvent

/-!
# Compaction strategies

What each event type does to the map of surviving events. The four strategies share the
signature of `CompactStrategy::Execute`; `value` is the checked access to an optional.
-/

namespace Radish
set_option autoImplicit false

variable {V : Type}

abbrev EventsMap (V : Type) := DataMap (RadishEvent V)

abbrev CompactStrategy (V : Type) := EventsMap V → RadishEvent V → Except Exception (EventsMap V)

/-- `std::optional::value` -/
def value {α : Type} : Option α → Except Exception α
  | some a => .ok a
  | none => .error .badOptionalAccess

@[simp] theorem value_some {α : Type} (a : α) : value (some a) = .ok a := rfl

/-- The source dereferences the key unchecked; an event without one is outside its contract. -/
def createCompactStrategy : CompactStrategy V := fun events event => do
  let key ← value event.key
  return events.insert key event

/-- The entry is erased before it is inserted again under its new key, so renaming a key onto
itself keeps it. -/
def renameCompactStrategy : CompactStrategy V := fun events event => do
  let key ← value event.key
  match events.lookup key with
  | none => return events
  | some entry =>
    let renameKey ← value event.renameKey
    return (events.erase key).insert renameKey { entry with key := some renameKey }

def deleteCompactStrategy : CompactStrategy V := fun events event => do
  let key ← value event.key
  return events.erase key

def clearCompactStrategy : CompactStrategy V := fun _ _ => return ∅

/-- `m_compactStrategies` after `InitializeCompactStrategies` -/
def compactStrategies : EventType → Option (CompactStrategy V)
  | .create => some createCompactStrategy
  | .rename => some renameCompactStrategy
  | .delete => some deleteCompactStrategy
  | .clear => some clearCompactStrategy
  | .unnamed _ _ => none

end Radish
