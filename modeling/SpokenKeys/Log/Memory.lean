import SpokenKeys.Log.Event

/-!
A log that keeps the latest events in memory, as many as its capacity and at
least one.
-/

namespace SpokenKeys.Log

/-- The latest events, the oldest first. -/
structure MemoryLog where
  capacity : Nat
  events : Array Event := #[]
  capacity_pos : 0 < capacity
deriving Repr

namespace MemoryLog

/-- An empty log of a capacity; one event is kept in any case. -/
def ofCapacity (capacity : Nat) : MemoryLog where
  capacity := max capacity 1
  capacity_pos := by omega

instance : Inhabited MemoryLog := ⟨ofCapacity Limits.logBuffer⟩

def toList (log : MemoryLog) : List Event := log.events.toList

def size (log : MemoryLog) : Nat := log.events.size

/-- The log with one more event, and without the oldest ones that no longer fit. -/
def record (log : MemoryLog) (event : Event) : MemoryLog :=
  let kept :=
    if log.capacity ≤ log.events.size then
      log.events.drop (log.events.size + 1 - log.capacity)
    else log.events
  { log with events := kept.push event }

/-- The log without its events. -/
def clear (log : MemoryLog) : MemoryLog := { log with events := #[] }

def withCode (log : MemoryLog) (code : Code) : List Event :=
  log.toList.filter fun event => event.code == code

/-- The events tagged with the number of an utterance. -/
def ofUtterance (log : MemoryLog) (number : Nat) : List Event :=
  log.toList.filter fun event => event.utteranceTag? == some (toString number)

/-- Whether there is an error with a code. -/
def hasError (log : MemoryLog) (code : Code) : Bool :=
  log.toList.any fun event => event.isError && event.code == code

@[simp] theorem toList_clear (log : MemoryLog) : log.clear.toList = [] := rfl

/-- Recording appends the event and keeps what fits of the others. -/
theorem toList_record (log : MemoryLog) (event : Event) :
    (log.record event).toList =
      log.toList.drop (log.size + 1 - log.capacity) ++ [event] := by
  simp only [record, toList, size, Array.toList_push]
  split
  · rw [Array.drop, Array.toList_extract, List.extract_eq_take_drop,
      List.take_of_length_le (by simp)]
  next h =>
    have : log.events.size + 1 - log.capacity = 0 := by omega
    simp [this]

end MemoryLog

end SpokenKeys.Log
