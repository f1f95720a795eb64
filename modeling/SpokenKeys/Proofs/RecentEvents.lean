import Mathlib.Data.List.DropRight
import SpokenKeys.Log.Memory

/-!
What a memory log holds after any calls: of the events since it was last cleared the latest
ones, as many as it has room for. One more event takes the place of the oldest in a full log,
and of none in any other.
-/

namespace SpokenKeys.Log

/-- A call that changes a memory log. -/
inductive Call where
  | record (event : Event)
  | clear

namespace Call

/-- The event that a call records. -/
def event? : Call → Option Event
  | .record event => some event
  | .clear => none

/-- The events that were recorded after the log was last cleared. -/
def sinceClear (calls : List Call) : List Event :=
  (calls.rtakeWhile fun call => call.event?.isSome).filterMap event?

theorem sinceClear_nil : sinceClear [] = [] := by
  rw [sinceClear, List.rtakeWhile_nil, List.filterMap_nil]

theorem sinceClear_record (calls : List Call) (event : Event) :
    sinceClear (calls ++ [.record event]) = sinceClear calls ++ [event] := by
  rw [sinceClear, List.rtakeWhile_concat_pos _ _ _ rfl, List.filterMap_append]
  rfl

theorem sinceClear_clear (calls : List Call) : sinceClear (calls ++ [.clear]) = [] := by
  rw [sinceClear, List.rtakeWhile_concat_neg _ _ _ (by simp [event?]), List.filterMap_nil]

end Call

/-- What falls out of the last elements is not among the last ones of a longer list either. -/
theorem rtake_rtake_append {α : Type} (count : Nat) (front back : List α) :
    (front.rtake count ++ back).rtake count = (front ++ back).rtake count := by
  simp only [List.rtake_eq_reverse_take_reverse, List.reverse_append, List.reverse_reverse,
    List.take_append, List.take_take]
  rw [Nat.min_eq_left (Nat.sub_le _ _)]

namespace MemoryLog

theorem size_eq (log : MemoryLog) : log.size = log.toList.length := Array.length_toList.symm

/-- Whatever the log holds, one more event leaves the last that there is room for. -/
theorem toList_record_rtake (log : MemoryLog) (event : Event) :
    (log.record event).toList = (log.toList ++ [event]).rtake log.capacity := by
  have hpos := log.capacity_pos
  have hdrop : log.size + 1 - log.capacity ≤ log.toList.length := by
    rw [← size_eq]
    omega
  rw [toList_record, List.rtake, List.length_append, List.length_singleton, ← size_eq,
    List.drop_append_of_le_length hdrop]

/-- The log with more events. -/
def recordAll (log : MemoryLog) (events : List Event) : MemoryLog := events.foldl record log

theorem recordAll_append (log : MemoryLog) (events more : List Event) :
    log.recordAll (events ++ more) = (log.recordAll events).recordAll more :=
  List.foldl_append

theorem capacity_recordAll (log : MemoryLog) (events : List Event) :
    (log.recordAll events).capacity = log.capacity := by
  induction events generalizing log with
  | nil => rfl
  | cons event rest ih => exact ih (log.record event)

theorem toList_recordAll_rtake {log : MemoryLog} (h : log.size ≤ log.capacity)
    (events : List Event) :
    (log.recordAll events).toList = (log.toList ++ events).rtake log.capacity := by
  induction events using List.reverseRecOn with
  | nil =>
      have hnone : log.toList.length - log.capacity = 0 := by
        rw [← size_eq]
        omega
      rw [List.append_nil, List.rtake, hnone, List.drop_zero]
      rfl
  | append_singleton events event ih =>
      have hlast : log.recordAll (events ++ [event]) = (log.recordAll events).record event :=
        recordAll_append log events [event]
      rw [hlast, toList_record_rtake, capacity_recordAll, ih, rtake_rtake_append,
        List.append_assoc]

/-- A log with room for them keeps all events. -/
theorem toList_recordAll {log : MemoryLog} {events : List Event}
    (hroom : log.size + events.length ≤ log.capacity) :
    (log.recordAll events).toList = log.toList ++ events := by
  have hnone : (log.toList ++ events).length - log.capacity = 0 := by
    rw [List.length_append, ← size_eq]
    omega
  rw [toList_recordAll_rtake (Nat.le_of_add_right_le hroom), List.rtake, hnone, List.drop_zero]

theorem size_recordAll {log : MemoryLog} {events : List Event}
    (hroom : log.size + events.length ≤ log.capacity) :
    (log.recordAll events).size = log.size + events.length := by
  rw [size_eq, toList_recordAll hroom, List.length_append, ← size_eq]

/-- The log after a call. -/
def apply (log : MemoryLog) : Call → MemoryLog
  | .record event => log.record event
  | .clear => log.clear

/-- The log after calls. -/
def run (log : MemoryLog) (calls : List Call) : MemoryLog := calls.foldl apply log

theorem run_concat (log : MemoryLog) (calls : List Call) (call : Call) :
    log.run (calls ++ [call]) = (log.run calls).apply call :=
  List.foldl_concat ..

theorem clear_recordAll (capacity : Nat) (events : List Event) :
    ((ofCapacity capacity).recordAll events).clear = ofCapacity capacity := by
  have hcapacity := capacity_recordAll (ofCapacity capacity) events
  rw [clear, ofCapacity]
  congr 1

/-- What was recorded before a log was cleared has left no trace in it. -/
theorem run_eq_recordAll (capacity : Nat) (calls : List Call) :
    (ofCapacity capacity).run calls = (ofCapacity capacity).recordAll (Call.sinceClear calls) := by
  induction calls using List.reverseRecOn with
  | nil => rw [Call.sinceClear_nil]; rfl
  | append_singleton calls call ih =>
      rw [run_concat, ih]
      cases call with
      | record event =>
          rw [Call.sinceClear_record, recordAll_append]
          rfl
      | clear =>
          rw [Call.sinceClear_clear]
          exact clear_recordAll capacity _

/-- A memory log is a window on the latest events. After any calls it holds, in their order,
the last of the events since it was cleared, as many as its capacity and at least one, or all
of them if they are no more; and its size is their number. The next event leaves out the
oldest one if the log is full, and none if it is not. -/
theorem memory_is_sliding_window (capacity : Nat) (calls : List Call) :
    let log := (ofCapacity capacity).run calls
    let events := Call.sinceClear calls
    let kept := min events.length (max capacity 1)
    log.toList = events.rtake kept ∧ log.size = kept ∧
      ∀ event, (log.record event).toList =
        (if log.size = max capacity 1 then log.toList.tail else log.toList) ++ [event] := by
  intro log events kept
  have hrun : log = (ofCapacity capacity).recordAll events := run_eq_recordAll capacity calls
  have hcapacity : log.capacity = max capacity 1 := by
    rw [hrun, capacity_recordAll]
    rfl
  have hlist : log.toList = events.rtake (max capacity 1) := by
    rw [hrun, toList_recordAll_rtake (Nat.zero_le _)]
    rfl
  have hsize : log.size = kept := by
    rw [size_eq, hlist, List.rtake, List.length_drop]
    omega
  refine ⟨?_, hsize, fun event => ?_⟩
  · have hsame : events.length - max capacity 1 = events.length - kept := by omega
    rw [hlist, List.rtake, hsame, List.rtake]
  · rw [toList_record, hcapacity]
    split
    next hfull =>
      have hone : log.size + 1 - max capacity 1 = 1 := by omega
      rw [hone, List.drop_one]
    next hroom =>
      have hnone : log.size + 1 - max capacity 1 = 0 := by omega
      rw [hnone, List.drop_zero]

/-- A log with room for one event keeps the last since it was cleared. -/
example (first second third : Event) :
    ((ofCapacity 0).run [.record first, .clear, .record second, .record third]).toList =
      [third] := rfl

end MemoryLog

end SpokenKeys.Log
