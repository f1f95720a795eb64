import Mathlib.Data.List.Infix
import SpokenKeys.Log.Event

/-!
Where the messages of events are cut. The search for the place goes back from the size limit
byte by byte; it always finds one, at most three bytes back, and what stands before it is the
longest run of whole characters that takes no more than the limit.
-/

namespace SpokenKeys.Log

/-- The search comes to the last place at the byte or before it. It never runs past the first
byte, where every text has a place. -/
theorem placeUpTo?_eq (text : String) (byte : Nat) :
    placeUpTo? text byte = some (text.posLE ⟨byte⟩) := by
  induction byte with
  | zero =>
      have hvalid : String.Pos.Raw.IsValid text ⟨0⟩ := String.Pos.Raw.isValid_zero
      rw [placeUpTo?, dif_pos hvalid, String.pos_eq_posLE]
  | succ byte ih =>
      rw [placeUpTo?]
      by_cases hvalid : String.Pos.Raw.IsValid text ⟨byte + 1⟩
      · rw [dif_pos hvalid, String.pos_eq_posLE]
      · rw [dif_neg hvalid, ih]
        refine congrArg some (String.posLE_eq_iff.mpr ⟨?_, fun other hother => ?_⟩).symm
        · have hle : (text.posLE ⟨byte⟩).offset.byteIdx ≤ byte := String.offset_posLE_le
          exact Nat.le_succ_of_le hle
        · -- No place stands at the byte after.
          have hne : other.offset.byteIdx ≠ byte + 1 := by
            intro heq
            exact hvalid (heq ▸ other.isValid)
          have hle : other.offset.byteIdx ≤ byte + 1 := hother
          exact String.le_posLE_iff.mpr (Nat.le_of_lt_succ (Nat.lt_of_le_of_ne hle hne))

/-- In the middle of a character of three bytes the search goes back to its first. -/
example : (placeUpTo? "a€b" 3).map (fun place => place.offset.byteIdx) = some 1 := by decide

/-- Of the runs of whole characters at the front of a text that take no more than so many
bytes, `kept` is the longest: every other one stands at its front. -/
structure IsLongestFront (text : String) (bytes : Nat) (kept : String) : Prop where
  front : kept.toList <+: text.toList
  fits : kept.utf8ByteSize ≤ bytes
  longest : ∀ other : String, other.toList <+: text.toList → other.utf8ByteSize ≤ bytes →
    other.toList <+: kept.toList

theorem prefix_iff_eq_append {text front : String} :
    front.toList <+: text.toList ↔ ∃ rest, text = front ++ rest := by
  constructor
  · rintro ⟨rest, hrest⟩
    refine ⟨String.ofList rest, ?_⟩
    rw [← String.toList_inj, String.toList_append, String.toList_ofList, hrest]
  · rintro ⟨rest, rfl⟩
    rw [String.toList_append]
    exact List.prefix_append _ _

/-- The end of a run of whole characters is a place. -/
theorem exists_splits {text front rest : String} (h : text = front ++ rest) :
    ∃ place : text.Pos, place.Splits front rest := by
  have hvalid : front.rawEndPos.IsValid text :=
    String.Pos.Raw.isValid_iff_exists_append.mpr ⟨front, rest, h, rfl⟩
  exact ⟨text.pos _ hvalid, h, rfl⟩

theorem byteIdx_of_splits {text front rest : String} {place : text.Pos}
    (h : place.Splits front rest) : place.offset.byteIdx = front.utf8ByteSize :=
  congrArg String.Pos.Raw.byteIdx h.offset_eq_rawEndPos

/-- What stands before the last place up to a byte. -/
theorem isLongestFront_posLE (text : String) (bytes : Nat) :
    IsLongestFront text bytes (text.sliceTo (text.posLE ⟨bytes⟩)).copy := by
  have hsplits := (text.posLE ⟨bytes⟩).splits
  have hle : (text.posLE ⟨bytes⟩).offset.byteIdx ≤ bytes := String.offset_posLE_le
  refine ⟨prefix_iff_eq_append.mpr ⟨_, hsplits.eq_append⟩, byteIdx_of_splits hsplits ▸ hle,
    fun other hfront hfits => ?_⟩
  obtain ⟨rest, htext⟩ := prefix_iff_eq_append.mp hfront
  obtain ⟨place, hplace⟩ := exists_splits htext
  have hbefore : place ≤ text.posLE ⟨bytes⟩ :=
    String.le_posLE_iff.mpr ((byteIdx_of_splits hplace).trans_le hfits)
  obtain ⟨between, hkept, -⟩ := (hplace.le_iff_exists_eq_append hsplits).mp hbefore
  exact prefix_iff_eq_append.mpr ⟨between, hkept⟩

/-- No character takes more than four bytes, so less than four stay free where something is
left out. -/
theorem IsLongestFront.lt_byteSize {text kept : String} {bytes : Nat}
    (h : IsLongestFront text bytes kept) (hlong : bytes < text.utf8ByteSize) :
    bytes < kept.utf8ByteSize + 4 := by
  obtain ⟨rest, htext⟩ := h.front
  cases rest with
  | nil =>
      rw [List.append_nil, String.toList_inj] at htext
      have hfits := h.fits
      rw [htext] at hfits
      omega
  | cons next rest =>
      by_contra hfree
      have hnext := next.utf8Size_le_four
      have hsize : (kept.push next).utf8ByteSize = kept.utf8ByteSize + next.utf8Size :=
        String.utf8ByteSize_push
      have hfront : (kept.push next).toList <+: text.toList :=
        ⟨rest, by rw [String.toList_push, List.append_assoc, List.singleton_append, htext]⟩
      have hlonger := (h.longest _ hfront (by omega)).length_le
      rw [String.toList_push, List.length_append, List.length_singleton] at hlonger
      omega

/-- The message of an event is the given one if that takes no more bytes than the limit. If
it takes more, the message is the longest run of whole characters at its front that does
not, with three dots after it. The search for the end of this run goes back at most three
bytes from the limit, and it finds one. -/
theorem messages_cut_between_characters (level : Level) (code : Code) (message : String) :
    let event := Event.make level code message
    (message.utf8ByteSize ≤ Limits.messageBytes → event.message = message) ∧
    (Limits.messageBytes < message.utf8ByteSize →
      ∃ (kept : String) (place : message.Pos),
        IsLongestFront message Limits.messageBytes kept ∧ event.message = kept ++ "..." ∧
          placeUpTo? message Limits.messageBytes = some place ∧
          place.offset.byteIdx = kept.utf8ByteSize ∧
          Limits.messageBytes ≤ place.offset.byteIdx + 3) := by
  intro event
  refine ⟨fun hshort => if_pos hshort, fun hlong => ?_⟩
  have hplace := placeUpTo?_eq message Limits.messageBytes
  have hkept := isLongestFront_posLE message Limits.messageBytes
  have hsize := byteIdx_of_splits (message.posLE ⟨Limits.messageBytes⟩).splits
  refine ⟨_, _, hkept, ?_, hplace, hsize, ?_⟩
  · dsimp only [event, Event.make]
    rw [cutMessage, if_neg (Nat.not_le.mpr hlong), hplace]
  · have hfree := hkept.lt_byteSize hlong
    omega

end SpokenKeys.Log
