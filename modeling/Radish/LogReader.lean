import Radish.Library.Incremental
import Radish.RadishEvent

/-!
# LogReader

One iteration of the record loop of `GetEvents` is a verdict on the bytes still in the file:
the loop breaks where the file ends inside a record, and throws on anything malformed. The
loop itself is the library's `drain` of that verdict.
-/

namespace Radish.LogReader
set_option autoImplicit false
open Incremental

variable {V : Type} [BinaryValue V]

/-- `RADISH`, a zero byte and the format version. -/
def kHeader : Bytes := [82, 65, 68, 73, 83, 72, 0, 1]

def kMaxRecordSize : Nat := 64 * 1024 * 1024

def readHeader (file : Bytes) : Except Exception Bytes :=
  match BinaryFile.readBytes 8 file with
  | none => .error (.runtimeError "Truncated persistence log")
  | some (header, file) =>
    if header ≠ kHeader then
      .error (.runtimeError "Unsupported or corrupt persistence log header")
    else .ok file

/-- A record whose bytes are all there: it must hold one event and nothing more. -/
def readBody (record rest : Bytes) : Verdict UInt8 (RadishEvent V) Exception :=
  match RadishEvent.deserialize record with
  | .error e => .failed e
  | .ok (event, trailing) =>
    if trailing ≠ [] then .failed (.runtimeError "Persistence record contains trailing bytes")
    else .complete event rest

def readRecord (file : Bytes) : Verdict UInt8 (RadishEvent V) Exception :=
  match BinaryFile.readBytes 4 file with
  | none => .incomplete
  | some (size, file) =>
    let recordSize := LittleEndian.decode size
    if recordSize = 0 ∨ recordSize > kMaxRecordSize then
      .failed (.runtimeError "Invalid persistence record length")
    else
      match BinaryFile.readBytes recordSize file with
      | none => .incomplete
      | some (record, file) => readBody record file

/-- A file that ends inside the length field, or inside the body a valid length announces. -/
def TornTail (file : Bytes) : Prop :=
  file.length < 4 ∨
    ∃ size body, file = size ++ body ∧ size.length = 4 ∧ 1 ≤ LittleEndian.decode size ∧
      LittleEndian.decode size ≤ kMaxRecordSize ∧ body.length < LittleEndian.decode size

/-- The three ways a file may start. -/
theorem readRecord_cases (file : Bytes) :
    (TornTail file ∧ readRecord (V := V) file = .incomplete) ∨
    (∃ size rest, file = size ++ rest ∧ size.length = 4 ∧
      (LittleEndian.decode size = 0 ∨ LittleEndian.decode size > kMaxRecordSize) ∧
      readRecord (V := V) file = .failed (.runtimeError "Invalid persistence record length")) ∨
    (∃ size record rest, file = size ++ (record ++ rest) ∧ size.length = 4 ∧
      1 ≤ LittleEndian.decode size ∧ LittleEndian.decode size ≤ kMaxRecordSize ∧
      record.length = LittleEndian.decode size ∧
      readRecord (V := V) file = readBody record rest) := by
  unfold readRecord
  cases hsize : BinaryFile.readBytes 4 file with
  | none =>
    have hshort : file.length < 4 := by
      simpa [BinaryFile.readBytes] using hsize
    exact Or.inl ⟨Or.inl hshort, rfl⟩
  | some pair =>
    obtain ⟨size, rest⟩ := pair
    obtain ⟨hlen, rfl⟩ := BinaryFile.readBytes_eq_some_iff.mp hsize
    dsimp only
    by_cases hbad : LittleEndian.decode size = 0 ∨ LittleEndian.decode size > kMaxRecordSize
    · rw [if_pos hbad]
      exact Or.inr (Or.inl ⟨size, rest, rfl, hlen, hbad, rfl⟩)
    · rw [if_neg hbad]
      rw [not_or, Nat.not_lt] at hbad
      cases hbody : BinaryFile.readBytes (LittleEndian.decode size) rest with
      | none =>
        have hshort : rest.length < LittleEndian.decode size := by
          simpa [BinaryFile.readBytes] using hbody
        exact Or.inl ⟨Or.inr ⟨size, rest, rfl, hlen, by omega, hbad.2, hshort⟩, rfl⟩
      | some pair =>
        obtain ⟨record, rest⟩ := pair
        obtain ⟨hrecord, rfl⟩ := BinaryFile.readBytes_eq_some_iff.mp hbody
        exact Or.inr (Or.inr ⟨size, record, rest, rfl, hlen, by omega, hbad.2, hrecord, rfl⟩)

theorem readRecord_body {size record : Bytes} (rest : Bytes) (hlen : size.length = 4)
    (hpos : 1 ≤ LittleEndian.decode size) (hmax : LittleEndian.decode size ≤ kMaxRecordSize)
    (hrecord : record.length = LittleEndian.decode size) :
    readRecord (V := V) (size ++ (record ++ rest)) = readBody record rest := by
  unfold readRecord
  rw [BinaryFile.readBytes_eq_some_iff.mpr ⟨hlen, rfl⟩]
  dsimp only
  rw [if_neg (by omega), BinaryFile.readBytes_eq_some_iff.mpr ⟨hrecord, rfl⟩]

theorem readRecord_badLength {size : Bytes} (rest : Bytes) (hlen : size.length = 4)
    (hbad : LittleEndian.decode size = 0 ∨ LittleEndian.decode size > kMaxRecordSize) :
    readRecord (V := V) (size ++ rest) =
      .failed (.runtimeError "Invalid persistence record length") := by
  unfold readRecord
  rw [BinaryFile.readBytes_eq_some_iff.mpr ⟨hlen, rfl⟩]
  dsimp only
  rw [if_pos hbad]

theorem readBody_ne_incomplete (record rest : Bytes) :
    readBody (V := V) record rest ≠ .incomplete := by
  unfold readBody
  split
  · simp
  · split <;> simp

theorem readBody_eq_complete_iff {record rest rest' : Bytes} {event : RadishEvent V} :
    readBody record rest = .complete event rest' ↔
      RadishEvent.deserialize record = .ok (event, []) ∧ rest' = rest := by
  unfold readBody
  cases h : RadishEvent.deserialize (V := V) record with
  | error e => simp
  | ok pair =>
    obtain ⟨e, trailing⟩ := pair
    by_cases ht : trailing = []
    · simp [ht, eq_comm]
    · simp [ht]

theorem readBody_failed_append {record rest : Bytes} {e : Exception}
    (h : readBody (V := V) record rest = .failed e) (t : Bytes) :
    readBody (V := V) record (rest ++ t) = .failed e := by
  revert h
  unfold readBody
  split
  · exact id
  · split
    · exact id
    · intro h
      cases h

/-- The record loop as an incremental decoder: bytes appended later change no verdict but
`incomplete`. -/
def recordDecoder : Decoder UInt8 (RadishEvent V) Exception where
  step := readRecord
  shrinks := by
    intro file event rest h
    rcases readRecord_cases (V := V) file with ⟨_, hi⟩ | ⟨_, _, _, _, _, hf⟩ |
      ⟨size, record, rest', rfl, hlen, _, _, _, hb⟩
    · rw [hi] at h
      cases h
    · rw [hf] at h
      cases h
    · rw [hb] at h
      rw [(readBody_eq_complete_iff.mp h).2]
      simp only [List.length_append]
      omega
  complete_append := by
    intro file event rest t h
    rcases readRecord_cases (V := V) file with ⟨_, hi⟩ | ⟨_, _, _, _, _, hf⟩ |
      ⟨size, record, rest', rfl, hlen, hpos, hmax, hrecord, hb⟩
    · rw [hi] at h
      cases h
    · rw [hf] at h
      cases h
    · rw [hb] at h
      obtain ⟨hd, rfl⟩ := readBody_eq_complete_iff.mp h
      rw [List.append_assoc, List.append_assoc, readRecord_body _ hlen hpos hmax hrecord]
      exact readBody_eq_complete_iff.mpr ⟨hd, rfl⟩
  failed_append := by
    intro file e t h
    rcases readRecord_cases (V := V) file with ⟨_, hi⟩ | ⟨size, rest, rfl, hlen, hbad, hf⟩ |
      ⟨size, record, rest', rfl, hlen, hpos, hmax, hrecord, hb⟩
    · rw [hi] at h
      cases h
    · rw [hf] at h
      rw [List.append_assoc, readRecord_badLength _ hlen hbad]
      exact h
    · rw [hb] at h
      rw [List.append_assoc, List.append_assoc, readRecord_body _ hlen hpos hmax hrecord]
      exact readBody_failed_append h t

@[simp] theorem recordDecoder_step (file : Bytes) :
    (recordDecoder (V := V)).step file = readRecord file := rfl

/-- The decoder waits exactly on a torn tail. -/
theorem readRecord_eq_incomplete_iff {file : Bytes} :
    readRecord (V := V) file = .incomplete ↔ TornTail file := by
  constructor
  · intro h
    rcases readRecord_cases (V := V) file with ⟨ht, _⟩ | ⟨_, _, _, _, _, hf⟩ |
      ⟨_, record, rest, _, _, _, _, _, hb⟩
    · exact ht
    · rw [hf] at h
      cases h
    · exact absurd (hb ▸ h) (readBody_ne_incomplete record rest)
  · rintro (hshort | ⟨size, body, rfl, hlen, hpos, hmax, hbody⟩)
    · simp [readRecord, BinaryFile.readBytes, Nat.not_le.mpr hshort]
    · unfold readRecord
      rw [BinaryFile.readBytes_eq_some_iff.mpr ⟨hlen, rfl⟩]
      dsimp only
      rw [if_neg (by omega)]
      simp [BinaryFile.readBytes, Nat.not_le.mpr hbody]

/-- `GetEvents`, where `fault` is what a failing open or read of an existing file throws. -/
def getEvents (fault : Option Exception) : Option Bytes → Except Exception (List (RadishEvent V))
  | none => .ok []
  | some file =>
    match fault with
    | some e => .error e
    | none => do
      let file ← readHeader file
      match recordDecoder.drain file with
      | (events, .waiting _) => .ok events
      | (_, .rejected e) => .error e

theorem readHeader_eq_ok_iff {file rest : Bytes} :
    readHeader file = .ok rest ↔ file = kHeader ++ rest := by
  unfold readHeader
  constructor
  · intro h
    split at h
    · cases h
    · rename_i header file' hread
      obtain ⟨_, rfl⟩ := BinaryFile.readBytes_eq_some_iff.mp hread
      split at h
      · cases h
      · rename_i hheader
        rw [not_not.mp hheader, Except.ok.inj h]
  · rintro rfl
    have hread : BinaryFile.readBytes 8 (kHeader ++ rest) = some (kHeader, rest) :=
      BinaryFile.readBytes_eq_some_iff.mpr ⟨rfl, rfl⟩
    simp [hread]

end Radish.LogReader
