import Radish.LogWriter

/-!
# The grammar of the log

`WriteRecord` and the record loop of `GetEvents` are an encoding and an exact decoder of it,
so a log is readable exactly when it is a header, whole frames and a torn tail.
-/

namespace Radish.LogWriter
set_option autoImplicit false
open Incremental LogReader

variable {V : Type} [BinaryValue V]

/-- The bytes of an event's record, empty when `WriteRecord` refuses it. -/
def frame (event : RadishEvent V) : Bytes := (writeRecord event).toOption.getD []

def Accepted (event : RadishEvent V) : Prop := ∃ record, writeRecord event = .ok record

/-- A well-formed event within the size bound. -/
def Recordable (event : RadishEvent V) : Prop := event.WellFormed ∧ Accepted event

theorem frame_eq {event : RadishEvent V} {record : Bytes} (h : writeRecord event = .ok record) :
    frame event = record := by
  simp [frame, h, Except.toOption]

theorem Accepted.writeRecord_eq {event : RadishEvent V} (h : Accepted event) :
    writeRecord event = .ok (frame event) := by
  obtain ⟨record, hrecord⟩ := h
  rw [frame_eq hrecord, hrecord]

theorem writeRecord_eq_ok_iff {event : RadishEvent V} {record : Bytes} :
    writeRecord event = .ok record ↔
      ∃ bytes, event.serialize = .ok bytes ∧ 1 ≤ bytes.length ∧ bytes.length ≤ kMaxRecordSize ∧
        record = LittleEndian.encode 4 bytes.length ++ bytes := by
  unfold writeRecord
  rw [bind_eq_ok_iff]
  constructor
  · rintro ⟨bytes, hbytes, h⟩
    split at h
    · cases h
    · rename_i hsize
      rw [not_or, Nat.not_lt] at hsize
      have hpos : 1 ≤ bytes.length := List.length_pos_of_ne_nil hsize.1
      exact ⟨bytes, hbytes, hpos, hsize.2, (Except.ok.inj h).symm⟩
  · rintro ⟨bytes, hbytes, hpos, hmax, rfl⟩
    have hne : bytes ≠ [] := List.ne_nil_of_length_pos hpos
    exact ⟨bytes, hbytes, if_neg (not_or.mpr ⟨hne, Nat.not_lt.mpr hmax⟩)⟩

/-- A record's length field holds its length. -/
theorem decode_recordSize {bytes : Bytes} (h : bytes.length ≤ kMaxRecordSize) :
    LittleEndian.decode (LittleEndian.encode 4 bytes.length) = bytes.length := by
  apply LittleEndian.decode_encode
  unfold kMaxRecordSize at h
  omega

theorem reads_frame : Reads (recordDecoder (V := V)) frame Recordable := by
  rintro event rest ⟨hwell, haccepted⟩
  obtain ⟨m, rfl⟩ := (RadishEvent.wellFormed_iff event).mp hwell
  obtain ⟨record, hrecord⟩ := haccepted
  obtain ⟨bytes, hbytes, hpos, hmax, rfl⟩ := writeRecord_eq_ok_iff.mp hrecord
  have hsize := decode_recordSize hmax
  rw [frame_eq hrecord, List.append_assoc, recordDecoder_step,
    readRecord_body rest (LittleEndian.encode_length 4 _) (by omega) (by omega) hsize.symm]
  apply readBody_eq_complete_iff.mpr
  have hread : RadishEvent.deserialize (bytes ++ []) = .ok (m.toEvent, []) :=
    RadishEvent.deserialize_complete hbytes
  exact ⟨List.append_nil bytes ▸ hread, rfl⟩

theorem exact_frame : Exact (recordDecoder (V := V)) frame Recordable := by
  intro file event rest h
  rw [recordDecoder_step] at h
  rcases readRecord_cases (V := V) file with ⟨_, hi⟩ | ⟨_, _, _, _, _, hf⟩ |
    ⟨size, record, rest', rfl, hlen, hpos, hmax, hrecord, hb⟩
  · rw [hi] at h
    cases h
  · rw [hf] at h
    cases h
  · rw [hb] at h
    obtain ⟨hd, rfl⟩ := readBody_eq_complete_iff.mp h
    obtain ⟨m, bytes, rfl, hbytes, hsplit⟩ := RadishEvent.deserialize_sound hd
    rw [List.append_nil] at hsplit
    subst hsplit
    have hwrite : writeRecord m.toEvent = .ok (size ++ record) := by
      apply writeRecord_eq_ok_iff.mpr
      refine ⟨record, hbytes, by omega, by omega, ?_⟩
      rw [hrecord, ← hlen, LittleEndian.encode_decode]
    refine ⟨⟨(RadishEvent.wellFormed_iff _).mpr ⟨m, rfl⟩, _, hwrite⟩, ?_⟩
    rw [frame_eq hwrite, List.append_assoc]

/-- What an append that was cut short leaves behind is a torn tail. -/
theorem tornTail_of_strict_prefix {event : RadishEvent V} {p q : Bytes}
    (h : writeRecord event = .ok (p ++ q)) (hq : q ≠ []) : TornTail p := by
  obtain ⟨bytes, -, hpos, hmax, hsplit⟩ := writeRecord_eq_ok_iff.mp h
  have hsize := decode_recordSize hmax
  have hlen := congrArg List.length hsplit
  have hqpos := List.length_pos_of_ne_nil hq
  simp only [List.length_append, LittleEndian.encode_length] at hlen
  by_cases hp : p.length < 4
  · exact Or.inl hp
  · have hhead : p.take 4 = LittleEndian.encode 4 bytes.length := by
      have htake := congrArg (List.take 4) hsplit
      rwa [List.take_append_of_le_length (by omega),
        List.take_left' (LittleEndian.encode_length 4 _)] at htake
    refine Or.inr ⟨p.take 4, p.drop 4, (List.take_append_drop 4 p).symm, ?_, ?_, ?_, ?_⟩
    · rw [List.length_take]
      omega
    · rw [hhead, hsize]
      exact hpos
    · rw [hhead, hsize]
      exact hmax
    · rw [hhead, hsize, List.length_drop]
      omega

/-- A readable log, in terms of the frames of its events. -/
theorem getEvents_eq_ok_iff {file : Bytes} {events : List (RadishEvent V)} :
    getEvents none (some file) = .ok events ↔
      (∀ e ∈ events, Recordable e) ∧
        ∃ tail, TornTail tail ∧ file = kHeader ++ (events.flatMap frame ++ tail) := by
  have hgrammar (rest tail : Bytes) : recordDecoder.drain rest = (events, .waiting tail) ↔
      (∀ e ∈ events, Recordable e) ∧ readRecord (V := V) tail = .incomplete ∧
        rest = events.flatMap frame ++ tail :=
    drain_waiting_iff reads_frame exact_frame
  constructor
  · intro h
    obtain ⟨rest, hheader, hdrain⟩ := bind_eq_ok_iff.mp h
    rw [readHeader_eq_ok_iff] at hheader
    subst hheader
    clear h
    split at hdrain
    · rename_i es tail hrun
      obtain rfl := Except.ok.inj hdrain
      obtain ⟨hok, hstep, rfl⟩ := (hgrammar _ _).mp hrun
      exact ⟨hok, tail, readRecord_eq_incomplete_iff.mp hstep, rfl⟩
    · cases hdrain
  · rintro ⟨hok, tail, htail, rfl⟩
    have hdrain := (hgrammar _ _).mpr ⟨hok, readRecord_eq_incomplete_iff.mpr htail, rfl⟩
    refine bind_eq_ok_iff.mpr ⟨_, readHeader_eq_ok_iff.mpr rfl, ?_⟩
    rw [hdrain]

theorem tornTail_nil : TornTail [] := Or.inl (by simp)

/-- An intact log reads back as the events it was written from. -/
theorem getEvents_intact {events : List (RadishEvent V)} (h : ∀ e ∈ events, Recordable e) :
    getEvents none (some (kHeader ++ events.flatMap frame)) = .ok events :=
  getEvents_eq_ok_iff.mpr ⟨h, [], tornTail_nil, by simp⟩

/-- A writer whose log holds the records of `ms` and nothing else. -/
def intactLog (filename : String) (ms : List (Mutation V)) : LogWriter :=
  ⟨filename, some (kHeader ++ (ms.map Mutation.toEvent).flatMap frame), none⟩

theorem getEvents_intactLog {ms : List (Mutation V)} (filename : String)
    (h : ∀ m ∈ ms, Accepted m.toEvent) :
    getEvents none (intactLog filename ms).log = .ok (ms.map Mutation.toEvent) := by
  apply getEvents_intact
  rw [List.forall_mem_map]
  exact fun m hm => ⟨m.wellFormed, h m hm⟩

theorem recordable_of_getEvents {log : Option Bytes} {events : List (RadishEvent V)}
    (h : getEvents none log = .ok events) : ∀ e ∈ events, Recordable e := by
  cases log with
  | none =>
    rw [← Except.ok.inj h]
    exact List.forall_mem_nil _
  | some file => exact (getEvents_eq_ok_iff.mp h).1

theorem writeRecords_eq_ok_iff {file out : Bytes} {events : List (RadishEvent V)} :
    writeRecords file events = (.ok (), out) ↔
      (∀ e ∈ events, Accepted e) ∧ out = file ++ events.flatMap frame := by
  induction events generalizing file with
  | nil => simp [writeRecords, eq_comm]
  | cons event events ih =>
    cases h : writeRecord event with
    | error e =>
      have hnot : ¬ Accepted event := by
        rintro ⟨record, hrecord⟩
        rw [h] at hrecord
        cases hrecord
      simp [writeRecords, h, hnot]
    | ok record =>
      have hyes : Accepted event := ⟨record, h⟩
      simp [writeRecords, h, ih, hyes, frame_eq h]

/-- A healthy append adds the frame, unless `WriteRecord` refuses the event. -/
theorem append_eq_ok_iff {writer writer' : LogWriter} {event : RadishEvent V} :
    writer.append none event = (.ok (), writer') ↔
      Accepted event ∧ writer' = { writer with log := some (writer.log.getD [] ++ frame event) } := by
  unfold append
  rw [if_neg (by simp)]
  cases h : writeRecord event with
  | error e =>
    have hnot : ¬ Accepted event := by
      rintro ⟨record, hrecord⟩
      rw [h] at hrecord
      cases hrecord
    simp [hnot]
  | ok record =>
    have hyes : Accepted event := ⟨record, h⟩
    simp [hyes, frame_eq h, eq_comm]

theorem ensureInitialized_of_header {writer : LogWriter} {body : Bytes}
    (h : writer.log = some (kHeader ++ body)) : writer.ensureInitialized = .ok writer := by
  have hread : BinaryFile.readBytes 8 (kHeader ++ body) = some (kHeader, body) :=
    BinaryFile.readBytes_eq_some_iff.mpr ⟨rfl, rfl⟩
  simp [ensureInitialized, h, hread]

end Radish.LogWriter
