import Radish.CallHistory

/-!
# Crashes and failures

What a crash leaves of a log is a byte prefix of it. From the end of the header on, a prefix opens
as the records that are wholly inside it. An operation that throws leaves at most such a prefix
of its own output behind.
-/

namespace Radish
set_option autoImplicit false
open LogReader LogWriter

variable {V : Type} [BinaryValue V]

/-- The leading mutations whose frames lie within the first `n` bytes. -/
def wholeRecords : Nat → List (Mutation V) → List (Mutation V)
  | _, [] => []
  | n, m :: ms =>
    if (frame m.toEvent).length ≤ n then m :: wholeRecords (n - (frame m.toEvent).length) ms else []

theorem mem_of_mem_wholeRecords {n : Nat} {m : Mutation V} {ms : List (Mutation V)}
    (h : m ∈ wholeRecords n ms) : m ∈ ms := by
  induction ms generalizing n with
  | nil => exact h
  | cons x ms ih =>
    rw [wholeRecords] at h
    split at h
    · rcases List.mem_cons.mp h with rfl | h
      · exact List.mem_cons_self
      · exact List.mem_cons_of_mem _ (ih h)
    · cases h

/-- The first bytes of a list of frames are the whole ones among them and a torn tail. -/
theorem take_frames {ms : List (Mutation V)} (h : ∀ m ∈ ms, Accepted m.toEvent) (n : Nat) :
    ∃ tail, TornTail tail ∧ ((ms.map Mutation.toEvent).flatMap frame).take n =
      ((wholeRecords n ms).map Mutation.toEvent).flatMap frame ++ tail := by
  induction ms generalizing n with
  | nil => exact ⟨[], tornTail_nil, by simp [wholeRecords]⟩
  | cons m ms ih =>
    rw [wholeRecords]
    by_cases hle : (frame m.toEvent).length ≤ n
    · rcases ih (fun x hx => h x (List.mem_cons_of_mem _ hx)) (n - (frame m.toEvent).length) with
        ⟨tail, htail, hsplit⟩
      refine ⟨tail, htail, ?_⟩
      rw [if_pos hle, List.map_cons, List.flatMap_cons, List.take_append, List.take_of_length_le hle,
        hsplit, List.map_cons, List.flatMap_cons, List.append_assoc]
    · -- the cut is inside this frame
      rw [Nat.not_le] at hle
      refine ⟨(frame m.toEvent).take n, ?_, ?_⟩
      · have hwrite := (h m List.mem_cons_self).writeRecord_eq
        rw [← List.take_append_drop n (frame m.toEvent)] at hwrite
        apply tornTail_of_strict_prefix hwrite
        apply List.ne_nil_of_length_pos
        rw [List.length_drop]
        omega
      · rw [if_neg (Nat.not_le.mpr hle), List.map_cons, List.flatMap_cons,
          List.take_append_of_le_length (Nat.le_of_lt hle)]
        simp

/-- Behind the header, a prefix of an intact log reads as its whole records. -/
theorem getEvents_take {ms : List (Mutation V)} (h : ∀ m ∈ ms, Accepted m.toEvent) {n : Nat}
    (hn : 8 ≤ n) :
    getEvents none (some ((kHeader ++ (ms.map Mutation.toEvent).flatMap frame).take n)) =
      .ok ((wholeRecords (n - 8) ms).map Mutation.toEvent) := by
  rcases take_frames h (n - 8) with ⟨tail, htail, hsplit⟩
  apply getEvents_eq_ok_iff.mpr
  refine ⟨?_, tail, htail, ?_⟩
  · rw [List.forall_mem_map]
    exact fun m hm => ⟨m.wellFormed, h m (mem_of_mem_wholeRecords hm)⟩
  · have hheader : kHeader.length = 8 := rfl
    rw [List.take_append, hheader, hsplit, List.take_of_length_le (by omega)]

/-- Without a whole header the file is refused. -/
theorem ensureInitialized_of_short {writer : LogWriter} {file : Bytes}
    (hlog : writer.log = some file) (h : file.length < 8) :
    writer.ensureInitialized =
      .error (.runtimeError "Unsupported or corrupt persistence log header") := by
  have hread : BinaryFile.readBytes 8 file = none := by
    simp [BinaryFile.readBytes, Nat.not_le.mpr h]
  simp [ensureInitialized, hlog, hread]

/-! ## Operations that throw -/

namespace RadishDB

/-- A crash image opens, as the records wholly inside it, exactly when it has its header. -/
theorem new_of_crash_iff {start ttl : Timestamp} {writer : LogWriter} {db : RadishDB V}
    {calls : List (Timestamp × Call V)} (habsent : writer.log = none)
    (hopen : new start ttl .flush writer = .ok db) :
    ∃ disk file, ∃ ms : List (Mutation V),
      (db.run calls).persistence = some disk ∧ disk.log = some file ∧
      file = kHeader ++ (ms.map Mutation.toEvent).flatMap frame ∧
      ∀ n ≤ file.length, ∀ now ttl' : Timestamp,
        (∃ opened, new now ttl' .flush { disk with log := some (file.take n) } = .ok opened ∧
          opened.store = (RadishStore.new ttl').applyAll now (wholeRecords (n - 8) ms)) ↔ 8 ≤ n := by
  rcases (fresh_of_absent habsent hopen).2.run calls with ⟨ms, haccepted, disk, hdisk, hlog⟩
  refine ⟨disk, _, ms, hdisk, hlog, rfl, ?_⟩
  intro n hn now ttl'
  let image : LogWriter :=
    { disk with log := some ((kHeader ++ (ms.map Mutation.toEvent).flatMap frame).take n) }
  have hheader : kHeader.length = 8 := rfl
  constructor
  · rintro ⟨opened, hnew, -⟩
    by_contra hshort
    have hlength : ((kHeader ++ (ms.map Mutation.toEvent).flatMap frame).take n).length < 8 := by
      rw [List.length_take]
      omega
    have hinit : image.ensureInitialized = _ := ensureInitialized_of_short rfl hlength
    rw [new, initializePersistence, hinit] at hnew
    cases hnew
  · intro h8
    have hlog' : image.log =
        some (kHeader ++ ((ms.map Mutation.toEvent).flatMap frame).take (n - 8)) := by
      simp only [image, List.take_append, hheader, List.take_of_length_le (hheader.trans_le h8)]
    have hinit : image.ensureInitialized = .ok image := ensureInitialized_of_header hlog'
    have hreplay : image.replay none now (RadishStore.new ttl') =
        .ok ((RadishStore.new ttl').applyAll now (wholeRecords (n - 8) ms)) :=
      replay_eq_applyAll (getEvents_take haccepted h8) now _
    refine ⟨⟨(RadishStore.new ttl').applyAll now (wholeRecords (n - 8) ms), some image⟩, ?_, rfl⟩
    simp only [new, initializePersistence, image] at hinit hreplay ⊢
    rw [hinit, ok_bind, hreplay]
    rfl

theorem new_of_crash_create :
    ∃ disk file, ∃ ms : List (Mutation Bytes),
      ((fresh "radish" (-1)).run [(0, Call.create [107] ([118] : Bytes))]).persistence = some disk ∧
      disk.log = some file ∧ file = kHeader ++ (ms.map Mutation.toEvent).flatMap frame ∧
      ∀ n ≤ file.length, ∀ now ttl' : Timestamp,
        (∃ opened, new now ttl' .flush { disk with log := some (file.take n) } = .ok opened ∧
          opened.store = (RadishStore.new ttl').applyAll now (wholeRecords (n - 8) ms)) ↔ 8 ≤ n :=
  have habsent : (⟨"radish", none, none⟩ : LogWriter).log = none := rfl
  new_of_crash_iff habsent (new_fresh "radish" 0 (-1))

/-- A crash before the header is complete leaves a file that is never opened again. -/
theorem crash_in_header_refused :
    ¬ ∀ (start ttl now ttl' : Timestamp) (writer disk : LogWriter) (db : RadishDB Bytes)
        (calls : List (Timestamp × Call Bytes)) (file : Bytes) (n : Nat),
      writer.log = none → new start ttl .flush writer = .ok db →
      (db.run calls).persistence = some disk → disk.log = some file → n ≤ file.length →
      ∃ opened : RadishDB Bytes,
        new now ttl' .flush { disk with log := some (file.take n) } = .ok opened := by
  intro h
  rcases h 0 (-1) 0 (-1) ⟨"radish", none, none⟩ ⟨"radish", some kHeader, none⟩ _ [] kHeader 3 rfl
    (new_fresh "radish" 0 (-1)) rfl rfl (by decide) with ⟨opened, hopened⟩
  cases hopened

end RadishDB

end Radish
