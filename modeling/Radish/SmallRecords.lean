import Radish.CompactionBound
import Radish.RespCodec

/-!
# Records of what a request can carry

A bulk string of a request has at most 4 MiB, a record at most 64. What such strings were put
together of can always be logged, whatever renames have made of it, and compacted again.
-/

namespace Radish
set_option autoImplicit false
open Ledger LogWriter RespCodec

namespace RadishDB

/-- The arguments are no longer than a bulk string can be. -/
def Call.Small : Call Bytes → Prop
  | .create key value => key.length ≤ kMaxBulkLength ∧ value.length ≤ kMaxBulkLength
  | .rename oldKey newKey => oldKey.length ≤ kMaxBulkLength ∧ newKey.length ≤ kMaxBulkLength
  | .delete key => key.length ≤ kMaxBulkLength
  | .clear => True

section Records
variable {key payload : Bytes} (timestamp : Timestamp)

theorem le_maxBinarySize {bytes : Bytes} (h : bytes.length ≤ kMaxBulkLength) :
    bytes.length ≤ BinaryFile.maxBinarySize := by
  have hroom : kMaxBulkLength ≤ BinaryFile.maxBinarySize := by decide
  omega

theorem accepted_create (hkey : key.length ≤ kMaxBulkLength)
    (hpayload : payload.length ≤ kMaxBulkLength) :
    Accepted (Mutation.create timestamp key payload).toEvent := by
  rw [accepted_create_iff timestamp (le_maxBinarySize hkey) (le_maxBinarySize hpayload)]
  have hroom : 17 + kMaxBulkLength + kMaxBulkLength ≤ LogReader.kMaxRecordSize := by decide
  omega

theorem accepted_delete (hkey : key.length ≤ kMaxBulkLength) :
    Accepted (Mutation.delete timestamp key : Mutation Bytes).toEvent := by
  obtain ⟨k, hk, hlength⟩ := BinaryFile.write_string (le_maxBinarySize hkey)
  rw [accepted_iff_length (Mutation.serialize_delete_iff.mpr ⟨k, hk, rfl⟩)]
  have htype : (FixedWidth.bytes EventType.delete).length = 1 := FixedWidth.bytes_length _
  have hstamp : (FixedWidth.bytes timestamp).length = 8 := FixedWidth.bytes_length _
  have hroom : 13 + kMaxBulkLength ≤ LogReader.kMaxRecordSize := by decide
  rw [List.length_append, List.length_append, htype, hstamp]
  omega

end Records

/-- `WriteRecord` refuses no event that such a call stages. -/
theorem Call.Small.accepted {c : Call Bytes} (h : c.Small) (expiry : Timestamp) :
    Accepted (c.mutation expiry).toEvent := by
  cases c with
  | create key value => exact accepted_create expiry h.1 h.2
  | rename oldKey newKey =>
    have hroom : 17 + kMaxBulkLength + kMaxBulkLength ≤ LogReader.kMaxRecordSize := by decide
    obtain ⟨hold, hnew⟩ := h
    refine (accepted_rename_iff (-1) (le_maxBinarySize hold) (le_maxBinarySize hnew)).mpr ?_
    omega
  | delete key => exact accepted_delete (-1) h
  | clear => exact ⟨_, rfl⟩

/-- The log of a database, in which no key and no value that a compaction would write is longer
than a bulk string. -/
structure Sized (db : RadishDB Bytes) (ms : List (Mutation Bytes)) : Prop where
  logged : db.Logged ms
  small : ∀ now k entry, compacted now ms k = some entry →
    k.length ≤ kMaxBulkLength ∧ entry.1.length ≤ kMaxBulkLength

/-- A compaction of such a log completes. -/
theorem Sized.compacts {db : RadishDB Bytes} {ms : List (Mutation Bytes)} (h : db.Sized ms)
    (order : Traversal (Σ _ : Key, RadishEvent Bytes)) (now : Timestamp) :
    ∃ db', db.compact none order now = (.ok (), db') := by
  refine (compact_ok_iff h.logged order now).mpr ?_
  intro k entry hentry
  obtain ⟨hkey, hpayload⟩ := h.small now k entry hentry
  exact accepted_create entry.2 hkey hpayload

theorem Sized.append {db db' : RadishDB Bytes} {ms : List (Mutation Bytes)} (h : db.Sized ms)
    {c : Call Bytes} (hc : c.Small) {expiry : Timestamp}
    (hlogged : db'.Logged (ms ++ [c.mutation expiry])) : db'.Sized (ms ++ [c.mutation expiry]) := by
  refine ⟨hlogged, ?_⟩
  intro now k entry hentry
  rw [compacted_append] at hentry
  obtain hbefore | ⟨-, hput⟩ | ⟨a, hmove, ha⟩ := summaryStep_entry hentry
  · exact h.small now k entry hbefore
  · cases c with
    | create key value =>
      injection hput with hkey hvalue
      subst hkey hvalue
      exact hc
    | _ => cases hput
  · cases c with
    | rename oldKey newKey =>
      injection hmove with _ hkey
      subst hkey
      exact ⟨hc.2, (h.small now a entry ha).2⟩
    | _ => cases hmove

theorem Sized.call {db : RadishDB Bytes} {ms : List (Mutation Bytes)} (h : db.Sized ms)
    (now : Timestamp) {c : Call Bytes} (hc : c.Small) :
    ∃ found db', db.call none now c = (.ok found, db') ∧ ∃ ms', db'.Sized ms' := by
  obtain ⟨-, hcall⟩ | ⟨-, hrefused, -⟩ | ⟨-, -, db', hcall, -, hlogged⟩ :=
    call_cases h.logged now c rfl
  · exact ⟨false, db, hcall, ms, h⟩
  · exact absurd (hc.accepted _) hrefused
  · exact ⟨true, db', hcall, _, h.append hc hlogged⟩

/-- A compaction that fails leaves the log as it was. -/
theorem Logged.compactThrows {db db' : RadishDB Bytes} {ms : List (Mutation Bytes)}
    {fault : Option Fault} {order : Traversal (Σ _ : Key, RadishEvent Bytes)} {now : Timestamp}
    {e : Exception} (h : db.Logged ms) (hthrows : db.compact fault order now = (.error e, db')) :
    db'.Logged ms := by
  obtain ⟨haccepted, disk, hdisk, hlog⟩ := h
  have hdb' : db' = (db.compact fault order now).2 := by rw [hthrows]
  refine ⟨haccepted, (disk.compact fault order now).2, ?_, ?_⟩
  · rw [hdb', RadishDB.compact, hdisk]
  · rw [← hlog]
    apply compact_failed (e := e)
    have hresult : (db.compact fault order now).1 = .error e := by rw [hthrows]
    rw [RadishDB.compact, hdisk] at hresult
    exact hresult

theorem Sized.compact {db : RadishDB Bytes} {ms : List (Mutation Bytes)} (h : db.Sized ms)
    (fault : Option Fault) (order : Traversal (Σ _ : Key, RadishEvent Bytes)) (now : Timestamp) :
    ∃ ms', (db.compact fault order now).2.Sized ms' := by
  rcases hcompact : db.compact fault order now with ⟨e | ⟨⟩, db'⟩
  · exact ⟨ms, h.logged.compactThrows hcompact, h.small⟩
  · obtain ⟨ns, hlogged, -, -, hlater⟩ := compact_logged h.logged hcompact
    refine ⟨ns, hlogged, ?_⟩
    intro later k entry hentry
    rw [hlater, visible_eq_some_iff] at hentry
    exact h.small now k entry hentry.1

theorem Logged.sized_nil {db : RadishDB Bytes} (h : db.Logged []) : db.Sized [] :=
  ⟨h, fun _ _ _ hentry => by cases hentry⟩

/-- A database on which calls and compactions succeed as long as the files do. -/
def Sound (db : RadishDB Bytes) : Prop := db.persistence = none ∨ ∃ ms, db.Sized ms

theorem Sound.call {db : RadishDB Bytes} (h : db.Sound) (now : Timestamp) {c : Call Bytes}
    (hc : c.Small) : ∃ found db', db.call none now c = (.ok found, db') ∧ db'.Sound := by
  obtain hvolatile | ⟨ms, hms⟩ := h
  · rw [call_eq_commit]
    cases heffective : (db.store.apply now (c.mutation (db.store.newExpiryTimestamp now))).1 with
    | false => exact ⟨false, db, commit_of_idle heffective, Or.inl hvolatile⟩
    | true => exact ⟨true, _, commit_of_volatile hvolatile heffective, Or.inl hvolatile⟩
  · obtain ⟨found, db', hcall, hsized⟩ := hms.call now hc
    exact ⟨found, db', hcall, Or.inr hsized⟩

theorem Sound.compacts {db : RadishDB Bytes} (h : db.Sound)
    (order : Traversal (Σ _ : Key, RadishEvent Bytes)) (now : Timestamp) :
    ∃ db', db.compact none order now = (.ok (), db') := by
  obtain hvolatile | ⟨ms, hms⟩ := h
  · rw [RadishDB.compact, hvolatile]
    exact ⟨db, rfl⟩
  · exact hms.compacts order now

theorem Sound.compact {db : RadishDB Bytes} (h : db.Sound) (fault : Option Fault)
    (order : Traversal (Σ _ : Key, RadishEvent Bytes)) (now : Timestamp) :
    (db.compact fault order now).2.Sound := by
  obtain hvolatile | ⟨ms, hms⟩ := h
  · refine Or.inl ?_
    rw [RadishDB.compact, hvolatile]
    exact hvolatile
  · exact Or.inr (hms.compact fault order now)

end RadishDB

end Radish
