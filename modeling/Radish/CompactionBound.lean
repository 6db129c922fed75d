import Radish.Sessions

/-!
# When a compaction can be written

Compaction writes a renamed key with the payload of another record. Each of the two records was
within the size that `WriteRecord` allows; the record made of both need not be.
-/

namespace Radish
set_option autoImplicit false
open Ledger LogWriter

variable {V : Type}

/-! ## The size of a record -/

theorem LogWriter.accepted_iff_length [BinaryValue V] {event : RadishEvent V} {bytes : Bytes}
    (h : event.serialize = .ok bytes) :
    Accepted event ↔ 1 ≤ bytes.length ∧ bytes.length ≤ LogReader.kMaxRecordSize := by
  constructor
  · intro haccepted
    obtain ⟨record, hrecord⟩ := haccepted
    obtain ⟨bytes', hbytes', hpos, hmax, -⟩ := writeRecord_eq_ok_iff.mp hrecord
    obtain rfl := Except.ok.inj (h.symm.trans hbytes')
    exact ⟨hpos, hmax⟩
  · intro hsize
    exact ⟨_, writeRecord_eq_ok_iff.mpr ⟨bytes, h, hsize.1, hsize.2, rfl⟩⟩

theorem BinaryFile.write_string {value : Bytes} (h : value.length ≤ BinaryFile.maxBinarySize) :
    ∃ written, BinaryFile.write value = .ok written ∧ written.length = 4 + value.length := by
  have hwidth : FixedWidth.width UInt8 = 1 := rfl
  have hsmall : ¬ value.length > BinaryFile.maxBinarySize / FixedWidth.width UInt8 := by
    rw [hwidth, Nat.div_one]
    omega
  refine ⟨_, if_neg hsmall, ?_⟩
  have hdata := BinaryFile.flatMap_bytes_length value
  rw [hwidth, Nat.mul_one] at hdata
  rw [List.length_append, LittleEndian.encode_length]
  exact congrArg (4 + ·) hdata

section Strings
variable {key renameKey payload : Bytes} (timestamp : Timestamp)
  (hkey : key.length ≤ BinaryFile.maxBinarySize)
include hkey

/-- The record of a CREATE has 17 bytes besides its two strings. -/
theorem LogWriter.accepted_create_iff (hpayload : payload.length ≤ BinaryFile.maxBinarySize) :
    Accepted (Mutation.create timestamp key payload).toEvent ↔
      17 + key.length + payload.length ≤ LogReader.kMaxRecordSize := by
  obtain ⟨k, hk, hklength⟩ := BinaryFile.write_string hkey
  obtain ⟨p, hp, hplength⟩ := BinaryFile.write_string hpayload
  rw [accepted_iff_length (Mutation.serialize_create_iff.mpr ⟨k, hk, p, hp, rfl⟩)]
  have htype : (FixedWidth.bytes EventType.create).length = 1 := FixedWidth.bytes_length _
  have hstamp : (FixedWidth.bytes timestamp).length = 8 := FixedWidth.bytes_length _
  rw [List.length_append, List.length_append, List.length_append, htype, hstamp]
  omega

/-- So has that of a RENAME. -/
theorem LogWriter.accepted_rename_iff (hrenameKey : renameKey.length ≤ BinaryFile.maxBinarySize) :
    Accepted (Mutation.rename timestamp key renameKey : Mutation Bytes).toEvent ↔
      17 + key.length + renameKey.length ≤ LogReader.kMaxRecordSize := by
  obtain ⟨k, hk, hklength⟩ := BinaryFile.write_string hkey
  obtain ⟨r, hr, hrlength⟩ := BinaryFile.write_string hrenameKey
  rw [accepted_iff_length (Mutation.serialize_rename_iff.mpr ⟨k, hk, r, hr, rfl⟩)]
  have htype : (FixedWidth.bytes EventType.rename).length = 1 := FixedWidth.bytes_length _
  have hstamp : (FixedWidth.bytes timestamp).length = 8 := FixedWidth.bytes_length _
  rw [List.length_append, List.length_append, List.length_append, htype, hstamp]
  omega

end Strings

/-! ## Runs -/

namespace RadishDB
variable [BinaryValue V]

/-- From `clock` on every compaction completes, in whatever order it meets the events. -/
def Compactable (db : RadishDB V) (clock : Timestamp) : Prop :=
  ∀ (order : Traversal (Σ _ : Key, RadishEvent V)) (now : Timestamp), clock ≤ now →
    ∃ db', db.compact none order now = (.ok (), db')

/-- A rename that takes effect, of the key `a` to `b`, leaves a binding that one record can hold:
`WriteRecord` accepts the key `b` with whatever compaction finds in the log at `a` from now on. -/
def RenameFits (db : RadishDB V) (now : Timestamp) : Call V → Prop
  | .rename a b => db.exists now a = true → Accepted (Mutation.rename (-1) a b : Mutation V).toEvent →
      ∀ ms, db.Logged ms → ∀ later, now ≤ later → ∀ entry, compacted later ms a = some entry →
        Accepted (Mutation.ofEntry (b, entry)).toEvent
  | _ => True

/-- The runs on one file, under any ttl settings and a clock that does not run backwards, in which
every rename leaves a binding that a record can hold. -/
inductive Fitting : RadishDB V → Timestamp → Prop where
  | first {start ttl : Timestamp} {writer : LogWriter} {db : RadishDB V}
      (absent : writer.log = none) (opens : new start ttl .flush writer = .ok db) :
      Fitting db start
  | call {db : RadishDB V} {clock : Timestamp} (now : Timestamp) (c : Call V)
      (before : Fitting db clock) (later : clock ≤ now) (fits : db.RenameFits now c) :
      Fitting (db.call none now c).2 now
  | compact {db : RadishDB V} {clock : Timestamp} (order : Traversal (Σ _ : Key, RadishEvent V))
      (now : Timestamp) (before : Fitting db clock) (later : clock ≤ now) :
      Fitting (db.compact none order now).2 now
  | reopen {db db' : RadishDB V} {clock now ttl : Timestamp} {disk : LogWriter}
      (before : Fitting db clock) (later : clock ≤ now) (behind : db.persistence = some disk)
      (opens : new now ttl .flush disk = .ok db') : Fitting db' now

/-- A compaction completes if each entry it would write fits into a record. -/
theorem compact_ok_iff {db : RadishDB V} {ms : List (Mutation V)} (h : db.Logged ms)
    (order : Traversal (Σ _ : Key, RadishEvent V)) (now : Timestamp) :
    (∃ db', db.compact none order now = (.ok (), db')) ↔
      ∀ k entry, compacted now ms k = some entry → Accepted (Mutation.ofEntry (k, entry)).toEvent := by
  obtain ⟨disk, hdisk, hread⟩ := h.getEvents
  obtain ⟨es, -, hmem, hiff⟩ := @compact_eq_ok_iff V _ order now disk ms hread
  constructor
  · intro hcompact k entry hentry
    obtain ⟨db', hdb'⟩ := hcompact
    rw [compact, hdisk] at hdb'
    dsimp only at hdb'
    have hwriter : disk.compact none order now = (.ok (), (disk.compact none order now).2) :=
      Prod.ext (Prod.mk.inj hdb').1 rfl
    exact ((hiff _).mp hwriter).1 (k, entry) ((hmem k entry).mpr hentry)
  · intro hfits
    have hwriter := (hiff _).mpr
      ⟨fun p hp => hfits p.1 p.2 ((hmem p.1 p.2).mp hp), rfl⟩
    refine ⟨{ db with persistence := some (disk.compact none order now).2 }, ?_⟩
    rw [compact, hdisk]
    dsimp only
    rw [hwriter]

/-- The log of a database, and that a compaction of it can be written from `clock` on. -/
structure Bounded (db : RadishDB V) (clock : Timestamp) (ms : List (Mutation V)) : Prop where
  logged : db.Logged ms
  fits : ∀ now, clock ≤ now → ∀ k entry, compacted now ms k = some entry →
    Accepted (Mutation.ofEntry (k, entry)).toEvent

theorem compactable_iff {db : RadishDB V} {clock : Timestamp} {ms : List (Mutation V)}
    (h : db.Logged ms) : db.Compactable clock ↔ db.Bounded clock ms := by
  constructor
  · intro hcompact
    exact ⟨h, fun now hnow => (compact_ok_iff h .listed now).mp (hcompact .listed now hnow)⟩
  · intro hbounded order now hnow
    exact (compact_ok_iff h order now).mpr (hbounded.fits now hnow)

theorem Bounded.mono {db : RadishDB V} {clock now : Timestamp} {ms : List (Mutation V)}
    (h : db.Bounded clock ms) (hnow : clock ≤ now) : db.Bounded now ms :=
  ⟨h.logged, fun later hlater => h.fits later (Int64.le_trans hnow hlater)⟩

/-- A mutation that takes effect keeps the bound, if it is not a rename that breaks it. -/
theorem Bounded.append {db db' : RadishDB V} {now : Timestamp} {ms : List (Mutation V)}
    (h : db.Bounded now ms) {m : Mutation V} (hlogged : db'.Logged (ms ++ [m]))
    (hrename : ∀ a b, m.action = .move a b → ∀ later, now ≤ later → ∀ entry,
      compacted later ms a = some entry → Accepted (Mutation.ofEntry (b, entry)).toEvent) :
    db'.Bounded now (ms ++ [m]) := by
  refine ⟨hlogged, ?_⟩
  intro later hlater k entry hentry
  have hms := h.fits later hlater
  rw [compacted_append] at hentry
  obtain hbefore | ⟨-, hput⟩ | ⟨a, hmove, ha⟩ := summaryStep_entry hentry
  · exact hms k entry hbefore
  · rw [← Mutation.eq_ofEntry (p := (k, entry)) hput]
    exact hlogged.1 m (by simp)
  · exact hrename a k hmove later hlater entry ha

/-- After a rename that takes effect, the new key holds what compaction found at the old one. -/
theorem Bounded.of_rename {db : RadishDB V} {now : Timestamp} {ms : List (Mutation V)}
    {stamp : Timestamp} {a b : Key} (h : db.Bounded now (ms ++ [.rename stamp a b]))
    {later : Timestamp} (hlater : now ≤ later) {entry : V × Timestamp}
    (hentry : compacted later ms a = some entry) :
    Accepted (Mutation.ofEntry (b, entry)).toEvent := by
  apply h.fits later hlater b entry
  rw [compacted_append]
  dsimp only [Mutation.action, summaryStep]
  rw [carry_apply hentry, if_pos rfl]

/-- A call leaves the database compactable exactly if it is not a rename that breaks the bound. -/
theorem Bounded.call_iff {db : RadishDB V} {now : Timestamp} {ms : List (Mutation V)}
    (h : db.Bounded now ms) (c : Call V) :
    (db.call none now c).2.Compactable now ↔ db.RenameFits now c := by
  obtain ⟨hfalse, hcall⟩ | ⟨-, hrefused, e, hcall⟩ | ⟨htrue, haccepted, db', hcall, -, hlogged⟩ :=
    call_cases h.logged now c rfl
  · rw [hcall]
    refine iff_of_true ((compactable_iff h.logged).mpr h) ?_
    cases c with
    | rename a b =>
      intro hexists
      have hnot : (db.store.rename now a b).1 = false := hfalse
      rw [RadishStore.rename_fst, ← RadishStore.exists_eq_get] at hnot
      rw [RadishDB.exists, hnot] at hexists
      cases hexists
    | _ => trivial
  · rw [hcall]
    refine iff_of_true ((compactable_iff h.logged).mpr h) ?_
    cases c with
    | rename a b =>
      intro _ haccepted
      exact absurd haccepted hrefused
    | _ => trivial
  · rw [hcall]
    dsimp only
    rw [compactable_iff hlogged]
    constructor
    · intro hbounded
      cases c with
      | rename a b =>
        intro _ _ ms' hms' later hlater entry hentry
        obtain rfl := hms'.unique h.logged
        exact hbounded.of_rename hlater hentry
      | _ => trivial
    · intro hfits
      apply h.append hlogged
      intro a b haction later hlater entry hentry
      cases c with
      | rename oldKey newKey =>
        injection haction with hold hnew
        subst hold hnew
        have hexists : db.exists now oldKey = true := by
          have htakes : (db.store.rename now oldKey newKey).1 = true := htrue
          rw [RadishStore.rename_fst, ← RadishStore.exists_eq_get] at htakes
          exact htakes
        exact hfits hexists haccepted ms h.logged later hlater entry hentry
      | _ => cases haction

theorem Bounded.compact {db : RadishDB V} {now : Timestamp} {ms : List (Mutation V)}
    (h : db.Bounded now ms) (order : Traversal (Σ _ : Key, RadishEvent V)) :
    ∃ ms', (db.compact none order now).2.Bounded now ms' := by
  obtain ⟨db', hcompact⟩ := (compact_ok_iff h.logged order now).mpr (h.fits now (Int64.le_refl now))
  obtain ⟨ns, hlogged, -, -, hlater⟩ := compact_logged h.logged hcompact
  rw [hcompact]
  refine ⟨ns, hlogged, ?_⟩
  intro later _ k entry hentry
  rw [hlater, visible_eq_some_iff] at hentry
  exact h.fits now (Int64.le_refl now) k entry hentry.1

theorem Fitting.bounded {db : RadishDB V} {clock : Timestamp} (h : Fitting db clock) :
    ∃ ms, db.Bounded clock ms := by
  induction h with
  | first absent opens =>
    refine ⟨[], (fresh_of_absent absent opens).2, ?_⟩
    intro now _ k entry hentry
    cases hentry
  | @call db clock now c _ later fits ih =>
    obtain ⟨ms, hms⟩ := ih
    have hcompactable := ((hms.mono later).call_iff c).mpr fits
    obtain ⟨ms', hlogged⟩ := hms.logged.run [(now, c)]
    exact ⟨ms', (compactable_iff hlogged).mp hcompactable⟩
  | compact order now _ later ih =>
    obtain ⟨ms, hms⟩ := ih
    exact (hms.mono later).compact order
  | @reopen db db' clock now ttl disk _ later behind opens ih =>
    obtain ⟨ms, hms⟩ := ih
    obtain ⟨disk', hdisk', reopened, hnew, -, hlogged⟩ := new_of_logged hms.logged now ttl
    obtain rfl := Option.some.inj (behind.symm.trans hdisk')
    obtain rfl := Except.ok.inj (opens.symm.trans hnew)
    exact ⟨ms, hlogged, (hms.mono later).fits⟩

/-- In a run whose renames all leave a binding that a record can hold, compaction is possible in
every state; and after one more call it still is, exactly if that call is no rename that does not. -/
theorem fitting_compactable {db : RadishDB V} {clock : Timestamp} (hrun : Fitting db clock) :
    db.Compactable clock ∧ ∀ now c, clock ≤ now →
      ((db.call none now c).2.Compactable now ↔ db.RenameFits now c) := by
  obtain ⟨ms, hms⟩ := hrun.bounded
  exact ⟨(compactable_iff hms.logged).mpr hms, fun now c hnow => (hms.mono hnow).call_iff c⟩

/-- A run whose one rename leaves a small binding. -/
theorem fitting_compactable_small :
    (((fresh "radish" (-1) : RadishDB Bytes).call none 0 (.create [107] [118])).2.call none 1
      (.rename [107] [108])).2.Compactable 1 := by
  have habsent : (⟨"radish", none, none⟩ : LogWriter).log = none := rfl
  have hlogged : ((fresh "radish" (-1) : RadishDB Bytes).call none 0 (.create [107] [118])).2.Logged
      [.create (-1) [107] [118]] := ⟨by simpa using ⟨_, rfl⟩, _, rfl, rfl⟩
  have hfits : ((fresh "radish" (-1) : RadishDB Bytes).call none 0
      (.create [107] [118])).2.RenameFits 1 (.rename [107] [108]) := by
    intro _ _ ms hms later _ entry hentry
    obtain rfl := hms.unique hlogged
    obtain rfl : ([118], -1) = entry := Option.some.inj hentry
    exact ⟨_, rfl⟩
  have hcreated : Fitting ((fresh "radish" (-1) : RadishDB Bytes).call none 0
      (.create [107] [118])).2 0 :=
    .call 0 (.create [107] [118]) (.first habsent (new_fresh "radish" 0 (-1))) (Int64.le_refl 0)
      trivial
  exact (fitting_compactable (.call 1 _ hcreated (by decide) hfits)).1

/-- A key to which a value as long as itself can be renamed, but with which it cannot be written. -/
def longKey : Bytes := List.replicate (40 * 1024 * 1024) 120

theorem length_longKey : longKey.length = 40 * 1024 * 1024 := List.length_replicate

theorem longKey_not_compactable :
    ∃ start db db' : RadishDB Bytes, new 0 (-1) .flush ⟨"radish", none, none⟩ = .ok start ∧
      start.call none 0 (.create [107] longKey) = (.ok true, db) ∧
      db.call none 1 (.rename [107] longKey) = (.ok true, db') ∧ ¬ db'.Compactable 1 := by
  have hmax : LogReader.kMaxRecordSize = 64 * 1024 * 1024 := rfl
  have hlong : longKey.length ≤ BinaryFile.maxBinarySize := by
    rw [length_longKey]
    decide
  have hshort : ([107] : Bytes).length ≤ BinaryFile.maxBinarySize := by decide
  have hcreate := (accepted_create_iff (-1) hshort hlong).mpr (by
    rw [length_longKey, hmax]
    decide)
  have hrename := (accepted_rename_iff (-1) hshort hlong).mpr (by
    rw [length_longKey, hmax]
    decide)
  obtain ⟨hfalse, -⟩ | ⟨-, hrefused, -⟩ | ⟨-, -, db, hdb, hstore, hlogged⟩ :=
    call_cases (fresh_logged "radish" (-1) : (fresh "radish" (-1) : RadishDB Bytes).Logged []) 0
      (.create [107] longKey) rfl
  · cases hfalse
  · exact absurd hcreate hrefused
  · have hget : db.store.get 1 [107] = some longKey := by
      have hcoherent : db.store.Coherent := by
        rw [hstore]
        exact (RadishStore.coherent_new (-1)).apply 0 _
      have httl : db.store.ttl = -1 := by
        rw [hstore, RadishStore.apply_ttl]
        rfl
      rw [RadishStore.get_of_untimed hcoherent httl, hstore]
      exact congrFun (RadishStore.values_create 0 _ [107] longKey) [107]
    have hlive : (db.store.rename 1 [107] longKey).1 = true := by
      rw [RadishStore.rename_fst, hget]
      rfl
    obtain ⟨hfalse, -⟩ | ⟨-, hrefused, -⟩ | ⟨-, -, db', hdb', -, hlogged'⟩ :=
      call_cases hlogged 1 (.rename [107] longKey) rfl
    · exact absurd (hfalse.symm.trans hlive) (by decide)
    · exact absurd hrename hrefused
    · refine ⟨_, db, db', new_fresh "radish" 0 (-1), hdb, hdb', fun hcompactable => ?_⟩
      have hbounded := (compactable_iff hlogged').mp hcompactable
      have hfound : compacted 1 [.create (-1) [107] longKey] [107] = some (longKey, -1) := rfl
      have haccepted := hbounded.of_rename (Int64.le_refl 1) hfound
      have hsize := (accepted_create_iff (-1) hlong hlong).mp haccepted
      rw [length_longKey, hmax] at hsize
      exact absurd hsize (by decide)

end RadishDB

end Radish
