import Radish.Durability
import Radish.HandlerInvariants
import Radish.Keyspace
import Radish.Sessions

/-!
# Databases without a ttl

Without a ttl the log holds the keyspace, and opening it again gives the keyspace back. A call that
throws may have been recorded or not, whatever part of its record has reached the file; everything
before it is there.
-/

namespace Radish
set_option autoImplicit false

open Ledger LogWriter LogReader Postcondition RespCodec RadishDB

/-- The database renames no key onto itself. -/
def RadishDB.Call.Plain (c : Call Bytes) : Prop := ∀ key, c ≠ .rename key key

/-- The command is no `RENAME` of a key onto itself. -/
def RespCommand.Plain (command : RespCommand) : Prop :=
  ∀ first key, command.name = ascii "RENAME" → command.arguments ≠ [first, key, key]

theorem RespCommand.Plain.asks {command : RespCommand} (h : command.Plain) {c : Call Bytes}
    (hc : command.Asks c) : c.Plain := by
  intro key hkey
  subst hkey
  cases hc with
  | rename called words => exact h _ key called words

namespace LogWriter

/-- An append reaches the end of the record, or throws after some part of it. -/
theorem append_cases (fault : Option Fault) {writer : LogWriter} {file record : Bytes}
    {event : RadishEvent Bytes} (hlog : writer.log = some file)
    (hrecord : writeRecord event = .ok record) :
    writer.append fault event = (.ok (), { writer with log := some (file ++ record) }) ∨
      ∃ e reached, writer.append fault event =
        (.error e, { writer with log := some (file ++ record.take reached) }) := by
  by_cases hopen : fault = some .cannotOpen
  · right
    obtain ⟨filename, log, temporary⟩ := writer
    dsimp only at hlog
    subst hlog
    refine ⟨.runtimeError ("Failed to open file for writing: " ++ filename), 0, ?_⟩
    rw [append, if_pos hopen, List.take_zero, List.append_nil]
  · rw [append, if_neg hopen, hrecord, hlog]
    dsimp only [Option.getD_some]
    split
    · exact Or.inr ⟨_, _, rfl⟩
    · exact Or.inr ⟨_, _, rfl⟩
    · exact Or.inl rfl

end LogWriter

namespace RadishDB

/-- A log that ends in part of a record is opened as the records before it. -/
theorem new_of_torn {disk : LogWriter} {ms : List (Mutation Bytes)} {tail : Bytes}
    (haccepted : ∀ m ∈ ms, Accepted m.toEvent) (htail : TornTail tail)
    (hlog : disk.log = some (kHeader ++ ((ms.map Mutation.toEvent).flatMap frame ++ tail)))
    (now ttl : Timestamp) :
    new now ttl .flush disk = .ok ⟨(RadishStore.new ttl).applyAll now ms, some disk⟩ := by
  have hread : getEvents none disk.log = .ok (ms.map Mutation.toEvent) := by
    rw [hlog]
    refine getEvents_eq_ok_iff.mpr ⟨?_, tail, htail, rfl⟩
    rw [List.forall_mem_map]
    exact fun m hm => ⟨m.wellFormed, haccepted m hm⟩
  have hinit := ensureInitialized_of_header hlog
  simp only [new, initializePersistence, hinit, ok_bind, replay_eq_applyAll hread]
  rfl

/-- Without a ttl, the store holds what the log, in which every rename moves something elsewhere,
replays to. -/
structure Continued (db : RadishDB Bytes) (ms : List (Mutation Bytes)) : Prop where
  sized : db.Sized ms
  ttl : db.store.ttl = -1
  coherent : db.store.Coherent
  stamps : ∀ m ∈ ms, m.timestamp = -1
  moves : ∀ m ∈ ms, m.action.isIdle = false
  values : db.store.values = fun key => (written ms key).map Prod.fst

/-- What is on the disk is opened, without a ttl, to this keyspace. -/
def Recovers (db : RadishDB Bytes) (m : Keyspace Bytes) : Prop :=
  ∃ disk, db.persistence = some disk ∧
    ∀ now, ∃ opened, new now (-1) .flush disk = .ok opened ∧ opened.store.keyspace = m

section Continuing
variable {db db' : RadishDB Bytes} {ms : List (Mutation Bytes)}

theorem written_append (ms : List (Mutation Bytes)) (m : Mutation Bytes) :
    written (ms ++ [m]) = replayStep (fun _ => true) (written ms) m.action := by
  rw [written, List.map_append, replay_append]
  rfl

theorem Call.Plain.isIdle_mutation {c : Call Bytes} (h : c.Plain) (expiry : Timestamp) :
    (c.mutation expiry).action.isIdle = false := by
  cases c with
  | rename oldKey newKey =>
    refine decide_eq_false ?_
    intro heq
    subst heq
    exact h oldKey rfl
  | _ => rfl

/-- An effective call and its record. -/
theorem Continued.append (h : db.Continued ms) {now : Timestamp} {c : Call Bytes} (hc : c.Small)
    (hplain : c.Plain) (hstore : db'.store = (db.store.apply now (c.mutation (-1))).2)
    (hlogged : db'.Logged (ms ++ [c.mutation (-1)])) : db'.Continued (ms ++ [c.mutation (-1)]) := by
  refine ⟨h.sized.append hc hlogged, ?_, ?_, ?_, ?_, ?_⟩
  · rw [hstore, RadishStore.apply_ttl, h.ttl]
  · rw [hstore]
    exact h.coherent.apply now _
  · intro m hmem
    obtain hold | hnew := List.mem_append.mp hmem
    · exact h.stamps m hold
    · obtain rfl := List.mem_singleton.mp hnew
      cases c <;> rfl
  · intro m hmem
    obtain hold | hnew := List.mem_append.mp hmem
    · exact h.moves m hold
    · obtain rfl := List.mem_singleton.mp hnew
      exact hplain.isIdle_mutation _
  · rw [hstore, RadishStore.values_apply h.coherent h.ttl, h.values, written_append]
    exact (replayStep_map Prod.fst (fun _ => rfl) (written ms) _).symm

theorem Continued.compacted_eq (h : db.Continued ms) (now : Timestamp) :
    compacted now ms = written ms := by
  have hall : ms.filter (fun m => !m.action.isIdle) = ms :=
    List.filter_eq_self.mpr fun m hm => by rw [h.moves m hm]; rfl
  rw [compacted_of_untimed h.stamps, hall, written]

theorem Continued.compact (h : db.Continued ms) (fault : Option Fault)
    (order : Traversal (Σ _ : Key, RadishEvent Bytes)) (now : Timestamp) :
    ∃ ms', (db.compact fault order now).2.Continued ms' := by
  obtain ⟨ms', hsized⟩ := h.sized.compact fault order now
  have hstore : (db.compact fault order now).2.store = db.store := compact_store now db
  rcases hcompact : db.compact fault order now with ⟨e | ⟨⟩, db'⟩
  · rw [hcompact] at hsized hstore
    obtain rfl := hsized.logged.unique (h.sized.logged.compactThrows hcompact)
    refine ⟨ms', hsized, ?_, ?_, h.stamps, h.moves, ?_⟩
    · rw [hstore, h.ttl]
    · rw [hstore]
      exact h.coherent
    · rw [hstore, h.values]
  · rw [hcompact] at hsized hstore
    obtain ⟨ns, hlogged, hlisted, hreplay, -⟩ := compact_logged h.sized.logged hcompact
    obtain rfl := hsized.logged.unique hlogged
    refine ⟨ms', hsized, ?_, ?_, ?_, ?_, ?_⟩
    · rw [hstore, h.ttl]
    · rw [hstore]
      exact h.coherent
    · intro n hn
      obtain ⟨k, entry, hentry, rfl⟩ := hlisted n hn
      obtain ⟨x, hput⟩ := summary_source hentry
      obtain ⟨m, hm, haction⟩ := List.mem_map.mp hput
      have hstamp := h.stamps m hm
      rw [Mutation.eq_ofEntry (p := (x, entry)) haction] at hstamp
      exact hstamp
    · intro n hn
      obtain ⟨k, entry, -, rfl⟩ := hlisted n hn
      rfl
    · rw [hstore, h.values, written, written, hreplay, h.compacted_eq, written]

theorem Continued.keyspace_eq (h : db.Continued ms) :
    db.store.keyspace = fun key => (written ms key).map fun entry => ⟨entry.1, none⟩ := by
  rw [h.coherent.keyspace_of_untimed h.ttl, h.values]
  funext key
  rw [Option.map_map]
  rfl

theorem Continued.get_eq_some_iff (h : db.Continued ms) {t : Timestamp} {key : Key}
    {value : Bytes} :
    db.get t key = some value ↔ db.store.keyspace key = some ⟨value, none⟩ := by
  rw [RadishDB.get, h.coherent.get_eq_some_iff, h.keyspace_eq]
  constructor
  · intro hshown
    obtain ⟨binding, hkey, -, rfl⟩ := hshown
    obtain ⟨entry, hentry, rfl⟩ := Option.map_eq_some_iff.mp hkey
    exact hkey
  · intro hkey
    exact ⟨_, hkey, rfl, rfl⟩

/-- Opened again, with or without part of a further record, the log gives the keyspace back. -/
theorem Continued.reopens (h : db.Continued ms) (disk : LogWriter) {tail : Bytes}
    (htail : TornTail tail)
    (hlog : disk.log = some (kHeader ++ ((ms.map Mutation.toEvent).flatMap frame ++ tail)))
    (now : Timestamp) :
    ∃ opened, new now (-1) .flush disk = .ok opened ∧
      opened.store.keyspace = db.store.keyspace ∧
      (tail = [] → opened.Continued ms) := by
  have hnew := new_of_torn h.sized.logged.1 htail hlog now (-1)
  have httl : ((RadishStore.new (-1)).applyAll now ms).ttl = -1 := by
    rw [RadishStore.applyAll_ttl, RadishStore.new_ttl]
  have hcoherent : ((RadishStore.new (-1)).applyAll now ms).Coherent :=
    (RadishStore.coherent_new (-1)).applyAll now ms
  have hvalues : ((RadishStore.new (-1)).applyAll now ms).values =
      fun key => (written ms key).map Prod.fst := by
    rw [RadishStore.values_fresh]
    rfl
  refine ⟨_, hnew, ?_, ?_⟩
  · rw [hcoherent.keyspace_of_untimed httl, h.coherent.keyspace_of_untimed h.ttl, hvalues, h.values]
  · intro hnil
    rw [hnil, List.append_nil] at hlog
    exact ⟨⟨⟨h.sized.logged.1, disk, rfl, hlog⟩, h.sized.small⟩, httl, hcoherent, h.stamps, h.moves,
      hvalues⟩

theorem Continued.intact (h : db.Continued ms) : ∃ disk, db.persistence = some disk ∧
    disk.log = some (kHeader ++ ((ms.map Mutation.toEvent).flatMap frame ++ [])) := by
  obtain ⟨-, disk, hdisk, hlog⟩ := h.sized.logged
  exact ⟨disk, hdisk, by rw [hlog, List.append_nil]⟩

theorem Continued.recovers (h : db.Continued ms) : db.Recovers db.store.keyspace := by
  obtain ⟨disk, hdisk, hlog⟩ := h.intact
  refine ⟨disk, hdisk, ?_⟩
  intro now
  obtain ⟨opened, hnew, hkeyspace, -⟩ := h.reopens disk tornTail_nil hlog now
  exact ⟨opened, hnew, hkeyspace⟩

/-- However far a call gets: it returns, or its record is in the log as a whole or not at all. -/
theorem Continued.call (h : db.Continued ms) (fault : Option Fault) (now : Timestamp)
    {c : Call Bytes} (hc : c.Small) (hplain : c.Plain) :
    (∃ found db', db.call fault now c = (.ok found, db') ∧ ∃ ms', db'.Continued ms') ∨
      ∃ e db', db.call fault now c = (.error e, db') ∧
        (db'.Recovers db.store.keyspace ∨
          db'.Recovers (replayStep (Binding.alive now) db.store.keyspace (c.effect (-1) now))) := by
  have hm := Call.mutation_of_untimed h.ttl now c
  obtain ⟨haccepted, disk, hdisk, hlog⟩ := h.sized.logged
  obtain ⟨record, hrecord⟩ := hc.accepted (-1)
  have hframe := frame_eq hrecord
  rw [call_eq_commit, hm]
  cases heffective : (db.store.apply now (c.mutation (-1))).1 with
  | false => exact Or.inl ⟨false, db, commit_of_idle heffective, ms, h⟩
  | true =>
    -- the database in which the call has been recorded
    have hrecorded : Continued ⟨(db.store.apply now (c.mutation (-1))).2, some { disk with
        log := some (kHeader ++ (ms.map Mutation.toEvent).flatMap frame ++ record) }⟩
        (ms ++ [c.mutation (-1)]) := by
      refine h.append hc hplain rfl ⟨?_, _, rfl, ?_⟩
      · simpa [or_imp, forall_and] using And.intro haccepted (hc.accepted (-1))
      · simp [hframe]
    obtain happend | ⟨e, reached, happend⟩ := append_cases fault hlog hrecord
    · exact Or.inl ⟨true, _, commit_of_append hdisk heffective happend, _, hrecorded⟩
    · right
      refine ⟨e, _, commit_of_append hdisk heffective happend, ?_⟩
      by_cases hwhole : record.length ≤ reached
      · right
        obtain ⟨disk', hdisk', hreopens⟩ := hrecorded.recovers
        rw [List.take_of_length_le hwhole]
        refine ⟨disk', hdisk', ?_⟩
        intro later
        obtain ⟨opened, hnew, hkeyspace⟩ := hreopens later
        refine ⟨opened, hnew, ?_⟩
        have heffect := c.action_mutation db.store now
        rw [hm, h.ttl] at heffect
        rw [hkeyspace, h.coherent.keyspace_apply, h.ttl, heffect]
      · left
        refine ⟨_, rfl, ?_⟩
        intro later
        have htorn : TornTail (record.take reached) := by
          rw [← List.take_append_drop reached record] at hrecord
          apply tornTail_of_strict_prefix hrecord
          apply List.ne_nil_of_length_pos
          rw [List.length_drop]
          omega
        have hpart := List.append_assoc kHeader ((ms.map Mutation.toEvent).flatMap frame)
          (record.take reached)
        obtain ⟨opened, hnew, hkeyspace, -⟩ := h.reopens { disk with log := some (kHeader ++
          (ms.map Mutation.toEvent).flatMap frame ++ record.take reached) } htorn
          (congrArg some hpart) later
        exact ⟨opened, hnew, hkeyspace⟩

theorem continued_of_absent {now : Timestamp} {disk : LogWriter} {db : RadishDB Bytes}
    (habsent : disk.log = none) (hopens : new now (-1) .flush disk = .ok db) :
    db.Continued [] ∧ db.store.keyspace = fun _ => none := by
  obtain ⟨hstore, hlogged⟩ := fresh_of_absent habsent hopens
  refine ⟨⟨hlogged.sized_nil, ?_, ?_, ?_, ?_, ?_⟩, ?_⟩
  · rw [hstore, RadishStore.new_ttl]
  · rw [hstore]
    exact RadishStore.coherent_new (-1)
  · exact List.forall_mem_nil _
  · exact List.forall_mem_nil _
  · rw [hstore]
    rfl
  · rw [hstore]
    rfl

end Continuing

end RadishDB

end Radish
