import Radish.Compaction
import Radish.RadishDB

/-!
# Runs of the database

Every mutating call stages one mutation. It either has no effect, or is refused by
`WriteRecord`, or reaches both the log and the store; so along a run the log is the list of
the mutations that took effect.
-/

namespace Radish
set_option autoImplicit false
open LogReader LogWriter

variable {V : Type}

/-- The mutation that a call stages; `expiry` is what `NewExpiryTimestamp` returns. -/
def RadishDB.Call.mutation (expiry : Timestamp) : RadishDB.Call V → Mutation V
  | .create key value => .create expiry key value
  | .rename oldKey newKey => .rename (-1) oldKey newKey
  | .delete key => .delete (-1) key
  | .clear => .clear (-1)

namespace RadishDB

/-- The two switches over the event type agree. -/
theorem applyEvent_eq (now : Timestamp) (store : RadishStore V) (event : RadishEvent V) :
    RadishDB.applyEvent now store event = LogWriter.applyEvent now store event := rfl

variable [BinaryValue V]

theorem call_eq_commit (fault : Option Fault) (now : Timestamp) (db : RadishDB V) (c : Call V) :
    db.call fault now c =
      db.commit fault now (c.mutation (db.store.newExpiryTimestamp now)).toEvent := by
  cases c <;> rfl

/-- The log behind the database holds the records of `ms` and nothing else. -/
def Logged (db : RadishDB V) (ms : List (Mutation V)) : Prop :=
  (∀ m ∈ ms, Accepted m.toEvent) ∧ ∃ writer, db.persistence = some writer ∧
    writer.log = some (kHeader ++ (ms.map Mutation.toEvent).flatMap frame)

theorem Logged.getEvents {db : RadishDB V} {ms : List (Mutation V)} (h : db.Logged ms) :
    ∃ writer, db.persistence = some writer ∧
      LogReader.getEvents none writer.log = .ok (ms.map Mutation.toEvent) := by
  rcases h with ⟨haccepted, writer, hwriter, hlog⟩
  refine ⟨writer, hwriter, ?_⟩
  rw [hlog]
  apply getEvents_intact
  rw [List.forall_mem_map]
  exact fun m hm => ⟨m.wellFormed, haccepted m hm⟩

section Commit
variable {fault : Option Fault} {now : Timestamp} {db : RadishDB V} {m : Mutation V}

theorem commit_of_idle (h : (db.store.apply now m).1 = false) :
    db.commit fault now m.toEvent = (.ok false, db) := by
  obtain ⟨store, persistence⟩ := db
  rcases happly : store.apply now m with ⟨effective, staged⟩
  have hstage := (applyEvent_toEvent now store m).trans (congrArg Except.ok happly)
  have hvolatile := (applyEvent_eq now store m.toEvent).trans hstage
  rw [happly] at h
  dsimp only at h
  subst h
  cases persistence with
  | none => simp only [commit, hvolatile]
  | some writer => simp only [commit, hstage]

theorem commit_of_volatile (hpersistence : db.persistence = none)
    (h : (db.store.apply now m).1 = true) :
    db.commit fault now m.toEvent = (.ok true, { db with store := (db.store.apply now m).2 }) := by
  obtain ⟨store, persistence⟩ := db
  dsimp only at hpersistence
  subst hpersistence
  rcases happly : store.apply now m with ⟨effective, staged⟩
  have hvolatile := (applyEvent_eq now store m.toEvent).trans
    ((applyEvent_toEvent now store m).trans (congrArg Except.ok happly))
  rw [happly] at h
  dsimp only at h
  subst h
  simp only [commit, hvolatile]

/-- With a log, an effective mutation ends as its append does. -/
theorem commit_of_append {writer writer' : LogWriter} {result : Except Exception Unit}
    (hpersistence : db.persistence = some writer) (h : (db.store.apply now m).1 = true)
    (happend : writer.append fault m.toEvent = (result, writer')) :
    db.commit fault now m.toEvent = (result.map fun _ => true,
      ⟨if result.isOk then (db.store.apply now m).2 else db.store, some writer'⟩) := by
  obtain ⟨store, persistence⟩ := db
  dsimp only at hpersistence
  subst hpersistence
  rcases happly : store.apply now m with ⟨effective, staged⟩
  have hstage := (applyEvent_toEvent now store m).trans (congrArg Except.ok happly)
  rw [happly] at h
  dsimp only at h
  subst h
  cases result with
  | error e => simp [commit, hstage, happend, Except.map, Except.isOk, Except.toBool]
  | ok => simp [commit, hstage, happend, Except.map, Except.isOk, Except.toBool]

end Commit

/-- The three ways a commit can end when the files behave. -/
theorem commit_cases {db : RadishDB V} {ms : List (Mutation V)} (h : db.Logged ms)
    (now : Timestamp) (m : Mutation V) :
    ((db.store.apply now m).1 = false ∧ db.commit none now m.toEvent = (.ok false, db)) ∨
    ((db.store.apply now m).1 = true ∧ ¬ Accepted m.toEvent ∧
      ∃ e, db.commit none now m.toEvent = (.error e, db)) ∨
    ((db.store.apply now m).1 = true ∧ Accepted m.toEvent ∧
      ∃ db', db.commit none now m.toEvent = (.ok true, db') ∧
        db'.store = (db.store.apply now m).2 ∧ db'.Logged (ms ++ [m])) := by
  rcases h with ⟨haccepted, writer, hwriter, hlog⟩
  cases heffective : (db.store.apply now m).1 with
  | false => exact Or.inl ⟨rfl, commit_of_idle heffective⟩
  | true =>
    by_cases hm : Accepted m.toEvent
    · let writer' : LogWriter :=
        { writer with log := some (writer.log.getD [] ++ frame m.toEvent) }
      have happend : writer.append none m.toEvent = (.ok (), writer') :=
        append_eq_ok_iff.mpr ⟨hm, rfl⟩
      refine Or.inr (Or.inr ⟨rfl, hm, _, commit_of_append hwriter heffective happend, rfl, ?_,
        writer', rfl, ?_⟩)
      · simpa [or_imp, forall_and] using And.intro haccepted hm
      · simp [writer', hlog]
    · refine Or.inr (Or.inl ⟨rfl, hm, ?_⟩)
      cases hwrite : writeRecord m.toEvent with
      | ok record => exact absurd ⟨record, hwrite⟩ hm
      | error e =>
        have happend : writer.append none m.toEvent = (.error e, writer) := by
          obtain ⟨filename, log, temporary⟩ := writer
          dsimp only at hlog
          subst hlog
          simp [append, hwrite]
        refine ⟨e, (commit_of_append hwriter heffective happend).trans ?_⟩
        rw [← hwriter]
        rfl

theorem call_cases {db : RadishDB V} {ms : List (Mutation V)} (h : db.Logged ms)
    (now : Timestamp) (c : Call V) {m : Mutation V}
    (hm : c.mutation (db.store.newExpiryTimestamp now) = m) :
    ((db.store.apply now m).1 = false ∧ db.call none now c = (.ok false, db)) ∨
    ((db.store.apply now m).1 = true ∧ ¬ Accepted m.toEvent ∧
      ∃ e, db.call none now c = (.error e, db)) ∨
    ((db.store.apply now m).1 = true ∧ Accepted m.toEvent ∧
      ∃ db', db.call none now c = (.ok true, db') ∧
        db'.store = (db.store.apply now m).2 ∧ db'.Logged (ms ++ [m])) := by
  rw [call_eq_commit, hm]
  exact commit_cases h now m

/-- A run of calls, each with its reading of the clock; a call that throws is followed by the
next one. -/
def run (db : RadishDB V) (calls : List (Timestamp × Call V)) : RadishDB V :=
  calls.foldl (fun db c => (db.call none c.1 c.2).2) db

@[simp] theorem run_nil (db : RadishDB V) : db.run [] = db := rfl

theorem run_append (db : RadishDB V) (xs ys : List (Timestamp × Call V)) :
    db.run (xs ++ ys) = (db.run xs).run ys := List.foldl_append

@[simp] theorem run_cons (db : RadishDB V) (c : Timestamp × Call V)
    (calls : List (Timestamp × Call V)) :
    db.run (c :: calls) = (db.call none c.1 c.2).2.run calls := rfl

/-- A call leaves the store as it was, or applies its mutation. -/
theorem call_store (fault : Option Fault) (now : Timestamp) (db : RadishDB V) (c : Call V) :
    (db.call fault now c).2.store = db.store ∨ (db.call fault now c).2.store =
      (db.store.apply now (c.mutation (db.store.newExpiryTimestamp now))).2 := by
  rw [call_eq_commit]
  generalize c.mutation (db.store.newExpiryTimestamp now) = m
  cases heffective : (db.store.apply now m).1 with
  | false => exact Or.inl (by rw [commit_of_idle heffective])
  | true =>
    cases hpersistence : db.persistence with
    | none => exact Or.inr (by rw [commit_of_volatile hpersistence heffective])
    | some writer =>
      rcases happend : writer.append fault m.toEvent with ⟨result, writer'⟩
      rw [commit_of_append hpersistence heffective happend]
      cases result with
      | error e => exact Or.inl rfl
      | ok => exact Or.inr rfl

theorem compact_store {fault : Option Fault} {order : Traversal (Σ _ : Key, RadishEvent V)}
    (now : Timestamp) (db : RadishDB V) : (db.compact fault order now).2.store = db.store := by
  unfold compact
  split <;> rfl

/-- A commit that returns tells whether its mutation had an effect, and has made it then. -/
theorem commit_ok {fault : Option Fault} {now : Timestamp} {db db' : RadishDB V} {m : Mutation V}
    {found : Bool} (h : db.commit fault now m.toEvent = (.ok found, db')) :
    found = (db.store.apply now m).1 ∧
      db'.store = if found then (db.store.apply now m).2 else db.store := by
  cases heffective : (db.store.apply now m).1 with
  | false =>
    rw [commit_of_idle heffective] at h
    cases h
    exact ⟨rfl, rfl⟩
  | true =>
    cases hpersistence : db.persistence with
    | none =>
      rw [commit_of_volatile hpersistence heffective] at h
      cases h
      exact ⟨rfl, rfl⟩
    | some writer =>
      rcases happend : writer.append fault m.toEvent with ⟨result, writer'⟩
      rw [commit_of_append hpersistence heffective happend] at h
      cases result with
      | error e => cases h
      | ok =>
        cases h
        exact ⟨rfl, rfl⟩

@[simp] theorem run_ttl (db : RadishDB V) (calls : List (Timestamp × Call V)) :
    (db.run calls).store.ttl = db.store.ttl := by
  induction calls generalizing db with
  | nil => rfl
  | cons c calls ih =>
    rw [run_cons, ih]
    rcases call_store none c.1 db c.2 with h | h <;> simp [h]

theorem coherent_run {db : RadishDB V} (h : db.store.Coherent) (calls : List (Timestamp × Call V)) :
    (db.run calls).store.Coherent := by
  induction calls generalizing db with
  | nil => exact h
  | cons c calls ih =>
    apply ih
    rcases call_store none c.1 db c.2 with hstore | hstore
    · rwa [hstore]
    · rw [hstore]
      exact h.apply _ _

theorem Logged.run {db : RadishDB V} {ms : List (Mutation V)} (h : db.Logged ms)
    (calls : List (Timestamp × Call V)) : ∃ ms', (db.run calls).Logged ms' := by
  induction calls generalizing db ms with
  | nil => exact ⟨ms, h⟩
  | cons c calls ih =>
    rcases call_cases h c.1 c.2 rfl with ⟨-, hcall⟩ | ⟨-, -, e, hcall⟩ | ⟨-, -, db', hcall, -, hlogged⟩
    · rw [run_cons, hcall]
      exact ih h
    · rw [run_cons, hcall]
      exact ih h
    · rw [run_cons, hcall]
      exact ih hlogged

/-- Opening a log of known records replays them. -/
theorem new_of_logged {db : RadishDB V} {ms : List (Mutation V)} (h : db.Logged ms)
    (now ttl : Timestamp) : ∃ writer, db.persistence = some writer ∧
      ∃ reopened : RadishDB V, new now ttl .flush writer = .ok reopened ∧
        reopened.store = (RadishStore.new ttl).applyAll now ms ∧ reopened.Logged ms := by
  rcases h.getEvents with ⟨writer, hwriter, hread⟩
  rcases h with ⟨haccepted, _, hwriter', hlog⟩
  obtain rfl := Option.some.inj (hwriter.symm.trans hwriter')
  refine ⟨writer, hwriter, ⟨_, some writer⟩, ?_, rfl, haccepted, writer, rfl, hlog⟩
  have hinit := ensureInitialized_of_header hlog
  simp only [new, initializePersistence, hinit, ok_bind, replay_eq_applyAll hread]
  rfl

/-- A database whose file has just been created. -/
def fresh (filename : String) (ttl : Timestamp) : RadishDB V :=
  ⟨RadishStore.new ttl, some ⟨filename, some kHeader, none⟩⟩

theorem fresh_logged (filename : String) (ttl : Timestamp) :
    (fresh filename ttl : RadishDB V).Logged [] := ⟨List.forall_mem_nil _, _, rfl, rfl⟩

/-- Opening without a file starts an empty log. -/
theorem new_of_absent {writer : LogWriter} (habsent : writer.log = none) (now ttl : Timestamp) :
    (new now ttl .flush writer : Except Exception (RadishDB V)) =
      .ok ⟨RadishStore.new ttl, some { writer with log := some kHeader }⟩ := by
  have hinit : writer.ensureInitialized = .ok { writer with log := some kHeader } := by
    simp [ensureInitialized, habsent]
  have hread : LogReader.getEvents (V := V) none (some kHeader) = .ok ([].map Mutation.toEvent) :=
    getEvents_intact (List.forall_mem_nil _)
  have hreplay : ({ writer with log := some kHeader } : LogWriter).replay none now
      (RadishStore.new ttl) = .ok ((RadishStore.new ttl : RadishStore V).applyAll now []) :=
    replay_eq_applyAll hread now (RadishStore.new ttl)
  simp only [new, initializePersistence, hinit, ok_bind, hreplay]
  rfl

theorem new_fresh (filename : String) (now ttl : Timestamp) :
    (new now ttl .flush ⟨filename, none, none⟩ : Except Exception (RadishDB V)) =
      .ok (fresh filename ttl) := new_of_absent rfl now ttl

theorem fresh_of_absent {now ttl : Timestamp} {writer : LogWriter} {db : RadishDB V}
    (habsent : writer.log = none) (h : new now ttl .flush writer = .ok db) :
    db.store = RadishStore.new ttl ∧ db.Logged [] := by
  rw [new_of_absent habsent] at h
  obtain rfl := Except.ok.inj h
  exact ⟨rfl, List.forall_mem_nil _, _, rfl, rfl⟩

end RadishDB

end Radish
