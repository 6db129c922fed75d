import Radish.CallHistory

/-!
# Durability without expiries

A persistent database without a ttl, closed and reopened at any time, answers as a volatile one
that is never closed. The mutations that took effect are its log.
-/

namespace Radish
set_option autoImplicit false
open Ledger LogWriter

variable {V : Type}

namespace RadishDB

/-- A call, or closing the database and opening its file again. -/
inductive Step (V : Type) where
  | call (now : Timestamp) (c : Call V)
  | restart (now : Timestamp)

def Step.call? : Step V → Option (Timestamp × Call V)
  | call now c => some (now, c)
  | restart _ => none

def callsOf (steps : List (Step V)) : List (Timestamp × Call V) := steps.filterMap Step.call?

/-- Whether a call that returned `result` should have left a record: every `Create` should, any
other call if it returned true. -/
def Call.records (result : Except Exception Bool) : Call V → Bool
  | .create _ _ => true
  | _ => result = .ok true

/-- The mutations behind a list of calls that should be in the log, given what they returned. -/
def recorded (calls : List (Timestamp × Call V)) (results : List (Except Exception Bool)) :
    List (Mutation V) :=
  ((calls.zip results).filter fun p => p.1.2.records p.2).map fun p => p.1.2.mutation (-1)

theorem Call.mutation_of_untimed {store : RadishStore V} (httl : store.ttl = -1) (now : Timestamp)
    (c : Call V) : c.mutation (store.newExpiryTimestamp now) = c.mutation (-1) := by
  simp [RadishStore.newExpiryTimestamp, RadishStore.hasTimeToLive, httl]

theorem Call.records_apply (store : RadishStore V) (now expiry : Timestamp) (c : Call V) :
    c.records (.ok (store.apply now (c.mutation expiry)).1) =
      (store.apply now (c.mutation expiry)).1 := by
  cases c <;> simp [Call.records, Call.mutation, RadishStore.apply]

variable [BinaryValue V]

def restart (now ttl : Timestamp) (db : RadishDB V) : Except Exception (RadishDB V) :=
  match db.persistence with
  | some writer => new now ttl .flush writer
  | none => return db

/-- What the calls of a run return, without restarts. -/
def results (db : RadishDB V) : List (Timestamp × Call V) → List (Except Exception Bool)
  | [] => []
  | c :: calls => (db.call none c.1 c.2).1 :: results (db.call none c.1 c.2).2 calls

/-- What the calls of a run with restarts return, and the database at its end; an exception is
one that a restart threw. -/
def runSteps (ttl : Timestamp) (db : RadishDB V) :
    List (Step V) → Except Exception (List (Except Exception Bool) × RadishDB V)
  | [] => return ([], db)
  | .call now c :: steps => do
    let (rest, final) ← runSteps ttl (db.call none now c).2 steps
    return ((db.call none now c).1 :: rest, final)
  | .restart now :: steps => do
    let db ← db.restart now ttl
    runSteps ttl db steps

/-- The persistent database, its log and the volatile database hold the same values. -/
structure Mirrors (db reference : RadishDB V) (ms : List (Mutation V)) : Prop where
  logged : db.Logged ms
  untimed : db.store.ttl = -1
  coherent : db.store.Coherent
  volatile : reference.persistence = none
  untimed' : reference.store.ttl = -1
  coherent' : reference.store.Coherent
  same : db.store.values = reference.store.values
  replayed : Ledger.replay (fun _ => true) (fun _ => none)
    (ms.map fun m => m.action.map Prod.fst) = db.store.values

theorem call_of_volatile {db : RadishDB V} (h : db.persistence = none) (now : Timestamp)
    (c : Call V) {m : Mutation V} (hm : c.mutation (db.store.newExpiryTimestamp now) = m) :
    (db.call none now c).1 = .ok (db.store.apply now m).1 ∧
      (db.call none now c).2 =
        if (db.store.apply now m).1 then { db with store := (db.store.apply now m).2 } else db := by
  rw [call_eq_commit, hm]
  cases heffective : (db.store.apply now m).1 with
  | false =>
    rw [commit_of_idle heffective]
    exact ⟨rfl, rfl⟩
  | true =>
    rw [commit_of_volatile h heffective]
    exact ⟨rfl, rfl⟩

theorem Mirrors.call {db reference : RadishDB V} {ms : List (Mutation V)}
    (h : db.Mirrors reference ms) (now : Timestamp) (c : Call V)
    (haccepted : c.records (reference.call none now c).1 = true → Accepted (c.mutation (-1)).toEvent) :
    (db.call none now c).1 = (reference.call none now c).1 ∧
      (db.call none now c).2.Mirrors (reference.call none now c).2
        (ms ++ if c.records (reference.call none now c).1 then [c.mutation (-1)] else []) := by
  have hm := Call.mutation_of_untimed h.untimed now c
  rcases call_of_volatile h.volatile now c (Call.mutation_of_untimed h.untimed' now c) with
    ⟨hresult, hreference⟩
  rw [hresult, Call.records_apply] at haccepted ⊢
  rw [hreference]
  have heffective : (db.store.apply now (c.mutation (-1))).1 =
      (reference.store.apply now (c.mutation (-1))).1 := by
    rw [Bool.eq_iff_iff, RadishStore.apply_fst_iff h.coherent h.untimed,
      RadishStore.apply_fst_iff h.coherent' h.untimed', h.same]
  rcases call_cases h.logged now c hm with ⟨hfalse, hcall⟩ | ⟨htrue, hrefused, -⟩ |
    ⟨htrue, -, db', hcall, hstore, hlogged⟩
  · rw [← heffective, hfalse, hcall]
    simpa using h
  · exact absurd (haccepted (heffective ▸ htrue)) hrefused
  · rw [← heffective, htrue, hcall]
    refine ⟨rfl, hlogged, ?_, ?_, h.volatile, ?_, ?_, ?_, ?_⟩
    · rw [hstore, RadishStore.apply_ttl]
      exact h.untimed
    · rw [hstore]
      exact h.coherent.apply now _
    · exact (RadishStore.apply_ttl now _ _).trans h.untimed'
    · exact h.coherent'.apply now _
    · rw [hstore, RadishStore.values_apply h.coherent h.untimed, h.same]
      exact (RadishStore.values_apply h.coherent' h.untimed' now _).symm
    · rw [hstore, RadishStore.values_apply h.coherent h.untimed, List.map_append, replay_append,
        h.replayed]
      rfl

theorem Mirrors.restart {db reference : RadishDB V} {ms : List (Mutation V)}
    (h : db.Mirrors reference ms) (now : Timestamp) :
    ∃ reopened, db.restart now (-1) = .ok reopened ∧ reopened.Mirrors reference ms ∧
      reopened.store.values = db.store.values := by
  rcases new_of_logged h.logged now (-1) with ⟨disk, hdisk, reopened, hnew, hstore, hlogged⟩
  have hvalues : reopened.store.values = db.store.values := by
    rw [hstore, RadishStore.values_applyAll (RadishStore.coherent_new _) rfl]
    exact h.replayed
  refine ⟨reopened, by simpa [RadishDB.restart, hdisk] using hnew, ?_, hvalues⟩
  refine ⟨hlogged, ?_, ?_, h.volatile, h.untimed', h.coherent', hvalues.trans h.same, ?_⟩
  · rw [hstore, RadishStore.applyAll_ttl, RadishStore.new_ttl]
  · rw [hstore]
    exact (RadishStore.coherent_new _).applyAll now ms
  · rw [hvalues]
    exact h.replayed

theorem Mirrors.run {db reference : RadishDB V} {ms : List (Mutation V)}
    (h : db.Mirrors reference ms) {steps : List (Step V)}
    (haccepted : ∀ m ∈ recorded (callsOf steps) (reference.results (callsOf steps)),
      Accepted m.toEvent) :
    ∃ final, db.runSteps (-1) steps = .ok (reference.results (callsOf steps), final) ∧
      final.Mirrors (reference.run (callsOf steps))
        (ms ++ recorded (callsOf steps) (reference.results (callsOf steps))) := by
  induction steps generalizing db reference ms with
  | nil => exact ⟨db, rfl, by simpa [callsOf, recorded, results] using h⟩
  | cons step steps ih =>
    cases step with
    | restart now =>
      rcases h.restart now with ⟨reopened, hreopen, hmirror, -⟩
      rcases ih hmirror haccepted with ⟨final, hrun, hfinal⟩
      refine ⟨final, ?_, hfinal⟩
      rw [runSteps, hreopen, ok_bind]
      exact hrun
    | call now c =>
      have hcalls : callsOf (Step.call now c :: steps) = (now, c) :: callsOf steps := rfl
      rw [hcalls] at haccepted ⊢
      have hsplit : recorded ((now, c) :: callsOf steps) (reference.results ((now, c) :: callsOf steps)) =
          (if c.records (reference.call none now c).1 then [c.mutation (-1)] else []) ++
            recorded (callsOf steps) ((reference.call none now c).2.results (callsOf steps)) := by
        simp only [recorded, results, List.zip_cons_cons, List.filter_cons]
        split <;> rfl
      rw [hsplit] at haccepted ⊢
      rcases h.call now c (fun hrec => haccepted _ (by simp [hrec])) with ⟨hresult, hmirror⟩
      rcases ih hmirror (fun m hm => haccepted m (List.mem_append_right _ hm)) with
        ⟨final, hrun, hfinal⟩
      refine ⟨final, ?_, ?_⟩
      · rw [runSteps, hrun, ok_bind, hresult]
        rfl
      · rw [← List.append_assoc]
        exact hfinal

/-- Without expiries a run with restarts returns what a volatile run returns, its log is the list
of the mutations that took effect, and a restart at its end gives the same map back. -/
theorem runSteps_durable {start : Timestamp} {writer unused : LogWriter}
    {db reference : RadishDB V} {steps : List (Step V)} (habsent : writer.log = none)
    (hopen : new start (-1) .flush writer = .ok db)
    (hvolatile : new start (-1) .disabled unused = .ok reference)
    (hrecords : ∀ m ∈ recorded (callsOf steps) (reference.results (callsOf steps)),
      ∃ record, writeRecord m.toEvent = .ok record) :
    ∃ final, db.runSteps (-1) steps = .ok (reference.results (callsOf steps), final) ∧
      (∃ disk, final.persistence = some disk ∧ LogReader.getEvents none disk.log =
        .ok ((recorded (callsOf steps) (reference.results (callsOf steps))).map Mutation.toEvent)) ∧
      ∀ now, ∃ reopened, final.restart now (-1) = .ok reopened ∧
        ∀ k, reopened.store.data.lookup k = final.store.data.lookup k := by
  have hreference : reference = ⟨RadishStore.new (-1), none⟩ := (Except.ok.inj hvolatile).symm
  rcases fresh_of_absent habsent hopen with ⟨hstore, hlogged⟩
  have hmirror : db.Mirrors reference [] := by
    rw [hreference]
    refine ⟨hlogged, ?_, ?_, rfl, rfl, RadishStore.coherent_new _, ?_, ?_⟩
    · rw [hstore, RadishStore.new_ttl]
    · rw [hstore]
      exact RadishStore.coherent_new _
    · rw [hstore]
    · rw [hstore]
      rfl
  rcases hmirror.run hrecords with ⟨final, hrun, hfinal⟩
  refine ⟨final, hrun, hfinal.logged.getEvents, fun now => ?_⟩
  rcases hfinal.restart now with ⟨reopened, hreopen, -, hvalues⟩
  exact ⟨reopened, hreopen, congrFun hvalues⟩

/-- A key is created, missed by a rename after a restart, and deleted. -/
def restartedRun : List (Step Bytes) :=
  [.call 0 (.create [107] [118]), .restart 1, .call 2 (.rename [120] [121]), .call 3 (.delete [107])]

theorem runSteps_durable_restartedRun :
    ∃ final : RadishDB Bytes, (fresh "radish" (-1)).runSteps (-1) restartedRun =
        .ok ([.ok true, .ok false, .ok true], final) ∧
      (∃ disk, final.persistence = some disk ∧ LogReader.getEvents (V := Bytes) none disk.log =
        .ok ([.create (-1) [107] [118], .delete (-1) [107]].map Mutation.toEvent)) ∧
      ∀ now, ∃ reopened, final.restart now (-1) = .ok reopened ∧
        ∀ k, reopened.store.data.lookup k = final.store.data.lookup k := by
  have habsent : (⟨"radish", none, none⟩ : LogWriter).log = none := rfl
  have hvolatile : new 0 (-1) .disabled ⟨"radish", none, none⟩ =
      .ok (⟨RadishStore.new (-1), none⟩ : RadishDB Bytes) := rfl
  have hrecords : ∀ m ∈ recorded (callsOf restartedRun)
      ((⟨RadishStore.new (-1), none⟩ : RadishDB Bytes).results (callsOf restartedRun)),
      ∃ record, writeRecord m.toEvent = .ok record := by
    intro m hm
    have hpair : m ∈ [Mutation.create (-1) [107] ([118] : Bytes), .delete (-1) [107]] := hm
    rcases List.mem_pair.mp hpair with rfl | rfl <;> exact ⟨_, rfl⟩
  exact runSteps_durable habsent (new_fresh "radish" 0 (-1)) hvolatile hrecords

end RadishDB

end Radish
