import Mathlib.Logic.Relation
import Radish.Lifetimes
import Radish.ServerMeaning
import Radish.UntimedDatabase

/-!
# One keyspace for all servers

Without a ttl a server takes up the keyspace where the last one has left it, whether that one was
killed, or stopped and its log compacted. If it ended because its disk failed, all that its clients
have seen is there, and perhaps some of what the last command asked for.
-/

namespace Radish
set_option autoImplicit false

open Ledger LogWriter Postcondition RespCodec RadishDB

/-! ## Commands -/

/-- A call that the command asks for takes one keyspace to the other. -/
def RespCommand.Acts (env : Environment) (command : RespCommand) (m m' : Keyspace Bytes) : Prop :=
  ∃ n c, command.Asks c ∧ m' = replayStep (Binding.alive (env.now n)) m (c.effect (-1) (env.now n))

/-- Some of what the command asks for has been done. -/
def RespCommand.Partly (env : Environment) (command : RespCommand) :
    Keyspace Bytes → Keyspace Bytes → Prop :=
  Relation.ReflTransGen (command.Acts env)

namespace Session

theorem composed_continued (env : Environment) {command : RespCommand}
    (hcommand : Sendable command) (hplain : command.Plain) (m : Keyspace Bytes) :
    Composed env command fun _ program => Guards program
      (fun s => (∃ ms, s.database.Continued ms) ∧ command.Partly env m s.database.store.keyspace)
      (fun s => ∃ m', command.Partly env m m' ∧ s.database.Recovers m') where
  answer _ a := guards_pure a
  bind _ _ _ _ hx hf := hx.bind hf
  speak _ f := guards_get.bind fun s => guards_pure (f s.version)
  look _ call := by
    intro s hs
    constructor
    · intro a s' hrun
      cases hrun
      exact hs
    · intro e s' hrun
      cases hrun
  call c hc := by
    intro s hs
    obtain ⟨⟨ms, hms⟩, hpartly⟩ := hs
    have hacts : command.Acts env s.database.store.keyspace
        (replayStep (Binding.alive (env.now s.calls)) s.database.store.keyspace
          (c.effect (-1) (env.now s.calls))) := ⟨s.calls, c, hc, rfl⟩
    obtain ⟨found, db', hcall, ms', hms'⟩ | ⟨e, db', hcall, hrecovers⟩ :=
      hms.call (env.fault s.calls) (env.now s.calls) (hc.small hcommand) (hplain.asks hc)
    · have hkeyspace := (call_keyspace hms.coherent hcall).2
      rw [hms.ttl] at hkeyspace
      rw [commit, hcall]
      constructor
      · intro a s' hrun
        cases hrun
        refine ⟨⟨ms', hms'⟩, ?_⟩
        rw [hkeyspace]
        exact hpartly.tail hacts
      · intro e s' hrun
        cases hrun
    · rw [commit, hcall]
      constructor
      · intro a s' hrun
        cases hrun
      · intro e s' hrun
        cases hrun
        obtain hsame | hmore := hrecovers
        · exact ⟨_, hpartly, hsame⟩
        · exact ⟨_, hpartly.tail hacts, hmore⟩
  negotiate version _ := by
    intro s hs
    constructor
    · intro a s' hrun
      cases hrun
      exact hs
    · intro e s' hrun
      cases hrun

end Session

namespace TcpServer

section Histories
variable {env : Environment} {database : RadishDB Bytes} {ms : List (Mutation Bytes)}
  {history : List (Nat × RespCommand)}

variable (env) in
/-- A command returns and the log keeps up with the store, or it throws and is not answered, and
the log can be opened. -/
theorem dispatch_continued {joint : JointExecution} (h : joint.database.Continued ms)
    (hthrown : joint.thrown = none) {p : Nat × RespCommand} (hsend : Sendable p.2)
    (hplain : p.2.Plain) :
    ((joint.dispatch env p).thrown = none ∧
        ∃ ms', (joint.dispatch env p).database.Continued ms') ∨
      ((joint.dispatch env p).thrown ≠ none ∧
        (joint.dispatch env p).results = joint.results ∧
        ∃ m, p.2.Partly env joint.database.store.keyspace m ∧
          (joint.dispatch env p).database.Recovers m) := by
  have hguards := (Session.composed_continued env hsend hplain _).dispatch
    ⟨joint.versions p.1, joint.database, joint.calls⟩ ⟨⟨ms, h⟩, .refl⟩
  obtain ⟨hreturns, hthrows⟩ := hguards
  unfold JointExecution.dispatch
  rcases hdispatch : Session.dispatch env p.2 ⟨joint.versions p.1, joint.database, joint.calls⟩ with
    ⟨e | result, service⟩
  · obtain ⟨m, hpartly, hrecovers⟩ := hthrows _ _ hdispatch
    exact Or.inr ⟨Option.some_ne_none e, rfl, m, hpartly, hrecovers⟩
  · exact Or.inl ⟨hthrown, (hreturns _ _ hdispatch).1⟩

theorem executeAll_continued (h : database.Continued ms)
    (hhistory : ∀ p ∈ history, Sendable p.2 ∧ p.2.Plain)
    (hthrown : (executeAll env database history).thrown = none) :
    ∃ ms', (executeAll env database history).database.Continued ms' := by
  induction history using List.reverseRecOn with
  | nil => exact ⟨ms, h⟩
  | append_singleton history p ih =>
    have hbefore := thrown_of_append hthrown
    obtain ⟨ms', hms'⟩ := ih (fun q hq => hhistory q (List.mem_append_left _ hq)) hbefore
    obtain ⟨hsend, hplain⟩ := hhistory p (List.mem_append_right _ List.mem_cons_self)
    rw [executeAll_snoc] at hthrown ⊢
    obtain ⟨-, hcontinued⟩ | ⟨hthrows, -⟩ := dispatch_continued env hms' hbefore hsend hplain
    · exact hcontinued
    · exact absurd hthrown hthrows

end Histories

/-- No client of the server has renamed a key onto itself. -/
def Plain (server : TcpServer) : Prop :=
  ∀ session ∈ server.sessions, ∀ command ∈ session.executed, command.Plain

section Runs
variable {env : Environment} {database : RadishDB Bytes} {history : List (Nat × RespCommand)}
  {server : TcpServer}

theorem Serial.plain (h : Serial env database history server) (hplain : server.Plain) :
    ∀ p ∈ history, Sendable p.2 ∧ p.2.Plain := by
  intro p hp
  have hexplained := h.explainedBy
  obtain ⟨hclient, hsend⟩ := hexplained.clients p hp
  have hsession := List.getElem?_eq_getElem hclient
  refine ⟨hsend, hplain _ (List.mem_of_getElem? hsession) p.2 ?_⟩
  rw [(hexplained.sessions p.1 _ hsession).1]
  exact List.mem_filterMap.mpr ⟨p, hp, if_pos rfl⟩

theorem run_continued {ms : List (Mutation Bytes)} (h : database.Continued ms)
    {happenings : List Happening} (hplain : ((start database).run env happenings).Plain)
    (hthrown : ((start database).run env happenings).thrown = none) :
    ∃ ms', ((start database).run env happenings).database.Continued ms' := by
  obtain ⟨history, hserial⟩ := (serial_start env database).run happenings
  rw [List.nil_append] at hserial
  rw [hserial.shared]
  exact executeAll_continued h (hserial.plain hplain) (hserial.thrown ▸ hthrown)

end Runs

end TcpServer

open TcpServer

/-! ## Data files -/

/-- What the disk holds when servers without a ttl, on none of which a handler has thrown or a key
was renamed onto itself, have used the data file one after the other, and the keyspace in which the
last one ended. -/
def KeptFile : LogWriter → Keyspace Bytes → Prop :=
  Handed (fun _ => none)
    (fun options _ server => options.ttl = none ∧ server.Plain ∧ server.thrown = none)
    (fun _ server => server.database.store.keyspace)

theorem KeptFile.reopens {disk : LogWriter} {m : Keyspace Bytes} (h : KeptFile disk m)
    (now : Timestamp) :
    ∃ database, RadishDB.new now (-1) .flush disk = .ok database ∧
      (∃ ms, database.Continued ms) ∧ database.store.keyspace = m := by
  refine Handed.holds (P := fun disk m => ∀ now, ∃ database,
    RadishDB.new now (-1) .flush disk = .ok database ∧ (∃ ms, database.Continued ms) ∧
      database.store.keyspace = m)
    (Q := fun db m => (∃ ms, db.Continued ms) ∧ db.store.keyspace = m) ?_ ?_ ?_ ?_ h now
  · intro disk missing now
    obtain ⟨hcontinued, hnone⟩ := continued_of_absent missing (new_of_absent missing now (-1))
    exact ⟨_, new_of_absent missing now (-1), ⟨[], hcontinued⟩, hnone⟩
  · intro disk m options now database hbefore opens env happenings hfits
    obtain ⟨huntimed, hplain, hquiet⟩ := hfits
    obtain ⟨database', hnew, ⟨ms, hms⟩, -⟩ := hbefore now
    rw [huntimed] at opens
    obtain rfl := Except.ok.inj (opens.symm.trans hnew)
    exact ⟨run_continued hms hplain hquiet, rfl⟩
  · intro db m fault order now hdb
    obtain ⟨⟨ms, hms⟩, hkeyspace⟩ := hdb
    rw [compact_store]
    exact ⟨hms.compact fault order now, hkeyspace⟩
  · intro db m disk hdb hdisk now
    obtain ⟨⟨ms, hms⟩, hkeyspace⟩ := hdb
    obtain ⟨disk', hdisk', hlog⟩ := hms.intact
    obtain rfl := Option.some.inj (hdisk.symm.trans hdisk')
    obtain ⟨opened, hnew, hopened, hcontinued⟩ := hms.reopens disk tornTail_nil hlog now
    exact ⟨opened, hnew, ⟨ms, hcontinued rfl⟩, hopened.trans hkeyspace⟩

theorem KeptFile.opens {disk : LogWriter} {m : Keyspace Bytes} (h : KeptFile disk m)
    {options : ServerOptions} (httl : options.ttl = none)
    (hpersists : options.persistenceEnabled = true) (now : Timestamp) :
    ∃ database, options.openDatabase now disk = .ok database ∧
      (∃ ms, database.Continued ms) ∧ database.store.keyspace = m := by
  rw [options.openDatabase_of_persists hpersists, httl]
  exact h.reopens now

/-- The next server can be started, and all that its clients are sent is told by exchanges that
start in the keyspace in which the exchanges of the last one ended, with nothing lost and nothing
brought back: neither the log nor its compactions show. -/
theorem servers_share_keyspace {disk : LogWriter} {m : Keyspace Bytes} (hfile : KeptFile disk m)
    {options : ServerOptions} (httl : options.ttl = none)
    (hpersists : options.persistenceEnabled = true) (now : Timestamp) :
    ∃ database, options.openDatabase now disk = .ok database ∧ database.store.keyspace = m ∧
      ∀ env happenings, ((start database).run env happenings).thrown = none →
        ∃ exchanges versions,
          ((start database).run env happenings).MeantBy env (-1) m exchanges versions := by
  obtain ⟨database, hopens, ⟨ms, hms⟩, hkeyspace⟩ := hfile.opens httl hpersists now
  refine ⟨database, hopens, hkeyspace, ?_⟩
  intro env happenings hthrown
  obtain ⟨history, hserial⟩ := (serial_start env database).run happenings
  rw [List.nil_append] at hserial
  obtain ⟨exchanges, htold⟩ := hserial.exists_told hms.coherent hthrown
  have hmeant := hserial.meantBy htold
  rw [hkeyspace, hms.ttl] at hmeant
  exact ⟨exchanges, _, hmeant⟩

theorem oneSet_plain {server : TcpServer}
    (h : ∀ session ∈ server.sessions, session.executed = [⟨[ascii "SET", ascii "k", ascii "v"]⟩]) :
    server.Plain := by
  intro session hsession command hcommand
  rw [h session hsession, List.mem_singleton] at hcommand
  subst hcommand
  intro first key hname
  exact absurd hname (by decide)

theorem oneSet_kept :
    ∃ disk, ((start (fresh "radish.radish" (-1))).run Session.quiet oneSet).database.persistence =
        some disk ∧
      ((start (fresh "radish.radish" (-1))).run Session.quiet oneSet).database.store.keyspace
        (ascii "k") = some ⟨ascii "v", none⟩ ∧
      KeptFile disk
        ((start (fresh "radish.radish" (-1))).run Session.quiet oneSet).database.store.keyspace := by
  have hopens : ({} : ServerOptions).openDatabase 0 ⟨"radish.radish", none, none⟩ =
      .ok (fresh "radish.radish" (-1)) := new_fresh "radish.radish" 0 (-1)
  obtain ⟨hexecuted, hdatabase, -⟩ := oneSet_effect Session.quiet rfl
  obtain ⟨disk, hdisk⟩ : ∃ disk, ((start (fresh "radish.radish" (-1))).run Session.quiet
      oneSet).database.persistence = some disk := by
    rw [hdatabase]
    exact ⟨_, rfl⟩
  refine ⟨disk, hdisk, ?_, ?_⟩
  · rw [hdatabase]
    rfl
  · exact .used (.absent rfl) rfl hopens ⟨rfl, oneSet_plain hexecuted, oneSet_quiet⟩ (.killed hdisk)

theorem servers_share_keyspace_oneSet :
    ∃ disk m database, ({} : ServerOptions).openDatabase 7 disk = .ok database ∧
      database.store.keyspace = m ∧ m (ascii "k") = some ⟨ascii "v", none⟩ ∧
      ∀ env happenings, ((start database).run env happenings).thrown = none →
        ∃ exchanges versions,
          ((start database).run env happenings).MeantBy env (-1) m exchanges versions := by
  obtain ⟨disk, -, hkey, hfile⟩ := oneSet_kept
  obtain ⟨database, hreopens, hkeyspace, hruns⟩ :=
    servers_share_keyspace hfile (rfl : ({} : ServerOptions).ttl = none) rfl 7
  exact ⟨disk, _, database, hreopens, hkeyspace, hkey, hruns⟩

end Radish
