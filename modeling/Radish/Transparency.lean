import Radish.Lifetimes

/-!
# The log does not show

As long as the disk does not fail, a server with a log answers as the server without one does that
starts from the same store: with the same bytes, at the same completions.
-/

namespace Radish
set_option autoImplicit false

open Postcondition RespCodec RadishDB

namespace RadishDB

/-- The database with its persistence switched off. -/
def withoutLog {V : Type} (db : RadishDB V) : RadishDB V := { db with persistence := none }

theorem Sound.call_withoutLog {db : RadishDB Bytes} (h : db.Sound) (now : Timestamp)
    {c : Call Bytes} (hc : c.Small) :
    (db.call none now c).2.Sound ∧
      db.withoutLog.call none now c =
        ((db.call none now c).1, (db.call none now c).2.withoutLog) := by
  obtain hvolatile | ⟨ms, hms⟩ := h
  · have hsame : ∀ db : RadishDB Bytes, db.persistence = none → db.withoutLog = db := by
      intro db hdb
      obtain ⟨store, persistence⟩ := db
      cases hdb
      rfl
    have hafter : (db.call none now c).2.persistence = none := by
      rw [call_eq_commit]
      cases heffective : (db.store.apply now (c.mutation (db.store.newExpiryTimestamp now))).1 with
      | false =>
        rw [commit_of_idle heffective]
        exact hvolatile
      | true =>
        rw [commit_of_volatile hvolatile heffective]
        exact hvolatile
    rw [hsame db hvolatile, hsame _ hafter]
    exact ⟨Or.inl hafter, rfl⟩
  · have hstaged := call_eq_commit none now db.withoutLog c
    have hstore : db.withoutLog.store = db.store := rfl
    generalize hm : c.mutation (db.store.newExpiryTimestamp now) = m
    rw [hstore, hm] at hstaged
    obtain ⟨hidle, hcall⟩ | ⟨-, hrefused, -⟩ | ⟨heffective, -, db', hcall, hafter, hlogged⟩ :=
      call_cases hms.logged now c hm
    · rw [← hstore] at hidle
      rw [hstaged, commit_of_idle hidle, hcall]
      exact ⟨Or.inr ⟨ms, hms⟩, rfl⟩
    · rw [← hm] at hrefused
      exact absurd (hc.accepted _) hrefused
    · rw [← hstore] at heffective
      rw [hstaged, commit_of_volatile rfl heffective, hcall]
      rw [← hm] at hlogged
      refine ⟨Or.inr ⟨_, hms.append hc hlogged⟩, ?_⟩
      rw [withoutLog, withoutLog, hafter]

end RadishDB

/-! ## Sessions -/

def Service.withoutLog (s : Service) : Service := { s with database := s.database.withoutLog }

namespace Session

def withoutLog (session : Session) : Session :=
  { session with service := session.service.withoutLog }

section Fields
variable (session : Session)

@[simp] theorem withoutLog_service :
    session.withoutLog.service = session.service.withoutLog := rfl

@[simp] theorem withoutLog_input : session.withoutLog.input = session.input := rfl

@[simp] theorem withoutLog_output : session.withoutLog.output = session.output := rfl

@[simp] theorem withoutLog_reading : session.withoutLog.reading = session.reading := rfl

@[simp] theorem withoutLog_writing : session.withoutLog.writing = session.writing := rfl

@[simp] theorem withoutLog_thrown : session.withoutLog.thrown = session.thrown := rfl

@[simp] theorem withoutLog_closeAfterWrite :
    session.withoutLog.closeAfterWrite = session.closeAfterWrite := rfl

end Fields

section Sessions
variable {env : Environment} {command : RespCommand} {session : Session}

theorem composed_disregards (hworks : ∀ n, env.fault n = none) (hcommand : Sendable command) :
    Composed env command fun _ program =>
      Disregards program (fun s : Service => s.database.Sound) Service.withoutLog where
  answer _ a := disregards_pure a
  bind _ _ _ _ hx hf := hx.bind hf
  speak _ _ _ hs := ⟨hs, rfl⟩
  look _ _ _ hs := ⟨hs, rfl⟩
  call c hc s hs := by
    obtain ⟨hsound, hsame⟩ := hs.call_withoutLog (env.now s.calls) (hc.small hcommand)
    simp only [commit, hworks, Service.withoutLog]
    exact ⟨hsound, by rw [hsame]⟩
  negotiate _ _ _ hs := ⟨hs, rfl⟩

theorem start_withoutLog (database : RadishDB Bytes) :
    (start database).withoutLog = start database.withoutLog := rfl

theorem queue_withoutLog (session : Session) (response : Bytes) (close : Bool) :
    session.withoutLog.queue response close = (session.queue response close).withoutLog := by
  unfold queue
  dsimp only
  rw [withoutLog_output]
  split <;> rfl

theorem queue_service (session : Session) (response : Bytes) (close : Bool) :
    (session.queue response close).service = session.service := by
  rw [queue_toConversation]

theorem process_withoutLog (hworks : ∀ n, env.fault n = none) {session : Session}
    (h : session.service.database.Sound) :
    (session.process env).service.database.Sound ∧
      session.withoutLog.process env = (session.process env).withoutLog := by
  induction hn : session.input.length using Nat.strongRecOn generalizing session with
  | ind n ih =>
    subst hn
    by_cases hgoes : session.input = [] ∨ session.closeAfterWrite = true
    · rw [process_of_idle session hgoes, process_of_idle session.withoutLog hgoes]
      exact ⟨h, rfl⟩
    cases hparse : parseCommand session.input with
    | incomplete =>
      rw [process_of_incomplete session hparse, process_of_incomplete session.withoutLog hparse]
      exact ⟨h, rfl⟩
    | error what =>
      rw [process_of_error session hgoes hparse,
        process_of_error session.withoutLog hgoes hparse, queue_service]
      exact ⟨h, queue_withoutLog _ _ _⟩
    | complete command consumed =>
      obtain ⟨hsound, hsame⟩ :=
        (composed_disregards hworks (sendable_of_parse hparse)).dispatch session.service h
      rw [process_of_complete session hgoes hparse,
        process_of_complete session.withoutLog hgoes hparse, withoutLog_service, hsame]
      rcases hrun : dispatch env command session.service with ⟨e | ⟨response, close⟩, service⟩
      · rw [hrun] at hsound
        exact ⟨hsound, rfl⟩
      · rw [hrun] at hsound
        dsimp only at hsound ⊢
        generalize hnext : { session with
            input := session.input.drop consumed
            executed := session.executed ++ [command]
            service } = next
        have hservice : (next.queue response close).service = service := by
          rw [queue_service, ← hnext]
        have hshorter : (next.queue response close).input.length < session.input.length := by
          rw [queue_input, ← hnext]
          exact length_drop_consumed hparse
        rw [← hservice] at hsound
        obtain ⟨hlater, hcommutes⟩ := ih _ hshorter hsound rfl
        rw [← queue_withoutLog, ← hnext] at hcommutes
        rw [← hnext] at hlater ⊢
        exact ⟨hlater, hcommutes⟩

theorem onRead_withoutLog (hworks : ∀ n, env.fault n = none)
    (h : session.service.database.Sound) (bytes : Bytes) :
    (session.onRead env bytes).service.database.Sound ∧
      session.withoutLog.onRead env bytes = (session.onRead env bytes).withoutLog := by
  have hreceived : session.withoutLog.receive bytes = (session.receive bytes).withoutLog := rfl
  have hsound : (session.receive bytes).service.database.Sound := h
  obtain ⟨hprocessed, hsame⟩ := process_withoutLog hworks hsound
  unfold onRead
  dsimp only
  rw [hreceived, hsame, queue_withoutLog, withoutLog_input, withoutLog_closeAfterWrite,
    withoutLog_thrown]
  split
  · rw [queue_service]
    exact ⟨h, rfl⟩
  · split
    · exact ⟨hprocessed, rfl⟩
    · exact ⟨hprocessed, rfl⟩

theorem onWritten_withoutLog (session : Session) :
    session.withoutLog.onWritten = session.onWritten.withoutLog := by
  unfold onWritten
  dsimp only
  rw [withoutLog_output, withoutLog_closeAfterWrite]
  split
  · rfl
  · split <;> rfl

theorem step_withoutLog (hworks : ∀ n, env.fault n = none)
    (h : session.service.database.Sound) (completion : Completion) :
    (session.step env completion).service.database.Sound ∧
      session.withoutLog.step env completion = (session.step env completion).withoutLog := by
  unfold Session.step
  rw [withoutLog_thrown]
  split
  · exact ⟨h, rfl⟩
  cases completion with
  | read bytes =>
    dsimp only
    rw [withoutLog_reading]
    split
    · exact onRead_withoutLog hworks h bytes
    · exact ⟨h, rfl⟩
  | readFailed => exact ⟨h, rfl⟩
  | written =>
    dsimp only
    rw [withoutLog_writing]
    split
    · exact ⟨h, rfl⟩
    · rw [onWritten_withoutLog, (onWritten_toConversation session).1]
      exact ⟨h, rfl⟩
  | writeFailed reached => exact ⟨h, rfl⟩

end Sessions

end Session

/-! ## Servers -/

namespace TcpServer

/-- What the server is but for its log. -/
def withoutLog (server : TcpServer) : TcpServer :=
  { server with
    database := server.database.withoutLog
    sessions := server.sessions.map Session.withoutLog }

section Servers
variable {env : Environment} {server : TcpServer}

theorem onAccept_withoutLog (server : TcpServer) (error : Bool) :
    server.withoutLog.onAccept error = (server.onAccept error).withoutLog := by
  cases error <;> cases hstopped : server.stopped <;>
    simp [onAccept, accept, withoutLog, hstopped, Session.start_withoutLog]

theorem onSignal_withoutLog (server : TcpServer) :
    server.withoutLog.onSignal = server.onSignal.withoutLog := by
  cases hstopped : server.stopped <;> simp [onSignal, stop, withoutLog, hstopped]

theorem onCompletion_withoutLog (hworks : ∀ n, env.fault n = none) (h : server.database.Sound)
    (i : Nat) (completion : Completion) :
    (server.onCompletion env i completion).database.Sound ∧
      server.withoutLog.onCompletion env i completion =
        (server.onCompletion env i completion).withoutLog := by
  have hsessions : server.withoutLog.sessions[i]? =
      (server.sessions[i]?).map Session.withoutLog := List.getElem?_map
  unfold onCompletion
  rw [hsessions]
  cases server.sessions[i]? with
  | none => exact ⟨h, rfl⟩
  | some session =>
    have hattached : server.withoutLog.attach session.withoutLog =
        (server.attach session).withoutLog := rfl
    have hsound : (server.attach session).service.database.Sound := h
    obtain ⟨hstepped, hsame⟩ := Session.step_withoutLog hworks hsound completion
    dsimp only [Option.map_some]
    rw [hattached, hsame]
    refine ⟨hstepped, ?_⟩
    simp only [withoutLog, List.map_set]
    rfl

theorem step_withoutLog (hworks : ∀ n, env.fault n = none) (h : server.database.Sound)
    (happening : Happening) :
    (server.step env happening).database.Sound ∧
      server.withoutLog.step env happening = (server.step env happening).withoutLog := by
  unfold step
  rw [show server.withoutLog.running = server.running from rfl,
    show server.withoutLog.thrown = server.thrown from rfl]
  split
  · exact ⟨h, rfl⟩
  cases happening with
  | accepted =>
    dsimp only
    rw [show server.withoutLog.accepting = server.accepting from rfl, onAccept_withoutLog]
    split
    · rw [(onAccept_changes server false).1]
      exact ⟨h, rfl⟩
    · exact ⟨h, rfl⟩
  | acceptFailed =>
    dsimp only
    rw [show server.withoutLog.accepting = server.accepting from rfl, onAccept_withoutLog]
    split
    · rw [(onAccept_changes server true).1]
      exact ⟨h, rfl⟩
    · exact ⟨h, rfl⟩
  | completed i completion => exact onCompletion_withoutLog hworks h i completion
  | signalled =>
    dsimp only
    rw [onSignal_withoutLog, (onSignal_changes server).1]
    exact ⟨h, rfl⟩

theorem run_withoutLog (hworks : ∀ n, env.fault n = none) (h : server.database.Sound)
    (happenings : List Happening) :
    server.withoutLog.run env happenings = (server.run env happenings).withoutLog := by
  induction happenings generalizing server with
  | nil => rfl
  | cons happening happenings ih =>
    obtain ⟨hsound, hsame⟩ := step_withoutLog hworks h happening
    rw [run, run, List.foldl_cons, List.foldl_cons, hsame]
    exact ih hsound

end Servers

/-- As long as the disk does not fail, a server on a file that only servers have written is, but
for its log, the server that starts from the same store with persistence off: after the same
completions every session has been sent the same bytes, and the stores are the same. -/
theorem log_is_hidden {allowed : ServerOptions → Prop} {disk : LogWriter}
    (hfile : DataFile allowed disk) {options : ServerOptions} {now : Timestamp}
    {database : RadishDB Bytes} (hopens : options.openDatabase now disk = .ok database)
    {env : Environment} (hworks : ∀ n, env.fault n = none) (happenings : List Happening) :
    ((start database).run env happenings).withoutLog =
      (start database.withoutLog).run env happenings := by
  obtain ⟨database', hopens', hsound⟩ := hfile.startable.opens options now
  obtain rfl := Except.ok.inj (hopens.symm.trans hopens')
  have hstarted : (start database).database.Sound := hsound
  exact (run_withoutLog hworks hstarted happenings).symm

theorem log_is_hidden_set :
    ((start (fresh "radish.radish" (-1))).run ⟨fun _ => 0, fun _ => none, fun _ => .listed⟩
        [.accepted, .completed 0 (.read (ascii "*3\r\n$3\r\nSET\r\n$1\r\nk\r\n$1\r\nv\r\n"))]).withoutLog =
      (start ⟨RadishStore.new (-1), none⟩).run ⟨fun _ => 0, fun _ => none, fun _ => .listed⟩
        [.accepted, .completed 0 (.read (ascii "*3\r\n$3\r\nSET\r\n$1\r\nk\r\n$1\r\nv\r\n"))] := by
  have hfile : DataFile (fun _ => True) ⟨"radish.radish", none, none⟩ := .absent rfl
  have hopens : ({} : ServerOptions).openDatabase 0 ⟨"radish.radish", none, none⟩ =
      .ok (fresh "radish.radish" (-1)) :=
    (ServerOptions.openDatabase_of_persists rfl).trans (new_fresh "radish.radish" 0 (-1))
  exact log_is_hidden hfile hopens (fun _ => rfl) _

end TcpServer

end Radish
