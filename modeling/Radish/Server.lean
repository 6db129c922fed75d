import Mathlib.Logic.Function.Basic
import Radish.Delivery
import Radish.ServerOptions

/-!
# The server

All sessions work on one database, and one thread runs the handlers: of the accepted connections,
of the sessions' reads and writes, and of the signal that ends the server. Whatever their order,
the commands of all clients have been executed one after the other.
-/

namespace Radish
set_option autoImplicit false

/-- `accepting` tells whether an accept is under way and `running` whether `io_context::run` goes
on. `calls` counts the database calls of all sessions. -/
structure TcpServer where
  database : RadishDB Bytes
  calls : Nat
  sessions : List Session
  accepting : Bool
  stopped : Bool
  running : Bool
  thrown : Option Exception

/-- What asio reports to the server. Sessions are numbered in the order of their acceptance. -/
inductive Happening where
  | accepted
  | acceptFailed
  | completed (session : Nat) (completion : Completion)
  | signalled

namespace TcpServer

/-- `Accept`, which asks for one connection. -/
def accept (server : TcpServer) : TcpServer :=
  if server.stopped then server else { server with accepting := true }

def start (database : RadishDB Bytes) : TcpServer :=
  accept {
    database
    calls := 0
    sessions := []
    accepting := false
    stopped := false
    running := true
    thrown := none }

/-- The accept under way is cancelled: it ends as one that fails, if a handler still runs. -/
def stop (server : TcpServer) : TcpServer :=
  if server.stopped then server else { server with stopped := true }

/-- The handler of an accept. A new socket is taken to let its option be set, in `Session::Start`. -/
def onAccept (server : TcpServer) (error : Bool) : TcpServer :=
  let ended := { server with accepting := false }
  let served :=
    if error then ended
    else { ended with sessions := server.sessions ++ [Session.start server.database] }
  if served.stopped then served else served.accept

/-- The handler of SIGINT and SIGTERM, which also stops the context. -/
def onSignal (server : TcpServer) : TcpServer := { server.stop with running := false }

/-- What a session refers to is the database as the other sessions have left it. -/
def attach (server : TcpServer) (session : Session) : Session :=
  { session with
    service := { session.service with database := server.database, calls := server.calls } }

/-- A handler of a session; what it throws leaves `io_context::run`. -/
def onCompletion (env : Environment) (server : TcpServer) (i : Nat) (completion : Completion) :
    TcpServer :=
  match server.sessions[i]? with
  | none => server
  | some session =>
    let session := (server.attach session).step env completion
    { server with
      database := session.service.database
      calls := session.service.calls
      sessions := server.sessions.set i session
      thrown := session.thrown }

def step (env : Environment) (server : TcpServer) (happening : Happening) : TcpServer :=
  if server.running = false ∨ server.thrown ≠ none then server
  else
    match happening with
    | .accepted => if server.accepting then server.onAccept false else server
    | .acceptFailed => if server.accepting then server.onAccept true else server
    | .completed i completion => server.onCompletion env i completion
    | .signalled => server.onSignal

def run (env : Environment) (server : TcpServer) (happenings : List Happening) : TcpServer :=
  happenings.foldl (step env) server

/-- `main` once `io_context::run` has returned or thrown: its exit code, and the database. -/
def finish (fault : Option Fault) (order : Traversal (Σ _ : Key, RadishEvent Bytes))
    (now : Timestamp) (options : ServerOptions) (server : TcpServer) : Nat × RadishDB Bytes :=
  match server.thrown with
  | some _ => (1, server.database)
  | none =>
    if options.persistenceEnabled then
      match server.database.compact fault order now with
      | (.ok (), database) => (0, database)
      | (.error _, database) => (1, database)
    else (0, server.database)

/-! ## One order for all commands -/

/-- What comes of the commands of several clients, executed one after the other on one database. -/
structure JointExecution where
  database : RadishDB Bytes
  calls : Nat
  versions : Nat → RespVersion
  results : List (Nat × CommandResult)
  thrown : Option Exception

def JointExecution.dispatch (env : Environment) (joint : JointExecution) (p : Nat × RespCommand) :
    JointExecution :=
  match Session.dispatch env p.2 ⟨joint.versions p.1, joint.database, joint.calls⟩ with
  | (.ok result, service) =>
    { database := service.database
      calls := service.calls
      versions := Function.update joint.versions p.1 service.version
      results := joint.results ++ [(p.1, result)]
      thrown := joint.thrown }
  | (.error e, service) =>
    { database := service.database
      calls := service.calls
      versions := Function.update joint.versions p.1 service.version
      results := joint.results
      thrown := some e }

def executeAll (env : Environment) (database : RadishDB Bytes) (history : List (Nat × RespCommand)) :
    JointExecution :=
  history.foldl (JointExecution.dispatch env) ⟨database, 0, fun _ => .resp2, [], none⟩

theorem executeAll_snoc (env : Environment) (database : RadishDB Bytes)
    (history : List (Nat × RespCommand)) (p : Nat × RespCommand) :
    executeAll env database (history ++ [p]) =
      (executeAll env database history).dispatch env p := by
  rw [executeAll, List.foldl_append]
  rfl

/-- What a command leaves behind, and its result if it has one. -/
theorem JointExecution.dispatch_cases (env : Environment) (joint : JointExecution)
    (p : Nat × RespCommand) :
    ∃ service : Service, (Session.dispatch env p.2
        ⟨joint.versions p.1, joint.database, joint.calls⟩).2 = service ∧
      (joint.dispatch env p).database = service.database ∧
      (joint.dispatch env p).calls = service.calls ∧
      (joint.dispatch env p).versions = Function.update joint.versions p.1 service.version ∧
      ((∃ e, (joint.dispatch env p).results = joint.results ∧
          (joint.dispatch env p).thrown = some e) ∨
        ∃ result, Session.dispatch env p.2 ⟨joint.versions p.1, joint.database, joint.calls⟩ =
            (.ok result, service) ∧
          (joint.dispatch env p).results = joint.results ++ [(p.1, result)] ∧
          (joint.dispatch env p).thrown = joint.thrown) := by
  unfold JointExecution.dispatch
  rcases hdispatch : Session.dispatch env p.2 ⟨joint.versions p.1, joint.database, joint.calls⟩ with
    ⟨e | result, service⟩
  · exact ⟨service, rfl, rfl, rfl, rfl, Or.inl ⟨e, rfl, rfl⟩⟩
  · exact ⟨service, rfl, rfl, rfl, rfl, Or.inr ⟨result, rfl, rfl, rfl⟩⟩

/-- The entries of one session. -/
def ofSession {α : Type} (i : Nat) (entries : List (Nat × α)) : List α :=
  entries.filterMap fun p => if p.1 = i then some p.2 else none

section OfSession
variable {α : Type} {i j : Nat}

theorem ofSession_append (entries entries' : List (Nat × α)) :
    ofSession i (entries ++ entries') = ofSession i entries ++ ofSession i entries' :=
  List.filterMap_append

theorem ofSession_snoc_self (entries : List (Nat × α)) (a : α) :
    ofSession i (entries ++ [(i, a)]) = ofSession i entries ++ [a] := by
  rw [ofSession_append]
  simp [ofSession]

theorem ofSession_snoc_of_ne (h : i ≠ j) (entries : List (Nat × α)) (a : α) :
    ofSession i (entries ++ [(j, a)]) = ofSession i entries := by
  rw [ofSession_append]
  simp [ofSession, Ne.symm h]

theorem ofSession_eq_nil {entries : List (Nat × α)} (h : ∀ p ∈ entries, p.1 < i) :
    ofSession i entries = [] := by
  rw [ofSession, List.filterMap_eq_nil_iff]
  intro p hp
  exact if_neg (Nat.ne_of_lt (h p hp))

end OfSession

/-- The conversation of a session is its part of the joint execution, with at most one refusal at
the end. -/
structure Served (joint : JointExecution) (history : List (Nat × RespCommand)) (i : Nat)
    (conversation : Conversation) (refusal : List Bytes) : Prop where
  version : conversation.service.version = joint.versions i
  executed : conversation.executed = ofSession i history
  replies : conversation.replies = (ofSession i joint.results).map Prod.fst ++ refusal
  last : refusal = [] ∨
    conversation.closeAfterWrite = true ∧ ∃ what, refusal = [RespCodec.error (ascii what)]

/-- The conversation of the session whose handler runs sees the shared state. -/
structure Running (joint : JointExecution) (i : Nat) (conversation : Conversation) : Prop where
  service : conversation.service = ⟨joint.versions i, joint.database, joint.calls⟩
  thrown : conversation.thrown = joint.thrown

section Serving
variable {env : Environment} {joint : JointExecution} {history : List (Nat × RespCommand)}
  {i j : Nat} {conversation : Conversation} {refusal : List Bytes}

theorem Served.refusal_eq_nil (h : Served joint history i conversation refusal)
    (hopen : conversation.closeAfterWrite = false) : refusal = [] := by
  obtain hnil | ⟨hclose, -⟩ := h.last
  · exact hnil
  · rw [hopen] at hclose
    cases hclose

/-- A command of one session changes nothing for another one but the database. -/
theorem Served.other (h : Served joint history i conversation refusal) (hne : i ≠ j)
    (command : RespCommand) :
    Served (joint.dispatch env (j, command)) (history ++ [(j, command)]) i conversation refusal := by
  have hexecuted : conversation.executed = ofSession i (history ++ [(j, command)]) := by
    rw [ofSession_snoc_of_ne hne, h.executed]
  unfold JointExecution.dispatch
  split
  · rename_i result service _
    refine ⟨?_, hexecuted, ?_, h.last⟩
    · exact h.version.trans (Function.update_of_ne hne service.version joint.versions).symm
    · rw [ofSession_snoc_of_ne hne, h.replies]
  · rename_i e service _
    refine ⟨?_, hexecuted, h.replies, h.last⟩
    exact h.version.trans (Function.update_of_ne hne service.version joint.versions).symm

variable (env) in
/-- A command of the session whose handler runs. -/
theorem Served.perform (h : Served joint history i conversation [])
    (hrunning : Running joint i conversation) (command : RespCommand) :
    Served (joint.dispatch env (i, command)) (history ++ [(i, command)]) i
        (Session.perform env conversation command) [] ∧
      Running (joint.dispatch env (i, command)) i (Session.perform env conversation command) := by
  have hexecuted : (Session.perform env conversation command).executed =
      ofSession i (history ++ [(i, command)]) := by
    rw [Session.executed_perform, ofSession_snoc_self, h.executed]
  rcases hdispatch : Session.dispatch env command conversation.service with
    ⟨e | ⟨response, close⟩, service⟩
  · have hjoint : joint.dispatch env (i, command) =
        { database := service.database
          calls := service.calls
          versions := Function.update joint.versions i service.version
          results := joint.results
          thrown := some e } := by
      rw [hrunning.service] at hdispatch
      simp only [JointExecution.dispatch, hdispatch]
    rw [Session.perform_of_throws hdispatch] at hexecuted ⊢
    rw [hjoint]
    have hversion := Function.update_self i service.version joint.versions
    refine ⟨⟨hversion.symm, hexecuted, h.replies, Or.inl rfl⟩, ?_, rfl⟩
    dsimp only
    rw [hversion]
  · have hjoint : joint.dispatch env (i, command) =
        { database := service.database
          calls := service.calls
          versions := Function.update joint.versions i service.version
          results := joint.results ++ [(i, response, close)]
          thrown := joint.thrown } := by
      rw [hrunning.service] at hdispatch
      simp only [JointExecution.dispatch, hdispatch]
    have hperform : Session.perform env conversation command =
        { conversation with
          service
          executed := conversation.executed ++ [command]
          replies := conversation.replies ++ [response]
          closeAfterWrite := conversation.closeAfterWrite || close } := by
      rw [Session.perform, hdispatch]
    rw [hperform] at hexecuted ⊢
    rw [hjoint]
    have hversion := Function.update_self i service.version joint.versions
    refine ⟨⟨hversion.symm, hexecuted, ?_, Or.inl rfl⟩, ?_, hrunning.thrown⟩
    · rw [ofSession_snoc_self, h.replies]
      simp
    · dsimp only
      rw [hversion]

theorem Served.refuse (h : Served joint history i conversation []) (what : String) :
    Served joint history i (Session.refuse conversation what) [RespCodec.error (ascii what)] := by
  refine ⟨h.version, h.executed, ?_, Or.inr ⟨rfl, what, rfl⟩⟩
  rw [Session.refuse]
  dsimp only
  rw [h.replies, List.append_nil]

end Serving

/-- `history`, and then commands of session `i`. -/
def andThen (history : List (Nat × RespCommand)) (i : Nat) (commands : List RespCommand) :
    List (Nat × RespCommand) :=
  history ++ commands.map fun command => (i, command)

@[simp] theorem andThen_nil (history : List (Nat × RespCommand)) (i : Nat) :
    andThen history i [] = history := List.append_nil history

theorem andThen_snoc (history : List (Nat × RespCommand)) (i : Nat) (commands : List RespCommand)
    (command : RespCommand) :
    andThen history i (commands ++ [command]) = andThen history i commands ++ [(i, command)] := by
  rw [andThen, List.map_append, ← List.append_assoc]
  rfl

/-- Only the last command may have thrown. -/
def Sudden (env : Environment) (database : RadishDB Bytes) (history : List (Nat × RespCommand)) :
    Prop :=
  ∀ earlier last, history = earlier ++ [last] → (executeAll env database earlier).thrown = none

theorem sudden_nil (env : Environment) (database : RadishDB Bytes) : Sudden env database [] := by
  intro earlier last h
  exact absurd h.symm (List.append_ne_nil_of_right_ne_nil _ (List.cons_ne_nil _ _))

theorem sudden_snoc {env : Environment} {database : RadishDB Bytes}
    {history : List (Nat × RespCommand)} (h : (executeAll env database history).thrown = none)
    (p : Nat × RespCommand) : Sudden env database (history ++ [p]) := by
  intro earlier last hsplit
  obtain ⟨rfl, -⟩ := List.append_inj' hsplit rfl
  exact h

/-- While a handler of session `i` runs, `commands` have been executed since it was called. -/
def Serves (env : Environment) (database : RadishDB Bytes) (history : List (Nat × RespCommand))
    (i : Nat) (conversation : Conversation) : Prop :=
  ∃ commands, (∀ command ∈ commands, RespCodec.Sendable command) ∧
    Sudden env database (andThen history i commands) ∧
    Running (executeAll env database (andThen history i commands)) i conversation ∧
    ∃ refusal, Served (executeAll env database (andThen history i commands))
      (andThen history i commands) i conversation refusal

theorem preserved_serves (env : Environment) (database : RadishDB Bytes)
    (history : List (Nat × RespCommand)) (i : Nat) :
    Session.Preserved env (Serves env database history i) where
  perform := by
    intro c command h hthrown hopen hcommand
    obtain ⟨commands, hsendable, -, hrunning, refusal, hserved⟩ := h
    obtain rfl := hserved.refusal_eq_nil hopen
    obtain ⟨hserved', hrunning'⟩ := hserved.perform env hrunning command
    refine ⟨commands ++ [command], ?_, ?_⟩
    · intro command' hcommand'
      obtain hold | hnew := List.mem_append.mp hcommand'
      · exact hsendable command' hold
      · exact List.mem_singleton.mp hnew ▸ hcommand
    · have hsudden := sudden_snoc (hrunning.thrown.symm.trans hthrown) (i, command)
      rw [andThen_snoc, executeAll_snoc]
      exact ⟨hsudden, hrunning', [], hserved'⟩
  refuse := by
    intro c what h hopen
    obtain ⟨commands, hsendable, hsudden, hrunning, refusal, hserved⟩ := h
    obtain rfl := hserved.refusal_eq_nil hopen
    exact ⟨commands, hsendable, hsudden, ⟨hrunning.service, hrunning.thrown⟩, _,
      hserved.refuse what⟩

theorem served_of_others {env : Environment} {database : RadishDB Bytes}
    {history : List (Nat × RespCommand)} {i j : Nat} {conversation : Conversation}
    {refusal : List Bytes}
    (h : Served (executeAll env database history) history i conversation refusal) (hne : i ≠ j)
    (commands : List RespCommand) :
    Served (executeAll env database (andThen history j commands)) (andThen history j commands) i
      conversation refusal := by
  induction commands using List.reverseRecOn with
  | nil => simpa using h
  | append_singleton commands command ih =>
    rw [andThen_snoc, executeAll_snoc]
    exact ih.other hne command

/-! ## Runs -/

/-- What `history` has made of the server: every session has been served its part. -/
structure Serial (env : Environment) (database : RadishDB Bytes)
    (history : List (Nat × RespCommand)) (server : TcpServer) : Prop where
  shared : server.database = (executeAll env database history).database
  calls : server.calls = (executeAll env database history).calls
  thrown : server.thrown = (executeAll env database history).thrown
  sudden : Sudden env database history
  quiet : server.thrown = none → ∀ session ∈ server.sessions, session.thrown = none
  delivering : ∀ session ∈ server.sessions, session.Delivering
  served : ∀ i session, server.sessions[i]? = some session → ∃ refusal,
    Served (executeAll env database history) history i session.toConversation refusal
  unborn : ∀ i, server.sessions.length ≤ i → (executeAll env database history).versions i = .resp2
  known : ∀ p ∈ history, p.1 < server.sessions.length ∧ RespCodec.Sendable p.2
  answered : ∀ p ∈ (executeAll env database history).results, p.1 < server.sessions.length

section Runs
variable {env : Environment} {database : RadishDB Bytes} {history : List (Nat × RespCommand)}
  {server : TcpServer}

theorem serial_start (env : Environment) (database : RadishDB Bytes) :
    Serial env database [] (start database) where
  shared := rfl
  calls := rfl
  thrown := rfl
  sudden := sudden_nil env database
  quiet _ session h := by cases h
  delivering session h := by cases h
  served i session h := by cases h
  unborn i _ := rfl
  known p h := by cases h
  answered p h := by cases h

/-- What the handlers of accepts and signals change besides the list of sessions does not
matter. -/
theorem Serial.congr (h : Serial env database history server) {server' : TcpServer}
    (hdatabase : server'.database = server.database) (hcalls : server'.calls = server.calls)
    (hthrown : server'.thrown = server.thrown) (hsessions : server'.sessions = server.sessions) :
    Serial env database history server' where
  shared := hdatabase.trans h.shared
  calls := hcalls.trans h.calls
  thrown := hthrown.trans h.thrown
  sudden := h.sudden
  quiet := by
    rw [hthrown, hsessions]
    exact h.quiet
  delivering := by
    rw [hsessions]
    exact h.delivering
  served := by
    rw [hsessions]
    exact h.served
  unborn := by
    rw [hsessions]
    exact h.unborn
  known := by
    rw [hsessions]
    exact h.known
  answered := by
    rw [hsessions]
    exact h.answered

/-- A new session has not been served anything. -/
theorem Serial.join (h : Serial env database history server) {server' : TcpServer}
    (hdatabase : server'.database = server.database) (hcalls : server'.calls = server.calls)
    (hthrown : server'.thrown = server.thrown)
    (hsessions : server'.sessions = server.sessions ++ [Session.start server.database]) :
    Serial env database history server' := by
  have hlength : server'.sessions.length = server.sessions.length + 1 := by
    rw [hsessions, List.length_append, List.length_singleton]
  have hmem : ∀ session ∈ server'.sessions,
      session ∈ server.sessions ∨ session = Session.start server.database := by
    rw [hsessions]
    simp
  have hnew : Session.Keeps (fun _ => True) (Session.start server.database) := .start trivial
  refine ⟨hdatabase.trans h.shared, hcalls.trans h.calls, hthrown.trans h.thrown, h.sudden, ?_, ?_,
    ?_, ?_, ?_, ?_⟩
  · intro hnone session hsession
    rw [hthrown] at hnone
    obtain hold | rfl := hmem session hsession
    · exact h.quiet hnone session hold
    · rfl
  · intro session hsession
    obtain hold | rfl := hmem session hsession
    · exact h.delivering session hold
    · exact hnew.delivering
  · intro i session hsession
    rw [hsessions] at hsession
    obtain hi | hi := Nat.lt_or_ge i server.sessions.length
    · rw [List.getElem?_append_left hi] at hsession
      exact h.served i session hsession
    · rw [List.getElem?_append_right hi, List.getElem?_singleton] at hsession
      split at hsession
      · obtain rfl := Option.some.inj hsession
        have hlate : ∀ p ∈ history, p.1 < i := fun p hp => Nat.lt_of_lt_of_le (h.known p hp).1 hi
        have hlater : ∀ p ∈ (executeAll env database history).results, p.1 < i :=
          fun p hp => Nat.lt_of_lt_of_le (h.answered p hp) hi
        refine ⟨[], (h.unborn i hi).symm, ?_, ?_, Or.inl rfl⟩
        · rw [ofSession_eq_nil hlate]
          rfl
        · rw [ofSession_eq_nil hlater]
          rfl
      · cases hsession
  · intro i hi
    exact h.unborn i (by omega)
  · intro p hp
    obtain ⟨hknown, hsendable⟩ := h.known p hp
    exact ⟨by omega, hsendable⟩
  · intro p hp
    have hanswered := h.answered p hp
    omega

theorem mem_results_dispatch {joint : JointExecution} {p : Nat × RespCommand}
    {q : Nat × CommandResult} (h : q ∈ (joint.dispatch env p).results) :
    q ∈ joint.results ∨ q.1 = p.1 := by
  unfold JointExecution.dispatch at h
  split at h
  · obtain hold | hnew := List.mem_append.mp h
    · exact Or.inl hold
    · exact Or.inr (congrArg Prod.fst (List.mem_singleton.mp hnew))
  · exact Or.inl h

/-- Executing commands of one session answers that session, and leaves the versions of the
others. -/
theorem executeAll_session (env : Environment) (database : RadishDB Bytes)
    (history : List (Nat × RespCommand)) (i : Nat) (commands : List RespCommand) :
    (∀ q ∈ (executeAll env database (andThen history i commands)).results,
        q ∈ (executeAll env database history).results ∨ q.1 = i) ∧
      ∀ j, j ≠ i → (executeAll env database (andThen history i commands)).versions j =
        (executeAll env database history).versions j := by
  induction commands using List.reverseRecOn with
  | nil =>
    rw [andThen_nil]
    exact ⟨fun q hq => Or.inl hq, fun j _ => rfl⟩
  | append_singleton commands command ih =>
    obtain ⟨hresults, hversions⟩ := ih
    rw [andThen_snoc, executeAll_snoc]
    constructor
    · intro q hq
      obtain hold | hnew := mem_results_dispatch hq
      · exact hresults q hold
      · exact Or.inr hnew
    · intro j hj
      rw [← hversions j hj]
      unfold JointExecution.dispatch
      split
      · exact Function.update_of_ne hj _ _
      · exact Function.update_of_ne hj _ _

/-- A completion of a session adds commands of that session to the history. -/
theorem Serial.completion (h : Serial env database history server) (hthrown : server.thrown = none)
    (i : Nat) (completion : Completion) :
    ∃ commands, Serial env database (andThen history i commands)
      (server.onCompletion env i completion) := by
  unfold onCompletion
  cases hsession : server.sessions[i]? with
  | none =>
    refine ⟨[], ?_⟩
    simpa using h
  | some session =>
    have hmem := List.mem_of_getElem? hsession
    have hi : i < server.sessions.length := (List.getElem?_eq_some_iff.mp hsession).1
    obtain ⟨refusal, hserved⟩ := h.served i session hsession
    have hrunning : Running (executeAll env database history) i
        (server.attach session).toConversation := by
      constructor
      · dsimp only [attach]
        rw [hserved.version, h.shared, h.calls]
      · exact (h.quiet hthrown session hmem).trans (hthrown.symm.trans h.thrown)
    have hbefore : Session.Keeps (Serves env database history i) (server.attach session) := by
      refine ⟨⟨(h.delivering session hmem).silent, (h.delivering session hmem).sent⟩, [], ?_⟩
      rw [andThen_nil]
      exact ⟨by simp, h.sudden, hrunning, refusal, hserved.version, hserved.executed,
        hserved.replies, hserved.last⟩
    obtain ⟨hdelivering, commands, hsendable, hsudden, hrunning', refusal', hserved'⟩ :=
      hbefore.step (preserved_serves env database history i) completion
    refine ⟨commands, ?_⟩
    dsimp only
    generalize (server.attach session).step env completion = session' at *
    obtain ⟨hresults, hversions⟩ := executeAll_session env database history i commands
    refine ⟨by rw [hrunning'.service], by rw [hrunning'.service], hrunning'.thrown, hsudden, ?_,
      ?_, ?_, ?_, ?_, ?_⟩
    · intro hnone other hother
      obtain hold | rfl := List.mem_or_eq_of_mem_set hother
      · exact h.quiet hthrown other hold
      · exact hnone
    · intro other hother
      obtain hold | rfl := List.mem_or_eq_of_mem_set hother
      · exact h.delivering other hold
      · exact hdelivering
    · intro j other hother
      by_cases hj : j = i
      · subst hj
        rw [List.getElem?_set_self hi] at hother
        obtain rfl := Option.some.inj hother
        exact ⟨refusal', hserved'⟩
      · rw [List.getElem?_set_ne (Ne.symm hj)] at hother
        obtain ⟨refusal'', hserved''⟩ := h.served j other hother
        exact ⟨refusal'', served_of_others hserved'' hj commands⟩
    · intro j hj
      rw [List.length_set] at hj
      rw [hversions j (by omega)]
      exact h.unborn j hj
    · intro p hp
      rw [List.length_set]
      obtain hold | hnew := List.mem_append.mp hp
      · exact h.known p hold
      · obtain ⟨command, hcommand, rfl⟩ := List.mem_map.mp hnew
        exact ⟨hi, hsendable command hcommand⟩
    · intro q hq
      rw [List.length_set]
      obtain hold | hnew := hresults q hq
      · exact h.answered q hold
      · rw [hnew]
        exact hi

theorem onAccept_changes (server : TcpServer) (error : Bool) :
    (server.onAccept error).database = server.database ∧
      (server.onAccept error).calls = server.calls ∧
      (server.onAccept error).thrown = server.thrown ∧
      (server.onAccept error).sessions =
        if error then server.sessions
        else server.sessions ++ [Session.start server.database] := by
  cases error <;> cases hstopped : server.stopped <;> simp [onAccept, accept, hstopped]

theorem onSignal_changes (server : TcpServer) :
    server.onSignal.database = server.database ∧ server.onSignal.calls = server.calls ∧
      server.onSignal.thrown = server.thrown ∧ server.onSignal.sessions = server.sessions := by
  cases hstopped : server.stopped <;> simp [onSignal, stop, hstopped]

theorem Serial.step (h : Serial env database history server) (happening : Happening) :
    ∃ more, Serial env database (history ++ more) (server.step env happening) := by
  have hidle : ∀ server', Serial env database history server' →
      ∃ more, Serial env database (history ++ more) server' :=
    fun _ hserial => ⟨[], by rwa [List.append_nil]⟩
  unfold TcpServer.step
  split
  · exact hidle _ h
  rename_i hgoes
  rw [not_or, not_not] at hgoes
  cases happening with
  | accepted =>
    dsimp only
    split
    · obtain ⟨hdatabase, hcalls, hthrown, hsessions⟩ := onAccept_changes server false
      exact hidle _ (h.join hdatabase hcalls hthrown hsessions)
    · exact hidle _ h
  | acceptFailed =>
    dsimp only
    split
    · obtain ⟨hdatabase, hcalls, hthrown, hsessions⟩ := onAccept_changes server true
      exact hidle _ (h.congr hdatabase hcalls hthrown hsessions)
    · exact hidle _ h
  | completed i completion =>
    obtain ⟨commands, hserial⟩ := h.completion hgoes.2 i completion
    exact ⟨_, hserial⟩
  | signalled =>
    obtain ⟨hdatabase, hcalls, hthrown, hsessions⟩ := onSignal_changes server
    exact hidle _ (h.congr hdatabase hcalls hthrown hsessions)

theorem Serial.run (h : Serial env database history server) (happenings : List Happening) :
    ∃ more, Serial env database (history ++ more) (server.run env happenings) := by
  induction happenings generalizing server history with
  | nil => exact ⟨[], by rwa [List.append_nil]⟩
  | cons happening happenings ih =>
    obtain ⟨more, hstep⟩ := h.step happening
    obtain ⟨more', hrun⟩ := ih hstep
    rw [List.append_assoc] at hrun
    exact ⟨more ++ more', hrun⟩

end Runs

/-- The commands of all clients, in the order of `history`, account for all that a client can
see: each one has been sent the front of the replies to its own commands. -/
structure ExplainedBy (env : Environment) (database : RadishDB Bytes) (server : TcpServer)
    (history : List (Nat × RespCommand)) : Prop where
  shared : server.database = (executeAll env database history).database
  thrown : server.thrown = (executeAll env database history).thrown
  clients : ∀ p ∈ history, p.1 < server.sessions.length ∧ RespCodec.Sendable p.2
  sessions : ∀ i session, server.sessions[i]? = some session →
    session.executed = ofSession i history ∧
      session.service.version = (executeAll env database history).versions i ∧
      session.sent <+: session.replies.flatten ∧
      ∃ refusal, (refusal = [] ∨ session.closeAfterWrite = true ∧
          ∃ what, refusal = [RespCodec.error (ascii what)]) ∧
        session.replies =
          (ofSession i (executeAll env database history).results).map Prod.fst ++ refusal

theorem Serial.explainedBy {env : Environment} {database : RadishDB Bytes}
    {history : List (Nat × RespCommand)} {server : TcpServer}
    (h : Serial env database history server) : server.ExplainedBy env database history := by
  refine ⟨h.shared, h.thrown, h.known, ?_⟩
  intro i session hsession
  obtain ⟨refusal, hserved⟩ := h.served i session hsession
  exact ⟨hserved.executed, hserved.version,
    (h.delivering session (List.mem_of_getElem? hsession)).front, refusal, hserved.last,
    hserved.replies⟩

/-- Whatever the clients send and however reads, writes, accepts and failures of the network are
interleaved, one order of all commands explains the run; and it only grows as the run goes on. -/
theorem run_serializable (env : Environment) (database : RadishDB Bytes)
    (before after : List Happening) :
    ∃ history more,
      ((start database).run env before).ExplainedBy env database history ∧
      ((start database).run env (before ++ after)).ExplainedBy env database (history ++ more) := by
  obtain ⟨history, hbefore⟩ := (serial_start env database).run before
  obtain ⟨more, hafter⟩ := hbefore.run after
  have hrun : ((start database).run env before).run env after =
      (start database).run env (before ++ after) := List.foldl_append.symm
  rw [List.nil_append] at hbefore hafter
  rw [hrun] at hafter
  exact ⟨history, more, hbefore.explainedBy, hafter.explainedBy⟩

/-! ## A rule for all sessions -/

/-- What the sessions' handlers make of every session (`P`) and of the database (`D`), whatever
the other sessions do to the database in between. -/
structure Sustained (env : Environment) (P : Conversation → Prop) (D : RadishDB Bytes → Prop) :
    Prop where
  start : ∀ database, P (Session.start database).toConversation
  attach : ∀ c database calls, P c →
    P { c with service := { c.service with database, calls } }
  preserved : Session.Preserved env fun c => P c ∧ D c.service.database

structure Upholds (P : Conversation → Prop) (D : RadishDB Bytes → Prop) (server : TcpServer) :
    Prop where
  database : D server.database
  sessions : ∀ session ∈ server.sessions, Session.Keeps P session
  thrown : ∀ e, server.thrown = some e → ∃ session ∈ server.sessions, session.thrown = some e

section Rule
variable {env : Environment} {P : Conversation → Prop} {D : RadishDB Bytes → Prop}
  {server : TcpServer}

theorem Upholds.completion (h : Upholds P D server) (hP : Sustained env P D) (i : Nat)
    (completion : Completion) : Upholds P D (server.onCompletion env i completion) := by
  unfold onCompletion
  split
  · exact h
  · rename_i session hsession
    have hi : i < server.sessions.length := (List.getElem?_eq_some_iff.mp hsession).1
    have hkeeps := h.sessions session (List.mem_of_getElem? hsession)
    have hbefore : Session.Keeps (fun c => P c ∧ D c.service.database) (server.attach session) :=
      ⟨⟨hkeeps.delivering.silent, hkeeps.delivering.sent⟩,
        hP.attach _ server.database server.calls hkeeps.holds, h.database⟩
    obtain ⟨hdelivering, hholds, hdatabase⟩ := hbefore.step hP.preserved completion
    refine ⟨hdatabase, ?_, ?_⟩
    · intro other hother
      obtain hold | rfl := List.mem_or_eq_of_mem_set hother
      · exact h.sessions other hold
      · exact ⟨hdelivering, hholds⟩
    · intro e he
      exact ⟨_, List.mem_set hi _, he⟩

theorem Upholds.step (h : Upholds P D server) (hP : Sustained env P D) (happening : Happening) :
    Upholds P D (server.step env happening) := by
  have hcongr : ∀ server' : TcpServer, server'.database = server.database →
      server'.thrown = server.thrown → server'.sessions = server.sessions →
      Upholds P D server' := by
    intro server' hdatabase hthrown hsessions
    refine ⟨hdatabase ▸ h.database, hsessions ▸ h.sessions, ?_⟩
    rw [hthrown, hsessions]
    exact h.thrown
  unfold TcpServer.step
  split
  · exact h
  cases happening with
  | accepted =>
    dsimp only
    split
    · obtain ⟨hdatabase, -, hthrown, hsessions⟩ := onAccept_changes server false
      refine ⟨hdatabase ▸ h.database, ?_, ?_⟩
      · intro session hsession
        rw [hsessions] at hsession
        obtain hold | hnew := List.mem_append.mp hsession
        · exact h.sessions session hold
        · obtain rfl := List.mem_singleton.mp hnew
          exact .start (hP.start server.database)
      · intro e he
        rw [hthrown] at he
        obtain ⟨session, hsession, hthrew⟩ := h.thrown e he
        rw [hsessions]
        exact ⟨session, List.mem_append_left _ hsession, hthrew⟩
    · exact h
  | acceptFailed =>
    dsimp only
    split
    · obtain ⟨hdatabase, -, hthrown, hsessions⟩ := onAccept_changes server true
      exact hcongr _ hdatabase hthrown hsessions
    · exact h
  | completed i completion => exact h.completion hP i completion
  | signalled =>
    obtain ⟨hdatabase, -, hthrown, hsessions⟩ := onSignal_changes server
    exact hcongr _ hdatabase hthrown hsessions

theorem Upholds.run (h : Upholds P D server) (hP : Sustained env P D)
    (happenings : List Happening) : Upholds P D (server.run env happenings) := by
  induction happenings generalizing server with
  | nil => exact h
  | cons happening happenings ih => exact ih (h.step hP happening)

theorem upholds_start {database : RadishDB Bytes} (h : D database) :
    Upholds P D (start database) where
  database := h
  sessions session hsession := by cases hsession
  thrown e he := by cases he

end Rule

end TcpServer

end Radish
