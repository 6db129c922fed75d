import Radish.Meaning
import Radish.Pipeline
import Radish.Robustness

/-!
# What a server makes of its clients

All that the clients are sent is accounted for by exchanges in one keyspace, one after the other,
each of which is what its command means at the times at which the clock was read for it.
-/

namespace Radish
set_option autoImplicit false

open Ledger RespCodec RadishDB

/-- A command of a client, the times at which the clock was read for it, and its reply. -/
structure Exchange where
  client : Nat
  command : RespCommand
  times : List Timestamp
  reply : Reply

/-- Exchanges that lead from a keyspace to another one, and the version each client speaks then. -/
inductive Exchanges (ttl : Timestamp) (m : Keyspace Bytes) :
    List Exchange → (Nat → RespVersion) → Keyspace Bytes → Prop where
  | nil : Exchanges ttl m [] (fun _ => .resp2) m
  | snoc {exchanges : List Exchange} {versions : Nat → RespVersion} {m' m'' : Keyspace Bytes}
      {exchange : Exchange} {version : RespVersion}
      (before : Exchanges ttl m exchanges versions m')
      (meant : Meaning ttl exchange.command (versions exchange.client) m' exchange.times
        exchange.reply version m'') :
      Exchanges ttl m (exchanges ++ [exchange])
        (Function.update versions exchange.client version) m''

theorem Environment.readings_add (env : Environment) (calls n n' : Nat) :
    env.readings calls (n + n') = env.readings calls n ++ env.readings (calls + n) n' := by
  rw [readings, readings, readings, ← List.map_append, List.range'_append_1]

/-- The exchange stored this binding. -/
def Exchange.Stores (ttl : Timestamp) (exchange : Exchange) (binding : Binding Bytes) : Prop :=
  exchange.command.name = ascii "SET" ∧ ∃ first key t,
    exchange.command.arguments = [first, key, binding.value] ∧ exchange.times = [t] ∧
      binding.deadline = deadline ttl t

/-- Commands move bindings about, but only `SET` makes one. -/
theorem Meaning.source {ttl : Timestamp} {exchange : Exchange} {v v' : RespVersion}
    {m m' : Keyspace Bytes}
    (h : Meaning ttl exchange.command v m exchange.times exchange.reply v' m') {key : Key}
    {binding : Binding Bytes} (hkey : m' key = some binding) :
    (∃ key, m key = some binding) ∨ exchange.Stores ttl binding := by
  obtain ⟨client, command, times, reply⟩ := exchange
  dsimp only at h
  cases h with
  | @set first stored value t called words =>
    rw [put_apply] at hkey
    split at hkey
    · obtain rfl := Option.some.inj hkey
      exact Or.inr ⟨called, first, stored, t, words, rfl, rfl⟩
    · exact Or.inl ⟨key, hkey⟩
  | delete =>
    dsimp only at hkey
    split at hkey
    · cases hkey
    · exact Or.inl ⟨key, hkey⟩
  | @rename _ oldKey newKey =>
    cases hold : m oldKey with
    | none =>
      rw [relocate_of_none newKey hold] at hkey
      exact Or.inl ⟨key, hkey⟩
    | some moved =>
      rw [relocate_apply hold] at hkey
      split at hkey
      · cases hkey
      · split at hkey
        · exact Or.inl ⟨oldKey, hold.trans hkey⟩
        · exact Or.inl ⟨key, hkey⟩
  | flushDatabase => cases hkey
  | _ => exact Or.inl ⟨key, hkey⟩

/-- Every binding was there at the beginning, or some exchange stored it. -/
theorem Exchanges.source {ttl : Timestamp} {m m' : Keyspace Bytes} {exchanges : List Exchange}
    {versions : Nat → RespVersion} (h : Exchanges ttl m exchanges versions m') {key : Key}
    {binding : Binding Bytes} (hkey : m' key = some binding) :
    (∃ key, m key = some binding) ∨ ∃ exchange ∈ exchanges, exchange.Stores ttl binding := by
  induction h generalizing key with
  | nil => exact Or.inl ⟨key, hkey⟩
  | snoc before meant ih =>
    obtain ⟨earlier, hearlier⟩ | hstores := meant.source hkey
    · obtain hfirst | ⟨exchange, hexchange, hstores⟩ := ih hearlier
      · exact Or.inl hfirst
      · exact Or.inr ⟨exchange, List.mem_append_left _ hexchange, hstores⟩
    · exact Or.inr ⟨_, List.mem_append_right _ List.mem_cons_self, hstores⟩

namespace Session

/-- A command keeps the store's maps together and its ttl. -/
theorem invariable_coherent (env : Environment) (ttl : Timestamp) :
    Invariable env fun s => s.database.store.Coherent ∧ s.database.store.ttl = ttl where
  call s c hs _ := by
    obtain ⟨hcoherent, httl⟩ := call_coherent hs.1 (env.fault s.calls) (env.now s.calls) c
    exact ⟨hcoherent, httl.trans hs.2⟩
  look _ hs := hs

end Session

namespace TcpServer

/-- The commands of a history are these exchanges, and none of them has thrown. -/
structure Told (env : Environment) (database : RadishDB Bytes)
    (history : List (Nat × RespCommand)) (exchanges : List Exchange) : Prop where
  coherent : (executeAll env database history).database.store.Coherent
  ttl : (executeAll env database history).database.store.ttl = database.store.ttl
  keyspace : Exchanges database.store.ttl database.store.keyspace exchanges
    (executeAll env database history).versions
    (executeAll env database history).database.store.keyspace
  commands : exchanges.map (fun e => (e.client, e.command)) = history
  replies : exchanges.map (fun e => (e.client, e.reply.encode)) =
    (executeAll env database history).results.map fun r => (r.1, r.2.1)
  times : exchanges.flatMap Exchange.times = env.readings 0 (executeAll env database history).calls

section Histories
variable {env : Environment} {database : RadishDB Bytes} {history : List (Nat × RespCommand)}
  {exchanges : List Exchange}

theorem told_nil (env : Environment) (h : database.store.Coherent) : Told env database [] [] :=
  ⟨h, rfl, .nil, rfl, rfl, rfl⟩

theorem Told.snoc (h : Told env database history exchanges) {p : Nat × RespCommand}
    (hsend : Sendable p.2) (hthrown : (executeAll env database (history ++ [p])).thrown = none) :
    ∃ exchange, Told env database (history ++ [p]) (exchanges ++ [exchange]) := by
  obtain ⟨hcoherent, httl, hkeyspace, hcommands, hreplies, htimes⟩ := h
  have hsnoc := executeAll_snoc env database history p
  generalize executeAll env database history = joint at *
  rw [hsnoc] at hthrown
  obtain ⟨service, hservice, hdatabase, hcalls, hversions, ⟨e, -, hfailed⟩ |
    ⟨result, hdispatch, hresults, -⟩⟩ := joint.dispatch_cases env p
  · rw [hfailed] at hthrown
    cases hthrown
  · obtain ⟨hcoherent', httl'⟩ : service.database.store.Coherent ∧
        service.database.store.ttl = database.store.ttl := by
      rw [← hservice]
      exact Session.dispatch_maintains (Session.invariable_coherent env database.store.ttl) hsend
        (fun _ _ _ hs => hs) _ ⟨hcoherent, httl⟩
    obtain ⟨n, reply, hreply, hn, hmeaning⟩ :=
      Session.dispatch_means env p.2 hcoherent result service hdispatch
    rw [← httl] at hkeyspace
    refine ⟨⟨p.1, p.2, env.readings joint.calls n, reply⟩, ?_⟩
    constructor
    · rwa [hsnoc, hdatabase]
    · rwa [hsnoc, hdatabase]
    · rw [hsnoc, hdatabase, hversions, ← httl]
      exact hkeyspace.snoc hmeaning
    · rw [List.map_append, hcommands]
      rfl
    · rw [hsnoc, hresults, List.map_append, List.map_append, hreplies]
      simp [hreply]
    · rw [hsnoc, hcalls, List.flatMap_append, htimes, hn, env.readings_add]
      simp

/-- What has thrown has thrown for good. -/
theorem thrown_of_append {later : List (Nat × RespCommand)}
    (h : (executeAll env database (history ++ later)).thrown = none) :
    (executeAll env database history).thrown = none := by
  induction later using List.reverseRecOn with
  | nil => rwa [List.append_nil] at h
  | append_singleton later p ih =>
    rw [← List.append_assoc, executeAll_snoc] at h
    obtain ⟨_, -, -, -, -, ⟨e, -, hfailed⟩ | ⟨_, -, -, hkept⟩⟩ :=
      (executeAll env database (history ++ later)).dispatch_cases env p
    · rw [hfailed] at h
      cases h
    · exact ih (hkept ▸ h)

/-- The exchanges of a history that goes on go on. -/
theorem Told.append (h : Told env database history exchanges) {later : List (Nat × RespCommand)}
    (hsend : ∀ p ∈ later, Sendable p.2)
    (hthrown : (executeAll env database (history ++ later)).thrown = none) :
    ∃ more, Told env database (history ++ later) (exchanges ++ more) := by
  induction later generalizing history exchanges with
  | nil => exact ⟨[], by rwa [List.append_nil, List.append_nil]⟩
  | cons p later ih =>
    rw [List.append_cons] at hthrown ⊢
    obtain ⟨exchange, hfirst⟩ := h.snoc (hsend p List.mem_cons_self) (thrown_of_append hthrown)
    obtain ⟨more, hmore⟩ := ih hfirst (fun q hq => hsend q (List.mem_cons_of_mem _ hq)) hthrown
    rw [List.append_assoc exchanges] at hmore
    exact ⟨exchange :: more, hmore⟩

end Histories

/-- The exchanges of one session. -/
def exchangesOf (i : Nat) (exchanges : List Exchange) : List Exchange :=
  exchanges.filter fun exchange => exchange.client = i

theorem ofSession_exchanges {α : Type} (f : Exchange → α) (i : Nat) (exchanges : List Exchange) :
    ofSession i (exchanges.map fun e => (e.client, f e)) = (exchangesOf i exchanges).map f := by
  induction exchanges with
  | nil => rfl
  | cons exchange exchanges ih =>
    rw [exchangesOf] at ih ⊢
    rw [List.map_cons, ofSession, List.filterMap_cons, ← ofSession, ih]
    by_cases hclient : exchange.client = i
    · simp [hclient]
    · simp [hclient]

theorem ofSession_map {α β : Type} (f : α → β) (i : Nat) (entries : List (Nat × α)) :
    ofSession i (entries.map fun p => (p.1, f p.2)) = (ofSession i entries).map f := by
  induction entries with
  | nil => rfl
  | cons entry entries ih =>
    rw [List.map_cons, ofSession, List.filterMap_cons, ← ofSession, ih, ofSession, ofSession,
      List.filterMap_cons]
    by_cases hclient : entry.1 = i
    · simp [hclient]
    · simp [hclient]

theorem Told.executed {env : Environment} {database : RadishDB Bytes}
    {history : List (Nat × RespCommand)} {exchanges : List Exchange}
    (h : Told env database history exchanges) (i : Nat) :
    ofSession i history = (exchangesOf i exchanges).map Exchange.command := by
  rw [← h.commands]
  exact ofSession_exchanges Exchange.command i exchanges

theorem Told.answered {env : Environment} {database : RadishDB Bytes}
    {history : List (Nat × RespCommand)} {exchanges : List Exchange}
    (h : Told env database history exchanges) (i : Nat) :
    (ofSession i (executeAll env database history).results).map Prod.fst =
      (exchangesOf i exchanges).map fun e => e.reply.encode := by
  rw [← ofSession_map, ← h.replies]
  exact ofSession_exchanges (fun e => e.reply.encode) i exchanges

/-- Exchanges that account for what the clients of a server have seen. They read the clock in their
order, and end in what the store holds; every session has been sent the front of the replies to its
own commands, which it executed in that order, with at most a protocol error after them. -/
structure MeantBy (env : Environment) (ttl : Timestamp) (m : Keyspace Bytes) (server : TcpServer)
    (exchanges : List Exchange) (versions : Nat → RespVersion) : Prop where
  keyspace : Exchanges ttl m exchanges versions server.database.store.keyspace
  times : exchanges.flatMap Exchange.times = env.readings 0 server.calls
  sessions : ∀ i session, server.sessions[i]? = some session →
    session.executed = (exchangesOf i exchanges).map Exchange.command ∧
      session.service.version = versions i ∧ session.sent <+: session.replies.flatten ∧
      ∃ refusal, (refusal = [] ∨ session.closeAfterWrite = true ∧
          ∃ what, refusal = [RespCodec.error (ascii what)]) ∧
        session.replies = (exchangesOf i exchanges).map (fun e => e.reply.encode) ++ refusal

/-- A run in which nothing has thrown is told by exchanges. -/
theorem Serial.exists_told {env : Environment} {database : RadishDB Bytes}
    {history : List (Nat × RespCommand)} {server : TcpServer}
    (h : Serial env database history server) (hcoherent : database.store.Coherent)
    (hthrown : server.thrown = none) : ∃ exchanges, Told env database history exchanges := by
  have hreturns : (executeAll env database ([] ++ history)).thrown = none := h.thrown ▸ hthrown
  exact (told_nil env hcoherent).append (fun p hp => (h.known p hp).2) hreturns

theorem Serial.meantBy {env : Environment} {database : RadishDB Bytes}
    {history : List (Nat × RespCommand)} {server : TcpServer} {exchanges : List Exchange}
    (h : Serial env database history server) (htold : Told env database history exchanges) :
    server.MeantBy env database.store.ttl database.store.keyspace exchanges
      (executeAll env database history).versions := by
  have hexplained := h.explainedBy
  refine ⟨hexplained.shared ▸ htold.keyspace, h.calls ▸ htold.times, ?_⟩
  intro i session hsession
  obtain ⟨hexecuted, hversion, hsent, refusal, hlast, hall⟩ :=
    hexplained.sessions i session hsession
  rw [htold.executed] at hexecuted
  rw [htold.answered] at hall
  exact ⟨hexecuted, hversion, hsent, refusal, hlast, hall⟩

section Runs
variable {options : ServerOptions} {now : Timestamp} {disk : LogWriter} {database : RadishDB Bytes}
  {env : Environment}

/-- A client that sets a key. -/
def oneSet : List Happening :=
  [.accepted, .completed 0 (.read (ascii "*3\r\n$3\r\nSET\r\n$1\r\nk\r\n$1\r\nv\r\n"))]

theorem oneSet_effect (env : Environment) {result : Except Exception Bool} {db : RadishDB Bytes}
    (hcall : (fresh "radish.radish" (-1)).create (env.fault 0) (env.now 0) (ascii "k") (ascii "v") =
      (result, db)) :
    (∀ session ∈ ((start (fresh "radish.radish" (-1))).run env oneSet).sessions,
        session.executed = [⟨[ascii "SET", ascii "k", ascii "v"]⟩]) ∧
      ((start (fresh "radish.radish" (-1))).run env oneSet).database = db ∧
      (((start (fresh "radish.radish" (-1))).run env oneSet).thrown = none ↔
        result.isOk = true) := by
  have hsend : Sendable ⟨[ascii "SET", ascii "k", ascii "v"]⟩ := ⟨by decide, by decide, by decide⟩
  have hdispatch : Session.dispatch env ⟨[ascii "SET", ascii "k", ascii "v"]⟩
      (Session.start (fresh "radish.radish" (-1))).service =
        (result.map fun _ => (simpleString (ascii "OK"), false), ⟨.resp2, db, 1⟩) := by
    have hcommit : Session.commit env (fun fault now database =>
        database.create fault now (ascii "k") (ascii "v"))
        (Session.start (fresh "radish.radish" (-1))).service = (result, ⟨.resp2, db, 1⟩) := by
      rw [Session.commit, Session.start]
      dsimp only
      rw [hcall]
    cases result with
    | error e => exact Postcondition.bind_of_error hcommit
    | ok found => exact Postcondition.bind_of_ok hcommit
  have hrequest : Request ⟨[ascii "SET", ascii "k", ascii "v"]⟩
      ((Session.start (fresh "radish.radish" (-1))).receive
        (ascii "*3\r\n$3\r\nSET\r\n$1\r\nk\r\n$1\r\nv\r\n")).input := hsend.request
  generalize hsession : (Session.start (fresh "radish.radish" (-1))).onRead env
    (ascii "*3\r\n$3\r\nSET\r\n$1\r\nk\r\n$1\r\nv\r\n") = session
  have hrun : ((start (fresh "radish.radish" (-1))).run env oneSet) =
      { start (fresh "radish.radish" (-1)) with
        database := session.service.database
        calls := session.service.calls
        sessions := [session]
        thrown := session.thrown } := hsession ▸ rfl
  rw [hrun, ← hsession, Session.onRead]
  dsimp only
  rw [if_neg (by decide)]
  cases result with
  | error e =>
    rw [Session.process_of_complete _ (by decide) (parseCommand_of_request hrequest []),
      Session.receive, hdispatch]
    refine ⟨List.forall_mem_singleton.mpr rfl, rfl, ?_⟩
    exact ⟨fun hnone => (by cases hnone), fun hok => (by cases hok)⟩
  | ok found =>
    rw [Session.process_request hrequest rfl hdispatch]
    exact ⟨List.forall_mem_singleton.mpr rfl, rfl, fun _ => rfl, fun _ => rfl⟩

theorem oneSet_quiet :
    ((start (fresh "radish.radish" (-1))).run Session.quiet oneSet).thrown = none :=
  (oneSet_effect Session.quiet rfl).2.2.mpr rfl

end Runs

end TcpServer

end Radish
