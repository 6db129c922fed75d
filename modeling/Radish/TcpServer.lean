import Radish.RadishDB
import Radish.RespGrammar

/-!
# TcpServer

A session, which is one connection of the server: the command handlers, the input loop and the
output queue, driven by the completions of the reads and writes it has asked for. The reads and
writes under way are part of the state, since asio runs a handler only for an operation that was
started.
-/

namespace Radish
set_option autoImplicit false

/-- What the clock, the disk and the hash table have in store for the n-th database call. -/
structure Environment where
  now : Nat → Timestamp
  fault : Nat → Option Fault
  order : Nat → Traversal Key

/-- What the command handlers work on. `calls` counts the database calls made so far. -/
structure Service where
  version : RespVersion
  database : RadishDB Bytes
  calls : Nat

abbrev CommandResult := Bytes × Bool

/-- A handler may throw, and leaves the service behind even then. -/
abbrev Handling := ExceptT Exception (StateM Service)

abbrev CommandHandler := Environment → RespCommand → Bytes → Handling CommandResult

namespace Session

/-- A call that changes the database. -/
def commit {α : Type} (env : Environment)
    (call : Option Fault → Timestamp → RadishDB Bytes → Except Exception α × RadishDB Bytes) :
    Handling α :=
  fun service =>
    let (result, database) :=
      call (env.fault service.calls) (env.now service.calls) service.database
    (result, { service with database, calls := service.calls + 1 })

/-- A call that only looks at the database. -/
def inspect {α : Type} (env : Environment)
    (call : Traversal Key → Timestamp → RadishDB Bytes → α) : Handling α :=
  fun service =>
    (.ok (call (env.order service.calls) (env.now service.calls) service.database),
      { service with calls := service.calls + 1 })

/-- How many of the keys `call` finds, asking for one after the other. -/
def countKeys (call : Key → Handling Bool) : List Key → Handling Nat
  | [] => return 0
  | key :: keys => do
    let found ← call key
    let later ← countKeys call keys
    return (if found then 1 else 0) + later

def wrongArity (name : Bytes) : CommandResult :=
  (RespCodec.error (ascii "wrong number of arguments for '" ++ name ++ ascii "' command"), false)

def setVersion (version : RespVersion) : Handling CommandResult := do
  modify fun service => { service with version }
  return (RespCodec.hello version, false)

def handleHello : CommandHandler := fun _ command name =>
  match command.arguments with
  | [_, version] =>
    if version = ascii "2" then setVersion .resp2
    else if version = ascii "3" then setVersion .resp3
    else return (RespCodec.error (ascii "NOPROTO unsupported protocol version"), false)
  | _ => return wrongArity name

def handlePing : CommandHandler := fun _ command name =>
  match command.arguments with
  | [_] => return (RespCodec.simpleString (ascii "PONG"), false)
  | [_, value] => return (RespCodec.bulkString (some value) (← get).version, false)
  | _ => return wrongArity name

def handleGet : CommandHandler := fun env command name =>
  match command.arguments with
  | [_, key] => do
    let value ← inspect env fun _ now database => database.get now key
    return (RespCodec.bulkString value (← get).version, false)
  | _ => return wrongArity name

def handleSet : CommandHandler := fun env command name =>
  match command.arguments with
  | [_, key, value] => do
    let _ ← commit env fun fault now database => database.create fault now key value
    return (RespCodec.simpleString (ascii "OK"), false)
  | _ => return wrongArity name

def handleDelete : CommandHandler := fun env command name =>
  match command.arguments with
  | _ :: key :: keys => do
    let deleted ← countKeys
      (fun key => commit env fun fault now database => database.delete fault now key) (key :: keys)
    return (RespCodec.integer deleted, false)
  | _ => return wrongArity name

def handleRename : CommandHandler := fun env command name =>
  match command.arguments with
  | [_, oldKey, newKey] => do
    let renamed ← commit env fun fault now database => database.rename fault now oldKey newKey
    if renamed then return (RespCodec.simpleString (ascii "OK"), false)
    else return (RespCodec.error (ascii "no such key"), false)
  | _ => return wrongArity name

def handleExists : CommandHandler := fun env command name =>
  match command.arguments with
  | _ :: key :: keys => do
    let present ← countKeys
      (fun key => inspect env fun _ now database => database.exists now key) (key :: keys)
    return (RespCodec.integer present, false)
  | _ => return wrongArity name

def handleKeys : CommandHandler := fun env command name =>
  match command.arguments with
  | [_, pattern] =>
    if pattern ≠ ascii "*" then
      return (RespCodec.error (ascii "only KEYS * is supported"), false)
    else do
      let keys ← inspect env fun order now database => database.scan order now
      return (RespCodec.array keys (← get).version, false)
  | _ => return wrongArity name

def handleDatabaseSize : CommandHandler := fun env command name =>
  match command.arguments with
  | [_] => do
    let size ← inspect env fun _ now database => database.size now
    return (RespCodec.integer size, false)
  | _ => return wrongArity name

def handleFlushDatabase : CommandHandler := fun env command name =>
  match command.arguments with
  | [_] => do
    let _ ← commit env fun fault now database => database.clear fault now
    return (RespCodec.simpleString (ascii "OK"), false)
  | _ => return wrongArity name

def handleQuit : CommandHandler := fun _ command name =>
  match command.arguments with
  | [_] => return (RespCodec.simpleString (ascii "OK"), true)
  | _ => return wrongArity name

def commandHandlers : List (Bytes × CommandHandler) :=
  [(ascii "HELLO", handleHello), (ascii "PING", handlePing), (ascii "GET", handleGet),
    (ascii "SET", handleSet), (ascii "DEL", handleDelete), (ascii "RENAME", handleRename),
    (ascii "EXISTS", handleExists), (ascii "KEYS", handleKeys),
    (ascii "DBSIZE", handleDatabaseSize), (ascii "FLUSHDB", handleFlushDatabase),
    (ascii "QUIT", handleQuit)]

/-- `std::toupper` in the C locale. -/
def uppercase (value : Bytes) : Bytes :=
  value.map fun character =>
    if byte 'a' ≤ character ∧ character ≤ byte 'z' then character - 32 else character

/-- A command the parser returns has a first argument. -/
def dispatch (env : Environment) (command : RespCommand) : Handling CommandResult :=
  let name := uppercase (command.arguments.headD [])
  match commandHandlers.lookup name with
  | none => return (RespCodec.error (ascii "unknown command '" ++ name ++ ascii "'"), false)
  | some handler => handler env command name

end Session

/-- What a session has made of its input: the commands it executed and the replies it queued are
kept for reference only. A handler's exception leaves `io_context::run`, and ends the server. -/
structure Conversation where
  service : Service
  closeAfterWrite : Bool
  executed : List RespCommand
  replies : List Bytes
  thrown : Option Exception

/-- `reading` and `writing` are the operations under way: whether there is a read, and the
buffers being written. -/
structure Session extends Conversation where
  input : Bytes
  output : List Bytes
  reading : Bool
  writing : List Bytes
  sent : Bytes
  isOpen : Bool

/-- What asio reports to a session. -/
inductive Completion where
  | read (bytes : Bytes)
  | readFailed
  | written
  | writeFailed (reached : Nat)

namespace Session

/-- The size of `m_readBuffer`, and so of the largest read. -/
def kReadBuffer : Nat := 8192

/-- A session that has been started. -/
def start (database : RadishDB Bytes) : Session where
  service := ⟨.resp2, database, 0⟩
  closeAfterWrite := false
  executed := []
  replies := []
  thrown := none
  input := []
  output := []
  reading := true
  writing := []
  sent := []
  isOpen := true

/-- Starts a read. -/
def read (session : Session) : Session := { session with reading := true }

/-- The bytes of a finished read are appended to the input. -/
def receive (session : Session) (bytes : Bytes) : Session :=
  { session with reading := false, input := session.input ++ bytes }

/-- Starts to write the front of the output. -/
def write (session : Session) : Session :=
  { session with writing := session.writing ++ session.output.take 1 }

def queue (session : Session) (response : Bytes) (closeAfterWrite : Bool) : Session :=
  let queued := { session with
    output := session.output ++ [response]
    replies := session.replies ++ [response]
    closeAfterWrite := session.closeAfterWrite || closeAfterWrite }
  if session.output = [] then queued.write else queued

section Queueing
variable (session : Session) (response : Bytes) (close : Bool)

theorem queue_toConversation :
    (session.queue response close).toConversation =
      { session.toConversation with
        replies := session.replies ++ [response]
        closeAfterWrite := session.closeAfterWrite || close } := by
  unfold queue
  dsimp only
  split <;> rfl

@[simp] theorem queue_input : (session.queue response close).input = session.input := by
  unfold queue
  dsimp only
  split <;> rfl

@[simp] theorem queue_reading : (session.queue response close).reading = session.reading := by
  unfold queue
  dsimp only
  split <;> rfl

@[simp] theorem queue_thrown : (session.queue response close).thrown = session.thrown := by
  rw [queue_toConversation]

end Queueing

def process (env : Environment) (session : Session) : Session :=
  if session.input = [] ∨ session.closeAfterWrite = true then session
  else
    match hparse : RespCodec.parseCommand session.input with
    | .incomplete => session
    | .error what => session.queue (RespCodec.error (ascii what)) true
    | .complete command consumed =>
      let executing := { session with
        input := session.input.drop consumed
        executed := session.executed ++ [command] }
      match dispatch env command session.service with
      | (.error e, service) => { executing with service, thrown := some e }
      | (.ok (response, close), service) =>
        process env ({ executing with service }.queue response close)
termination_by session.input.length
decreasing_by
  rw [queue_input]
  exact RespCodec.length_drop_consumed hparse

/-- The handler of a finished read. -/
def onRead (env : Environment) (session : Session) (bytes : Bytes) : Session :=
  let received := session.receive bytes
  if received.input.length > RespCodec.kMaxBufferedInput then
    received.queue (RespCodec.error (ascii "Protocol error: input buffer limit exceeded")) true
  else
    let processed := received.process env
    if processed.closeAfterWrite = true ∨ processed.thrown ≠ none then processed
    else processed.read

/-- The handler of a finished write. -/
def onWritten (session : Session) : Session :=
  let popped := { session with
    output := session.output.tail
    writing := session.writing.tail
    sent := session.sent ++ session.writing.headD [] }
  if popped.output ≠ [] then popped.write
  else if popped.closeAfterWrite then { popped with isOpen := false }
  else popped

/-- One completion. There is none of an operation that is not under way, and none at all after
an exception. -/
def step (env : Environment) (session : Session) (completion : Completion) : Session :=
  if session.thrown ≠ none then session
  else
    match completion with
    | .read bytes => if session.reading then session.onRead env bytes else session
    | .readFailed => { session with reading := false }
    | .written => if session.writing = [] then session else session.onWritten
    | .writeFailed reached =>
      { session with
        writing := session.writing.tail
        sent := session.sent ++ (session.writing.headD []).take reached }

def run (env : Environment) (session : Session) (completions : List Completion) : Session :=
  completions.foldl (step env) session

end Session

end Radish
