import Radish.CompactStrategy
import Radish.LogReader
import Radish.RadishStore

/-!
# LogWriter

Appending to, replaying and compacting the log. A writer carries the contents of its file
and of the temporary file next to it (`none` while a file does not exist). `PersistenceLog`
adds only a mutex to these operations and is not modelled apart.

A `Fault` is what the environment may do to one operation. An operation that throws still
returns the writer, with whatever had reached the files by then.
-/

namespace Radish
set_option autoImplicit false

/-- `reached` counts the bytes of the operation's output that got to the file. -/
inductive Fault where
  | cannotRead (thrown : Exception)
  | cannotOpen
  | writeFails (reached : Nat)
  | flushFails (reached : Nat)
  | closeFails (reached : Nat)
  | renameFails (thrown : Exception)
  deriving DecidableEq

def Fault.read : Option Fault → Option Exception
  | some (.cannotRead e) => some e
  | _ => none

structure LogWriter where
  filename : String
  log : Option Bytes
  temporary : Option Bytes

namespace LogWriter
variable {V : Type}

/-- `EnsureInitialized`, called once by the constructor. -/
def ensureInitialized (writer : LogWriter) : Except Exception LogWriter :=
  match writer.log with
  | some file =>
    match BinaryFile.readBytes 8 file with
    | none => .error (.runtimeError "Unsupported or corrupt persistence log header")
    | some (header, _) =>
      if header ≠ LogReader.kHeader then
        .error (.runtimeError "Unsupported or corrupt persistence log header")
      else .ok writer
  | none => .ok { writer with log := some LogReader.kHeader }

/-- The store after an event, and whether the event had an effect. The source dereferences the
optional fields unchecked; an event without a required one is outside its contract. -/
def applyEvent (now : Timestamp) (store : RadishStore V) (event : RadishEvent V) :
    Except Exception (Bool × RadishStore V) :=
  match event.type with
  | .create => do
    let key ← value event.key
    let payload ← value event.payload
    return (true, (store.create now key payload (some event.timestamp)).2)
  | .rename => do
    let key ← value event.key
    let renameKey ← value event.renameKey
    return store.rename now key renameKey
  | .delete => do
    let key ← value event.key
    return store.delete key
  | .clear => return store.clear
  | .unnamed _ _ => .error (.runtimeError "Unknown persistence event type")

def applyEvents (now : Timestamp) (store : RadishStore V) :
    List (RadishEvent V) → Except Exception (RadishStore V)
  | [] => return store
  | event :: events => do
    let (_, store) ← applyEvent now store event
    applyEvents now store events

variable [BinaryValue V]

/-- `WriteRecord`: the frame it appends to the file. -/
def writeRecord (event : RadishEvent V) : Except Exception Bytes := do
  let bytes ← event.serialize
  if bytes = [] ∨ bytes.length > 64 * 1024 * 1024 then
    .error (.lengthError "Persistence record has invalid size")
  else return LittleEndian.encode 4 bytes.length ++ bytes

def append (fault : Option Fault) (writer : LogWriter) (row : RadishEvent V) :
    Except Exception Unit × LogWriter :=
  if fault = some .cannotOpen then
    (.error (.runtimeError ("Failed to open file for writing: " ++ writer.filename)), writer)
  else
    -- opening in append mode creates a missing file
    let file := writer.log.getD []
    match writeRecord row with
    | .error e => (.error e, { writer with log := some file })
    | .ok record =>
      match fault with
      | some (.writeFails reached) =>
        (.error (.iosFailure "Failed to write persistence record"),
          { writer with log := some (file ++ record.take reached) })
      | some (.flushFails reached) =>
        (.error (.iosFailure ("Failed to flush persistence log: " ++ writer.filename)),
          { writer with log := some (file ++ record.take reached) })
      | _ => (.ok (), { writer with log := some (file ++ record) })

def replay (fault : Option Fault) (now : Timestamp) (writer : LogWriter) (store : RadishStore V) :
    Except Exception (RadishStore V) := do
  let events ← LogReader.getEvents (Fault.read fault) writer.log
  applyEvents now store events

/-- The test by which `Compact` and `RewriteHistory` leave an event out. -/
def isPast (now timestamp : Timestamp) : Bool := timestamp ≠ -1 && decide (timestamp < now)

def compactStep (now : Timestamp) (events : EventsMap V) (event : RadishEvent V) :
    Except Exception (EventsMap V) :=
  if event.type = .create ∧ isPast now event.timestamp then return events
  else
    match compactStrategies event.type with
    | some execute => execute events event
    | none => return events

def compactEvents (now : Timestamp) (events : EventsMap V) :
    List (RadishEvent V) → Except Exception (EventsMap V)
  | [] => return events
  | event :: rest => do
    let events ← compactStep now events event
    compactEvents now events rest

/-- The events `RewriteHistory` writes, in the order it meets them. -/
def survivors (order : Traversal (Σ _ : Key, RadishEvent V)) (now : Timestamp)
    (events : EventsMap V) : List (RadishEvent V) :=
  ((order.visit events.entries).map Sigma.snd).filter fun event => !isPast now event.timestamp

/-- Writes the records of `events` after `file`, up to the first one that is refused. -/
def writeRecords (file : Bytes) : List (RadishEvent V) → Except Exception Unit × Bytes
  | [] => (.ok (), file)
  | event :: events =>
    match writeRecord event with
    | .error e => (.error e, file)
    | .ok record => writeRecords (file ++ record) events

/-- The temporary file is complete before it takes the place of the log; `std::filesystem::rename`
replaces the log in one step. -/
def rewriteHistory (fault : Option Fault) (order : Traversal (Σ _ : Key, RadishEvent V))
    (now : Timestamp) (writer : LogWriter) (events : EventsMap V) :
    Except Exception Unit × LogWriter :=
  if fault = some .cannotOpen then
    (.error (.runtimeError
      ("Failed to open temporary persistence log: " ++ writer.filename ++ ".tmp")), writer)
  else
    match fault, writeRecords LogReader.kHeader (survivors order now events) with
    | some (.writeFails reached), (written, file) =>
      if reached < 8 then
        (.error (.iosFailure "Failed to write persistence log header"),
          { writer with temporary := some (file.take reached) })
      else if reached < file.length then
        (.error (.iosFailure "Failed to write persistence record"),
          { writer with temporary := some (file.take reached) })
      else
        match written with
        | .error e => (.error e, { writer with temporary := some file })
        | .ok () => (.ok (), { writer with log := some file, temporary := none })
    | _, (.error e, file) => (.error e, { writer with temporary := some file })
    | some (.flushFails reached), (.ok (), file) =>
      (.error (.iosFailure "Failed to flush compacted persistence log"),
        { writer with temporary := some (file.take reached) })
    | some (.closeFails reached), (.ok (), file) =>
      (.error (.iosFailure "Failed to close compacted persistence log"),
        { writer with temporary := some (file.take reached) })
    | some (.renameFails e), (.ok (), file) => (.error e, { writer with temporary := some file })
    | _, (.ok (), file) => (.ok (), { writer with log := some file, temporary := none })

def compact (fault : Option Fault) (order : Traversal (Σ _ : Key, RadishEvent V))
    (now : Timestamp) (writer : LogWriter) : Except Exception Unit × LogWriter :=
  match LogReader.getEvents (Fault.read fault) writer.log with
  | .error e => (.error e, writer)
  | .ok events =>
    match compactEvents now ∅ events with
    | .error e => (.error e, writer)
    | .ok events => rewriteHistory fault order now writer events

end LogWriter

end Radish
