import Radish.LogWriter

/-!
# RadishDB

The facade: a store and, unless persistence is disabled, the log behind it. A mutation is
staged on a copy of the store, appended to the log, and only then takes effect. The lock
admits one mutation at a time, so a run of the database is a sequence of calls.
-/

namespace Radish
set_option autoImplicit false

inductive PersistenceMode where
  | flush
  | disabled
  deriving DecidableEq

structure RadishDB (V : Type) where
  store : RadishStore V
  persistence : Option LogWriter

namespace RadishDB
variable {V : Type}

/-- The switch of the volatile mode, a copy of `LogWriter::ApplyEvent`. -/
def applyEvent (now : Timestamp) (store : RadishStore V) (event : RadishEvent V) :
    Except Exception (Bool × RadishStore V) :=
  match event.type with
  | .create => do
    let key ← value event.key
    let payload ← value event.payload
    return (true, (store.create now key payload (some event.timestamp)).2)
  | .rename => do
    let key ← value event.key
    let renameKey ← value event.renameKey
    return store.rename now key renameKey
  | .delete => do
    let key ← value event.key
    return store.delete key
  | .clear => return store.clear
  | .unnamed _ _ => .error (.runtimeError "Unknown persistence event type")

variable [BinaryValue V]

/-- `writer` is what the disk holds under the database's name. -/
def initializePersistence (now : Timestamp) (store : RadishStore V) (mode : PersistenceMode)
    (writer : LogWriter) : Except Exception (RadishDB V) :=
  match mode with
  | .disabled => return ⟨store, none⟩
  | .flush => do
    let writer ← writer.ensureInitialized
    let store ← writer.replay none now store
    return ⟨store, some writer⟩

/-- The constructor; without a ttl argument the source passes -1. -/
def new (now ttl : Timestamp) (mode : PersistenceMode) (writer : LogWriter) :
    Except Exception (RadishDB V) :=
  initializePersistence now (RadishStore.new ttl) mode writer

def commit (fault : Option Fault) (now : Timestamp) (db : RadishDB V) (event : RadishEvent V) :
    Except Exception Bool × RadishDB V :=
  let staged :=
    match db.persistence with
    | some _ => LogWriter.applyEvent now db.store event
    | none => applyEvent now db.store event
  match staged with
  | .error e => (.error e, db)
  | .ok (false, _) => (.ok false, db)
  | .ok (true, stagedStore) =>
    match db.persistence with
    | none => (.ok true, { db with store := stagedStore })
    | some writer =>
      match writer.append fault event with
      | (.error e, writer) => (.error e, { db with persistence := some writer })
      | (.ok (), writer) => (.ok true, ⟨stagedStore, some writer⟩)

/-- `Create` returns nothing; the result here is that of the `Commit` it ends in. -/
def create (fault : Option Fault) (now : Timestamp) (db : RadishDB V) (key : Key) (value : V) :
    Except Exception Bool × RadishDB V :=
  db.commit fault now
    ⟨.create, db.store.newExpiryTimestamp now, some key, none, some value⟩

def rename (fault : Option Fault) (now : Timestamp) (db : RadishDB V) (oldKey newKey : Key) :
    Except Exception Bool × RadishDB V :=
  db.commit fault now ⟨.rename, -1, some oldKey, some newKey, none⟩

def delete (fault : Option Fault) (now : Timestamp) (db : RadishDB V) (key : Key) :
    Except Exception Bool × RadishDB V :=
  db.commit fault now ⟨.delete, -1, some key, none, none⟩

def clear (fault : Option Fault) (now : Timestamp) (db : RadishDB V) :
    Except Exception Bool × RadishDB V :=
  db.commit fault now ⟨.clear, -1, none, none, none⟩

def compact (fault : Option Fault) (order : Traversal (Σ _ : Key, RadishEvent V))
    (now : Timestamp) (db : RadishDB V) : Except Exception Unit × RadishDB V :=
  match db.persistence with
  | none => (.ok (), db)
  | some writer =>
    let (result, writer) := writer.compact fault order now
    (result, { db with persistence := some writer })

def get (now : Timestamp) (db : RadishDB V) (key : Key) : Option V := db.store.get now key

def scan (order : Traversal Key) (now : Timestamp) (db : RadishDB V) : List Key :=
  db.store.scan order now

def size (now : Timestamp) (db : RadishDB V) : Nat := db.store.size now

def isExpired (now : Timestamp) (db : RadishDB V) (key : Key) : Bool := db.store.isExpired now key

/-- A mutating call of the public interface. -/
inductive Call (V : Type) where
  | create (key : Key) (value : V)
  | rename (oldKey newKey : Key)
  | delete (key : Key)
  | clear

def call (fault : Option Fault) (now : Timestamp) (db : RadishDB V) :
    Call V → Except Exception Bool × RadishDB V
  | .create key value => db.create fault now key value
  | .rename oldKey newKey => db.rename fault now oldKey newKey
  | .delete key => db.delete fault now key
  | .clear => db.clear fault now

end RadishDB

def RadishDB.exists {V : Type} (now : Timestamp) (db : RadishDB V) (key : Key) : Bool :=
  db.store.exists now key

end Radish
