import Radish.CallHistory
import Radish.Library.SharedLock

/-!
# Threads on one database

The public calls of a database, statement by statement. `m_mutex` is the lock of the machine, taken
by `std::lock_guard` for the calls that write and by `std::shared_lock` for the others; the mutex of
`PersistenceLog` is taken and given back within a call. No schedule of the threads can be told from
one call after the other.
-/

namespace Radish
set_option autoImplicit false
open SharedLock Transition

namespace RadishDB
variable {V : Type}

/-- The event that a mutating call hands to `Commit`. -/
def Call.event (now : Timestamp) (store : RadishStore V) : Call V → RadishEvent V
  | .create key value => ⟨.create, store.newExpiryTimestamp now, some key, none, some value⟩
  | .rename oldKey newKey => ⟨.rename, -1, some oldKey, some newKey, none⟩
  | .delete key => ⟨.delete, -1, some key, none, none⟩
  | .clear => ⟨.clear, -1, none, none, none⟩

theorem call_eq_commit_event [BinaryValue V] (fault : Option Fault) (now : Timestamp)
    (db : RadishDB V) (c : Call V) :
    db.call fault now c = db.commit fault now (c.event now db.store) := by
  cases c <;> rfl

end RadishDB

namespace ConcurrentDB
variable {V : Type}

/-- What the threads share. `taken` is the state of `PersistenceLog::m_mutex`. -/
structure Guarded (V : Type) where
  database : RadishDB V
  taken : Bool

/-- A call of the public interface, with what the clock, the disk and the hash table have in store
for it. -/
inductive Request (V : Type) where
  | mutate (fault : Option Fault) (now : Timestamp) (call : RadishDB.Call V)
  | compact (fault : Option Fault) (order : Traversal (Σ _ : Key, RadishEvent V)) (now : Timestamp)
  | get (now : Timestamp) (key : Key)
  | scan (order : Traversal Key) (now : Timestamp)
  | size (now : Timestamp)
  | exists (now : Timestamp) (key : Key)
  | isExpired (now : Timestamp) (key : Key)

inductive Answer (V : Type) where
  | mutated (result : Except Exception Bool)
  | compacted (result : Except Exception Unit)
  | value (value : Option V)
  | keys (keys : List Key)
  | count (count : Nat)
  | found (found : Bool)

/-- The local variables of `Commit`. -/
structure Commit (V : Type) where
  fault : Option Fault
  now : Timestamp
  event : RadishEvent V
  stagedStore : RadishStore V

/-- The statements of the calls. -/
inductive Point (V : Type) where
  | makeEvent (fault : Option Fault) (now : Timestamp) (call : RadishDB.Call V)
  | copyStore (fault : Option Fault) (now : Timestamp) (event : RadishEvent V)
  | applyEvent (commit : Commit V)
  | lockApply (commit : Commit V)
  | apply (commit : Commit V)
  | unlockApply (commit : Commit V) (applied : Except Exception Bool)
  | testApplied (commit : Commit V) (applied : Except Exception Bool)
  | lockAppend (commit : Commit V)
  | append (commit : Commit V)
  | unlockAppend (commit : Commit V) (result : Except Exception Unit)
  | swap (commit : Commit V)
  | compact (fault : Option Fault) (order : Traversal (Σ _ : Key, RadishEvent V)) (now : Timestamp)
  | lockCompact (fault : Option Fault) (order : Traversal (Σ _ : Key, RadishEvent V))
      (now : Timestamp)
  | rewrite (fault : Option Fault) (order : Traversal (Σ _ : Key, RadishEvent V)) (now : Timestamp)
  | unlockCompact (result : Except Exception Unit)
  | get (now : Timestamp) (key : Key)
  | getLive (now : Timestamp) (key : Key)
  | getAt (key : Key)
  | scan (order : Traversal Key) (now : Timestamp)
  | scanRest (now : Timestamp) (rest keys : List Key)
  | size (now : Timestamp)
  | sizeRest (now : Timestamp) (rest : List Key) (count : Nat)
  | exists (now : Timestamp) (key : Key)
  | contains (key : Key)
  | isExpired (now : Timestamp) (key : Key)

def enter : Request V → Point V
  | .mutate fault now call => .makeEvent fault now call
  | .compact fault order now => .compact fault order now
  | .get now key => .get now key
  | .scan order now => .scan order now
  | .size now => .size now
  | .exists now key => .exists now key
  | .isExpired now key => .isExpired now key

/-- The calls that take a `std::shared_lock`. -/
def shared : Request V → Bool
  | .mutate _ _ _ => false
  | .compact _ _ _ => false
  | _ => true

def reading : Point V → Bool
  | .get _ _ => true
  | .getLive _ _ => true
  | .getAt _ => true
  | .scan _ _ => true
  | .scanRest _ _ _ => true
  | .size _ => true
  | .sizeRest _ _ _ => true
  | .exists _ _ => true
  | .contains _ => true
  | .isExpired _ _ => true
  | _ => false

/-- The result of an application of the event, and the store it was applied to. -/
def staged (commit : Commit V) :
    Except Exception (Bool × RadishStore V) → Commit V × Except Exception Bool
  | .error e => (commit, .error e)
  | .ok (applied, stagedStore) => ({ commit with stagedStore }, .ok applied)

variable [BinaryValue V]

/-- One statement. A `lock` waits while the mutex is taken, and so does a statement that uses a log
where there is none. -/
def exec (s : Guarded V) : Point V → Option (Guarded V × (Point V ⊕ Answer V))
  | .makeEvent fault now call =>
    some (s, .inl (.copyStore fault now (call.event now s.database.store)))
  | .copyStore fault now event =>
    let commit := ⟨fault, now, event, s.database.store⟩
    match s.database.persistence with
    | some _ => some (s, .inl (.lockApply commit))
    | none => some (s, .inl (.applyEvent commit))
  | .applyEvent commit =>
    let (commit, applied) :=
      staged commit (RadishDB.applyEvent commit.now commit.stagedStore commit.event)
    some (s, .inl (.testApplied commit applied))
  | .lockApply commit =>
    if s.taken then none else some ({ s with taken := true }, .inl (.apply commit))
  | .apply commit =>
    let (commit, applied) :=
      staged commit (LogWriter.applyEvent commit.now commit.stagedStore commit.event)
    some (s, .inl (.unlockApply commit applied))
  | .unlockApply commit applied =>
    some ({ s with taken := false }, .inl (.testApplied commit applied))
  | .testApplied commit applied =>
    match applied with
    | .error e => some (s, .inr (.mutated (.error e)))
    | .ok false => some (s, .inr (.mutated (.ok false)))
    | .ok true =>
      match s.database.persistence with
      | some _ => some (s, .inl (.lockAppend commit))
      | none => some (s, .inl (.swap commit))
  | .lockAppend commit =>
    if s.taken then none else some ({ s with taken := true }, .inl (.append commit))
  | .append commit =>
    match s.database.persistence with
    | none => none
    | some writer =>
      let (result, writer) := writer.append commit.fault commit.event
      some ({ s with database := { s.database with persistence := some writer } },
        .inl (.unlockAppend commit result))
  | .unlockAppend commit result =>
    match result with
    | .error e => some ({ s with taken := false }, .inr (.mutated (.error e)))
    | .ok () => some ({ s with taken := false }, .inl (.swap commit))
  | .swap commit =>
    some ({ s with
      database := { s.database with store := (s.database.store.swap commit.stagedStore).1 } },
      .inr (.mutated (.ok true)))
  | .compact fault order now =>
    match s.database.persistence with
    | some _ => some (s, .inl (.lockCompact fault order now))
    | none => some (s, .inr (.compacted (.ok ())))
  | .lockCompact fault order now =>
    if s.taken then none else some ({ s with taken := true }, .inl (.rewrite fault order now))
  | .rewrite fault order now =>
    match s.database.persistence with
    | none => none
    | some writer =>
      let (result, writer) := writer.compact fault order now
      some ({ s with database := { s.database with persistence := some writer } },
        .inl (.unlockCompact result))
  | .unlockCompact result => some ({ s with taken := false }, .inr (.compacted result))
  | .get now key =>
    if (s.database.store.data.lookup key).isSome then some (s, .inl (.getLive now key))
    else some (s, .inr (.value none))
  | .getLive now key =>
    if s.database.store.isExpired now key then some (s, .inr (.value none))
    else some (s, .inl (.getAt key))
  | .getAt key => some (s, .inr (.value (s.database.store.data.lookup key)))
  | .scan order now =>
    some (s, .inl (.scanRest now (order.visit s.database.store.data.keys) []))
  | .scanRest now rest keys =>
    match rest with
    | [] => some (s, .inr (.keys keys))
    | key :: rest =>
      if s.database.store.isExpired now key then some (s, .inl (.scanRest now rest keys))
      else some (s, .inl (.scanRest now rest (keys ++ [key])))
  | .size now => some (s, .inl (.sizeRest now s.database.store.data.keys 0))
  | .sizeRest now rest count =>
    match rest with
    | [] => some (s, .inr (.count count))
    | key :: rest =>
      if s.database.store.isExpired now key then some (s, .inl (.sizeRest now rest count))
      else some (s, .inl (.sizeRest now rest (count + 1)))
  | .exists now key =>
    if s.database.store.isExpired now key then some (s, .inr (.found false))
    else some (s, .inl (.contains key))
  | .contains key => some (s, .inr (.found (s.database.store.data.lookup key).isSome))
  | .isExpired now key => some (s, .inr (.found (s.database.store.isExpired now key)))

/-- The calls that share the lock change nothing, and go on to statements that change nothing. -/
theorem reading_exec {s s' : Guarded V} {p : Point V} {next : Point V ⊕ Answer V}
    (hp : reading p = true) (h : exec s p = some (s', next)) :
    s' = s ∧ ∀ p', next = .inl p' → reading p' = true := by
  cases p with
  | get now key =>
    simp only [exec] at h
    split at h <;> cases h <;> exact ⟨rfl, by simp [reading]⟩
  | getLive now key =>
    simp only [exec] at h
    split at h <;> cases h <;> exact ⟨rfl, by simp [reading]⟩
  | scanRest now rest keys =>
    cases rest with
    | nil =>
      cases h
      exact ⟨rfl, by simp⟩
    | cons key rest =>
      simp only [exec] at h
      split at h <;> cases h <;> exact ⟨rfl, by simp [reading]⟩
  | sizeRest now rest count =>
    cases rest with
    | nil =>
      cases h
      exact ⟨rfl, by simp⟩
    | cons key rest =>
      simp only [exec] at h
      split at h <;> cases h <;> exact ⟨rfl, by simp [reading]⟩
  | «exists» now key =>
    simp only [exec] at h
    split at h <;> cases h <;> exact ⟨rfl, by simp [reading]⟩
  | getAt key =>
    cases h
    exact ⟨rfl, by simp⟩
  | scan order now =>
    cases h
    exact ⟨rfl, by simp [reading]⟩
  | size now =>
    cases h
    exact ⟨rfl, by simp [reading]⟩
  | contains key =>
    cases h
    exact ⟨rfl, by simp⟩
  | isExpired now key =>
    cases h
    exact ⟨rfl, by simp⟩
  | _ => cases hp

variable (V) in
/-- `RadishDB` as its threads see it. -/
def object : Object (Guarded V) (Request V) (Point V) (Answer V) where
  shared := shared
  enter := enter
  exec := exec
  reading := reading
  reading_enter := by
    intro call h
    cases call <;> first | rfl | cases h
  reading_exec := reading_exec

/-- What a call does, made alone. -/
def meaning : Request V → RadishDB V → Answer V × RadishDB V
  | .mutate fault now call, database =>
    let (result, database) := database.call fault now call
    (.mutated result, database)
  | .compact fault order now, database =>
    let (result, database) := database.compact fault order now
    (.compacted result, database)
  | .get now key, database => (.value (database.get now key), database)
  | .scan order now, database => (.keys (database.scan order now), database)
  | .size now, database => (.count (database.size now), database)
  | .exists now key, database => (.found (database.exists now key), database)
  | .isExpired now key, database => (.found (database.isExpired now key), database)

/-- Between the calls that use the log nobody holds its mutex. -/
def embed (database : RadishDB V) : Guarded V := ⟨database, false⟩

/-! ## Each call alone -/

/-- `Commit` from its test of `applied` on. -/
def commitApplied (database : RadishDB V) (commit : Commit V) :
    Except Exception Bool → Except Exception Bool × RadishDB V
  | .error e => (.error e, database)
  | .ok false => (.ok false, database)
  | .ok true =>
    match database.persistence with
    | none => (.ok true, { database with store := commit.stagedStore })
    | some writer =>
      match writer.append commit.fault commit.event with
      | (.error e, writer) => (.error e, { database with persistence := some writer })
      | (.ok (), writer) => (.ok true, ⟨commit.stagedStore, some writer⟩)

theorem commit_eq (fault : Option Fault) (now : Timestamp) (database : RadishDB V)
    (event : RadishEvent V) :
    database.commit fault now event =
      let (commit, applied) := staged ⟨fault, now, event, database.store⟩
        (LogWriter.applyEvent now database.store event)
      commitApplied database commit applied := by
  obtain ⟨store, persistence⟩ := database
  cases persistence with
  | none =>
    simp only [RadishDB.commit, RadishDB.applyEvent_eq]
    rcases LogWriter.applyEvent now store event with e | ⟨applied, stagedStore⟩
    · rfl
    · cases applied <;> rfl
  | some writer =>
    simp only [RadishDB.commit]
    rcases LogWriter.applyEvent now store event with e | ⟨applied, stagedStore⟩
    · rfl
    · cases applied <;> rfl

theorem takes_testApplied (database : RadishDB V) (commit : Commit V)
    (applied : Except Exception Bool) :
    ∃ n, (object V).Takes (embed database) (.testApplied commit applied) n
      (.mutated (commitApplied database commit applied).1)
      (embed (commitApplied database commit applied).2) := by
  obtain ⟨store, persistence⟩ := database
  cases applied with
  | error e => exact ⟨1, .last rfl⟩
  | ok applied =>
    cases applied with
    | false => exact ⟨1, .last rfl⟩
    | true =>
      cases persistence with
      | none => exact ⟨2, .next rfl (.last rfl)⟩
      | some writer =>
        rcases happend : writer.append commit.fault commit.event with ⟨result, writer'⟩
        have hexec : exec ⟨⟨store, some writer⟩, true⟩ (.append commit) =
            some (⟨⟨store, some writer'⟩, true⟩, .inl (.unlockAppend commit result)) := by
          simp only [exec, happend]
        cases result with
        | error e =>
          have hend : commitApplied ⟨store, some writer⟩ commit (.ok true) =
              (.error e, ⟨store, some writer'⟩) := by
            simp only [commitApplied, happend]
          rw [hend]
          exact ⟨4, .next rfl (.next rfl (.next hexec (.last rfl)))⟩
        | ok =>
          have hend : commitApplied ⟨store, some writer⟩ commit (.ok true) =
              (.ok true, ⟨commit.stagedStore, some writer'⟩) := by
            simp only [commitApplied, happend]
          rw [hend]
          exact ⟨5, .next rfl (.next rfl (.next hexec (.next rfl (.last rfl))))⟩

theorem takes_copyStore (fault : Option Fault) (now : Timestamp) (database : RadishDB V)
    (event : RadishEvent V) :
    ∃ n, (object V).Takes (embed database) (.copyStore fault now event) n
      (.mutated (database.commit fault now event).1)
      (embed (database.commit fault now event).2) := by
  rw [commit_eq]
  obtain ⟨n, htail⟩ := takes_testApplied database
    (staged ⟨fault, now, event, database.store⟩
      (LogWriter.applyEvent now database.store event)).1
    (staged ⟨fault, now, event, database.store⟩
      (LogWriter.applyEvent now database.store event)).2
  obtain ⟨store, persistence⟩ := database
  cases persistence with
  | none => exact ⟨n + 2, .next rfl (.next rfl htail)⟩
  | some writer => exact ⟨n + 4, .next rfl (.next rfl (.next rfl (.next rfl htail)))⟩

theorem takes_compact (fault : Option Fault) (order : Traversal (Σ _ : Key, RadishEvent V))
    (now : Timestamp) (database : RadishDB V) :
    ∃ n, (object V).Takes (embed database) (.compact fault order now) n
      (.compacted (database.compact fault order now).1)
      (embed (database.compact fault order now).2) := by
  obtain ⟨store, persistence⟩ := database
  cases persistence with
  | none => exact ⟨1, .last rfl⟩
  | some writer => exact ⟨4, .next rfl (.next rfl (.next rfl (.last rfl)))⟩

theorem takes_scanRest (s : Guarded V) (now : Timestamp) (rest keys : List Key) :
    (object V).Takes s (.scanRest now rest keys) (rest.length + 1)
      (.keys (keys ++ rest.filter fun key => !s.database.store.isExpired now key)) s := by
  induction rest generalizing keys with
  | nil =>
    rw [List.filter_nil, List.append_nil]
    exact .last rfl
  | cons key rest ih =>
    by_cases hexpired : s.database.store.isExpired now key = true
    · rw [List.filter_cons_of_neg (by simp [hexpired])]
      exact .next (if_pos hexpired) (ih keys)
    · rw [List.filter_cons_of_pos (by simp [hexpired]), List.append_cons]
      exact .next (if_neg hexpired) (ih (keys ++ [key]))

theorem takes_sizeRest (s : Guarded V) (now : Timestamp) (rest : List Key) (count : Nat) :
    (object V).Takes s (.sizeRest now rest count) (rest.length + 1)
      (.count (count + rest.countP fun key => !s.database.store.isExpired now key)) s := by
  induction rest generalizing count with
  | nil =>
    rw [List.countP_nil, Nat.add_zero]
    exact .last rfl
  | cons key rest ih =>
    by_cases hexpired : s.database.store.isExpired now key = true
    · rw [List.countP_cons_of_neg (by simp [hexpired])]
      exact .next (if_pos hexpired) (ih count)
    · rw [List.countP_cons_of_pos (by simp [hexpired]), ← Nat.add_assoc, Nat.add_right_comm]
      exact .next (if_neg hexpired) (ih (count + 1))

theorem takes_get (now : Timestamp) (key : Key) (database : RadishDB V) :
    ∃ n, (object V).Takes (embed database) (.get now key) n (.value (database.get now key))
      (embed database) := by
  rw [RadishDB.get, RadishStore.get]
  cases hlookup : database.store.data.lookup key with
  | none => exact ⟨1, .last (if_neg (by simp [embed, hlookup]))⟩
  | some value =>
    have hfound : exec (embed database) (.get now key) =
        some (embed database, .inl (.getLive now key)) := if_pos (by simp [embed, hlookup])
    dsimp only
    split
    · rename_i hexpired
      exact ⟨2, .next hfound (.last (if_pos hexpired))⟩
    · rename_i hlive
      rw [← hlookup]
      exact ⟨3, .next hfound (.next (if_neg hlive) (.last rfl))⟩

theorem takes_exists (now : Timestamp) (key : Key) (database : RadishDB V) :
    ∃ n, (object V).Takes (embed database) (.exists now key) n
      (.found (database.exists now key)) (embed database) := by
  rw [RadishDB.exists, RadishStore.exists]
  split
  · rename_i hexpired
    exact ⟨1, .last (if_pos hexpired)⟩
  · rename_i hlive
    exact ⟨2, .next (if_neg hlive) (.last rfl)⟩

theorem object_implements : (object V).Implements embed meaning := by
  intro call database
  cases call with
  | mutate fault now call =>
    obtain ⟨n, htail⟩ := takes_copyStore fault now database (call.event now database.store)
    rw [meaning, RadishDB.call_eq_commit_event]
    exact ⟨n + 1, .next rfl htail⟩
  | compact fault order now => exact takes_compact fault order now database
  | get now key => exact takes_get now key database
  | scan order now =>
    have hloop := takes_scanRest (embed database) now (order.visit database.store.data.keys) []
    exact ⟨_, .next rfl hloop⟩
  | size now =>
    have hloop := takes_sizeRest (embed database) now database.store.data.keys 0
    rw [Nat.zero_add] at hloop
    exact ⟨_, .next rfl hloop⟩
  | «exists» now key => exact takes_exists now key database
  | isExpired now key => exact ⟨1, .last rfl⟩

/-! ## All calls together -/

variable {T : Type} [DecidableEq T]

/-- A thread that has created a key while another one waits to read it. -/
def creatingWhileReading :
    Machine Bool (Guarded Bytes) (Request Bytes) (Point Bytes) (Answer Bytes) where
  state := ⟨(RadishDB.fresh "radish" (-1)), false⟩
  readers := ∅
  writer := some true
  status := Function.update
    (Function.update (Function.update (fun _ => .idle) true (.waiting (.mutate none 0 (.create [107] [118]))))
      false (.waiting (.get 0 [107]))) true
    (.inside (.mutate none 0 (.create [107] [118])) (.makeEvent none 0 (.create [107] [118])))

theorem run_creatingWhileReading :
    Run (Step (object Bytes)) (start (embed (RadishDB.fresh "radish" (-1))))
      [.invoked true (.mutate none 0 (.create [107] [118])), .invoked false (.get 0 [107])]
      creatingWhileReading := by
  have hwaiting : Run (Step (object Bytes)) (start (embed (RadishDB.fresh "radish" (-1)))) _ _ :=
    .visible (.visible .refl (.invoke (t := true) (.mutate none 0 (.create [107] [118])) rfl))
      (.invoke (t := false) (.get 0 [107]) rfl)
  exact .internal hwaiting (.lock rfl rfl rfl rfl)

/-- Without new calls the threads come to rest, whatever the schedule; and they rest only when
every call has returned. No order in which they take the two mutexes leaves them waiting. -/
theorem calls_return [Fintype T] {database : RadishDB V}
    {es : List (Event T (Request V) (Answer V))}
    {m : Machine T (Guarded V) (Request V) (Point V) (Answer V)}
    (hrun : Run (Step (object V)) (start (embed database)) es m) :
    Acc (fun m₂ m₁ => Moves (object V) m₁ m₂) m ∧
      ((∀ m', ¬ Moves (object V) m m') → ∀ t, m.status t = .idle) := by
  obtain ⟨a, _, hrefines⟩ := refines_run object_implements hrun
  refine ⟨hrefines.acc object_implements, ?_⟩
  intro hstuck t
  by_contra hbusy
  obtain ⟨m', hmoves⟩ := hrefines.moves_of_busy object_implements hbusy
  exact hstuck m' hmoves

theorem calls_return_creatingWhileReading :
    Acc (fun m₂ m₁ => Moves (object Bytes) m₁ m₂) creatingWhileReading ∧
      ((∀ m', ¬ Moves (object Bytes) creatingWhileReading m') →
        ∀ t, creatingWhileReading.status t = .idle) :=
  calls_return run_creatingWhileReading

end ConcurrentDB

end Radish
