import Radish.CallHistory
import Radish.Handlers

/-!
# Commands that change nothing

A command that is answered with an error has changed neither the database nor the session, and
neither has a command that only reads. An expired entry which a read meets stays where it is.
-/

namespace Radish
set_option autoImplicit false

namespace RadishDB
variable {V : Type} [BinaryValue V]

/-- A commit that reports no effect has neither replaced the store nor written to the log. -/
theorem commit_refused {fault : Option Fault} {now : Timestamp} {db db' : RadishDB V}
    {m : Mutation V} (h : db.commit fault now m.toEvent = (.ok false, db')) : db' = db := by
  cases heffective : (db.store.apply now m).1 with
  | false =>
    rw [commit_of_idle heffective] at h
    cases h
    rfl
  | true =>
    have hfound := (commit_ok h).1
    rw [heffective] at hfound
    cases hfound

end RadishDB

namespace Session
open Postcondition RespCodec

/-- The store, the files behind it and the session's protocol version are as before. -/
structure Unchanged (s s' : Service) : Prop where
  store : s'.database.store = s.database.store
  persistence : s'.database.persistence = s.database.persistence
  version : s'.version = s.version

theorem Unchanged.refl (s : Service) : Unchanged s s := ⟨rfl, rfl, rfl⟩

theorem Unchanged.trans {s t u : Service} (h : Unchanged s t) (h' : Unchanged t u) :
    Unchanged s u :=
  ⟨h'.store.trans h.store, h'.persistence.trans h.persistence, h'.version.trans h.version⟩

/-- Counting the calls changes nothing. -/
theorem unchanged_calls (s : Service) (calls : Nat) : Unchanged s { s with calls } :=
  ⟨rfl, rfl, rfl⟩

/-- A handler after which nothing has changed. -/
def ReadOnly (handler : CommandHandler) : Prop :=
  ∀ env command name s, Ensures (handler env command name) s fun _ s' => Unchanged s s'

/-- A handler after which nothing has changed if it replies with an error. -/
def RefusesCleanly (handler : CommandHandler) : Prop :=
  ∀ env command name s, Ensures (handler env command name) s fun result s' =>
    result.1.head? = some (byte '-') → Unchanged s s'

theorem ReadOnly.refusesCleanly {handler : CommandHandler} (h : ReadOnly handler) :
    RefusesCleanly handler := by
  intro env command name s
  refine (h env command name s).mono ?_
  intro result s' hunchanged _
  exact hunchanged

/-! ## The handlers that read -/

theorem countKeys_unchanged {call : Key → Handling Bool}
    (h : ∀ key s, Ensures (call key) s fun _ s' => Unchanged s s') (keys : List Key) (s : Service) :
    Ensures (countKeys call keys) s fun _ s' => Unchanged s s' := by
  induction keys generalizing s with
  | nil =>
    rw [countKeys, ensures_pure]
    exact .refl s
  | cons key keys ih =>
    simp only [countKeys, ensures_bind, ensures_pure]
    refine (h key s).mono ?_
    intro found t hfirst
    refine (ih t).mono ?_
    intro later s' hlater
    exact hfirst.trans hlater

theorem handlePing_readOnly : ReadOnly handlePing := by
  intro env command name s
  unfold handlePing
  split
  · exact ensures_pure.mpr (.refl s)
  · simp only [ensures_bind, ensures_get, ensures_pure]
    exact .refl s
  · exact ensures_pure.mpr (.refl s)

theorem handleGet_readOnly : ReadOnly handleGet := by
  intro env command name s
  unfold handleGet
  split
  · simp only [ensures_bind, ensures_inspect, ensures_get, ensures_pure]
    exact unchanged_calls s _
  · exact ensures_pure.mpr (.refl s)

theorem handleExists_readOnly : ReadOnly handleExists := by
  intro env command name s
  unfold handleExists
  split
  · simp only [ensures_bind, ensures_pure]
    apply countKeys_unchanged
    intro key t
    exact ensures_inspect.mpr (unchanged_calls t _)
  · exact ensures_pure.mpr (.refl s)

theorem handleKeys_readOnly : ReadOnly handleKeys := by
  intro env command name s
  unfold handleKeys
  split
  · simp only [ensures_ite, ensures_bind, ensures_inspect, ensures_get, ensures_pure]
    exact ⟨fun _ => .refl s, fun _ => unchanged_calls s _⟩
  · exact ensures_pure.mpr (.refl s)

theorem handleDatabaseSize_readOnly : ReadOnly handleDatabaseSize := by
  intro env command name s
  unfold handleDatabaseSize
  split
  · simp only [ensures_bind, ensures_inspect, ensures_pure]
    exact unchanged_calls s _
  · exact ensures_pure.mpr (.refl s)

theorem handleQuit_readOnly : ReadOnly handleQuit := by
  intro env command name s
  unfold handleQuit
  split <;> exact ensures_pure.mpr (.refl s)

/-! ## The handlers that write -/

/-- Only errors start with `-`. -/
theorem not_error_of_head {s s' : Service} {response : Bytes}
    (hfront : response.head? ≠ some (byte '-')) :
    response.head? = some (byte '-') → Unchanged s s' :=
  fun herror => absurd herror hfront

theorem handleHello_refusesCleanly : RefusesCleanly handleHello := by
  intro env command name s
  unfold handleHello
  split
  · simp only [ensures_ite, ensures_setVersion, ensures_pure]
    exact ⟨fun _ => not_error_of_head (head_of_hello _), fun _ =>
      ⟨fun _ => not_error_of_head (head_of_hello _), fun _ _ => .refl s⟩⟩
  · exact ensures_pure.mpr fun _ => .refl s

theorem handleSet_refusesCleanly : RefusesCleanly handleSet := by
  intro env command name s
  unfold handleSet
  split
  · simp only [ensures_bind, ensures_commit, ensures_pure]
    intro _ database _
    exact not_error_of_head (head_of_simpleString _)
  · exact ensures_pure.mpr fun _ => .refl s

theorem handleDelete_refusesCleanly : RefusesCleanly handleDelete := by
  intro env command name s
  unfold handleDelete
  split
  · rw [ensures_bind]
    intro deleted t _
    exact ensures_pure.mpr (not_error_of_head (head_of_integer _))
  · exact ensures_pure.mpr fun _ => .refl s

/-- A rename that finds no key has staged nothing. -/
theorem handleRename_refusesCleanly : RefusesCleanly handleRename := by
  intro env command name s
  unfold handleRename
  split
  · simp only [ensures_bind, ensures_commit, ensures_ite, ensures_pure]
    intro renamed database hrename
    constructor
    · intro _
      exact not_error_of_head (head_of_simpleString _)
    · intro hnot _
      rw [Bool.eq_false_of_not_eq_true hnot] at hrename
      have hsame : database = s.database := RadishDB.commit_refused (m := .rename (-1) _ _) hrename
      rw [hsame]
      exact unchanged_calls s _
  · exact ensures_pure.mpr fun _ => .refl s

theorem handleFlushDatabase_refusesCleanly : RefusesCleanly handleFlushDatabase := by
  intro env command name s
  unfold handleFlushDatabase
  split
  · simp only [ensures_bind, ensures_commit, ensures_pure]
    intro _ database _
    exact not_error_of_head (head_of_simpleString _)
  · exact ensures_pure.mpr fun _ => .refl s

/-! ## The table -/

theorem commandHandlers_refuseCleanly {name : Bytes} {handler : CommandHandler}
    (h : commandHandlers.lookup name = some handler) : RefusesCleanly handler := by
  apply of_lookup_commandHandlers (P := fun _ handler => RefusesCleanly handler) _ h
  simp only [commandHandlers, List.forall_mem_cons]
  exact ⟨handleHello_refusesCleanly, handlePing_readOnly.refusesCleanly,
    handleGet_readOnly.refusesCleanly, handleSet_refusesCleanly, handleDelete_refusesCleanly,
    handleRename_refusesCleanly, handleExists_readOnly.refusesCleanly,
    handleKeys_readOnly.refusesCleanly, handleDatabaseSize_readOnly.refusesCleanly,
    handleFlushDatabase_refusesCleanly, handleQuit_readOnly.refusesCleanly, List.forall_mem_nil _⟩

/-- The commands that read. -/
def readCommands : List Bytes :=
  [ascii "PING", ascii "GET", ascii "EXISTS", ascii "KEYS", ascii "DBSIZE"]

theorem readCommands_readOnly {name : Bytes} (h : name ∈ readCommands) :
    ∃ handler, commandHandlers.lookup name = some handler ∧ ReadOnly handler := by
  simp only [readCommands, List.mem_cons, List.not_mem_nil, or_false] at h
  obtain rfl | rfl | rfl | rfl | rfl := h
  · exact ⟨handlePing, rfl, handlePing_readOnly⟩
  · exact ⟨handleGet, rfl, handleGet_readOnly⟩
  · exact ⟨handleExists, rfl, handleExists_readOnly⟩
  · exact ⟨handleKeys, rfl, handleKeys_readOnly⟩
  · exact ⟨handleDatabaseSize, rfl, handleDatabaseSize_readOnly⟩

/-- A command that reads, or that is answered with an error, changes nothing. -/
theorem reads_and_refusals_change_nothing {env : Environment} {command : RespCommand}
    {s s' : Service} {response : Bytes} {close : Bool}
    (hreply : dispatch env command s = (.ok (response, close), s'))
    (h : response.head? = some (byte '-') ∨
      uppercase (command.arguments.headD []) ∈ readCommands) : Unchanged s s' := by
  obtain herror | hread := h
  · cases hlookup : commandHandlers.lookup (uppercase (command.arguments.headD [])) with
    | none =>
      rw [dispatch_of_unknown hlookup] at hreply
      cases hreply
      exact .refl s
    | some handler =>
      rw [dispatch_of_lookup hlookup] at hreply
      exact commandHandlers_refuseCleanly hlookup env command _ s _ _ hreply herror
  · obtain ⟨handler, hlookup, hreadOnly⟩ := readCommands_readOnly hread
    rw [dispatch_of_lookup hlookup] at hreply
    exact hreadOnly env command _ s _ _ hreply

theorem rename_of_missing_key_changes_nothing :
    ∃ response s', dispatch ⟨fun _ => 5, fun _ => none, fun _ => .listed⟩
        ⟨[ascii "Rename", [107], [108]]⟩ ⟨.resp3, .fresh "radish" 10, 0⟩ =
          (.ok (response, false), s') ∧
      response = RespCodec.error (ascii "no such key") ∧
      Unchanged ⟨.resp3, .fresh "radish" 10, 0⟩ s' := by
  obtain ⟨s', hreply⟩ : ∃ s', dispatch ⟨fun _ => 5, fun _ => none, fun _ => .listed⟩
      ⟨[ascii "Rename", [107], [108]]⟩ ⟨.resp3, .fresh "radish" 10, 0⟩ =
        (.ok (RespCodec.error (ascii "no such key"), false), s') := ⟨_, rfl⟩
  have herror := head_of_error (ascii "no such key")
  exact ⟨_, s', hreply, rfl, reads_and_refusals_change_nothing hreply (Or.inl herror)⟩

end Session

end Radish
