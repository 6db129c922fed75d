import Radish.Library.Postcondition
import Radish.TcpServer
import Radish.RespReply

/-!
# What the command handlers return

A handler that returns is a sequence of database calls that return. Its reply is a tree the client
can read, in the protocol version of the session, and it closes the session only for `QUIT` without
arguments.
-/

namespace Radish.Session
set_option autoImplicit false

open Postcondition RespCodec

section Ensures
variable {α : Type} {s : Service} {Q : α → Service → Prop}

@[simp] theorem ensures_inspect {env : Environment}
    {call : Traversal Key → Timestamp → RadishDB Bytes → α} :
    Ensures (inspect env call) s Q ↔
      Q (call (env.order s.calls) (env.now s.calls) s.database)
        { s with calls := s.calls + 1 } := by
  constructor
  · exact fun h => h _ _ rfl
  · intro h a s' hrun
    cases hrun
    exact h

@[simp] theorem ensures_commit {env : Environment}
    {call : Option Fault → Timestamp → RadishDB Bytes → Except Exception α × RadishDB Bytes} :
    Ensures (commit env call) s Q ↔
      ∀ a database, call (env.fault s.calls) (env.now s.calls) s.database = (.ok a, database) →
        Q a { s with database, calls := s.calls + 1 } := by
  have hcommit : ∀ result database,
      call (env.fault s.calls) (env.now s.calls) s.database = (result, database) →
        commit env call s = (result, { s with database, calls := s.calls + 1 }) := by
    intro result database h
    rw [commit, h]
  constructor
  · exact fun h a database hcall => h _ _ (hcommit _ _ hcall)
  · intro h a s' hrun
    rcases hcall : call (env.fault s.calls) (env.now s.calls) s.database with ⟨result, database⟩
    rw [hcommit _ _ hcall] at hrun
    cases hrun
    exact h a database hcall

@[simp] theorem ensures_setVersion {version : RespVersion}
    {Q : CommandResult → Service → Prop} :
    Ensures (setVersion version) s Q ↔
      Q (RespCodec.hello version, false) { s with version } := by
  constructor
  · exact fun h => h _ _ rfl
  · intro h a s' hrun
    cases hrun
    exact h

end Ensures

section Answers
variable {command : RespCommand} {s s' : Service} {version : RespVersion}

/-- A database whose keys and values have sizes a `long long` can tell. -/
structure Representable (database : RadishDB Bytes) : Prop where
  keys : database.store.data.keys.length < 2 ^ 63
  key : ∀ key ∈ database.store.data.keys, key.length < 2 ^ 63
  value : ∀ key value, database.store.data.lookup key = some value → value.length < 2 ^ 63

/-- The types of the second version of the protocol. -/
def resp2Types : List UInt8 := [byte '+', byte '-', byte ':', byte '$', byte '*']

/-- The reply to a command: a tree of the version the session then has. -/
structure Answered (command : RespCommand) (s s' : Service) (response : Bytes) (reply : Reply) :
    Prop where
  bytes : response = reply.encode
  readable : (∀ argument ∈ command.arguments, argument.length < 2 ^ 63) →
    Representable s.database → reply.Readable 33
  fails : reply.succeeds = false ↔ ∃ message, response = RespCodec.error message
  types : s'.version = .resp2 → ∀ b ∈ reply.types, b ∈ resp2Types

theorem head_of_error (message : Bytes) : (RespCodec.error message).head? = some (byte '-') := rfl

theorem head_of_simpleString (value : Bytes) :
    (simpleString value).head? ≠ some (byte '-') := by
  simp [simpleString, byte]

theorem head_of_integer (value : Int) : (integer value).head? ≠ some (byte '-') := by
  simp [integer, byte]

theorem head_of_hello (version : RespVersion) : (hello version).head? ≠ some (byte '-') := by
  cases version <;> decide

theorem answered_of_succeeds {response : Bytes} {reply : Reply} (bytes : response = reply.encode)
    (readable : (∀ argument ∈ command.arguments, argument.length < 2 ^ 63) →
      Representable s.database → reply.Readable 33)
    (succeeds : reply.succeeds = true) (front : response.head? ≠ some (byte '-'))
    (types : s'.version = .resp2 → ∀ b ∈ reply.types, b ∈ resp2Types) :
    Answered command s s' response reply where
  bytes := bytes
  readable := readable
  fails := by
    constructor
    · intro hfails
      rw [succeeds] at hfails
      cases hfails
    · intro hmessage
      obtain ⟨message, rfl⟩ := hmessage
      exact absurd (head_of_error message) front
  types := types

theorem answered_simple (value : Bytes) :
    Answered command s s' (simpleString value) (.simple (sanitizeSimpleValue value)) := by
  apply answered_of_succeeds (simpleString_eq value)
  · exact fun _ _ => .simple (isText_sanitize value)
  · rfl
  · exact head_of_simpleString value
  · simp [Reply.types, resp2Types]

theorem answered_error (message : Bytes) :
    Answered command s s' (RespCodec.error message)
      (.error (ascii "ERR " ++ sanitizeSimpleValue message)) where
  bytes := error_eq message
  readable _ _ := .error (isText_append (by constructor <;> decide) (isText_sanitize message))
  fails := ⟨fun _ => ⟨message, rfl⟩, fun _ => rfl⟩
  types := by simp [Reply.types, resp2Types]

theorem answered_integer (value : Int) :
    Answered command s s' (integer value) (.integer value) := by
  apply answered_of_succeeds (integer_eq value)
  · exact fun _ _ => .integer value
  · rfl
  · exact head_of_integer value
  · simp [Reply.types, resp2Types]

/-- A bulk string, or the null of the session's version. -/
theorem answered_bulk (hversion : s'.version = version) (value : Option Bytes)
    (hvalue : (∀ argument ∈ command.arguments, argument.length < 2 ^ 63) →
      Representable s.database → ∀ bytes, value = some bytes → bytes.length < 2 ^ 63) :
    Answered command s s' (bulkString value version) (bulkReply value version) := by
  apply answered_of_succeeds (bulkString_eq value version)
  · intro harguments hdatabase
    obtain _ | bytes := value
    · cases version
      · exact .nullBulk
      · exact .null
    · exact .bulk (hvalue harguments hdatabase bytes rfl)
  · obtain _ | bytes := value
    · cases version <;> rfl
    · rfl
  · obtain _ | bytes := value
    · cases version <;> decide
    · simp [bulkString, bulk, byte]
  · intro hresp2
    rw [← hversion, hresp2]
    obtain _ | bytes := value <;> simp [bulkReply, Reply.types, resp2Types]

theorem readable_map_bulk {levels : Nat} {values : List Bytes}
    (h : ∀ value ∈ values, value.length < 2 ^ 63) :
    ∀ item ∈ values.map Reply.bulk, item.Readable (levels + 1) := by
  intro item hitem
  obtain ⟨value, hvalue, rfl⟩ := List.mem_map.mp hitem
  exact .bulk (h value hvalue)

theorem types_array_of_bulks (values : List Bytes) :
    ∀ b ∈ (Reply.array (values.map .bulk)).types, b ∈ resp2Types := by
  intro b hb
  rw [Reply.types, Reply.typesAll_eq, List.flatMap_map, List.mem_cons, List.mem_flatMap] at hb
  obtain rfl | ⟨value, -, hb⟩ := hb
  · simp [resp2Types]
  · rw [Reply.types, List.mem_singleton] at hb
    simp [hb, resp2Types]

/-- An array of bulk strings. -/
theorem answered_array (values : List Bytes) (version : RespVersion)
    (hvalues : Representable s.database →
      values.length < 2 ^ 63 ∧ ∀ value ∈ values, value.length < 2 ^ 63) :
    Answered command s s' (array values version) (.array (values.map .bulk)) := by
  apply answered_of_succeeds (array_eq values version)
  · intro _ hdatabase
    obtain ⟨hcount, hsizes⟩ := hvalues hdatabase
    apply Reply.Readable.array
    · rw [List.length_map]
      exact hcount
    · exact readable_map_bulk hsizes
  · rw [Reply.succeeds, Reply.succeedsAll_eq, List.all_map]
    exact List.all_eq_true.mpr fun _ _ => rfl
  · simp [array, byte]
  · exact fun _ => types_array_of_bulks values

theorem readable_helloReply (version : RespVersion) : (helloReply version).Readable 33 := by
  cases version with
  | resp2 => exact .array (by decide) (readable_map_bulk (by decide))
  | resp3 =>
    apply Reply.Readable.map (by decide) (by decide)
    intro item hitem
    obtain hitem | hitem := List.mem_append.mp hitem
    · exact readable_map_bulk (by decide) item hitem
    · obtain rfl | rfl := List.mem_pair.mp hitem
      · exact .bulk (by decide)
      · exact .array (by decide) (by simp)

/-- The reply to `HELLO`: a map in the third version of the protocol. -/
theorem answered_hello (hversion : s'.version = version) :
    Answered command s s' (hello version) (helloReply version) := by
  apply answered_of_succeeds (hello_eq version)
  · exact fun _ _ => readable_helloReply version
  · cases version <;> rfl
  · exact head_of_hello version
  · intro hresp2
    rw [← hversion, hresp2]
    exact types_array_of_bulks _

/-- What a handler returns closes the session as stated, and answers the command. -/
def Answers (handler : CommandHandler) (closes : RespCommand → Prop) : Prop :=
  ∀ env command name s, Ensures (handler env command name) s fun result s' =>
    (result.2 = true ↔ closes command) ∧ ∃ reply, Answered command s s' result.1 reply

/-- A handler that leaves the session open. -/
def StaysOpen (_ : RespCommand) : Prop := False

theorem open_answered {response : Bytes} {reply : Reply}
    (h : Answered command s s' response reply) :
    ((response, false).2 = true ↔ StaysOpen command) ∧
      ∃ reply, Answered command s s' (response, false).1 reply :=
  ⟨iff_of_false Bool.false_ne_true id, reply, h⟩

theorem wrongArity_answered (name : Bytes) :
    ((wrongArity name).2 = true ↔ StaysOpen command) ∧
      ∃ reply, Answered command s s' (wrongArity name).1 reply :=
  open_answered (answered_error _)

theorem handleHello_answers : Answers handleHello StaysOpen := by
  intro env command name s
  unfold handleHello
  split
  · simp only [ensures_ite, ensures_setVersion, ensures_pure]
    exact ⟨fun _ => open_answered (answered_hello rfl), fun _ =>
      ⟨fun _ => open_answered (answered_hello rfl), fun _ => open_answered (answered_error _)⟩⟩
  · exact ensures_pure.mpr (wrongArity_answered name)

theorem handlePing_answers : Answers handlePing StaysOpen := by
  intro env command name s
  unfold handlePing
  split
  · exact ensures_pure.mpr (open_answered (answered_simple _))
  · rename_i value hcommand
    simp only [ensures_bind, ensures_get, ensures_pure]
    refine open_answered (answered_bulk rfl (some value) ?_)
    intro harguments _ bytes hbytes
    obtain rfl := Option.some.inj hbytes
    exact harguments value (by simp [hcommand])
  · exact ensures_pure.mpr (wrongArity_answered name)

theorem handleGet_answers : Answers handleGet StaysOpen := by
  intro env command name s
  unfold handleGet
  split
  · simp only [ensures_bind, ensures_inspect, ensures_get, ensures_pure]
    apply open_answered (answered_bulk rfl _ _)
    intro _ hdatabase bytes hget
    exact hdatabase.value _ bytes (RadishStore.lookup_of_get hget)
  · exact ensures_pure.mpr (wrongArity_answered name)

theorem handleSet_answers : Answers handleSet StaysOpen := by
  intro env command name s
  unfold handleSet
  split
  · simp only [ensures_bind, ensures_commit, ensures_pure]
    exact fun _ _ _ => open_answered (answered_simple _)
  · exact ensures_pure.mpr (wrongArity_answered name)

theorem handleDelete_answers : Answers handleDelete StaysOpen := by
  intro env command name s
  unfold handleDelete
  split
  · rw [ensures_bind]
    intro deleted t _
    exact ensures_pure.mpr (open_answered (answered_integer _))
  · exact ensures_pure.mpr (wrongArity_answered name)

theorem handleRename_answers : Answers handleRename StaysOpen := by
  intro env command name s
  unfold handleRename
  split
  · simp only [ensures_bind, ensures_commit, ensures_ite, ensures_pure]
    exact fun _ _ _ => ⟨fun _ => open_answered (answered_simple _),
      fun _ => open_answered (answered_error _)⟩
  · exact ensures_pure.mpr (wrongArity_answered name)

theorem handleExists_answers : Answers handleExists StaysOpen := by
  intro env command name s
  unfold handleExists
  split
  · rw [ensures_bind]
    intro present t _
    exact ensures_pure.mpr (open_answered (answered_integer _))
  · exact ensures_pure.mpr (wrongArity_answered name)

theorem length_scan_le (order : Traversal Key) (now : Timestamp) (store : RadishStore Bytes) :
    (store.scan order now).length ≤ store.data.keys.length :=
  (List.length_filter_le _ _).trans_eq (order.perm _).length_eq

theorem mem_keys_of_mem_scan {order : Traversal Key} {now : Timestamp} {store : RadishStore Bytes}
    {key : Key} (h : key ∈ store.scan order now) : key ∈ store.data.keys :=
  (order.perm _).mem_iff.mp (List.mem_of_mem_filter h)

theorem handleKeys_answers : Answers handleKeys StaysOpen := by
  intro env command name s
  unfold handleKeys
  split
  · simp only [ensures_ite, ensures_bind, ensures_inspect, ensures_get, ensures_pure]
    constructor
    · exact fun _ => open_answered (answered_error _)
    · intro _
      refine open_answered (answered_array _ s.version fun hdatabase => ?_)
      constructor
      · exact lt_of_le_of_lt (length_scan_le _ _ _) hdatabase.keys
      · exact fun key hkey => hdatabase.key key (mem_keys_of_mem_scan hkey)
  · exact ensures_pure.mpr (wrongArity_answered name)

theorem handleDatabaseSize_answers : Answers handleDatabaseSize StaysOpen := by
  intro env command name s
  unfold handleDatabaseSize
  split
  · simp only [ensures_bind, ensures_inspect, ensures_pure]
    exact open_answered (answered_integer _)
  · exact ensures_pure.mpr (wrongArity_answered name)

theorem handleFlushDatabase_answers : Answers handleFlushDatabase StaysOpen := by
  intro env command name s
  unfold handleFlushDatabase
  split
  · simp only [ensures_bind, ensures_commit, ensures_pure]
    exact fun _ _ _ => open_answered (answered_simple _)
  · exact ensures_pure.mpr (wrongArity_answered name)

/-- `QUIT` closes the session when it has no arguments. -/
theorem handleQuit_answers :
    Answers handleQuit fun command => ∃ name, command.arguments = [name] := by
  intro env command name s
  unfold handleQuit
  split
  · rename_i first hcommand
    exact ensures_pure.mpr ⟨iff_of_true rfl ⟨first, hcommand⟩, _, answered_simple _⟩
  · rename_i hcommand
    exact ensures_pure.mpr ⟨iff_of_false Bool.false_ne_true fun ⟨first, h⟩ => hcommand first h, _,
      answered_error _⟩

/-- What holds of every entry of the table holds of what is found in it. -/
theorem of_lookup_commandHandlers {P : Bytes → CommandHandler → Prop}
    (hall : ∀ entry ∈ commandHandlers, P entry.1 entry.2) {name : Bytes} {handler : CommandHandler}
    (h : commandHandlers.lookup name = some handler) : P name handler := by
  obtain ⟨front, back, hsplit, -⟩ := List.lookup_eq_some_iff.mp h
  have hmem : (name, handler) ∈ commandHandlers := by simp [hsplit]
  exact hall _ hmem

/-- Every handler of the table but that of `QUIT` leaves the session open. -/
theorem commandHandlers_answer {name : Bytes} {handler : CommandHandler}
    (h : commandHandlers.lookup name = some handler) :
    name ≠ ascii "QUIT" ∧ Answers handler StaysOpen ∨
      name = ascii "QUIT" ∧ handler = handleQuit := by
  apply of_lookup_commandHandlers (P := fun name handler =>
    name ≠ ascii "QUIT" ∧ Answers handler StaysOpen ∨ name = ascii "QUIT" ∧ handler = handleQuit) _ h
  simp only [commandHandlers, List.forall_mem_cons]
  refine ⟨Or.inl ⟨?_, handleHello_answers⟩, Or.inl ⟨?_, handlePing_answers⟩,
    Or.inl ⟨?_, handleGet_answers⟩, Or.inl ⟨?_, handleSet_answers⟩,
    Or.inl ⟨?_, handleDelete_answers⟩, Or.inl ⟨?_, handleRename_answers⟩,
    Or.inl ⟨?_, handleExists_answers⟩, Or.inl ⟨?_, handleKeys_answers⟩,
    Or.inl ⟨?_, handleDatabaseSize_answers⟩, Or.inl ⟨?_, handleFlushDatabase_answers⟩,
    Or.inr ⟨trivial, trivial⟩, List.forall_mem_nil _⟩
  all_goals decide

/-- `QUIT`, in any case of letters and without arguments. -/
def Quits (command : RespCommand) : Prop :=
  ∃ name, command.arguments = [name] ∧ uppercase name = ascii "QUIT"

theorem Quits.uppercase_eq (h : Quits command) :
    uppercase (command.arguments.headD []) = ascii "QUIT" := by
  obtain ⟨name, hcommand, hname⟩ := h
  rw [hcommand]
  exact hname

theorem lookup_quit : commandHandlers.lookup (ascii "QUIT") = some handleQuit := rfl

theorem dispatch_of_lookup {env : Environment} {handler : CommandHandler}
    (h : commandHandlers.lookup (uppercase (command.arguments.headD [])) = some handler) :
    dispatch env command = handler env command (uppercase (command.arguments.headD [])) := by
  unfold dispatch
  dsimp only
  rw [h]

theorem dispatch_of_unknown {env : Environment}
    (h : commandHandlers.lookup (uppercase (command.arguments.headD [])) = none) :
    dispatch env command = pure (RespCodec.error (ascii "unknown command '" ++
      uppercase (command.arguments.headD []) ++ ascii "'"), false) := by
  unfold dispatch
  dsimp only
  rw [h]

theorem dispatch_answers (env : Environment) (command : RespCommand) (s : Service) :
    Ensures (dispatch env command) s fun result s' =>
      (result.2 = true ↔ Quits command) ∧ ∃ reply, Answered command s s' result.1 reply := by
  cases hlookup : commandHandlers.lookup (uppercase (command.arguments.headD [])) with
  | none =>
    rw [dispatch_of_unknown hlookup, ensures_pure]
    refine ⟨iff_of_false Bool.false_ne_true fun hquits => ?_, _, answered_error _⟩
    rw [hquits.uppercase_eq, lookup_quit] at hlookup
    cases hlookup
  | some handler =>
    rw [dispatch_of_lookup hlookup]
    obtain ⟨hname, hanswers⟩ | ⟨hname, rfl⟩ := commandHandlers_answer hlookup
    · refine (hanswers env command _ s).mono ?_
      intro result s' hanswer
      obtain ⟨hopen, hreply⟩ := hanswer
      exact ⟨hopen.trans (iff_of_false id fun hquits => hname hquits.uppercase_eq), hreply⟩
    · refine (handleQuit_answers env command _ s).mono ?_
      intro result s' hanswer
      obtain ⟨hcloses, hreply⟩ := hanswer
      refine ⟨hcloses.trans ⟨?_, ?_⟩, hreply⟩
      · intro halone
        obtain ⟨first, hcommand⟩ := halone
        rw [hcommand] at hname
        exact ⟨first, hcommand, hname⟩
      · intro hquits
        obtain ⟨first, hcommand, -⟩ := hquits
        exact ⟨first, hcommand⟩

end Answers

end Radish.Session
