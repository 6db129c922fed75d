import Radish.HandlerInvariants
import Radish.Keyspace
import Radish.KeyCommands

/-!
# What the commands mean

Each command reads the clock a number of times, looks at the keyspace or changes it, and has a
reply. This is told here without a store, a log or a handler; what the server answers is one of
the things that a command can mean.
-/

namespace Radish
set_option autoImplicit false

open Ledger Postcondition RespCodec RadishDB

/-- The commands there are, and how many words each of them takes, its name included. -/
def arities : List (Bytes × (Nat → Bool)) :=
  [(ascii "HELLO", fun n => n = 2), (ascii "PING", fun n => n = 1 ∨ n = 2),
    (ascii "GET", fun n => n = 2), (ascii "SET", fun n => n = 3), (ascii "DEL", fun n => 2 ≤ n),
    (ascii "RENAME", fun n => n = 3), (ascii "EXISTS", fun n => 2 ≤ n),
    (ascii "KEYS", fun n => n = 2), (ascii "DBSIZE", fun n => n = 1),
    (ascii "FLUSHDB", fun n => n = 1), (ascii "QUIT", fun n => n = 1)]

def done : Reply := .simple (ascii "OK")

def failure (message : Bytes) : Reply := .error (ascii "ERR " ++ sanitizeSimpleValue message)

/-- What a command can mean, told the version and the keyspace before it: the times at which it
reads the clock, its reply, and the version and the keyspace after it. -/
inductive Meaning (ttl : Timestamp) (command : RespCommand) (v : RespVersion)
    (m : Keyspace Bytes) : List Timestamp → Reply → RespVersion → Keyspace Bytes → Prop where
  | hello2 {first : Bytes} (called : command.name = ascii "HELLO")
      (words : command.arguments = [first, ascii "2"]) :
      Meaning ttl command v m [] (helloReply .resp2) .resp2 m
  | hello3 {first : Bytes} (called : command.name = ascii "HELLO")
      (words : command.arguments = [first, ascii "3"]) :
      Meaning ttl command v m [] (helloReply .resp3) .resp3 m
  | unspoken {first version : Bytes} (called : command.name = ascii "HELLO")
      (words : command.arguments = [first, version])
      (unsupported : version ≠ ascii "2" ∧ version ≠ ascii "3") :
      Meaning ttl command v m [] (failure (ascii "NOPROTO unsupported protocol version")) v m
  | ping {first : Bytes} (called : command.name = ascii "PING")
      (words : command.arguments = [first]) :
      Meaning ttl command v m [] (.simple (ascii "PONG")) v m
  | echo {first value : Bytes} (called : command.name = ascii "PING")
      (words : command.arguments = [first, value]) :
      Meaning ttl command v m [] (.bulk value) v m
  | get {first key : Bytes} {t : Timestamp} (called : command.name = ascii "GET")
      (words : command.arguments = [first, key]) :
      Meaning ttl command v m [t] (bulkReply (m.shown t key) v) v m
  | set {first key value : Bytes} {t : Timestamp} (called : command.name = ascii "SET")
      (words : command.arguments = [first, key, value]) :
      Meaning ttl command v m [t] done v (put m key ⟨value, deadline ttl t⟩)
  | delete {first : Bytes} {keys : List Key} {times : List Timestamp}
      (called : command.name = ascii "DEL") (words : command.arguments = first :: keys)
      (some : keys ≠ []) (each : times.length = keys.length) :
      Meaning ttl command v m times
        (.integer (keys.toFinset.filter fun key => (m key).isSome = true).card) v
        (fun key => if key ∈ keys then none else m key)
  | rename {first oldKey newKey : Bytes} {t : Timestamp} (called : command.name = ascii "RENAME")
      (words : command.arguments = [first, oldKey, newKey])
      (found : (m.shown t oldKey).isSome = true) :
      Meaning ttl command v m [t] done v (relocate m oldKey newKey)
  | missing {first oldKey newKey : Bytes} {t : Timestamp} (called : command.name = ascii "RENAME")
      (words : command.arguments = [first, oldKey, newKey]) (gone : m.shown t oldKey = none) :
      Meaning ttl command v m [t] (failure (ascii "no such key")) v m
  | exists {first : Bytes} {keys : List Key} {times : List Timestamp}
      (called : command.name = ascii "EXISTS") (words : command.arguments = first :: keys)
      (some : keys ≠ []) (each : times.length = keys.length) :
      Meaning ttl command v m times
        (.integer ((keys.zip times).countP fun p => (m.shown p.2 p.1).isSome : Nat)) v m
  | keys {first : Bytes} {listing : List Key} {t : Timestamp} (called : command.name = ascii "KEYS")
      (words : command.arguments = [first, ascii "*"]) (once : listing.Nodup)
      (listed : ∀ key, key ∈ listing ↔ (m.shown t key).isSome = true) :
      Meaning ttl command v m [t] (.array (listing.map .bulk)) v m
  | pattern {first pattern : Bytes} (called : command.name = ascii "KEYS")
      (words : command.arguments = [first, pattern]) (unsupported : pattern ≠ ascii "*") :
      Meaning ttl command v m [] (failure (ascii "only KEYS * is supported")) v m
  | databaseSize {first : Bytes} {t : Timestamp} (called : command.name = ascii "DBSIZE")
      (words : command.arguments = [first]) :
      Meaning ttl command v m [t]
        (.integer (Set.ncard {key | (m.shown t key).isSome = true} : Nat)) v m
  | flushDatabase {first : Bytes} {t : Timestamp} (called : command.name = ascii "FLUSHDB")
      (words : command.arguments = [first]) : Meaning ttl command v m [t] done v fun _ => none
  | quit {first : Bytes} (called : command.name = ascii "QUIT")
      (words : command.arguments = [first]) : Meaning ttl command v m [] done v m
  | misused {takes : Nat → Bool} (known : arities.lookup command.name = some takes)
      (wrong : takes command.arguments.length = false) :
      Meaning ttl command v m []
        (failure (ascii "wrong number of arguments for '" ++ command.name ++ ascii "' command")) v m
  | unknown (unknown : arities.lookup command.name = none) :
      Meaning ttl command v m []
        (failure (ascii "unknown command '" ++ command.name ++ ascii "'")) v m

/-- The clock at so many database calls. -/
def Environment.readings (env : Environment) (calls n : Nat) : List Timestamp :=
  (List.range' calls n).map env.now

theorem Environment.length_readings (env : Environment) (calls n : Nat) :
    (env.readings calls n).length = n := by
  rw [readings, List.length_map, List.length_range']

namespace Session

/-- What a handler returns, and the service it leaves, is what the command means. -/
def Means (env : Environment) (command : RespCommand) (s : Service) (result : CommandResult)
    (s' : Service) : Prop :=
  ∃ n reply, result.1 = reply.encode ∧ s'.calls = s.calls + n ∧
    Meaning s.database.store.ttl command s.version s.database.store.keyspace
      (env.readings s.calls n) reply s'.version s'.database.store.keyspace

/-- A handler does what the commands of this name mean. -/
def Meant (name : Bytes) (handler : CommandHandler) : Prop :=
  ∀ env command s, command.name = name → s.database.store.Coherent →
    Ensures (handler env command command.name) s (Means env command s)

section Handlers
variable {env : Environment} {command : RespCommand} {s : Service} {reply : Reply}

/-- A reply without a look at the database. -/
theorem means_reply {response : Bytes} (close : Bool) (hresponse : response = reply.encode)
    (h : Meaning s.database.store.ttl command s.version s.database.store.keyspace [] reply s.version
      s.database.store.keyspace) : Means env command s (response, close) s :=
  ⟨0, reply, hresponse, rfl, h⟩

/-- A reply after one look at the database. -/
theorem means_look {response : Bytes} (close : Bool) (hresponse : response = reply.encode)
    (h : Meaning s.database.store.ttl command s.version s.database.store.keyspace
      [env.now s.calls] reply s.version s.database.store.keyspace) :
    Means env command s (response, close) { s with calls := s.calls + 1 } :=
  ⟨1, reply, hresponse, rfl, h⟩

/-- A reply after one call that changes the database. -/
theorem means_call {response : Bytes} (close : Bool) {database : RadishDB Bytes}
    (hresponse : response = reply.encode)
    (h : Meaning s.database.store.ttl command s.version s.database.store.keyspace
      [env.now s.calls] reply s.version database.store.keyspace) :
    Means env command s (response, close) { s with database, calls := s.calls + 1 } :=
  ⟨1, reply, hresponse, rfl, h⟩

theorem means_wrongArity {name : Bytes} {takes : Nat → Bool} (hname : command.name = name)
    (hknown : arities.lookup name = some takes)
    (hwrong : takes command.arguments.length = false) :
    Means env command s (wrongArity command.name) s := by
  subst hname
  exact means_reply false (error_eq _) (.misused hknown hwrong)

section Arities
variable {words : List Bytes}

theorem not_one (h : ∀ a, words = [a] → False) : decide (words.length = 1) = false := by
  refine decide_eq_false fun hlength => ?_
  obtain ⟨a, ha⟩ := List.length_eq_one_iff.mp hlength
  exact h a ha

theorem not_two (h : ∀ a b, words = [a, b] → False) : decide (words.length = 2) = false := by
  refine decide_eq_false fun hlength => ?_
  obtain ⟨a, b, hab⟩ := List.length_eq_two.mp hlength
  exact h a b hab

theorem not_three (h : ∀ a b c, words = [a, b, c] → False) :
    decide (words.length = 3) = false := by
  refine decide_eq_false fun hlength => ?_
  obtain ⟨a, b, c, habc⟩ := List.length_eq_three.mp hlength
  exact h a b c habc

theorem not_more (h : ∀ a b cs, words = a :: b :: cs → False) :
    decide (2 ≤ words.length) = false := by
  refine decide_eq_false fun hlength => ?_
  match words with
  | [] => simp at hlength
  | [a] => simp at hlength
  | a :: b :: cs => exact h a b cs rfl

end Arities

theorem simpleString_ok : simpleString (ascii "OK") = done.encode := simpleString_eq (ascii "OK")

theorem handleHello_meant : Meant (ascii "HELLO") handleHello := by
  intro env command s hname _
  unfold handleHello
  split
  · rename_i first version hwords
    simp only [ensures_ite, ensures_setVersion, ensures_pure]
    refine ⟨?_, fun h2 => ⟨?_, fun h3 => ?_⟩⟩
    · intro h2
      subst h2
      exact ⟨0, _, hello_eq .resp2, rfl, .hello2 hname hwords⟩
    · intro h3
      subst h3
      exact ⟨0, _, hello_eq .resp3, rfl, .hello3 hname hwords⟩
    · exact means_reply false (error_eq _) (.unspoken hname hwords ⟨h2, h3⟩)
  · rename_i hwords
    exact ensures_pure.mpr (means_wrongArity hname rfl (not_two hwords))

theorem handlePing_meant : Meant (ascii "PING") handlePing := by
  intro env command s hname _
  unfold handlePing
  split
  · rename_i first hwords
    exact ensures_pure.mpr (means_reply false (simpleString_eq (ascii "PONG")) (.ping hname hwords))
  · rename_i first value hwords
    simp only [ensures_bind, ensures_get, ensures_pure]
    exact means_reply false (bulkString_eq (some value) s.version) (.echo hname hwords)
  · rename_i halone hvalue
    refine ensures_pure.mpr (means_wrongArity hname rfl ?_)
    rw [Bool.decide_or, not_one halone, not_two hvalue]
    rfl

theorem handleGet_meant : Meant (ascii "GET") handleGet := by
  intro env command s hname hcoherent
  unfold handleGet
  split
  · rename_i first key hwords
    simp only [ensures_bind, ensures_inspect, ensures_get, ensures_pure]
    have hvalue : s.database.get (env.now s.calls) key = s.database.store.keyspace.shown _ key :=
      hcoherent.get_eq_shown (env.now s.calls) key
    rw [hvalue]
    exact means_look false (bulkString_eq _ s.version) (.get hname hwords)
  · rename_i hwords
    exact ensures_pure.mpr (means_wrongArity hname rfl (not_two hwords))

theorem handleSet_meant : Meant (ascii "SET") handleSet := by
  intro env command s hname hcoherent
  unfold handleSet
  split
  · rename_i first key value hwords
    simp only [ensures_bind, ensures_commit, ensures_pure]
    intro found database hcreate
    have hafter := (call_keyspace (c := .create key value) hcoherent hcreate).2
    refine means_call false simpleString_ok ?_
    rw [hafter]
    exact .set hname hwords
  · rename_i hwords
    exact ensures_pure.mpr (means_wrongArity hname rfl (not_three hwords))

theorem handleRename_meant : Meant (ascii "RENAME") handleRename := by
  intro env command s hname hcoherent
  unfold handleRename
  split
  · rename_i first oldKey newKey hwords
    simp only [ensures_bind, ensures_commit, ensures_ite, ensures_pure]
    intro found database hrename
    obtain ⟨hfound, hafter⟩ := call_keyspace (c := .rename oldKey newKey) hcoherent hrename
    have hshown : (s.database.store.keyspace oldKey).any (Binding.alive (env.now s.calls)) =
        (s.database.store.keyspace.shown (env.now s.calls) oldKey).isSome := by
      rw [hcoherent.any_keyspace, hcoherent.get_eq_shown]
    have hmoved : database.store.keyspace = if (s.database.store.keyspace.shown (env.now s.calls)
        oldKey).isSome then relocate s.database.store.keyspace oldKey newKey
        else s.database.store.keyspace := by
      rw [hafter, ← hshown]
      rfl
    have hresult : found = true ↔
        (s.database.store.keyspace.shown (env.now s.calls) oldKey).isSome = true := by
      rw [hfound, ← hshown]
      rfl
    constructor
    · intro htrue
      have hisSome := hresult.mp htrue
      rw [if_pos hisSome] at hmoved
      refine means_call false simpleString_ok ?_
      rw [hmoved]
      exact .rename hname hwords hisSome
    · intro hfalse
      have hgone := mt hresult.mpr hfalse
      rw [if_neg hgone] at hmoved
      refine means_call false (error_eq _) ?_
      rw [hmoved]
      exact .missing hname hwords (Option.not_isSome_iff_eq_none.mp hgone)
  · rename_i hwords
    exact ensures_pure.mpr (means_wrongArity hname rfl (not_three hwords))

theorem handleKeys_meant : Meant (ascii "KEYS") handleKeys := by
  intro env command s hname hcoherent
  unfold handleKeys
  split
  · rename_i first pattern hwords
    simp only [ensures_ite, ensures_bind, ensures_inspect, ensures_get, ensures_pure]
    constructor
    · intro hpattern
      exact means_reply false (error_eq _) (.pattern hname hwords hpattern)
    · intro hall
      rw [not_not] at hall
      subst hall
      refine means_look false (array_eq _ s.version) (.keys hname hwords ?_ ?_)
      · exact RadishStore.nodup_scan _ _ _
      · intro key
        rw [← hcoherent.exists_eq_shown]
        exact RadishStore.mem_scan_iff
  · rename_i hwords
    exact ensures_pure.mpr (means_wrongArity hname rfl (not_two hwords))

theorem handleDatabaseSize_meant : Meant (ascii "DBSIZE") handleDatabaseSize := by
  intro env command s hname hcoherent
  unfold handleDatabaseSize
  split
  · rename_i first hwords
    simp only [ensures_bind, ensures_inspect, ensures_pure]
    have hsize : s.database.size (env.now s.calls) = Set.ncard _ :=
      hcoherent.size_eq_ncard (env.now s.calls)
    rw [hsize]
    exact means_look false (integer_eq _) (.databaseSize hname hwords)
  · rename_i hwords
    exact ensures_pure.mpr (means_wrongArity hname rfl (not_one hwords))

theorem handleFlushDatabase_meant : Meant (ascii "FLUSHDB") handleFlushDatabase := by
  intro env command s hname hcoherent
  unfold handleFlushDatabase
  split
  · rename_i first hwords
    simp only [ensures_bind, ensures_commit, ensures_pure]
    intro found database hclear
    have hafter := (call_keyspace (c := .clear) hcoherent hclear).2
    refine means_call false simpleString_ok ?_
    rw [hafter]
    exact .flushDatabase hname hwords
  · rename_i hwords
    exact ensures_pure.mpr (means_wrongArity hname rfl (not_one hwords))

theorem handleQuit_meant : Meant (ascii "QUIT") handleQuit := by
  intro env command s hname _
  unfold handleQuit
  split
  · rename_i first hwords
    exact ensures_pure.mpr (means_reply true simpleString_ok (.quit hname hwords))
  · rename_i hwords
    exact ensures_pure.mpr (means_wrongArity hname rfl (not_one hwords))

/-- The loop of `DEL` and `EXISTS` makes one call for each key. -/
theorem countKeys_calls {call : Key → Handling Bool}
    (hcall : ∀ key s, Ensures (call key) s fun _ s' =>
      s'.version = s.version ∧ s'.calls = s.calls + 1) (keys : List Key) (s : Service) :
    Ensures (countKeys call keys) s fun _ s' =>
      s'.version = s.version ∧ s'.calls = s.calls + keys.length := by
  induction keys generalizing s with
  | nil =>
    rw [countKeys, ensures_pure]
    exact ⟨rfl, rfl⟩
  | cons key keys ih =>
    simp only [countKeys, ensures_bind, ensures_pure]
    refine (hcall key s).mono ?_
    intro found t ht
    refine (ih t).mono ?_
    intro later s' hs'
    rw [List.length_cons]
    exact ⟨hs'.1.trans ht.1, by omega⟩

theorem handleDelete_meant : Meant (ascii "DEL") handleDelete := by
  intro env command s hname _
  unfold handleDelete
  split
  · rename_i first key keys hwords
    simp only [ensures_bind, ensures_pure]
    intro deleted t hloop
    obtain ⟨hcount, hgone, hkept⟩ := countKeys_delete env (key :: keys) s deleted t hloop
    have hcall : ∀ key s, Ensures (commit env fun fault now database =>
        database.delete fault now key) s fun _ s' =>
          s'.version = s.version ∧ s'.calls = s.calls + 1 := by
      intro key s
      rw [ensures_commit]
      exact fun _ _ _ => ⟨rfl, rfl⟩
    obtain ⟨hversion, hcalls⟩ := countKeys_calls hcall (key :: keys) s deleted t hloop
    have hafter : t.database.store.keyspace =
        fun k => if k ∈ key :: keys then none else s.database.store.keyspace k := by
      funext k
      split
      · rename_i hk
        simp [RadishStore.keyspace, hgone k hk]
      · rename_i hk
        exact RadishStore.keyspace_eq_of_kept (hkept k hk)
    have hheld : held s.database.store (key :: keys) = (key :: keys).toFinset.filter
        fun k => (s.database.store.keyspace k).isSome = true := by
      simp only [held, RadishStore.isSome_keyspace]
    refine ⟨(key :: keys).length, _, integer_eq _, hcalls, ?_⟩
    rw [hcount, hheld, hversion, hafter]
    exact .delete hname hwords (List.cons_ne_nil key keys) (env.length_readings _ _)
  · rename_i hwords
    exact ensures_pure.mpr (means_wrongArity hname rfl (not_more hwords))

/-- The loop of `EXISTS` looks at each key at its own time. -/
theorem countKeys_exists (env : Environment) (keys : List Key) (s : Service) :
    Ensures (countKeys (fun key => inspect env fun _ now database => database.exists now key) keys) s
      fun present s' => s' = { s with calls := s.calls + keys.length } ∧
        present = (keys.zip (env.readings s.calls keys.length)).countP fun p =>
          s.database.store.exists p.2 p.1 := by
  induction keys generalizing s with
  | nil =>
    rw [countKeys, ensures_pure]
    exact ⟨rfl, rfl⟩
  | cons key keys ih =>
    simp only [countKeys, ensures_bind, ensures_inspect, ensures_pure]
    refine (ih _).mono ?_
    intro later s' hs'
    obtain ⟨rfl, rfl⟩ := hs'
    have hreadings : env.readings s.calls (key :: keys).length =
        env.now s.calls :: env.readings (s.calls + 1) keys.length := rfl
    constructor
    · rw [List.length_cons, Nat.add_assoc, Nat.add_comm 1]
    · rw [hreadings, List.zip_cons_cons, List.countP_cons, Nat.add_comm]
      rfl

theorem handleExists_meant : Meant (ascii "EXISTS") handleExists := by
  intro env command s hname hcoherent
  unfold handleExists
  split
  · rename_i first key keys hwords
    simp only [ensures_bind, ensures_pure]
    refine (countKeys_exists env (key :: keys) s).mono ?_
    intro present t ht
    obtain ⟨rfl, rfl⟩ := ht
    simp only [hcoherent.exists_eq_shown]
    exact ⟨(key :: keys).length, _, integer_eq _, rfl,
      .exists hname hwords (List.cons_ne_nil key keys) (env.length_readings _ _)⟩
  · rename_i hwords
    exact ensures_pure.mpr (means_wrongArity hname rfl (not_more hwords))

theorem commandHandlers_meant {name : Bytes} {handler : CommandHandler}
    (h : commandHandlers.lookup name = some handler) : Meant name handler := by
  apply of_lookup_commandHandlers _ h
  simp only [commandHandlers, List.forall_mem_cons]
  exact ⟨handleHello_meant, handlePing_meant, handleGet_meant, handleSet_meant, handleDelete_meant,
    handleRename_meant, handleExists_meant, handleKeys_meant, handleDatabaseSize_meant,
    handleFlushDatabase_meant, handleQuit_meant, List.forall_mem_nil _⟩

theorem arities_of_unknown {name : Bytes} (h : commandHandlers.lookup name = none) :
    arities.lookup name = none := by
  have hnames : arities.map Prod.fst = commandHandlers.map Prod.fst := rfl
  rw [List.lookup_eq_none_iff] at h ⊢
  intro entry hentry
  have hmem : entry.1 ∈ commandHandlers.map Prod.fst := hnames ▸ List.mem_map_of_mem hentry
  obtain ⟨handled, hhandled, hsame⟩ := List.mem_map.mp hmem
  rw [← hsame]
  exact h handled hhandled

/-- What a command is answered, and what it does to the keyspace, is what it means. -/
theorem dispatch_means (env : Environment) (command : RespCommand)
    (hcoherent : s.database.store.Coherent) :
    Ensures (dispatch env command) s (Means env command s) := by
  cases hlookup : commandHandlers.lookup command.name with
  | none =>
    rw [dispatch_of_unknown hlookup, ensures_pure]
    exact means_reply false (error_eq _) (.unknown (arities_of_unknown hlookup))
  | some handler =>
    rw [dispatch_of_lookup hlookup]
    exact commandHandlers_meant hlookup env command s rfl hcoherent

end Handlers

end Session

end Radish
