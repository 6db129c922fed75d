import Radish.Handlers
import Radish.SmallRecords

/-!
# What the command handlers are made of

A handler makes database calls one after the other, looks at the protocol version, and changes it
only for a `HELLO` that asks for one. What every such step has and sequencing keeps, every command
has, whether it is answered or throws.
-/

namespace Radish
set_option autoImplicit false

open Postcondition RespCodec RadishDB

/-- What the handlers are found by. -/
def RespCommand.name (command : RespCommand) : Bytes :=
  Session.uppercase (command.arguments.headD [])

/-- The calls that change the database and that a command can ask for. -/
inductive RespCommand.Asks (command : RespCommand) : Call Bytes → Prop where
  | create {first key value : Bytes} (called : command.name = ascii "SET")
      (words : command.arguments = [first, key, value]) : Asks command (.create key value)
  | rename {first oldKey newKey : Bytes} (called : command.name = ascii "RENAME")
      (words : command.arguments = [first, oldKey, newKey]) : Asks command (.rename oldKey newKey)
  | delete {first key : Bytes} {keys : List Bytes} (called : command.name = ascii "DEL")
      (words : command.arguments = first :: keys) (named : key ∈ keys) :
      Asks command (.delete key)
  | clear (called : command.name = ascii "FLUSHDB") : Asks command .clear

/-- They are as small as what can be sent. -/
theorem RespCommand.Asks.small {command : RespCommand} {c : Call Bytes} (h : command.Asks c)
    (hcommand : Sendable command) : c.Small := by
  have hfits := hcommand.bulk_fits
  cases h with
  | create _ words =>
    rw [words] at hfits
    exact ⟨hfits _ (by simp), hfits _ (by simp)⟩
  | rename _ words =>
    rw [words] at hfits
    exact ⟨hfits _ (by simp), hfits _ (by simp)⟩
  | delete _ words named =>
    rw [words] at hfits
    exact hfits _ (List.mem_cons_of_mem _ named)
  | clear => trivial

namespace Session

/-- The version that the second argument of a `HELLO` asks for. -/
def requested (command : RespCommand) : Option RespVersion :=
  match command.arguments with
  | [_, version] =>
    if version = ascii "2" then some .resp2
    else if version = ascii "3" then some .resp3
    else none
  | _ => none

/-- The version a command asks for. -/
def negotiated (command : RespCommand) : Option RespVersion :=
  if command.name = ascii "HELLO" then requested command else none

/-- A property of programs that the steps of a handler have and that sequencing keeps. -/
structure Composed (env : Environment) (command : RespCommand)
    (P : (α : Type) → Handling α → Prop) : Prop where
  answer : ∀ (α : Type) (a : α), P α (pure a)
  bind : ∀ (α β : Type) (x : Handling α) (f : α → Handling β),
    P α x → (∀ a, P β (f a)) → P β (x >>= f)
  speak : ∀ (α : Type) (f : RespVersion → α), P α (do return f (← get).version)
  look : ∀ (α : Type) (call : Traversal Key → Timestamp → RadishStore Bytes → α),
    P α (inspect env fun order now database => call order now database.store)
  call : ∀ c : Call Bytes, command.Asks c →
    P Bool (commit env fun fault now database => database.call fault now c)
  negotiate : ∀ version, negotiated command = some version → P CommandResult (setVersion version)

section Handlers
variable {env : Environment} {command : RespCommand} {P : (α : Type) → Handling α → Prop}

theorem Composed.countKeys (hP : Composed env command P) {call : Key → Handling Bool}
    {keys : List Key} (hcall : ∀ key ∈ keys, P Bool (call key)) :
    P Nat (Session.countKeys call keys) := by
  induction keys with
  | nil => exact hP.answer _ _
  | cons key keys ih =>
    refine hP.bind _ _ _ _ (hcall key List.mem_cons_self) fun found => ?_
    refine hP.bind _ _ _ _ (ih fun k hk => hcall k (List.mem_cons_of_mem _ hk)) fun later => ?_
    exact hP.answer _ _

theorem Composed.hello (hP : Composed env command P)
    (hname : command.name = ascii "HELLO") (name : Bytes) :
    P CommandResult (handleHello env command name) := by
  unfold handleHello
  split
  · rename_i first version hcommand
    split
    · rename_i h2
      apply hP.negotiate
      rw [negotiated, if_pos hname]
      simp only [requested, hcommand, if_pos h2]
    · rename_i h2
      split
      · rename_i h3
        apply hP.negotiate
        rw [negotiated, if_pos hname]
        simp only [requested, hcommand, if_neg h2, if_pos h3]
      · exact hP.answer _ _
  · exact hP.answer _ _

theorem Composed.ping (hP : Composed env command P) (name : Bytes) :
    P CommandResult (handlePing env command name) := by
  unfold handlePing
  split
  · exact hP.answer _ _
  · rename_i value _
    exact hP.speak _ fun version => (bulkString (some value) version, false)
  · exact hP.answer _ _

theorem Composed.get (hP : Composed env command P) (name : Bytes) :
    P CommandResult (handleGet env command name) := by
  unfold handleGet
  split
  · rename_i key _
    refine hP.bind _ _ _ _ (hP.look _ fun _ now store => store.get now key) fun value => ?_
    exact hP.speak _ fun version => (bulkString value version, false)
  · exact hP.answer _ _

theorem Composed.set (hP : Composed env command P)
    (hname : command.name = ascii "SET") (name : Bytes) :
    P CommandResult (handleSet env command name) := by
  unfold handleSet
  split
  · rename_i first key value hcommand
    have hcall := hP.call (.create key value) (.create hname hcommand)
    exact hP.bind _ _ _ _ hcall fun _ => hP.answer _ _
  · exact hP.answer _ _

theorem Composed.delete (hP : Composed env command P)
    (hname : command.name = ascii "DEL") (name : Bytes) :
    P CommandResult (handleDelete env command name) := by
  unfold handleDelete
  split
  · rename_i first key keys hcommand
    refine hP.bind _ _ _ _ (hP.countKeys fun k hk => ?_) fun deleted => hP.answer _ _
    exact hP.call (.delete k) (.delete hname hcommand hk)
  · exact hP.answer _ _

theorem Composed.rename (hP : Composed env command P)
    (hname : command.name = ascii "RENAME") (name : Bytes) :
    P CommandResult (handleRename env command name) := by
  unfold handleRename
  split
  · rename_i first oldKey newKey hcommand
    have hcall := hP.call (.rename oldKey newKey) (.rename hname hcommand)
    refine hP.bind _ _ _ _ hcall fun renamed => ?_
    split
    · exact hP.answer _ _
    · exact hP.answer _ _
  · exact hP.answer _ _

theorem Composed.exists (hP : Composed env command P) (name : Bytes) :
    P CommandResult (handleExists env command name) := by
  unfold handleExists
  split
  · refine hP.bind _ _ _ _ (hP.countKeys fun key _ => ?_) fun present => hP.answer _ _
    exact hP.look _ fun _ now store => store.exists now key
  · exact hP.answer _ _

theorem Composed.keys (hP : Composed env command P) (name : Bytes) :
    P CommandResult (handleKeys env command name) := by
  unfold handleKeys
  split
  · split
    · exact hP.answer _ _
    · refine hP.bind _ _ _ _ (hP.look _ fun order now store => store.scan order now) fun keys => ?_
      exact hP.speak _ fun version => (array keys version, false)
  · exact hP.answer _ _

theorem Composed.databaseSize (hP : Composed env command P) (name : Bytes) :
    P CommandResult (handleDatabaseSize env command name) := by
  unfold handleDatabaseSize
  split
  · exact hP.bind _ _ _ _ (hP.look _ fun _ now store => store.size now) fun size => hP.answer _ _
  · exact hP.answer _ _

theorem Composed.flushDatabase (hP : Composed env command P)
    (hname : command.name = ascii "FLUSHDB") (name : Bytes) :
    P CommandResult (handleFlushDatabase env command name) := by
  unfold handleFlushDatabase
  split
  · exact hP.bind _ _ _ _ (hP.call .clear (.clear hname)) fun _ => hP.answer _ _
  · exact hP.answer _ _

theorem Composed.quit (hP : Composed env command P) (name : Bytes) :
    P CommandResult (handleQuit env command name) := by
  unfold handleQuit
  split <;> exact hP.answer _ _

/-- What the steps of the handlers have, every command has. -/
theorem Composed.dispatch (hP : Composed env command P) :
    P CommandResult (Session.dispatch env command) := by
  cases hlookup : commandHandlers.lookup (uppercase (command.arguments.headD [])) with
  | none =>
    rw [dispatch_of_unknown hlookup]
    exact hP.answer _ _
  | some handler =>
    rw [dispatch_of_lookup hlookup]
    apply of_lookup_commandHandlers (P := fun name handler =>
      command.name = name → P CommandResult (handler env command name)) _ hlookup rfl
    simp only [commandHandlers, List.forall_mem_cons]
    exact ⟨fun hname => hP.hello hname _, fun _ => hP.ping _, fun _ => hP.get _,
      fun hname => hP.set hname _, fun hname => hP.delete hname _,
      fun hname => hP.rename hname _, fun _ => hP.exists _, fun _ => hP.keys _,
      fun _ => hP.databaseSize _, fun hname => hP.flushDatabase hname _, fun _ => hP.quit _,
      List.forall_mem_nil _⟩

end Handlers

/-! ## Invariants -/

/-- The service after a call that changes the database, whether the call has returned or thrown. -/
def afterCall (env : Environment) (s : Service) (c : Call Bytes) : Service :=
  { s with
    database := (s.database.call (env.fault s.calls) (env.now s.calls) c).2
    calls := s.calls + 1 }

/-- What every database call that a request can ask for preserves. -/
structure Invariable (env : Environment) (I : Service → Prop) : Prop where
  call : ∀ s c, I s → c.Small → I (afterCall env s c)
  look : ∀ s, I s → I { s with calls := s.calls + 1 }

/-- What the database calls and the version that the command asks for preserve, it preserves,
whether it is answered or throws. -/
theorem dispatch_maintains {env : Environment} {I : Service → Prop} (hI : Invariable env I)
    {command : RespCommand} (hcommand : Sendable command)
    (hversion : ∀ version, negotiated command = some version → ∀ s, I s → I { s with version }) :
    Maintains (dispatch env command) I := by
  refine Composed.dispatch (P := fun _ program => Maintains program I) ?_
  exact {
    answer := fun _ a => maintains_pure a
    bind := fun _ _ _ _ hx hf => hx.bind hf
    speak := fun _ f => maintains_get.bind fun s => maintains_pure (f s.version)
    look := fun _ _ s hs => hI.look s hs
    call := fun c hc s hs => hI.call s c hs (hc.small hcommand)
    negotiate := fun version hasked s hs => hversion version hasked s hs }

end Session

end Radish
