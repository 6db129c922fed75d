import Radish.Continuity

/-!
# Where values come from

A server shows only what some client has sent, to it or to a server that used the data file before,
with whatever options, restarts and compactions there were in between.
-/

namespace Radish
set_option autoImplicit false

open Ledger LogWriter Postcondition RespCodec RadishDB

/-- What the event stores is one of the values `S`. -/
def Mutation.Draws (S : Bytes → Prop) (m : Mutation Bytes) : Prop :=
  ∀ key entry, m.action = .put key entry → S entry.1

theorem RadishDB.Call.draws_mutation {S : Bytes → Prop} {c : Call Bytes}
    (h : ∀ key value, c = .create key value → S value) (expiry : Timestamp) :
    (c.mutation expiry).Draws S := by
  intro key entry hput
  cases c with
  | create key' value =>
    obtain ⟨rfl, rfl⟩ := Action.put.inj hput
    exact h key' value rfl
  | _ => cases hput

/-- All values in the store are among `S`, expired ones included. -/
structure RadishStore.Drawn (S : Bytes → Prop) (store : RadishStore Bytes) : Prop where
  coherent : store.Coherent
  values : ∀ key binding, store.keyspace key = some binding → S binding.value

/-- All values in the log are among `S`. -/
def RadishDB.Recorded (S : Bytes → Prop) (db : RadishDB Bytes) : Prop :=
  db.persistence = none ∨ ∃ ms, db.Sized ms ∧ ∀ m ∈ ms, m.Draws S

section Databases
variable {S : Bytes → Prop} {store : RadishStore Bytes} {db : RadishDB Bytes}

theorem RadishStore.drawn_new (S : Bytes → Prop) (ttl : Timestamp) :
    (RadishStore.new ttl : RadishStore Bytes).Drawn S := by
  refine ⟨RadishStore.coherent_new ttl, ?_⟩
  intro key binding hkey
  cases hkey

theorem RadishStore.Drawn.apply (h : store.Drawn S) (now : Timestamp) {m : Mutation Bytes}
    (hm : m.Draws S) : (store.apply now m).2.Drawn S := by
  refine ⟨h.coherent.apply now m, ?_⟩
  intro key binding hkey
  rw [h.coherent.keyspace_apply] at hkey
  obtain hbefore | hput | ⟨a, -, ha⟩ := replayStep_entry hkey
  · exact h.values key binding hbefore
  · cases haction : m.action with
    | put key' entry =>
      rw [haction] at hput
      obtain ⟨-, rfl⟩ := Action.put.inj hput
      exact hm key' entry haction
    | _ =>
      rw [haction] at hput
      cases hput
  · exact h.values a binding ha

theorem RadishStore.Drawn.applyAll (h : store.Drawn S) (now : Timestamp)
    {ms : List (Mutation Bytes)} (hms : ∀ m ∈ ms, m.Draws S) : (store.applyAll now ms).Drawn S := by
  induction ms generalizing store with
  | nil => exact h
  | cons m ms ih =>
    rw [RadishStore.applyAll_cons]
    exact ih (h.apply now (hms m List.mem_cons_self)) fun x hx => hms x (List.mem_cons_of_mem _ hx)

theorem RadishStore.Drawn.get (h : store.Drawn S) {t : Timestamp} {key : Key} {value : Bytes}
    (hshown : store.get t key = some value) : S value := by
  obtain ⟨binding, hkey, -, rfl⟩ := h.coherent.get_eq_some_iff.mp hshown
  exact h.values key binding hkey

/-- Whether the call returns or throws. -/
theorem RadishStore.Drawn.call (h : db.store.Drawn S) (fault : Option Fault) (now : Timestamp)
    {c : Call Bytes} (hc : ∀ key value, c = .create key value → S value) :
    (db.call fault now c).2.store.Drawn S := by
  obtain hstore | hstore := call_store fault now db c
  · rw [hstore]
    exact h
  · rw [hstore]
    exact h.apply now (Call.draws_mutation hc _)

namespace RadishDB

theorem Recorded.call (h : db.Recorded S) (now : Timestamp) {c : Call Bytes} (hsmall : c.Small)
    (hc : ∀ key value, c = .create key value → S value) : (db.call none now c).2.Recorded S := by
  obtain hvolatile | ⟨ms, hms, hdraws⟩ := h
  · left
    rw [call_eq_commit]
    cases heffective : (db.store.apply now (c.mutation (db.store.newExpiryTimestamp now))).1 with
    | false =>
      rw [commit_of_idle heffective]
      exact hvolatile
    | true =>
      rw [commit_of_volatile hvolatile heffective]
      exact hvolatile
  · obtain ⟨-, hcall⟩ | ⟨-, hrefused, -⟩ | ⟨-, -, db', hcall, -, hlogged⟩ :=
      call_cases hms.logged now c rfl
    · rw [hcall]
      exact Or.inr ⟨ms, hms, hdraws⟩
    · exact absurd (hsmall.accepted _) hrefused
    · rw [hcall]
      refine Or.inr ⟨_, hms.append hsmall hlogged, ?_⟩
      intro m hm
      obtain hold | hnew := List.mem_append.mp hm
      · exact hdraws m hold
      · obtain rfl := List.mem_singleton.mp hnew
        exact Call.draws_mutation hc _

/-- A compaction writes what it has read. -/
theorem Recorded.compact (h : db.Recorded S) (fault : Option Fault)
    (order : Traversal (Σ _ : Key, RadishEvent Bytes)) (now : Timestamp) :
    (db.compact fault order now).2.Recorded S := by
  obtain hvolatile | ⟨ms, hms, hdraws⟩ := h
  · left
    rw [RadishDB.compact, hvolatile]
    exact hvolatile
  · obtain ⟨ms', hsized⟩ := hms.compact fault order now
    refine Or.inr ⟨ms', hsized, ?_⟩
    rcases hcompact : db.compact fault order now with ⟨e | ⟨⟩, db'⟩
    · rw [hcompact] at hsized
      obtain rfl := hsized.logged.unique (hms.logged.compactThrows hcompact)
      exact hdraws
    · rw [hcompact] at hsized
      obtain ⟨ns, hlogged, hlisted, -, -⟩ := compact_logged hms.logged hcompact
      obtain rfl := hsized.logged.unique hlogged
      intro m hm key entry hput
      obtain ⟨k, kept, hkept, rfl⟩ := hlisted m hm
      obtain ⟨-, rfl⟩ := Action.put.inj hput
      obtain ⟨x, hx⟩ := summary_source hkept
      obtain ⟨source, hsource, haction⟩ := List.mem_map.mp hx
      exact hdraws source hsource x _ haction

theorem Recorded.mono {S' : Bytes → Prop} (h : db.Recorded S) (hS : ∀ value, S value → S' value) :
    db.Recorded S' := by
  obtain hvolatile | ⟨ms, hms, hdraws⟩ := h
  · exact Or.inl hvolatile
  · exact Or.inr ⟨ms, hms, fun m hm key entry hput => hS _ (hdraws m hm key entry hput)⟩

/-- Opened again, the database holds only what was in the log. -/
theorem Recorded.reopens (h : db.Recorded S) {disk : LogWriter}
    (hdisk : db.persistence = some disk) {now ttl : Timestamp} {opened : RadishDB Bytes}
    (hnew : new now ttl .flush disk = .ok opened) : opened.store.Drawn S ∧ opened.Recorded S := by
  obtain hvolatile | ⟨ms, hms, hdraws⟩ := h
  · rw [hdisk] at hvolatile
    cases hvolatile
  · obtain ⟨disk', hdisk', opened', hnew', hstore, hlogged⟩ := new_of_logged hms.logged now ttl
    obtain rfl := Option.some.inj (hdisk.symm.trans hdisk')
    obtain rfl := Except.ok.inj (hnew.symm.trans hnew')
    refine ⟨?_, Or.inr ⟨ms, ⟨hlogged, hms.small⟩, hdraws⟩⟩
    rw [hstore]
    exact (RadishStore.drawn_new S ttl).applyAll now hdraws

end RadishDB

end Databases

/-! ## Servers -/

namespace TcpServer

section Runs
variable {env : Environment} {database : RadishDB Bytes}

/-- What all commands that were executed maintain holds of the database in the end. -/
theorem run_maintains {I : RadishDB Bytes → Prop} (h : I database) {happenings : List Happening}
    (hcommands : ∀ session ∈ ((start database).run env happenings).sessions,
      ∀ command ∈ session.executed, Sendable command →
        Maintains (Session.dispatch env command) fun s => I s.database) :
    I ((start database).run env happenings).database := by
  obtain ⟨history, hserial⟩ := (serial_start env database).run happenings
  rw [List.nil_append] at hserial
  have hexplained := hserial.explainedBy
  generalize (start database).run env happenings = server at *
  have hhistory : ∀ p ∈ history, Maintains (Session.dispatch env p.2) fun s => I s.database := by
    intro p hp
    obtain ⟨hclient, hsend⟩ := hexplained.clients p hp
    have hsession := List.getElem?_eq_getElem hclient
    refine hcommands _ (List.mem_of_getElem? hsession) p.2 ?_ hsend
    rw [(hexplained.sessions p.1 _ hsession).1]
    exact List.mem_filterMap.mpr ⟨p, hp, if_pos rfl⟩
  rw [hexplained.shared]
  clear hserial hexplained
  induction history using List.reverseRecOn with
  | nil => exact h
  | append_singleton history p ih =>
    have hbefore := ih fun q hq => hhistory q (List.mem_append_left _ hq)
    rw [executeAll_snoc]
    obtain ⟨service, hservice, hdatabase, -⟩ :=
      (executeAll env database history).dispatch_cases env p
    rw [hdatabase, ← hservice]
    exact hhistory p (List.mem_append_right _ List.mem_cons_self) _ hbefore

/-- A client of the server has sent the value to be stored. -/
def Sent (server : TcpServer) (value : Bytes) : Prop :=
  ∃ session ∈ server.sessions, ∃ command ∈ session.executed,
    ∃ key, command.Asks (.create key value)

end Runs

end TcpServer

namespace Session

section Commands
variable {env : Environment} {S : Bytes → Prop} {command : RespCommand}

theorem composed_recorded (hworks : ∀ n, env.fault n = none) (hsend : Sendable command)
    (h : ∀ key value, command.Asks (.create key value) → S value) :
    Composed env command fun _ program =>
      Maintains program fun s : Service => s.database.Recorded S where
  answer _ a := maintains_pure a
  bind _ _ _ _ hx hf := hx.bind hf
  speak _ f := maintains_get.bind fun s => maintains_pure (f s.version)
  look _ _ _ hs := hs
  call c hc s hs := by
    simp only [commit, hworks]
    exact hs.call _ (hc.small hsend) fun key value hcreate => h key value (hcreate ▸ hc)
  negotiate _ _ _ hs := hs

end Commands

end Session

open TcpServer

theorem TcpServer.run_recorded {env : Environment} {database : RadishDB Bytes} {S : Bytes → Prop}
    (h : database.Recorded S) (hworks : ∀ n, env.fault n = none) (happenings : List Happening) :
    ((start database).run env happenings).database.Recorded fun value =>
      S value ∨ ((start database).run env happenings).Sent value := by
  have hmore := h.mono fun value hvalue =>
    (Or.inl hvalue : S value ∨ ((start database).run env happenings).Sent value)
  refine run_maintains hmore ?_
  intro session hsession command hcommand hsend
  refine (Session.composed_recorded hworks hsend ?_).dispatch
  intro key value hasks
  exact Or.inr ⟨session, hsession, command, hcommand, key, hasks⟩

/-- What the disk holds when servers with any options have used the data file one after the other,
the disk did not fail under their commands, and what their clients have sent to be stored. -/
def SentFile : LogWriter → (Bytes → Prop) → Prop :=
  Handed (fun _ => False) (fun _ env _ => ∀ n, env.fault n = none)
    (fun S server value => S value ∨ server.Sent value)

theorem SentFile.reopens {disk : LogWriter} {S : Bytes → Prop} (h : SentFile disk S)
    {now ttl : Timestamp} {database : RadishDB Bytes}
    (hnew : RadishDB.new now ttl .flush disk = .ok database) :
    database.store.Drawn S ∧ database.Recorded S := by
  refine Handed.holds (P := fun disk S => ∀ now ttl database,
    RadishDB.new now ttl .flush disk = .ok database →
      database.store.Drawn S ∧ database.Recorded S)
    (Q := fun db S => db.Recorded S) ?_ ?_ ?_ ?_ h now ttl database hnew
  · intro disk missing now ttl database hnew
    obtain ⟨hstore, hlogged⟩ := fresh_of_absent missing hnew
    refine ⟨?_, Or.inr ⟨[], hlogged.sized_nil, List.forall_mem_nil _⟩⟩
    rw [hstore]
    exact RadishStore.drawn_new _ _
  · intro disk S options now database hbefore opens env happenings works
    exact run_recorded (hbefore _ _ _ opens).2 works happenings
  · exact fun db S fault order now hdb => hdb.compact fault order now
  · exact fun db S disk hdb hdisk now ttl database hnew => hdb.reopens hdisk hnew

end Radish
