import Radish.Keyspace
import Radish.Library.LedgerReading
import Radish.Sessions

/-!
# Calls during which time passes

`Scan`, `Size`, `Replay` and `Compact` read the clock in every turn of their loops. The functions
here do so too; read only once, the clock makes them the functions that take one time. A replay and
a compaction are readers of the log, wherever the clock has been between their start and their end.
-/

namespace Radish
set_option autoImplicit false

open Ledger LogReader

variable {V : Type}

/-- The turns of a loop, each with what the clock shows then. -/
def timed {α : Type} (clock : Nat → Timestamp) (l : List α) : List (Timestamp × α) :=
  l.mapIdx fun n a => (clock n, a)

section Timed
variable {α β : Type} {clock : Nat → Timestamp} {l : List α}

theorem map_snd_timed (clock : Nat → Timestamp) (l : List α) :
    (timed clock l).map Prod.snd = l := by
  apply List.ext_getElem?
  intro n
  simp [timed]

theorem timed_map (f : α → β) :
    timed clock (l.map f) = (timed clock l).map fun p => (p.1, f p.2) := by
  apply List.ext_getElem?
  intro n
  simp [timed, Function.comp_def]

theorem timed_const (now : Timestamp) (l : List α) :
    timed (fun _ => now) l = l.map fun a => (now, a) := by
  apply List.ext_getElem?
  intro n
  simp [timed]

theorem exists_reading {p : Timestamp × α} (h : p ∈ timed clock l) : ∃ n, clock n = p.1 := by
  obtain ⟨n, hn, rfl⟩ := List.mem_mapIdx.mp h
  exact ⟨n, rfl⟩

theorem exists_turn (clock : Nat → Timestamp) {a : α} (h : a ∈ l) :
    ∃ now, (now, a) ∈ timed clock l := by
  rw [← map_snd_timed clock l] at h
  obtain ⟨⟨now, b⟩, hmem, rfl⟩ := List.mem_map.mp h
  exact ⟨now, hmem⟩

end Timed

theorem filter_sublist_filter {α : Type} {p q : α → Bool} {l : List α}
    (h : ∀ a ∈ l, p a = true → q a = true) : (l.filter p).Sublist (l.filter q) := by
  have hboth : (l.filter q).filter p = l.filter p := by
    rw [List.filter_filter]
    apply List.filter_congr
    intro a ha
    cases hp : p a with
    | false => rfl
    | true => simp [h a ha hp]
  rw [← hboth]
  exact List.filter_sublist

namespace RadishStore

def scanTicking (order : Traversal Key) (clock : Nat → Timestamp) (store : RadishStore V) :
    List Key :=
  ((timed clock (order.visit store.data.keys)).filter fun p => !store.isExpired p.1 p.2).map
    Prod.snd

def sizeTicking (clock : Nat → Timestamp) (store : RadishStore V) : Nat :=
  (timed clock store.data.keys).countP fun p => !store.isExpired p.1 p.2

end RadishStore

namespace LogWriter

/-- The loop of `Compact`. -/
def compactEventsTicking (events : EventsMap V) :
    List (Timestamp × RadishEvent V) → Except Exception (EventsMap V)
  | [] => return events
  | (now, event) :: rest => do
    let events ← compactStep now events event
    compactEventsTicking events rest

/-- The entries that the loop of `RewriteHistory` does not leave out, in the order it meets them. -/
def survivorsTicking (order : Traversal (Σ _ : Key, RadishEvent V)) (clock : Nat → Timestamp)
    (events : EventsMap V) : EventsMap V where
  entries := ((timed clock (order.visit events.entries)).filter
    fun p => !isPast p.1 p.2.2.timestamp).map Prod.snd
  nodupKeys := by
    have hvisited : (order.visit events.entries).NodupKeys :=
      ((order.perm events.entries).map Sigma.fst).nodup_iff.mpr events.nodupKeys
    rw [← map_snd_timed clock (order.visit events.entries)] at hvisited
    exact hvisited.sublist (List.filter_sublist.map Prod.snd)

/-- The loop of `Replay`. -/
def applyEventsTicking (store : RadishStore V) :
    List (Timestamp × RadishEvent V) → Except Exception (RadishStore V)
  | [] => return store
  | (now, event) :: rest => do
    let (_, store) ← applyEvent now store event
    applyEventsTicking store rest

variable [BinaryValue V]

/-- What the loop leaves is written down as at a time when nothing is past. -/
def rewriteHistoryTicking (fault : Option Fault) (order : Traversal (Σ _ : Key, RadishEvent V))
    (clock : Nat → Timestamp) (writer : LogWriter) (events : EventsMap V) :
    Except Exception Unit × LogWriter :=
  rewriteHistory fault .listed Int64.minValue writer (survivorsTicking order clock events)

/-- `clock'` is that of `RewriteHistory`. -/
def compactTicking (fault : Option Fault) (order : Traversal (Σ _ : Key, RadishEvent V))
    (clock clock' : Nat → Timestamp) (writer : LogWriter) : Except Exception Unit × LogWriter :=
  match LogReader.getEvents (Fault.read fault) writer.log with
  | .error e => (.error e, writer)
  | .ok events =>
    match compactEventsTicking ∅ (timed clock events) with
    | .error e => (.error e, writer)
    | .ok events => rewriteHistoryTicking fault order clock' writer events

def replayTicking (fault : Option Fault) (clock : Nat → Timestamp) (writer : LogWriter)
    (store : RadishStore V) : Except Exception (RadishStore V) := do
  let events ← LogReader.getEvents (Fault.read fault) writer.log
  applyEventsTicking store (timed clock events)

end LogWriter

namespace RadishDB
variable [BinaryValue V]

def newTicking (clock : Nat → Timestamp) (ttl : Timestamp) (mode : PersistenceMode)
    (writer : LogWriter) : Except Exception (RadishDB V) :=
  match mode with
  | .disabled => return ⟨RadishStore.new ttl, none⟩
  | .flush => do
    let writer ← writer.ensureInitialized
    let store ← writer.replayTicking none clock (RadishStore.new ttl)
    return ⟨store, some writer⟩

def compactTicking (fault : Option Fault) (order : Traversal (Σ _ : Key, RadishEvent V))
    (clock clock' : Nat → Timestamp) (db : RadishDB V) : Except Exception Unit × RadishDB V :=
  match db.persistence with
  | none => (.ok (), db)
  | some writer =>
    let (result, writer) := writer.compactTicking (V := V) fault order clock clock'
    (result, { db with persistence := some writer })

end RadishDB

/-! ## Where the clock stands still -/

namespace RadishStore

theorem scanTicking_const (order : Traversal Key) (now : Timestamp) (store : RadishStore V) :
    store.scanTicking order (fun _ => now) = store.scan order now := by
  rw [scanTicking, timed_const, List.filter_map, List.map_map]
  exact List.map_id _

theorem sizeTicking_const (now : Timestamp) (store : RadishStore V) :
    store.sizeTicking (fun _ => now) = store.size now := by
  rw [sizeTicking, timed_const, List.countP_map]
  rfl

end RadishStore

namespace LogWriter

theorem compactEventsTicking_const (now : Timestamp) (events : EventsMap V)
    (log : List (RadishEvent V)) :
    compactEventsTicking events (timed (fun _ => now) log) = compactEvents now events log := by
  rw [timed_const]
  induction log generalizing events with
  | nil => rfl
  | cons event log ih =>
    simp only [List.map_cons, compactEventsTicking, compactEvents]
    congr
    funext events'
    exact ih events'

theorem isPast_minValue (timestamp : Timestamp) : isPast Int64.minValue timestamp = false := by
  have hle : ¬ timestamp < Int64.minValue := Int64.not_lt.mpr (Int64.minValue_le timestamp)
  simp [isPast, hle]

theorem survivors_survivorsTicking (order : Traversal (Σ _ : Key, RadishEvent V))
    (clock : Nat → Timestamp) (events : EventsMap V) :
    survivors .listed Int64.minValue (survivorsTicking order clock events) =
      ((timed clock (order.visit events.entries)).filter
        fun p => !isPast p.1 p.2.2.timestamp).map fun p => p.2.2 := by
  have hall : ∀ l : List (RadishEvent V),
      (l.filter fun event => !isPast Int64.minValue event.timestamp) = l := by
    intro l
    rw [List.filter_eq_self]
    intro event _
    rw [isPast_minValue]
    rfl
  rw [survivors, hall]
  exact List.map_map

variable [BinaryValue V]

theorem rewriteHistoryTicking_const (fault : Option Fault)
    (order : Traversal (Σ _ : Key, RadishEvent V)) (now : Timestamp) (writer : LogWriter)
    (events : EventsMap V) :
    rewriteHistoryTicking fault order (fun _ => now) writer events =
      rewriteHistory fault order now writer events := by
  have hsame : survivors .listed Int64.minValue (survivorsTicking order (fun _ => now) events) =
      survivors order now events := by
    rw [survivors_survivorsTicking, timed_const, List.filter_map, List.map_map, survivors,
      List.filter_map]
    rfl
  rw [rewriteHistoryTicking]
  unfold rewriteHistory
  rw [hsame]

theorem compactTicking_const (fault : Option Fault) (order : Traversal (Σ _ : Key, RadishEvent V))
    (now : Timestamp) (writer : LogWriter) :
    writer.compactTicking (V := V) fault order (fun _ => now) (fun _ => now) =
      writer.compact (V := V) fault order now := by
  unfold compactTicking compact
  cases LogReader.getEvents (V := V) (Fault.read fault) writer.log with
  | error e => rfl
  | ok events =>
    dsimp only
    rw [compactEventsTicking_const]
    cases compactEvents now ∅ events with
    | error e => rfl
    | ok events => exact rewriteHistoryTicking_const fault order now writer events

theorem replayTicking_const (fault : Option Fault) (now : Timestamp) (writer : LogWriter)
    (store : RadishStore V) :
    writer.replayTicking fault (fun _ => now) store = writer.replay fault now store := by
  have hevents : ∀ (store : RadishStore V) (events : List (RadishEvent V)),
      applyEventsTicking store (timed (fun _ => now) events) = applyEvents now store events := by
    intro store events
    rw [timed_const]
    induction events generalizing store with
    | nil => rfl
    | cons event events ih =>
      simp only [List.map_cons, applyEventsTicking, applyEvents]
      congr
      funext result
      exact ih result.2
  simp only [replayTicking, replay, hevents]

end LogWriter

namespace RadishDB
variable [BinaryValue V]

theorem newTicking_const (now ttl : Timestamp) (mode : PersistenceMode) (writer : LogWriter) :
    (newTicking (fun _ => now) ttl mode writer : Except Exception (RadishDB V)) =
      new now ttl mode writer := by
  cases mode with
  | disabled => rfl
  | flush => simp only [newTicking, new, initializePersistence, LogWriter.replayTicking_const]

theorem compactTicking_const (fault : Option Fault) (order : Traversal (Σ _ : Key, RadishEvent V))
    (now : Timestamp) (db : RadishDB V) :
    db.compactTicking fault order (fun _ => now) (fun _ => now) = db.compact fault order now := by
  obtain ⟨store, persistence⟩ := db
  cases persistence with
  | none => rfl
  | some writer => simp only [compactTicking, compact, LogWriter.compactTicking_const]

end RadishDB

/-! ## Wherever the clock is -/

namespace RadishStore
variable (store : RadishStore V) {clock : Nat → Timestamp}

/-- A listing leaves out nothing that is shown until the end, and has nothing in it that was not
shown at the start. -/
theorem scanTicking_between {early late : Timestamp}
    (hclock : ∀ n, early ≤ clock n ∧ clock n ≤ late) (order : Traversal Key) :
    (store.scan order late).Sublist (store.scanTicking order clock) ∧
      (store.scanTicking order clock).Sublist (store.scan order early) := by
  have hscan : ∀ t, store.scan order t = ((timed clock (order.visit store.data.keys)).filter
      fun p => !store.isExpired t p.2).map Prod.snd := by
    intro t
    rw [scan, ← map_snd_timed clock (order.visit store.data.keys), List.filter_map, map_snd_timed]
    rfl
  have hmono : ∀ {t t'} {key : Key}, t ≤ t' → (!store.isExpired t' key) = true →
      (!store.isExpired t key) = true := by
    intro t t' key hle hshown
    rw [Bool.not_eq_true', Bool.eq_false_iff] at hshown ⊢
    exact fun hexpired => hshown (isExpired_mono hle hexpired)
  rw [hscan late, hscan early]
  constructor
  · refine List.Sublist.map _ (filter_sublist_filter ?_)
    intro p hp hshown
    obtain ⟨n, hn⟩ := exists_reading hp
    exact hmono (hn ▸ (hclock n).2) hshown
  · refine List.Sublist.map _ (filter_sublist_filter ?_)
    intro p hp hshown
    obtain ⟨n, hn⟩ := exists_reading hp
    exact hmono (hn ▸ (hclock n).1) hshown

theorem sizeTicking_between {early late : Timestamp}
    (hclock : ∀ n, early ≤ clock n ∧ clock n ≤ late) :
    store.size late ≤ store.sizeTicking clock ∧ store.sizeTicking clock ≤ store.size early := by
  have hsize : store.sizeTicking clock = (store.scanTicking .listed clock).length := by
    rw [sizeTicking, scanTicking, List.length_map, List.countP_eq_length_filter]
    rfl
  obtain ⟨hlate, hearly⟩ := store.scanTicking_between hclock .listed
  rw [size_eq_length_scan .listed, size_eq_length_scan .listed, hsize]
  exact ⟨hlate.length_le, hearly.length_le⟩

end RadishStore

theorem Binding.alive_mono {t t' : Timestamp} (h : t ≤ t') (binding : Binding V)
    (halive : binding.alive t' = true) : binding.alive t = true := by
  obtain ⟨value, deadline⟩ := binding
  cases deadline with
  | none => rfl
  | some deadline =>
    simp only [alive, Option.all_some, decide_eq_true_eq] at halive ⊢
    exact Int64.lt_of_le_of_lt h halive

/-- What a log says of the keyspace, opened with this ttl. -/
def told (ttl : Timestamp) (ms : List (Mutation V)) : List (Action Key (Binding V)) :=
  (ms.map Mutation.action).map (Action.map (RadishStore.binding ttl))

namespace LogWriter

/-! ### Replays -/

theorem applyEventsTicking_reads {store : RadishStore V} (h : store.Coherent)
    (ps : List (Timestamp × Mutation V)) :
    ∃ store', applyEventsTicking store (ps.map fun p => (p.1, p.2.toEvent)) = .ok store' ∧
      store'.Coherent ∧ store'.ttl = store.ttl ∧
      ∀ t, (∀ p ∈ ps, p.1 ≤ t) → ReadsAll (Binding.alive t) store.keyspace
        (told store.ttl (ps.map Prod.snd)) store'.keyspace := by
  induction ps generalizing store with
  | nil => exact ⟨store, rfl, h, rfl, fun _ _ => .nil⟩
  | cons p ps ih =>
    obtain ⟨now, m⟩ := p
    obtain ⟨store', hrest, hcoherent, httl, hreads⟩ := ih (h.apply now m)
    rw [RadishStore.apply_ttl] at httl hreads
    refine ⟨store', ?_, hcoherent, httl, ?_⟩
    · rw [List.map_cons, applyEventsTicking, applyEvent_toEvent]
      exact hrest
    · intro t ht
      refine .cons ?_ (hreads t fun q hq => ht q (List.mem_cons_of_mem _ hq))
      rw [h.keyspace_apply]
      exact replayStep_reads (Binding.alive_mono (ht _ List.mem_cons_self)) _ _

/-! ### Compactions -/

theorem compactEventsTicking_reads {events : EventsMap V} {m : Map Key (V × Timestamp)}
    (h : Represents events m) {late : V × Timestamp → Bool} (ps : List (Timestamp × Mutation V))
    (hkeep : ∀ p ∈ ps, ∀ k e, p.2.action = .put k e → late e = true → keep p.1 e = true) :
    ∃ events' m', compactEventsTicking events (ps.map fun p => (p.1, p.2.toEvent)) = .ok events' ∧
      Represents events' m' ∧ ReadsAll late m ((ps.map Prod.snd).map Mutation.action) m' := by
  induction ps generalizing events m with
  | nil => exact ⟨events, m, rfl, h, .nil⟩
  | cons p ps ih =>
    obtain ⟨now, mutation⟩ := p
    obtain ⟨middle, hstep, hmiddle⟩ := compactStep_represents h now mutation
    obtain ⟨events', m', hrest, hrep, hreads⟩ :=
      ih hmiddle fun q hq => hkeep q (List.mem_cons_of_mem _ hq)
    refine ⟨events', m', ?_, hrep, ?_⟩
    · rw [List.map_cons, compactEventsTicking, hstep]
      exact hrest
    · exact .cons (summaryStep_reads m (hkeep _ List.mem_cons_self)) hreads

/-- What is written lists what the events map stands for, but for what is past by then. -/
theorem survivorsTicking_spec {events : EventsMap V} {m : Map Key (V × Timestamp)}
    (h : Represents events m) (order : Traversal (Σ _ : Key, RadishEvent V))
    (clock : Nat → Timestamp) :
    ∃ es : List (Key × V × Timestamp),
      survivors .listed Int64.minValue (survivorsTicking order clock events) =
        es.map (fun p => (Mutation.ofEntry p).toEvent) ∧
      (∀ k e, (k, e) ∈ es → m k = some e) ∧
      ∀ k e, m k = some e → (∀ n, keep (clock n) e = true) → (k, e) ∈ es := by
  have hmem : ∀ s : Σ _ : Key, RadishEvent V, s ∈ (survivorsTicking order clock events).entries ↔
      ∃ now, (now, s) ∈ timed clock (order.visit events.entries) ∧
        isPast now s.2.timestamp = false := by
    intro s
    simp [survivorsTicking, List.mem_map, List.mem_filter]
  let kept : Map Key (V × Timestamp) := fun k =>
    if ((survivorsTicking order clock events).lookup k).isSome then m k else none
  have hkept : ∀ k e, kept k = some e → m k = some e := by
    intro k e hk
    dsimp only [kept] at hk
    split at hk
    · exact hk
    · cases hk
  have hrep : Represents (survivorsTicking order clock events) kept := by
    intro k
    cases hlookup : (survivorsTicking order clock events).lookup k with
    | none => simp [kept, hlookup]
    | some event =>
      obtain ⟨now, hturn, -⟩ := (hmem ⟨k, event⟩).mp (AList.mem_lookup_iff.mp hlookup)
      have hvisited : (⟨k, event⟩ : Σ _ : Key, RadishEvent V) ∈ order.visit events.entries := by
        rw [← map_snd_timed clock (order.visit events.entries)]
        exact List.mem_map_of_mem hturn
      have hevent := AList.mem_lookup_iff.mpr ((order.perm _).mem_iff.mp hvisited)
      have hmk : kept k = m k := by simp [kept, hlookup]
      rw [hmk, ← h k]
      exact hevent.symm
  obtain ⟨es, -, hes, hsurvivors⟩ :=
    survivors_spec hrep (fun _ entry _ => isPast_minValue entry.2) .listed
  refine ⟨es, hsurvivors, fun k e hk => hkept k e ((hes k e).mp hk), ?_⟩
  intro k e hk hkeep
  have hlookup : events.lookup k = some (Mutation.ofEntry (k, e)).toEvent := by
    rw [h k, hk]
    rfl
  have hvisited := (order.perm _).mem_iff.mpr (AList.mem_lookup_iff.mp hlookup)
  obtain ⟨now, hturn⟩ := exists_turn clock hvisited
  obtain ⟨n, hn⟩ := exists_reading hturn
  have hpast : isPast now e.2 = false := by
    have hn' := hkeep n
    rw [hn] at hn'
    simpa [keep] using hn'
  have hsurvives := AList.mem_lookup_iff.mpr ((hmem _).mpr ⟨now, hturn, hpast⟩)
  rw [hes]
  dsimp only [kept]
  rw [hsurvives]
  exact hk

section Compacting
variable [BinaryValue V] {fault : Option Fault} {order : Traversal (Σ _ : Key, RadishEvent V)}
  {clock clock' : Nat → Timestamp} {writer writer' : LogWriter}

theorem getEvents_of_fault {log : Option Bytes} {events : List (RadishEvent V)}
    (h : getEvents (Fault.read fault) log = .ok events) : getEvents none log = .ok events := by
  cases log with
  | none => exact h
  | some file =>
    cases hfault : Fault.read fault with
    | none => rwa [hfault] at h
    | some e =>
      rw [hfault] at h
      cases h

/-- A compaction that completes is a reader of the log, and leaves a listing of what it has read. -/
theorem compactTicking_reads {ms : List (Mutation V)} {late : V × Timestamp → Bool}
    (hread : getEvents none writer.log = .ok (ms.map Mutation.toEvent))
    (hkeep : ∀ n k e, Action.put k e ∈ ms.map Mutation.action → late e = true →
      keep (clock n) e = true ∧ keep (clock' n) e = true)
    (h : writer.compactTicking (V := V) fault order clock clock' = (.ok (), writer')) :
    ∃ m, ∃ es : List (Key × V × Timestamp),
      ReadsAll late (fun _ => none) (ms.map Mutation.action) m ∧
      (∀ k e, (k, e) ∈ es → m k = some e) ∧ (∀ k e, m k = some e → late e = true → (k, e) ∈ es) ∧
      (∀ p ∈ es, Accepted (Mutation.ofEntry p).toEvent) ∧
      writer'.log = some (kHeader ++
        ((es.map Mutation.ofEntry).map Mutation.toEvent).flatMap frame) := by
  have hempty : Represents (∅ : EventsMap V) (fun _ => none) := fun _ => rfl
  have hturns : ∀ p ∈ timed clock ms, ∀ k e, p.2.action = .put k e → late e = true →
      keep p.1 e = true := by
    intro p hp k e hput hlate
    obtain ⟨n, hn⟩ := exists_reading hp
    have hmem : p.2 ∈ ms := by
      rw [← map_snd_timed clock ms]
      exact List.mem_map_of_mem hp
    exact hn ▸ (hkeep n k e (hput ▸ List.mem_map_of_mem hmem) hlate).1
  obtain ⟨events, m, hevents, hrep, hreads⟩ := compactEventsTicking_reads hempty _ hturns
  rw [← timed_map] at hevents
  rw [map_snd_timed] at hreads
  obtain ⟨es, hsurvivors, hsound, hcomplete⟩ := survivorsTicking_spec hrep order clock'
  unfold compactTicking at h
  split at h
  · cases h
  · rename_i log hlog
    obtain rfl := Except.ok.inj ((getEvents_of_fault hlog).symm.trans hread)
    rw [hevents] at h
    obtain ⟨haccepted, rfl⟩ := rewriteHistory_eq_ok_iff.mp (rewriteHistory_completed h)
    rw [hsurvivors, List.forall_mem_map] at haccepted
    refine ⟨m, es, hreads, hsound, ?_, haccepted, ?_⟩
    · intro k e hk hlate
      obtain ⟨x, hput⟩ := hreads.source hk
      exact hcomplete k e hk fun n => (hkeep n x e hput hlate).2
    · rw [hsurvivors, List.map_map]
      rfl

/-- One that throws has touched nothing but the temporary file. -/
theorem compactTicking_failed {e : Exception}
    (h : (writer.compactTicking (V := V) fault order clock clock').1 = .error e) :
    (writer.compactTicking (V := V) fault order clock clock').2.log = writer.log := by
  revert h
  unfold compactTicking
  split
  · exact fun _ => rfl
  · split
    · exact fun _ => rfl
    · exact rewriteHistory_failed

end Compacting

end LogWriter

end Radish
