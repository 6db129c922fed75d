import Radish.Library.LedgerSummary
import Radish.LogGrammar
import Radish.StoreLedger

/-!
# Compaction

`Compact` summarises the log: it replays the events over a map of surviving CREATE events and
writes these down. The written list, replayed in whatever order it was met, is the summary.
-/

namespace Radish
set_option autoImplicit false
open Ledger

variable {V : Type}

/-- The event that puts one entry back. -/
def Mutation.ofEntry (p : Key × V × Timestamp) : Mutation V := .create p.2.2 p.1 p.2.1

theorem Mutation.eq_ofEntry {m : Mutation V} {p : Key × V × Timestamp}
    (h : m.action = .put p.1 p.2) : m = ofEntry p := by
  cases m with
  | create timestamp key payload =>
    injection h with hkey hentry
    simp [ofEntry, ← hkey, ← hentry]
  | _ => cases h

namespace LogWriter

/-- The entries `Compact` does not leave out. -/
def keep (now : Timestamp) (entry : V × Timestamp) : Bool := !isPast now entry.2

/-- The summary of a list of events at a time. -/
def compacted (now : Timestamp) (ms : List (Mutation V)) : Map Key (V × Timestamp) :=
  summary (keep now) (fun _ => none) (ms.map Mutation.action)

theorem compacted_append (now : Timestamp) (ms : List (Mutation V)) (m : Mutation V) :
    compacted now (ms ++ [m]) = summaryStep (keep now) (compacted now ms) m.action := by
  simp [compacted, summary_append]

/-- The events map holds one CREATE for each entry of the ledger. -/
def Represents (events : EventsMap V) (m : Map Key (V × Timestamp)) : Prop :=
  ∀ k, events.lookup k = (m k).map fun entry => (Mutation.ofEntry (k, entry)).toEvent

theorem Represents.insert {events : EventsMap V} {m : Map Key (V × Timestamp)}
    (h : Represents events m) (key : Key) (entry : V × Timestamp) :
    Represents (events.insert key (Mutation.ofEntry (key, entry)).toEvent) (put m key entry) := by
  intro k
  rw [DataMap.lookup_insert, put_apply]
  split
  · rename_i hk
    rw [hk]
    rfl
  · exact h k

theorem Represents.erase {events : EventsMap V} {m : Map Key (V × Timestamp)}
    (h : Represents events m) (key : Key) : Represents (events.erase key) (drop m key) := by
  intro k
  rw [DataMap.lookup_erase, drop_apply]
  split
  · rfl
  · exact h k

theorem compactStep_represents {events : EventsMap V} {m : Map Key (V × Timestamp)}
    (h : Represents events m) (now : Timestamp) (event : Mutation V) :
    ∃ events', compactStep now events event.toEvent = .ok events' ∧
      Represents events' (summaryStep (keep now) m event.action) := by
  cases event with
  | create timestamp key payload =>
    by_cases hpast : isPast now timestamp = true
    · refine ⟨events, ?_, ?_⟩
      · exact if_pos ⟨rfl, hpast⟩
      · simpa [summaryStep, Mutation.action, keep, hpast] using h
    · refine ⟨events.insert key (Mutation.create timestamp key payload).toEvent, ?_, ?_⟩
      · exact if_neg fun hand => hpast hand.2
      · have hput := h.insert key (payload, timestamp)
        simpa [summaryStep, Mutation.action, keep, hpast, Mutation.ofEntry] using hput
  | rename timestamp key renameKey =>
    have hkey := h key
    cases hentry : m key with
    | none =>
      rw [hentry] at hkey
      have hcarry : carry m key renameKey = m := carry_of_none renameKey hentry
      refine ⟨events, ?_, ?_⟩
      · simp [compactStep, Mutation.toEvent, compactStrategies, renameCompactStrategy, hkey, ok_bind,
          pure, Except.pure]
      · simpa [summaryStep, Mutation.action, hcarry] using h
    | some entry =>
      rw [hentry] at hkey
      have hcarry : carry m key renameKey = put (drop m key) renameKey entry := by
        simp [carry, hentry]
      refine ⟨(events.erase key).insert renameKey (Mutation.ofEntry (renameKey, entry)).toEvent, ?_, ?_⟩
      · simp [compactStep, Mutation.toEvent, compactStrategies, renameCompactStrategy, hkey, ok_bind,
          Mutation.ofEntry]
      · simpa [summaryStep, Mutation.action, hcarry] using (h.erase key).insert renameKey entry
  | delete timestamp key => exact ⟨events.erase key, rfl, h.erase key⟩
  | clear timestamp => exact ⟨∅, rfl, fun _ => rfl⟩

theorem compactEvents_represents {events : EventsMap V} {m : Map Key (V × Timestamp)}
    (h : Represents events m) (now : Timestamp) (ms : List (Mutation V)) :
    ∃ events', compactEvents now events (ms.map Mutation.toEvent) = .ok events' ∧
      Represents events' (summary (keep now) m (ms.map Mutation.action)) := by
  induction ms generalizing events m with
  | nil => exact ⟨events, rfl, h⟩
  | cons event ms ih =>
    rcases compactStep_represents h now event with ⟨middle, hstep, hmiddle⟩
    rcases ih hmiddle with ⟨events', hrest, hrep⟩
    refine ⟨events', ?_, hrep⟩
    rw [List.map_cons, compactEvents, hstep]
    exact hrest

/-- Every entry of a summary passes the second test of `RewriteHistory`, so nothing is dropped
there. -/
theorem compacted_keeps {now : Timestamp} {ms : List (Mutation V)} {k : Key} {entry : V × Timestamp}
    (h : compacted now ms k = some entry) : isPast now entry.2 = false := by
  have hkeep : keep now entry = true :=
    summary_keeps (fun _ _ hnone => by cases hnone) (ms.map Mutation.action) h
  simpa [keep] using hkeep

/-- The entry that an event of a map standing for `m` records. -/
def entryOf (m : Map Key (V × Timestamp)) (s : Σ _ : Key, RadishEvent V) :
    Option (Key × V × Timestamp) :=
  (m s.1).map fun entry => (s.1, entry)

theorem entryOf_eq_some_iff {m : Map Key (V × Timestamp)} {s : Σ _ : Key, RadishEvent V} {k : Key}
    {entry : V × Timestamp} : entryOf m s = some (k, entry) ↔ s.1 = k ∧ m k = some entry := by
  unfold entryOf
  constructor
  · intro h
    rcases Option.map_eq_some_iff.mp h with ⟨e, he, hpair⟩
    injection hpair with hkey hentry
    subst hkey hentry
    exact ⟨rfl, he⟩
  · rintro ⟨rfl, hm⟩
    rw [hm]
    rfl

/-- Events that record entries that are not past all survive, one for each key. -/
theorem filter_isPast_eq {m : Map Key (V × Timestamp)} {now : Timestamp}
    (hkeep : ∀ k entry, m k = some entry → isPast now entry.2 = false)
    {l : List (Σ _ : Key, RadishEvent V)}
    (hl : ∀ s ∈ l, ∃ entry, m s.1 = some entry ∧ s.2 = (Mutation.ofEntry (s.1, entry)).toEvent) :
    (l.filterMap (entryOf m)).map Prod.fst = l.map Sigma.fst ∧
      (l.map Sigma.snd).filter (fun event => !isPast now event.timestamp) =
        (l.filterMap (entryOf m)).map fun p => (Mutation.ofEntry p).toEvent := by
  induction l with
  | nil => exact ⟨rfl, rfl⟩
  | cons s l ih =>
    rcases ih fun x hx => hl x (List.mem_cons_of_mem _ hx) with ⟨hkeys, hevents⟩
    rcases hl s List.mem_cons_self with ⟨entry, hm, hs⟩
    have hentry : entryOf m s = some (s.1, entry) := entryOf_eq_some_iff.mpr ⟨rfl, hm⟩
    have hlive : isPast now s.2.timestamp = false := by
      rw [hs]
      exact hkeep s.1 entry hm
    constructor
    · simp [hentry, hkeys]
    · rw [List.map_cons, List.filter_cons_of_pos (by simp [hlive]), hevents,
        List.filterMap_cons_some hentry, List.map_cons, hs]

/-- The survivors list the ledger they represent. -/
theorem survivors_spec {events : EventsMap V} {m : Map Key (V × Timestamp)}
    (h : Represents events m) {now : Timestamp}
    (hkeep : ∀ k entry, m k = some entry → isPast now entry.2 = false)
    (order : Traversal (Σ _ : Key, RadishEvent V)) :
    ∃ es : List (Key × V × Timestamp), (es.map Prod.fst).Nodup ∧
      (∀ k entry, (k, entry) ∈ es ↔ m k = some entry) ∧
      survivors order now events = es.map fun p => (Mutation.ofEntry p).toEvent := by
  have hperm := order.perm events.entries
  have hsound : ∀ s ∈ order.visit events.entries, ∃ entry, m s.1 = some entry ∧
      s.2 = (Mutation.ofEntry (s.1, entry)).toEvent := by
    intro s hs
    have hlookup : events.lookup s.1 = some s.2 :=
      AList.mem_lookup_iff.mpr (hperm.mem_iff.mp hs)
    rw [h s.1] at hlookup
    cases hm : m s.1 with
    | none => simp [hm] at hlookup
    | some entry => exact ⟨entry, rfl, by simpa [hm, eq_comm] using hlookup⟩
  rcases filter_isPast_eq hkeep hsound with ⟨hkeys, hevents⟩
  refine ⟨(order.visit events.entries).filterMap (entryOf m), ?_, ?_, hevents⟩
  · rw [hkeys]
    exact (hperm.map Sigma.fst).nodup_iff.mpr events.nodupKeys
  · intro k entry
    rw [List.mem_filterMap]
    constructor
    · rintro ⟨s, -, hs⟩
      exact (entryOf_eq_some_iff.mp hs).2
    · intro hm
      have hlookup : events.lookup k = some (Mutation.ofEntry (k, entry)).toEvent := by
        rw [h k, hm]
        rfl
      exact ⟨⟨k, (Mutation.ofEntry (k, entry)).toEvent⟩,
        hperm.mem_iff.mpr (AList.mem_lookup_iff.mp hlookup), entryOf_eq_some_iff.mpr ⟨rfl, hm⟩⟩

/-! ## The rewritten file -/

section File
variable [BinaryValue V] {fault : Option Fault} {order : Traversal (Σ _ : Key, RadishEvent V)}
  {now : Timestamp} {writer writer' : LogWriter}

theorem rewriteHistory_eq_ok_iff {events : EventsMap V} :
    rewriteHistory none order now writer events = (.ok (), writer') ↔
      (∀ e ∈ survivors order now events, Accepted e) ∧
        writer' = ⟨writer.filename,
          some (LogReader.kHeader ++ (survivors order now events).flatMap frame), none⟩ := by
  unfold rewriteHistory
  rw [if_neg (by simp)]
  rcases h : writeRecords LogReader.kHeader (survivors order now events) with ⟨_ | ⟨⟨⟩⟩, file⟩
  · have hno : ¬ ∀ e ∈ survivors order now events, Accepted e := by
      intro hall
      have hok : writeRecords LogReader.kHeader (survivors order now events) = _ :=
        writeRecords_eq_ok_iff.mpr ⟨hall, rfl⟩
      rw [h] at hok
      cases hok
    simp [hno]
  · rcases writeRecords_eq_ok_iff.mp h with ⟨hall, rfl⟩
    rw [and_iff_right hall]
    simp [eq_comm]

/-- A rewrite that completes has met no fault. -/
theorem rewriteHistory_completed {events : EventsMap V}
    (h : rewriteHistory fault order now writer events = (.ok (), writer')) :
    rewriteHistory none order now writer events = (.ok (), writer') := by
  unfold rewriteHistory at h ⊢
  rw [if_neg (by simp)]
  split at h
  · cases h
  · generalize writeRecords LogReader.kHeader (survivors order now events) = written at h ⊢
    rcases written with ⟨_ | ⟨⟨⟩⟩, file⟩
    · -- a refused record ends the rewrite, whatever else happens
      rcases fault with _ | ⟨_ | _ | _ | _ | _ | _⟩ <;> dsimp only at h
      case some.writeFails =>
        split at h
        · cases h
        · split at h <;> cases h
      all_goals cases h
    · cases fault with
      | none => exact h
      | some f =>
        cases f with
        | cannotRead e => exact h
        | cannotOpen => exact h
        | writeFails reached =>
          dsimp only at h
          split at h
          · cases h
          · split at h
            · cases h
            · exact h
        | flushFails reached => cases h
        | closeFails reached => cases h
        | renameFails e => cases h

theorem compact_completed (h : writer.compact fault order now = (.ok (), writer')) :
    writer.compact none order now = (.ok (), writer') := by
  unfold compact at h ⊢
  have hread : ∀ events, LogReader.getEvents (V := V) (Fault.read fault) writer.log = .ok events →
      LogReader.getEvents (V := V) (Fault.read none) writer.log = .ok events := by
    intro events
    cases writer.log with
    | none => exact id
    | some file =>
      cases hfault : Fault.read fault with
      | none => exact id
      | some e => exact fun herror => by cases herror
  cases hevents : LogReader.getEvents (V := V) (Fault.read fault) writer.log with
  | error e =>
    rw [hevents] at h
    cases h
  | ok events =>
    rw [hevents] at h
    rw [hread events hevents]
    dsimp only at h ⊢
    split at h
    · cases h
    · exact rewriteHistory_completed h

theorem rewriteHistory_failed {events : EventsMap V} {e : Exception}
    (h : (rewriteHistory fault order now writer events).1 = .error e) :
    (rewriteHistory fault order now writer events).2.log = writer.log := by
  revert h
  unfold rewriteHistory
  split
  · exact fun _ => rfl
  · split
    · split
      · exact fun _ => rfl
      · split
        · exact fun _ => rfl
        · split
          · exact fun _ => rfl
          · intro h
            cases h
    all_goals
      intro h
      first
        | rfl
        | cases h

/-- A compaction that throws has touched nothing but the temporary file. -/
theorem compact_failed {e : Exception} (h : (writer.compact fault order now).1 = .error e) :
    (writer.compact fault order now).2.log = writer.log := by
  revert h
  unfold compact
  split
  · exact fun _ => rfl
  · split
    · exact fun _ => rfl
    · exact rewriteHistory_failed

theorem compact_eq_ok_iff {ms : List (Mutation V)}
    (hread : LogReader.getEvents none writer.log = .ok (ms.map Mutation.toEvent)) :
    ∃ es : List (Key × V × Timestamp), (es.map Prod.fst).Nodup ∧
      (∀ k entry, (k, entry) ∈ es ↔ compacted now ms k = some entry) ∧
      ∀ writer', writer.compact none order now = (.ok (), writer') ↔
        (∀ p ∈ es, Accepted (Mutation.ofEntry p).toEvent) ∧
          writer' = ⟨writer.filename, some (LogReader.kHeader ++
            (es.map fun p => (Mutation.ofEntry p).toEvent).flatMap frame), none⟩ := by
  have hempty : Represents (∅ : EventsMap V) (fun _ => none) := fun _ => rfl
  rcases compactEvents_represents hempty now ms with ⟨events, hevents, hrep⟩
  rcases survivors_spec hrep (fun k entry h => compacted_keeps h) order with
    ⟨es, hnodup, hmem, hsurvivors⟩
  refine ⟨es, hnodup, hmem, fun writer' => ?_⟩
  have hcompact : writer.compact none order now = rewriteHistory none order now writer events := by
    have hfault : LogReader.getEvents (V := V) (Fault.read none) writer.log =
        .ok (ms.map Mutation.toEvent) := hread
    unfold compact
    rw [hfault]
    dsimp only
    rw [hevents]
  rw [hcompact, rewriteHistory_eq_ok_iff, hsurvivors, List.forall_mem_map]

/-- A completed compaction leaves the records of the entries of the summary, which replay to it, and
whose own summary at a later time is what is left of it by then. -/
theorem compact_spec {ms : List (Mutation V)}
    (hread : LogReader.getEvents none writer.log = .ok (ms.map Mutation.toEvent))
    (h : writer.compact fault order now = (.ok (), writer')) :
    ∃ ns : List (Mutation V), (∀ n ∈ ns, Accepted n.toEvent) ∧
      writer'.log = some (LogReader.kHeader ++ (ns.map Mutation.toEvent).flatMap frame) ∧
      (∀ n ∈ ns, ∃ k entry, compacted now ms k = some entry ∧ n = Mutation.ofEntry (k, entry)) ∧
      (∀ alive, Ledger.replay alive (fun _ => none) (ns.map Mutation.action) = compacted now ms) ∧
      ∀ later, compacted later ns = visible (keep later) (compacted now ms) := by
  rcases compact_eq_ok_iff hread with ⟨es, hnodup, hmem, hiff⟩
  rcases (hiff _).mp (compact_completed h) with ⟨haccepted, rfl⟩
  refine ⟨es.map Mutation.ofEntry, List.forall_mem_map.mpr haccepted, ?_, ?_, ?_, ?_⟩
  · rw [List.map_map]
    rfl
  · rw [List.forall_mem_map]
    exact fun p hp => ⟨p.1, p.2, (hmem p.1 p.2).mp hp, rfl⟩
  · intro alive
    rw [List.map_map]
    exact replay_listing alive hnodup hmem
  · intro later
    rw [compacted, List.map_map]
    exact summary_listing (keep later) hnodup hmem

theorem getEvents_compacted {ms : List (Mutation V)}
    (hread : LogReader.getEvents none writer.log = .ok (ms.map Mutation.toEvent))
    (h : writer.compact fault order now = (.ok (), writer')) :
    ∃ ns : List (Mutation V), LogReader.getEvents none writer'.log = .ok (ns.map Mutation.toEvent) ∧
      ∀ alive, Ledger.replay alive (fun _ => none) (ns.map Mutation.action) = compacted now ms := by
  rcases compact_spec hread h with ⟨ns, haccepted, hlog, -, hreplay, -⟩
  refine ⟨ns, ?_, hreplay⟩
  rw [hlog]
  exact getEvents_intactLog "" haccepted

/-- Without renames every survivor is an event of the log, so no record is refused. -/
theorem compact_completes {ms : List (Mutation V)} (order : Traversal (Σ _ : Key, RadishEvent V))
    (now : Timestamp) (hmove : ∀ m ∈ ms, m.action.isMove = false)
    (hread : LogReader.getEvents none writer.log = .ok (ms.map Mutation.toEvent)) :
    ∃ writer', writer.compact none order now = (.ok (), writer') := by
  rcases compact_eq_ok_iff hread with ⟨es, -, hmem, hiff⟩
  refine ⟨_, (hiff _).mpr ⟨?_, rfl⟩⟩
  intro p hp
  have hput : Action.put p.1 p.2 ∈ ms.map Mutation.action :=
    summary_mem (List.forall_mem_map.mpr hmove) ((hmem p.1 p.2).mp hp)
  rcases List.mem_map.mp hput with ⟨m, hm, haction⟩
  rw [← Mutation.eq_ofEntry haction]
  exact (recordable_of_getEvents hread _ (List.mem_map_of_mem hm)).2

theorem replay_eq_applyAll {ms : List (Mutation V)}
    (hread : LogReader.getEvents none writer.log = .ok (ms.map Mutation.toEvent))
    (t : Timestamp) (store : RadishStore V) :
    writer.replay none t store = .ok (store.applyAll t ms) := by
  have hfault : LogReader.getEvents (V := V) (Fault.read none) writer.log =
      .ok (ms.map Mutation.toEvent) := hread
  rw [LogWriter.replay, hfault, ok_bind, applyEvents_toEvent]

end File

end LogWriter

end Radish
