import Radish.Compaction

/-!
# The normal form of a log

What `Compact` writes is a list of CREATE events for distinct keys, none of them past; compacted
again at the same time, it is written again.
-/

namespace Radish.LogWriter
set_option autoImplicit false
open Ledger

variable {V : Type} {now : Timestamp} {m : Map Key (V × Timestamp)}
  {es es' : List (Key × V × Timestamp)}

theorem isPast_eq_false_iff {timestamp : Timestamp} :
    isPast now timestamp = false ↔ timestamp = -1 ∨ now ≤ timestamp := by
  rw [isPast, Bool.and_eq_false_iff, decide_eq_false_iff_not, decide_eq_false_iff_not, not_not,
    Int64.not_lt]

/-- Two listings of one ledger differ only in their order. -/
theorem perm_of_listings (hnodup : (es.map Prod.fst).Nodup) (hnodup' : (es'.map Prod.fst).Nodup)
    (hmem : ∀ k entry, (k, entry) ∈ es ↔ m k = some entry)
    (hmem' : ∀ k entry, (k, entry) ∈ es' ↔ m k = some entry) : es'.Perm es := by
  apply (List.perm_ext_iff_of_nodup hnodup'.of_map hnodup.of_map).mpr
  rintro ⟨k, entry⟩
  rw [hmem, hmem']

/-- A listing of entries that are not past is compacted to itself, up to order. -/
theorem compactEvents_listing (hnodup : (es.map Prod.fst).Nodup)
    (hmem : ∀ k entry, (k, entry) ∈ es ↔ m k = some entry)
    (hkeep : ∀ k entry, m k = some entry → isPast now entry.2 = false) :
    ∃ events, compactEvents now ∅ (es.map fun p => (Mutation.ofEntry p).toEvent) = .ok events ∧
      ∀ order, (survivors order now events).Perm (es.map fun p => (Mutation.ofEntry p).toEvent) := by
  have hempty : Represents (∅ : EventsMap V) (fun _ => none) := fun _ => rfl
  obtain ⟨events, hevents, hrep⟩ := compactEvents_represents hempty now (es.map Mutation.ofEntry)
  have hsummary : summary (keep now) (fun _ => none)
      ((es.map Mutation.ofEntry).map Mutation.action) = m := by
    rw [List.map_map]
    apply (summary_listing (keep now) hnodup hmem).trans
    funext k
    cases hk : m k with
    | none => simp [visible, hk]
    | some entry => exact visible_eq_some_iff.mpr ⟨hk, by simp [keep, hkeep k entry hk]⟩
  rw [hsummary] at hrep
  rw [List.map_map] at hevents
  refine ⟨events, hevents, fun order => ?_⟩
  obtain ⟨es', hnodup', hmem', hsurvivors⟩ := survivors_spec hrep hkeep order
  rw [hsurvivors]
  exact (perm_of_listings hnodup hnodup' hmem hmem').map _

section File
variable [BinaryValue V] {order : Traversal (Σ _ : Key, RadishEvent V)} {writer : LogWriter}

theorem compact_eq_rewriteHistory {events : List (RadishEvent V)} {map : EventsMap V}
    (hread : LogReader.getEvents none writer.log = .ok events)
    (hmap : compactEvents now ∅ events = .ok map) :
    writer.compact none order now = rewriteHistory none order now writer map := by
  have hfault : LogReader.getEvents (V := V) (Fault.read none) writer.log = .ok events := hread
  unfold compact
  rw [hfault]
  dsimp only
  rw [hmap]

/-- What is read from a log is a list of mutations. -/
theorem mutations_of_getEvents {log : Option Bytes} {events : List (RadishEvent V)}
    (h : LogReader.getEvents none log = .ok events) :
    ∃ ms : List (Mutation V), events = ms.map Mutation.toEvent := by
  have hrecordable := recordable_of_getEvents h
  clear h
  induction events with
  | nil => exact ⟨[], rfl⟩
  | cons event events ih =>
    obtain ⟨ms, rfl⟩ := ih fun e he => hrecordable e (List.mem_cons_of_mem _ he)
    obtain ⟨m, rfl⟩ := (RadishEvent.wellFormed_iff event).mp (hrecordable event List.mem_cons_self).1
    exact ⟨m :: ms, rfl⟩

/-- A compaction at this time completes, and writes these events in some order. -/
def Rewrites (now : Timestamp) (writer : LogWriter) (events : List (RadishEvent V)) : Prop :=
  ∀ order : Traversal (Σ _ : Key, RadishEvent V), ∃ writer' rewritten,
    writer.compact none order now = (.ok (), writer') ∧
      LogReader.getEvents none writer'.log = .ok rewritten ∧ rewritten.Perm events

/-- A compaction of a listing that completes: what it writes reads back as the listing, and is
written again, in some order, by another one at the same time. -/
theorem compact_listing {events : List (RadishEvent V)} {map : EventsMap V} {writer' : LogWriter}
    {fault : Option Fault} (hread : LogReader.getEvents none writer.log = .ok events)
    (hmap : compactEvents now ∅ events = .ok map)
    (hwell : ∀ event ∈ survivors order now map, event.WellFormed)
    (hagain : ∃ again, compactEvents now ∅ (survivors order now map) = .ok again ∧
      ∀ order', (survivors order' now again).Perm (survivors order now map))
    (h : writer.compact fault order now = (.ok (), writer')) :
    LogReader.getEvents none writer'.log = .ok (survivors order now map) ∧
      Rewrites now writer' (survivors order now map) := by
  have hrewrite := compact_completed h
  rw [compact_eq_rewriteHistory hread hmap] at hrewrite
  obtain ⟨haccepted, hwriter'⟩ := rewriteHistory_eq_ok_iff.mp hrewrite
  have hwritten : LogReader.getEvents none writer'.log = .ok (survivors order now map) := by
    rw [hwriter']
    exact getEvents_intact fun e he => ⟨hwell e he, haccepted e he⟩
  refine ⟨hwritten, fun order' => ?_⟩
  obtain ⟨again, hevents, hperm⟩ := hagain
  have hmem : ∀ e ∈ survivors order' now again, e ∈ survivors order now map :=
    fun e he => (hperm order').mem_iff.mp he
  have hrecordable : ∀ e ∈ survivors order' now again, Recordable e :=
    fun e he => ⟨hwell e (hmem e he), haccepted e (hmem e he)⟩
  have hcompleted := (compact_eq_rewriteHistory hwritten hevents).trans
    (rewriteHistory_eq_ok_iff.mpr ⟨fun e he => (hrecordable e he).2, rfl⟩)
  exact ⟨_, _, hcompleted, getEvents_intact hrecordable, hperm order'⟩

/-- The events that survive a compaction are CREATE events with a payload, for distinct keys, and
not past; in the events map each stands under its own key. Compacted again at the same time, they
are written again. -/
theorem compact_normal_form {log : Option Bytes} {events : List (RadishEvent V)} (now : Timestamp)
    (hread : LogReader.getEvents none log = .ok events) :
    ∃ map, compactEvents now ∅ events = .ok map ∧
      (∀ key event, map.lookup key = some event → event.key = some key) ∧
      ∀ order,
        (∀ event ∈ survivors order now map, event.type = .create ∧ event.payload.isSome = true ∧
          (event.timestamp = -1 ∨ now ≤ event.timestamp)) ∧
        ((survivors order now map).map RadishEvent.key).Nodup ∧
        (∃ again, compactEvents now ∅ (survivors order now map) = .ok again ∧
          ∀ order', (survivors order' now again).Perm (survivors order now map)) ∧
        ∀ filename temporary fault writer',
          compact fault order now ⟨filename, log, temporary⟩ = (.ok (), writer') →
            LogReader.getEvents none writer'.log = .ok (survivors order now map) ∧
              Rewrites now writer' (survivors order now map) := by
  obtain ⟨ms, rfl⟩ := mutations_of_getEvents hread
  have hempty : Represents (∅ : EventsMap V) (fun _ => none) := fun _ => rfl
  obtain ⟨map, hmap, hrep⟩ := compactEvents_represents hempty now ms
  refine ⟨map, hmap, ?_, fun order => ?_⟩
  · intro key event hlookup
    rw [hrep key, Option.map_eq_some_iff] at hlookup
    obtain ⟨entry, -, rfl⟩ := hlookup
    rfl
  · have hkeep : ∀ k entry, compacted now ms k = some entry → isPast now entry.2 = false :=
      fun _ _ => compacted_keeps
    obtain ⟨es, hnodup, hmem, hsurvivors⟩ := survivors_spec hrep hkeep order
    obtain ⟨again, hagain, hperm⟩ := compactEvents_listing hnodup hmem hkeep
    rw [← hsurvivors] at hagain
    have hsame : ∃ again, compactEvents now ∅ (survivors order now map) = .ok again ∧
        ∀ order', (survivors order' now again).Perm (survivors order now map) := by
      refine ⟨again, hagain, fun order' => ?_⟩
      rw [hsurvivors]
      exact hperm order'
    have heach : ∀ event ∈ survivors order now map,
        ∃ p, isPast now p.2.2 = false ∧ event = (Mutation.ofEntry p).toEvent := by
      intro event hevent
      rw [hsurvivors] at hevent
      obtain ⟨⟨k, entry⟩, hp, rfl⟩ := List.mem_map.mp hevent
      exact ⟨(k, entry), hkeep k entry ((hmem k entry).mp hp), rfl⟩
    refine ⟨?_, ?_, hsame, ?_⟩
    · intro event hevent
      obtain ⟨p, hpast, rfl⟩ := heach event hevent
      exact ⟨rfl, rfl, isPast_eq_false_iff.mp hpast⟩
    · have hkeys : (survivors order now map).map RadishEvent.key =
          (es.map Prod.fst).map some := by
        rw [hsurvivors, List.map_map, List.map_map]
        rfl
      rw [hkeys]
      exact hnodup.map (Option.some_injective _)
    · intro filename temporary fault writer' h
      apply compact_listing hread hmap _ hsame h
      intro event hevent
      obtain ⟨p, -, rfl⟩ := heach event hevent
      exact Mutation.wellFormed _

/-- A key that is renamed twice. -/
def renameChain : List (Mutation Bytes) :=
  [.create (-1) [107] [118], .rename (-1) [107] [108], .rename (-1) [108] [109]]

theorem compact_normal_form_renameChain :
    ∃ map, compactEvents 0 ∅ (renameChain.map Mutation.toEvent) = .ok map ∧
      ∀ order, ((survivors order 0 map).map RadishEvent.key).Nodup := by
  have hread : LogReader.getEvents none (intactLog "radish" renameChain).log =
      .ok (renameChain.map Mutation.toEvent) := by
    apply getEvents_intactLog
    intro m hm
    simp only [renameChain, List.mem_cons, List.not_mem_nil, or_false] at hm
    obtain rfl | rfl | rfl := hm <;> exact ⟨_, rfl⟩
  obtain ⟨map, hmap, -, hform⟩ := compact_normal_form 0 hread
  exact ⟨map, hmap, fun order => (hform order).2.1⟩

end File

end Radish.LogWriter
