import Radish.Durability
import Radish.Sessions

/-!
# Records without expiry

Without a ttl every record has the timestamp -1, which compaction takes for "no expiry". A store
with a ttl takes it for an expiry, and every reading of the clock from -1 on has reached it.
-/

namespace Radish
set_option autoImplicit false
open Ledger LogWriter

variable {V : Type}

/-- Nothing a list of mutations puts into a store has an expiry. -/
def Unstamped (ms : List (Mutation V)) : Prop :=
  ∀ key entry, Action.put key entry ∈ ms.map Mutation.action → entry.2 = -1

theorem Unstamped.append {ms : List (Mutation V)} (h : Unstamped ms) (c : RadishDB.Call V) :
    Unstamped (ms ++ [c.mutation (-1)]) := by
  intro key entry hput
  rw [List.map_append, List.mem_append] at hput
  obtain hput | hput := hput
  · exact h key entry hput
  · rw [List.map_singleton, List.mem_singleton] at hput
    cases c with
    | create k value =>
      injection hput with _ hentry
      rw [hentry]
    | _ => cases hput

/-- Until the clock reads -1 an expiry of -1 lies ahead; from then on it has passed. -/
theorem alive_of_unstamped {entry : V × Timestamp} (h : entry.2 = -1) (t : Timestamp) :
    alive t entry = decide (t < -1) := by
  rw [alive, h]

theorem keep_of_unstamped {entry : V × Timestamp} (h : entry.2 = -1) (t : Timestamp) :
    keep t entry = true := by
  simp [keep, isPast, h]

/-- What a log without expiries shows when it is opened with a ttl. -/
theorem RadishStore.get_unstamped {ms : List (Mutation V)} (h : Unstamped ms) {ttl : Timestamp}
    (httl : ttl ≠ -1) {now t : Timestamp} (hnow : now ≤ t) (k : Key) :
    ((RadishStore.new ttl).applyAll now ms).get t k =
      if t < -1 then (written ms k).map Prod.fst else none := by
  rw [RadishStore.get_fresh httl]
  split
  · rename_i hearly
    have hopened : now < -1 := Int64.lt_of_le_of_lt hnow hearly
    have hmoves : Ledger.replay (alive now) (fun _ => none) (ms.map Mutation.action) = written ms := by
      apply replay_of_all_alive
      intro key entry hput
      rw [alive_of_unstamped (h key entry hput), decide_eq_true hopened]
    rw [hmoves]
    cases hentry : written ms k with
    | none => rfl
    | some entry =>
      obtain ⟨key, hput⟩ := replay_source hentry
      have halive : alive t entry = true := by
        rw [alive_of_unstamped (h key entry hput), decide_eq_true hearly]
      rw [Option.filter_some_pos halive]
  · rename_i hlate
    cases hentry : Ledger.replay (alive now) (fun _ => none) (ms.map Mutation.action) k with
    | none => rfl
    | some entry =>
      obtain ⟨key, hput⟩ := replay_source hentry
      have hdead : alive t entry = false := by
        rw [alive_of_unstamped (h key entry hput), decide_eq_false hlate]
      rw [Option.filter_some_neg hdead]
      rfl

namespace RadishDB
variable [BinaryValue V]

/-- The databases on one file that is never opened with a ttl, at any readings of the clock. -/
inductive Perpetual : RadishDB V → Prop where
  | first {start : Timestamp} {writer : LogWriter} {db : RadishDB V} (absent : writer.log = none)
      (opens : new start (-1) .flush writer = .ok db) : Perpetual db
  | call {db : RadishDB V} (now : Timestamp) (c : Call V) (before : Perpetual db) :
      Perpetual (db.call none now c).2
  | compact {db : RadishDB V} (fault : Option Fault) (order : Traversal (Σ _ : Key, RadishEvent V))
      (now : Timestamp) (before : Perpetual db) : Perpetual (db.compact fault order now).2
  | reopen {db db' : RadishDB V} {now : Timestamp} {disk : LogWriter} (before : Perpetual db)
      (behind : db.persistence = some disk) (opens : new now (-1) .flush disk = .ok db') :
      Perpetual db'

/-- Without a ttl the clock plays no part in what ties a store to its log. -/
theorem Tied.anytime {db : RadishDB V} {opened clock : Timestamp} {log ms : List (Mutation V)}
    (h : db.Tied opened log clock ms) (httl : db.store.ttl = -1) (now : Timestamp) :
    db.Tied now [] now ms :=
  ⟨h.logged, h.coherent, Int64.le_refl now, h.renames, h.untimed, fun hne => absurd httl hne,
    fun hne => absurd httl hne⟩

/-- A database without a ttl and its log, in which nothing has an expiry. -/
structure Untimed (db : RadishDB V) (ms : List (Mutation V)) : Prop where
  ttl : db.store.ttl = -1
  unstamped : Unstamped ms
  tied : ∀ now, db.Tied now [] now ms

theorem Untimed.call {db : RadishDB V} {ms : List (Mutation V)} (h : db.Untimed ms)
    (now : Timestamp) (c : Call V) : ∃ ms', (db.call none now c).2.Untimed ms' := by
  have hm := Call.mutation_of_untimed h.ttl now c
  obtain ⟨-, hcall⟩ | ⟨-, -, e, hcall⟩ | ⟨heffective, -, db', hcall, hstore, hlogged⟩ :=
    call_cases (h.tied now).logged now c hm
  · rw [hcall]
    exact ⟨ms, h⟩
  · rw [hcall]
    exact ⟨ms, h⟩
  · rw [hcall]
    have httl : db'.store.ttl = -1 := by
      rw [hstore, RadishStore.apply_ttl]
      exact h.ttl
    have htied := (h.tied now).apply heffective hstore hlogged
    exact ⟨_, httl, h.unstamped.append c, htied.anytime httl⟩

/-- Compaction takes nothing for past. -/
theorem Untimed.keepsShown {db : RadishDB V} {ms : List (Mutation V)} (h : db.Untimed ms)
    (now : Timestamp) : db.KeepsShown now [] now := by
  constructor
  · intro _ ms' hlogged k entry _ hentry
    obtain rfl := hlogged.unique (h.tied now).logged
    obtain ⟨key, hput⟩ := replay_source hentry
    have hkeep := keep_of_unstamped (h.unstamped key entry hput) now
    simpa [keep] using hkeep
  · intro hne
    exact absurd h.ttl hne

theorem Untimed.compact {db : RadishDB V} {ms : List (Mutation V)} (h : db.Untimed ms)
    (fault : Option Fault) (order : Traversal (Σ _ : Key, RadishEvent V)) (now : Timestamp) :
    ∃ ms', (db.compact fault order now).2.Untimed ms' := by
  have httl : (db.compact fault order now).2.store.ttl = -1 := by
    rw [compact_store]
    exact h.ttl
  rcases hcompact : db.compact fault order now with ⟨e | ⟨⟩, db'⟩
  · rw [hcompact] at httl
    exact ⟨ms, httl, h.unstamped, ((h.tied now).compactThrows hcompact).anytime httl⟩
  · rw [hcompact] at httl
    obtain ⟨ns, hlogged, hlisted, -, -⟩ := compact_logged (h.tied now).logged hcompact
    have htied := (h.tied now).compact (h.keepsShown now) hcompact hlogged
    refine ⟨ns, httl, ?_, htied.anytime httl⟩
    intro key entry hput
    obtain ⟨n, hn, haction⟩ := List.mem_map.mp hput
    obtain ⟨k, kept, hkept, rfl⟩ := hlisted n hn
    injection haction with _ hentry
    subst hentry
    obtain ⟨x, hx⟩ := summary_source hkept
    exact h.unstamped x kept hx

theorem Perpetual.untimed {db : RadishDB V} (h : Perpetual db) : ∃ ms, db.Untimed ms := by
  induction h with
  | @first start writer db absent opens =>
    obtain ⟨hstore, hlogged⟩ := fresh_of_absent absent opens
    have httl : db.store.ttl = -1 := by rw [hstore, RadishStore.new_ttl]
    have hnone : Unstamped ([] : List (Mutation V)) := fun _ _ hput => by cases hput
    have htied : db.Tied start [] start [] := tied_of_open (.of_no_move (by simp)) hlogged hstore
    exact ⟨[], httl, hnone, htied.anytime httl⟩
  | call now c _ ih =>
    obtain ⟨ms, hms⟩ := ih
    exact hms.call now c
  | compact fault order now _ ih =>
    obtain ⟨ms, hms⟩ := ih
    exact hms.compact fault order now
  | @reopen db db' now disk _ behind opens ih =>
    obtain ⟨ms, hms⟩ := ih
    obtain ⟨disk', hdisk', reopened, hnew, hstore, hlogged⟩ :=
      new_of_logged (hms.tied now).logged now (-1)
    obtain rfl := Option.some.inj (behind.symm.trans hdisk')
    obtain rfl := Except.ok.inj (opens.symm.trans hnew)
    have httl : db'.store.ttl = -1 := by rw [hstore, RadishStore.applyAll_ttl, RadishStore.new_ttl]
    exact ⟨ms, httl, hms.unstamped, (tied_of_open (hms.tied now).renames hlogged hstore).anytime httl⟩

/-- Opened without a ttl again, the file shows every key that the database shows. -/
theorem Perpetual.reopens {db : RadishDB V} (h : Perpetual db) :
    ∃ disk, db.persistence = some disk ∧ ∀ now, ∃ reopened, new now (-1) .flush disk = .ok reopened ∧
      ∀ t k v, db.get t k = some v → reopened.get t k = some v := by
  obtain ⟨ms, hms⟩ := h.untimed
  obtain ⟨disk, hdisk, -⟩ := new_of_logged (hms.tied 0).logged 0 (-1)
  refine ⟨disk, hdisk, ?_⟩
  intro now
  obtain ⟨disk', hdisk', reopened, hnew, hstore, -⟩ := new_of_logged (hms.tied 0).logged now (-1)
  obtain rfl := Option.some.inj (hdisk.symm.trans hdisk')
  refine ⟨reopened, hnew, ?_⟩
  intro t k v hk
  rw [get, RadishStore.get_of_untimed (hms.tied 0).coherent hms.ttl] at hk
  obtain ⟨entry, hentry, rfl⟩ := (hms.tied 0).untimed hms.ttl k v hk
  rw [get, hstore, RadishStore.get_of_untimed ((RadishStore.coherent_new (-1)).applyAll now ms)
    (RadishStore.applyAll_ttl _ _ _), RadishStore.values_fresh]
  exact congrArg (Option.map Prod.fst) hentry

/-- Reopened with this ttl, the file shows at `t` every key that the database shows, with the same
value. -/
def StaysLive (db : RadishDB V) (ttl now t : Timestamp) : Prop :=
  ∃ disk reopened, db.persistence = some disk ∧ new now ttl .flush disk = .ok reopened ∧
    ∀ k v, db.get t k = some v → reopened.get t k = some v

theorem Untimed.staysLive_iff {db : RadishDB V} {ms : List (Mutation V)} (h : db.Untimed ms)
    {ttl now t : Timestamp} (httl : ttl ≠ -1) (hnow : now ≤ t) :
    db.StaysLive ttl now t ↔ t < -1 ∨ ∀ k, db.exists t k = false := by
  obtain ⟨disk, hdisk, reopened, hnew, hstore, -⟩ := new_of_logged (h.tied now).logged now ttl
  have hreopened : ∀ k, reopened.get t k =
      if t < -1 then (written ms k).map Prod.fst else none := by
    intro k
    rw [get, hstore]
    exact RadishStore.get_unstamped h.unstamped httl hnow k
  have hstays : db.StaysLive ttl now t ↔ ∀ k v, db.get t k = some v → reopened.get t k = some v := by
    constructor
    · intro hlive
      obtain ⟨disk', reopened', hdisk', hnew', hshown⟩ := hlive
      obtain rfl := Option.some.inj (hdisk.symm.trans hdisk')
      obtain rfl := Except.ok.inj (hnew.symm.trans hnew')
      exact hshown
    · exact fun hshown => ⟨disk, reopened, hdisk, hnew, hshown⟩
  rw [hstays]
  by_cases hearly : t < -1
  · refine iff_of_true ?_ (Or.inl hearly)
    intro k v hk
    rw [get, RadishStore.get_of_untimed (h.tied now).coherent h.ttl] at hk
    obtain ⟨entry, hentry, rfl⟩ := (h.tied now).untimed h.ttl k v hk
    rw [hreopened, if_pos hearly, hentry]
    rfl
  · constructor
    · intro hshown
      apply Or.inr
      intro k
      apply RadishStore.exists_eq_false_iff.mpr
      cases hk : db.store.get t k with
      | none => rfl
      | some v =>
        have hlost := hshown k v hk
        rw [hreopened, if_neg hearly] at hlost
        cases hlost
    · intro hnone k v hk
      have hdead := RadishStore.exists_eq_false_iff.mp ((hnone.resolve_left hearly) k)
      rw [get, hdead] at hk
      cases hk

/-- Reopening a file with a ttl loses every key it shows, unless the clock reads less than -1. -/
theorem perpetual_staysLive_iff {db : RadishDB V} (hperpetual : Perpetual db)
    {ttl now t : Timestamp} (httl : 0 ≤ ttl) (hnow : now ≤ t) :
    db.StaysLive ttl now t ↔ t < -1 ∨ ∀ k, db.exists t k = false := by
  obtain ⟨ms, hms⟩ := hperpetual.untimed
  have hne : ttl ≠ -1 := by
    intro heq
    rw [heq] at httl
    exact absurd httl (by decide)
  exact hms.staysLive_iff hne hnow

/-- A key set in a new file without a ttl. -/
def keptForever : RadishDB Bytes := ((fresh "radish" (-1)).call none 0 (.create [107] [118])).2

theorem perpetual_keptForever : Perpetual keptForever := by
  have habsent : (⟨"radish", none, none⟩ : LogWriter).log = none := rfl
  exact .call 0 _ (.first habsent (new_fresh "radish" 0 (-1)))

theorem staysLive_keptForever_early : keptForever.StaysLive 10 (-7) (-5) :=
  (perpetual_staysLive_iff perpetual_keptForever (by decide) (by decide)).mpr (Or.inl (by decide))

theorem keptForever_not_staysLive :
    ¬ ∀ (db : RadishDB Bytes) (ttl now : Timestamp), Perpetual db → 0 ≤ ttl →
      db.StaysLive ttl now now := by
  intro h
  obtain ⟨ms, hms⟩ := perpetual_keptForever.untimed
  have hne : (10 : Timestamp) ≠ -1 := by decide
  have hstays := h keptForever 10 5 perpetual_keptForever (by decide)
  obtain hearly | hnone := (hms.staysLive_iff hne (Int64.le_refl 5)).mp hstays
  · exact absurd hearly (by decide)
  · exact absurd (hnone [107]) (by decide)

end RadishDB

end Radish
