import Radish.CallHistory
import Radish.CompactedState

/-!
# Sessions and compaction

A data file outlives the ttl setting it was written under. A session without a ttl shows keys
that compaction takes for expired; a session with one may skip a rename, when it opens the log,
that compaction performs. Where neither happens, compaction drops no key that is shown.
-/

namespace Radish
set_option autoImplicit false
open Ledger LogWriter

variable {V : Type}

/-- What a log would replay to if nothing expired, with the timestamps of the CREATE events. -/
def written (ms : List (Mutation V)) : Map Key (V × Timestamp) :=
  Ledger.replay (fun _ => true) (fun _ => none) (ms.map Mutation.action)

theorem keep_of_alive {t : Timestamp} (entry : V × Timestamp) (h : alive t entry = true) :
    keep t entry = true := by
  simp only [alive, decide_eq_true_eq] at h
  simp [keep, isPast, Int64.not_lt.mpr (Int64.le_of_lt h)]

/-- The renames that opening `log` at `opened` skipped, although what they would have overwritten
is still shown at `now`, are not performed by a compaction at `now` either. -/
def SkipsAgree (ttl opened : Timestamp) (log : List (Mutation V)) (now : Timestamp) : Prop :=
  ∀ earlier stamp a b later, log = earlier ++ .rename stamp a b :: later → a ≠ b →
    ((RadishStore.new ttl).applyAll opened earlier).exists opened a = false →
    ((RadishStore.new ttl).applyAll opened earlier).exists now b = true →
    compacted now earlier a = none

/-- What opening a log at `opened` shows later is in its summary, if the skipped renames agree. -/
theorem compacted_follows {ttl opened now : Timestamp} {ms : List (Mutation V)} (httl : ttl ≠ -1)
    (hnow : opened ≤ now) (h : SkipsAgree ttl opened ms now) {k : Key} {entry : V × Timestamp}
    (hk : ((RadishStore.new ttl).applyAll opened ms).entries k = some entry)
    (halive : alive now entry = true) : compacted now ms k = some entry := by
  rw [RadishStore.entries_fresh httl] at hk
  refine summary_follows (alive_mono hnow) keep_of_alive ?_ k entry hk halive
  intro before a b eb after hsplit hab hskip hb hlate
  rcases Mutation.exists_rename hsplit with ⟨earlier, stamp, later, hms, rfl⟩
  apply h earlier stamp a b later hms hab
  · rw [RadishStore.exists_eq_get, RadishStore.get_fresh httl]
    cases hentry : Ledger.replay (alive opened) (fun _ => none) (earlier.map Mutation.action) a with
    | none => rfl
    | some ea =>
      have hdead : alive opened ea = false := by simpa [hentry] using hskip
      simp [hdead, Option.filter]
  · rw [RadishStore.exists_eq_get, RadishStore.get_fresh httl, hb]
    simp [hlate, Option.filter]

namespace RadishDB
variable [BinaryValue V]

theorem Logged.unique {db : RadishDB V} {ms ms' : List (Mutation V)} (h : db.Logged ms)
    (h' : db.Logged ms') : ms = ms' := by
  rcases h.getEvents with ⟨disk, hdisk, hread⟩
  rcases h'.getEvents with ⟨disk', hdisk', hread'⟩
  obtain rfl := Option.some.inj (hdisk.symm.trans hdisk')
  exact List.map_injective_iff.mpr Mutation.toEvent_injective (Except.ok.inj (hread.symm.trans hread'))

/-- The condition under which a compaction at `now` drops no key, in a session that opened or last
compacted `log` at `opened`. Without a ttl, the CREATE event that each key's value comes from must
not be past. -/
def KeepsShown (db : RadishDB V) (opened : Timestamp) (log : List (Mutation V)) (now : Timestamp) :
    Prop :=
  (db.store.ttl = -1 → ∀ ms, db.Logged ms → ∀ k entry, db.store.exists now k = true →
    written ms k = some entry → isPast now entry.2 = false) ∧
  (db.store.ttl ≠ -1 → SkipsAgree db.store.ttl opened log now)

/-- The databases reached by sessions on one file, under any ttl settings and a clock that does not
run backwards: with the time at which the session opened the log or last compacted it, what the log
held then, and the last reading of the clock. A compaction is made where it drops no key. -/
inductive Sessions : RadishDB V → Timestamp → List (Mutation V) → Timestamp → Prop where
  | first {start ttl : Timestamp} {writer : LogWriter} {db : RadishDB V}
      (absent : writer.log = none) (opens : new start ttl .flush writer = .ok db) :
      Sessions db start [] start
  | call {db : RadishDB V} {opened clock : Timestamp} {log : List (Mutation V)} (now : Timestamp)
      (c : Call V) (before : Sessions db opened log clock) (later : clock ≤ now) :
      Sessions (db.call none now c).2 opened log now
  | compact {db db' : RadishDB V} {opened clock now : Timestamp} {log ms : List (Mutation V)}
      {fault : Option Fault} {order : Traversal (Σ _ : Key, RadishEvent V)}
      (before : Sessions db opened log clock) (later : clock ≤ now)
      (keeps : db.KeepsShown opened log now) (compacts : db.compact fault order now = (.ok (), db'))
      (holds : db'.Logged ms) : Sessions db' now ms now
  | compactThrows {db db' : RadishDB V} {opened clock now : Timestamp} {log : List (Mutation V)}
      {fault : Option Fault} {order : Traversal (Σ _ : Key, RadishEvent V)} {e : Exception}
      (before : Sessions db opened log clock) (later : clock ≤ now)
      (throws : db.compact fault order now = (.error e, db')) : Sessions db' opened log now
  | reopen {db db' : RadishDB V} {opened clock now ttl : Timestamp} {log ms : List (Mutation V)}
      {disk : LogWriter} (before : Sessions db opened log clock) (later : clock ≤ now)
      (behind : db.persistence = some disk) (holds : db.Logged ms)
      (opens : new now ttl .flush disk = .ok db') : Sessions db' now ms now

/-- What ties the store of a session to its log `ms`. -/
structure Tied (db : RadishDB V) (opened : Timestamp) (log : List (Mutation V)) (clock : Timestamp)
    (ms : List (Mutation V)) : Prop where
  logged : db.Logged ms
  coherent : db.store.Coherent
  opened_le : opened ≤ clock
  renames : MovesPresent (ms.map Mutation.action)
  untimed : db.store.ttl = -1 → ∀ k v, db.store.values k = some v →
    ∃ entry, written ms k = some entry ∧ entry.1 = v
  timed : db.store.ttl ≠ -1 → ∀ k entry, db.store.entries k = some entry →
    alive clock entry = true → (written ms k).isSome = true
  follows : db.store.ttl ≠ -1 → ∀ now, clock ≤ now → SkipsAgree db.store.ttl opened log now →
    ∀ k entry, db.store.entries k = some entry → alive now entry = true →
      compacted now ms k = some entry

theorem Tied.mono {db : RadishDB V} {opened clock : Timestamp} {log ms : List (Mutation V)}
    (h : db.Tied opened log clock ms) {now : Timestamp} (hnow : clock ≤ now) :
    db.Tied opened log now ms := by
  refine ⟨h.logged, h.coherent, Int64.le_trans h.opened_le hnow, h.renames, h.untimed, ?_, ?_⟩
  · intro httl k entry hk halive
    exact h.timed httl k entry hk (alive_mono hnow entry halive)
  · intro httl t ht
    exact h.follows httl t (Int64.le_trans hnow ht)

/-- A rename that takes effect finds, in the store and in the log, an entry to move. -/
theorem Tied.effective_rename {db : RadishDB V} {opened clock : Timestamp} {log ms : List (Mutation V)}
    (h : db.Tied opened log clock ms) {a b : Key}
    (heffective : (db.store.rename clock a b).1 = true) :
    (db.store.ttl ≠ -1 → (db.store.entries a).any (alive clock) = true) ∧
      (written ms a).isSome = true := by
  rw [RadishStore.rename_fst] at heffective
  rcases Option.isSome_iff_exists.mp heffective with ⟨v, hv⟩
  by_cases httl : db.store.ttl = -1
  · rw [RadishStore.get_of_untimed h.coherent httl] at hv
    rcases h.untimed httl a v hv with ⟨entry, hentry, -⟩
    exact ⟨fun hne => absurd httl hne, by simp [hentry]⟩
  · rcases (RadishStore.get_eq_some_iff_of_timed h.coherent httl).mp hv with ⟨expiry, ha, hlt⟩
    have halive : alive clock (v, expiry) = true := by simpa [alive] using hlt
    exact ⟨fun _ => by simp [ha, halive], h.timed httl a _ ha halive⟩

theorem Tied.apply {db db' : RadishDB V} {opened clock : Timestamp} {log ms : List (Mutation V)}
    (h : db.Tied opened log clock ms) {m : Mutation V}
    (heffective : (db.store.apply clock m).1 = true)
    (hstore : db'.store = (db.store.apply clock m).2) (hlogged : db'.Logged (ms ++ [m])) :
    db'.Tied opened log clock (ms ++ [m]) := by
  have hmove : ∀ a b, m.action = .move a b → (db.store.rename clock a b).1 = true := by
    intro a b haction
    cases m with
    | rename stamp key renameKey =>
      injection haction with hkey hrenameKey
      subst hkey hrenameKey
      exact heffective
    | _ => cases haction
  have hwritten : written (ms ++ [m]) = replayStep (fun _ => true) (written ms) m.action := by
    simp [written, replay_append]
  have httl' : db'.store.ttl = db.store.ttl := by rw [hstore, RadishStore.apply_ttl]
  refine ⟨hlogged, hstore ▸ h.coherent.apply clock m, h.opened_le, ?_, ?_, ?_, ?_⟩
  · rw [List.map_append]
    exact h.renames.append fun a b haction => (h.effective_rename (hmove a b haction)).2
  · intro httl k v hk
    rw [httl'] at httl
    rw [hstore, RadishStore.values_apply h.coherent httl] at hk
    rw [hwritten]
    exact replayStep_refines (h.untimed httl)
      ((RadishStore.apply_fst_iff h.coherent httl clock m).mp heffective) k v hk
  · intro httl k entry hk halive
    rw [httl'] at httl
    rw [hstore, RadishStore.entries_apply h.coherent httl] at hk
    rw [hwritten]
    exact replayStep_domain (h.timed httl) m.action k entry hk halive
  · intro httl now hnow hskips k entry hk halive
    rw [httl'] at httl hskips
    rw [hstore, RadishStore.entries_apply h.coherent httl] at hk
    rw [compacted_append]
    refine summaryStep_follows (alive_mono hnow) keep_of_alive (h.follows httl now hnow hskips)
      m.action ?_ k entry hk halive
    intro a b eb haction _ hskip
    rw [(h.effective_rename (hmove a b haction)).1 httl] at hskip
    cases hskip

theorem Tied.call {db : RadishDB V} {opened clock : Timestamp} {log ms : List (Mutation V)}
    (h : db.Tied opened log clock ms) (c : Call V) :
    ∃ ms', (db.call none clock c).2.Tied opened log clock ms' := by
  rcases call_cases h.logged clock c rfl with ⟨-, hcall⟩ | ⟨-, -, e, hcall⟩ |
    ⟨heffective, -, db', hcall, hstore, hlogged⟩
  · exact ⟨ms, hcall ▸ h⟩
  · exact ⟨ms, hcall ▸ h⟩
  · rw [hcall]
    exact ⟨_, h.apply heffective hstore hlogged⟩

theorem tied_of_open {now ttl : Timestamp} {db : RadishDB V} {ms : List (Mutation V)}
    (hrenames : MovesPresent (ms.map Mutation.action))
    (hlogged : db.Logged ms) (hstore : db.store = (RadishStore.new ttl).applyAll now ms) :
    db.Tied now ms now ms := by
  have httl' : db.store.ttl = ttl := by rw [hstore, RadishStore.applyAll_ttl, RadishStore.new_ttl]
  refine ⟨hlogged, hstore ▸ (RadishStore.coherent_new ttl).applyAll now ms, Int64.le_refl now,
    hrenames, ?_, ?_, ?_⟩
  · intro httl k v hk
    rw [httl'] at httl
    rw [hstore, httl, RadishStore.values_fresh] at hk
    rcases Option.map_eq_some_iff.mp hk with ⟨entry, hentry, rfl⟩
    exact ⟨entry, hentry, rfl⟩
  · intro httl k entry hk halive
    rw [httl'] at httl
    rw [hstore, RadishStore.entries_fresh httl] at hk
    exact replay_domain (fun _ _ hnone => by cases hnone) _ k entry hk halive
  · intro httl t ht hskips k entry hk halive
    rw [httl'] at httl hskips
    rw [hstore] at hk
    exact compacted_follows httl ht hskips hk halive

/-- The condition makes the summary hold every key that the session shows. -/
theorem Tied.shown_compacted {db : RadishDB V} {opened now : Timestamp} {log ms : List (Mutation V)}
    (h : db.Tied opened log now ms) (hkeeps : db.KeepsShown opened log now) {k : Key} {v : V}
    (hk : db.get now k = some v) :
    ∃ entry, compacted now ms k = some entry ∧ entry.1 = v ∧
      (db.store.ttl ≠ -1 → alive now entry = true) := by
  by_cases httl : db.store.ttl = -1
  · have hshown : db.store.exists now k = true := by
      rw [RadishStore.exists_eq_get]
      exact Option.isSome_iff_exists.mpr ⟨v, hk⟩
    rw [get, RadishStore.get_of_untimed h.coherent httl] at hk
    rcases h.untimed httl k v hk with ⟨entry, hentry, hv⟩
    have hpast := hkeeps.1 httl ms h.logged k entry hshown hentry
    exact ⟨entry, summary_of_replay h.renames hentry (by simp [keep, hpast]), hv,
      fun hne => absurd httl hne⟩
  · rcases (RadishStore.get_eq_some_iff_of_timed h.coherent httl).mp hk with ⟨expiry, hentry, hlt⟩
    have halive : alive now (v, expiry) = true := by simpa [alive] using hlt
    exact ⟨(v, expiry), h.follows httl now (Int64.le_refl now) (hkeeps.2 httl) k _ hentry halive,
      rfl, fun _ => halive⟩

/-- What a completed compaction leaves behind the database. -/
theorem compact_logged {db db' : RadishDB V} {ms : List (Mutation V)} {now : Timestamp}
    {fault : Option Fault} {order : Traversal (Σ _ : Key, RadishEvent V)} (h : db.Logged ms)
    (hcompact : db.compact fault order now = (.ok (), db')) :
    ∃ ns, db'.Logged ns ∧
      (∀ n ∈ ns, ∃ k entry, compacted now ms k = some entry ∧ n = Mutation.ofEntry (k, entry)) ∧
      (∀ alive, Ledger.replay alive (fun _ => none) (ns.map Mutation.action) = compacted now ms) ∧
      ∀ later, compacted later ns = visible (keep later) (compacted now ms) := by
  rcases h.getEvents with ⟨disk, hdisk, hread⟩
  obtain ⟨store, persistence⟩ := db
  dsimp only at hdisk
  subst hdisk
  rcases hwriter : disk.compact fault order now with ⟨result, disk'⟩
  simp only [compact, hwriter, Prod.mk.injEq] at hcompact
  rcases hcompact with ⟨rfl, rfl⟩
  rcases compact_spec hread hwriter with ⟨ns, haccepted, hlog, hrest⟩
  exact ⟨ns, ⟨haccepted, disk', rfl, hlog⟩, hrest⟩

theorem Tied.compact {db db' : RadishDB V} {opened now : Timestamp} {log ms ns : List (Mutation V)}
    {fault : Option Fault} {order : Traversal (Σ _ : Key, RadishEvent V)}
    (h : db.Tied opened log now ms) (hkeeps : db.KeepsShown opened log now)
    (hcompact : db.compact fault order now = (.ok (), db')) (hlogged : db'.Logged ns) :
    db'.Tied now ns now ns := by
  have hstore : db'.store = db.store := by rw [← compact_store now db, hcompact]
  rcases compact_logged h.logged hcompact with ⟨ns', hlogged', hlisted, hreplay, hlater⟩
  obtain rfl := hlogged.unique hlogged'
  have hmove : ∀ n ∈ ns, n.action.isMove = false := by
    intro n hn
    obtain ⟨k, entry, -, rfl⟩ := hlisted n hn
    rfl
  have hwritten : written ns = compacted now ms := hreplay _
  refine ⟨hlogged, hstore ▸ h.coherent, Int64.le_refl now,
    .of_no_move (List.forall_mem_map.mpr hmove), ?_, ?_, ?_⟩
  · intro httl k v hk
    rw [hstore] at httl hk
    rw [hwritten]
    have hget : db.get now k = some v := (RadishStore.get_of_untimed h.coherent httl now k).trans hk
    rcases h.shown_compacted hkeeps hget with ⟨entry, hentry, hv, -⟩
    exact ⟨entry, hentry, hv⟩
  · intro httl k entry hk halive
    rw [hstore] at httl hk
    rw [hwritten, h.follows httl now (Int64.le_refl now) (hkeeps.2 httl) k entry hk halive]
    rfl
  · intro httl later hle _ k entry hk halive
    rw [hstore] at httl hk
    have hnow := alive_mono hle entry halive
    rw [hlater, visible_eq_some_iff]
    exact ⟨h.follows httl now (Int64.le_refl now) (hkeeps.2 httl) k entry hk hnow,
      keep_of_alive entry halive⟩

theorem Tied.compactThrows {db db' : RadishDB V} {opened now : Timestamp} {log ms : List (Mutation V)}
    {fault : Option Fault} {order : Traversal (Σ _ : Key, RadishEvent V)} {e : Exception}
    (h : db.Tied opened log now ms) (hthrows : db.compact fault order now = (.error e, db')) :
    db'.Tied opened log now ms := by
  have hstore : db'.store = db.store := by rw [← compact_store now db, hthrows]
  have hlogged : db'.Logged ms := by
    rcases h.logged with ⟨haccepted, disk, hdisk, hlog⟩
    refine ⟨haccepted, (disk.compact fault order now).2, ?_, ?_⟩
    · have hdb' : db' = (db.compact fault order now).2 := by rw [hthrows]
      rw [hdb', RadishDB.compact, hdisk]
    · rw [← hlog]
      apply compact_failed (e := e)
      have hresult : (db.compact fault order now).1 = .error e := by rw [hthrows]
      rw [RadishDB.compact, hdisk] at hresult
      exact hresult
  refine ⟨hlogged, hstore ▸ h.coherent, h.opened_le, h.renames, ?_, ?_, ?_⟩
  · rw [hstore]
    exact h.untimed
  · rw [hstore]
    exact h.timed
  · rw [hstore]
    exact h.follows

theorem Sessions.tied {db : RadishDB V} {opened clock : Timestamp} {log : List (Mutation V)}
    (h : Sessions db opened log clock) : ∃ ms, db.Tied opened log clock ms := by
  induction h with
  | @first start ttl writer db absent opens =>
    rcases fresh_of_absent absent opens with ⟨hstore, hlogged⟩
    exact ⟨[], tied_of_open (.of_no_move (by simp)) hlogged hstore⟩
  | call now c _ later ih =>
    rcases ih with ⟨ms, hms⟩
    exact (hms.mono later).call c
  | compact _ later keeps compacts holds ih =>
    rcases ih with ⟨ms, hms⟩
    exact ⟨_, (hms.mono later).compact keeps compacts holds⟩
  | compactThrows _ later throws ih =>
    rcases ih with ⟨ms, hms⟩
    exact ⟨ms, (hms.mono later).compactThrows throws⟩
  | @reopen db db' opened clock now ttl log ms disk _ later behind holds opens ih =>
    rcases ih with ⟨ms', hms'⟩
    obtain rfl := holds.unique hms'.logged
    rcases new_of_logged holds now ttl with ⟨disk', hdisk', reopened, hnew, hstore, hlogged⟩
    obtain rfl := Option.some.inj (behind.symm.trans hdisk')
    obtain rfl := Except.ok.inj (opens.symm.trans hnew)
    exact ⟨ms, tied_of_open hms'.renames hlogged hstore⟩

/-- In a run of sessions whose compactions all meet the condition, a compaction drops no key. -/
theorem compact_keeps_shown {db db' reopened : RadishDB V} {opened clock now : Timestamp}
    {log : List (Mutation V)} {fault : Option Fault} {order : Traversal (Σ _ : Key, RadishEvent V)}
    {disk : LogWriter} (hsessions : Sessions db opened log clock) (hclock : clock ≤ now)
    (hkeeps : db.KeepsShown opened log now)
    (hcompact : db.compact fault order now = (.ok (), db')) (hdisk : db'.persistence = some disk)
    (hreopen : new now db.store.ttl .flush disk = .ok reopened) (k : Key)
    (hshown : db.store.exists now k = true) :
    reopened.store.exists now k = true ∧ reopened.get now k = db.get now k := by
  rcases hsessions.tied with ⟨ms, hms⟩
  have htied := hms.mono hclock
  rcases compact_logged htied.logged hcompact with ⟨ns, hlogged, -, hreplay, -⟩
  rcases new_of_logged hlogged now db.store.ttl with ⟨disk', hdisk', reopened', hnew, hstore, -⟩
  obtain rfl := Option.some.inj (hdisk.symm.trans hdisk')
  obtain rfl := Except.ok.inj (hreopen.symm.trans hnew)
  rw [RadishStore.exists_eq_get] at hshown ⊢
  rcases Option.isSome_iff_exists.mp hshown with ⟨v, hv⟩
  rcases htied.shown_compacted hkeeps hv with ⟨entry, hentry, rfl, halive⟩
  have hget : reopened.store.get now k = some entry.1 := by
    rw [hstore]
    by_cases httl : db.store.ttl = -1
    · rw [httl, RadishStore.get_of_untimed ((RadishStore.coherent_new (-1)).applyAll now ns)
        (RadishStore.applyAll_ttl _ _ _), RadishStore.values_fresh, hreplay]
      exact congrArg (Option.map Prod.fst) hentry
    · rw [RadishStore.get_fresh httl, hreplay, hentry]
      simp [halive httl, Option.filter]
  exact ⟨by rw [hget]; rfl, hget.trans hv.symm⟩

theorem compact_keeps_shown_create :
    ∃ reopened : RadishDB Bytes,
      new 2 (-1) .flush (intactLog "radish" [Mutation.create (-1) [107] ([118] : Bytes)]) =
        .ok reopened ∧
      reopened.store.exists 2 [107] = true ∧ reopened.get 2 [107] =
        ((fresh "radish" (-1) : RadishDB Bytes).call none 1 (.create [107] [118])).2.get 2 [107] := by
  have habsent : (⟨"radish", none, none⟩ : LogWriter).log = none := rfl
  have hsessions : Sessions ((fresh "radish" (-1) : RadishDB Bytes).call none 1
      (.create [107] [118])).2 0 [] 1 :=
    .call 1 _ (.first habsent (new_fresh "radish" 0 (-1))) (by decide)
  have hlogged : ((fresh "radish" (-1) : RadishDB Bytes).call none 1 (.create [107] [118])).2.Logged
      [.create (-1) [107] [118]] := ⟨by simpa using ⟨_, rfl⟩, _, rfl, rfl⟩
  have hkeeps : ((fresh "radish" (-1) : RadishDB Bytes).call none 1
      (.create [107] [118])).2.KeepsShown 0 [] 2 := by
    constructor
    · intro _ ms hms k entry _ hentry
      obtain rfl := hms.unique hlogged
      simp only [written, List.map_cons, List.map_nil, Mutation.action, replay_cons, replay_nil,
        replayStep, put_apply] at hentry
      split at hentry
      · rw [← Option.some.inj hentry]
        rfl
      · cases hentry
    · intro hne
      exact absurd rfl hne
  have hcompact : ((fresh "radish" (-1) : RadishDB Bytes).call none 1 (.create [107] [118])).2.compact
      none .listed 2 =
      (.ok (), ((fresh "radish" (-1) : RadishDB Bytes).call none 1 (.create [107] [118])).2) := by
    rcases hlogged.getEvents with ⟨disk, hdisk, hread⟩
    obtain rfl := Option.some.inj hdisk
    have hfault : LogReader.getEvents (V := Bytes) (Fault.read none) _ = _ := hread
    simp only [RadishDB.compact, hdisk, LogWriter.compact, hfault]
    rfl
  rcases new_of_logged hlogged 2 (-1) with ⟨disk, hdisk, reopened, hreopen, -⟩
  refine ⟨reopened, ?_, compact_keeps_shown hsessions (by decide) hkeeps hcompact hdisk hreopen [107] rfl⟩
  rw [← hreopen]
  obtain rfl := Option.some.inj hdisk
  rfl

/-- Created with a ttl, kept past its expiry by a session without one, dropped by the compaction. -/
theorem compact_drops_shown :
    ¬ ∀ (db db' reopened : RadishDB Bytes) (opened clock now : Timestamp)
        (log : List (Mutation Bytes)) (order : Traversal (Σ _ : Key, RadishEvent Bytes))
        (disk : LogWriter) (k : Key),
      Sessions db opened log clock → clock ≤ now → db.compact none order now = (.ok (), db') →
      db'.persistence = some disk → new now db.store.ttl .flush disk = .ok reopened →
      db.store.exists now k = true →
      reopened.store.exists now k = true ∧ reopened.get now k = db.get now k := by
  intro h
  have habsent : (⟨"radish", none, none⟩ : LogWriter).log = none := rfl
  have hcreated : Sessions ((fresh "radish" 10 : RadishDB Bytes).call none 0
      (.create [107] [118])).2 0 [] 0 :=
    .call 0 _ (.first habsent (new_fresh "radish" 0 10)) (by decide)
  have hlogged : ((fresh "radish" 10 : RadishDB Bytes).call none 0 (.create [107] [118])).2.Logged
      [.create 10 [107] [118]] := ⟨by simpa using ⟨_, rfl⟩, _, rfl, rfl⟩
  rcases new_of_logged hlogged 20 (-1) with ⟨disk, hdisk, db, hopen, hstore, hdb⟩
  have hsessions : Sessions db 20 [.create 10 [107] [118]] 20 :=
    .reopen hcreated (by decide) hdisk hlogged hopen
  rcases hdb.getEvents with ⟨writer, hwriter, hread⟩
  rcases compact_completes .listed 20 (by decide) hread with ⟨writer', hcompact⟩
  have hcompacts : db.compact none .listed 20 = (.ok (), ⟨db.store, some writer'⟩) := by
    simp [RadishDB.compact, hwriter, hcompact]
  rcases compact_logged hdb hcompacts with ⟨ns, hns, -, hreplay, -⟩
  rcases new_of_logged hns 20 db.store.ttl with ⟨disk', hdisk', reopened, hreopen, hstore', -⟩
  have hshown : db.store.exists 20 [107] = true := by
    rw [hstore]
    decide
  have hkept := (h db _ reopened 20 20 20 _ .listed disk' [107] hsessions (by decide) hcompacts
    hdisk' hreopen hshown).1
  have httl : db.store.ttl = -1 := by rw [hstore, RadishStore.applyAll_ttl, RadishStore.new_ttl]
  rw [RadishStore.exists_eq_get, hstore', httl,
    RadishStore.get_of_untimed ((RadishStore.coherent_new (-1)).applyAll 20 ns)
      (RadishStore.applyAll_ttl _ _ _), RadishStore.values_fresh, hreplay] at hkept
  revert hkept
  decide

end RadishDB

end Radish
