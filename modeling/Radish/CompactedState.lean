import Radish.Compaction

/-!
# What a compacted log shows

Without expiries, compaction amounts to leaving the renames of a key onto itself out of the log.
With expiries and no renames, it amounts to leaving the past writes out, newer ones included.
-/

namespace Radish.LogWriter
set_option autoImplicit false
open Ledger RadishStore

variable {V : Type}

/-! ## Without expiries -/

theorem compacted_of_untimed {ms : List (Mutation V)} (hstamp : ∀ m ∈ ms, m.timestamp = -1)
    (now : Timestamp) :
    compacted now ms = Ledger.replay (fun _ => true) (fun _ => none)
      ((ms.filter fun m => !m.action.isIdle).map Mutation.action) := by
  have hkeep : ∀ k entry, Action.put k entry ∈ ms.map Mutation.action → keep now entry = true := by
    intro k entry hmem
    rcases List.mem_map.mp hmem with ⟨m, hm, haction⟩
    have htime := hstamp m hm
    rw [Mutation.eq_ofEntry (p := (k, entry)) haction] at htime
    have hentry : entry.2 = -1 := htime
    simp [keep, isPast, hentry]
  rw [compacted, summary_keep_all _ hkeep, summary_eq_replay, List.filter_map]
  rfl

/-- Renames of a missing key onto itself can be left out. -/
theorem values_filter_idle {t : Timestamp} {ms : List (Mutation V)}
    (h : ∀ earlier stamp k later, ms = earlier ++ Mutation.rename stamp k k :: later →
      ((new (-1)).applyAll t earlier).exists t k = false) :
    ((new (-1)).applyAll t (ms.filter fun m => !m.action.isIdle)).values =
      ((new (-1)).applyAll t ms).values := by
  rw [values_fresh, values_fresh]
  have hidle : Ledger.replay (fun _ => true) (fun _ => none)
      ((ms.map Mutation.action).filter fun act => !act.isIdle) =
      Ledger.replay (fun _ => true) (fun _ => none) (ms.map Mutation.action) := by
    apply replay_filter_idle
    intro before a after hsplit
    rcases Mutation.exists_rename hsplit with ⟨earlier, stamp, later, hms, rfl⟩
    have hmissing := h earlier stamp a later hms
    rw [exists_eq_get, get_of_untimed ((coherent_new (-1)).applyAll t earlier) (applyAll_ttl _ _ _),
      values_fresh] at hmissing
    simpa using hmissing
  rw [← hidle, List.filter_map]
  rfl

section Untimed
variable [BinaryValue V] {fault : Option Fault} {order : Traversal (Σ _ : Key, RadishEvent V)}
  {now : Timestamp} {writer writer' : LogWriter} {ms : List (Mutation V)}

/-- The values a log without expiries replays to, before and after its compaction. -/
theorem values_compact (hstamp : ∀ m ∈ ms, m.timestamp = -1)
    (hread : LogReader.getEvents none writer.log = .ok (ms.map Mutation.toEvent))
    (hcompact : writer.compact fault order now = (.ok (), writer')) (t t' : Timestamp) :
    ∃ after : RadishStore V, writer'.replay none t' (new (-1)) = .ok after ∧
      after.values = ((new (-1)).applyAll t (ms.filter fun m => !m.action.isIdle)).values := by
  rcases getEvents_compacted hread hcompact with ⟨ns, hns, hreplay⟩
  refine ⟨_, replay_eq_applyAll hns t' _, ?_⟩
  rw [values_fresh, values_fresh, hreplay, compacted_of_untimed hstamp]

/-- The log shows the same map after a compaction exactly when its renames of a key onto itself
have no effect on the map it replays to; so it does if such a rename never meets its key. -/
theorem compact_preserves_map_iff (hstamp : ∀ m ∈ ms, m.timestamp = -1)
    (hread : LogReader.getEvents none writer.log = .ok (ms.map Mutation.toEvent))
    (hcompact : writer.compact fault order now = (.ok (), writer')) (t t' : Timestamp) :
    ∃ before after : RadishStore V, writer.replay none t (new (-1)) = .ok before ∧
      writer'.replay none t' (new (-1)) = .ok after ∧
      ((∀ k, after.data.lookup k = before.data.lookup k) ↔
        ∀ k, ((new (-1)).applyAll t (ms.filter fun m => !m.action.isIdle)).data.lookup k =
          ((new (-1)).applyAll t ms).data.lookup k) ∧
      ((∀ earlier stamp k later, ms = earlier ++ Mutation.rename stamp k k :: later →
          ((new (-1)).applyAll t earlier).exists t k = false) →
        ∀ k, after.data.lookup k = before.data.lookup k) := by
  rcases values_compact hstamp hread hcompact t t' with ⟨after, hafter, hvalues⟩
  have hfiltered := congrFun hvalues
  refine ⟨_, after, replay_eq_applyAll hread t _, hafter, ?_, ?_⟩
  · exact forall_congr' fun k => ⟨fun h => (hfiltered k).symm.trans h, (hfiltered k).trans⟩
  · intro hmissing k
    exact (hfiltered k).trans (congrFun (values_filter_idle hmissing) k)

end Untimed

/-- A key is created, then renamed onto itself. -/
def idleRename : List (Mutation Bytes) := [.create (-1) [107] [118], .rename (-1) [107] [107]]

theorem getEvents_idleRename :
    LogReader.getEvents none (intactLog "radish" idleRename).log =
      .ok (idleRename.map Mutation.toEvent) := by
  apply getEvents_intactLog
  intro m hm
  rcases List.mem_pair.mp hm with rfl | rfl <;> exact ⟨_, rfl⟩

theorem compact_idleRename :
    (intactLog "radish" idleRename).compact (V := Bytes) none .listed 0 =
      (.ok (), intactLog "radish" [Mutation.create (-1) [107] ([118] : Bytes)]) := by
  have hfault : LogReader.getEvents (V := Bytes) (Fault.read none) (intactLog "radish" idleRename).log =
      .ok (idleRename.map Mutation.toEvent) := getEvents_idleRename
  unfold compact
  rw [hfault]
  rfl

theorem compact_preserves_map_idleRename :
    ∃ before after : RadishStore Bytes,
      (intactLog "radish" idleRename).replay none 0 (new (-1)) = .ok before ∧
      (intactLog "radish" [Mutation.create (-1) [107] ([118] : Bytes)]).replay none 0 (new (-1)) =
        .ok after ∧
      ((∀ k, after.data.lookup k = before.data.lookup k) ↔
        ∀ k, ((new (-1)).applyAll 0 (idleRename.filter fun m => !m.action.isIdle)).data.lookup k =
          ((new (-1)).applyAll 0 idleRename).data.lookup k) ∧
      ((∀ earlier stamp k later, idleRename = earlier ++ Mutation.rename stamp k k :: later →
          ((new (-1)).applyAll 0 earlier).exists 0 k = false) →
        ∀ k, after.data.lookup k = before.data.lookup k) :=
  compact_preserves_map_iff (by decide) getEvents_idleRename compact_idleRename 0 0

/-- The store erases a key that is renamed onto itself; the compacted log brings it back. -/
theorem compact_restores_idleRename :
    ¬ ∀ (order : Traversal (Σ _ : Key, RadishEvent Bytes)) (now t t' : Timestamp)
        (writer writer' : LogWriter) (ms : List (Mutation Bytes)),
      (∀ m ∈ ms, m.timestamp = -1) →
      LogReader.getEvents none writer.log = .ok (ms.map Mutation.toEvent) →
      writer.compact none order now = (.ok (), writer') →
      ∃ before after : RadishStore Bytes, writer.replay none t (new (-1)) = .ok before ∧
        writer'.replay none t' (new (-1)) = .ok after ∧
        ∀ k, after.data.lookup k = before.data.lookup k := by
  intro h
  rcases h .listed 0 0 0 _ _ idleRename (by decide) getEvents_idleRename compact_idleRename with
    ⟨before, after, hbefore, hafter, hsame⟩
  rw [replay_eq_applyAll getEvents_idleRename] at hbefore
  have hread : LogReader.getEvents (V := Bytes) none
      (intactLog "radish" [Mutation.create (-1) [107] ([118] : Bytes)]).log =
      .ok ([Mutation.create (-1) [107] ([118] : Bytes)].map Mutation.toEvent) := by
    apply getEvents_intactLog
    intro m hm
    rw [List.mem_singleton.mp hm]
    exact ⟨_, rfl⟩
  rw [replay_eq_applyAll hread] at hafter
  have hk := hsame [107]
  rw [← Except.ok.inj hbefore, ← Except.ok.inj hafter] at hk
  revert hk
  decide

/-! ## With expiries, without renames -/

/-- The value and expiry of each CREATE of a key since the key was last deleted or the store
cleared, in the order they were written. -/
def writes (k : Key) (ms : List (Mutation V)) : List (V × Timestamp) :=
  pending k (ms.map Mutation.action)

section Timed
variable {ttl : Timestamp} {ms : List (Mutation V)}

variable [BinaryValue V] {order : Traversal (Σ _ : Key, RadishEvent V)} {now : Timestamp}
  {writer writer' : LogWriter}

/-- Replayed as it is, a log shows the last write of a key while that write is alive. -/
theorem get_replayed (httl : ttl ≠ -1) (hmove : ∀ m ∈ ms, m.action.isMove = false)
    (hread : LogReader.getEvents none writer.log = .ok (ms.map Mutation.toEvent))
    (r t : Timestamp) (k : Key) :
    (fun store : RadishStore V => store.get t k) <$> writer.replay none r (new ttl) =
      .ok (((writes k ms).getLast?.filter (alive t)).map Prod.fst) := by
  rw [replay_eq_applyAll hread, writes, ← replay_eq_pending (alive r) (List.forall_mem_map.mpr hmove)]
  exact congrArg Except.ok (get_fresh httl r t _ k)

/-- Compacted, it shows the last write that was not past at the compaction. -/
theorem get_compacted (httl : ttl ≠ -1) (hmove : ∀ m ∈ ms, m.action.isMove = false)
    (hread : LogReader.getEvents none writer.log = .ok (ms.map Mutation.toEvent))
    (hcompact : writer.compact none order now = (.ok (), writer')) (r t : Timestamp) (k : Key) :
    (fun store : RadishStore V => store.get t k) <$> writer'.replay none r (new ttl) =
      .ok ((((writes k ms).filter (keep now)).getLast?.filter (alive t)).map Prod.fst) := by
  rcases getEvents_compacted hread hcompact with ⟨ns, hns, hreplay⟩
  rw [replay_eq_applyAll hns, writes,
    ← summary_eq_pending (keep now) (List.forall_mem_map.mpr hmove)]
  refine congrArg Except.ok ((get_fresh httl r t _ k).trans ?_)
  rw [hreplay]
  rfl

end Timed

/-- Whether the last write, and the last one that is not past, show the same from `now` on. -/
theorem last_writes_agree_iff (now : Timestamp) (ws : List (V × Timestamp)) :
    (∀ t, now ≤ t → ((ws.filter (keep now)).getLast?.filter (alive t)).map Prod.fst =
        (ws.getLast?.filter (alive t)).map Prod.fst) ↔
      ∀ last ∈ ws.getLast?, isPast now last.2 = true →
        ∀ older ∈ (ws.filter (keep now)).getLast?, older.2 ≤ now := by
  rcases List.eq_nil_or_concat' ws with rfl | ⟨init, last, rfl⟩
  · simp
  by_cases hpast : isPast now last.2 = true
  · -- the last write shows nothing any more
    have hlast : last.2 < now := by
      simp only [isPast, Bool.and_eq_true, decide_eq_true_eq] at hpast
      exact hpast.2
    have hdead : ∀ t, now ≤ t → alive t last = false := by
      intro t ht
      simp only [alive, decide_eq_false_iff_not, Int64.not_lt]
      exact Int64.le_of_lt (Int64.lt_of_lt_of_le hlast ht)
    have hnone : ∀ t, now ≤ t →
        (((init ++ [last]).getLast?).filter (alive t)).map Prod.fst = none := by
      intro t ht
      simp [hdead t ht]
    generalize ((init ++ [last]).filter (keep now)).getLast? = older
    constructor
    · intro h last' hlast' _ e he
      have hnow := (h now (Int64.le_refl now)).trans (hnone now (Int64.le_refl now))
      rw [Option.mem_def.mp he] at hnow
      simpa [alive] using hnow
    · intro h t ht
      rw [hnone t ht]
      cases older with
      | none => rfl
      | some e =>
        have he : e.2 ≤ now := h last (by simp) hpast e rfl
        simpa [alive] using Int64.le_trans he ht
  · have hkeep : keep now last = true := by simp [keep, hpast]
    simp [hkeep, hpast]

/-- Compaction changes nothing a key shows from then on, unless the last write since the key was
dropped is past and an older one outlives the compaction. -/
theorem compact_preserves_get_iff {V : Type} [BinaryValue V]
    {order : Traversal (Σ _ : Key, RadishEvent V)} {ttl now : Timestamp} {writer : LogWriter}
    {ms : List (Mutation V)} (httl : ttl ≠ -1) (hmove : ∀ m ∈ ms, m.action.isMove = false)
    (hread : LogReader.getEvents none writer.log = .ok (ms.map Mutation.toEvent)) :
    ∃ writer', writer.compact none order now = (.ok (), writer') ∧ ∀ k,
      (∀ r r' t, now ≤ t →
        (fun store : RadishStore V => store.get t k) <$> writer'.replay none r' (new ttl) =
          (fun store : RadishStore V => store.get t k) <$> writer.replay none r (new ttl)) ↔
      ∀ last ∈ (writes k ms).getLast?, isPast now last.2 = true →
        ∀ older ∈ ((writes k ms).filter fun w => !isPast now w.2).getLast?, older.2 ≤ now := by
  rcases compact_completes order now hmove hread with ⟨writer', hcompact⟩
  refine ⟨writer', hcompact, fun k => ?_⟩
  have hagree := last_writes_agree_iff now (writes k ms)
  constructor
  · intro h
    apply hagree.mp
    intro t ht
    have hget := h now now t ht
    rw [get_compacted httl hmove hread hcompact, get_replayed httl hmove hread] at hget
    exact Except.ok.inj hget
  · intro h r r' t ht
    rw [get_compacted httl hmove hread hcompact, get_replayed httl hmove hread]
    exact congrArg Except.ok (hagree.mpr h t ht)

/-- A write is followed by one that expires earlier. -/
def shortenedWrite : List (Mutation Bytes) := [.create 100 [107] [118], .create 10 [107] [119]]

theorem getEvents_shortenedWrite :
    LogReader.getEvents none (intactLog "radish" shortenedWrite).log =
      .ok (shortenedWrite.map Mutation.toEvent) := by
  apply getEvents_intactLog
  intro m hm
  rcases List.mem_pair.mp hm with rfl | rfl <;> exact ⟨_, rfl⟩

theorem compact_preserves_get_shortenedWrite :
    ∃ writer', (intactLog "radish" shortenedWrite).compact (V := Bytes) none .listed 50 =
        (.ok (), writer') ∧ ∀ k,
      (∀ r r' t : Timestamp, 50 ≤ t →
        (fun store : RadishStore Bytes => store.get t k) <$> writer'.replay none r' (new 1000) =
          (fun store : RadishStore Bytes => store.get t k) <$>
            (intactLog "radish" shortenedWrite).replay none r (new 1000)) ↔
      ∀ last ∈ (writes k shortenedWrite).getLast?, isPast 50 last.2 = true →
        ∀ older ∈ ((writes k shortenedWrite).filter fun w => !isPast 50 w.2).getLast?,
          older.2 ≤ 50 :=
  compact_preserves_get_iff (by decide) (by decide) getEvents_shortenedWrite

/-- The superseded value is shown again once the log is compacted. -/
theorem compact_restores_shortenedWrite :
    ¬ ∀ (order : Traversal (Σ _ : Key, RadishEvent Bytes)) (ttl now r r' t : Timestamp)
        (writer writer' : LogWriter) (ms : List (Mutation Bytes)) (k : Key),
      ttl ≠ -1 → (∀ m ∈ ms, m.action.isMove = false) →
      LogReader.getEvents none writer.log = .ok (ms.map Mutation.toEvent) →
      writer.compact none order now = (.ok (), writer') → now ≤ t →
      (fun store : RadishStore Bytes => store.get t k) <$> writer'.replay none r' (new ttl) =
        (fun store : RadishStore Bytes => store.get t k) <$> writer.replay none r (new ttl) := by
  intro h
  have hmove : ∀ m ∈ shortenedWrite, m.action.isMove = false := by decide
  have httl : (1000 : Timestamp) ≠ -1 := by decide
  rcases compact_completes .listed 50 hmove getEvents_shortenedWrite with ⟨writer', hcompact⟩
  have hsame := h .listed 1000 50 0 60 60 _ writer' shortenedWrite [107] httl hmove
    getEvents_shortenedWrite hcompact (by decide)
  rw [get_compacted httl hmove getEvents_shortenedWrite hcompact,
    get_replayed httl hmove getEvents_shortenedWrite] at hsame
  revert hsame
  decide

end Radish.LogWriter
