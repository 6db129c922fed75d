import Radish.CallHistory

/-!
# Restarting a database with expiries

A restart replays the log against a later clock, so a rename may meet an entry that has expired
since and be skipped. This shows only if the rename had overwritten an entry that has not.
-/

namespace Radish
set_option autoImplicit false
open Ledger LogWriter

variable {V : Type}

/-- Two stores that agree on what is alive now agree on what they show from now on. -/
theorem RadishStore.get_congr {store store' : RadishStore V} (h : store.Coherent)
    (h' : store'.Coherent) (httl : store.ttl ≠ -1) (httl' : store'.ttl ≠ -1) {t : Timestamp}
    (hvisible : visible (alive t) store.entries = visible (alive t) store'.entries)
    {t' : Timestamp} (ht : t ≤ t') (k : Key) : store.get t' k = store'.get t' k := by
  have hlater : visible (alive t') store.entries = visible (alive t') store'.entries := by
    rw [← visible_visible (alive_mono ht), hvisible, visible_visible (alive_mono ht)]
  rw [get_of_timed h httl, get_of_timed h' httl']
  exact congrArg (Option.map Prod.fst) (congrFun hlater k)

theorem RadishStore.entries_eq_some {store : RadishStore V} {k : Key} {entry : V × Timestamp}
    (h : store.entries k = some entry) : store.ttlData.lookup k = some entry.2 := by
  simp only [entries, Option.bind_eq_some_iff, Option.map_eq_some_iff] at h
  obtain ⟨v, -, expiry, hexpiry, rfl⟩ := h
  exact hexpiry

theorem RadishStore.entries_of_expiry {store : RadishStore V} (h : store.Coherent) (httl : store.ttl ≠ -1)
    {k : Key} {expiry : Timestamp} (hexpiry : store.ttlData.lookup k = some expiry) :
    ∃ v, store.entries k = some (v, expiry) := by
  have hdata := h.timed httl k
  rw [hexpiry, Option.isSome_some] at hdata
  rcases Option.isSome_iff_exists.mp hdata.symm with ⟨v, hv⟩
  exact ⟨v, by simp [RadishStore.entries, hv, hexpiry]⟩

namespace RadishDB
variable [BinaryValue V]

/-- Reopened with the same ttl at `t`, the database shows from then on what it would have shown
without the restart. -/
def SurvivesRestart (db : RadishDB V) (t : Timestamp) : Prop :=
  ∃ disk reopened, db.persistence = some disk ∧ new t db.store.ttl .flush disk = .ok reopened ∧
    ∀ k t', t ≤ t' → reopened.get t' k = db.get t' k

/-- A rename takes effect and overwrites an entry that would have outlived the one it moves. -/
def Buries (db : RadishDB V) (now : Timestamp) (a b : Key) : Prop :=
  a ≠ b ∧ (db.call none now (.rename a b)).1 = .ok true ∧ ∃ expiry expiry',
    db.store.ttlData.lookup a = some expiry ∧ db.store.ttlData.lookup b = some expiry' ∧
      expiry < expiry'

/-- What a database shows from `t` on is what its log would replay to at `t`. -/
structure ShowsLog (db : RadishDB V) (t : Timestamp) (ms : List (Mutation V)) : Prop where
  logged : db.Logged ms
  timed : db.store.ttl ≠ -1
  coherent : db.store.Coherent
  shown : visible (alive t) db.store.entries =
    visible (alive t) (Ledger.replay (alive t) (fun _ => none) (ms.map Mutation.action))

theorem ShowsLog.call {db : RadishDB V} {t now : Timestamp} {ms : List (Mutation V)}
    (h : db.ShowsLog t ms) (hnow : now ≤ t) (c : Call V)
    (hbury : ∀ a b, c = .rename a b → ¬ db.Buries now a b) :
    ∃ ms', (db.call none now c).2.ShowsLog t ms' := by
  rcases call_cases h.logged now c rfl with ⟨-, hcall⟩ | ⟨-, -, e, hcall⟩ |
    ⟨-, -, db', hcall, hstore, hlogged⟩
  · exact ⟨ms, hcall ▸ h⟩
  · exact ⟨ms, hcall ▸ h⟩
  · rw [hcall]
    refine ⟨_, hlogged, ?_, ?_, ?_⟩
    · rw [hstore, RadishStore.apply_ttl]
      exact h.timed
    · rw [hstore]
      exact h.coherent.apply now _
    · rw [hstore, RadishStore.entries_apply h.coherent h.timed, List.map_append, replay_append]
      apply visible_replayStep (alive_mono hnow) h.shown
      intro a b ea eb haction hab ha _ hb hlate
      cases c with
      | rename oldKey newKey =>
        injection haction with hold hnew
        subst hold hnew
        cases hea : alive t ea with
        | true => rfl
        | false =>
          refine absurd ⟨hab, by rw [hcall], ea.2, eb.2, RadishStore.entries_eq_some ha,
            RadishStore.entries_eq_some hb, ?_⟩ (hbury _ _ rfl)
          simp only [alive, decide_eq_true_eq, decide_eq_false_iff_not, Int64.not_lt] at hlate hea
          exact Int64.lt_of_le_of_lt hea hlate
      | _ => cases haction

theorem ShowsLog.run {db : RadishDB V} {t : Timestamp} {ms : List (Mutation V)}
    (h : db.ShowsLog t ms) {calls : List (Timestamp × Call V)} (htime : ∀ c ∈ calls, c.1 ≤ t)
    (hbury : ∀ earlier now a b later, calls = earlier ++ (now, .rename a b) :: later →
      ¬ (db.run earlier).Buries now a b) :
    ∃ ms', (db.run calls).ShowsLog t ms' := by
  induction calls generalizing db ms with
  | nil => exact ⟨ms, h⟩
  | cons c calls ih =>
    rcases c with ⟨now, c⟩
    rcases h.call (htime _ List.mem_cons_self) c (fun a b hc => hbury [] now a b calls (by rw [hc]; rfl))
      with ⟨ms', hms'⟩
    apply ih hms' (fun x hx => htime x (List.mem_cons_of_mem _ hx))
    intro earlier now' a b later hsplit
    exact hbury ((now, c) :: earlier) now' a b later (by rw [hsplit]; rfl)

theorem ShowsLog.survivesRestart {db : RadishDB V} {t : Timestamp} {ms : List (Mutation V)}
    (h : db.ShowsLog t ms) : db.SurvivesRestart t := by
  rcases new_of_logged h.logged t db.store.ttl with ⟨disk, hdisk, reopened, hnew, hstore, -⟩
  refine ⟨disk, reopened, hdisk, hnew, ?_⟩
  intro k t' ht
  have hfresh : reopened.store.Coherent := by
    rw [hstore]
    exact (RadishStore.coherent_new _).applyAll t ms
  apply RadishStore.get_congr hfresh h.coherent _ h.timed _ ht
  · rw [hstore, RadishStore.applyAll_ttl]
    exact h.timed
  · rw [hstore, RadishStore.entries_fresh h.timed]
    exact h.shown.symm

theorem SurvivesRestart.get_eq {db : RadishDB V} {t : Timestamp} (h : db.SurvivesRestart t)
    {ms : List (Mutation V)} (hlogged : db.Logged ms) (k : Key) :
    ((RadishStore.new db.store.ttl).applyAll t ms).get t k = db.get t k := by
  rcases h with ⟨disk, reopened, hdisk, hnew, hget⟩
  rcases new_of_logged hlogged t db.store.ttl with ⟨disk', hdisk', reopened', hnew', hstore, -⟩
  obtain rfl := Option.some.inj (hdisk.symm.trans hdisk')
  obtain rfl := Except.ok.inj (hnew.symm.trans hnew')
  rw [← hstore]
  exact hget k t (Int64.le_refl t)

/-- Where a rename has buried an entry, a restart as the moved one expires brings it back. -/
theorem Buries.not_survivesRestart {db : RadishDB V} {now : Timestamp} {a b : Key}
    {ms : List (Mutation V)} (h : db.Buries now a b) (hlogged : db.Logged ms)
    (hcoherent : db.store.Coherent) (httl : db.store.ttl ≠ -1) :
    ∃ t, now ≤ t ∧ (db.SurvivesRestart t →
      ¬ (db.call none now (.rename a b)).2.SurvivesRestart t) := by
  rcases h with ⟨hab, htrue, expiry, expiry', hexpiry, hexpiry', hlt⟩
  rcases RadishStore.entries_of_expiry hcoherent httl hexpiry with ⟨va, ha⟩
  rcases RadishStore.entries_of_expiry hcoherent httl hexpiry' with ⟨vb, hb⟩
  rcases call_cases hlogged now (.rename a b) rfl with ⟨-, hcall⟩ | ⟨-, -, e, hcall⟩ |
    ⟨heffective, -, db', hcall, hstore, hlogged'⟩
  · rw [hcall] at htrue
    cases htrue
  · rw [hcall] at htrue
    cases htrue
  -- the moved entry was alive at the rename and is dead at its expiry
  have halive : now < expiry := by
    cases hget : db.store.get now a with
    | none =>
      have hidle : (db.store.rename now a b).1 = false := by
        rw [RadishStore.rename_of_get_eq_none b hget]
      cases heffective.symm.trans hidle
    | some v =>
      rcases (RadishStore.get_eq_some_iff_of_timed hcoherent httl).mp hget with ⟨e, he, hlive⟩
      rw [ha] at he
      injection he with he
      injection he with _ he
      rwa [he]
  refine ⟨expiry, Int64.le_of_lt halive, ?_⟩
  rw [hcall]
  intro hsurvives hsurvives'
  have hsame := hsurvives.get_eq hlogged
  have hdead : db.store.get expiry a = none := by
    rw [RadishStore.get_of_timed hcoherent httl, ha]
    simp [Option.filter, alive]
  have hshown : db.store.get expiry b = some vb :=
    (RadishStore.get_eq_some_iff_of_timed hcoherent httl).mpr ⟨expiry', hb, hlt⟩
  have hskip : (RadishStore.new db.store.ttl).applyAll expiry (ms ++ [.rename (-1) a b]) =
      (RadishStore.new db.store.ttl).applyAll expiry ms := by
    rw [RadishStore.applyAll_append]
    exact congrArg Prod.snd (RadishStore.rename_of_get_eq_none b ((hsame a).trans hdead))
  have httl' : db'.store.ttl = db.store.ttl := by rw [hstore, RadishStore.apply_ttl]
  have hlost : db'.get expiry b = none := by
    have hcoherent' : db'.store.Coherent := hstore ▸ hcoherent.apply now _
    rw [get, RadishStore.get_of_timed hcoherent' (httl'.symm ▸ httl), hstore,
      RadishStore.entries_apply hcoherent httl]
    simp [Mutation.action, Call.mutation, replayStep, ha, alive, halive, relocate_apply ha,
      Ne.symm hab, Option.filter]
  have hkept := hsurvives'.get_eq hlogged' b
  rw [hlost, httl'] at hkept
  have hback : ((RadishStore.new db.store.ttl).applyAll expiry (ms ++ [.rename (-1) a b])).get
      expiry b = some vb := by
    rw [hskip]
    exact (hsame b).trans hshown
  cases hkept.symm.trans hback

theorem showsLog_of_absent {now ttl t : Timestamp} {writer : LogWriter} {db : RadishDB V}
    (httl : 0 ≤ ttl) (habsent : writer.log = none) (h : new now ttl .flush writer = .ok db) :
    db.ShowsLog t [] := by
  rcases fresh_of_absent habsent h with ⟨hstore, hlogged⟩
  refine ⟨hlogged, ?_, ?_, ?_⟩
  · rw [hstore, RadishStore.new_ttl]
    intro heq
    rw [heq] at httl
    revert httl
    decide
  · rw [hstore]
    exact RadishStore.coherent_new ttl
  · rw [hstore]
    rfl

/-- A run survives a restart at every moment exactly when none of its renames overwrites an entry
that would have outlived the one it moves. -/
theorem survivesRestart_iff {start ttl : Timestamp} {writer : LogWriter} {db : RadishDB V}
    {calls : List (Timestamp × Call V)} (httl : 0 ≤ ttl) (habsent : writer.log = none)
    (hopen : new start ttl .flush writer = .ok db)
    (hclock : (calls.map Prod.fst).Pairwise (· ≤ ·)) :
    (∀ earlier t, earlier <+: calls → (∀ c ∈ earlier, c.1 ≤ t) →
      (db.run earlier).SurvivesRestart t) ↔
    ∀ earlier now a b later, calls = earlier ++ (now, .rename a b) :: later →
      ¬ (db.run earlier).Buries now a b := by
  constructor
  · intro h earlier now a b later hsplit hbury
    have hfresh := showsLog_of_absent httl habsent hopen (t := start)
    rcases hfresh.logged.run earlier with ⟨ms, hms⟩
    rcases hbury.not_survivesRestart hms (coherent_run hfresh.coherent earlier)
      (by rw [run_ttl]; exact hfresh.timed) with ⟨t, hnow, hnot⟩
    have hbefore : ∀ c ∈ earlier, c.1 ≤ t := by
      intro c hc
      rw [hsplit, List.map_append, List.pairwise_append] at hclock
      have hle : c.1 ≤ now :=
        hclock.2.2 c.1 (List.mem_map_of_mem hc) now (by simp)
      exact Int64.le_trans hle hnow
    apply hnot (h earlier t ⟨_, hsplit.symm⟩ hbefore)
    have hinitial : earlier ++ [(now, .rename a b)] <+: calls := ⟨later, by simp [hsplit]⟩
    have hlater := h (earlier ++ [(now, .rename a b)]) t hinitial (by
      intro c hc
      rcases List.mem_append.mp hc with hc | hc
      · exact hbefore c hc
      · rw [List.mem_singleton.mp hc]
        exact hnow)
    rwa [run_append] at hlater
  · rintro h earlier t ⟨rest, rfl⟩ htime
    have hfresh := showsLog_of_absent httl habsent hopen (t := t)
    rcases hfresh.run htime (fun before now a b later hsplit =>
      h before now a b (later ++ rest) (by simp [hsplit])) with ⟨ms, hms⟩
    exact hms.survivesRestart

/-- An entry is renamed onto one that expires later. -/
def buryingRun : List (Timestamp × Call Bytes) :=
  [(0, .create [97] [1]), (10, .create [98] [2]), (20, .rename [97] [98])]

theorem survivesRestart_buryingRun :
    (∀ earlier t, earlier <+: buryingRun → (∀ c ∈ earlier, c.1 ≤ t) →
      ((fresh "radish" 100).run earlier).SurvivesRestart t) ↔
    ∀ earlier now a b later, buryingRun = earlier ++ (now, .rename a b) :: later →
      ¬ ((fresh "radish" 100).run earlier).Buries now a b :=
  have habsent : (⟨"radish", none, none⟩ : LogWriter).log = none := rfl
  survivesRestart_iff (by decide) habsent (new_fresh "radish" 0 100) (by decide)

/-- The overwritten value is back if the restart falls between the two expiries. -/
theorem restart_digs_up_buryingRun :
    ¬ ∀ (start ttl t : Timestamp) (writer : LogWriter) (db : RadishDB Bytes)
        (calls : List (Timestamp × Call Bytes)),
      0 ≤ ttl → (∀ c ∈ calls, c.1.toInt + ttl.toInt < 2 ^ 63) → writer.log = none →
      new start ttl .flush writer = .ok db → (calls.map Prod.fst).Pairwise (· ≤ ·) →
      (∀ c ∈ calls, c.1 ≤ t) → (db.run calls).SurvivesRestart t := by
  intro h
  have hrun : ∀ calls t, (∀ c ∈ calls, c.1.toInt + (100 : Timestamp).toInt < 2 ^ 63) →
      (calls.map Prod.fst).Pairwise (· ≤ ·) → (∀ c ∈ calls, c.1 ≤ t) →
      ((fresh "radish" 100).run calls).SurvivesRestart t :=
    fun calls t hoverflow hclock =>
      h 0 100 t _ _ calls (by decide) hoverflow rfl (new_fresh "radish" 0 100) hclock
  rcases (fresh_logged (V := Bytes) "radish" 100).run (buryingRun.take 2) with ⟨ms, hms⟩
  have hbury : ((fresh "radish" 100).run (buryingRun.take 2)).Buries 20 [97] [98] :=
    ⟨by decide, rfl, 100, 110, rfl, rfl, by decide⟩
  have hcoherent := coherent_run (show (fresh "radish" 100 : RadishDB Bytes).store.Coherent from
    RadishStore.coherent_new 100) (buryingRun.take 2)
  rcases hbury.not_survivesRestart hms hcoherent (by decide) with ⟨t, hnow, hnot⟩
  have hall : ∀ c ∈ buryingRun, c.1 ≤ t := by
    have hle : ∀ c ∈ buryingRun, c.1 ≤ 20 := by decide
    exact fun c hc => Int64.le_trans (hle c hc) hnow
  apply hnot
  · exact hrun (buryingRun.take 2) t (by decide) (by decide) fun c hc =>
      hall c (List.mem_of_mem_take hc)
  · exact hrun buryingRun t (by decide) (by decide) hall

end RadishDB

end Radish
