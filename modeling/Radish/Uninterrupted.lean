import Radish.ClockReadings

/-!
# Databases that are compacted and reopened

A database may be compacted and closed and opened again at any time between its calls, while the
clock runs. As long as no call overwrites what would have been shown longer, it shows what it would
have shown had it never been compacted or closed.
-/

namespace Radish
set_option autoImplicit false

open Ledger LogReader LogWriter

variable {V : Type}

theorem told_append (ttl : Timestamp) (ms : List (Mutation V)) (m : Mutation V) :
    told ttl (ms ++ [m]) = told ttl ms ++ [m.action.map (RadishStore.binding ttl)] := by
  simp [told]

theorem Mutation.exists_put {ms : List (Mutation V)} {k : Key} {e : V × Timestamp}
    (h : Action.put k e ∈ ms.map Mutation.action) : ∃ m ∈ ms, m.timestamp = e.2 := by
  obtain ⟨m, hm, haction⟩ := List.mem_map.mp h
  refine ⟨m, hm, ?_⟩
  rw [Mutation.eq_ofEntry (p := (k, e)) haction]
  rfl

/-- Whatever is alive at the end of a compaction, it keeps. -/
theorem keep_of_binding {ttl now t : Timestamp} (hnow : now ≤ t) {e : V × Timestamp}
    (hstamp : ttl = -1 → e.2 = -1) (halive : (RadishStore.binding ttl e).alive t = true) :
    keep now e = true := by
  by_cases httl : ttl = -1
  · simp [keep, isPast, hstamp httl]
  · simp only [RadishStore.binding, if_neg httl, Binding.alive, Option.all_some,
      decide_eq_true_eq] at halive
    have hpast : ¬ e.2 < now := Int64.not_lt.mpr (Int64.le_of_lt (Int64.lt_of_le_of_lt hnow halive))
    simp [keep, isPast, hpast]

theorem RadishStore.newExpiryTimestamp_congr {store store' : RadishStore V}
    (h : store.ttl = store'.ttl) (now : Timestamp) :
    store.newExpiryTimestamp now = store'.newExpiryTimestamp now := by
  simp [newExpiryTimestamp, hasTimeToLive, h]

namespace RadishDB
variable [BinaryValue V]

/-- What the call overwrites, if it takes effect, is shown no longer than what it puts there, and a
rename is to another key. -/
def Outlasts (db : RadishDB V) (now : Timestamp) (c : Call V) : Prop :=
  (db.call none now c).1 = .ok true → ∀ t, now ≤ t →
    Yields (Binding.alive t) db.store.keyspace (c.effect db.store.ttl now)

/-- From `clock` on, every reader of the log of the database shows what the database shows. -/
structure Steady (db : RadishDB V) (clock : Timestamp) (ms : List (Mutation V)) : Prop where
  logged : db.Logged ms
  coherent : db.store.Coherent
  stamps : db.store.ttl = -1 → ∀ m ∈ ms, m.timestamp = -1
  read : ∀ t, clock ≤ t → ∀ s,
    ReadsAll (Binding.alive t) (fun _ => none) (told db.store.ttl ms) s →
    visible (Binding.alive t) db.store.keyspace = visible (Binding.alive t) s

section Calls
variable {db : RadishDB V} {ms : List (Mutation V)} {clock now : Timestamp}

/-- A call whose record is accepted acts on the keyspace, and one whose record is refused does
nothing. -/
theorem Logged.call_keyspace (h : db.Logged ms) (hcoherent : db.store.Coherent) (now : Timestamp)
    (c : Call V) :
    (Accepted (c.mutation (db.store.newExpiryTimestamp now)).toEvent →
      (db.call none now c).2.store.keyspace =
        replayStep (Binding.alive now) db.store.keyspace (c.effect db.store.ttl now)) ∧
    (¬ Accepted (c.mutation (db.store.newExpiryTimestamp now)).toEvent →
      (db.call none now c).2.store.keyspace = db.store.keyspace) ∧
    ((db.call none now c).1 = .ok true ↔
      Accepted (c.mutation (db.store.newExpiryTimestamp now)).toEvent ∧
        Effective (Binding.alive now) db.store.keyspace (c.effect db.store.ttl now)) := by
  have hiff := hcoherent.apply_fst_iff_effective now (c.mutation (db.store.newExpiryTimestamp now))
  rw [c.action_mutation] at hiff
  obtain ⟨hidle, hcall⟩ | ⟨heffective, hrefused, e, hcall⟩ |
    ⟨heffective, haccepted, db', hcall, hstore, -⟩ := call_cases h now c rfl
  · have hnot : ¬ Effective (Binding.alive now) db.store.keyspace (c.effect db.store.ttl now) := by
      intro heffective
      rw [hiff.mpr heffective] at hidle
      cases hidle
    rw [hcall]
    refine ⟨fun _ => (replayStep_of_idle hnot).symm, fun _ => rfl, ?_⟩
    exact iff_of_false (fun hok => by cases hok) fun hboth => hnot hboth.2
  · rw [hcall]
    refine ⟨fun haccepted => absurd haccepted hrefused, fun _ => rfl, ?_⟩
    exact iff_of_false (fun hok => by cases hok) fun hboth => hrefused hboth.1
  · rw [hcall]
    refine ⟨fun _ => ?_, fun hrefused => absurd haccepted hrefused, ?_⟩
    · rw [← c.action_mutation, ← hcoherent.keyspace_apply]
      exact congrArg RadishStore.keyspace hstore
    · exact iff_of_true rfl ⟨haccepted, hiff.mp heffective⟩

theorem Steady.mono (h : db.Steady clock ms) (hnow : clock ≤ now) : db.Steady now ms :=
  ⟨h.logged, h.coherent, h.stamps, fun t ht => h.read t (Int64.le_trans hnow ht)⟩

theorem Steady.call (h : db.Steady clock ms) (hnow : clock ≤ now) {c : Call V}
    (hlasts : db.Outlasts now c) : ∃ ms', (db.call none now c).2.Steady now ms' := by
  obtain ⟨-, hcall⟩ | ⟨-, -, e, hcall⟩ | ⟨heffective, -, db', hcall, hstore, hlogged⟩ :=
    call_cases h.logged now c rfl
  · exact ⟨ms, by rw [hcall]; exact h.mono hnow⟩
  · exact ⟨ms, by rw [hcall]; exact h.mono hnow⟩
  · have httl : db'.store.ttl = db.store.ttl := by rw [hstore, RadishStore.apply_ttl]
    have hyields := hlasts (by rw [hcall])
    rw [hcall]
    refine ⟨_, hlogged, hstore ▸ h.coherent.apply now _, ?_, ?_⟩
    · rw [httl]
      intro huntimed m hm
      obtain hold | hnew := List.mem_append.mp hm
      · exact h.stamps huntimed m hold
      · obtain rfl := List.mem_singleton.mp hnew
        cases c with
        | create key value => simp [Call.mutation, Mutation.timestamp,
            RadishStore.newExpiryTimestamp, RadishStore.hasTimeToLive, huntimed]
        | _ => rfl
    · intro t ht s hread
      rw [httl, told_append] at hread
      obtain ⟨s', hbefore, hlast⟩ := hread.of_snoc
      rw [hstore, h.coherent.keyspace_apply]
      refine visible_reads (h.read t (Int64.le_trans hnow ht) s' hbefore) ?_ ?_ hlast
      · exact (h.coherent.apply_fst_iff_effective now _).mp heffective
      · rw [c.action_mutation]
        exact hyields t ht

end Calls

section Files
variable {db : RadishDB V} {ms : List (Mutation V)} {clock now : Timestamp}
  {ticks ticks' : Nat → Timestamp}

/-- What a completed compaction leaves behind the store is as good a log of it. -/
theorem Steady.rewritten (h : db.Steady clock ms) (hnow : clock ≤ now)
    {m : Map Key (V × Timestamp)} {es : List (Key × V × Timestamp)} {disk : LogWriter}
    (hread : ReadsAll (fun e => (RadishStore.binding db.store.ttl e).alive now) (fun _ => none)
      (ms.map Mutation.action) m)
    (hsound : ∀ k e, (k, e) ∈ es → m k = some e)
    (hcomplete : ∀ k e, m k = some e → (RadishStore.binding db.store.ttl e).alive now = true →
      (k, e) ∈ es)
    (haccepted : ∀ p ∈ es, Accepted (Mutation.ofEntry p).toEvent)
    (hlog : disk.log = some (kHeader ++
      ((es.map Mutation.ofEntry).map Mutation.toEvent).flatMap frame)) :
    RadishDB.Steady { db with persistence := some disk } now (es.map Mutation.ofEntry) := by
  refine ⟨⟨List.forall_mem_map.mpr haccepted, disk, rfl, hlog⟩, h.coherent, ?_, ?_⟩
  · intro httl
    rw [List.forall_mem_map]
    intro p hp
    obtain ⟨x, hput⟩ := hread.source (hsound p.1 p.2 hp)
    obtain ⟨mutation, hmem, hstamp⟩ := Mutation.exists_put hput
    exact hstamp.symm.trans (h.stamps httl mutation hmem)
  · intro t ht s hs
    have hmapped := hread.map (RadishStore.binding db.store.ttl) fun _ => rfl
    have hshown := h.read now hnow _ hmapped
    rw [← visible_visible (Binding.alive_mono ht) db.store.keyspace, hshown,
      visible_visible (Binding.alive_mono ht)]
    have hlisting : told db.store.ttl (es.map Mutation.ofEntry) =
        (es.map fun p => (p.1, RadishStore.binding db.store.ttl p.2)).map
          fun p => Action.put p.1 p.2 := by
      simp only [told, List.map_map]
      rfl
    dsimp only at hs
    rw [hlisting] at hs
    refine (ReadsAll.visible_listing ?_ ?_ hs).symm
    · intro k b hmem
      obtain ⟨p, hp, hpair⟩ := List.mem_map.mp hmem
      obtain ⟨rfl, rfl⟩ := Prod.mk.inj hpair
      rw [hsound p.1 p.2 hp]
      rfl
    · intro k b hk halive
      obtain ⟨e, he, rfl⟩ := Option.map_eq_some_iff.mp hk
      exact List.mem_map.mpr ⟨(k, e), hcomplete k e he (Binding.alive_mono ht _ halive), rfl⟩

theorem Steady.compact (h : db.Steady clock ms) (hnow : clock ≤ now) (hticks : ∀ n, ticks n ≤ now)
    (hticks' : ∀ n, ticks' n ≤ now) (fault : Option Fault)
    (order : Traversal (Σ _ : Key, RadishEvent V)) :
    (db.compactTicking fault order ticks ticks').2.store = db.store ∧
      ∃ ms', (db.compactTicking fault order ticks ticks').2.Steady now ms' := by
  obtain ⟨disk, hdisk, hread⟩ := h.logged.getEvents
  have hafter : (db.compactTicking fault order ticks ticks').2 =
      { db with
        persistence := some (disk.compactTicking (V := V) fault order ticks ticks').2 } := by
    rw [compactTicking, hdisk]
  rw [hafter]
  refine ⟨rfl, ?_⟩
  rcases hcompact : disk.compactTicking (V := V) fault order ticks ticks' with ⟨e | ⟨⟩, disk'⟩
  · -- the log has not been touched
    refine ⟨ms, ?_⟩
    have hlog : disk'.log = disk.log := by
      have hfailed : (disk.compactTicking (V := V) fault order ticks ticks').2.log = disk.log :=
        compactTicking_failed (e := e) (by rw [hcompact])
      rwa [hcompact] at hfailed
    obtain ⟨haccepted, disk'', hdisk'', hrecords⟩ := h.logged
    obtain rfl := Option.some.inj (hdisk.symm.trans hdisk'')
    exact ⟨⟨haccepted, disk', rfl, hlog.trans hrecords⟩, h.coherent, h.stamps, (h.mono hnow).read⟩
  · have hkeep : ∀ n k e, Action.put k e ∈ ms.map Mutation.action →
        (RadishStore.binding db.store.ttl e).alive now = true →
        keep (ticks n) e = true ∧ keep (ticks' n) e = true := by
      intro n k e hput halive
      obtain ⟨mutation, hmem, hstamp⟩ := Mutation.exists_put hput
      have huntimed : db.store.ttl = -1 → e.2 = -1 :=
        fun httl => hstamp.symm.trans (h.stamps httl mutation hmem)
      exact ⟨keep_of_binding (hticks n) huntimed halive,
        keep_of_binding (hticks' n) huntimed halive⟩
    obtain ⟨m, es, hreads, hsound, hcomplete, haccepted, hlog⟩ :=
      compactTicking_reads hread hkeep hcompact
    exact ⟨_, h.rewritten hnow hreads hsound hcomplete haccepted hlog⟩

theorem newTicking_of_logged (h : db.Logged ms) (ticks : Nat → Timestamp) (ttl : Timestamp) :
    ∃ disk, db.persistence = some disk ∧ ∃ reopened : RadishDB V,
      newTicking ticks ttl .flush disk = .ok reopened ∧ reopened.Logged ms ∧
      reopened.store.Coherent ∧ reopened.store.ttl = ttl ∧
      ∀ t, (∀ n, ticks n ≤ t) →
        ReadsAll (Binding.alive t) (fun _ => none) (told ttl ms) reopened.store.keyspace := by
  obtain ⟨disk, hdisk, hread⟩ := h.getEvents
  obtain ⟨haccepted, disk', hdisk', hlog⟩ := h
  obtain rfl := Option.some.inj (hdisk.symm.trans hdisk')
  obtain ⟨store, happlied, hcoherent, httl, hreads⟩ :=
    applyEventsTicking_reads (RadishStore.coherent_new (V := V) ttl) (timed ticks ms)
  rw [← timed_map] at happlied
  rw [map_snd_timed] at hreads
  refine ⟨disk, hdisk, ⟨store, some disk⟩, ?_, ⟨haccepted, disk, rfl, hlog⟩, hcoherent, httl, ?_⟩
  · have hinit := ensureInitialized_of_header hlog
    have hfault : getEvents (V := V) (Fault.read none) disk.log = .ok (ms.map Mutation.toEvent) :=
      hread
    simp only [newTicking, hinit, ok_bind, replayTicking, hfault, happlied]
    rfl
  · intro t ht
    refine hreads t ?_
    intro p hp
    obtain ⟨n, hn⟩ := exists_reading hp
    exact hn ▸ ht n

theorem Steady.reopen (h : db.Steady clock ms) (hnow : clock ≤ now) (hticks : ∀ n, ticks n ≤ now)
    {disk : LogWriter} (hdisk : db.persistence = some disk) {reopened : RadishDB V}
    (hopen : newTicking ticks db.store.ttl .flush disk = .ok reopened) :
    reopened.Steady now ms ∧ reopened.store.ttl = db.store.ttl ∧
      visible (Binding.alive now) reopened.store.keyspace =
        visible (Binding.alive now) db.store.keyspace := by
  obtain ⟨disk', hdisk', reopened', hopen', hlogged, hcoherent, httl, hreads⟩ :=
    newTicking_of_logged h.logged ticks db.store.ttl
  obtain rfl := Option.some.inj (hdisk.symm.trans hdisk')
  obtain rfl := Except.ok.inj (hopen.symm.trans hopen')
  have hshown : ∀ t, now ≤ t → visible (Binding.alive t) db.store.keyspace =
      visible (Binding.alive t) reopened.store.keyspace := by
    intro t ht
    exact h.read t (Int64.le_trans hnow ht) _ (hreads t fun n => Int64.le_trans (hticks n) ht)
  refine ⟨⟨hlogged, hcoherent, ?_, ?_⟩, httl, (hshown now (Int64.le_refl now)).symm⟩
  · rw [httl]
    exact h.stamps
  · intro t ht s hread
    rw [httl] at hread
    exact (hshown t ht).symm.trans (h.read t (Int64.le_trans hnow ht) s hread)

end Files

/-! ## Whole lives -/

section Lives
variable {first db : RadishDB V} {calls : List (Timestamp × Call V)} {clock now : Timestamp}

/-- The database shows what the first one would show after the same calls. -/
structure Matches (db ref : RadishDB V) (clock : Timestamp) : Prop where
  steady : ∃ ms, db.Steady clock ms
  logged : ∃ ms, ref.Logged ms
  coherent : ref.store.Coherent
  ttl : db.store.ttl = ref.store.ttl
  shown : visible (Binding.alive clock) db.store.keyspace =
    visible (Binding.alive clock) ref.store.keyspace

theorem Matches.mono {ref : RadishDB V} (h : db.Matches ref clock) (hnow : clock ≤ now) :
    db.Matches ref now := by
  obtain ⟨ms, hms⟩ := h.steady
  refine ⟨⟨ms, hms.mono hnow⟩, h.logged, h.coherent, h.ttl, ?_⟩
  rw [← visible_visible (Binding.alive_mono hnow) db.store.keyspace, h.shown,
    visible_visible (Binding.alive_mono hnow)]

/-- Databases that show the same accept the same calls, and a call that overwrites nothing shown
longer for one of them does not for the other. -/
theorem Matches.outlasts {ref : RadishDB V} (h : db.Matches ref now) {c : Call V}
    (hlasts : ref.Outlasts now c) : db.Outlasts now c := by
  obtain ⟨ms, hms⟩ := h.steady
  obtain ⟨ms', hms'⟩ := h.logged
  have hexpiry := RadishStore.newExpiryTimestamp_congr h.ttl now
  -- what is alive now is the same in both
  have hsame : ∀ {t key binding}, now ≤ t → db.store.keyspace key = some binding →
      binding.alive t = true → ref.store.keyspace key = some binding := by
    intro t key binding ht hkey halive
    have hshown : visible (Binding.alive now) db.store.keyspace key = some binding :=
      visible_eq_some_iff.mpr ⟨hkey, Binding.alive_mono ht binding halive⟩
    rw [h.shown] at hshown
    exact (visible_eq_some_iff.mp hshown).1
  intro hok
  obtain ⟨haccepted, heffective⟩ := (hms.logged.call_keyspace hms.coherent now c).2.2.mp hok
  rw [hexpiry] at haccepted
  have hyields : Effective (Binding.alive now) ref.store.keyspace (c.effect ref.store.ttl now) →
      ∀ t, now ≤ t →
        Yields (Binding.alive t) ref.store.keyspace (c.effect ref.store.ttl now) := by
    intro heffective'
    exact hlasts ((hms'.call_keyspace h.coherent now c).2.2.mpr ⟨haccepted, heffective'⟩)
  intro t ht
  rw [h.ttl]
  cases c with
  | create key value =>
    intro old hold halive
    exact hyields trivial t ht old (hsame ht hold halive) halive
  | rename oldKey newKey =>
    obtain ⟨moved, hmoved, hnow⟩ := (Option.any_eq_true _ _).mp heffective
    have hmoved' := hsame (Int64.le_refl now) hmoved hnow
    have heffective' : Effective (Binding.alive now) ref.store.keyspace (.move oldKey newKey) := by
      change (ref.store.keyspace oldKey).any (Binding.alive now) = true
      rw [hmoved']
      exact hnow
    obtain ⟨hne, hover⟩ := hyields heffective' t ht
    refine ⟨hne, ?_⟩
    intro source old hsource hold halive
    obtain rfl := Option.some.inj (hmoved.symm.trans hsource)
    exact hover moved old hmoved' (hsame ht hold halive) halive
  | delete key => trivial
  | clear => trivial

theorem Matches.call {ref : RadishDB V} (h : db.Matches ref now) {c : Call V}
    (hlasts : ref.Outlasts now c) :
    (db.call none now c).2.Matches (ref.call none now c).2 now := by
  obtain ⟨ms, hms⟩ := h.steady
  obtain ⟨ms', hms'⟩ := h.logged
  have hexpiry := RadishStore.newExpiryTimestamp_congr h.ttl now
  obtain ⟨haccepts, hrefuses, -⟩ := hms.logged.call_keyspace hms.coherent now c
  obtain ⟨haccepts', hrefuses', -⟩ := hms'.call_keyspace h.coherent now c
  obtain ⟨hcoherent', httl'⟩ := call_coherent h.coherent none now c
  obtain ⟨-, httl⟩ := call_coherent hms.coherent none now c
  refine ⟨hms.call (Int64.le_refl now) (h.outlasts hlasts), hms'.run [(now, c)], hcoherent', ?_, ?_⟩
  · rw [httl, httl', h.ttl]
  · by_cases haccepted : Accepted (c.mutation (ref.store.newExpiryTimestamp now)).toEvent
    · rw [haccepts (hexpiry ▸ haccepted), haccepts' haccepted, h.ttl]
      refine visible_replayStep (fun _ halive => halive) h.shown _ ?_
      intro a b ea eb _ _ _ hea _ _
      exact hea
    · rw [hrefuses (hexpiry ▸ haccepted), hrefuses' haccepted]
      exact h.shown

end Lives

end RadishDB

end Radish
