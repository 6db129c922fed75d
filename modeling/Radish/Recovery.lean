import Radish.LogGrammar

/-!
# Reading a log back, and writing on after a crash

A torn tail is ignored by the reader, but an append does not remove it: the next record lands
behind the leftover bytes and is read as their continuation.
-/

namespace Radish.LogWriter
set_option autoImplicit false
open LogReader

variable {V : Type}

/-- What can happen to a log between two reads: one more append, or a restart. -/
inductive LogStep (V : Type) where
  | append (event : RadishEvent V)
  | reopen

def LogStep.event? : LogStep V → Option (RadishEvent V)
  | append event => some event
  | reopen => none

def appended (steps : List (LogStep V)) : List (RadishEvent V) := steps.filterMap LogStep.event?

variable [BinaryValue V]

def LogStep.run (writer : LogWriter) : LogStep V → Except Exception LogWriter
  | append event =>
    match writer.append none event with
    | (.ok (), writer) => .ok writer
    | (.error e, _) => .error e
  | reopen => writer.ensureInitialized

def runSteps (writer : LogWriter) : List (LogStep V) → Except Exception LogWriter
  | [] => .ok writer
  | step :: steps => do
    let writer ← step.run writer
    runSteps writer steps

theorem LogStep.run_append_eq_ok_iff {writer writer' : LogWriter} {event : RadishEvent V} :
    (LogStep.append event).run writer = .ok writer' ↔ writer.append none event = (.ok (), writer') := by
  rcases h : writer.append none event with ⟨_ | _, w⟩ <;> simp [LogStep.run, h]

/-- On a file with a header the steps succeed exactly when every record is accepted, and they
put the records' frames behind whatever the file held. -/
theorem runSteps_eq_ok_iff {writer writer' : LogWriter} {body : Bytes} {steps : List (LogStep V)}
    (h : writer.log = some (kHeader ++ body)) :
    runSteps writer steps = .ok writer' ↔
      (∀ e ∈ appended steps, Accepted e) ∧
        writer' = { writer with log := some (kHeader ++ (body ++ (appended steps).flatMap frame)) } := by
  induction steps generalizing writer body with
  | nil =>
    obtain ⟨filename, log, temporary⟩ := writer
    dsimp only at h
    subst h
    simp [runSteps, appended, eq_comm]
  | cons step steps ih =>
    rw [runSteps, bind_eq_ok_iff]
    cases step with
    | reopen =>
      have hopen : (LogStep.reopen : LogStep V).run writer = .ok writer :=
        ensureInitialized_of_header h
      have happended : appended (LogStep.reopen :: steps) = appended steps := rfl
      simpa [hopen, happended] using ih h
    | append event =>
      have happended : appended (LogStep.append event :: steps) = event :: appended steps := rfl
      have hlog : writer.log.getD [] = kHeader ++ body := by simp [h]
      have hnext : ({ writer with log := some (kHeader ++ body ++ frame event) } : LogWriter).log =
          some (kHeader ++ (body ++ frame event)) := by simp
      simp only [LogStep.run_append_eq_ok_iff, append_eq_ok_iff, happended, List.forall_mem_cons,
        List.flatMap_cons, hlog]
      constructor
      · rintro ⟨middle, ⟨haccepted, rfl⟩, hrest⟩
        obtain ⟨hall, rfl⟩ := (ih hnext).mp hrest
        exact ⟨⟨haccepted, hall⟩, by simp⟩
      · rintro ⟨⟨haccepted, hall⟩, rfl⟩
        exact ⟨_, ⟨haccepted, rfl⟩, (ih hnext).mpr ⟨hall, by simp⟩⟩

/-- The codec accepts exactly its grammar, whatever kind of value is stored. -/
theorem log_codec :
    (∀ (file : Bytes) (events : List (RadishEvent V)),
      getEvents none (some file) = .ok events ↔
        (∀ e ∈ events, e.WellFormed) ∧ ∃ records tail,
          writeRecords [] events = (.ok (), records) ∧ TornTail tail ∧
            file = kHeader ++ records ++ tail) ∧
    (∀ (writer fresh : LogWriter) (events : List (RadishEvent V)),
      writer.log = none → writer.ensureInitialized = .ok fresh →
      (∀ e ∈ events, e.WellFormed ∧ ∃ record, writeRecord e = .ok record) →
      ∃ writer', runSteps fresh (events.map .append) = .ok writer' ∧
        getEvents none writer'.log = .ok events) := by
  constructor
  · intro file events
    rw [getEvents_eq_ok_iff]
    simp only [writeRecords_eq_ok_iff, List.nil_append]
    constructor
    · rintro ⟨hok, tail, htail, rfl⟩
      exact ⟨fun e he => (hok e he).1, _, tail, ⟨fun e he => (hok e he).2, rfl⟩, htail, by simp⟩
    · rintro ⟨hwell, _, tail, ⟨haccepted, rfl⟩, htail, rfl⟩
      exact ⟨fun e he => ⟨hwell e he, haccepted e he⟩, tail, htail, by simp⟩
  · intro writer fresh events habsent hfresh hok
    have hlog : fresh.log = some (kHeader ++ []) := by
      rw [ensureInitialized, habsent] at hfresh
      rw [← Except.ok.inj hfresh, List.append_nil]
    have happended : appended (events.map LogStep.append) = events := by
      simp only [appended, List.filterMap_map]
      exact List.filterMap_some
    refine ⟨_, (runSteps_eq_ok_iff hlog).mpr ⟨?_, rfl⟩, ?_⟩
    · rw [happended]
      exact fun e he => (hok e he).2
    · rw [happended]
      exact getEvents_intact hok

theorem log_codec_string :
    ∃ writer', runSteps ⟨"radish", some kHeader, none⟩
        ([(Mutation.create 7 [107] ([118] : Bytes)).toEvent].map .append) = .ok writer' ∧
      getEvents none writer'.log = .ok [(Mutation.create 7 [107] ([118] : Bytes)).toEvent] := by
  refine log_codec.2 ⟨"radish", none, none⟩ _ _ rfl rfl ?_
  intro e he
  obtain rfl := List.mem_singleton.mp he
  exact ⟨Mutation.wellFormed _, _, rfl⟩

/-- Appends behind a torn tail are read back only if nothing was appended, or by coincidence:
the torn bytes repeat through the new frames, and the bytes left over at the end are themselves
a torn tail. -/
theorem getEvents_after_torn_tail_iff {writer writer' : LogWriter} {events : List (RadishEvent V)}
    {victim : RadishEvent V} {records torn rest : Bytes} {steps : List (LogStep V)}
    (hevents : ∀ e ∈ events, e.WellFormed)
    (hrecords : writeRecords [] events = (.ok (), records))
    (hvictim : writeRecord victim = .ok (torn ++ rest)) (hrest : rest ≠ [])
    (hlog : writer.log = some (kHeader ++ records ++ torn))
    (hsteps : runSteps writer steps = .ok writer') :
    getEvents none writer'.log = .ok (events ++ appended steps) ↔
      appended steps = [] ∨
      ∃ frames, writeRecords [] (appended steps) = (.ok (), frames) ∧
        (∀ e ∈ appended steps, e.WellFormed) ∧ frames <+: torn ++ frames ∧
        TornTail ((torn ++ frames).drop frames.length) := by
  obtain ⟨haccepted, rfl⟩ := writeRecords_eq_ok_iff.mp hrecords
  rw [List.append_assoc] at hlog
  obtain ⟨hnew, rfl⟩ := (runSteps_eq_ok_iff hlog).mp hsteps
  have htorn := tornTail_of_strict_prefix hvictim hrest
  dsimp only
  rw [getEvents_eq_ok_iff]
  generalize appended steps = new at hnew ⊢
  constructor
  · rintro ⟨hok, tail, htail, hsplit⟩
    simp only [List.flatMap_append, List.append_assoc, List.nil_append,
      List.append_cancel_left_eq] at hsplit
    refine Or.inr ⟨_, writeRecords_eq_ok_iff.mpr ⟨hnew, rfl⟩, ?_, ?_, ?_⟩
    · exact fun e he => (hok e (List.mem_append_right _ he)).1
    · exact ⟨tail, hsplit.symm⟩
    · rw [List.nil_append, hsplit, List.drop_left]
      exact htail
  · intro h
    -- in both cases the new frames are a prefix of the torn bytes followed by them
    obtain ⟨hwell, tail, htail, hsplit⟩ : (∀ e ∈ new, e.WellFormed) ∧ ∃ tail, TornTail tail ∧
        torn ++ new.flatMap frame = new.flatMap frame ++ tail := by
      rcases h with rfl | ⟨frames, hframes, hwell, ⟨tail, hsplit⟩, htail⟩
      · exact ⟨by simp, torn, htorn, by simp⟩
      · obtain ⟨-, rfl⟩ := writeRecords_eq_ok_iff.mp hframes
        rw [List.nil_append] at hsplit htail
        rw [← hsplit, List.drop_left] at htail
        exact ⟨hwell, tail, htail, hsplit.symm⟩
    refine ⟨?_, tail, htail, ?_⟩
    · intro e he
      rcases List.mem_append.mp he with he | he
      · exact ⟨hevents e he, haccepted e he⟩
      · exact ⟨hwell e he, hnew e he⟩
    · simp [List.flatMap_append, hsplit]

/-- The first byte of a record that never got any further, and one more acknowledged record. -/
theorem getEvents_after_torn_tail_clear :
    getEvents none (some (kHeader ++ [9] ++ [9, 0, 0, 0, 3, 255, 255, 255, 255, 255, 255, 255, 255])) =
        .ok ([] ++ [(Mutation.clear (-1) : Mutation Bytes).toEvent]) ↔
      appended [LogStep.append (Mutation.clear (-1) : Mutation Bytes).toEvent] = [] ∨
      ∃ frames, writeRecords [] (appended [LogStep.append (Mutation.clear (-1) : Mutation Bytes).toEvent]) =
          (.ok (), frames) ∧
        (∀ e ∈ appended [LogStep.append (Mutation.clear (-1) : Mutation Bytes).toEvent], e.WellFormed) ∧
        frames <+: [9] ++ frames ∧ TornTail (([9] ++ frames).drop frames.length) :=
  have hvictim : writeRecord (Mutation.clear (-1) : Mutation Bytes).toEvent =
      .ok ([9] ++ [0, 0, 0, 3, 255, 255, 255, 255, 255, 255, 255, 255]) := rfl
  have hsteps : runSteps ⟨"radish", some (kHeader ++ [] ++ [9]), none⟩
      [LogStep.append (Mutation.clear (-1) : Mutation Bytes).toEvent] =
      .ok ⟨"radish", some (kHeader ++ [9] ++
        [9, 0, 0, 0, 3, 255, 255, 255, 255, 255, 255, 255, 255]), none⟩ := rfl
  getEvents_after_torn_tail_iff (List.forall_mem_nil _) rfl hvictim (by simp) rfl hsteps

/-- The acknowledged record is lost: its bytes are read as the length of a record that is not
all there. -/
theorem torn_tail_loses_append :
    ¬ ∀ (writer writer' : LogWriter) (events : List (RadishEvent Bytes)) (victim : RadishEvent Bytes)
        (records torn rest : Bytes) (steps : List (LogStep Bytes)),
      (∀ e ∈ events, e.WellFormed) → writeRecords [] events = (.ok (), records) →
      writeRecord victim = .ok (torn ++ rest) → torn ≠ [] → rest ≠ [] →
      writer.log = some (kHeader ++ records ++ torn) → runSteps writer steps = .ok writer' →
      (∀ e ∈ appended steps, e.WellFormed) →
      getEvents none writer'.log = .ok (events ++ appended steps) := by
  intro h
  have hwell : ∀ e ∈ appended [LogStep.append (Mutation.clear (-1) : Mutation Bytes).toEvent],
      e.WellFormed := by
    intro e he
    obtain rfl := List.mem_singleton.mp he
    exact Mutation.wellFormed _
  have hread := h ⟨"radish", some (kHeader ++ [] ++ [9]), none⟩ _ [] (Mutation.clear (-1)).toEvent [] [9]
    [0, 0, 0, 3, 255, 255, 255, 255, 255, 255, 255, 255] [.append (Mutation.clear (-1)).toEvent]
    (by simp) rfl rfl (by simp) (by simp) rfl rfl hwell
  have hlost : getEvents none (some (kHeader ++ [] ++ [9] ++
      [9, 0, 0, 0, 3, 255, 255, 255, 255, 255, 255, 255, 255])) = .ok ([] : List (RadishEvent Bytes)) := by
    apply getEvents_eq_ok_iff.mpr
    refine ⟨by simp, _, Or.inr ⟨[9, 9, 0, 0], [0, 3, 255, 255, 255, 255, 255, 255, 255, 255], ?_⟩, rfl⟩
    decide
  have hboth := hlost.symm.trans hread
  cases hboth

end Radish.LogWriter
