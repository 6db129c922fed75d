import Radish.SessionOutput

/-!
# What reaches the client

A rule for what holds of a session after any completions, a failed write included: what every
executed command and every refusal preserve is preserved, and what has been sent is the front of
the replies.
-/

namespace Radish.Session
set_option autoImplicit false

open RespCodec

/-- After a failed write nothing is written any more, while the output only grows. -/
structure Delivering (session : Session) : Prop where
  silent : session.closeAfterWrite = true → session.reading = false
  sent : (session.writing = session.output.take 1 ∧
      session.sent ++ session.output.flatten = session.replies.flatten) ∨
    (session.writing = [] ∧ session.output ≠ [] ∧ session.sent <+: session.replies.flatten)

theorem Delivering.front {session : Session} (h : Delivering session) :
    session.sent <+: session.replies.flatten := by
  obtain ⟨-, hbytes⟩ | ⟨-, -, hfront⟩ := h.sent
  · exact ⟨_, hbytes⟩
  · exact hfront

theorem Delivering.queue {session : Session} (h : Delivering session)
    (hreading : session.reading = false) (response : Bytes) (close : Bool) :
    Delivering (session.queue response close) := by
  have hreplies : (session.queue response close).replies = session.replies ++ [response] := by
    rw [queue_toConversation]
  refine ⟨fun _ => by rw [queue_reading, hreading], ?_⟩
  rw [queue_output, queue_sent, hreplies]
  obtain ⟨hflight, hbytes⟩ | ⟨hwriting, houtput, hfront⟩ := h.sent
  · refine Or.inl ⟨?_, ?_⟩
    · rw [queue_writing hflight, queue_output]
    · rw [List.flatten_append, List.flatten_append, ← List.append_assoc, hbytes]
  · refine Or.inr ⟨?_, by simp, ?_⟩
    · unfold Session.queue
      dsimp only
      rw [if_neg houtput]
      exact hwriting
    · rw [List.flatten_append]
      exact hfront.trans (List.prefix_append _ _)

theorem Delivering.onWritten {session : Session} (h : Delivering session)
    (hwriting : session.writing ≠ []) : Delivering session.onWritten := by
  obtain ⟨hflight, hbytes⟩ | ⟨hnone, -, -⟩ := h.sent
  · cases houtput : session.output with
    | nil =>
      rw [houtput] at hflight
      exact absurd hflight hwriting
    | cons response later =>
      rw [houtput] at hflight hbytes
      have hsent : session.sent ++ session.writing.headD [] ++ later.flatten =
          session.replies.flatten := by
        rw [hflight, ← hbytes]
        simp
      rw [Session.onWritten]
      dsimp only
      rw [houtput, List.tail_cons]
      split
      · refine ⟨h.silent, Or.inl ⟨?_, hsent⟩⟩
        rw [write]
        dsimp only
        rw [hflight]
        rfl
      · rename_i hlater
        rw [not_not] at hlater
        subst hlater
        have hempty : session.writing.tail = [] := by rw [hflight]; rfl
        split
        · exact ⟨h.silent, Or.inl ⟨hempty, hsent⟩⟩
        · exact ⟨h.silent, Or.inl ⟨hempty, hsent⟩⟩
  · exact absurd hnone hwriting

/-- Part of the reply under way may have been sent. -/
theorem Delivering.writeFailed {session : Session} (h : Delivering session) (reached : Nat) :
    Delivering { session with
      writing := session.writing.tail
      sent := session.sent ++ (session.writing.headD []).take reached } := by
  refine ⟨h.silent, ?_⟩
  dsimp only
  obtain ⟨hflight, hbytes⟩ | ⟨hwriting, houtput, hfront⟩ := h.sent
  · cases houtput : session.output with
    | nil =>
      rw [houtput] at hflight hbytes
      refine Or.inl ⟨by rw [hflight]; rfl, ?_⟩
      rw [← hbytes, hflight]
      simp
    | cons response later =>
      rw [houtput] at hflight hbytes
      refine Or.inr ⟨by rw [hflight]; rfl, by simp, ?_⟩
      rw [← hbytes, hflight, List.flatten_cons]
      exact List.prefix_append_right_inj _ |>.mpr
        ((List.take_prefix reached response).trans (List.prefix_append _ _))
  · refine Or.inr ⟨by rw [hwriting]; rfl, houtput, ?_⟩
    rw [hwriting]
    simpa using hfront

/-! ## The input loop -/

section Loop
variable {env : Environment} {command : RespCommand}

theorem process_of_idle (session : Session)
    (h : session.input = [] ∨ session.closeAfterWrite = true) :
    session.process env = session := by
  rw [process, if_pos h]

theorem process_of_incomplete (session : Session) (h : parseCommand session.input = .incomplete) :
    session.process env = session := by
  rw [process]
  split
  · rfl
  · split <;> simp_all

theorem process_of_error (session : Session)
    (hgoes : ¬(session.input = [] ∨ session.closeAfterWrite = true)) {what : String}
    (h : parseCommand session.input = .error what) :
    session.process env = session.queue (RespCodec.error (ascii what)) true := by
  rw [process, if_neg hgoes]
  split <;> simp_all

theorem process_of_complete (session : Session)
    (hgoes : ¬(session.input = [] ∨ session.closeAfterWrite = true)) {consumed : Nat}
    (h : parseCommand session.input = .complete command consumed) :
    session.process env =
      match dispatch env command session.service with
      | (.error e, service) =>
        { session with
          input := session.input.drop consumed
          executed := session.executed ++ [command]
          service
          thrown := some e }
      | (.ok (response, close), service) =>
        process env ({ session with
          input := session.input.drop consumed
          executed := session.executed ++ [command]
          service }.queue response close) := by
  rw [process, if_neg hgoes]
  split
  · simp_all
  · simp_all
  · rename_i command' consumed' h'
    rw [h'] at h
    cases h
    rfl

/-- The input is one request. -/
theorem process_request {session : Session} {response : Bytes} {close : Bool} {service : Service}
    (hrequest : Request command session.input) (hopen : session.closeAfterWrite = false)
    (hdispatch : dispatch env command session.service = (.ok (response, close), service)) :
    session.process env =
      ({ session with input := [], executed := session.executed ++ [command], service }).queue
        response close := by
  have hgoes : ¬(session.input = [] ∨ session.closeAfterWrite = true) := by
    simp [hopen, hrequest.ne_nil]
  have hparse : parseCommand session.input = .complete command session.input.length := by
    have hparse := parseCommand_of_request hrequest []
    rwa [List.append_nil] at hparse
  rw [process_of_complete session hgoes hparse, hdispatch]
  dsimp only
  rw [List.drop_length]
  exact process_of_idle _ (Or.inl (queue_input _ _ _))

end Loop

/-! ## The rule -/

theorem bulkStrings_fit {values : List Bytes} {encoded : Bytes} (h : BulkStrings values encoded) :
    ∀ value ∈ values, value.length ≤ kMaxBulkLength := by
  induction h with
  | nil => simp
  | cons _ fits _ ih =>
    intro value hvalue
    obtain rfl | hlater := List.mem_cons.mp hvalue
    · exact fits
    · exact ih value hlater

/-- The parser returns only what a client could have meant to send. -/
theorem sendable_of_parse {input : Bytes} {command : RespCommand} {consumed : Nat}
    (h : parseCommand input = .complete command consumed) : Sendable command := by
  obtain ⟨encoded, rest, hrequest, -, -⟩ := request_of_parseCommand h
  cases hrequest with
  | array _ nonempty fits rest => exact ⟨nonempty, fits, bulkStrings_fit rest⟩

/-- What every command the parser returns and every refusal preserve, in an open conversation. No
command is executed after one that throws. -/
structure Preserved (env : Environment) (P : Conversation → Prop) : Prop where
  perform : ∀ c command, P c → c.thrown = none → c.closeAfterWrite = false → Sendable command →
    P (perform env c command)
  refuse : ∀ c what, P c → c.closeAfterWrite = false → P (refuse c what)

structure Keeps (P : Conversation → Prop) (session : Session) : Prop where
  delivering : Delivering session
  holds : P session.toConversation

section Completions
variable {env : Environment} {P : Conversation → Prop} {session : Session}

theorem Keeps.process (h : Keeps P session) (hP : Preserved env P)
    (hthrown : session.thrown = none) (hreading : session.reading = false) :
    Keeps P (session.process env) := by
  induction hn : session.input.length using Nat.strongRecOn generalizing session with
  | ind n ih =>
    subst hn
    rw [Session.process]
    split
    · exact h
    rename_i hgoes
    have hopen : session.closeAfterWrite = false :=
      Bool.eq_false_iff.mpr fun hclose => hgoes (Or.inr hclose)
    split
    · exact h
    · rename_i what hparse
      refine ⟨h.delivering.queue hreading _ _, ?_⟩
      rw [queue_refuse]
      exact hP.refuse _ what h.holds hopen
    · rename_i command consumed hparse
      have hperform := hP.perform _ command h.holds hthrown hopen (sendable_of_parse hparse)
      dsimp only
      split
      · rename_i e service hdispatch
        rw [perform_of_throws hdispatch] at hperform
        exact ⟨⟨h.delivering.silent, h.delivering.sent⟩, hperform⟩
      · rename_i response close service hdispatch
        have hshorter := length_drop_consumed hparse
        have hdelivering : Delivering { session with
            input := session.input.drop consumed
            executed := session.executed ++ [command]
            service } := ⟨h.delivering.silent, h.delivering.sent⟩
        refine ih _ hshorter ⟨hdelivering.queue hreading response close, ?_⟩ ?_ ?_
          (congrArg List.length (queue_input _ _ _))
        · rw [queue_perform hdispatch]
          exact hperform
        · rw [queue_thrown]
          exact hthrown
        · rw [queue_reading]
          exact hreading

theorem Keeps.onRead (h : Keeps P session) (hP : Preserved env P)
    (hthrown : session.thrown = none) (hopen : session.closeAfterWrite = false) (bytes : Bytes) :
    Keeps P (session.onRead env bytes) := by
  have hreceived : Keeps P (session.receive bytes) :=
    ⟨⟨fun _ => rfl, h.delivering.sent⟩, h.holds⟩
  rw [Session.onRead]
  dsimp only
  split
  · refine ⟨hreceived.delivering.queue rfl _ _, ?_⟩
    rw [queue_refuse]
    exact hP.refuse _ _ h.holds hopen
  · have hprocess := hreceived.process hP hthrown rfl
    split
    · exact hprocess
    · rename_i hgoes
      rw [not_or] at hgoes
      refine ⟨⟨?_, hprocess.delivering.sent⟩, hprocess.holds⟩
      exact fun hclose => absurd hclose hgoes.1

/-- One completion, whatever it is. -/
theorem Keeps.step (h : Keeps P session) (hP : Preserved env P) (completion : Completion) :
    Keeps P (session.step env completion) := by
  unfold Session.step
  split
  · exact h
  rename_i hgoes
  rw [not_not] at hgoes
  cases completion with
  | read bytes =>
    dsimp only
    split
    · rename_i hreading
      have hopen : session.closeAfterWrite = false := by
        refine Bool.eq_false_iff.mpr ?_
        intro hclose
        rw [h.delivering.silent hclose] at hreading
        cases hreading
      exact h.onRead hP hgoes hopen bytes
    · exact h
  | readFailed => exact ⟨⟨fun _ => rfl, h.delivering.sent⟩, h.holds⟩
  | written =>
    dsimp only
    split
    · exact h
    · rename_i hwriting
      refine ⟨h.delivering.onWritten hwriting, ?_⟩
      rw [(onWritten_toConversation session).1]
      exact h.holds
  | writeFailed reached => exact ⟨h.delivering.writeFailed reached, h.holds⟩

theorem Keeps.start {database : RadishDB Bytes}
    (hP : P (Session.start database).toConversation) : Keeps P (Session.start database) := by
  refine ⟨⟨?_, Or.inl ⟨rfl, rfl⟩⟩, hP⟩
  intro hclose
  cases hclose

end Completions

end Radish.Session
