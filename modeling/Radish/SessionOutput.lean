import Radish.Fragmentation
import Radish.Handlers

/-!
# The output of a session

The queue of replies, the write under way and the decision to close, over every order of
completions: what has been sent and what is queued are the replies to the commands executed.
-/

namespace Radish.Session
set_option autoImplicit false

open RespCodec

/-- What comes of dispatching commands one after the other: the service they leave, the results of
those that return, and the exception of the one that does not. -/
structure Execution where
  service : Service
  results : List CommandResult
  thrown : Option Exception

def Execution.dispatch (env : Environment) (execution : Execution) (command : RespCommand) :
    Execution :=
  match Session.dispatch env command execution.service with
  | (.ok result, service) =>
    { execution with service, results := execution.results ++ [result] }
  | (.error e, service) => { execution with service, thrown := some e }

def execute (env : Environment) (service : Service) (commands : List RespCommand) : Execution :=
  commands.foldl (Execution.dispatch env) ⟨service, [], none⟩

/-- The conversation is the execution of its commands, with at most one refusal at the end. It is
to be closed when it has refused or when it has executed `QUIT`. -/
structure Accounted (env : Environment) (origin : Service) (conversation : Conversation)
    (refusal : List Bytes) : Prop where
  leaves : conversation.service = (execute env origin conversation.executed).service
  throws : conversation.thrown = (execute env origin conversation.executed).thrown
  answers : conversation.replies =
    (execute env origin conversation.executed).results.map Prod.fst ++ refusal
  count : conversation.thrown = none →
    (execute env origin conversation.executed).results.length = conversation.executed.length
  last : refusal = [] ∨ ∃ what, refusal = [RespCodec.error (ascii what)]
  closes : conversation.closeAfterWrite = true ↔
    refusal ≠ [] ∨ ∃ command ∈ conversation.executed, Quits command
  final : ∀ front command back, conversation.executed = front ++ command :: back →
    Quits command → back = [] ∧ refusal = []

/-- The queue and the write under way: exactly one write while there is output, and all that was
queued is either sent or still there. Once it is decided to close, nothing is read; and it is
closed when nothing is left. -/
structure Sending (session : Session) : Prop where
  flight : session.writing = session.output.take 1
  bytes : session.sent ++ session.output.flatten = session.replies.flatten
  silent : session.closeAfterWrite = true → session.reading = false
  closed : session.isOpen = false → session.closeAfterWrite = true ∧ session.output = []

/-- What holds of a session between any two completions. -/
structure Invariant (env : Environment) (origin : Service) (session : Session) : Prop where
  sending : Sending session
  accounted : ∃ refusal, Accounted env origin session.toConversation refusal

section Accounting
variable {env : Environment} {origin : Service} {conversation : Conversation}
  {refusal : List Bytes} {command : RespCommand}

theorem execute_snoc (env : Environment) (service : Service) (commands : List RespCommand)
    (command : RespCommand) :
    execute env service (commands ++ [command]) =
      (execute env service commands).dispatch env command := by
  rw [execute, List.foldl_append]
  rfl

/-- `QUIT` returns. -/
theorem dispatch_of_quits (h : Quits command) (service : Service) :
    dispatch env command service = (.ok (simpleString (ascii "OK"), true), service) := by
  have hlookup : commandHandlers.lookup (uppercase (command.arguments.headD [])) =
      some handleQuit := by
    rw [h.uppercase_eq, lookup_quit]
  obtain ⟨name, hcommand, -⟩ := h
  rw [dispatch_of_lookup hlookup, handleQuit, hcommand]
  rfl

theorem Accounted.refusal_eq_nil (h : Accounted env origin conversation refusal)
    (hopen : conversation.closeAfterWrite = false) : refusal = [] := by
  by_contra hrefusal
  have hclosing := h.closes.mpr (Or.inl hrefusal)
  rw [hopen] at hclosing
  cases hclosing

theorem Accounted.not_quits (h : Accounted env origin conversation refusal)
    (hopen : conversation.closeAfterWrite = false) :
    ¬∃ command ∈ conversation.executed, Quits command := by
  intro hquit
  rw [h.closes.mpr (Or.inr hquit)] at hopen
  cases hopen

/-- If no command before the last is a `QUIT`, then a `QUIT` is the last. -/
theorem last_of_quits {commands front back : List RespCommand} {command c : RespCommand}
    (hquits : ¬∃ command ∈ commands, Quits command)
    (hsplit : commands ++ [command] = front ++ c :: back) (hquit : Quits c) : back = [] := by
  obtain hnil | ⟨back', last, hback⟩ := List.eq_nil_or_concat back
  · exact hnil
  · rw [hback, List.concat_eq_append, ← List.cons_append, ← List.append_assoc] at hsplit
    have hfront := (List.append_inj' hsplit rfl).1
    exact absurd ⟨c, by simp [hfront], hquit⟩ hquits

theorem exists_quits_snoc {commands : List RespCommand}
    (hquits : ¬∃ command ∈ commands, Quits command) (command : RespCommand) :
    (∃ c ∈ commands ++ [command], Quits c) ↔ Quits command := by
  simp only [List.mem_append, List.mem_singleton]
  constructor
  · intro hsome
    obtain ⟨c, hc | rfl, hquit⟩ := hsome
    · exact absurd ⟨c, hc, hquit⟩ hquits
    · exact hquit
  · exact fun hquit => ⟨command, Or.inr rfl, hquit⟩

/-- A command that throws is not a `QUIT`, and is not answered. -/
theorem Accounted.perform_throws (h : Accounted env origin conversation refusal)
    (hopen : conversation.closeAfterWrite = false) {e : Exception} {service : Service}
    (hdispatch : dispatch env command conversation.service = (.error e, service)) :
    Accounted env origin (perform env conversation command) [] := by
  obtain rfl := h.refusal_eq_nil hopen
  have hquits := h.not_quits hopen
  have hexecute : execute env origin (conversation.executed ++ [command]) =
      { execute env origin conversation.executed with service, thrown := some e } := by
    rw [execute_snoc, Execution.dispatch, ← h.leaves, hdispatch]
  have hnot : ¬Quits command := by
    intro hquit
    rw [dispatch_of_quits hquit] at hdispatch
    cases hdispatch
  rw [perform_of_throws hdispatch]
  constructor
  · rw [hexecute]
  · rw [hexecute]
  · rw [hexecute]
    exact h.answers
  · rintro ⟨⟩
  · exact Or.inl rfl
  · rw [hopen, exists_quits_snoc hquits]
    simp [hnot]
  · exact fun front c back hsplit hquit => ⟨last_of_quits hquits hsplit hquit, rfl⟩

/-- A command that returns is answered, and closes the conversation if it is a `QUIT`. -/
theorem Accounted.perform_returns (h : Accounted env origin conversation refusal)
    (hopen : conversation.closeAfterWrite = false) {response : Bytes} {close : Bool}
    {service : Service}
    (hdispatch : dispatch env command conversation.service = (.ok (response, close), service)) :
    Accounted env origin (perform env conversation command) [] := by
  obtain rfl := h.refusal_eq_nil hopen
  have hquits := h.not_quits hopen
  have hexecute : execute env origin (conversation.executed ++ [command]) =
      { execute env origin conversation.executed with
        service
        results := (execute env origin conversation.executed).results ++ [(response, close)] } := by
    rw [execute_snoc, Execution.dispatch, ← h.leaves, hdispatch]
  have hcloses := (dispatch_answers env command conversation.service _ _ hdispatch).1
  rw [Session.perform, hdispatch]
  constructor
  · rw [hexecute]
  · rw [hexecute]
    exact h.throws
  · rw [hexecute]
    dsimp only
    rw [h.answers]
    simp
  · intro hreturns
    rw [hexecute]
    simp [h.count hreturns]
  · exact Or.inl rfl
  · dsimp only
    rw [hopen, exists_quits_snoc hquits, Bool.false_or]
    simpa using hcloses
  · exact fun front c back hsplit hquit => ⟨last_of_quits hquits hsplit hquit, rfl⟩

/-- A command executed by an open conversation. -/
theorem Accounted.perform (h : Accounted env origin conversation refusal)
    (hopen : conversation.closeAfterWrite = false) (command : RespCommand) :
    Accounted env origin (perform env conversation command) [] := by
  rcases hdispatch : dispatch env command conversation.service with ⟨e | ⟨response, close⟩, service⟩
  · exact h.perform_throws hopen hdispatch
  · exact h.perform_returns hopen hdispatch

/-- A refusal by an open conversation. -/
theorem Accounted.refuse (h : Accounted env origin conversation refusal)
    (hopen : conversation.closeAfterWrite = false) (what : String) :
    Accounted env origin (refuse conversation what) [RespCodec.error (ascii what)] := by
  obtain rfl := h.refusal_eq_nil hopen
  constructor
  · exact h.leaves
  · exact h.throws
  · rw [Session.refuse]
    dsimp only
    rw [h.answers, List.append_nil]
  · exact h.count
  · exact Or.inr ⟨what, rfl⟩
  · exact iff_of_true rfl (Or.inl (List.cons_ne_nil _ _))
  · intro front command back hsplit hquit
    have hmem : command ∈ conversation.executed := by
      rw [show conversation.executed = _ from hsplit]
      simp
    exact absurd ⟨command, hmem, hquit⟩ (h.not_quits hopen)

end Accounting

section Queueing
variable {session : Session}

theorem queue_output (session : Session) (response : Bytes) (close : Bool) :
    (session.queue response close).output = session.output ++ [response] := by
  unfold queue
  dsimp only
  split <;> rfl

theorem queue_sent (session : Session) (response : Bytes) (close : Bool) :
    (session.queue response close).sent = session.sent := by
  unfold queue
  dsimp only
  split <;> rfl

theorem queue_isOpen (session : Session) (response : Bytes) (close : Bool) :
    (session.queue response close).isOpen = session.isOpen := by
  unfold queue
  dsimp only
  split <;> rfl

/-- A write is started exactly when none is under way. -/
theorem queue_writing (h : session.writing = session.output.take 1) (response : Bytes)
    (close : Bool) :
    (session.queue response close).writing = (session.queue response close).output.take 1 := by
  rw [queue_output]
  unfold queue
  dsimp only
  split
  · rename_i hempty
    rw [write]
    dsimp only
    rw [h, hempty]
    rfl
  · rename_i hbusy
    dsimp only
    rw [h, List.take_append_of_le_length (List.length_pos_iff.mpr hbusy)]

theorem Sending.queue (h : Sending session) (hopen : session.closeAfterWrite = false)
    (hreading : session.reading = false) (response : Bytes) (close : Bool) :
    Sending (session.queue response close) := by
  have hreplies : (session.queue response close).replies = session.replies ++ [response] := by
    rw [queue_toConversation]
  constructor
  · exact queue_writing h.flight response close
  · rw [queue_sent, queue_output, hreplies, List.flatten_append, List.flatten_append,
      ← List.append_assoc, h.bytes]
  · intro _
    rw [queue_reading]
    exact hreading
  · intro hclosed
    rw [queue_isOpen] at hclosed
    have hclosing := (h.closed hclosed).1
    rw [hopen] at hclosing
    cases hclosing

end Queueing

section Completions
variable {env : Environment} {origin : Service} {session : Session}

/-- The input loop, started when the read has finished. -/
theorem Invariant.process (h : Invariant env origin session) (hreading : session.reading = false) :
    Invariant env origin (session.process env) := by
  induction hn : session.input.length using Nat.strongRecOn generalizing session with
  | ind n ih =>
    subst hn
    rw [Session.process]
    split
    · exact h
    rename_i hgoes
    have hopen : session.closeAfterWrite = false :=
      Bool.eq_false_iff.mpr fun hclose => hgoes (Or.inr hclose)
    obtain ⟨refusal, haccounted⟩ := h.accounted
    split
    · exact h
    · rename_i what hparse
      refine ⟨h.sending.queue hopen hreading _ _, [RespCodec.error (ascii what)], ?_⟩
      rw [queue_refuse]
      exact haccounted.refuse hopen what
    · rename_i command consumed hparse
      have hperform := haccounted.perform hopen command
      dsimp only
      split
      · rename_i e service hdispatch
        rw [perform_of_throws hdispatch] at hperform
        exact ⟨⟨h.sending.flight, h.sending.bytes, h.sending.silent, h.sending.closed⟩, [], hperform⟩
      · rename_i response close service hdispatch
        have hshorter := length_drop_consumed hparse
        have hsending : Sending { session with
            input := session.input.drop consumed
            executed := session.executed ++ [command]
            service } :=
          ⟨h.sending.flight, h.sending.bytes, h.sending.silent, h.sending.closed⟩
        refine ih _ hshorter ⟨hsending.queue hopen hreading response close, [], ?_⟩ ?_
          (congrArg List.length (queue_input _ _ _))
        · rw [queue_perform hdispatch]
          exact hperform
        · rw [queue_reading]
          exact hreading

/-- A finished read. -/
theorem Invariant.onRead (h : Invariant env origin session)
    (hopen : session.closeAfterWrite = false) (bytes : Bytes) :
    Invariant env origin (session.onRead env bytes) := by
  have hreceived : Invariant env origin (session.receive bytes) :=
    ⟨⟨h.sending.flight, h.sending.bytes, fun _ => rfl, h.sending.closed⟩, h.accounted⟩
  rw [Session.onRead]
  dsimp only
  split
  · obtain ⟨refusal, haccounted⟩ := h.accounted
    refine ⟨hreceived.sending.queue hopen rfl _ _,
      [RespCodec.error (ascii "Protocol error: input buffer limit exceeded")], ?_⟩
    rw [queue_refuse]
    exact haccounted.refuse hopen _
  · have hprocess := hreceived.process rfl
    split
    · exact hprocess
    · rename_i hgoes
      rw [not_or] at hgoes
      refine ⟨⟨hprocess.sending.flight, hprocess.sending.bytes, ?_, hprocess.sending.closed⟩,
        hprocess.accounted⟩
      exact fun hclose => absurd hclose hgoes.1

/-- A finished write. -/
theorem Invariant.onWritten (h : Invariant env origin session) (hwriting : session.writing ≠ []) :
    Invariant env origin session.onWritten := by
  obtain ⟨sending, haccounted⟩ := h
  have hflight := sending.flight
  have hbytes := sending.bytes
  cases houtput : session.output with
  | nil =>
    rw [houtput] at hflight
    exact absurd hflight hwriting
  | cons response later =>
    rw [houtput] at hflight hbytes
    have hsent : session.sent ++ session.writing.headD [] ++ later.flatten =
        session.replies.flatten := by
      rw [hflight, ← hbytes]
      simp
    have hisOpen : session.isOpen = true := by
      by_contra hclosed
      have hempty := (sending.closed (Bool.eq_false_iff.mpr hclosed)).2
      rw [houtput] at hempty
      cases hempty
    rw [Session.onWritten]
    dsimp only
    rw [houtput, List.tail_cons]
    split
    · refine ⟨⟨?_, hsent, sending.silent, ?_⟩, haccounted⟩
      · rw [write]
        dsimp only
        rw [hflight]
        rfl
      · intro hclosed
        rw [hisOpen] at hclosed
        cases hclosed
    · rename_i hlater
      rw [not_not] at hlater
      subst hlater
      split
      · rename_i hclose
        exact ⟨⟨by rw [hflight]; rfl, hsent, sending.silent, fun _ => ⟨hclose, rfl⟩⟩, haccounted⟩
      · refine ⟨⟨by rw [hflight]; rfl, hsent, sending.silent, ?_⟩, haccounted⟩
        intro hclosed
        rw [hisOpen] at hclosed
        cases hclosed

/-- One completion, unless it is that of a write that failed. -/
theorem Invariant.step (h : Invariant env origin session) {completion : Completion}
    (hwrites : ∀ reached, completion ≠ .writeFailed reached) :
    Invariant env origin (session.step env completion) := by
  unfold Session.step
  split
  · exact h
  cases completion with
  | read bytes =>
    dsimp only
    split
    · rename_i hreading
      have hopen : session.closeAfterWrite = false := by
        apply Bool.eq_false_iff.mpr
        intro hclose
        rw [h.sending.silent hclose] at hreading
        cases hreading
      exact h.onRead hopen bytes
    · exact h
  | readFailed =>
    exact ⟨⟨h.sending.flight, h.sending.bytes, fun _ => rfl, h.sending.closed⟩, h.accounted⟩
  | written =>
    dsimp only
    split
    · exact h
    · rename_i hwriting
      exact h.onWritten hwriting
  | writeFailed reached => exact absurd rfl (hwrites reached)

theorem Invariant.run (h : Invariant env origin session) {completions : List Completion}
    (hwrites : ∀ reached, .writeFailed reached ∉ completions) :
    Invariant env origin (session.run env completions) := by
  induction completions generalizing session with
  | nil => exact h
  | cons completion completions ih =>
    apply ih
    · exact h.step fun reached hfailed => hwrites reached (by simp [hfailed])
    · exact fun reached hmem => hwrites reached (List.mem_cons_of_mem _ hmem)

theorem invariant_start (env : Environment) (database : RadishDB Bytes) :
    Invariant env ⟨.resp2, database, 0⟩ (start database) := by
  constructor
  · constructor
    · rfl
    · rfl
    · rintro ⟨⟩
    · rintro ⟨⟩
  · refine ⟨[], rfl, rfl, rfl, fun _ => rfl, Or.inl rfl, ?_, ?_⟩
    · simp [start]
    · intro front command back hsplit
      exact absurd hsplit.symm (by simp [start])

/-- Once it is decided to close, the conversation is over and nothing is read. -/
theorem run_of_closing (hclose : session.closeAfterWrite = true) (hreading : session.reading = false)
    (completions : List Completion) :
    (session.run env completions).toConversation = session.toConversation ∧
      (session.run env completions).reading = false := by
  induction completions generalizing session with
  | nil => exact ⟨rfl, hreading⟩
  | cons completion completions ih =>
    have hstep : (session.step env completion).toConversation = session.toConversation ∧
        (session.step env completion).reading = false := by
      unfold Session.step
      split
      · exact ⟨rfl, hreading⟩
      cases completion with
      | read bytes =>
        dsimp only
        rw [hreading, if_neg Bool.false_ne_true]
        exact ⟨rfl, hreading⟩
      | readFailed => exact ⟨rfl, rfl⟩
      | written =>
        dsimp only
        split
        · exact ⟨rfl, hreading⟩
        · obtain ⟨hconversation, -, hreading'⟩ := onWritten_toConversation session
          exact ⟨hconversation, hreading'.trans hreading⟩
      | writeFailed reached => exact ⟨rfl, hreading⟩
    obtain ⟨hconversation, hreading'⟩ := hstep
    have hclose' : (session.step env completion).closeAfterWrite = true := by
      rw [hconversation]
      exact hclose
    obtain ⟨hrun, hrunReading⟩ := ih hclose' hreading'
    exact ⟨hrun.trans hconversation, hrunReading⟩

end Completions

/-- The output of a session, after any completions but that of a failed write: exactly one write
is under way while there is output, sent and queued bytes are one reply for each command executed
and at most one refusal at the end, nothing is executed or read after a closing reply, and the
socket is closed only when everything has been sent. -/
theorem session_output (env : Environment) (database : RadishDB Bytes)
    (completions : List Completion) (hwrites : ∀ reached, .writeFailed reached ∉ completions) :
    let session := (start database).run env completions
    let results := (execute env ⟨.resp2, database, 0⟩ session.executed).results
    session.writing = session.output.take 1 ∧
      (∃ refusal, (refusal = [] ∨ ∃ what, refusal = [RespCodec.error (ascii what)]) ∧
        session.sent ++ session.output.flatten = (results.map Prod.fst ++ refusal).flatten ∧
        (session.thrown = none → results.length = session.executed.length) ∧
        (session.closeAfterWrite = true ↔
          refusal ≠ [] ∨ ∃ command ∈ session.executed, Quits command) ∧
        (∀ front command back, session.executed = front ++ command :: back → Quits command →
          back = [] ∧ refusal = []) ∧
        (session.isOpen = false → session.closeAfterWrite = true ∧ session.output = [] ∧
          session.sent = (results.map Prod.fst ++ refusal).flatten)) ∧
      ∀ before after, completions = before ++ after →
        ((start database).run env before).closeAfterWrite = true →
        session.executed = ((start database).run env before).executed ∧
          session.replies = ((start database).run env before).replies ∧
          session.reading = false := by
  have hinvariant := (invariant_start env database).run hwrites
  obtain ⟨hsending, refusal, haccounted⟩ := hinvariant
  have hbytes := hsending.bytes
  rw [haccounted.answers] at hbytes
  refine ⟨hsending.flight, ⟨refusal, haccounted.last, hbytes, haccounted.count,
    haccounted.closes, haccounted.final, ?_⟩, ?_⟩
  · intro hclosed
    obtain ⟨hclose, hempty⟩ := hsending.closed hclosed
    refine ⟨hclose, hempty, ?_⟩
    rw [hempty, List.flatten_nil, List.append_nil] at hbytes
    exact hbytes
  · rintro before after rfl hclose
    have hbefore := (invariant_start env database).run fun reached hmem =>
      hwrites reached (List.mem_append_left after hmem)
    obtain ⟨hconversation, hreading⟩ :
        (((start database).run env before).run env after).toConversation =
            ((start database).run env before).toConversation ∧
          (((start database).run env before).run env after).reading = false :=
      run_of_closing hclose (hbefore.sending.silent hclose) after
    have hrun : (start database).run env (before ++ after) =
        ((start database).run env before).run env after := List.foldl_append
    rw [hrun, hconversation]
    exact ⟨rfl, rfl, hreading⟩

/-- A session that is asked to quit. -/
theorem session_output_quit :
    ((start ⟨RadishStore.new (-1), none⟩).run ⟨fun _ => 0, fun _ => none, fun _ => .listed⟩
        [.read (ascii "*1\r\n$4\r\nQUIT\r\n"), .written]).writing =
      ((start ⟨RadishStore.new (-1), none⟩).run ⟨fun _ => 0, fun _ => none, fun _ => .listed⟩
        [.read (ascii "*1\r\n$4\r\nQUIT\r\n"), .written]).output.take 1 :=
  (session_output ⟨fun _ => 0, fun _ => none, fun _ => .listed⟩ ⟨RadishStore.new (-1), none⟩
    [.read (ascii "*1\r\n$4\r\nQUIT\r\n"), .written] (by simp)).1

end Radish.Session
