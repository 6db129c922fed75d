import Radish.TcpServer
import Radish.Library.Consumer

/-!
# How a client's bytes are cut into reads

A session is a consumer of its input with a bounded buffer. Its writes leave the conversation
alone, so what it executes, answers and decides depends on the bytes only, as long as the buffer
has room for a whole read besides every command.
-/

namespace Radish.Session
set_option autoImplicit false

open Incremental RespCodec

section Conversation
variable (env : Environment) (conversation : Conversation)

def perform (command : RespCommand) : Conversation :=
  let executing := { conversation with executed := conversation.executed ++ [command] }
  match dispatch env command conversation.service with
  | (.error e, service) => { executing with service, thrown := some e }
  | (.ok (response, close), service) =>
    { executing with
      service
      replies := conversation.replies ++ [response]
      closeAfterWrite := conversation.closeAfterWrite || close }

def refuse (what : String) : Conversation :=
  { conversation with
    replies := conversation.replies ++ [RespCodec.error (ascii what)]
    closeAfterWrite := true }

/-- The session without its writes. -/
def consumer : Consumer UInt8 RespCommand String Conversation where
  decoder := commandDecoder
  limit := kMaxBufferedInput
  stopped conversation := conversation.closeAfterWrite || conversation.thrown.isSome
  perform := perform env
  reject := refuse
  overflow conversation := refuse conversation "Protocol error: input buffer limit exceeded"
  stopped_reject _ _ := rfl
  stopped_overflow _ := rfl

variable {env conversation}

theorem perform_of_throws {command : RespCommand} {e : Exception} {service : Service}
    (h : dispatch env command conversation.service = (.error e, service)) :
    perform env conversation command =
      { conversation with
        service, executed := conversation.executed ++ [command], thrown := some e } := by
  rw [perform, h]

theorem executed_perform (command : RespCommand) :
    (perform env conversation command).executed = conversation.executed ++ [command] := by
  unfold perform
  dsimp only
  split <;> rfl

end Conversation

section Simulation
variable (env : Environment) {session : Session}

theorem queue_refuse (session : Session) (what : String) :
    (session.queue (RespCodec.error (ascii what)) true).toConversation =
      refuse session.toConversation what := by
  rw [queue_toConversation, Bool.or_true]
  rfl

/-- What the loop does with a command that was answered. -/
theorem queue_perform {env : Environment} {session : Session} {command : RespCommand}
    {response : Bytes} {close : Bool} {service : Service}
    (h : dispatch env command session.service = (.ok (response, close), service)) (consumed : Nat) :
    (queue { session with
        input := session.input.drop consumed
        executed := session.executed ++ [command]
        service } response close).toConversation = perform env session.toConversation command := by
  rw [queue_toConversation, perform, h]

/-- The input loop performs the commands at the front of the input. -/
theorem process_eq_absorb (session : Session) (hthrown : session.thrown = none) :
    ((process env session).toConversation, (process env session).input) =
      (consumer env).absorb session.toConversation session.input := by
  induction hn : session.input.length using Nat.strongRecOn generalizing session with
  | ind n ih =>
    subst hn
    cases hclose : session.closeAfterWrite with
    | true =>
      have hstopped : (consumer env).stopped session.toConversation = true := by
        simp [consumer, hclose]
      rw [Consumer.absorb_of_stopped hstopped, process, if_pos (Or.inr hclose)]
    | false =>
      have hopen : (consumer env).stopped session.toConversation = false := by
        simp [consumer, hclose, hthrown]
      rw [process]
      split
      · rename_i hinput
        have hempty : session.input = [] := by simpa [hclose] using hinput
        rw [Consumer.absorb_incomplete (show commandStep session.input = .incomplete by
          rw [hempty]; rfl)]
      · split
        · rename_i hparse
          rw [Consumer.absorb_incomplete (commandStep_incomplete_iff.mpr hparse)]
        · rename_i what hparse
          rw [Consumer.absorb_failed hopen (commandStep_failed_iff.mpr hparse), queue_refuse,
            queue_input]
          rfl
        · rename_i command consumed hparse
          have hstep : (consumer env).decoder.step session.input =
              .complete command (session.input.drop consumed) := by
            simp [consumer, commandDecoder, commandStep, hparse]
          rw [Consumer.absorb_complete hopen hstep]
          dsimp only
          split
          · -- the exception leaves the loop, as it stops the consumer
            rename_i e service hdispatch
            have hperform := perform_of_throws hdispatch
            have hstopped : (consumer env).stopped
                ((consumer env).perform session.toConversation command) = true := by
              rw [show (consumer env).perform = perform env from rfl, hperform]
              exact Bool.or_true _
            rw [Consumer.absorb_of_stopped hstopped]
            exact congrArg (fun c => (c, session.input.drop consumed)) hperform.symm
          · rename_i response close service hdispatch
            have hperform := queue_perform hdispatch consumed
            have hshorter := length_drop_consumed hparse
            refine (ih _ hshorter _ ?_ (congrArg List.length (queue_input _ _ _))).trans ?_
            · rw [queue_thrown]
              exact hthrown
            · rw [hperform, queue_input]
              rfl

theorem process_reading (session : Session) : (process env session).reading = session.reading := by
  induction hn : session.input.length using Nat.strongRecOn generalizing session with
  | ind n ih =>
    subst hn
    rw [process]
    split
    · rfl
    · split
      · rfl
      · exact queue_reading _ _ _
      · rename_i command consumed hparse
        have hshorter := length_drop_consumed hparse
        dsimp only
        split
        · rfl
        · refine (ih _ hshorter _ (congrArg List.length (queue_input _ _ _))).trans ?_
          rw [queue_reading]

/-- While nothing was thrown, a read is under way exactly until the session is to be closed. -/
def Listening (session : Session) : Prop :=
  session.thrown = none → session.reading = !session.closeAfterWrite

theorem listening_start (database : RadishDB Bytes) : Listening (start database) := fun _ => rfl

/-- A finished read feeds the consumer. -/
theorem onRead_eq_feed (hthrown : session.thrown = none) (hclose : session.closeAfterWrite = false)
    (bytes : Bytes) :
    ((session.onRead env bytes).toConversation, (session.onRead env bytes).input) =
        (consumer env).feed (session.toConversation, session.input) bytes ∧
      Listening (session.onRead env bytes) := by
  have hopen : (consumer env).stopped session.toConversation = false := by
    simp [consumer, hclose, hthrown]
  have hfeed : (consumer env).feed (session.toConversation, session.input) bytes =
      if kMaxBufferedInput < (session.input ++ bytes).length then
        (refuse session.toConversation "Protocol error: input buffer limit exceeded",
          session.input ++ bytes)
      else (consumer env).absorb session.toConversation (session.input ++ bytes) := by
    rw [Consumer.feed, if_neg (by simp [hopen])]
    rfl
  rw [hfeed, onRead]
  dsimp only
  by_cases hlimit : kMaxBufferedInput < (session.input ++ bytes).length
  · rw [if_pos hlimit, if_pos (show (session.receive bytes).input.length > _ from hlimit),
      queue_refuse, queue_input]
    refine ⟨rfl, fun _ => ?_⟩
    rw [queue_reading, queue_toConversation, Bool.or_true]
    rfl
  · rw [if_neg hlimit, if_neg (show ¬(session.receive bytes).input.length > _ from hlimit)]
    have hprocess := process_eq_absorb env (session.receive bytes) hthrown
    have hreading := process_reading env (session.receive bytes)
    split
    · rename_i hstop
      refine ⟨hprocess, fun hthrown' => ?_⟩
      rcases hstop with hstop | hstop
      · rw [hstop]
        exact hreading
      · exact absurd hthrown' hstop
    · rename_i hstop
      rw [not_or] at hstop
      refine ⟨hprocess, fun _ => ?_⟩
      have hclose' : (process env (session.receive bytes)).closeAfterWrite = false := by
        simpa using hstop.1
      exact (congrArg Bool.not hclose').symm

/-- The bytes a session was given, read by read. -/
def received (completions : List Completion) : List Bytes :=
  completions.filterMap fun completion =>
    match completion with
    | .read bytes => some bytes
    | _ => none

theorem received_append (completions completions' : List Completion) :
    received (completions ++ completions') = received completions ++ received completions' :=
  List.filterMap_append

theorem received_map_read (chunks : List Bytes) : received (chunks.map .read) = chunks := by
  rw [received, List.filterMap_map]
  exact List.filterMap_some

theorem onWritten_toConversation (session : Session) :
    session.onWritten.toConversation = session.toConversation ∧
      session.onWritten.input = session.input ∧ session.onWritten.reading = session.reading := by
  unfold onWritten
  dsimp only
  split
  · exact ⟨rfl, rfl, rfl⟩
  · split <;> exact ⟨rfl, rfl, rfl⟩

/-- One completion feeds the consumer what it has read. -/
theorem step_eq_feed (hlistening : Listening session) {completion : Completion}
    (hopen : completion ≠ .readFailed) :
    ((session.step env completion).toConversation, (session.step env completion).input) =
        (consumer env).feedAll (session.toConversation, session.input) (received [completion]) ∧
      Listening (session.step env completion) := by
  by_cases hthrown : session.thrown = none
  · unfold step
    rw [if_neg (not_not.mpr hthrown)]
    cases completion with
    | read bytes =>
      cases hclose : session.closeAfterWrite with
      | true =>
        have hreading : session.reading = false := by
          rw [hlistening hthrown, hclose]
          rfl
        have hstopped : (consumer env).stopped session.toConversation = true := by
          simp [consumer, hclose]
        dsimp only
        rw [hreading, if_neg Bool.false_ne_true]
        exact ⟨(Consumer.feedAll_of_stopped hstopped _).symm, hlistening⟩
      | false =>
        have hreading : session.reading = true := by
          rw [hlistening hthrown, hclose]
          rfl
        dsimp only
        rw [hreading, if_pos rfl]
        exact onRead_eq_feed env hthrown hclose bytes
    | readFailed => exact absurd rfl hopen
    | written =>
      dsimp only
      split
      · exact ⟨rfl, hlistening⟩
      · rcases onWritten_toConversation session with ⟨hconversation, hinput, hreading⟩
        rw [hconversation, hinput]
        refine ⟨rfl, fun _ => ?_⟩
        rw [hconversation, hreading]
        exact hlistening hthrown
    | writeFailed reached => exact ⟨rfl, hlistening⟩
  · have hstopped : (consumer env).stopped session.toConversation = true := by
      rcases Option.ne_none_iff_exists'.mp hthrown with ⟨e, he⟩
      simp [consumer, he]
    unfold step
    rw [if_pos hthrown, Consumer.feedAll_of_stopped hstopped]
    exact ⟨rfl, hlistening⟩

/-- A run feeds the consumer what was read, whenever the writes were finished. -/
theorem run_eq_feedAll (hlistening : Listening session) {completions : List Completion}
    (hopen : .readFailed ∉ completions) :
    ((session.run env completions).toConversation, (session.run env completions).input) =
      (consumer env).feedAll (session.toConversation, session.input) (received completions) := by
  induction completions generalizing session with
  | nil => rfl
  | cons completion completions ih =>
    rw [List.mem_cons, not_or] at hopen
    rcases step_eq_feed env hlistening (Ne.symm hopen.1) with ⟨hstep, hlistening'⟩
    have hreceived : received (completion :: completions) =
        received [completion] ++ received completions := received_append [completion] completions
    rw [hreceived, Consumer.feedAll_append, ← hstep]
    exact ih hlistening' hopen.2

end Simulation

section Streams
variable {n : Nat} {stream : Bytes}

/-- Complete commands one after the other. -/
inductive Pipelined : Bytes → Prop where
  | nil : Pipelined []
  | cons {command : RespCommand} {encoded later : Bytes} (request : Request command encoded)
      (rest : Pipelined later) : Pipelined (encoded ++ later)

/-- Every complete command the stream holds is encoded in at most `n` bytes. -/
def CommandsFit (n : Nat) (stream : Bytes) : Prop :=
  ∀ front command encoded rest, Pipelined front → Request command encoded →
    stream = front ++ (encoded ++ rest) → encoded.length ≤ n

/-- Where the stream is malformed, the first `n` bytes show it. -/
def RejectionFits (n : Nat) (stream : Bytes) : Prop :=
  ∀ front rest what, Pipelined front → stream = front ++ rest → parseCommand rest = .error what →
    ∃ p q, rest = p ++ q ∧ p.length ≤ n ∧ parseCommand p = .error what

theorem commandsFit_of_length_le (h : stream.length ≤ n) : CommandsFit n stream := by
  rintro front command encoded rest - - rfl
  simp only [List.length_append] at h
  omega

theorem rejectionFits_of_length_le (h : stream.length ≤ n) : RejectionFits n stream := by
  rintro front rest what - rfl hwhat
  rw [List.length_append] at h
  exact ⟨rest, [], (List.append_nil rest).symm, by omega, hwhat⟩

/-- A stream that starts malformed holds no command. -/
theorem commandsFit_of_error {what : String} (h : parseCommand stream = .error what) :
    CommandsFit n stream := by
  intro front command encoded rest hfront hrequest hsplit
  cases hfront with
  | nil =>
    rw [hsplit, List.nil_append, parseCommand_of_request hrequest] at h
    cases h
  | cons request later =>
    rw [hsplit, List.append_assoc, parseCommand_of_request request] at h
    cases h

theorem within_of_fits (hcommands : CommandsFit n stream) (hrejection : RejectionFits n stream) :
    commandDecoder.Within n stream := by
  induction stream using commandDecoder.drain_induction with
  | complete s command rest hstep ih =>
    rcases commandStep_complete_iff.mp hstep with ⟨encoded, hrequest, rfl⟩
    have halone : commandDecoder.step encoded = .complete command [] :=
      commandStep_complete_iff.mpr ⟨encoded, hrequest, (List.append_nil encoded).symm⟩
    refine .complete halone (hcommands [] command encoded rest .nil hrequest rfl) (ih ?_ ?_)
    · rintro front command' encoded' rest' hfront hrequest' rfl
      exact hcommands (encoded ++ front) command' encoded' rest' (.cons hrequest hfront) hrequest'
        (List.append_assoc _ _ _).symm
    · rintro front rest' what hfront rfl hwhat
      exact hrejection (encoded ++ front) rest' what (.cons hrequest hfront)
        (List.append_assoc _ _ _).symm hwhat
  | incomplete s hstep => exact .incomplete hstep
  | failed s what hstep =>
    rcases hrejection [] s what .nil rfl (commandStep_failed_iff.mp hstep) with
      ⟨p, q, rfl, hp, hwhat⟩
    exact .failed (commandStep_failed_iff.mpr hwhat) hp

/-- Byte by byte, the last of `front ++ [last]` alone and then one byte more. -/
def apart (front : Bytes) (last : UInt8) : List Bytes :=
  (front.map fun b => [b]) ++ [[last], [byte '*']]

/-- Byte by byte, the last of `front ++ [last]` together with one byte more. -/
def together (front : Bytes) (last : UInt8) : List Bytes :=
  (front.map fun b => [b]) ++ [[last, byte '*']]

section FullBuffer
variable {env : Environment} {database : RadishDB Bytes} {front : Bytes} {last : UInt8}

theorem apart_flatten (front : Bytes) (last : UInt8) :
    (apart front last).flatten = front ++ [last] ++ [byte '*'] := by
  rw [apart, List.flatten_append, ← List.flatMap_def, List.flatMap_singleton']
  simp

theorem together_flatten (front : Bytes) (last : UInt8) :
    (together front last).flatten = front ++ [last] ++ [byte '*'] := by
  rw [together, List.flatten_append, ← List.flatMap_def, List.flatMap_singleton']
  simp

theorem length_of_mem_bytewise {chunks : List Bytes}
    (h : ∀ bytes ∈ chunks, 1 ≤ bytes.length ∧ bytes.length ≤ kReadBuffer) :
    ∀ bytes ∈ (front.map fun b => [b]) ++ chunks,
      1 ≤ bytes.length ∧ bytes.length ≤ kReadBuffer := by
  intro bytes hbytes
  rcases List.mem_append.mp hbytes with hbytes | hbytes
  · rcases List.mem_map.mp hbytes with ⟨b, -, rfl⟩
    exact ⟨Nat.le_refl 1, Nat.le_of_ble_eq_true rfl⟩
  · exact h bytes hbytes

theorem length_of_mem_apart :
    ∀ bytes ∈ apart front last, 1 ≤ bytes.length ∧ bytes.length ≤ kReadBuffer :=
  length_of_mem_bytewise (by simp [kReadBuffer])

theorem length_of_mem_together :
    ∀ bytes ∈ together front last, 1 ≤ bytes.length ∧ bytes.length ≤ kReadBuffer :=
  length_of_mem_bytewise (by simp [kReadBuffer])

theorem run_of_chunks (env : Environment) (database : RadishDB Bytes) (chunks : List Bytes) :
    ((start database).run env (chunks.map .read)).toConversation =
      ((consumer env).feedAll ((start database).toConversation, []) chunks).1 := by
  have hopen : Completion.readFailed ∉ chunks.map .read := by simp
  have hrun := congrArg Prod.fst (run_eq_feedAll env (listening_start database) hopen)
  rw [received_map_read] at hrun
  exact hrun

/-- Bytes that arrive one by one wait in the buffer. -/
theorem feedAll_of_waiting_front (hwait : parseCommand front = .incomplete)
    (hlength : front.length ≤ kMaxBufferedInput) :
    (consumer env).feedAll ((start database).toConversation, []) (front.map fun b => [b]) =
      ((start database).toConversation, front) := by
  have hflatten : [] ++ (front.map fun b => [b]).flatten = front := List.flatMap_singleton' front
  have hstep : commandDecoder.step front = .incomplete := commandStep_incomplete_iff.mpr hwait
  have hfeed : (consumer env).feedAll ((start database).toConversation, [])
      (front.map fun b => [b]) =
        ((start database).toConversation, [] ++ (front.map fun b => [b]).flatten) :=
    Consumer.feedAll_of_waiting rfl (hflatten.symm ▸ hstep) (hflatten.symm ▸ hlength)
  rw [hflatten] at hfeed
  exact hfeed

/-- The byte that fills the buffer is looked at if it arrives alone. -/
theorem run_of_apart (hwait : parseCommand front = .incomplete)
    (hlength : front.length + 1 = kMaxBufferedInput) :
    ((start database).run env ((apart front last).map .read)).toConversation =
      ((consumer env).feed ((consumer env).absorb (start database).toConversation
        (front ++ [last])) [byte '*']).1 := by
  have hfits : ¬(consumer env).limit < (front ++ [last]).length := by
    rw [List.length_append, List.length_singleton, hlength]
    exact Nat.lt_irrefl _
  rw [run_of_chunks, apart, Consumer.feedAll_append, feedAll_of_waiting_front hwait (by omega),
    Consumer.feedAll, List.foldl_cons, Consumer.feed, if_neg (by simp [consumer, start]),
    if_neg hfits]
  rfl

/-- It is not looked at if another byte comes with it. -/
theorem run_of_together (hwait : parseCommand front = .incomplete)
    (hlength : front.length + 1 = kMaxBufferedInput) :
    ((start database).run env ((together front last).map .read)).toConversation =
      refuse (start database).toConversation "Protocol error: input buffer limit exceeded" := by
  have hfull : (consumer env).limit < (front ++ [last, byte '*']).length := by
    rw [List.length_append, show (consumer env).limit = front.length + 1 from hlength.symm]
    exact Nat.lt_succ_self _
  rw [run_of_chunks, together, Consumer.feedAll_append, feedAll_of_waiting_front hwait (by omega),
    Consumer.feedAll, List.foldl_cons, Consumer.feed, if_neg (by simp [consumer, start]),
    if_pos hfull]
  rfl

/-- A header that fills the buffer and is malformed, and one byte more: it is refused for what it
is, or for its length. -/
theorem replies_of_full_buffer {what : String} (hwait : parseCommand front = .incomplete)
    (hwhat : parseCommand (front ++ [last]) = .error what)
    (hlength : front.length + 1 = kMaxBufferedInput) :
    ((start database).run env ((apart front last).map .read)).replies =
        [RespCodec.error (ascii what)] ∧
      ((start database).run env ((together front last).map .read)).replies =
        [RespCodec.error (ascii "Protocol error: input buffer limit exceeded")] := by
  have hstep : (consumer env).decoder.step (front ++ [last]) = .failed what :=
    commandStep_failed_iff.mpr hwhat
  have hstopped := (consumer env).stopped_reject (start database).toConversation what
  rw [run_of_apart hwait hlength, run_of_together hwait hlength, Consumer.absorb_failed rfl hstep,
    Consumer.feed, if_pos hstopped]
  exact ⟨rfl, rfl⟩

end FullBuffer

/-- A malformed header, up to its last byte. -/
def longHeader (n : Nat) : Bytes := byte '*' :: (List.replicate n (byte 'x') ++ [byte '\r'])

theorem not_numeral_replicate (n : Nat) :
    ¬∃ number, Numeral number (List.replicate n (byte 'x')) := by
  rintro ⟨number, hnumber⟩
  cases n with
  | zero => exact hnumber.ne_nil rfl
  | succ n =>
    rcases hnumber.eq_or_isDigit List.mem_cons_self with hx | hx <;> exact absurd hx (by decide)

theorem crlfIndex_replicate (n : Nat) :
    crlfIndex (List.replicate n (byte 'x') ++ [byte '\r']) = none := by
  induction n with
  | zero => rfl
  | succ n ih =>
    rw [List.replicate_succ, List.cons_append, crlfIndex_cons_of_ne (by decide), ih]
    rfl

theorem longHeader_waits (n : Nat) : parseCommand (longHeader n) = .incomplete := by
  have hnumber : parseNumber (longHeader n) 1 = .incomplete := by
    rw [parseNumber, find, longHeader, List.drop_succ_cons, List.drop_zero, crlfIndex_replicate]
    rfl
  rw [longHeader] at hnumber ⊢
  rw [parseCommand, if_neg (not_not.mpr rfl), hnumber]

theorem longHeader_refused (n : Nat) :
    parseCommand (longHeader n ++ [byte '\n']) =
      .error "Protocol error: invalid argument count" := by
  have hcr : byte '\r' ∉ List.replicate n (byte 'x') := by
    intro hmem
    exact absurd (List.eq_of_mem_replicate hmem) (by decide)
  have hsplit : longHeader n ++ [byte '\n'] =
      byte '*' :: (List.replicate n (byte 'x') ++ (crlf ++ [])) := by
    rw [longHeader, List.cons_append, List.append_assoc]
    rfl
  have hnumber : parseNumber (byte '*' :: (List.replicate n (byte 'x') ++ (crlf ++ []))) 1 = .error :=
    parseNumber_refused rfl (crlfIndex_append_crlf hcr []) (not_numeral_replicate n)
  rw [hsplit, parseCommand, if_neg (not_not.mpr rfl), hnumber]

/-- Nor is it enough that every command leaves room for a whole read, if the stream may be
malformed. -/
theorem late_rejection_shows :
    ¬ ∀ (env : Environment) (database : RadishDB Bytes) (chunks chunks' : List Bytes),
      (∀ bytes ∈ chunks, 1 ≤ bytes.length ∧ bytes.length ≤ kReadBuffer) →
      (∀ bytes ∈ chunks', 1 ≤ bytes.length ∧ bytes.length ≤ kReadBuffer) →
      chunks.flatten = chunks'.flatten →
      CommandsFit (kMaxBufferedInput + 1 - kReadBuffer) chunks.flatten →
      ((start database).run env (chunks.map .read)).replies =
        ((start database).run env (chunks'.map .read)).replies := by
  intro hclaim
  obtain ⟨n, hn⟩ : ∃ n, n + 3 = kMaxBufferedInput := ⟨kMaxBufferedInput - 3, by decide⟩
  have hlength : (longHeader n).length + 1 = kMaxBufferedInput := by
    rw [longHeader, List.length_cons, List.length_append, List.length_replicate,
      List.length_singleton]
    exact hn
  have hfit : CommandsFit (kMaxBufferedInput + 1 - kReadBuffer)
      (longHeader n ++ [byte '\n'] ++ [byte '*']) :=
    commandsFit_of_error (parseCommand_error_append (longHeader_refused n) [byte '*'])
  have hreplies := hclaim ⟨fun _ => 0, fun _ => none, fun _ => .listed⟩
    ⟨RadishStore.new (-1), none⟩ (apart (longHeader n) (byte '\n'))
    (together (longHeader n) (byte '\n')) length_of_mem_apart length_of_mem_together
    ((apart_flatten _ _).trans (together_flatten _ _).symm) ((apart_flatten _ _).symm ▸ hfit)
  rcases replies_of_full_buffer (longHeader_waits n) (longHeader_refused n) hlength with ⟨hone, htwo⟩
  rw [hone, htwo] at hreplies
  exact absurd hreplies (by decide)

end Streams

end Radish.Session
