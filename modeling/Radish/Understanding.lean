import Radish.ClientStreams
import Radish.Robustness

/-!
# What a session makes of its client's bytes

Which commands a session executes, and whether it is to be closed, is told by the grammar of
requests from the bytes that its client has sent. Neither the way they were cut into reads, nor the
other clients, nor the database have a part in it.
-/

namespace Radish
set_option autoImplicit false

open Incremental RespCodec

namespace Session

instance (command : RespCommand) : Decidable (Quits command) :=
  match h : command.arguments with
  | [name] =>
    if hname : uppercase name = ascii "QUIT" then isTrue ⟨name, h, hname⟩
    else isFalse fun ⟨name', h', hname'⟩ => by
      rw [h, List.singleton_inj] at h'
      exact hname (h' ▸ hname')
  | [] => isFalse fun ⟨_, h', _⟩ => by cases h.symm.trans h'
  | _ :: _ :: _ => isFalse fun ⟨_, h', _⟩ => by cases h.symm.trans h'

/-- The commands that the bytes of a client ask for, and whether the session ends with them: by a
`QUIT`, by bytes that are no request, or by more of a request than the buffer has room for. -/
inductive Understood : Bytes → List RespCommand → Bool → Prop where
  | waits {stream : Bytes} (part : parseCommand stream = .incomplete)
      (fits : stream.length ≤ kMaxBufferedInput) : Understood stream [] false
  | overfull {stream : Bytes} (part : parseCommand stream = .incomplete)
      (long : kMaxBufferedInput < stream.length) : Understood stream [] true
  | malformed {stream : Bytes} {what : String} (refused : parseCommand stream = .error what) :
      Understood stream [] true
  | quits {command : RespCommand} {encoded rest : Bytes} (request : Request command encoded)
      (last : Quits command) : Understood (encoded ++ rest) [command] true
  | goes {command : RespCommand} {encoded rest : Bytes} {commands : List RespCommand}
      {closing : Bool} (request : Request command encoded) (goesOn : ¬Quits command)
      (later : Understood rest commands closing) :
      Understood (encoded ++ rest) (command :: commands) closing

/-- What can be told of a conversation without the database. -/
structure Understanding where
  commands : List RespCommand
  closing : Bool

/-- A session that only parses. -/
def understanding : Consumer UInt8 RespCommand String Understanding where
  decoder := commandDecoder
  limit := kMaxBufferedInput
  stopped := Understanding.closing
  perform u command := ⟨u.commands ++ [command], u.closing || decide (Quits command)⟩
  reject u _ := { u with closing := true }
  overflow u := { u with closing := true }
  stopped_reject _ _ := rfl
  stopped_overflow _ := rfl

def understood (conversation : Conversation) : Understanding :=
  ⟨conversation.executed, conversation.closeAfterWrite⟩

/-- But for an exception, a conversation executes what its parser takes off the input. -/
theorem understanding_projection (env : Environment) :
    Consumer.Projection (consumer env) understanding understood fun c => c.thrown ≠ none where
  decoder := rfl
  limit := rfl
  lost_stopped c hlost := by
    obtain ⟨e, he⟩ := Option.ne_none_iff_exists'.mp hlost
    simp [consumer, he]
  stopped c hkept := by
    rw [not_not] at hkept
    simp [consumer, understanding, understood, hkept]
  perform c command hkept hopen := by
    obtain hthrows | ⟨-, hcloses⟩ := perform_cases env c command
    · left
      intro hnone
      rw [show (consumer env).perform c command = perform env c command from rfl] at hnone
      rw [hnone] at hthrows
      cases hthrows
    · right
      have hclosing : (c.closeAfterWrite || decide (Quits command)) =
          (perform env c command).closeAfterWrite := by
        rw [Bool.eq_iff_iff, hcloses, Bool.or_eq_true, decide_eq_true_eq]
      have hexecuted : c.executed ++ [command] = (perform env c command).executed :=
        (executed_perform command).symm
      change Understanding.mk (c.executed ++ [command]) (c.closeAfterWrite || decide (Quits command)) =
        ⟨(perform env c command).executed, (perform env c command).closeAfterWrite⟩
      rw [hclosing, hexecuted]
  reject _ _ _ := rfl
  overflow _ _ := rfl

/-- What the parser takes off a whole stream is what the grammar finds in it. -/
theorem understood_of_outcome (stream : Bytes) {u : Understanding} (hopen : u.closing = false) :
    ∃ commands closing, Understood stream commands closing ∧
      understanding.outcome u stream = ⟨u.commands ++ commands, closing⟩ := by
  induction stream using commandDecoder.drain_induction generalizing u with
  | complete stream command rest hstep ih =>
    obtain ⟨encoded, hrequest, rfl⟩ := commandStep_complete_iff.mp hstep
    rw [Consumer.outcome_complete hopen hstep]
    by_cases hquit : Quits command
    · refine ⟨[command], true, .quits hrequest hquit, ?_⟩
      have hclosing : understanding.stopped (understanding.perform u command) = true := by
        simp [understanding, hquit]
      rw [Consumer.outcome_of_stopped hclosing]
      simp [understanding, hquit]
    · have hgoes : (understanding.perform u command).closing = false := by
        simp [understanding, hopen, hquit]
      obtain ⟨commands, closing, hlater, houtcome⟩ := ih hgoes
      refine ⟨command :: commands, closing, .goes hrequest hquit hlater, ?_⟩
      rw [houtcome]
      simp [understanding]
  | incomplete stream hstep =>
    have hpart := commandStep_incomplete_iff.mp hstep
    rw [Consumer.outcome_incomplete hopen hstep]
    obtain hlong | hfits := Nat.lt_or_ge kMaxBufferedInput stream.length
    · refine ⟨[], true, .overfull hpart hlong, ?_⟩
      rw [show understanding.limit = kMaxBufferedInput from rfl, if_pos hlong, List.append_nil]
      rfl
    · refine ⟨[], false, .waits hpart hfits, ?_⟩
      rw [show understanding.limit = kMaxBufferedInput from rfl, if_neg (Nat.not_lt.mpr hfits),
        List.append_nil, ← hopen]
  | failed stream what hstep =>
    refine ⟨[], true, .malformed (commandStep_failed_iff.mp hstep), ?_⟩
    rw [Consumer.outcome_failed hopen hstep, List.append_nil]
    rfl

theorem preserved_trivially (env : Environment) : Preserved env fun _ => True :=
  ⟨fun _ _ _ _ _ _ => trivial, fun _ _ _ _ => trivial⟩

end Session

namespace TcpServer

/-- A session has taken in what it was handed as a session that only parses would have. -/
structure Parsed (reads : List Bytes) (session : Session) : Prop where
  delivering : session.Delivering
  same : session.thrown = none →
    Session.understanding.feedAll (⟨[], false⟩, []) reads =
      (Session.understood session.toConversation, session.input)

theorem follows_parsed (env : Environment) : Follows env Parsed where
  start database := ⟨⟨fun hclose => (by cases hclose), Or.inl ⟨rfl, rfl⟩⟩, fun _ => rfl⟩
  attach reads session database calls h :=
    ⟨⟨h.delivering.silent, h.delivering.sent⟩, h.same⟩
  read := by
    intro reads session bytes h hhears
    obtain ⟨hthrown, hreading⟩ : session.thrown = none ∧ session.reading = true := by
      simpa [Session.hears] using hhears
    have hopen : session.closeAfterWrite = false := by
      refine Bool.eq_false_iff.mpr ?_
      intro hclose
      rw [h.delivering.silent hclose] at hreading
      cases hreading
    have hkeeps : Session.Keeps (fun _ => True) session := ⟨h.delivering, trivial⟩
    refine ⟨(hkeeps.onRead (Session.preserved_trivially env) hthrown hopen bytes).delivering, ?_⟩
    intro hreturns
    obtain ⟨hfeed, -⟩ := Session.onRead_eq_feed env hthrown hopen bytes
    have hconversation := congrArg Prod.fst hfeed
    have hinput := congrArg Prod.snd hfeed
    dsimp only at hconversation hinput
    rw [Consumer.feedAll_append, h.same hthrown, hconversation, hinput]
    obtain hlost | hsame :=
      (Session.understanding_projection env).feed (not_not.mpr hthrown) session.input bytes
    · rw [← hconversation] at hlost
      exact absurd hreturns hlost
    · exact hsame
  other := by
    intro reads session completion h hother hthrown
    have hkeeps : Session.Keeps (fun _ => True) session := ⟨h.delivering, trivial⟩
    refine ⟨(hkeeps.step (Session.preserved_trivially env) completion).delivering, ?_⟩
    intro _
    rw [h.same hthrown]
    unfold Session.step
    rw [if_neg (not_not.mpr hthrown)]
    cases completion with
    | read bytes => exact absurd rfl (hother bytes)
    | readFailed => rfl
    | written =>
      dsimp only
      split
      · rfl
      · obtain ⟨hconversation, hinput, -⟩ := Session.onWritten_toConversation session
        rw [hconversation, hinput]
    | writeFailed reached => rfl

section Streams
variable {env : Environment} {database : RadishDB Bytes} {happenings : List Happening} {i : Nat}
  {session : Session}

theorem understood_of_within
    (h : ((start database).run env happenings).sessions[i]? = some session)
    (hthrown : ((start database).run env happenings).thrown = none)
    (hreads : ∀ bytes ∈ deliveries env i (start database) happenings,
      bytes.length ≤ Session.kReadBuffer)
    (hwithin : commandDecoder.Within (kMaxBufferedInput + 1 - Session.kReadBuffer)
      (deliveries env i (start database) happenings).flatten) :
    Session.Understood (deliveries env i (start database) happenings).flatten session.executed
      session.closeAfterWrite := by
  obtain ⟨history, hserial⟩ := (serial_start env database).run happenings
  have hquiet := hserial.quiet hthrown session (List.mem_of_getElem? h)
  have hparsed := ((follows_parsed env).holds database happenings h).same hquiet
  have hspare : kMaxBufferedInput + 1 - Session.kReadBuffer + Session.kReadBuffer ≤
      Session.understanding.limit + 1 := Nat.le_refl (kMaxBufferedInput + 1)
  have hnew : Session.Understanding.closing ⟨[], false⟩ = false := rfl
  obtain ⟨commands, closing, hunderstood, hstream⟩ := Session.understood_of_outcome
    (deliveries env i (start database) happenings).flatten hnew
  have houtcome : (Session.understanding.feedAll (⟨[], false⟩, [])
        (deliveries env i (start database) happenings)).1 =
      Session.understanding.outcome ⟨[], false⟩
        (deliveries env i (start database) happenings).flatten :=
    Consumer.feedAll_eq_outcome hspare rfl (Nat.zero_le _) hreads hwithin
  rw [hparsed, hstream, List.nil_append] at houtcome
  obtain ⟨hexecuted, hclosing⟩ := Session.Understanding.mk.inj houtcome
  rw [hexecuted, hclosing]
  exact hunderstood

/-- As long as no handler has thrown, every session of a server has executed exactly the commands
that the grammar finds in the bytes it was handed, up to a `QUIT` or the first byte that is wrong,
and is to be closed exactly then: however the reads of all sessions cut and interleave their
streams, and whatever the database holds. The commands have to leave room for a read. -/
theorem session_understands
    (h : ((start database).run env happenings).sessions[i]? = some session)
    (hthrown : ((start database).run env happenings).thrown = none)
    (hreads : ∀ bytes ∈ deliveries env i (start database) happenings,
      bytes.length ≤ Session.kReadBuffer)
    (hcommands : Session.CommandsFit (kMaxBufferedInput + 1 - Session.kReadBuffer)
      (deliveries env i (start database) happenings).flatten)
    (hrejection : Session.RejectionFits (kMaxBufferedInput + 1 - Session.kReadBuffer)
      (deliveries env i (start database) happenings).flatten) :
    Session.Understood (deliveries env i (start database) happenings).flatten session.executed
      session.closeAfterWrite :=
  understood_of_within h hthrown hreads (Session.within_of_fits hcommands hrejection)

end Streams

/-- A session that has been sent a `PING`. -/
def pingedSession : Session :=
  (Session.start ⟨RadishStore.new (-1), none⟩).step Session.quiet
    (.read (ascii "*1\r\n$4\r\nPING\r\n"))

theorem session_understands_pingedSession :
    Session.Understood (ascii "*1\r\n$4\r\nPING\r\n") pingedSession.executed
      pingedSession.closeAfterWrite := by
  have hsound : (⟨RadishStore.new (-1), none⟩ : RadishDB Bytes).Sound := Or.inl rfl
  have hsession : ((start ⟨RadishStore.new (-1), none⟩).run Session.quiet
      [.accepted, .completed 0 (.read (ascii "*1\r\n$4\r\nPING\r\n"))]).sessions[0]? =
        some pingedSession := rfl
  have hdeliveries : deliveries Session.quiet 0 (start ⟨RadishStore.new (-1), none⟩)
      [.accepted, .completed 0 (.read (ascii "*1\r\n$4\r\nPING\r\n"))] =
        [ascii "*1\r\n$4\r\nPING\r\n"] := rfl
  have hunderstood := session_understands hsession
    (run_quiet (fun _ => rfl) lasts_sound hsound _).1
    (by rw [hdeliveries]; decide)
    (by rw [hdeliveries]; exact Session.commandsFit_of_length_le (by decide))
    (by rw [hdeliveries]; exact Session.rejectionFits_of_length_le (by decide))
  exact hunderstood

end TcpServer

end Radish
