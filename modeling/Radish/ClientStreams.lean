import Radish.Pipeline
import Radish.Server

/-!
# What a server hears from its clients

The bytes that have been handed to each session, in whatever way reads, sessions and failures
interleave. What a session makes of them depends on nothing else, and the memory that it keeps of
them is bounded.
-/

namespace Radish
set_option autoImplicit false

open Incremental RespCodec

/-- Whether a finished read is handled. -/
def Session.hears (session : Session) : Bool := session.thrown.isNone && session.reading

namespace TcpServer

/-- What is handed to session `i`. -/
def delivered (server : TcpServer) (i : Nat) : Happening → List Bytes
  | .completed j (.read bytes) =>
    if server.running = true ∧ server.thrown = none ∧ j = i ∧
        (server.sessions[i]?).any Session.hears = true then [bytes]
    else []
  | _ => []

/-- What is handed to session `i` in a run, read by read. -/
def deliveries (env : Environment) (i : Nat) : TcpServer → List Happening → List Bytes
  | _, [] => []
  | server, happening :: happenings =>
    server.delivered i happening ++ deliveries env i (server.step env happening) happenings

/-- What relates a session to the reads it was handed: `R` holds of a new session, and is preserved
by each handler and by what the other sessions do to the database. -/
structure Follows (env : Environment) (R : List Bytes → Session → Prop) : Prop where
  start : ∀ database, R [] (Session.start database)
  attach : ∀ reads session database calls, R reads session →
    R reads { session with service := { session.service with database, calls } }
  read : ∀ reads session bytes, R reads session → session.hears = true →
    R (reads ++ [bytes]) (session.onRead env bytes)
  other : ∀ reads session completion, R reads session → (∀ bytes, completion ≠ .read bytes) →
    session.thrown = none → R reads (session.step env completion)

/-- Session `i` has been handed `reads`, if it is there. -/
structure Hears (R : List Bytes → Session → Prop) (i : Nat) (reads : List Bytes)
    (server : TcpServer) : Prop where
  heard : ∀ session, server.sessions[i]? = some session → R reads session
  unborn : server.sessions[i]? = none → reads = []

section Rule
variable {env : Environment} {R : List Bytes → Session → Prop} {i : Nat} {reads : List Bytes}
  {server : TcpServer}

theorem Follows.step (hR : Follows env R) {session : Session} (h : R reads session)
    (completion : Completion) :
    R (reads ++ match completion with
      | .read bytes => if session.hears = true then [bytes] else []
      | _ => []) (session.step env completion) := by
  unfold Session.step
  by_cases hthrown : session.thrown = none
  · rw [if_neg (not_not.mpr hthrown)]
    have hother := hR.other reads session completion h
    unfold Session.step at hother
    rw [if_neg (not_not.mpr hthrown)] at hother
    cases completion with
    | read bytes =>
      have hhears : session.hears = session.reading := by simp [Session.hears, hthrown]
      dsimp only
      rw [hhears]
      split
      · rename_i hreading
        exact hR.read reads session bytes h (hhears.trans hreading)
      · rwa [List.append_nil]
    | _ =>
      rw [List.append_nil]
      exact hother (by simp) hthrown
  · have hdeaf : session.hears = false := by simp [Session.hears, hthrown]
    rw [if_pos hthrown, hdeaf]
    cases completion <;> simpa using h

theorem delivered_eq_nil {happening : Happening}
    (h : server.running = true → server.thrown = none → ∀ bytes,
      happening = .completed i (.read bytes) → server.sessions[i]? = none) :
    server.delivered i happening = [] := by
  unfold delivered
  split
  · rename_i j bytes
    rw [if_neg]
    intro hhandled
    obtain ⟨hrunning, hthrown, rfl, hhears⟩ := hhandled
    rw [h hrunning hthrown bytes rfl] at hhears
    cases hhears
  · rfl

theorem Hears.completion (h : Hears R i reads server) (hR : Follows env R)
    (hrunning : server.running = true) (hthrown : server.thrown = none) (j : Nat)
    (completion : Completion) :
    Hears R i (reads ++ server.delivered i (.completed j completion))
      (server.onCompletion env j completion) := by
  unfold onCompletion
  cases hsession : server.sessions[j]? with
  | none =>
    have hsilent : server.delivered i (.completed j completion) = [] := by
      refine delivered_eq_nil fun _ _ bytes hread => ?_
      obtain ⟨rfl, -⟩ := Happening.completed.inj hread
      exact hsession
    rw [hsilent, List.append_nil]
    exact h
  | some session =>
    have hj : j < server.sessions.length := (List.getElem?_eq_some_iff.mp hsession).1
    by_cases hi : j = i
    · subst hi
      have hstep := hR.step (hR.attach _ _ server.database server.calls (h.heard session hsession))
        completion
      constructor
      · intro session' hsession'
        rw [List.getElem?_set_self hj] at hsession'
        obtain rfl := Option.some.inj hsession'
        cases completion with
        | read bytes =>
          rw [delivered, hsession]
          simpa [hrunning, hthrown, Session.hears, attach] using hstep
        | _ => exact hstep
      · intro hnone
        rw [List.getElem?_set_self hj] at hnone
        cases hnone
    · have hsilent : server.delivered i (.completed j completion) = [] := by
        refine delivered_eq_nil fun _ _ bytes hread => ?_
        exact absurd (Happening.completed.inj hread).1 hi
      rw [hsilent, List.append_nil]
      constructor
      · intro session' hsession'
        rw [List.getElem?_set_ne hi] at hsession'
        exact h.heard session' hsession'
      · intro hnone
        rw [List.getElem?_set_ne hi] at hnone
        exact h.unborn hnone

theorem Hears.join (h : Hears R i reads server) (hR : Follows env R) {server' : TcpServer}
    (hsessions : server'.sessions = server.sessions ++ [Session.start server.database]) :
    Hears R i reads server' := by
  obtain hi | hi := Nat.lt_or_ge i server.sessions.length
  · have hsame : server'.sessions[i]? = server.sessions[i]? := by
      rw [hsessions, List.getElem?_append_left hi]
    exact ⟨hsame ▸ h.heard, hsame ▸ h.unborn⟩
  · obtain rfl := h.unborn (List.getElem?_eq_none hi)
    refine ⟨?_, fun _ => rfl⟩
    intro session hsession
    rw [hsessions, List.getElem?_append_right hi, List.getElem?_singleton] at hsession
    split at hsession
    · obtain rfl := Option.some.inj hsession
      exact hR.start server.database
    · cases hsession

theorem Hears.step (h : Hears R i reads server) (hR : Follows env R) (happening : Happening) :
    Hears R i (reads ++ server.delivered i happening) (server.step env happening) := by
  unfold TcpServer.step
  split
  · rename_i hstopped
    have hsilent : server.delivered i happening = [] := by
      refine delivered_eq_nil fun hrunning hthrown _ _ => ?_
      obtain hstopped | hstopped := hstopped
      · rw [hrunning] at hstopped
        cases hstopped
      · exact absurd hthrown hstopped
    rw [hsilent, List.append_nil]
    exact h
  rename_i hgoes
  rw [not_or, not_not, Bool.not_eq_false] at hgoes
  cases happening with
  | accepted =>
    rw [show server.delivered i .accepted = [] from rfl, List.append_nil]
    dsimp only
    split
    · exact h.join hR (onAccept_changes server false).2.2.2
    · exact h
  | acceptFailed =>
    rw [show server.delivered i .acceptFailed = [] from rfl, List.append_nil]
    dsimp only
    split
    · have hsessions := (onAccept_changes server true).2.2.2
      rw [if_pos rfl] at hsessions
      exact ⟨hsessions ▸ h.heard, hsessions ▸ h.unborn⟩
    · exact h
  | completed j completion => exact h.completion hR hgoes.1 hgoes.2 j completion
  | signalled =>
    rw [show server.delivered i .signalled = [] from rfl, List.append_nil]
    have hsessions := (onSignal_changes server).2.2.2
    exact ⟨hsessions ▸ h.heard, hsessions ▸ h.unborn⟩

theorem Hears.run (h : Hears R i reads server) (hR : Follows env R) (happenings : List Happening) :
    Hears R i (reads ++ deliveries env i server happenings) (server.run env happenings) := by
  induction happenings generalizing server reads with
  | nil =>
    rw [deliveries, List.append_nil]
    exact h
  | cons happening happenings ih =>
    rw [deliveries, ← List.append_assoc]
    exact ih (h.step hR happening)

/-- What holds between a session and what it was handed, in every run of a server. -/
theorem Follows.holds (hR : Follows env R) (database : RadishDB Bytes) (happenings : List Happening)
    {session : Session} (h : ((TcpServer.start database).run env happenings).sessions[i]? = some session) :
    R (deliveries env i (TcpServer.start database) happenings) session := by
  have hstart : Hears R i [] (TcpServer.start database) := ⟨fun _ hnew => (by cases hnew), fun _ => rfl⟩
  exact (Hears.run hstart hR happenings).heard session h

end Rule

end TcpServer

/-! ## Memory -/

namespace Session

theorem length_process_input_le (env : Environment) (session : Session) :
    (session.process env).input.length ≤ session.input.length := by
  induction hn : session.input.length using Nat.strongRecOn generalizing session with
  | ind n ih =>
    subst hn
    rw [process]
    split
    · exact Nat.le_refl _
    · split
      · exact Nat.le_refl _
      · rw [queue_input]
      · rename_i command consumed hparse
        have hshorter := length_drop_consumed hparse
        dsimp only
        split
        · exact Nat.le_of_lt hshorter
        · refine Nat.le_trans (ih _ hshorter _ (congrArg List.length (queue_input _ _ _))) ?_
          exact Nat.le_of_lt hshorter

/-- The input is within the limit while more can be read, and never more than a read beyond it. -/
structure InputBounded (session : Session) : Prop where
  always : session.input.length ≤ kMaxBufferedInput + kReadBuffer
  reading : session.hears = true → session.input.length ≤ kMaxBufferedInput

theorem InputBounded.onRead {session : Session} (env : Environment) (h : InputBounded session)
    (hhears : session.hears = true) {bytes : Bytes} (hbytes : bytes.length ≤ kReadBuffer) :
    InputBounded (session.onRead env bytes) := by
  have hbefore := h.reading hhears
  have hreceived : (session.receive bytes).input.length = session.input.length + bytes.length :=
    List.length_append
  unfold Session.onRead
  dsimp only
  split
  · constructor
    · rw [queue_input]
      omega
    · intro hlater
      simp [hears, receive] at hlater
  · rename_i hlimit
    have hprocess := length_process_input_le env (session.receive bytes)
    split
    · exact ⟨by omega, fun _ => by omega⟩
    · exact ⟨show (process env (session.receive bytes)).input.length ≤ _ by omega,
        fun _ => show (process env (session.receive bytes)).input.length ≤ _ by omega⟩

end Session

namespace TcpServer

theorem follows_inputBounded (env : Environment) :
    Follows env fun reads session => (∀ bytes ∈ reads, bytes.length ≤ Session.kReadBuffer) →
      session.InputBounded where
  start database _ := ⟨Nat.zero_le _, fun _ => Nat.zero_le _⟩
  attach reads session database calls h hreads := ⟨(h hreads).always, (h hreads).reading⟩
  read := by
    intro reads session bytes h hhears hreads
    have hbefore := h fun b hb => hreads b (List.mem_append_left _ hb)
    exact hbefore.onRead env hhears (hreads bytes (List.mem_append_right _ List.mem_cons_self))
  other := by
    intro reads session completion h hother hthrown hreads
    have hbefore := h hreads
    unfold Session.step
    rw [if_neg (not_not.mpr hthrown)]
    cases completion with
    | read bytes => exact absurd rfl (hother bytes)
    | readFailed => exact ⟨hbefore.always, fun hhears => by simp [Session.hears] at hhears⟩
    | written =>
      dsimp only
      split
      · exact hbefore
      · obtain ⟨hconversation, hinput, hreading⟩ := Session.onWritten_toConversation session
        refine ⟨hinput ▸ hbefore.always, ?_⟩
        rw [hinput, Session.hears, hconversation, hreading]
        exact hbefore.reading
    | writeFailed reached => exact ⟨hbefore.always, hbefore.reading⟩

/-- Whatever its client sends, the server never keeps more of a session's input than its limit and
one read, and no more than the limit while it goes on reading. -/
theorem input_bounded (env : Environment) (database : RadishDB Bytes) (happenings : List Happening)
    {i : Nat} {session : Session}
    (h : ((start database).run env happenings).sessions[i]? = some session)
    (hreads : ∀ bytes ∈ deliveries env i (start database) happenings,
      bytes.length ≤ Session.kReadBuffer) :
    session.input.length ≤ kMaxBufferedInput + Session.kReadBuffer ∧
      (session.thrown = none → session.reading = true →
        session.input.length ≤ kMaxBufferedInput) := by
  have hbounded := (follows_inputBounded env).holds database happenings h hreads
  refine ⟨hbounded.always, ?_⟩
  intro hthrown hreading
  exact hbounded.reading (by simp [Session.hears, hthrown, hreading])

/-- A session that has been sent the start of a request. -/
theorem input_bounded_waiting :
    ((Session.start ⟨RadishStore.new (-1), none⟩).step Session.quiet
        (.read (ascii "*1\r\n$4"))).input.length ≤ kMaxBufferedInput + Session.kReadBuffer := by
  have hsession : ((start ⟨RadishStore.new (-1), none⟩).run Session.quiet
      [.accepted, .completed 0 (.read (ascii "*1\r\n$4"))]).sessions[0]? =
        some ((Session.start ⟨RadishStore.new (-1), none⟩).step Session.quiet
          (.read (ascii "*1\r\n$4"))) := rfl
  have hdeliveries : deliveries Session.quiet 0 (start ⟨RadishStore.new (-1), none⟩)
      [.accepted, .completed 0 (.read (ascii "*1\r\n$4"))] = [ascii "*1\r\n$4"] := rfl
  exact (input_bounded _ _ _ hsession (by rw [hdeliveries]; decide)).1

end TcpServer

end Radish
