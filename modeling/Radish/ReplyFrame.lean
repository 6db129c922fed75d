import Mathlib.Data.List.Forall2
import Radish.Handlers
import Radish.RespConnection

/-!
# Replies stay in frame

What the server answers to a sequence of commands, read by the client one reply at a time.
-/

namespace Radish.Session
set_option autoImplicit false

open Postcondition RespCodec RespConnection

/-- Command after command, each reply with the version the session then has. -/
def dispatchAll (env : Environment) : List RespCommand → Handling (List (Bytes × RespVersion))
  | [] => return []
  | command :: commands => do
    let (response, _) ← dispatch env command
    let version := (← get).version
    let answers ← dispatchAll env commands
    return (response, version) :: answers

/-- The client reads the reply to its last byte, and takes it for an error if it is one. -/
structure ReadAs (success : Bool) (response : Bytes) : Prop where
  exact : ∀ t, readResponse (response ++ t) = some (success, t)
  fails : success = false ↔ ∃ message, response = RespCodec.error message

/-- The reply is made of the types of the second version of the protocol. -/
def SpeaksResp2 (response : Bytes) : Prop :=
  ∃ reply : Reply, response = reply.encode ∧ ∀ b ∈ reply.types, b ∈ resp2Types

section Frames
variable {env : Environment} {commands : List RespCommand} {s s' : Service}
  {answers : List (Bytes × RespVersion)}

theorem Answered.readAs {command : RespCommand} {response : Bytes} {reply : Reply}
    (h : Answered command s s' response reply)
    (harguments : ∀ argument ∈ command.arguments, argument.length < 2 ^ 63)
    (hdatabase : Representable s.database) : ReadAs reply.succeeds response where
  exact t := by
    rw [h.bytes, readResponse, readNested_encode (h.readable harguments hdatabase)]
  fails := h.fails

theorem readResponses_flatten {successes : List Bool} {responses : List Bytes}
    (h : List.Forall₂ ReadAs successes responses) (t : Bytes) :
    readResponses responses.length (responses.flatten ++ t) = some (successes, t) := by
  induction h with
  | nil => rfl
  | @cons success response successes responses hresponse _ ih =>
    rw [List.length_cons, List.flatten_cons, List.append_assoc, readResponses,
      hresponse.exact, Option.bind_eq_bind, Option.bind_some]
    dsimp only
    rw [ih, Option.bind_eq_bind, Option.bind_some]

/-- One command and its reply, then the others. -/
theorem dispatchAll_cons {command : RespCommand}
    (h : dispatchAll env (command :: commands) s = (.ok answers, s')) :
    ∃ response close t later, dispatch env command s = (.ok (response, close), t) ∧
      dispatchAll env commands t = (.ok later, s') ∧ answers = (response, t.version) :: later := by
  have hensures : Ensures (dispatchAll env (command :: commands)) s fun answers s' =>
      ∃ response close t later, dispatch env command s = (.ok (response, close), t) ∧
        dispatchAll env commands t = (.ok later, s') ∧
          answers = (response, t.version) :: later := by
    rw [dispatchAll, ensures_bind]
    intro result t hdispatch
    obtain ⟨response, close⟩ := result
    simp only [ensures_bind, ensures_get, ensures_pure]
    exact fun later s' hlater => ⟨response, close, t, later, hdispatch, hlater, rfl⟩
  exact hensures answers s' h

/-- Every state the commands lead through is one the server can be in: a string of the source has
fewer than 2^63 bytes, and so have the strings and the number of keys in its database. -/
def StaysRepresentable (env : Environment) (commands : List RespCommand) (s : Service) : Prop :=
  ∀ front back answers t, commands = front ++ back →
    dispatchAll env front s = (.ok answers, t) → Representable t.database

theorem StaysRepresentable.first (h : StaysRepresentable env commands s) :
    Representable s.database :=
  h [] commands [] s rfl rfl

theorem StaysRepresentable.later {command : RespCommand} {response : Bytes} {close : Bool}
    (h : StaysRepresentable env (command :: commands) s)
    (hdispatch : dispatch env command s = (.ok (response, close), s')) :
    StaysRepresentable env commands s' := by
  intro front back answers t hsplit hfront
  have hrun : dispatchAll env (command :: front) s =
      (.ok ((response, s'.version) :: answers), t) := by
    have hget : (get : Handling Service) s' = (.ok s', s') := rfl
    rw [dispatchAll, bind_of_ok hdispatch]
    dsimp only
    rw [bind_of_ok hget, bind_of_ok hfront]
    rfl
  exact h (command :: front) back _ t (by rw [hsplit, List.cons_append]) hrun

/-- Each reply is read on its own, and uses the types of the session's version. -/
theorem dispatchAll_frames
    (harguments : ∀ command ∈ commands, ∀ argument ∈ command.arguments, argument.length < 2 ^ 63)
    (hstates : StaysRepresentable env commands s)
    (hrun : dispatchAll env commands s = (.ok answers, s')) :
    answers.length = commands.length ∧
      (∃ successes, List.Forall₂ ReadAs successes (answers.map Prod.fst)) ∧
      ∀ answer ∈ answers, answer.2 = .resp2 → SpeaksResp2 answer.1 := by
  induction commands generalizing s answers with
  | nil =>
    obtain ⟨⟩ := hrun
    exact ⟨rfl, ⟨[], .nil⟩, by simp⟩
  | cons command commands ih =>
    obtain ⟨response, close, t, later, hdispatch, hlater, rfl⟩ := dispatchAll_cons hrun
    obtain ⟨reply, hanswered⟩ := (dispatch_answers env command s _ _ hdispatch).2
    have hread := hanswered.readAs (harguments command List.mem_cons_self) hstates.first
    have hlaterArguments := fun c hc => harguments c (List.mem_cons_of_mem command hc)
    obtain ⟨hlength, ⟨successes, hsuccesses⟩, htypes⟩ :=
      ih hlaterArguments (hstates.later hdispatch) hlater
    refine ⟨by simp [hlength], ⟨_, .cons hread hsuccesses⟩, ?_⟩
    intro answer hanswer hversion
    obtain rfl | hanswer := List.mem_cons.mp hanswer
    · exact ⟨reply, hanswered.bytes, hanswered.types hversion⟩
    · exact htypes answer hanswer hversion

/-- The replies to a sequence of commands are read one by one, whatever follows them, each to its
last byte; and they use the types of the session's version only. -/
theorem replies_stay_in_frame
    (harguments : ∀ command ∈ commands, ∀ argument ∈ command.arguments, argument.length < 2 ^ 63)
    (hstates : StaysRepresentable env commands s)
    (hrun : dispatchAll env commands s = (.ok answers, s')) :
    answers.length = commands.length ∧
      (∃ successes, List.Forall₂ ReadAs successes (answers.map Prod.fst) ∧
        ∀ t, readResponses answers.length ((answers.map Prod.fst).flatten ++ t) =
          some (successes, t)) ∧
      ∀ answer ∈ answers, answer.2 = .resp2 → SpeaksResp2 answer.1 := by
  obtain ⟨hlength, ⟨successes, hsuccesses⟩, htypes⟩ := dispatchAll_frames harguments hstates hrun
  refine ⟨hlength, ⟨successes, hsuccesses, fun t => ?_⟩, htypes⟩
  have hread := readResponses_flatten hsuccesses t
  rw [List.length_map] at hread
  exact hread

/-- A payload with the bytes that end a line. -/
theorem replies_stay_in_frame_ping :
    ∃ successes, ∀ t, readResponses 1 ([ascii "$4\r\na\r\nb\r\n"].flatten ++ t) =
      some (successes, t) := by
  have harguments : ∀ command ∈ [RespCommand.mk [ascii "ping", ascii "a\r\nb"]],
      ∀ argument ∈ command.arguments, argument.length < 2 ^ 63 := by decide
  have hstates : StaysRepresentable ⟨fun _ => 0, fun _ => none, fun _ => .listed⟩
      [⟨[ascii "ping", ascii "a\r\nb"]⟩] ⟨.resp2, ⟨RadishStore.new (-1), none⟩, 0⟩ := by
    have hempty : Representable ⟨RadishStore.new (-1), none⟩ :=
      ⟨by decide, fun _ hkey => absurd hkey List.not_mem_nil, fun _ _ hvalue => nomatch hvalue⟩
    intro front back answers t hsplit hfront
    obtain _ | ⟨command, _ | ⟨command', front⟩⟩ := front
    · obtain ⟨⟩ := hfront
      exact hempty
    · obtain ⟨⟩ := hsplit
      obtain ⟨⟩ := hfront
      exact hempty
    · cases hsplit
  obtain ⟨-, ⟨successes, -, hread⟩, -⟩ := replies_stay_in_frame harguments hstates rfl
  exact ⟨successes, hread⟩

end Frames

end Radish.Session
