import Radish.HandlerInvariants
import Radish.ReplyFrame
import Radish.Server

/-!
# Protocol versions

Each session speaks the version it has negotiated itself, whatever the others have negotiated on
the same server: what it is sent follows from its own `HELLO`s.
-/

namespace Radish
set_option autoImplicit false

open Postcondition RespCodec

namespace Session

/-- The version a session has after its commands. -/
def spoken (commands : List RespCommand) : RespVersion :=
  commands.foldl (fun version command => (negotiated command).getD version) .resp2

theorem spoken_snoc (commands : List RespCommand) (command : RespCommand) :
    spoken (commands ++ [command]) = (negotiated command).getD (spoken commands) := by
  rw [spoken, List.foldl_append]
  rfl

theorem spoken_of_no_resp3 {commands : List RespCommand}
    (h : ∀ command ∈ commands, negotiated command ≠ some .resp3) : spoken commands = .resp2 := by
  induction commands using List.reverseRecOn with
  | nil => rfl
  | append_singleton commands command ih =>
    have hbefore := ih fun c hc => h c (List.mem_append_left _ hc)
    have hlast := h command (List.mem_append_right _ List.mem_cons_self)
    rw [spoken_snoc, hbefore]
    cases hasked : negotiated command with
    | none => rfl
    | some version =>
      cases version with
      | resp2 => rfl
      | resp3 => exact absurd hasked hlast

section Dispatch
variable {env : Environment} {command : RespCommand} {version : RespVersion}

theorem lookup_hello : commandHandlers.lookup (ascii "HELLO") = some handleHello := rfl

/-- A `HELLO` that asks for a version gets it. -/
theorem dispatch_of_negotiated (h : negotiated command = some version) (s : Service) :
    dispatch env command s = (.ok (hello version, false), { s with version }) := by
  unfold negotiated at h
  split at h
  · rename_i hname
    rw [dispatch_of_lookup (hname ▸ lookup_hello)]
    unfold requested at h
    split at h
    · rename_i first asked hcommand
      rw [handleHello, hcommand]
      dsimp only
      split at h
      · rename_i h2
        obtain rfl := Option.some.inj h
        rw [if_pos h2]
        rfl
      · rename_i h2
        rw [if_neg h2]
        split at h
        · rename_i h3
          obtain rfl := Option.some.inj h
          rw [if_pos h3]
          rfl
        · cases h
    · cases h
  · cases h

theorem invariable_version (env : Environment) (version : RespVersion) :
    Invariable env fun s => s.version = version where
  call _ _ hs _ := hs
  look _ hs := hs

variable (env) in
/-- No other command changes the version, whether it is answered or throws. -/
theorem dispatch_version (hcommand : Sendable command) (s : Service) :
    (dispatch env command s).2.version = (negotiated command).getD s.version := by
  cases hasked : negotiated command with
  | none =>
    refine dispatch_maintains (invariable_version env s.version) hcommand ?_ s rfl
    intro version hversion
    rw [hasked] at hversion
    cases hversion
  | some version =>
    rw [dispatch_of_negotiated hasked]
    rfl

end Dispatch

/-- The version of the session is the one it has asked for, and without `HELLO 3` its replies are
made of the types of the second version. -/
structure Speaking (conversation : Conversation) : Prop where
  version : conversation.service.version = spoken conversation.executed
  resp2 : (∀ command ∈ conversation.executed, negotiated command ≠ some .resp3) →
    ∀ response ∈ conversation.replies, SpeaksResp2 response

theorem speaksResp2_error (message : Bytes) : SpeaksResp2 (RespCodec.error message) :=
  ⟨_, error_eq message, by simp [Reply.types, resp2Types]⟩

section Conversations
variable {env : Environment} {c : Conversation} {command : RespCommand}

theorem Speaking.perform (h : Speaking c) (hcommand : Sendable command) :
    Speaking (perform env c command) := by
  have hversion := dispatch_version env hcommand c.service
  rw [h.version, ← spoken_snoc] at hversion
  rcases hdispatch : dispatch env command c.service with ⟨e | ⟨response, close⟩, service⟩
  · rw [hdispatch] at hversion
    rw [perform_of_throws hdispatch]
    refine ⟨hversion, ?_⟩
    intro hasked
    exact h.resp2 fun command' hcommand' => hasked command' (List.mem_append_left _ hcommand')
  · rw [hdispatch] at hversion
    obtain ⟨-, reply, hanswered⟩ := dispatch_answers env command c.service _ _ hdispatch
    rw [Session.perform, hdispatch]
    refine ⟨hversion, ?_⟩
    intro hasked response' hresponse'
    obtain hold | hnew := List.mem_append.mp hresponse'
    · refine h.resp2 ?_ response' hold
      exact fun command' hcommand' => hasked command' (List.mem_append_left _ hcommand')
    · obtain rfl := List.mem_singleton.mp hnew
      exact ⟨reply, hanswered.bytes, hanswered.types (hversion.trans (spoken_of_no_resp3 hasked))⟩

theorem Speaking.refuse (h : Speaking c) (what : String) : Speaking (refuse c what) := by
  refine ⟨h.version, ?_⟩
  intro hasked response hresponse
  obtain hold | hnew := List.mem_append.mp hresponse
  · exact h.resp2 hasked response hold
  · obtain rfl := List.mem_singleton.mp hnew
    exact speaksResp2_error _

end Conversations

end Session

namespace TcpServer

theorem sustained_speaking (env : Environment) :
    Sustained env Session.Speaking fun _ => True where
  start database := ⟨rfl, by simp [Session.start]⟩
  attach c database calls h := ⟨h.version, h.resp2⟩
  preserved := {
    perform := fun c command h _ _ hcommand => ⟨h.1.perform hcommand, trivial⟩
    refuse := fun c what h _ => ⟨h.1.refuse what, trivial⟩ }

/-- Whatever other clients negotiate, and whenever: in every run each session has the version its
own commands have asked for last, and a client that has not asked for the third version is queued
replies of the second version's types only. -/
theorem versions_isolated (env : Environment) (database : RadishDB Bytes)
    (happenings : List Happening) {session : Session}
    (h : session ∈ ((start database).run env happenings).sessions) :
    session.service.version = Session.spoken session.executed ∧
      ((∀ command ∈ session.executed, Session.negotiated command ≠ some .resp3) →
        ∀ response ∈ session.replies, Session.SpeaksResp2 response) := by
  have hstart : Upholds Session.Speaking (fun _ => True) (start database) := upholds_start trivial
  have hupholds := hstart.run (sustained_speaking env) happenings
  have hspeaking := (hupholds.sessions session h).holds
  exact ⟨hspeaking.version, hspeaking.resp2⟩

/-- A session that asks for the third version, besides one that does not. -/
def helloThree : Session :=
  (Session.start ⟨RadishStore.new (-1), none⟩).step ⟨fun _ => 0, fun _ => none, fun _ => .listed⟩
    (.read (ascii "*2\r\n$5\r\nHELLO\r\n$1\r\n3\r\n"))

theorem versions_isolated_helloThree :
    helloThree.service.version = Session.spoken helloThree.executed ∧
      ((∀ command ∈ helloThree.executed, Session.negotiated command ≠ some .resp3) →
        ∀ response ∈ helloThree.replies, Session.SpeaksResp2 response) := by
  have hrun : ((start ⟨RadishStore.new (-1), none⟩).run
      ⟨fun _ => 0, fun _ => none, fun _ => .listed⟩
      [.accepted, .accepted, .completed 0 (.read (ascii "*2\r\n$5\r\nHELLO\r\n$1\r\n3\r\n"))]).sessions =
        [helloThree, Session.start ⟨RadishStore.new (-1), none⟩] := rfl
  exact versions_isolated _ _ _ (hrun ▸ List.mem_cons_self)

end TcpServer

end Radish
