import Radish.Fragmentation
import Radish.Handlers

/-!
# Pipelined commands

What the input loop makes of the encodings of several commands, with part of one more behind them.
-/

namespace Radish.Session
set_option autoImplicit false

open Incremental RespCodec

section Pipeline
variable {env : Environment} {conversation : Conversation} {command : RespCommand}
  {commands : List RespCommand} {rest : Bytes}

/-- A command that is answered closes the conversation exactly if it is a `QUIT`. -/
theorem perform_cases (env : Environment) (conversation : Conversation) (command : RespCommand) :
    (perform env conversation command).thrown.isSome = true ∨
      (perform env conversation command).thrown = conversation.thrown ∧
        ((perform env conversation command).closeAfterWrite = true ↔
          conversation.closeAfterWrite = true ∨ Quits command) := by
  obtain ⟨⟨_ | ⟨response, close⟩, service⟩, hdispatch⟩ :
      ∃ result, dispatch env command conversation.service = result := ⟨_, rfl⟩
  · left
    rw [perform_of_throws hdispatch]
    rfl
  · right
    have hcloses := (dispatch_answers env command conversation.service _ _ hdispatch).1
    rw [perform, hdispatch]
    refine ⟨rfl, ?_⟩
    rw [← hcloses]
    exact Bool.or_eq_true _ _ ▸ Iff.rfl

theorem stopped_eq_false_iff :
    (consumer env).stopped conversation = false ↔
      conversation.closeAfterWrite = false ∧ conversation.thrown = none := by
  change (conversation.closeAfterWrite || conversation.thrown.isSome) = false ↔ _
  rw [Bool.or_eq_false_iff, Option.isSome_eq_false_iff, Option.isNone_iff_eq_none]

/-- The encodings of the commands, one after the other. -/
def encodeAll (commands : List RespCommand) : Bytes :=
  commands.flatMap fun command => encodeCommand command.arguments

/-- A command at the front of the input is executed. -/
theorem absorb_command (hsend : Sendable command)
    (hopen : (consumer env).stopped conversation = false) (rest : Bytes) :
    (consumer env).absorb conversation (encodeCommand command.arguments ++ rest) =
      (consumer env).absorb (perform env conversation command) rest :=
  Consumer.absorb_complete hopen (commandDecoder_reads command rest hsend)

/-- An exception is the end of the loop. -/
theorem returns_of_absorb (conversation : Conversation) (rest : Bytes)
    (h : ((consumer env).absorb conversation rest).1.thrown = none) :
    conversation.thrown = none := by
  by_contra hthrown
  have hstopped : (consumer env).stopped conversation = true := by
    by_contra hopen
    exact hthrown (stopped_eq_false_iff.mp (Bool.eq_false_iff.mpr hopen)).2
  rw [Consumer.absorb_of_stopped hstopped] at h
  exact hthrown h

/-- After a command that returns and is no `QUIT`, the loop goes on. -/
theorem open_perform (hopen : (consumer env).stopped conversation = false)
    (hquits : ¬Quits command) (hreturn : (perform env conversation command).thrown = none) :
    (consumer env).stopped (perform env conversation command) = false := by
  obtain ⟨hclose, -⟩ := stopped_eq_false_iff.mp hopen
  apply stopped_eq_false_iff.mpr
  refine ⟨Bool.eq_false_iff.mpr fun hclosing => ?_, hreturn⟩
  obtain hthrows | ⟨-, hcloses⟩ := perform_cases env conversation command
  · rw [hreturn] at hthrows
    cases hthrows
  · obtain hclosing | hquit := hcloses.mp hclosing
    · rw [hclose] at hclosing
      cases hclosing
    · exact hquits hquit

/-- The loop goes through commands that return and are no `QUIT`. -/
theorem absorb_commands (hsend : ∀ command ∈ commands, Sendable command)
    (hquits : ∀ command ∈ commands, ¬Quits command)
    (hopen : (consumer env).stopped conversation = false)
    (hreturn : ((consumer env).absorb conversation (encodeAll commands ++ rest)).1.thrown = none) :
    ∃ conversation', (consumer env).stopped conversation' = false ∧
      conversation'.executed = conversation.executed ++ commands ∧
      (consumer env).absorb conversation (encodeAll commands ++ rest) =
        (consumer env).absorb conversation' rest := by
  induction commands generalizing conversation with
  | nil => exact ⟨conversation, hopen, (List.append_nil _).symm, rfl⟩
  | cons command commands ih =>
    have hstep : (consumer env).absorb conversation (encodeAll (command :: commands) ++ rest) =
        (consumer env).absorb (perform env conversation command) (encodeAll commands ++ rest) := by
      rw [encodeAll, List.flatMap_cons, List.append_assoc]
      exact absorb_command (hsend command List.mem_cons_self) hopen _
    rw [hstep] at hreturn ⊢
    have hnext := open_perform hopen (hquits command List.mem_cons_self)
      (returns_of_absorb _ _ hreturn)
    obtain ⟨conversation', hopen', hexecuted, habsorb⟩ :=
      ih (fun c hc => hsend c (List.mem_cons_of_mem _ hc))
        (fun c hc => hquits c (List.mem_cons_of_mem _ hc)) hnext hreturn
    refine ⟨conversation', hopen', ?_, habsorb⟩
    rw [hexecuted, executed_perform, List.append_assoc]
    rfl

end Pipeline

section Process
variable {env : Environment} {session : Session} {commands : List RespCommand}
  {further : RespCommand} {r s : Bytes}

/-- The input loop on pipelined commands and a strict part `r` of one more: it executes them in
order and leaves `r`, or stops at the first `QUIT` and leaves everything behind it. -/
theorem process_pipeline (hsend : ∀ command ∈ commands, Sendable command)
    (hfurther : Sendable further) (hpart : encodeCommand further.arguments = r ++ s)
    (hstrict : s ≠ []) (hopen : session.closeAfterWrite = false) (hstart : session.thrown = none)
    (hinput : session.input = encodeAll commands ++ r)
    (hreturn : (process env session).thrown = none) :
    ((∀ command ∈ commands, ¬Quits command) →
        (process env session).executed = session.executed ++ commands ∧
          (process env session).input = r ∧ (process env session).closeAfterWrite = false) ∧
      ∀ before quit after, commands = before ++ quit :: after →
        (∀ command ∈ before, ¬Quits command) → Quits quit →
        (process env session).executed = session.executed ++ (before ++ [quit]) ∧
          (process env session).input = encodeAll after ++ r ∧
          (process env session).closeAfterWrite = true := by
  have hprocess := process_eq_absorb env session hstart
  have hconversation := congrArg Prod.fst hprocess
  have hleft := congrArg Prod.snd hprocess
  have hstopped : (consumer env).stopped session.toConversation = false :=
    stopped_eq_false_iff.mpr ⟨hopen, hstart⟩
  dsimp only at hconversation hleft
  rw [hconversation] at hreturn ⊢
  rw [hleft]
  rw [hinput] at hreturn ⊢
  constructor
  · intro hquits
    obtain ⟨conversation, hopen', hexecuted, habsorb⟩ :=
      absorb_commands hsend hquits hstopped hreturn
    have hwait : (consumer env).decoder.step r = .incomplete :=
      commandDecoder_reads.step_of_strict_prefix hfurther hpart hstrict
    rw [habsorb, Consumer.absorb_incomplete hwait]
    exact ⟨hexecuted, rfl, (stopped_eq_false_iff.mp hopen').1⟩
  · intro before quit after heq hquits hquit
    subst heq
    have hsplit : encodeAll (before ++ quit :: after) ++ r =
        encodeAll before ++ (encodeCommand quit.arguments ++ (encodeAll after ++ r)) := by
      simp [encodeAll]
    rw [hsplit] at hreturn ⊢
    obtain ⟨conversation, hopen', hexecuted, habsorb⟩ :=
      absorb_commands (fun c hc => hsend c (List.mem_append_left _ hc)) hquits hstopped hreturn
    have hquitSend := hsend quit (List.mem_append_right _ List.mem_cons_self)
    rw [habsorb, absorb_command hquitSend hopen'] at hreturn ⊢
    have hclosing : (perform env conversation quit).closeAfterWrite = true := by
      obtain hthrows | ⟨-, hcloses⟩ := perform_cases env conversation quit
      · rw [returns_of_absorb _ _ hreturn] at hthrows
        cases hthrows
      · exact hcloses.mpr (Or.inr hquit)
    have hclosed : (consumer env).stopped (perform env conversation quit) = true := by
      change ((perform env conversation quit).closeAfterWrite || _) = true
      rw [hclosing, Bool.true_or]
    rw [Consumer.absorb_of_stopped hclosed]
    refine ⟨?_, rfl, hclosing⟩
    rw [executed_perform, hexecuted, List.append_assoc]

/-- A session that has received a `PING` and the start of another command. -/
def pinged : Session :=
  { start ⟨RadishStore.new (-1), none⟩ with
    input := encodeAll [⟨[ascii "PING"]⟩] ++ ascii "*1\r\n$4\r" }

def quiet : Environment := ⟨fun _ => 0, fun _ => none, fun _ => .listed⟩

theorem process_pipeline_pinged :
    (process quiet pinged).executed = [⟨[ascii "PING"]⟩] ∧
      (process quiet pinged).input = ascii "*1\r\n$4\r" := by
  have hsend : Sendable ⟨[ascii "PING"]⟩ := ⟨by decide, by decide, by decide⟩
  have hquits : ¬Quits ⟨[ascii "PING"]⟩ := fun hquits => absurd hquits.uppercase_eq (by decide)
  have hreturn : (process quiet pinged).thrown = none := by
    have hprocess := congrArg (fun result => result.1.thrown) (process_eq_absorb quiet pinged rfl)
    have hinput : pinged.input = encodeCommand [ascii "PING"] ++ ascii "*1\r\n$4\r" := by
      simp [pinged, encodeAll]
    have hstep : (consumer quiet).absorb pinged.toConversation
        (encodeCommand [ascii "PING"] ++ ascii "*1\r\n$4\r") =
          (consumer quiet).absorb (perform quiet pinged.toConversation ⟨[ascii "PING"]⟩)
            (ascii "*1\r\n$4\r") := absorb_command hsend rfl _
    rw [hinput, hstep, Consumer.absorb_incomplete rfl] at hprocess
    exact hprocess.trans rfl
  have hpart : encodeCommand [ascii "PING"] = ascii "*1\r\n$4\r" ++ ascii "\nPING\r\n" := by decide
  obtain ⟨hexecuted, hinput, -⟩ :=
    (process_pipeline (List.forall_mem_singleton.mpr hsend) hsend hpart (by decide) rfl rfl rfl
      hreturn).1 (List.forall_mem_singleton.mpr hquits)
  exact ⟨hexecuted, hinput⟩

end Process

end Radish.Session
