import Radish.DatabaseGrowth
import Radish.ReplyFrame
import Radish.Understanding

/-!
# Clients that pipeline their commands

A client sends commands without waiting and then reads as many replies, as `ExecutePipeline` does.
It is told how each of its commands went at its place in the order of all clients' commands.
-/

namespace Radish
set_option autoImplicit false

open Incremental RespCodec RespConnection

namespace Session

/-! ## What the server reads -/

/-- The bytes of a client can be understood in one way only. -/
theorem Understood.unique {stream : Bytes} {commands commands' : List RespCommand}
    {closing closing' : Bool} (h : Understood stream commands closing)
    (h' : Understood stream commands' closing') : commands = commands' ∧ closing = closing' := by
  have hfront : ∀ {command command' : RespCommand} {encoded rest encoded' rest' : Bytes},
      Request command encoded → Request command' encoded' → encoded ++ rest = encoded' ++ rest' →
      command = command' ∧ rest = rest' := by
    intro command command' encoded rest encoded' rest' hrequest hrequest' hsplit
    have hstep : commandStep (encoded ++ rest) = .complete command rest :=
      commandStep_complete_iff.mpr ⟨encoded, hrequest, rfl⟩
    have hstep' : commandStep (encoded ++ rest) = .complete command' rest' :=
      commandStep_complete_iff.mpr ⟨encoded', hrequest', hsplit⟩
    rw [hstep] at hstep'
    injection hstep' with hcommand hrest
    exact ⟨hcommand, hrest⟩
  induction h generalizing commands' closing' with
  | waits part fits =>
    cases h' with
    | waits => exact ⟨rfl, rfl⟩
    | overfull _ long => omega
    | malformed refused => cases part.symm.trans refused
    | quits request => cases part.symm.trans (parseCommand_of_request request _)
    | goes request => cases part.symm.trans (parseCommand_of_request request _)
  | overfull part long =>
    cases h' with
    | waits _ fits => omega
    | overfull => exact ⟨rfl, rfl⟩
    | malformed => exact ⟨rfl, rfl⟩
    | quits request => cases part.symm.trans (parseCommand_of_request request _)
    | goes request => cases part.symm.trans (parseCommand_of_request request _)
  | malformed refused =>
    cases h' with
    | waits part => cases part.symm.trans refused
    | overfull => exact ⟨rfl, rfl⟩
    | malformed => exact ⟨rfl, rfl⟩
    | quits request => cases refused.symm.trans (parseCommand_of_request request _)
    | goes request => cases refused.symm.trans (parseCommand_of_request request _)
  | @quits command encoded rest request last =>
    generalize hstream : encoded ++ rest = stream at h'
    cases h' with
    | waits part => cases part.symm.trans (hstream ▸ parseCommand_of_request request _)
    | overfull part => cases part.symm.trans (hstream ▸ parseCommand_of_request request _)
    | malformed refused => cases refused.symm.trans (hstream ▸ parseCommand_of_request request _)
    | quits request' =>
      obtain ⟨rfl, -⟩ := hfront request request' hstream
      exact ⟨rfl, rfl⟩
    | goes request' goesOn =>
      obtain ⟨rfl, -⟩ := hfront request request' hstream
      exact absurd last goesOn
  | @goes command encoded rest commands closing request goesOn _ ih =>
    generalize hstream : encoded ++ rest = stream at h'
    cases h' with
    | waits part => cases part.symm.trans (hstream ▸ parseCommand_of_request request _)
    | overfull part => cases part.symm.trans (hstream ▸ parseCommand_of_request request _)
    | malformed refused => cases refused.symm.trans (hstream ▸ parseCommand_of_request request _)
    | quits request' last =>
      obtain ⟨rfl, -⟩ := hfront request request' hstream
      exact absurd last goesOn
    | goes request' _ later =>
      obtain ⟨rfl, rfl⟩ := hfront request request' hstream
      obtain ⟨rfl, rfl⟩ := ih later
      exact ⟨rfl, rfl⟩

section Encoding
variable {commands : List RespCommand}

end Encoding

/-! ## What the server writes -/

end Session

namespace TcpServer

section Writes
variable {env : Environment} {server : TcpServer} {i : Nat} {session : Session}

end Writes

end TcpServer

/-! ## What the client reads -/

namespace TcpServer

section Replies
variable {env : Environment} {database : RadishDB Bytes} {history : List (Nat × RespCommand)}
  {limit : Nat}

end Replies

section Clients
variable {env : Environment} {database : RadishDB Bytes} {happenings : List Happening} {i : Nat}
  {session : Session} {commands : List RespCommand}

end Clients

end TcpServer

end Radish
