import Radish.HandlerInvariants
import Radish.Server

/-!
# What clients cannot do

A handler throws only if a database call does, and a call made for a request throws only if the
files fail. So while they do not, no client ends the server, whatever it sends.
-/

namespace Radish
set_option autoImplicit false

open Postcondition RespCodec RadishDB

/-- Databases on which every call made for a request succeeds, and leads to another one. -/
def Lasts (D : RadishDB Bytes → Prop) : Prop :=
  ∀ db now (c : Call Bytes), D db → c.Small →
    ∃ found db', db.call none now c = (.ok found, db') ∧ D db'

theorem lasts_sound : Lasts RadishDB.Sound := fun _ now _ hdb hc => hdb.call now hc

namespace Session

section Handlers
variable {env : Environment} {D : RadishDB Bytes → Prop} {s : Service} {command : RespCommand}

theorem returns_commit (hfault : ∀ n, env.fault n = none) (hD : Lasts D) (hs : D s.database)
    {c : Call Bytes} (hc : c.Small) :
    Returns (commit env fun fault now database => database.call fault now c) s
      fun _ s' => D s'.database := by
  obtain ⟨found, db', hcall, hdb'⟩ := hD s.database (env.now s.calls) c hs hc
  refine ⟨found, { s with database := db', calls := s.calls + 1 }, ?_, hdb'⟩
  rw [commit, hfault, hcall]

theorem composed_returns (hfault : ∀ n, env.fault n = none) (hD : Lasts D)
    (hcommand : Sendable command) :
    Composed env command fun _ program =>
      ∀ s : Service, D s.database → Returns program s fun _ s' => D s'.database where
  answer _ _ _ hs := returns_pure.mpr hs
  bind _ _ _ _ hx hf s hs := returns_bind.mpr ((hx s hs).mono hf)
  speak _ _ s hs := by
    simp only [returns_bind, returns_get, returns_pure]
    exact hs
  look _ _ _ hs := ⟨_, _, rfl, hs⟩
  call _ hc _ hs := returns_commit hfault hD hs (hc.small hcommand)
  negotiate _ _ _ hs := ⟨_, _, rfl, hs⟩

theorem dispatch_returns (hfault : ∀ n, env.fault n = none) (hD : Lasts D)
    (hcommand : Sendable command) (hs : D s.database) :
    Returns (dispatch env command) s fun _ s' => D s'.database :=
  (composed_returns hfault hD hcommand).dispatch s hs

end Handlers

end Session

namespace TcpServer

/-- No handler throws, and the database stays one on which none does. -/
theorem sustained_quiet {env : Environment} {D : RadishDB Bytes → Prop}
    (hfault : ∀ n, env.fault n = none) (hD : Lasts D) :
    Sustained env (fun c => c.thrown = none) D where
  start database := rfl
  attach c database calls h := h
  preserved := {
    perform := by
      intro c command h _ _ hcommand
      obtain ⟨hthrown, hdatabase⟩ := h
      obtain ⟨⟨response, close⟩, service, hdispatch, hservice⟩ :=
        Session.dispatch_returns (s := c.service) hfault hD hcommand hdatabase
      rw [Session.perform, hdispatch]
      exact ⟨hthrown, hservice⟩
    refuse := fun c what h _ => h }

theorem run_quiet {env : Environment} {D : RadishDB Bytes → Prop}
    (hfault : ∀ n, env.fault n = none) (hD : Lasts D) {database : RadishDB Bytes}
    (h : D database) (happenings : List Happening) :
    ((start database).run env happenings).thrown = none ∧
      D ((start database).run env happenings).database := by
  have hupholds := (upholds_start h).run (sustained_quiet hfault hD) happenings
  refine ⟨?_, hupholds.database⟩
  rw [Option.eq_none_iff_forall_ne_some]
  intro e he
  obtain ⟨session, hsession, hthrown⟩ := hupholds.thrown e he
  rw [(hupholds.sessions session hsession).holds] at hthrown
  cases hthrown

end TcpServer

end Radish
