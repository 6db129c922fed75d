import Radish.ConcurrentDB
import Radish.Perpetual

/-!
# A death between two statements

The log changes in one statement of a call, the append or the rewriting, so at any moment of any
schedule it is the log of the calls that have taken effect, with or without the one being made.
-/

namespace Radish
set_option autoImplicit false
open SharedLock Transition

namespace ConcurrentDB
variable {V : Type}

/-- The statements after the one that writes to the file. -/
def written : Point V → Bool
  | .unlockAppend _ _ => true
  | .swap _ => true
  | .unlockCompact _ => true
  | _ => false

variable [BinaryValue V]

theorem exec_unwritten {s s' : Guarded V} {p p' : Point V}
    (h : exec s p = some (s', .inl p')) (hp' : written p' = false) :
    written p = false ∧ s'.database = s.database := by
  cases p <;> simp only [exec] at h <;> grind [written]

/-- From there on the file stays as it is. -/
theorem exec_written {s s' : Guarded V} {p : Point V} {next : Point V ⊕ Answer V}
    (hp : written p = true) (h : exec s p = some (s', next)) :
    s'.database.persistence = s.database.persistence ∧ ∀ p', next = .inl p' → written p' = true := by
  cases p <;> simp only [exec] at h <;> grind [written]

theorem database_of_unwritten {database : RadishDB V} {call : Request V} {s : Guarded V}
    {p : Point V} (h : (object V).Progress (embed database) call s p) (hp : written p = false) :
    s.database = database := by
  induction h with
  | enter => rfl
  | exec _ next ih =>
    obtain ⟨hbefore, hsame⟩ := exec_unwritten next hp
    exact hsame.trans (ih hbefore)

theorem persistence_of_written {s t : Guarded V} {p : Point V} {n : Nat} {r : Answer V}
    (h : (object V).Takes s p n r t) (hp : written p = true) :
    t.database.persistence = s.database.persistence := by
  induction h with
  | last hlast => exact (exec_written hp hlast).1
  | next hnext _ ih =>
    obtain ⟨hsame, hlater⟩ := exec_written hp hnext
    exact (ih (hlater _ rfl)).trans hsame

/-- Halfway through a call the files are as before it or as after it. -/
theorem persistence_inside {database : RadishDB V} {call : Request V} {s : Guarded V} {p : Point V}
    (h : (object V).Progress (embed database) call s p) :
    s.database.persistence = database.persistence ∨
      s.database.persistence = (meaning call database).2.persistence := by
  cases hp : written p with
  | false => exact Or.inl (by rw [database_of_unwritten h hp])
  | true =>
    obtain ⟨n, hall⟩ := object_implements call database
    obtain ⟨k, htakes⟩ := h.takes hall
    exact Or.inr (persistence_of_written htakes hp).symm

/-! ## Without a ttl -/

/-- A call during which the files fail only if it is a compaction. -/
def Request.undisturbed : Request V → Prop
  | .mutate fault _ _ => fault = none
  | _ => True

def Undisturbed {T : Type} : Event T (Request V) (Answer V) → Prop
  | .invoked _ call => call.undisturbed
  | .returned _ _ => True

theorem perpetual_meaning {database : RadishDB V} (h : database.Perpetual) {call : Request V}
    (hcall : call.undisturbed) : (meaning call database).2.Perpetual := by
  cases call with
  | mutate fault now c =>
    obtain rfl : fault = none := hcall
    exact .call now c h
  | compact fault order now => exact .compact fault order now h
  | _ => exact h

variable {T : Type} [DecidableEq T]

/-- What a run of undisturbed calls keeps of the atomic object. -/
structure Lasting (a : Atomic T (RadishDB V) (Request V) (Answer V)) : Prop where
  perpetual : a.state.Perpetual
  asked : ∀ t call, a.status t = .asked call → call.undisturbed

theorem Lasting.update {a : Atomic T (RadishDB V) (Request V) (Answer V)} (h : Lasting a)
    {database : RadishDB V} (hdatabase : database.Perpetual) (t : T)
    {status : Pending (Request V) (Answer V)}
    (hstatus : ∀ call, status = .asked call → call.undisturbed) :
    Lasting ⟨database, Function.update a.status t status⟩ := by
  refine ⟨hdatabase, ?_⟩
  intro t' call hasked
  dsimp only at hasked
  by_cases hne : t' = t
  · subst hne
    rw [Function.update_self] at hasked
    exact hstatus call hasked
  · rw [Function.update_of_ne hne] at hasked
    exact h.asked t' call hasked

theorem Lasting.run {a b : Atomic T (RadishDB V) (Request V) (Answer V)}
    {es : List (Event T (Request V) (Answer V))} (h : Lasting a)
    (hrun : Run (AtomicStep meaning) a es b) (hes : ∀ e ∈ es, Undisturbed e) : Lasting b := by
  refine hrun.invariant_of_events ?_ ?_ h hes
  · intro c c' hc hstep
    cases hstep with
    | @perform t call hasked =>
      exact hc.update (perpetual_meaning hc.perpetual (hc.asked t call hasked)) t (by simp)
  · intro c e c' hc he hstep
    cases hstep with
    | @invoke t call hidle =>
      refine hc.update hc.perpetual t ?_
      intro call' hcall'
      cases hcall'
      exact he
    | @respond t r hanswered => exact hc.update hc.perpetual t (by simp)

/-- Killed between any two statements of any schedule and opened again, the database shows every
key that the calls made so far have left shown, or that they have with the one call that is
inside and writes. -/
theorem killed_reopens {database : RadishDB V} (hperpetual : database.Perpetual)
    {es : List (Event T (Request V) (Answer V))}
    {m : Machine T (Guarded V) (Request V) (Point V) (Answer V)}
    (hrun : Run (Step (object V)) (start (embed database)) es m)
    (hes : ∀ e ∈ es, Undisturbed e) :
    ∃ a, Run (AtomicStep meaning) (Atomic.start database) es a ∧ ∃ recovered : RadishDB V,
      (recovered = a.state ∨ ∃ t call p, m.status t = .inside call p ∧ shared call = false ∧
        recovered = (meaning call a.state).2) ∧
      ∃ disk, m.state.database.persistence = some disk ∧
        ∀ now, ∃ reopened, RadishDB.new now (-1) .flush disk = .ok reopened ∧
          ∀ t k v, recovered.get t k = some v → reopened.get t k = some v := by
  obtain ⟨a, hatomic, hrefines⟩ := refines_run object_implements hrun
  have hlasting : Lasting a := by
    refine Lasting.run ⟨hperpetual, ?_⟩ hatomic hes
    intro t call hasked
    cases hasked
  refine ⟨a, hatomic, ?_⟩
  by_cases hwriter : ∃ t call p, m.status t = .inside call p ∧ shared call = false
  · obtain ⟨t, call, p, hinside, hshared⟩ := hwriter
    have hasked : a.status t = .asked call := by rw [hrefines.status, hinside]; rfl
    have hafter := perpetual_meaning hlasting.perpetual (hlasting.asked t call hasked)
    obtain hsame | hsame := persistence_inside (hrefines.inside t call p hinside)
    · refine ⟨a.state, Or.inl rfl, ?_⟩
      rw [hsame]
      exact hlasting.perpetual.reopens
    · refine ⟨(meaning call a.state).2, Or.inr ⟨t, call, p, hinside, hshared, rfl⟩, ?_⟩
      rw [hsame]
      exact hafter.reopens
  · refine ⟨a.state, Or.inl rfl, ?_⟩
    have hrest : m.state = embed a.state := by
      refine hrefines.rest ?_
      intro t call p hinside
      by_contra hcall
      exact hwriter ⟨t, call, p, hinside, Bool.eq_false_iff.mpr hcall⟩
    rw [hrest]
    exact hlasting.perpetual.reopens

theorem killed_reopens_creatingWhileReading :
    ∃ a, Run (AtomicStep meaning) (Atomic.start (RadishDB.fresh "radish" (-1)))
        [.invoked true (.mutate none 0 (.create [107] [118])), .invoked false (.get 0 [107])] a ∧
      ∃ recovered : RadishDB Bytes, (recovered = a.state ∨ ∃ t call p,
          creatingWhileReading.status t = .inside call p ∧ shared call = false ∧
          recovered = (meaning call a.state).2) ∧
        ∃ disk, creatingWhileReading.state.database.persistence = some disk ∧
          ∀ now, ∃ reopened, RadishDB.new now (-1) .flush disk = .ok reopened ∧
            ∀ t k v, recovered.get t k = some v → reopened.get t k = some v := by
  have habsent : (⟨"radish", none, none⟩ : LogWriter).log = none := rfl
  refine killed_reopens (.first habsent (RadishDB.new_fresh "radish" 0 (-1)))
    run_creatingWhileReading ?_
  intro e he
  obtain rfl | rfl : e = _ ∨ e = _ := by simpa using he
  · rfl
  · trivial

end ConcurrentDB

end Radish
