import Mathlib.Data.List.Basic

/-!
# Incremental decoders

A decoder looks at the symbols received so far and either takes one value off the
front, asks for more, or gives up. Nothing here knows what the symbols mean: a
framed log file and a pipelined request stream are both instances.

The two stability laws say that only `incomplete` can be changed by later input.
From them alone follow the behaviour of a cut-off stream and the independence of a
session from the way its input was fragmented.
-/

namespace Incremental
set_option autoImplicit false

universe u v w
variable {β : Type u} {α : Type v} {ε : Type w}

/-- What a decoder says about the symbols received so far. -/
inductive Verdict (β : Type u) (α : Type v) (ε : Type w) where
  | complete (value : α) (rest : List β)
  | incomplete
  | failed (reason : ε)

structure Decoder (β : Type u) (α : Type v) (ε : Type w) where
  step : List β → Verdict β α ε
  shrinks : ∀ {s a rest}, step s = .complete a rest → rest.length < s.length
  complete_append : ∀ {s a rest} (t : List β),
    step s = .complete a rest → step (s ++ t) = .complete a (rest ++ t)
  failed_append : ∀ {s e} (t : List β), step s = .failed e → step (s ++ t) = .failed e

/-- How a run over a whole input ends: waiting with unread symbols, or rejected. -/
inductive Ending (β : Type u) (ε : Type w) where
  | waiting (unread : List β)
  | rejected (reason : ε)

namespace Decoder
variable (d : Decoder β α ε)

/-- Takes values off the front until none is complete. -/
def drain (s : List β) : List α × Ending β ε :=
  match _h : d.step s with
  | .complete a rest =>
    let r := drain rest
    (a :: r.1, r.2)
  | .incomplete => ([], .waiting s)
  | .failed e => ([], .rejected e)
termination_by s.length
decreasing_by exact d.shrinks _h

variable {d}

theorem drain_complete {s rest : List β} {a : α} (h : d.step s = .complete a rest) :
    d.drain s = (a :: (d.drain rest).1, (d.drain rest).2) := by
  rw [drain.eq_def]
  split
  · rename_i b r hb
    rw [h] at hb
    injection hb with h1 h2
    subst h1 h2
    rfl
  · rename_i hb
    rw [h] at hb
    cases hb
  · rename_i hb
    rw [h] at hb
    cases hb

theorem drain_incomplete {s : List β} (h : d.step s = .incomplete) :
    d.drain s = ([], .waiting s) := by
  rw [drain.eq_def]
  split <;> simp_all

theorem drain_failed {s : List β} {e : ε} (h : d.step s = .failed e) :
    d.drain s = ([], .rejected e) := by
  rw [drain.eq_def]
  split <;> simp_all

/-- The shape of every run: one more value and a shorter run, or the end. -/
theorem drain_induction {P : List β → Prop}
    (complete : ∀ s a rest, d.step s = .complete a rest → P rest → P s)
    (incomplete : ∀ s, d.step s = .incomplete → P s)
    (failed : ∀ s e, d.step s = .failed e → P s) (s : List β) : P s := by
  induction hn : s.length using Nat.strongRecOn generalizing s with
  | ind n ih =>
    cases h : d.step s with
    | complete a rest =>
      have hlt : rest.length < n := hn ▸ d.shrinks h
      exact complete s a rest h (ih _ hlt rest rfl)
    | incomplete => exact incomplete s h
    | failed e => exact failed s e h

/-- What a run leaves unread is not yet a value. -/
theorem step_of_drain_waiting {s unread : List β} {as : List α}
    (h : d.drain s = (as, .waiting unread)) : d.step unread = .incomplete := by
  induction s using d.drain_induction generalizing as with
  | complete s a rest hs ih =>
    rw [drain_complete hs, Prod.mk.injEq] at h
    exact ih (Prod.ext rfl h.2)
  | incomplete s hs =>
    rw [drain_incomplete hs] at h
    injection h with _ h
    injection h with h
    exact h ▸ hs
  | failed s e hs =>
    rw [drain_failed hs] at h
    injection h with _ h
    cases h

/-- A waiting run resumes from its unread symbols when more input arrives. -/
theorem drain_append_of_waiting {s unread : List β} {as : List α}
    (h : d.drain s = (as, .waiting unread)) (t : List β) :
    d.drain (s ++ t) = (as ++ (d.drain (unread ++ t)).1, (d.drain (unread ++ t)).2) := by
  induction s using d.drain_induction generalizing as with
  | complete s a rest hs ih =>
    rw [drain_complete hs, Prod.mk.injEq] at h
    obtain ⟨rfl, hend⟩ := h
    rw [drain_complete (d.complete_append t hs), ih (Prod.ext rfl hend)]
    rfl
  | incomplete s hs =>
    rw [drain_incomplete hs] at h
    injection h with h1 h2
    injection h2 with h2
    subst h1 h2
    rfl
  | failed s e hs =>
    rw [drain_failed hs] at h
    injection h with _ h
    cases h

/-- A rejected run stays rejected, with the same values before the rejection. -/
theorem drain_append_of_rejected {s : List β} {as : List α} {e : ε}
    (h : d.drain s = (as, .rejected e)) (t : List β) :
    d.drain (s ++ t) = (as, .rejected e) := by
  induction s using d.drain_induction generalizing as with
  | complete s a rest hs ih =>
    rw [drain_complete hs, Prod.mk.injEq] at h
    obtain ⟨rfl, hend⟩ := h
    rw [drain_complete (d.complete_append t hs), ih (Prod.ext rfl hend)]
  | incomplete s hs =>
    rw [drain_incomplete hs] at h
    injection h with _ h
    cases h
  | failed s e' hs =>
    rw [drain_failed hs] at h
    rw [drain_failed (d.failed_append t hs)]
    exact h

end Decoder

section Encoding
variable (d : Decoder β α ε) (encode : α → List β) (Ok : α → Prop)

/-- The decoder reads back every value that has an encoding. -/
def Reads : Prop := ∀ a t, Ok a → d.step (encode a ++ t) = .complete a t

/-- The decoder takes off exactly the encoding of the value it returns. -/
def Exact : Prop := ∀ s a rest, d.step s = .complete a rest → Ok a ∧ s = encode a ++ rest

variable {d encode Ok}

theorem Reads.drain_append (h : Reads d encode Ok) {as : List α} (has : ∀ a ∈ as, Ok a)
    (t : List β) :
    d.drain (as.flatMap encode ++ t) = (as ++ (d.drain t).1, (d.drain t).2) := by
  induction as with
  | nil => rfl
  | cons a as ih =>
    have ht := ih fun b hb => has b (List.mem_cons_of_mem a hb)
    have hs := h a (as.flatMap encode ++ t) (has a List.mem_cons_self)
    rw [List.flatMap_cons, List.append_assoc, Decoder.drain_complete hs, ht]
    rfl

/-- Cutting an encoding short leaves a decoder waiting: any other verdict on the
prefix would still be its verdict on the whole. -/
theorem Reads.step_of_strict_prefix (h : Reads d encode Ok) {a : α} (ha : Ok a) {p q : List β}
    (hpq : encode a = p ++ q) (hq : q ≠ []) : d.step p = .incomplete := by
  have hwhole := h a [] ha
  rw [List.append_nil, hpq] at hwhole
  cases hp : d.step p with
  | complete b rest =>
    rw [d.complete_append q hp] at hwhole
    injection hwhole with _ hrest
    exact absurd (List.append_eq_nil_iff.mp hrest).2 hq
  | incomplete => rfl
  | failed e =>
    rw [d.failed_append q hp] at hwhole
    cases hwhole

theorem Exact.drain_eq (h : Exact d encode Ok) {s unread : List β} {as : List α}
    (hs : d.drain s = (as, .waiting unread)) :
    (∀ a ∈ as, Ok a) ∧ s = as.flatMap encode ++ unread := by
  induction s using d.drain_induction generalizing as with
  | complete s a rest hstep ih =>
    rw [Decoder.drain_complete hstep, Prod.mk.injEq] at hs
    obtain ⟨rfl, hend⟩ := hs
    obtain ⟨ha, hsplit⟩ := h s a rest hstep
    obtain ⟨has, hrest⟩ := ih (Prod.ext rfl hend)
    refine ⟨List.forall_mem_cons.mpr ⟨ha, has⟩, ?_⟩
    rw [List.flatMap_cons, List.append_assoc, ← hrest]
    exact hsplit
  | incomplete s hstep =>
    rw [Decoder.drain_incomplete hstep] at hs
    injection hs with h1 h2
    injection h2 with h2
    subst h1 h2
    simp
  | failed s e hstep =>
    rw [Decoder.drain_failed hstep] at hs
    injection hs with _ hs
    cases hs

/-- With an exact decoder that reads every encoding, a waiting run is the same thing as a
concatenation of encodings followed by an unfinished tail. -/
theorem drain_waiting_iff (hr : Reads d encode Ok) (he : Exact d encode Ok)
    {s unread : List β} {as : List α} :
    d.drain s = (as, .waiting unread) ↔
      (∀ a ∈ as, Ok a) ∧ d.step unread = .incomplete ∧ s = as.flatMap encode ++ unread := by
  constructor
  · intro h
    obtain ⟨has, hs⟩ := he.drain_eq h
    exact ⟨has, Decoder.step_of_drain_waiting h, hs⟩
  · rintro ⟨has, hstep, rfl⟩
    rw [hr.drain_append has, Decoder.drain_incomplete hstep]
    simp

end Encoding

end Incremental
