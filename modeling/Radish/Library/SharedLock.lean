import Mathlib.Data.Finset.Basic
import Mathlib.Algebra.Order.BigOperators.Group.Finset
import Mathlib.Data.Fintype.BigOperators
import Mathlib.Order.WellFounded
import Mathlib.Order.ConditionallyCompleteLattice.Basic
import Mathlib.Order.Lattice.Nat
import Radish.Library.Transition

/-!
# Objects guarded by a readers-writer lock

Threads call an object whose calls are programs, run statement by statement while the lock is held.
Calls that only read may be inside together, any other call is inside alone. Whatever the schedule,
such an object shows what an object shows whose calls take effect in one step.
-/

namespace SharedLock
set_option autoImplicit false
open Transition

universe u
variable {T S A C P R : Type u}

/-- A call starts at a point of its program. `exec` performs the statement at a point and goes on
or returns; it is `none` where the statement has to wait. -/
structure Object (S C P R : Type u) where
  shared : C → Bool
  enter : C → P
  exec : S → P → Option (S × (P ⊕ R))
  reading : P → Bool
  reading_enter : ∀ {call}, shared call = true → reading (enter call) = true
  reading_exec : ∀ {s p s' next}, reading p = true → exec s p = some (s', next) →
    s' = s ∧ ∀ p', next = .inl p' → reading p' = true

namespace Object
variable (o : Object S C P R)

/-- What a call that has the object to itself gets to. -/
inductive Progress (s₀ : S) (call : C) : S → P → Prop where
  | enter : Progress s₀ call s₀ (o.enter call)
  | exec {s s' : S} {p p' : P} (h : Progress s₀ call s p) (next : o.exec s p = some (s', .inl p')) :
      Progress s₀ call s' p'

/-- Alone, the program returns `r` after `n` more statements, and leaves `s'`. -/
inductive Takes : S → P → Nat → R → S → Prop where
  | last {s s' : S} {p : P} {r : R} (h : o.exec s p = some (s', .inr r)) : Takes s p 1 r s'
  | next {s s' s'' : S} {p p' : P} {n : Nat} {r : R} (h : o.exec s p = some (s', .inl p'))
      (later : Takes s' p' n r s'') : Takes s p (n + 1) r s''

variable {o} {s s' s₀ t t' : S} {p p' : P} {n n' : Nat} {r r' : R} {call : C}

theorem Takes.of_exec (h : o.Takes s p n r t) (hexec : o.exec s p = some (s', .inl p')) :
    ∃ m, n = m + 1 ∧ o.Takes s' p' m r t := by
  cases h with
  | last hlast =>
    rw [hlast] at hexec
    cases hexec
  | next hnext later =>
    rw [hnext] at hexec
    cases hexec
    exact ⟨_, rfl, later⟩

theorem Takes.of_last (h : o.Takes s p n r t) (hexec : o.exec s p = some (s', .inr r')) :
    r' = r ∧ s' = t := by
  cases h with
  | last hlast =>
    rw [hlast] at hexec
    cases hexec
    exact ⟨rfl, rfl⟩
  | next hnext _ =>
    rw [hnext] at hexec
    cases hexec

theorem Takes.runs (h : o.Takes s p n r t) : ∃ s' next, o.exec s p = some (s', next) := by
  cases h with
  | last hlast => exact ⟨_, _, hlast⟩
  | next hnext _ => exact ⟨_, _, hnext⟩

theorem Takes.unique (h : o.Takes s p n r t) (h' : o.Takes s p n' r' t') : n = n' := by
  induction h generalizing n' with
  | last hlast =>
    cases h' with
    | last _ => rfl
    | next hnext _ =>
      rw [hlast] at hnext
      cases hnext
  | next hnext _ ih =>
    obtain ⟨m, rfl, hlater⟩ := h'.of_exec hnext
    rw [ih hlater]

/-- The number of statements a program has left. -/
noncomputable def left (o : Object S C P R) (s : S) (p : P) : Nat :=
  sInf {n | ∃ r s', o.Takes s p n r s'}

theorem Takes.left_eq (h : o.Takes s p n r t) : o.left s p = n := by
  have hset : {m | ∃ r' t', o.Takes s p m r' t'} = {n} := by
    ext m
    constructor
    · intro hm
      obtain ⟨r', t', hm⟩ := hm
      exact hm.unique h
    · intro hm
      obtain rfl := Set.mem_singleton_iff.mp hm
      exact ⟨r, t, h⟩
  rw [left, hset, csInf_singleton]

theorem Progress.reading (h : o.Progress s₀ call s p) (hshared : o.shared call = true) :
    s = s₀ ∧ o.reading p = true := by
  induction h with
  | enter => exact ⟨rfl, o.reading_enter hshared⟩
  | exec _ next ih =>
    obtain ⟨rfl, hp⟩ := ih
    obtain ⟨rfl, hp'⟩ := o.reading_exec hp next
    exact ⟨rfl, hp' _ rfl⟩

theorem Progress.takes (h : o.Progress s₀ call s p) (hall : o.Takes s₀ (o.enter call) n r t) :
    ∃ m, o.Takes s p m r t := by
  induction h with
  | enter => exact ⟨n, hall⟩
  | exec _ next ih =>
    obtain ⟨m, hm⟩ := ih
    obtain ⟨m', _, hm'⟩ := hm.of_exec next
    exact ⟨m', hm'⟩

/-- Alone, every call ends as its meaning says, between states that stand for abstract ones. -/
def Implements (o : Object S C P R) (embed : A → S) (meaning : C → A → R × A) : Prop :=
  ∀ call a, ∃ n, o.Takes (embed a) (o.enter call) n (meaning call a).1 (embed (meaning call a).2)

end Object

/-! ## The machine -/

/-- Where a thread is with its call. It holds the lock while it is `inside` or `leaving`. -/
inductive Status (C P R : Type u) where
  | idle
  | waiting (call : C)
  | inside (call : C) (point : P)
  | leaving (call : C) (result : R)
  | released (result : R)

/-- The call for which the thread holds the lock. -/
def Status.holds : Status C P R → Option C
  | inside call _ => some call
  | leaving call _ => some call
  | _ => none

@[simp] theorem holds_idle : (Status.idle : Status C P R).holds = none := rfl

@[simp] theorem holds_inside (call : C) (p : P) :
    (Status.inside call p : Status C P R).holds = some call := rfl

@[simp] theorem holds_released (r : R) : (Status.released r : Status C P R).holds = none := rfl

inductive Event (T C R : Type u) where
  | invoked (thread : T) (call : C)
  | returned (thread : T) (result : R)

def Event.isInvocation : Event T C R → Bool
  | invoked _ _ => true
  | returned _ _ => false

/-- `readers` and `writer` are the threads that hold the lock in either mode. -/
structure Machine (T S C P R : Type u) where
  state : S
  readers : Finset T
  writer : Option T
  status : T → Status C P R

def start (s : S) : Machine T S C P R := ⟨s, ∅, none, fun _ => .idle⟩

variable [DecidableEq T]

/-- Nothing but the lock and the calls' own statements orders the threads. -/
inductive Step (o : Object S C P R) (m : Machine T S C P R) :
    Option (Event T C R) → Machine T S C P R → Prop where
  | invoke {t : T} (call : C) (h : m.status t = .idle) :
      Step o m (some (.invoked t call))
        { m with status := Function.update m.status t (.waiting call) }
  | lockShared {t : T} {call : C} (h : m.status t = .waiting call) (hshared : o.shared call = true)
      (hwriter : m.writer = none) :
      Step o m none { m with
        readers := insert t m.readers
        status := Function.update m.status t (.inside call (o.enter call)) }
  | lock {t : T} {call : C} (h : m.status t = .waiting call) (hshared : o.shared call = false)
      (hwriter : m.writer = none) (hreaders : m.readers = ∅) :
      Step o m none { m with
        writer := some t
        status := Function.update m.status t (.inside call (o.enter call)) }
  | exec {t : T} {call : C} {p p' : P} {s : S} (h : m.status t = .inside call p)
      (hexec : o.exec m.state p = some (s, .inl p')) :
      Step o m none { m with
        state := s
        status := Function.update m.status t (.inside call p') }
  | finish {t : T} {call : C} {p : P} {r : R} {s : S} (h : m.status t = .inside call p)
      (hexec : o.exec m.state p = some (s, .inr r)) :
      Step o m none { m with
        state := s
        status := Function.update m.status t (.leaving call r) }
  | unlockShared {t : T} {call : C} {r : R} (h : m.status t = .leaving call r)
      (hshared : o.shared call = true) :
      Step o m none { m with
        readers := m.readers.erase t
        status := Function.update m.status t (.released r) }
  | unlock {t : T} {call : C} {r : R} (h : m.status t = .leaving call r)
      (hshared : o.shared call = false) :
      Step o m none { m with
        writer := none
        status := Function.update m.status t (.released r) }
  | respond {t : T} {r : R} (h : m.status t = .released r) :
      Step o m (some (.returned t r)) { m with status := Function.update m.status t .idle }

/-! ## The object whose calls take one step -/

/-- What can be seen of a thread's call. -/
inductive Pending (C R : Type u) where
  | idle
  | asked (call : C)
  | answered (result : R)

structure Atomic (T A C R : Type u) where
  state : A
  status : T → Pending C R

def Atomic.start (a : A) : Atomic T A C R := ⟨a, fun _ => .idle⟩

/-- A call takes effect, all of it, at some moment between its invocation and its return. -/
inductive AtomicStep (meaning : C → A → R × A) (m : Atomic T A C R) :
    Option (Event T C R) → Atomic T A C R → Prop where
  | invoke {t : T} (call : C) (h : m.status t = .idle) :
      AtomicStep meaning m (some (.invoked t call))
        { m with status := Function.update m.status t (.asked call) }
  | perform {t : T} {call : C} (h : m.status t = .asked call) :
      AtomicStep meaning m none
        ⟨(meaning call m.state).2,
          Function.update m.status t (.answered (meaning call m.state).1)⟩
  | respond {t : T} {r : R} (h : m.status t = .answered r) :
      AtomicStep meaning m (some (.returned t r))
        { m with status := Function.update m.status t .idle }

def Status.pending : Status C P R → Pending C R
  | idle => .idle
  | waiting call => .asked call
  | inside call _ => .asked call
  | leaving _ result => .answered result
  | released result => .answered result

/-! ## Mutual exclusion -/

/-- The lock is held by the threads whose status says so, and in the mode of their calls. -/
structure Locked (o : Object S C P R) (m : Machine T S C P R) : Prop where
  readers : ∀ t, t ∈ m.readers ↔ ∃ call, (m.status t).holds = some call ∧ o.shared call = true
  writer : ∀ t, m.writer = some t ↔ ∃ call, (m.status t).holds = some call ∧ o.shared call = false
  apart : m.writer ≠ none → m.readers = ∅

variable {o : Object S C P R} {m m' : Machine T S C P R}

omit [DecidableEq T] in
theorem locked_start (s : S) : Locked o (start s : Machine T S C P R) where
  readers t := by simp [start]
  writer t := by simp [start]
  apart h := absurd rfl h

omit [DecidableEq T] in
/-- Two threads inside at once are both there to read. -/
theorem Locked.exclusive (h : Locked o m) {t t' : T} {call call' : C}
    (ht : (m.status t).holds = some call) (ht' : (m.status t').holds = some call')
    (hne : t ≠ t') : o.shared call = true := by
  by_contra hcall
  have hwriter := (h.writer t).mpr ⟨call, ht, by simpa using hcall⟩
  cases hcall' : o.shared call' with
  | true =>
    have hreader := (h.readers t').mpr ⟨call', ht', hcall'⟩
    rw [h.apart (by simp [hwriter])] at hreader
    cases hreader
  | false =>
    have hwriter' := (h.writer t').mpr ⟨call', ht', hcall'⟩
    rw [hwriter] at hwriter'
    exact hne (Option.some.inj hwriter')

/-- A change of status that keeps the hold on the lock. -/
theorem Locked.update (h : Locked o m) (s : S) {t : T} {status : Status C P R}
    (hholds : status.holds = (m.status t).holds) :
    Locked o { m with state := s, status := Function.update m.status t status } := by
  have hsame : ∀ t', (Function.update m.status t status t').holds = (m.status t').holds := by
    intro t'
    by_cases ht' : t' = t
    · subst ht'
      rw [Function.update_self, hholds]
    · rw [Function.update_of_ne ht']
  refine ⟨?_, ?_, h.apart⟩
  · intro t'
    rw [hsame]
    exact h.readers t'
  · intro t'
    rw [hsame]
    exact h.writer t'

theorem holds_update {status : Status C P R} (m : Machine T S C P R) (t t' : T) :
    (Function.update m.status t status t').holds =
      if t' = t then status.holds else (m.status t').holds := by
  by_cases ht' : t' = t
  · subst ht'
    rw [Function.update_self, if_pos rfl]
  · rw [Function.update_of_ne ht', if_neg ht']

theorem Locked.lockShared (h : Locked o m) {t : T} {call : C} {p : P}
    (hshared : o.shared call = true) (hwait : (m.status t).holds = none)
    (hwriter : m.writer = none) :
    Locked o { m with
      readers := insert t m.readers
      status := Function.update m.status t (.inside call p) } := by
  refine ⟨?_, ?_, fun hsome => absurd hwriter hsome⟩
  · intro t'
    rw [Finset.mem_insert, h.readers t', holds_update]
    by_cases ht' : t' = t
    · simp [ht', hshared]
    · simp [ht']
  · intro t'
    rw [h.writer t', holds_update]
    by_cases ht' : t' = t
    · simp [ht', hshared, hwait]
    · simp [ht']

theorem Locked.lock (h : Locked o m) {t : T} {call : C} {p : P} (hshared : o.shared call = false)
    (hwait : (m.status t).holds = none) (hwriter : m.writer = none) (hreaders : m.readers = ∅) :
    Locked o { m with
      writer := some t
      status := Function.update m.status t (.inside call p) } := by
  refine ⟨?_, ?_, fun _ => hreaders⟩
  · intro t'
    rw [h.readers t', holds_update]
    by_cases ht' : t' = t
    · simp [ht', hshared, hwait]
    · simp [ht']
  · intro t'
    have hnone : ¬ m.writer = some t' := by simp [hwriter]
    rw [holds_update]
    by_cases ht' : t' = t
    · simp [ht', hshared]
    · rw [if_neg ht', ← h.writer t']
      simp [hwriter, Ne.symm ht']

theorem Locked.unlockShared (h : Locked o m) {t : T} {call : C} {r : R}
    (hstatus : m.status t = .leaving call r) (hshared : o.shared call = true) :
    Locked o { m with
      readers := m.readers.erase t
      status := Function.update m.status t (.released r) } := by
  have hholds : (m.status t).holds = some call := by rw [hstatus]; rfl
  refine ⟨?_, ?_, ?_⟩
  · intro t'
    rw [Finset.mem_erase, h.readers t', holds_update]
    by_cases ht' : t' = t
    · simp [ht']
    · simp [ht']
  · intro t'
    rw [h.writer t', holds_update]
    by_cases ht' : t' = t
    · simp [ht', hholds, hshared]
    · simp [ht']
  · intro hwriter
    rw [h.apart hwriter, Finset.erase_empty]

theorem Locked.unlock (h : Locked o m) {t : T} {call : C} {r : R}
    (hstatus : m.status t = .leaving call r) (hshared : o.shared call = false) :
    Locked o { m with
      writer := none
      status := Function.update m.status t (.released r) } := by
  have hholds : (m.status t).holds = some call := by rw [hstatus]; rfl
  have hwriter : m.writer = some t := (h.writer t).mpr ⟨call, hholds, hshared⟩
  refine ⟨?_, ?_, fun hsome => absurd rfl hsome⟩
  · intro t'
    rw [h.readers t', holds_update]
    by_cases ht' : t' = t
    · simp [ht', hholds, hshared]
    · simp [ht']
  · intro t'
    rw [holds_update]
    by_cases ht' : t' = t
    · simp [ht']
    · rw [if_neg ht', ← h.writer t', hwriter]
      simp [Ne.symm ht']

/-! ## Every schedule looks atomic -/

/-- The atomic object has performed the calls that have finished. A call that is inside has gone
as far as it would have gone alone, starting from there. -/
structure Refines (o : Object S C P R) (embed : A → S) (m : Machine T S C P R)
    (a : Atomic T A C R) : Prop where
  locked : Locked o m
  status : ∀ t, a.status t = (m.status t).pending
  inside : ∀ t call p, m.status t = .inside call p → o.Progress (embed a.state) call m.state p
  rest : (∀ t call p, m.status t = .inside call p → o.shared call = true) →
    m.state = embed a.state

variable {embed : A → S} {meaning : C → A → R × A} {a : Atomic T A C R}

omit [DecidableEq T] in
theorem refines_start (a : A) :
    Refines o embed (start (embed a) : Machine T S C P R) (Atomic.start a) where
  locked := locked_start _
  status _ := rfl
  inside _ _ _ h := by cases h
  rest _ := rfl

theorem pending_update (h : ∀ t, a.status t = (m.status t).pending) (t : T)
    (status : Status C P R) (t' : T) :
    Function.update a.status t status.pending t' =
      (Function.update m.status t status t').pending := by
  by_cases ht' : t' = t
  · subst ht'
    rw [Function.update_self, Function.update_self]
  · rw [Function.update_of_ne ht', Function.update_of_ne ht']
    exact h t'

theorem pending_update_of_eq (h : ∀ t, a.status t = (m.status t).pending) {t : T}
    {status : Status C P R} (hsame : status.pending = (m.status t).pending) (t' : T) :
    a.status t' = (Function.update m.status t status t').pending := by
  rw [← pending_update h, hsame, ← h t, Function.update_eq_self]

/-- Another thread inside than the one whose status changes. -/
theorem inside_of_update {t t' : T} {status : Status C P R} {call : C} {p : P} (hne : t' ≠ t)
    (h : Function.update m.status t status t' = .inside call p) :
    m.status t' = .inside call p := by
  rwa [Function.update_of_ne hne] at h

namespace Refines

omit [DecidableEq T] in
/-- Nobody inside can write while no writer holds the lock. -/
theorem state_of_free (h : Refines o embed m a) (hwriter : m.writer = none) :
    m.state = embed a.state := by
  refine h.rest ?_
  intro t call p ht
  by_contra hcall
  have hholds := (h.locked.writer t).mpr ⟨call, by rw [ht]; rfl, by simpa using hcall⟩
  rw [hwriter] at hholds
  cases hholds

/-- A step of a thread outside, which keeps what is to be seen of it. -/
theorem outside (h : Refines o embed m a) {t : T} {status : Status C P R} {m' : Machine T S C P R}
    {b : Atomic T A C R} (hlocked : Locked o m') (hstate : m'.state = m.state)
    (hb : b.state = a.state) (hstatus : m'.status = Function.update m.status t status)
    (hpending : ∀ t', b.status t' = (m'.status t').pending)
    (hold : ∀ call p, m.status t ≠ .inside call p) (hnew : ∀ call p, status ≠ .inside call p) :
    Refines o embed m' b := by
  have hother : ∀ t' call p, m'.status t' = .inside call p → m.status t' = .inside call p := by
    intro t' call p ht'
    rw [hstatus] at ht'
    refine inside_of_update ?_ ht'
    intro heq
    subst heq
    rw [Function.update_self] at ht'
    exact hnew call p ht'
  refine ⟨hlocked, hpending, ?_, ?_⟩
  · intro t' call p ht'
    rw [hstate, hb]
    exact h.inside t' call p (hother t' call p ht')
  · intro hall
    rw [hstate, hb]
    refine h.rest ?_
    intro t' call p ht'
    refine hall t' call p ?_
    rw [hstatus, Function.update_of_ne]
    · exact ht'
    · intro heq
      subst heq
      exact hold call p ht'

theorem enter (h : Refines o embed m a) {t : T} {call : C} {m' : Machine T S C P R}
    (hwait : m.status t = .waiting call) (hlocked : Locked o m') (hstate : m'.state = m.state)
    (hfree : m.writer = none)
    (hstatus : m'.status = Function.update m.status t (.inside call (o.enter call))) :
    Refines o embed m' a := by
  have hrest := h.state_of_free hfree
  refine ⟨hlocked, ?_, ?_, fun _ => hstate.trans hrest⟩
  · rw [hstatus]
    exact pending_update_of_eq h.status (by rw [hwait]; rfl)
  · intro t' call' p ht'
    rw [hstate]
    by_cases hne : t' = t
    · subst hne
      rw [hstatus, Function.update_self] at ht'
      cases ht'
      rw [hrest]
      exact .enter
    · rw [hstatus] at ht'
      exact h.inside t' call' p (inside_of_update hne ht')

omit [DecidableEq T] in
/-- While a call that writes is inside no other call is; a call that reads leaves the state as
the others know it. -/
theorem others (h : Refines o embed m a) {t t' : T} {call call' : C} {p p' : P} {s : S}
    {next : P ⊕ R} (ht : m.status t = .inside call p) (hexec : o.exec m.state p = some (s, next))
    (ht' : m.status t' = .inside call' p') (hne : t' ≠ t) :
    s = m.state ∧ s = embed a.state := by
  have hshared : o.shared call = true :=
    h.locked.exclusive (by rw [ht]; rfl) (by rw [ht']; rfl) (Ne.symm hne)
  obtain ⟨hstate, hreading⟩ := (h.inside t call p ht).reading hshared
  obtain ⟨rfl, _⟩ := o.reading_exec hreading hexec
  exact ⟨rfl, hstate⟩

theorem exec (h : Refines o embed m a) {t : T} {call : C} {p p' : P} {s : S}
    (ht : m.status t = .inside call p) (hexec : o.exec m.state p = some (s, .inl p')) :
    Refines o embed
      { m with state := s, status := Function.update m.status t (.inside call p') } a := by
  refine ⟨h.locked.update s (by rw [ht]; rfl), ?_, ?_, ?_⟩
  · exact pending_update_of_eq h.status (by rw [ht]; rfl)
  · intro t' call' q ht'
    dsimp only at ht' ⊢
    by_cases hne : t' = t
    · subst hne
      rw [Function.update_self] at ht'
      cases ht'
      exact (h.inside t' call p ht).exec hexec
    · have hinside := inside_of_update hne ht'
      rw [(h.others ht hexec hinside hne).1]
      exact h.inside t' call' q hinside
  · intro hall
    have hshared : o.shared call = true := hall t call p' (Function.update_self t _ m.status)
    obtain ⟨hstate, hreading⟩ := (h.inside t call p ht).reading hshared
    exact (o.reading_exec hreading hexec).1.trans hstate

/-- A call that returns has done what it means. -/
theorem finish (h : Refines o embed m a) (himpl : o.Implements embed meaning) {t : T} {call : C}
    {p : P} {r : R} {s : S} (ht : m.status t = .inside call p)
    (hexec : o.exec m.state p = some (s, .inr r)) :
    Refines o embed
      { m with state := s, status := Function.update m.status t (.leaving call r) }
      ⟨(meaning call a.state).2,
        Function.update a.status t (.answered (meaning call a.state).1)⟩ := by
  obtain ⟨n, hall⟩ := himpl call a.state
  obtain ⟨k, htakes⟩ := (h.inside t call p ht).takes hall
  obtain ⟨rfl, rfl⟩ := htakes.of_last hexec
  refine ⟨h.locked.update _ (by rw [ht]; rfl),
    pending_update h.status t (.leaving call (meaning call a.state).1), ?_, fun _ => rfl⟩
  intro t' call' q ht'
  dsimp only at ht' ⊢
  have hne : t' ≠ t := by
    intro heq
    subst heq
    rw [Function.update_self] at ht'
    cases ht'
  have hinside := inside_of_update hne ht'
  obtain ⟨hstate, hembed⟩ := h.others ht hexec hinside hne
  have hprogress := h.inside t' call' q hinside
  rw [← hembed, ← hstate] at hprogress
  exact hprogress

end Refines

/-- Whatever the schedule, the object shows what the atomic one can show. -/
theorem simulation (himpl : o.Implements embed meaning) :
    Simulation (Step (T := T) o) (AtomicStep meaning) (Refines o embed) where
  internal := by
    intro m m' a h hstep
    cases hstep with
    | @lockShared t call hstatus hshared hwriter =>
      have hwait : (m.status t).holds = none := by rw [hstatus]; rfl
      exact ⟨a, .refl, h.enter hstatus (h.locked.lockShared hshared hwait hwriter) rfl hwriter rfl⟩
    | @lock t call hstatus hshared hwriter hreaders =>
      have hwait : (m.status t).holds = none := by rw [hstatus]; rfl
      exact ⟨a, .refl,
        h.enter hstatus (h.locked.lock hshared hwait hwriter hreaders) rfl hwriter rfl⟩
    | exec hstatus hexec => exact ⟨a, .refl, h.exec hstatus hexec⟩
    | @finish t call p r s hstatus hexec =>
      have hasked : a.status t = .asked call := by rw [h.status, hstatus]; rfl
      exact ⟨_, .internal .refl (.perform hasked), h.finish himpl hstatus hexec⟩
    | @unlockShared t call r hstatus hshared =>
      refine ⟨a, .refl, ?_⟩
      refine h.outside (h.locked.unlockShared hstatus hshared) rfl rfl rfl ?_ ?_ ?_
      · exact pending_update_of_eq h.status (by rw [hstatus]; rfl)
      · simp [hstatus]
      · simp
    | @unlock t call r hstatus hshared =>
      refine ⟨a, .refl, ?_⟩
      refine h.outside (h.locked.unlock hstatus hshared) rfl rfl rfl ?_ ?_ ?_
      · exact pending_update_of_eq h.status (by rw [hstatus]; rfl)
      · simp [hstatus]
      · simp
  visible := by
    intro m m' a e h hstep
    cases hstep with
    | @invoke t call hstatus =>
      have hidle : a.status t = .idle := by rw [h.status, hstatus]; rfl
      refine ⟨_, .single (.invoke call hidle), ?_⟩
      refine h.outside (h.locked.update m.state (by rw [hstatus]; rfl)) rfl rfl rfl
        (pending_update h.status t (.waiting call)) ?_ ?_
      · simp [hstatus]
      · simp
    | @respond t r hstatus =>
      have hanswered : a.status t = .answered r := by rw [h.status, hstatus]; rfl
      refine ⟨_, .single (.respond hanswered), ?_⟩
      refine h.outside (h.locked.update m.state (by rw [hstatus]; rfl)) rfl rfl rfl
        (pending_update h.status t .idle) ?_ ?_
      · simp [hstatus]
      · simp

theorem refines_run (himpl : o.Implements embed meaning) {s : A} {es : List (Event T C R)}
    (hrun : Run (Step o) (start (embed s)) es m) :
    ∃ a, Run (AtomicStep meaning) (Atomic.start s) es a ∧ Refines o embed m a :=
  (simulation himpl).run hrun (refines_start s)

/-! ## Every call returns -/

/-- A step other than a new invocation. -/
def Moves (o : Object S C P R) (m m' : Machine T S C P R) : Prop :=
  ∃ e, Step o m e m' ∧ ∀ event, e = some event → event.isInvocation = false

theorem Refines.moves (h : Refines o embed m a) (himpl : o.Implements embed meaning)
    (hmoves : Moves o m m') : ∃ b : Atomic T A C R, Refines o embed m' b := by
  obtain ⟨e, hstep, _⟩ := hmoves
  cases e with
  | none =>
    obtain ⟨b, _, hb⟩ := (simulation himpl).internal h hstep
    exact ⟨b, hb⟩
  | some event =>
    obtain ⟨b, _, hb⟩ := (simulation himpl).visible h hstep
    exact ⟨b, hb⟩

/-- A thread that holds the lock can go on. -/
theorem Refines.moves_of_holds (h : Refines o embed m a) (himpl : o.Implements embed meaning)
    {t : T} {call : C} (ht : (m.status t).holds = some call) : ∃ m', Moves o m m' := by
  cases hstatus : m.status t with
  | inside call' p =>
    obtain ⟨n, hall⟩ := himpl call' a.state
    obtain ⟨k, htakes⟩ := (h.inside t call' p hstatus).takes hall
    obtain ⟨s, next, hexec⟩ := htakes.runs
    cases next with
    | inl p' => exact ⟨_, none, .exec hstatus hexec, by simp⟩
    | inr r => exact ⟨_, none, .finish hstatus hexec, by simp⟩
  | leaving call' r =>
    cases hshared : o.shared call' with
    | true => exact ⟨_, none, .unlockShared hstatus hshared, by simp⟩
    | false => exact ⟨_, none, .unlock hstatus hshared, by simp⟩
  | _ =>
    rw [hstatus] at ht
    cases ht

/-- As long as a call is under way some thread can go on: there is no deadlock. -/
theorem Refines.moves_of_busy (h : Refines o embed m a) (himpl : o.Implements embed meaning)
    {t : T} (ht : m.status t ≠ .idle) : ∃ m', Moves o m m' := by
  by_cases hheld : ∃ u call, (m.status u).holds = some call
  · obtain ⟨u, call, hu⟩ := hheld
    exact h.moves_of_holds himpl hu
  · have hnone : ∀ u call, (m.status u).holds ≠ some call :=
      fun u call hu => hheld ⟨u, call, hu⟩
    have hwriter : m.writer = none := by
      rw [Option.eq_none_iff_forall_ne_some]
      intro u hu
      obtain ⟨call, hcall, _⟩ := (h.locked.writer u).mp hu
      exact hnone u call hcall
    have hreaders : m.readers = ∅ := by
      rw [Finset.eq_empty_iff_forall_notMem]
      intro u hu
      obtain ⟨call, hcall, _⟩ := (h.locked.readers u).mp hu
      exact hnone u call hcall
    cases hstatus : m.status t with
    | idle => exact absurd hstatus ht
    | waiting call =>
      cases hshared : o.shared call with
      | true => exact ⟨_, none, .lockShared hstatus hshared hwriter, by simp⟩
      | false => exact ⟨_, none, .lock hstatus hshared hwriter hreaders, by simp⟩
    | inside call p => exact absurd (by rw [hstatus]; rfl) (hnone t call)
    | leaving call r => exact absurd (by rw [hstatus]; rfl) (hnone t call)
    | released r =>
      refine ⟨_, some (.returned t r), .respond hstatus, ?_⟩
      intro event hevent
      cases hevent
      rfl

section Counting
variable [Fintype T]

/-- What is left for a thread to do once it has the lock. -/
noncomputable def work (o : Object S C P R) (s : S) : Status C P R → Nat
  | .idle => 0
  | .waiting _ => 0
  | .inside _ p => o.left s p + 2
  | .leaving _ _ => 2
  | .released _ => 1

def awaits : Status C P R → Nat
  | .waiting _ => 1
  | _ => 0

/-- The threads that wait for the lock, and what the others have left to do. -/
noncomputable def remaining (o : Object S C P R) (m : Machine T S C P R) : Nat × Nat :=
  (∑ t, awaits (m.status t), ∑ t, work o m.state (m.status t))

omit [DecidableEq T] in
theorem sum_lt_of_one {f g : T → Nat} (t : T) (hother : ∀ t', t' ≠ t → f t' = g t')
    (hlt : f t < g t) : ∑ t', f t' < ∑ t', g t' := by
  refine Finset.sum_lt_sum ?_ ⟨t, Finset.mem_univ t, hlt⟩
  intro t' _
  by_cases ht' : t' = t
  · subst ht'
    exact Nat.le_of_lt hlt
  · exact Nat.le_of_eq (hother t' ht')

/-- A thread that gets the lock waits no longer. -/
theorem remaining_of_enter {t : T} {call : C} {status : Status C P R}
    (ht : m.status t = .waiting call) (hstatus : awaits status = 0)
    (hm' : m'.status = Function.update m.status t status) :
    Prod.Lex (· < ·) (· < ·) (remaining o m') (remaining o m) := by
  refine Prod.Lex.left _ _ (sum_lt_of_one t ?_ ?_)
  · intro t' ht'
    rw [hm', Function.update_of_ne ht']
  · rw [hm', Function.update_self, hstatus, ht]
    exact Nat.one_pos

/-- Any other step leaves one thread with less to do, and the others with the same. -/
theorem remaining_of_work {t : T} {status : Status C P R} (hold : awaits (m.status t) = 0)
    (hnew : awaits status = 0) (hm' : m'.status = Function.update m.status t status)
    (hother : ∀ t', t' ≠ t → work o m'.state (m.status t') = work o m.state (m.status t'))
    (hlt : work o m'.state status < work o m.state (m.status t)) :
    Prod.Lex (· < ·) (· < ·) (remaining o m') (remaining o m) := by
  have hawaits : ∑ t', awaits (m'.status t') = ∑ t', awaits (m.status t') := by
    refine Finset.sum_congr rfl ?_
    intro t' _
    rw [hm']
    by_cases ht' : t' = t
    · subst ht'
      rw [Function.update_self, hnew, hold]
    · rw [Function.update_of_ne ht']
  rw [remaining, remaining, hawaits]
  refine Prod.Lex.right _ (sum_lt_of_one t ?_ ?_)
  · intro t' ht'
    rw [hm', Function.update_of_ne ht']
    exact hother t' ht'
  · rw [hm', Function.update_self]
    exact hlt

omit [DecidableEq T] [Fintype T] in
/-- A statement of one thread does not lengthen what another one has left to do. -/
theorem Refines.work_others (h : Refines o embed m a) {t t' : T} {call : C} {p : P} {s : S}
    {next : P ⊕ R} (ht : m.status t = .inside call p) (hexec : o.exec m.state p = some (s, next))
    (hne : t' ≠ t) : work o s (m.status t') = work o m.state (m.status t') := by
  cases ht' : m.status t' with
  | inside call' p' => rw [(h.others ht hexec ht' hne).1]
  | _ => rfl

theorem Refines.remaining_lt (h : Refines o embed m a) (himpl : o.Implements embed meaning)
    (hmoves : Moves o m m') : Prod.Lex (· < ·) (· < ·) (remaining o m') (remaining o m) := by
  obtain ⟨e, hstep, he⟩ := hmoves
  cases hstep with
  | @invoke t call hstatus =>
    have hinvocation := he _ rfl
    cases hinvocation
  | lockShared hstatus hshared hwriter => exact remaining_of_enter hstatus rfl rfl
  | lock hstatus hshared hwriter hreaders => exact remaining_of_enter hstatus rfl rfl
  | @exec t call p p' s hstatus hexec =>
    obtain ⟨n, hall⟩ := himpl call a.state
    obtain ⟨k, htakes⟩ := (h.inside t call p hstatus).takes hall
    obtain ⟨j, rfl, hlater⟩ := htakes.of_exec hexec
    refine remaining_of_work (by rw [hstatus]; rfl) rfl rfl
      (fun t' ht' => h.work_others hstatus hexec ht') ?_
    rw [hstatus, work, work, hlater.left_eq, htakes.left_eq]
    omega
  | @finish t call p r s hstatus hexec =>
    obtain ⟨n, hall⟩ := himpl call a.state
    obtain ⟨k, htakes⟩ := (h.inside t call p hstatus).takes hall
    have hpos : 0 < k := by
      cases htakes <;> omega
    refine remaining_of_work (by rw [hstatus]; rfl) rfl rfl
      (fun t' ht' => h.work_others hstatus hexec ht') ?_
    rw [hstatus, work, work, htakes.left_eq]
    omega
  | unlockShared hstatus hshared =>
    refine remaining_of_work (by rw [hstatus]; rfl) rfl rfl (fun _ _ => rfl) ?_
    rw [hstatus, work, work]
    omega
  | unlock hstatus hshared =>
    refine remaining_of_work (by rw [hstatus]; rfl) rfl rfl (fun _ _ => rfl) ?_
    rw [hstatus, work, work]
    omega
  | respond hstatus =>
    refine remaining_of_work (by rw [hstatus]; rfl) rfl rfl (fun _ _ => rfl) ?_
    rw [hstatus, work, work]
    omega

/-- Without new invocations the machine comes to rest, whatever the schedule. -/
theorem Refines.acc (h : Refines o embed m a) (himpl : o.Implements embed meaning) :
    Acc (fun m₂ m₁ => Moves o m₁ m₂) m := by
  have hwf : WellFounded fun m₂ m₁ : Machine T S C P R =>
      Prod.Lex (· < ·) (· < ·) (remaining o m₂) (remaining o m₁) :=
    InvImage.wf (remaining o) (WellFounded.prod_lex Nat.lt_wfRel.wf Nat.lt_wfRel.wf)
  induction m using hwf.induction generalizing a with
  | _ m ih =>
    refine .intro m ?_
    intro m' hmoves
    obtain ⟨b, hb⟩ := h.moves himpl hmoves
    exact ih m' (h.remaining_lt himpl hmoves) hb

end Counting

end SharedLock
