import Mathlib.Logic.Function.Basic
import Mathlib.Data.List.Basic

/-!
# Keyed ledgers and the histories that build them

A ledger is a partial map from keys to entries. A history of put, move, drop and wipe
actions can be read in two ways: `replay` performs a move only when the entry to be moved
is alive, `summary` ignores puts that are not worth keeping and performs every move.
The results here are about `replay`, and about replaying the same history later, when less is
alive.
-/

namespace Ledger
set_option autoImplicit false

universe u v w
variable {K : Type u} {E : Type v} {E' : Type w}

abbrev Map (K : Type u) (E : Type v) := K → Option E

inductive Action (K : Type u) (E : Type v) where
  | put (k : K) (e : E)
  | move (a b : K)
  | drop (k : K)
  | wipe

namespace Action

def map (f : E → E') : Action K E → Action K E'
  | put k e => put k (f e)
  | move a b => move a b
  | drop k => drop k
  | wipe => wipe

def isMove : Action K E → Bool
  | move _ _ => true
  | _ => false

/-- A move of a key onto itself. -/
def isIdle [DecidableEq K] : Action K E → Bool
  | move a b => a = b
  | _ => false

end Action

/-! ## What is alive in a ledger -/

def visible (alive : E → Bool) (m : Map K E) : Map K E := fun k => (m k).filter alive

theorem visible_eq_some_iff {alive : E → Bool} {m : Map K E} {k : K} {e : E} :
    visible alive m k = some e ↔ m k = some e ∧ alive e = true := by
  simp [visible, Option.filter_eq_some_iff]

/-- What is alive later is found among what is alive now. -/
theorem visible_visible {early late : E → Bool} (hlate : ∀ e, late e = true → early e = true)
    (m : Map K E) : visible late (visible early m) = visible late m := by
  funext k
  unfold visible
  cases m k with
  | none => rfl
  | some e =>
    cases he : early e with
    | true => simp [Option.filter, he]
    | false =>
      have hl : late e = false := by
        cases hl : late e with
        | false => rfl
        | true => rw [hlate e hl] at he; cases he
      simp [Option.filter, he, hl]

/-! ## Actions -/

variable [DecidableEq K]

def put (m : Map K E) (k : K) (e : E) : Map K E := Function.update m k (some e)

def drop (m : Map K E) (k : K) : Map K E := Function.update m k none

/-- Copies, then erases the source: a move of a key onto itself loses its entry. -/
def relocate (m : Map K E) (a b : K) : Map K E :=
  match m a with
  | none => m
  | some e => drop (put m b e) a

/-- Erases the source, then inserts: a move of a key onto itself changes nothing. -/
def carry (m : Map K E) (a b : K) : Map K E :=
  match m a with
  | none => m
  | some e => put (drop m a) b e

@[simp] theorem put_apply (m : Map K E) (k x : K) (e : E) :
    put m k e x = if x = k then some e else m x := by
  simp [put, Function.update_apply]

@[simp] theorem drop_apply (m : Map K E) (k x : K) :
    drop m k x = if x = k then none else m x := by
  simp [drop, Function.update_apply]

theorem relocate_of_none {m : Map K E} {a : K} (b : K) (h : m a = none) :
    relocate m a b = m := by
  simp [relocate, h]

theorem relocate_apply {m : Map K E} {a b : K} {e : E} (h : m a = some e) (x : K) :
    relocate m a b x = if x = a then none else if x = b then some e else m x := by
  simp [relocate, h]

theorem carry_of_none {m : Map K E} {a : K} (b : K) (h : m a = none) : carry m a b = m := by
  simp [carry, h]

theorem carry_apply {m : Map K E} {a b : K} {e : E} (h : m a = some e) (x : K) :
    carry m a b x = if x = b then some e else if x = a then none else m x := by
  simp [carry, h]

@[simp] theorem carry_self (m : Map K E) (a : K) : carry m a a = m := by
  cases h : m a with
  | none => exact carry_of_none a h
  | some e =>
    funext x
    rw [carry_apply h]
    by_cases hx : x = a
    · simp [hx, h]
    · simp [hx]

theorem carry_eq_relocate (m : Map K E) {a b : K} (hab : a ≠ b) :
    carry m a b = relocate m a b := by
  cases h : m a with
  | none => rw [carry_of_none b h, relocate_of_none b h]
  | some e =>
    funext x
    rw [carry_apply h, relocate_apply h]
    by_cases hx : x = a
    · simp [hx, hab]
    · simp [hx]

/-- One action of a replay; an entry that is not alive is not moved. -/
def replayStep (alive : E → Bool) (m : Map K E) : Action K E → Map K E
  | .put k e => put m k e
  | .move a b => if (m a).any alive then relocate m a b else m
  | .drop k => drop m k
  | .wipe => fun _ => none

theorem replayStep_move_of_alive {alive : E → Bool} {m : Map K E} {a : K} {e : E} (b : K)
    (ha : m a = some e) (halive : alive e = true) :
    replayStep alive m (.move a b) = relocate m a b := by
  simp [replayStep, ha, halive]

theorem replayStep_move_of_dead {alive : E → Bool} {m : Map K E} {a : K} (b : K)
    (hdead : ∀ e, m a = some e → alive e = false) : replayStep alive m (.move a b) = m := by
  cases ha : m a with
  | none => simp [replayStep, ha]
  | some e => simp [replayStep, ha, hdead e ha]

/-- Where everything is alive every move is performed. -/
theorem replayStep_move_all (m : Map K E) (a b : K) :
    replayStep (fun _ => true) m (.move a b) = relocate m a b := by
  cases ha : m a with
  | none => simp [replayStep, relocate, ha]
  | some e => exact replayStep_move_of_alive b ha rfl

/-- One action of a summary; an entry not worth keeping is never put. -/
def summaryStep (keep : E → Bool) (m : Map K E) : Action K E → Map K E
  | .put k e => if keep e then put m k e else m
  | .move a b => carry m a b
  | .drop k => drop m k
  | .wipe => fun _ => none

/-- An action finds something to act on. -/
def Effective (alive : E → Bool) (m : Map K E) : Action K E → Prop
  | .put _ _ => True
  | .move a _ => (m a).any alive = true
  | .drop k => (m k).isSome = true
  | .wipe => ∃ k, (m k).isSome = true

theorem replayStep_of_idle {alive : E → Bool} {m : Map K E} {act : Action K E}
    (h : ¬Effective alive m act) : replayStep alive m act = m := by
  cases act with
  | put k e => exact absurd trivial h
  | move a b => exact if_neg h
  | drop k =>
    funext x
    rw [replayStep, drop_apply]
    split
    · rename_i hx
      rw [hx]
      exact (Option.not_isSome_iff_eq_none.mp h).symm
    · rfl
  | wipe =>
    funext x
    exact (Option.not_isSome_iff_eq_none.mp fun hx => h ⟨x, hx⟩).symm

def replay (alive : E → Bool) (m : Map K E) (acts : List (Action K E)) : Map K E :=
  acts.foldl (replayStep alive) m

def summary (keep : E → Bool) (m : Map K E) (acts : List (Action K E)) : Map K E :=
  acts.foldl (summaryStep keep) m

@[simp] theorem replay_nil (alive : E → Bool) (m : Map K E) : replay alive m [] = m := rfl

@[simp] theorem replay_cons (alive : E → Bool) (m : Map K E) (act : Action K E)
    (acts : List (Action K E)) :
    replay alive m (act :: acts) = replay alive (replayStep alive m act) acts := rfl

theorem replay_append (alive : E → Bool) (m : Map K E) (xs ys : List (Action K E)) :
    replay alive m (xs ++ ys) = replay alive (replay alive m xs) ys :=
  List.foldl_append

@[simp] theorem summary_nil (keep : E → Bool) (m : Map K E) : summary keep m [] = m := rfl

@[simp] theorem summary_cons (keep : E → Bool) (m : Map K E) (act : Action K E)
    (acts : List (Action K E)) :
    summary keep m (act :: acts) = summary keep (summaryStep keep m act) acts := rfl

theorem summary_append (keep : E → Bool) (m : Map K E) (xs ys : List (Action K E)) :
    summary keep m (xs ++ ys) = summary keep (summary keep m xs) ys :=
  List.foldl_append

/-! ## Relabelling entries -/

theorem put_map (f : E → E') (m : Map K E) (k : K) (e : E) :
    (fun x => (put m k e x).map f) = put (fun x => (m x).map f) k (f e) := by
  funext x
  by_cases hx : x = k <;> simp [hx]

theorem drop_map (f : E → E') (m : Map K E) (k : K) :
    (fun x => (drop m k x).map f) = drop (fun x => (m x).map f) k := by
  funext x
  by_cases hx : x = k <;> simp [hx]

theorem relocate_map (f : E → E') (m : Map K E) (a b : K) :
    (fun x => (relocate m a b x).map f) = relocate (fun x => (m x).map f) a b := by
  cases h : m a with
  | none => simp [relocate, h]
  | some e =>
    let m' : Map K E' := fun x => (m x).map f
    have hf : m' a = some (f e) := by simp [m', h]
    funext x
    rw [relocate_apply (m := m) h, relocate_apply (m := m') hf]
    split
    · rfl
    · split <;> rfl

theorem replayStep_map {alive : E → Bool} {alive' : E' → Bool} (f : E → E')
    (h : ∀ e, alive' (f e) = alive e) (m : Map K E) (act : Action K E) :
    (fun x => (replayStep alive m act x).map f) =
      replayStep alive' (fun x => (m x).map f) (act.map f) := by
  cases act with
  | put k e => exact put_map f m k e
  | move a b =>
    have hany : ((m a).map f).any alive' = (m a).any alive := by
      cases m a <;> simp [h]
    simp only [replayStep, Action.map, hany]
    split
    · exact relocate_map f m a b
    · rfl
  | drop k => exact drop_map f m k
  | wipe => rfl

/-- A replay only reads of an entry what decides whether it is alive. -/
theorem replay_map {alive : E → Bool} {alive' : E' → Bool} (f : E → E')
    (h : ∀ e, alive' (f e) = alive e) (m : Map K E) (acts : List (Action K E)) :
    (fun x => (replay alive m acts x).map f) =
      replay alive' (fun x => (m x).map f) (acts.map (Action.map f)) := by
  induction acts generalizing m with
  | nil => rfl
  | cons act acts ih =>
    rw [replay_cons, ih, replayStep_map f h]
    rfl

/-! ## Replaying later -/

/-- Moving the same entry keeps two ledgers that show the same alike. -/
theorem visible_relocate {alive : E → Bool} {m m' : Map K E} {a : K} {e : E} (b : K)
    (h : visible alive m = visible alive m') (ha : m a = some e) (ha' : m' a = some e) :
    visible alive (relocate m a b) = visible alive (relocate m' a b) := by
  funext x
  simp only [visible, relocate_apply ha, relocate_apply ha']
  split
  · rfl
  · split
    · rfl
    · exact congrFun h x

/-- Moving a dead entry onto one that is not alive shows nothing new. -/
theorem visible_relocate_of_dead {alive : E → Bool} {m : Map K E} {a b : K} {e : E}
    (ha : m a = some e) (hdead : alive e = false)
    (hover : a ≠ b → ∀ eb, m b = some eb → alive eb = false) :
    visible alive (relocate m a b) = visible alive m := by
  funext x
  simp only [visible, relocate_apply ha]
  split
  · rename_i hx
    simp [hx, ha, Option.filter_some_neg, hdead]
  · split
    · rename_i hxa hx
      subst hx
      cases hb : m x with
      | none => simp [Option.filter_some_neg, hdead]
      | some eb => simp [Option.filter_some_neg, hdead, hover (Ne.symm hxa) eb hb]
    · rfl

theorem visible_replayStep_move {early late : E → Bool}
    (hlate : ∀ e, late e = true → early e = true) {m m' : Map K E}
    (h : visible late m = visible late m') {a b : K}
    (hmove : ∀ ea eb, a ≠ b → m a = some ea → early ea = true → m b = some eb → late eb = true →
      late ea = true) :
    visible late (replayStep early m (.move a b)) =
      visible late (replayStep late m' (.move a b)) := by
  by_cases halive : ∃ ea, m a = some ea ∧ late ea = true
  · -- still alive: the entry is moved both times
    obtain ⟨ea, ha, hl⟩ := halive
    have hvisible : visible late m' a = some ea := by
      rw [← h]
      exact visible_eq_some_iff.mpr ⟨ha, hl⟩
    have ha' := (visible_eq_some_iff.mp hvisible).1
    rw [replayStep_move_of_alive b ha (hlate ea hl), replayStep_move_of_alive b ha' hl]
    exact visible_relocate b h ha ha'
  · rw [not_exists] at halive
    have hstay : replayStep late m' (.move a b) = m' := by
      apply replayStep_move_of_dead
      intro ea ha'
      cases hl : late ea with
      | false => rfl
      | true =>
        have hvisible : visible late m a = some ea := by
          rw [h]
          exact visible_eq_some_iff.mpr ⟨ha', hl⟩
        exact absurd (visible_eq_some_iff.mp hvisible) (halive ea)
    rw [hstay, ← h]
    by_cases hearly : ∃ ea, m a = some ea ∧ early ea = true
    · -- dead by now: what it is moved onto has to be dead as well
      obtain ⟨ea, ha, he⟩ := hearly
      have hl : ¬ late ea = true := fun hl => halive ea ⟨ha, hl⟩
      rw [replayStep_move_of_alive b ha he]
      apply visible_relocate_of_dead ha (Bool.eq_false_iff.mpr hl)
      intro hab eb hb
      apply Bool.eq_false_iff.mpr
      exact fun hlb => hl (hmove ea eb hab ha he hb hlb)
    · rw [replayStep_move_of_dead]
      intro ea ha
      exact Bool.eq_false_iff.mpr fun he => hearly ⟨ea, ha, he⟩

/-- One action replayed later shows the same later on, unless it moves an entry that has died in
between onto one that has not. -/
theorem visible_replayStep {early late : E → Bool} (hlate : ∀ e, late e = true → early e = true)
    {m m' : Map K E} (h : visible late m = visible late m') (act : Action K E)
    (hmove : ∀ a b ea eb, act = .move a b → a ≠ b → m a = some ea → early ea = true →
      m b = some eb → late eb = true → late ea = true) :
    visible late (replayStep early m act) = visible late (replayStep late m' act) := by
  cases act with
  | put k e =>
    funext x
    simp only [visible, replayStep, put_apply]
    split
    · rfl
    · exact congrFun h x
  | drop k =>
    funext x
    simp only [visible, replayStep, drop_apply]
    split
    · rfl
    · exact congrFun h x
  | wipe => rfl
  | move a b => exact visible_replayStep_move hlate h fun ea eb => hmove a b ea eb rfl

theorem isSome_relocate {p : Map K E} {a b k : K} {e : E} (ha : p a = some e) (hka : k ≠ a)
    (hor : (p k).isSome = true ∨ k = b) : (relocate p a b k).isSome = true := by
  rw [relocate_apply ha, if_neg hka]
  split
  · rfl
  · rename_i hkb
    exact hor.resolve_right hkb

theorem replayStep_move_domain {alive : E → Bool} {m p : Map K E}
    (h : ∀ k e, m k = some e → alive e = true → (p k).isSome = true) {a b k : K} {e : E}
    (hk : replayStep alive m (.move a b) k = some e) (he : alive e = true) :
    (replayStep (fun _ => true) p (.move a b) k).isSome = true := by
  by_cases halive : ∃ ea, m a = some ea ∧ alive ea = true
  · obtain ⟨ea, ha, hea⟩ := halive
    obtain ⟨ep, hp⟩ := Option.isSome_iff_exists.mp (h a ea ha hea)
    rw [replayStep_move_of_alive b ha hea, relocate_apply ha] at hk
    rw [replayStep_move_all]
    split at hk
    · cases hk
    · rename_i hka
      split at hk
      · rename_i hkb
        exact isSome_relocate hp hka (Or.inr hkb)
      · exact isSome_relocate hp hka (Or.inl (h k e hk he))
  · -- the ledger stays as it is; the other one may move an entry that is not alive here
    have hdead : ∀ ea, m a = some ea → alive ea = false :=
      fun ea ha => Bool.eq_false_iff.mpr fun hea => halive ⟨ea, ha, hea⟩
    rw [replayStep_move_of_dead b hdead] at hk
    have hka : k ≠ a := by
      intro hka
      rw [hka] at hk
      exact halive ⟨e, hk, he⟩
    rw [replayStep_move_all]
    cases hp : p a with
    | none =>
      rw [relocate_of_none b hp]
      exact h k e hk he
    | some ep => exact isSome_relocate hp hka (Or.inl (h k e hk he))

/-- What is alive in a replay is found, under some entry, where every move is performed. -/
theorem replayStep_domain {alive : E → Bool} {m p : Map K E}
    (h : ∀ k e, m k = some e → alive e = true → (p k).isSome = true) (act : Action K E) (k : K) (e : E)
    (hk : replayStep alive m act k = some e) (he : alive e = true) :
    (replayStep (fun _ => true) p act k).isSome = true := by
  cases act with
  | put x e' =>
    simp only [replayStep, put_apply] at hk ⊢
    split
    · rfl
    · rename_i hx
      rw [if_neg hx] at hk
      exact h k e hk he
  | drop x =>
    simp only [replayStep, drop_apply] at hk ⊢
    split
    · rename_i hx
      rw [if_pos hx] at hk
      cases hk
    · rename_i hx
      rw [if_neg hx] at hk
      exact h k e hk he
  | wipe => cases hk
  | move a b => exact replayStep_move_domain h hk he

theorem replay_domain {alive : E → Bool} {m p : Map K E}
    (h : ∀ k e, m k = some e → alive e = true → (p k).isSome = true) (acts : List (Action K E))
    (k : K) (e : E) (hk : replay alive m acts k = some e) (he : alive e = true) :
    (replay (fun _ => true) p acts k).isSome = true := by
  induction acts generalizing m p with
  | nil => exact h k e hk he
  | cons act acts ih => exact ih (replayStep_domain h act) hk

end Ledger
