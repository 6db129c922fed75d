import Mathlib.Logic.Basic

/-!
# Postconditions of programs that may throw

A program reads and changes a state, and returns a value or throws. `Ensures` is the weakest
liberal postcondition: it says nothing of a program that throws. `Returns` is the one that rules
exceptions out. `Maintains` is about the state alone, also when the program throws, `Guards` about
the states in which it returns and in which it throws, and `Disregards` about a change of the state
that the program does not see. Their rules follow the program.
-/

namespace Postcondition
set_option autoImplicit false

universe u
variable {ε σ α β : Type u}

/-- What the program returns from `s`, if it returns, and the state it leaves are as stated. -/
def Ensures (program : ExceptT ε (StateM σ) α) (s : σ) (Q : α → σ → Prop) : Prop :=
  ∀ a s', program s = (.ok a, s') → Q a s'

section Bind
variable {x : ExceptT ε (StateM σ) α} {f : α → ExceptT ε (StateM σ) β} {s t : σ}

theorem bind_of_ok {a : α} (h : x s = (.ok a, t)) : (x >>= f) s = f a t := by
  simp only [bind, ExceptT.bind, ExceptT.mk, StateT.bind, h, ExceptT.bindCont]

theorem bind_of_error {e : ε} (h : x s = (.error e, t)) : (x >>= f) s = (.error e, t) := by
  simp only [bind, ExceptT.bind, ExceptT.mk, StateT.bind, h, ExceptT.bindCont]
  rfl

end Bind

variable {s : σ} {Q : α → σ → Prop}

@[simp] theorem ensures_bind {x : ExceptT ε (StateM σ) β} {f : β → ExceptT ε (StateM σ) α} :
    Ensures (x >>= f) s Q ↔ Ensures x s fun b t => Ensures (f b) t Q := by
  constructor
  · intro h b t hx a s' hf
    exact h a s' ((bind_of_ok hx).trans hf)
  · intro h a s' hbind
    rcases hx : x s with ⟨e | b, t⟩
    · rw [bind_of_error hx] at hbind
      cases hbind
    · rw [bind_of_ok hx] at hbind
      exact h b t hx a s' hbind

@[simp] theorem ensures_pure {a : α} :
    Ensures (pure a : ExceptT ε (StateM σ) α) s Q ↔ Q a s := by
  constructor
  · exact fun h => h a s rfl
  · intro h a' s' hrun
    cases hrun
    exact h

@[simp] theorem ensures_ite {c : Prop} [Decidable c] {x y : ExceptT ε (StateM σ) α} :
    Ensures (if c then x else y) s Q ↔ (c → Ensures x s Q) ∧ (¬c → Ensures y s Q) := by
  by_cases hc : c <;> simp [hc]

@[simp] theorem ensures_get {Q : σ → σ → Prop} :
    Ensures (get : ExceptT ε (StateM σ) σ) s Q ↔ Q s s := by
  constructor
  · exact fun h => h s s rfl
  · intro h a s' hrun
    cases hrun
    exact h

theorem Ensures.mono {program : ExceptT ε (StateM σ) α} {Q' : α → σ → Prop}
    (h : Ensures program s Q) (hmono : ∀ a s', Q a s' → Q' a s') : Ensures program s Q' :=
  fun a s' hrun => hmono a s' (h a s' hrun)

/-! ## Programs that do not throw -/

/-- The program returns from `s`, and what it returns and the state it leaves are as stated. -/
def Returns (program : ExceptT ε (StateM σ) α) (s : σ) (Q : α → σ → Prop) : Prop :=
  ∃ a s', program s = (.ok a, s') ∧ Q a s'

@[simp] theorem returns_bind {x : ExceptT ε (StateM σ) β} {f : β → ExceptT ε (StateM σ) α} :
    Returns (x >>= f) s Q ↔ Returns x s fun b t => Returns (f b) t Q := by
  constructor
  · intro h
    obtain ⟨a, s', hbind, hQ⟩ := h
    rcases hx : x s with ⟨e | b, t⟩
    · rw [bind_of_error hx] at hbind
      cases hbind
    · rw [bind_of_ok hx] at hbind
      exact ⟨b, t, hx, a, s', hbind, hQ⟩
  · intro h
    obtain ⟨b, t, hx, a, s', hf, hQ⟩ := h
    exact ⟨a, s', (bind_of_ok hx).trans hf, hQ⟩

@[simp] theorem returns_pure {a : α} :
    Returns (pure a : ExceptT ε (StateM σ) α) s Q ↔ Q a s := by
  constructor
  · intro h
    obtain ⟨a', s', hrun, hQ⟩ := h
    cases hrun
    exact hQ
  · exact fun h => ⟨a, s, rfl, h⟩

@[simp] theorem returns_ite {c : Prop} [Decidable c] {x y : ExceptT ε (StateM σ) α} :
    Returns (if c then x else y) s Q ↔ (c → Returns x s Q) ∧ (¬c → Returns y s Q) := by
  by_cases hc : c <;> simp [hc]

@[simp] theorem returns_get {Q : σ → σ → Prop} :
    Returns (get : ExceptT ε (StateM σ) σ) s Q ↔ Q s s := by
  constructor
  · intro h
    obtain ⟨a, s', hrun, hQ⟩ := h
    cases hrun
    exact hQ
  · exact fun h => ⟨s, s, rfl, h⟩

theorem Returns.mono {program : ExceptT ε (StateM σ) α} {Q' : α → σ → Prop}
    (h : Returns program s Q) (hmono : ∀ a s', Q a s' → Q' a s') : Returns program s Q' := by
  obtain ⟨a, s', hrun, hQ⟩ := h
  exact ⟨a, s', hrun, hmono a s' hQ⟩

/-! ## What programs do to the state -/

/-- However the program ends, it leads from `I` to `I`. -/
def Maintains (program : ExceptT ε (StateM σ) α) (I : σ → Prop) : Prop :=
  ∀ s, I s → I (program s).2

section Maintaining
variable {I : σ → Prop}

theorem Maintains.bind {x : ExceptT ε (StateM σ) β} {f : β → ExceptT ε (StateM σ) α}
    (hx : Maintains x I) (hf : ∀ b, Maintains (f b) I) : Maintains (x >>= f) I := by
  intro s hs
  have hafter := hx s hs
  rcases hrun : x s with ⟨e | b, t⟩
  · rw [hrun] at hafter
    rw [bind_of_error hrun]
    exact hafter
  · rw [hrun] at hafter
    rw [bind_of_ok hrun]
    exact hf b t hafter

theorem maintains_pure (a : α) : Maintains (pure a : ExceptT ε (StateM σ) α) I := fun _ hs => hs

theorem maintains_get : Maintains (get : ExceptT ε (StateM σ) σ) I := fun _ hs => hs

end Maintaining

/-- From `I` the program returns in `I` again, or throws in `J`. -/
def Guards (program : ExceptT ε (StateM σ) α) (I J : σ → Prop) : Prop :=
  ∀ s, I s → (∀ a s', program s = (.ok a, s') → I s') ∧ ∀ e s', program s = (.error e, s') → J s'

section Guarding
variable {I J : σ → Prop}

theorem Guards.bind {x : ExceptT ε (StateM σ) β} {f : β → ExceptT ε (StateM σ) α}
    (hx : Guards x I J) (hf : ∀ b, Guards (f b) I J) : Guards (x >>= f) I J := by
  intro s hs
  obtain ⟨hreturns, hthrows⟩ := hx s hs
  rcases hrun : x s with ⟨e | b, t⟩
  · rw [bind_of_error hrun]
    constructor
    · intro a s' h
      cases h
    · intro e' s' h
      cases h
      exact hthrows e t hrun
  · rw [bind_of_ok hrun]
    exact hf b t (hreturns b t hrun)

theorem guards_pure (a : α) : Guards (pure a : ExceptT ε (StateM σ) α) I J := by
  intro s hs
  constructor
  · intro a' s' h
    cases h
    exact hs
  · intro e s' h
    cases h

theorem guards_get : Guards (get : ExceptT ε (StateM σ) σ) I J := by
  intro s hs
  constructor
  · intro a' s' h
    cases h
    exact hs
  · intro e s' h
    cases h

end Guarding

/-! ## What programs do not see -/

/-- As long as `I` holds, which the program maintains, it does to `f s` what it does to `s`. -/
def Disregards (program : ExceptT ε (StateM σ) α) (I : σ → Prop) (f : σ → σ) : Prop :=
  ∀ s, I s → I (program s).2 ∧ program (f s) = ((program s).1, f (program s).2)

section Disregarding
variable {I : σ → Prop} {f : σ → σ}

theorem Disregards.bind {x : ExceptT ε (StateM σ) β} {g : β → ExceptT ε (StateM σ) α}
    (hx : Disregards x I f) (hg : ∀ b, Disregards (g b) I f) : Disregards (x >>= g) I f := by
  intro s hs
  obtain ⟨hafter, hsame⟩ := hx s hs
  rcases hrun : x s with ⟨e | b, t⟩
  · rw [hrun] at hafter hsame
    rw [bind_of_error hrun, bind_of_error hsame]
    exact ⟨hafter, rfl⟩
  · rw [hrun] at hafter hsame
    rw [bind_of_ok hrun, bind_of_ok hsame]
    exact hg b t hafter

theorem disregards_pure (a : α) : Disregards (pure a : ExceptT ε (StateM σ) α) I f :=
  fun _ hs => ⟨hs, rfl⟩

end Disregarding

end Postcondition
