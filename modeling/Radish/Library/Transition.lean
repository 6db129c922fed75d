import Mathlib.Logic.Basic
import Mathlib.Data.List.Basic

/-!
# Runs with visible events, and simulation

A step carries an event, or is internal. A run shows the events of its steps. A system whose steps
can be matched by runs of another one shows nothing that the other one could not.
-/

namespace Transition
set_option autoImplicit false

universe u v w
variable {S : Type u} {A : Type v} {E : Type w}

abbrev System (S : Type u) (E : Type w) := S → Option E → S → Prop

/-- The runs from `s`, with the events they show. -/
inductive Run (step : System S E) (s : S) : List E → S → Prop where
  | refl : Run step s [] s
  | internal {es : List E} {t t' : S} (run : Run step s es t) (next : step t none t') :
      Run step s es t'
  | visible {es : List E} {t t' : S} {e : E} (run : Run step s es t) (next : step t (some e) t') :
      Run step s (es ++ [e]) t'

namespace Run
variable {step : System S E} {s t t' : S} {es es' : List E}

theorem single {e : E} (next : step s (some e) t) : Run step s [e] t := .visible .refl next

theorem trans (h : Run step s es t) (h' : Run step t es' t') : Run step s (es ++ es') t' := by
  induction h' with
  | refl =>
    rw [List.append_nil]
    exact h
  | internal _ next ih => exact .internal ih next
  | visible _ next ih =>
    rw [← List.append_assoc]
    exact .visible ih next

/-- What the steps with events of a kind preserve holds along a run that shows no others. -/
theorem invariant_of_events {P : S → Prop} {Q : E → Prop}
    (hinternal : ∀ t t', P t → step t none t' → P t')
    (hvisible : ∀ t e t', P t → Q e → step t (some e) t' → P t')
    (h : Run step s es t) (hs : P s) (hes : ∀ e ∈ es, Q e) : P t := by
  induction h with
  | refl => exact hs
  | internal _ next ih => exact hinternal _ _ (ih hes) next
  | @visible es t t' e _ next ih =>
    refine hvisible _ e _ (ih ?_) ?_ next
    · exact fun e he => hes e (List.mem_append_left _ he)
    · exact hes e (List.mem_append_right _ (List.mem_singleton_self e))

end Run

/-- Whatever a step does, the other system can do by a run that shows the same. -/
structure Simulation (step : System S E) (spec : System A E) (R : S → A → Prop) : Prop where
  internal : ∀ {s s' a}, R s a → step s none s' → ∃ a', Run spec a [] a' ∧ R s' a'
  visible : ∀ {s s' a e}, R s a → step s (some e) s' → ∃ a', Run spec a [e] a' ∧ R s' a'

theorem Simulation.run {step : System S E} {spec : System A E} {R : S → A → Prop}
    (h : Simulation step spec R) {s t : S} {a : A} {es : List E} (hrun : Run step s es t)
    (hs : R s a) : ∃ b, Run spec a es b ∧ R t b := by
  induction hrun with
  | refl => exact ⟨a, .refl, hs⟩
  | internal _ next ih =>
    obtain ⟨b, hb, hR⟩ := ih
    obtain ⟨b', hb', hR'⟩ := h.internal hR next
    refine ⟨b', ?_, hR'⟩
    simpa using hb.trans hb'
  | visible _ next ih =>
    obtain ⟨b, hb, hR⟩ := ih
    obtain ⟨b', hb', hR'⟩ := h.visible hR next
    exact ⟨b', hb.trans hb', hR'⟩

end Transition
