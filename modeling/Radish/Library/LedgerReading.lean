import Radish.Library.LedgerSummary

/-!
# Readers that look at different times

A history may be read while its entries die. What the reader finds dead at one step it leaves out,
and it may look at a different time at every step, but at none later than the end. Whatever it
makes of the history, it shows in the end what was shown when the history was made, unless an
action overwrote an entry with one that dies earlier.
-/

namespace Ledger
set_option autoImplicit false

universe u v w
variable {K : Type u} {E : Type v} {E' : Type w} [DecidableEq K]

/-- What a reader may make of one action. A put or a move may be left out if what it is about is dead
in the end, and a move of a key onto itself may keep the entry or lose it. -/
inductive Reads (late : E → Bool) (s : Map K E) : Action K E → Map K E → Prop where
  | put (k : K) (e : E) : Reads late s (.put k e) (put s k e)
  | pass {e : E} (k : K) (dead : late e = false) : Reads late s (.put k e) s
  | relocate (a b : K) : Reads late s (.move a b) (relocate s a b)
  | carry (a b : K) : Reads late s (.move a b) (carry s a b)
  | skip {a : K} (b : K) (dead : (s a).any late = false) : Reads late s (.move a b) s
  | drop (k : K) : Reads late s (.drop k) (drop s k)
  | wipe : Reads late s .wipe (fun _ => none)

inductive ReadsAll (late : E → Bool) (s : Map K E) : List (Action K E) → Map K E → Prop where
  | nil : ReadsAll late s [] s
  | snoc {acts : List (Action K E)} {act : Action K E} {s' s'' : Map K E}
      (before : ReadsAll late s acts s') (last : Reads late s' act s'') :
      ReadsAll late s (acts ++ [act]) s''

section Readers
variable {early late : E → Bool} {m s s' : Map K E} {act : Action K E} {acts : List (Action K E)}

theorem replayStep_reads (hlate : ∀ e, late e = true → early e = true) (s : Map K E)
    (act : Action K E) : Reads late s act (replayStep early s act) := by
  cases act with
  | put k e => exact .put k e
  | drop k => exact .drop k
  | wipe => exact .wipe
  | move a b =>
    rw [replayStep]
    split
    · exact .relocate a b
    · rename_i hdead
      refine .skip b ?_
      cases ha : s a with
      | none => rfl
      | some e =>
        rw [ha] at hdead
        exact Bool.eq_false_iff.mpr fun he => hdead (hlate e he)

theorem summaryStep_reads {keep : E → Bool} (s : Map K E)
    (hkeep : ∀ k e, act = .put k e → late e = true → keep e = true) :
    Reads late s act (summaryStep keep s act) := by
  cases act with
  | put k e =>
    rw [summaryStep]
    split
    · exact .put k e
    · rename_i hdropped
      exact .pass k (Bool.eq_false_iff.mpr fun he => hdropped (hkeep k e rfl he))
  | move a b => exact .carry a b
  | drop k => exact .drop k
  | wipe => exact .wipe

theorem ReadsAll.of_nil (h : ReadsAll late s [] s') : s' = s := by
  generalize hwhole : ([] : List (Action K E)) = whole at h
  cases h with
  | nil => rfl
  | snoc => simp at hwhole

theorem ReadsAll.of_snoc (h : ReadsAll late s (acts ++ [act]) s') :
    ∃ t, ReadsAll late s acts t ∧ Reads late t act s' := by
  generalize hwhole : acts ++ [act] = whole at h
  cases h with
  | nil => simp at hwhole
  | snoc before last =>
    obtain ⟨rfl, hlast⟩ := List.append_inj' hwhole rfl
    obtain rfl := List.singleton_inj.mp hlast
    exact ⟨_, before, last⟩

theorem ReadsAll.cons {t : Map K E} (first : Reads late s act t) (rest : ReadsAll late t acts s') :
    ReadsAll late s (act :: acts) s' := by
  induction rest with
  | nil => exact .snoc .nil first
  | snoc _ last ih => exact .snoc ih last

/-- Readers make nothing up. -/
theorem Reads.source (h : Reads late s act s') {k : K} {e : E} (hk : s' k = some e) :
    (∃ x, s x = some e) ∨ act = .put k e := by
  have hreplayed : ∀ act : Action K E, replayStep (fun _ => true) s act k = some e →
      (∃ x, s x = some e) ∨ act = .put k e := by
    intro act hstep
    obtain hsame | hput | ⟨a, -, ha⟩ := replayStep_entry hstep
    · exact Or.inl ⟨k, hsame⟩
    · exact Or.inr hput
    · exact Or.inl ⟨a, ha⟩
  cases h with
  | put x old => exact hreplayed (.put x old) hk
  | pass => exact Or.inl ⟨k, hk⟩
  | relocate a b =>
    rw [← replayStep_move_all] at hk
    exact hreplayed _ hk
  | carry a b =>
    have hstep : summaryStep (fun _ => true) s (.move a b) k = some e := hk
    obtain hsame | ⟨-, hput⟩ | ⟨x, -, hx⟩ := summaryStep_entry hstep
    · exact Or.inl ⟨k, hsame⟩
    · cases hput
    · exact Or.inl ⟨x, hx⟩
  | skip => exact Or.inl ⟨k, hk⟩
  | drop x => exact hreplayed (.drop x) hk
  | wipe => cases hk

theorem ReadsAll.source (h : ReadsAll late (fun _ => none) acts s') {k : K} {e : E}
    (hk : s' k = some e) : ∃ x, Action.put x e ∈ acts := by
  induction h generalizing k with
  | nil => cases hk
  | snoc _ last ih =>
    obtain ⟨x, hx⟩ | hput := last.source hk
    · obtain ⟨y, hy⟩ := ih hx
      exact ⟨y, List.mem_append_left _ hy⟩
    · exact ⟨k, List.mem_append_right _ (by rw [hput]; exact List.mem_cons_self)⟩

theorem Reads.map {late' : E' → Bool} (f : E → E') (hf : ∀ e, late' (f e) = late e)
    (h : Reads late s act s') :
    Reads late' (fun k => (s k).map f) (act.map f) (fun k => (s' k).map f) := by
  cases h with
  | put k e =>
    rw [put_map]
    exact .put k (f e)
  | pass k dead => exact .pass k ((hf _).trans dead)
  | relocate a b =>
    rw [relocate_map]
    exact .relocate a b
  | carry a b =>
    have hcarry : (fun k => (Ledger.carry s a b k).map f) =
        Ledger.carry (fun k => (s k).map f) a b := by
      funext x
      cases ha : s a with
      | none => rw [carry_of_none b ha, carry_of_none b (by rw [ha]; rfl)]
      | some e =>
        rw [carry_apply ha, carry_apply (e := f e) (by rw [ha]; rfl)]
        split
        · rfl
        · split <;> rfl
    rw [hcarry]
    exact .carry a b
  | @skip a b dead =>
    refine .skip b ?_
    cases ha : s a with
    | none => rfl
    | some e =>
      rw [ha] at dead
      exact (hf e).trans dead
  | drop k =>
    rw [drop_map]
    exact .drop k
  | wipe => exact .wipe

theorem ReadsAll.map {late' : E' → Bool} (f : E → E') (hf : ∀ e, late' (f e) = late e)
    (h : ReadsAll late s acts s') :
    ReadsAll late' (fun k => (s k).map f) (acts.map (Action.map f)) (fun k => (s' k).map f) := by
  induction h with
  | nil => exact .nil
  | snoc _ last ih =>
    rw [List.map_append]
    exact .snoc ih (last.map f hf)

end Readers

/-! ## What readers show in the end -/

/-- No entry that would be alive in the end is overwritten by one that is not, and nothing is moved
onto itself. -/
def Yields (late : E → Bool) (m : Map K E) : Action K E → Prop
  | .put k e => ∀ old, m k = some old → late old = true → late e = true
  | .move a b => a ≠ b ∧ ∀ e old, m a = some e → m b = some old → late old = true → late e = true
  | .drop _ => True
  | .wipe => True

section Showing
variable {early late : E → Bool} {m s s' : Map K E} {act : Action K E}

theorem visible_put (h : visible late m = visible late s) (k : K) (e : E) :
    visible late (put m k e) = visible late (put s k e) := by
  funext x
  simp only [visible, put_apply]
  split
  · rfl
  · exact congrFun h x

theorem visible_drop (h : visible late m = visible late s) (k : K) :
    visible late (drop m k) = visible late (drop s k) := by
  funext x
  simp only [visible, drop_apply]
  split
  · rfl
  · exact congrFun h x

theorem visible_put_of_dead {k : K} {e : E} (hdead : late e = false)
    (hover : ∀ old, m k = some old → late old = false) :
    visible late (put m k e) = visible late m := by
  funext x
  simp only [visible, put_apply]
  split
  · rename_i hx
    subst hx
    cases hold : m x with
    | none => simp [Option.filter_some_neg, hdead]
    | some old => simp [Option.filter_some_neg, hdead, hover old hold]
  · rfl

/-- Moved or not, a dead entry shows nothing, and neither does what it may be moved onto. -/
theorem visible_relocate_dead {a b : K} (hdead : (visible late s) a = none)
    (hover : (visible late s) b = none) : visible late (relocate s a b) = visible late s := by
  cases ha : s a with
  | none => rw [relocate_of_none b ha]
  | some e =>
    have hnone : ∀ {x old}, (visible late s) x = none → s x = some old → late old = false := by
      intro x old hx hold
      rw [Bool.eq_false_iff]
      intro halive
      rw [visible_eq_some_iff.mpr ⟨hold, halive⟩] at hx
      cases hx
    exact visible_relocate_of_dead ha (hnone hdead ha) fun _ _ hold => hnone hover hold

/-- A move that was made, and what any reader makes of it. -/
theorem visible_reads_move {a b : K} {e : E} (h : visible late m = visible late s) (hab : a ≠ b)
    (ha : m a = some e) (hyields : ∀ old, m b = some old → late old = true → late e = true)
    (hread : Reads late s (.move a b) s') :
    visible late (relocate m a b) = visible late s' := by
  by_cases halive : late e = true
  · -- still alive: every reader has it, and moves it
    have hvisible : visible late s a = some e := by
      rw [← h]
      exact visible_eq_some_iff.mpr ⟨ha, halive⟩
    have hsa := (visible_eq_some_iff.mp hvisible).1
    have hmoved := visible_relocate b h ha hsa
    cases hread with
    | relocate => exact hmoved
    | carry =>
      rw [carry_eq_relocate s hab]
      exact hmoved
    | skip _ dead =>
      rw [hsa] at dead
      exact absurd halive (Bool.eq_false_iff.mp dead)
  · -- dead in the end, and so is what it overwrote
    have hsource : visible late m a = none := by
      rw [visible, ha]
      exact Option.filter_some_neg (Bool.eq_false_iff.mpr halive)
    have htarget : visible late m b = none := by
      rw [Option.eq_none_iff_forall_ne_some]
      intro old hold
      obtain ⟨hb, hlive⟩ := visible_eq_some_iff.mp hold
      exact halive (hyields old hb hlive)
    rw [visible_relocate_dead hsource htarget, h]
    rw [h] at hsource htarget
    have hmoved := visible_relocate_dead hsource htarget
    cases hread with
    | relocate => exact hmoved.symm
    | carry =>
      rw [carry_eq_relocate s hab]
      exact hmoved.symm
    | skip => rfl

/-- An action that had an effect when it was made shows in the end what any reader makes of it. -/
theorem visible_reads (h : visible late m = visible late s) (heffective : Effective early m act)
    (hyields : Yields late m act) (hread : Reads late s act s') :
    visible late (replayStep early m act) = visible late s' := by
  cases act with
  | put k e =>
    cases hread with
    | put => exact visible_put h k e
    | pass _ dead =>
      refine (visible_put_of_dead dead ?_).trans h
      intro old hold
      exact Bool.eq_false_iff.mpr fun halive => Bool.eq_false_iff.mp dead (hyields old hold halive)
  | move a b =>
    obtain ⟨e, ha, hearly⟩ := (Option.any_eq_true _ _).mp heffective
    obtain ⟨hab, hover⟩ := hyields
    rw [replayStep_move_of_alive b ha hearly]
    exact visible_reads_move h hab ha (fun old => hover e old ha) hread
  | drop k =>
    cases hread
    exact visible_drop h k
  | wipe =>
    cases hread
    rfl

/-- Readers of a listing of all that is alive show what it lists. -/
theorem ReadsAll.visible_listing {es : List (K × E)} (hsound : ∀ k e, (k, e) ∈ es → m k = some e)
    (hcomplete : ∀ k e, m k = some e → late e = true → (k, e) ∈ es)
    (hread : ReadsAll late (fun _ => none) (es.map fun p => .put p.1 p.2) s) :
    visible late s = visible late m := by
  -- what has been read is in the list, and all that is alive of it is there
  have hread' : (∀ k e, s k = some e → (k, e) ∈ es) ∧
      ∀ k e, (k, e) ∈ es → late e = true → s k = some e := by
    clear hcomplete
    induction es using List.reverseRecOn generalizing s with
    | nil =>
      obtain rfl := hread.of_nil
      exact ⟨fun _ _ hnone => (by cases hnone), fun _ _ hmem => (by cases hmem)⟩
    | append_singleton es p ih =>
      rw [List.map_append] at hread
      obtain ⟨t, hbefore, hlast⟩ := hread.of_snoc
      obtain ⟨hfrom, hall⟩ := ih (fun k e hmem => hsound k e (List.mem_append_left _ hmem)) hbefore
      have hp := hsound p.1 p.2 (List.mem_append_right _ List.mem_cons_self)
      cases hlast with
      | put =>
        constructor
        · intro k e hk
          rw [put_apply] at hk
          split at hk
          · rename_i hkey
            obtain rfl := Option.some.inj hk
            exact hkey ▸ List.mem_append_right _ List.mem_cons_self
          · exact List.mem_append_left _ (hfrom k e hk)
        · intro k e hmem halive
          rw [put_apply]
          split
          · rename_i hkey
            rw [hkey] at hmem
            exact hp.symm.trans (hsound p.1 e hmem)
          · rename_i hkey
            obtain hold | hnew := List.mem_append.mp hmem
            · exact hall k e hold halive
            · exact absurd (congrArg Prod.fst (List.mem_singleton.mp hnew)) hkey
      | pass _ dead =>
        refine ⟨fun k e hk => List.mem_append_left _ (hfrom k e hk), ?_⟩
        intro k e hmem halive
        obtain hold | hnew := List.mem_append.mp hmem
        · exact hall k e hold halive
        · rw [← List.mem_singleton.mp hnew] at dead
          exact absurd halive (Bool.eq_false_iff.mp dead)
  obtain ⟨hfrom, hall⟩ := hread'
  funext k
  apply Option.ext
  intro e
  rw [visible_eq_some_iff, visible_eq_some_iff]
  constructor
  · exact fun hk => ⟨hsound k e (hfrom k e hk.1), hk.2⟩
  · exact fun hk => ⟨hall k e (hcomplete k e hk.1 hk.2) hk.2, hk.2⟩

end Showing

end Ledger
