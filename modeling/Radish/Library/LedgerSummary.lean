import Mathlib.Data.List.Induction
import Radish.Library.Ledger

/-!
# Summaries of a history

A summary keeps only the puts worth keeping and performs every move. How far it agrees with the
replays of the same history, and how a summary is written down as a history of its own.
-/

namespace Ledger
set_option autoImplicit false

universe u v
variable {K : Type u} {E : Type v} [DecidableEq K]

/-! ## Summaries that keep everything -/

/-- A summary that keeps every put is the replay of the history without its idle moves. -/
theorem summary_eq_replay (m : Map K E) (acts : List (Action K E)) :
    summary (fun _ => true) m acts =
      replay (fun _ => true) m (acts.filter fun act => !act.isIdle) := by
  induction acts generalizing m with
  | nil => rfl
  | cons act acts ih =>
    rw [summary_cons, ih]
    cases act with
    | move a b =>
      by_cases hab : a = b
      · subst hab
        simp [summaryStep, Action.isIdle]
      · simp [summaryStep, Action.isIdle, hab, carry_eq_relocate m hab, replayStep_move_all]
    | put k e => simp [summaryStep, Action.isIdle, replayStep]
    | drop k => simp [summaryStep, Action.isIdle, replayStep]
    | wipe => simp [summaryStep, Action.isIdle, replayStep]

/-- Idle moves that meet no entry leave a replay as it is. -/
theorem replay_filter_idle {alive : E → Bool} {m : Map K E} {acts : List (Action K E)}
    (h : ∀ before a after, acts = before ++ Action.move a a :: after →
      (replay alive m before a).any alive = false) :
    replay alive m (acts.filter fun act => !act.isIdle) = replay alive m acts := by
  induction acts generalizing m with
  | nil => rfl
  | cons act acts ih =>
    have htail := ih (m := replayStep alive m act) fun before a after hsplit =>
      h (act :: before) a after (by rw [hsplit]; rfl)
    cases act with
    | move a b =>
      by_cases hab : a = b
      · subst hab
        have hdead : (m a).any alive = false := h [] a acts rfl
        have hstay : replayStep alive m (.move a a) = m := by simp [replayStep, hdead]
        rw [replay_cons, hstay]
        rw [hstay] at htail
        simpa [Action.isIdle] using htail
      · simpa [Action.isIdle, hab] using htail
    | put k e => simpa [Action.isIdle] using htail
    | drop k => simpa [Action.isIdle] using htail
    | wipe => simpa [Action.isIdle] using htail

/-- A test that every put passes makes no difference to the summary. -/
theorem summary_keep_all {keep : E → Bool} (m : Map K E) {acts : List (Action K E)}
    (h : ∀ k e, Action.put k e ∈ acts → keep e = true) :
    summary keep m acts = summary (fun _ => true) m acts := by
  induction acts generalizing m with
  | nil => rfl
  | cons act acts ih =>
    have htail : ∀ k e, Action.put k e ∈ acts → keep e = true :=
      fun k e hmem => h k e (List.mem_cons_of_mem _ hmem)
    have hstep : summaryStep keep m act = summaryStep (fun _ => true) m act := by
      cases act with
      | put k e => simp [summaryStep, h k e List.mem_cons_self]
      | _ => rfl
    rw [summary_cons, summary_cons, hstep]
    exact ih _ htail

/-! ## Histories without moves -/

/-- One action's effect on the puts of `k` that nothing has dropped since. -/
def pendingStep (k : K) (es : List E) : Action K E → List E
  | .put x e => if x = k then es ++ [e] else es
  | .move _ _ => es
  | .drop x => if x = k then [] else es
  | .wipe => []

def pending (k : K) (acts : List (Action K E)) : List E := acts.foldl (pendingStep k) []

theorem summary_eq_pending (keep : E → Bool) {acts : List (Action K E)}
    (hmove : ∀ act ∈ acts, act.isMove = false) (k : K) :
    summary keep (fun _ => none) acts k = ((pending k acts).filter keep).getLast? := by
  -- generalised over the puts already pending
  suffices h : ∀ (m : Map K E) (es : List E), m k = (es.filter keep).getLast? →
      summary keep m acts k = ((acts.foldl (pendingStep k) es).filter keep).getLast? from
    h (fun _ => none) [] rfl
  induction acts with
  | nil => exact fun m es h => h
  | cons act acts ih =>
    intro m es h
    have hmove' : ∀ x ∈ acts, x.isMove = false := fun x hx => hmove x (List.mem_cons_of_mem _ hx)
    rw [summary_cons, List.foldl_cons]
    apply ih hmove'
    cases act with
    | put x e =>
      by_cases hx : x = k
      · subst hx
        by_cases he : keep e = true
        · simp [summaryStep, pendingStep, he]
        · simp [summaryStep, pendingStep, he, h]
      · by_cases he : keep e = true
        · simp [summaryStep, pendingStep, he, hx, Ne.symm hx, h]
        · simp [summaryStep, pendingStep, he, hx, h]
    | move a b =>
      have := hmove (.move a b) List.mem_cons_self
      simp [Action.isMove] at this
    | drop x =>
      by_cases hx : x = k
      · simp [summaryStep, pendingStep, hx]
      · simp [summaryStep, pendingStep, hx, Ne.symm hx, h]
    | wipe => simp [summaryStep, pendingStep]

theorem replay_eq_summary_of_no_move (alive : E → Bool) (m : Map K E) {acts : List (Action K E)}
    (hmove : ∀ act ∈ acts, act.isMove = false) :
    replay alive m acts = summary (fun _ => true) m acts := by
  induction acts generalizing m with
  | nil => rfl
  | cons act acts ih =>
    have htail := ih (summaryStep (fun _ => true) m act)
      fun x hx => hmove x (List.mem_cons_of_mem _ hx)
    have hstep : replayStep alive m act = summaryStep (fun _ => true) m act := by
      cases act with
      | move a b =>
        have := hmove (.move a b) List.mem_cons_self
        simp [Action.isMove] at this
      | put k e => simp [replayStep, summaryStep]
      | drop k => rfl
      | wipe => rfl
    rw [replay_cons, summary_cons, hstep, htail]

theorem replay_eq_pending (alive : E → Bool) {acts : List (Action K E)}
    (hmove : ∀ act ∈ acts, act.isMove = false) (k : K) :
    replay alive (fun _ => none) acts k = (pending k acts).getLast? := by
  rw [replay_eq_summary_of_no_move alive _ hmove, summary_eq_pending _ hmove, List.filter_true]

/-! ## What a summary holds, and how to write it down -/

/-- An entry after an action of a summary was there before, or has just been put or moved there. -/
theorem summaryStep_entry {keep : E → Bool} {m : Map K E} {act : Action K E} {k : K} {e : E}
    (h : summaryStep keep m act k = some e) :
    m k = some e ∨ keep e = true ∧ act = .put k e ∨ ∃ a, act = .move a k ∧ m a = some e := by
  cases act with
  | put x e' =>
    simp only [summaryStep] at h
    split at h
    · rename_i hkeep
      rw [put_apply] at h
      split at h
      · rename_i hx
        obtain rfl := Option.some.inj h
        exact Or.inr (Or.inl ⟨hkeep, by rw [hx]⟩)
      · exact Or.inl h
    · exact Or.inl h
  | move a b =>
    simp only [summaryStep] at h
    cases ha : m a with
    | none =>
      rw [carry_of_none b ha] at h
      exact Or.inl h
    | some ea =>
      rw [carry_apply ha] at h
      split at h
      · rename_i hb
        exact Or.inr (Or.inr ⟨a, by rw [hb], ha.trans h⟩)
      · split at h
        · cases h
        · exact Or.inl h
  | drop x =>
    simp only [summaryStep, drop_apply] at h
    split at h
    · cases h
    · exact Or.inl h
  | wipe => cases h

theorem replayStep_entry {alive : E → Bool} {m : Map K E} {act : Action K E} {k : K} {e : E}
    (h : replayStep alive m act k = some e) :
    m k = some e ∨ act = .put k e ∨ ∃ a, act = .move a k ∧ m a = some e := by
  cases act with
  | put x e' =>
    simp only [replayStep, put_apply] at h
    split at h
    · rename_i hx
      obtain rfl := Option.some.inj h
      exact Or.inr (Or.inl (by rw [hx]))
    · exact Or.inl h
  | move a b =>
    simp only [replayStep] at h
    split at h
    · rename_i hany
      obtain ⟨ea, ha, -⟩ := (Option.any_eq_true _ _).mp hany
      rw [relocate_apply ha] at h
      split at h
      · cases h
      · split at h
        · rename_i hb
          exact Or.inr (Or.inr ⟨a, by rw [hb], ha.trans h⟩)
        · exact Or.inl h
    · exact Or.inl h
  | drop x =>
    simp only [replayStep, drop_apply] at h
    split at h
    · cases h
    · exact Or.inl h
  | wipe => cases h

theorem summary_keeps {keep : E → Bool} {m : Map K E} (hm : ∀ k e, m k = some e → keep e = true)
    (acts : List (Action K E)) {k : K} {e : E} (h : summary keep m acts k = some e) :
    keep e = true := by
  induction acts generalizing m with
  | nil => exact hm k e h
  | cons act acts ih =>
    apply ih _ h
    intro x e' hx
    obtain hbefore | ⟨hkeep, -⟩ | ⟨a, -, ha⟩ := summaryStep_entry hx
    · exact hm x e' hbefore
    · exact hkeep
    · exact hm a e' ha

/-- Every entry of a summary was put. -/
theorem summary_source {keep : E → Bool} {acts : List (Action K E)} {k : K} {e : E}
    (h : summary keep (fun _ => none) acts k = some e) : ∃ x, Action.put x e ∈ acts := by
  induction acts using List.reverseRecOn generalizing k with
  | nil => cases h
  | append_singleton acts act ih =>
    have hearlier : ∀ {x}, summary keep (fun _ => none) acts x = some e →
        ∃ y, Action.put y e ∈ acts ++ [act] := by
      intro x hx
      obtain ⟨y, hy⟩ := ih hx
      exact ⟨y, List.mem_append_left _ hy⟩
    rw [summary_append, summary_cons, summary_nil] at h
    obtain hbefore | ⟨-, rfl⟩ | ⟨a, -, ha⟩ := summaryStep_entry h
    · exact hearlier hbefore
    · exact ⟨k, by simp⟩
    · exact hearlier ha

/-- Every entry of a replay was put. -/
theorem replay_source {alive : E → Bool} {acts : List (Action K E)} {k : K} {e : E}
    (h : replay alive (fun _ => none) acts k = some e) : ∃ x, Action.put x e ∈ acts := by
  induction acts using List.reverseRecOn generalizing k with
  | nil => cases h
  | append_singleton acts act ih =>
    have hearlier : ∀ {x}, replay alive (fun _ => none) acts x = some e →
        ∃ y, Action.put y e ∈ acts ++ [act] := by
      intro x hx
      obtain ⟨y, hy⟩ := ih hx
      exact ⟨y, List.mem_append_left _ hy⟩
    rw [replay_append, replay_cons, replay_nil] at h
    obtain hbefore | rfl | ⟨a, -, ha⟩ := replayStep_entry h
    · exact hearlier hbefore
    · exact ⟨k, by simp⟩
    · exact hearlier ha

/-- Where all that was put is alive, every move is performed. -/
theorem replay_of_all_alive {alive : E → Bool} {acts : List (Action K E)}
    (h : ∀ x e, Action.put x e ∈ acts → alive e = true) :
    replay alive (fun _ => none) acts = replay (fun _ => true) (fun _ => none) acts := by
  induction acts using List.reverseRecOn with
  | nil => rfl
  | append_singleton acts act ih =>
    have hrest := ih fun x e hx => h x e (List.mem_append_left _ hx)
    rw [replay_append, replay_append, hrest, replay_cons, replay_nil, replay_cons, replay_nil]
    cases act with
    | move a b =>
      cases ha : replay (fun _ => true) (fun _ => none) acts a with
      | none => simp [replayStep, ha]
      | some e =>
        obtain ⟨x, hx⟩ := replay_source ha
        simp [replayStep, ha, h x e (List.mem_append_left _ hx)]
    | _ => rfl

/-- Without moves, an entry is found under the key it was put under. -/
theorem summary_mem {keep : E → Bool} {acts : List (Action K E)}
    (hmove : ∀ act ∈ acts, act.isMove = false) {k : K} {e : E}
    (h : summary keep (fun _ => none) acts k = some e) : Action.put k e ∈ acts := by
  induction acts using List.reverseRecOn with
  | nil => cases h
  | append_singleton acts act ih =>
    rw [summary_append, summary_cons, summary_nil] at h
    obtain hbefore | ⟨-, rfl⟩ | ⟨a, rfl, -⟩ := summaryStep_entry h
    · exact List.mem_append_left _ (ih (fun x hx => hmove x (List.mem_append_left _ hx)) hbefore)
    · simp
    · have hno := hmove (.move a k) (by simp)
      cases hno

/-- A list of puts with distinct keys replays to the ledger it lists. -/
theorem replay_puts (alive : E → Bool) {es : List (K × E)} (hnodup : (es.map Prod.fst).Nodup)
    (m : Map K E) (k : K) :
    replay alive m (es.map fun p => Action.put p.1 p.2) k =
      ((es.find? fun p => p.1 = k).map Prod.snd).or (m k) := by
  induction es generalizing m with
  | nil => rfl
  | cons p es ih =>
    rw [List.map_cons, List.nodup_cons] at hnodup
    rw [List.map_cons, replay_cons, ih hnodup.2, replayStep, put_apply]
    by_cases hk : p.1 = k
    · have hrest : es.find? (fun q => q.1 = k) = none := by
        rw [List.find?_eq_none]
        intro q hq hqk
        apply hnodup.1
        rw [hk, ← of_decide_eq_true hqk]
        exact List.mem_map_of_mem hq
      simp [hk, hrest]
    · simp [hk, Ne.symm hk]

/-- A listing of a ledger, in any order, replays to the ledger. -/
theorem replay_listing (alive : E → Bool) {es : List (K × E)} (hnodup : (es.map Prod.fst).Nodup)
    {m : Map K E} (hmem : ∀ k e, (k, e) ∈ es ↔ m k = some e) :
    replay alive (fun _ => none) (es.map fun p => Action.put p.1 p.2) = m := by
  funext k
  rw [replay_puts alive hnodup, Option.or_none]
  cases hfind : es.find? fun p => p.1 = k with
  | none =>
    rw [List.find?_eq_none] at hfind
    cases hk : m k with
    | none => rfl
    | some e =>
      have hno := hfind (k, e) ((hmem k e).mpr hk)
      simp at hno
  | some p =>
    have hp := List.find?_some hfind
    simp only [decide_eq_true_eq] at hp
    have hin := List.mem_of_find?_eq_some hfind
    rw [← hp, (hmem p.1 p.2).mp hin]
    rfl

/-- Summed up again, a listing loses what has ceased to be worth keeping. -/
theorem summary_listing (keep : E → Bool) {es : List (K × E)} (hnodup : (es.map Prod.fst).Nodup)
    {m : Map K E} (hmem : ∀ k e, (k, e) ∈ es ↔ m k = some e) :
    summary keep (fun _ => none) (es.map fun p => Action.put p.1 p.2) = visible keep m := by
  have hfilter : ∀ m : Map K E, summary keep m (es.map fun p => Action.put p.1 p.2) =
      replay keep m ((es.filter fun p => keep p.2).map fun p => Action.put p.1 p.2) := by
    clear hnodup hmem
    induction es with
    | nil => exact fun m => rfl
    | cons p es ih =>
      intro m
      rw [List.map_cons, summary_cons, ih, List.filter_cons]
      cases hp : keep p.2 <;> simp [summaryStep, replayStep, hp]
  rw [hfilter]
  apply replay_listing
  · exact hnodup.sublist (List.filter_sublist.map Prod.fst)
  · intro k e
    rw [List.mem_filter, hmem, visible_eq_some_iff]

/-! ## Summaries and the replays they follow -/

/-- Every move of the history finds an entry when all that was put stays alive. -/
def MovesPresent (acts : List (Action K E)) : Prop :=
  ∀ before a b after, acts = before ++ .move a b :: after →
    (replay (fun _ => true) (fun _ => none) before a).isSome = true

theorem MovesPresent.of_append {xs ys : List (Action K E)} (h : MovesPresent (xs ++ ys)) :
    MovesPresent xs := by
  intro before a b after hsplit
  exact h before a b (after ++ ys) (by simp [hsplit])

theorem MovesPresent.of_no_move {acts : List (Action K E)}
    (h : ∀ act ∈ acts, act.isMove = false) : MovesPresent acts := by
  intro before a b after hsplit
  have hmove := h (.move a b) (by simp [hsplit])
  cases hmove

theorem MovesPresent.append {acts : List (Action K E)} (h : MovesPresent acts) {act : Action K E}
    (hact : ∀ a b, act = .move a b →
      (replay (fun _ => true) (fun _ => none) acts a).isSome = true) :
    MovesPresent (acts ++ [act]) := by
  intro before a b after hsplit
  rcases List.eq_nil_or_concat' after with rfl | ⟨after', last, rfl⟩
  · rcases List.append_inj' hsplit rfl with ⟨rfl, hlast⟩
    injection hlast with hlast
    exact hact a b hlast
  · have hinit : acts ++ [act] = (before ++ .move a b :: after') ++ [last] := by simp [hsplit]
    rcases List.append_inj' hinit rfl with ⟨hacts, -⟩
    exact h before a b after' hacts

/-- An entry that a move leaves somewhere is left there by a carry as well. -/
theorem carry_of_relocate {m s : Map K E} {a b k : K} {ea e : E} (ha : m a = some ea)
    (hs : ∀ x, m x = some e → s x = some e) (hk : relocate m a b k = some e) :
    carry s a b k = some e := by
  rw [relocate_apply ha] at hk
  split at hk
  · cases hk
  · rename_i hka
    split at hk
    · rename_i hkb
      rw [carry_apply (hs a (ha.trans hk)), if_pos hkb]
    · rename_i hkb
      cases hsa : s a with
      | none =>
        rw [carry_of_none b hsa]
        exact hs k hk
      | some ea' =>
        rw [carry_apply hsa, if_neg hkb, if_neg hka]
        exact hs k hk

/-- An action that is performed on both sides keeps an entry in the summary. -/
theorem summaryStep_of_replayStep {alive keep : E → Bool} {m s : Map K E} {act : Action K E} {k : K}
    {e : E} (hs : ∀ x, m x = some e → s x = some e)
    (hmove : ∀ a b, act = .move a b → (m a).any alive = true)
    (hk : replayStep alive m act k = some e) (hkeep : keep e = true) :
    summaryStep keep s act k = some e := by
  cases act with
  | put x e' =>
    simp only [replayStep, put_apply] at hk
    split at hk
    · rename_i hx
      obtain rfl := Option.some.inj hk
      simp [summaryStep, hkeep, hx]
    · rename_i hx
      cases hkept : keep e' <;> simp [summaryStep, hkept, hx, hs k hk]
  | drop x =>
    simp only [replayStep, drop_apply] at hk
    split at hk
    · cases hk
    · rename_i hx
      simp [summaryStep, hx, hs k hk]
  | wipe => cases hk
  | move a b =>
    obtain ⟨ea, ha, halive⟩ := (Option.any_eq_true _ _).mp (hmove a b rfl)
    rw [replayStep_move_of_alive b ha halive] at hk
    exact carry_of_relocate ha hs hk

/-- An entry worth keeping that is replayed, with everything alive, is also in the summary. -/
theorem summary_of_replay {keep : E → Bool} {acts : List (Action K E)} (h : MovesPresent acts)
    {k : K} {e : E} (hk : replay (fun _ => true) (fun _ => none) acts k = some e)
    (he : keep e = true) : summary keep (fun _ => none) acts k = some e := by
  induction acts using List.reverseRecOn generalizing k with
  | nil => cases hk
  | append_singleton acts act ih =>
    rw [replay_append, replay_cons, replay_nil] at hk
    rw [summary_append, summary_cons, summary_nil]
    apply summaryStep_of_replayStep (fun x => ih h.of_append) _ hk he
    intro a b hact
    obtain ⟨ea, ha⟩ := Option.isSome_iff_exists.mp (h acts a b [] (by rw [hact]))
    rw [ha]
    rfl

/-- A move that only the summary performs loses nothing, where it has nothing to move. -/
theorem carry_of_skipped {m s : Map K E} {a b k : K} {e : E} (hs : ∀ x, m x = some e → s x = some e)
    (hka : k ≠ a) (hskip : a ≠ b → m b = some e → s a = none) (hk : m k = some e) :
    carry s a b k = some e := by
  by_cases hab : a = b
  · subst hab
    rw [carry_self]
    exact hs k hk
  · cases hsa : s a with
    | none =>
      rw [carry_of_none b hsa]
      exact hs k hk
    | some ea =>
      have hkb : k ≠ b := by
        intro hkb
        rw [hskip hab (hkb ▸ hk)] at hsa
        cases hsa
      rw [carry_apply hsa, if_neg hkb, if_neg hka]
      exact hs k hk

/-- A summary follows a replay: what will still be alive later stays in it, unless it performs a
move that the replay did not. -/
theorem summaryStep_follows {early late keep : E → Bool}
    (hlate : ∀ e, late e = true → early e = true) (hkeep : ∀ e, late e = true → keep e = true)
    {m s : Map K E} (h : ∀ k e, m k = some e → late e = true → s k = some e) (act : Action K E)
    (hskip : ∀ a b eb, act = .move a b → a ≠ b → (m a).any early = false → m b = some eb →
      late eb = true → s a = none)
    (k : K) (e : E) (hk : replayStep early m act k = some e) (he : late e = true) :
    summaryStep keep s act k = some e := by
  have hs : ∀ x, m x = some e → s x = some e := fun x hx => h x e hx he
  by_cases hskipped : ∃ a b, act = .move a b ∧ (m a).any early = false
  · obtain ⟨a, b, rfl, hany⟩ := hskipped
    have hstay : replayStep early m (.move a b) = m := by simp [replayStep, hany]
    rw [hstay] at hk
    have hka : k ≠ a := by
      intro hka
      rw [← hka, hk] at hany
      simp [hlate e he] at hany
    exact carry_of_skipped hs hka (fun hab hb => hskip a b e rfl hab hany hb he) hk
  · apply summaryStep_of_replayStep hs _ hk (hkeep e he)
    intro a b hact
    cases hany : (m a).any early with
    | true => rfl
    | false => exact absurd ⟨a, b, hact, hany⟩ hskipped

theorem summary_follows {alive late keep : E → Bool}
    (hlate : ∀ e, late e = true → alive e = true) (hkeep : ∀ e, late e = true → keep e = true)
    {acts : List (Action K E)}
    (hskip : ∀ before a b after eb, acts = before ++ .move a b :: after → a ≠ b →
      (replay alive (fun _ => none) before a).any alive = false →
      replay alive (fun _ => none) before b = some eb → late eb = true →
      summary keep (fun _ => none) before a = none)
    (k : K) (e : E) (hk : replay alive (fun _ => none) acts k = some e) (he : late e = true) :
    summary keep (fun _ => none) acts k = some e := by
  induction acts using List.reverseRecOn generalizing k e with
  | nil => cases hk
  | append_singleton acts act ih =>
    have hrest := ih fun before a b after eb hsplit =>
      hskip before a b (after ++ [act]) eb (by simp [hsplit])
    rw [replay_append, replay_cons, replay_nil] at hk
    rw [summary_append, summary_cons, summary_nil]
    apply summaryStep_follows hlate hkeep hrest act _ k e hk he
    intro a b eb hact
    exact hskip acts a b [] eb (by rw [hact])

/-- Where a coarser ledger agrees with a finer one, an effective action keeps them in agreement. -/
theorem replayStep_refines {E' : Type v} {f : E → E'} {s : Map K E'} {p : Map K E}
    (h : ∀ k v, s k = some v → ∃ e, p k = some e ∧ f e = v) {act : Action K E}
    (heffective : Effective (fun _ => true) s (act.map f)) (k : K) (v : E')
    (hk : replayStep (fun _ => true) s (act.map f) k = some v) :
    ∃ e, replayStep (fun _ => true) p act k = some e ∧ f e = v := by
  cases act with
  | put x e' =>
    simp only [Action.map, replayStep, put_apply] at hk ⊢
    split at hk
    · rename_i hx
      rw [if_pos hx]
      exact ⟨e', rfl, Option.some.inj hk⟩
    · rename_i hx
      rw [if_neg hx]
      exact h k v hk
  | drop x =>
    simp only [Action.map, replayStep, drop_apply] at hk ⊢
    split at hk
    · cases hk
    · rename_i hx
      rw [if_neg hx]
      exact h k v hk
  | wipe => cases hk
  | move a b =>
    rcases (Option.any_eq_true _ _).mp heffective with ⟨va, hsa, -⟩
    rcases h a va hsa with ⟨ea, hpa, hfa⟩
    simp only [Action.map, replayStep, hsa, hpa, Option.any_some, if_true, relocate_apply hsa,
      relocate_apply hpa] at hk ⊢
    split at hk
    · cases hk
    · rename_i hka
      rw [if_neg hka]
      split at hk
      · rename_i hkb
        rw [if_pos hkb]
        exact ⟨ea, rfl, hfa.trans (Option.some.inj hk)⟩
      · rename_i hkb
        rw [if_neg hkb]
        exact h k v hk

end Ledger
