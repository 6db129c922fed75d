import Radish.Library.Incremental

/-!
# Consumers with a bounded buffer

A consumer performs the values an incremental decoder takes off its buffer, until it stops. It
gives up when a chunk has overfilled the buffer, before it looks at what the chunk completes; so
how a stream was cut into chunks shows, unless every value fits the buffer with a chunk to spare.
-/

namespace Incremental
set_option autoImplicit false

universe u v w x y
variable {β : Type u} {α : Type v} {ε : Type w} {σ : Type x} {τ : Type y}

structure Consumer (β : Type u) (α : Type v) (ε : Type w) (σ : Type x) where
  decoder : Decoder β α ε
  limit : Nat
  stopped : σ → Bool
  perform : σ → α → σ
  reject : σ → ε → σ
  overflow : σ → σ
  stopped_reject : ∀ s e, stopped (reject s e) = true
  stopped_overflow : ∀ s, stopped (overflow s) = true

/-- Each value of a run over the stream is complete within `n` symbols, and so is the reason for
which the run is rejected, if it is. -/
inductive Decoder.Within (d : Decoder β α ε) (n : Nat) : List β → Prop where
  | complete {p rest : List β} {a : α} (alone : d.step p = .complete a []) (fits : p.length ≤ n)
      (later : Within d n rest) : Within d n (p ++ rest)
  | incomplete {s : List β} (waits : d.step s = .incomplete) : Within d n s
  | failed {p rest : List β} {e : ε} (alone : d.step p = .failed e) (fits : p.length ≤ n) :
      Within d n (p ++ rest)

namespace Decoder
variable {d : Decoder β α ε} {n : Nat}

/-- A prefix on which the decoder waits ends within the first value or rejection. -/
theorem Within.step_of_long_prefix {s r t : List β} (h : d.Within n s) (hs : s = r ++ t)
    (hr : d.step r = .incomplete) (hn : n ≤ r.length) : d.step s = .incomplete := by
  have hlong : ∀ p rest, p ++ rest = r ++ t → p.length ≤ n → ∃ q, r = p ++ q := by
    intro p rest hsplit hp
    rcases List.append_eq_append_iff.mp hsplit with ⟨q, rfl, -⟩ | ⟨q, rfl, -⟩
    · exact ⟨q, rfl⟩
    · rw [List.length_append] at hp
      have hq : q = [] := List.length_eq_zero_iff.mp (by omega)
      exact ⟨[], by simp [hq]⟩
  cases h with
  | @complete p rest a alone fits later =>
    rcases hlong p rest hs fits with ⟨q, rfl⟩
    rw [d.complete_append q alone] at hr
    cases hr
  | incomplete waits => exact waits
  | @failed p rest e alone fits =>
    rcases hlong p rest hs fits with ⟨q, rfl⟩
    rw [d.failed_append q alone] at hr
    cases hr

/-- What a waiting run leaves unread is within the bound with what follows. -/
theorem Within.of_drain {s unread t : List β} {as : List α}
    (hdrain : d.drain s = (as, .waiting unread)) (h : d.Within n (s ++ t)) :
    d.Within n (unread ++ t) := by
  induction s using d.drain_induction generalizing as with
  | complete s a rest hs ih =>
    rw [drain_complete hs, Prod.mk.injEq] at hdrain
    apply ih (Prod.ext rfl hdrain.2)
    have hstep := d.complete_append t hs
    generalize hst : s ++ t = st at h hstep
    cases h with
    | complete alone fits later =>
      rw [d.complete_append _ alone] at hstep
      injection hstep with _ hrest
      exact hrest ▸ later
    | incomplete waits =>
      rw [waits] at hstep
      cases hstep
    | failed alone fits =>
      rw [d.failed_append _ alone] at hstep
      cases hstep
  | incomplete s hs =>
    rw [drain_incomplete hs] at hdrain
    injection hdrain with _ hdrain
    injection hdrain with hdrain
    exact hdrain ▸ h
  | failed s e hs =>
    rw [drain_failed hs] at hdrain
    injection hdrain with _ hdrain
    cases hdrain

theorem length_of_drain_waiting {s unread : List β} {as : List α}
    (h : d.drain s = (as, .waiting unread)) : unread.length ≤ s.length := by
  induction s using d.drain_induction generalizing as with
  | complete s a rest hs ih =>
    rw [drain_complete hs, Prod.mk.injEq] at h
    exact Nat.le_trans (ih (Prod.ext rfl h.2)) (Nat.le_of_lt (d.shrinks hs))
  | incomplete s hs =>
    rw [drain_incomplete hs] at h
    injection h with _ h
    injection h with h
    exact Nat.le_of_eq (congrArg List.length h.symm)
  | failed s e hs =>
    rw [drain_failed hs] at h
    injection h with _ h
    cases h

/-- Waiting on a stream means waiting on every prefix of it. -/
theorem step_of_append_incomplete {s t : List β} (h : d.step (s ++ t) = .incomplete) :
    d.step s = .incomplete := by
  cases hs : d.step s with
  | complete a rest =>
    rw [d.complete_append t hs] at h
    cases h
  | incomplete => rfl
  | failed e =>
    rw [d.failed_append t hs] at h
    cases h

end Decoder

namespace Consumer
variable (c : Consumer β α ε σ)

/-- Performs what is at the front of the buffer until the consumer stops or has to wait. -/
def absorb (s : σ) (buffer : List β) : σ × List β :=
  if c.stopped s then (s, buffer)
  else
    match _h : c.decoder.step buffer with
    | .complete a rest => absorb (c.perform s a) rest
    | .incomplete => (s, buffer)
    | .failed e => (c.reject s e, buffer)
termination_by buffer.length
decreasing_by exact c.decoder.shrinks _h

/-- Takes in one more chunk. -/
def feed (st : σ × List β) (chunk : List β) : σ × List β :=
  if c.stopped st.1 then st
  else if c.limit < (st.2 ++ chunk).length then (c.overflow st.1, st.2 ++ chunk)
  else c.absorb st.1 (st.2 ++ chunk)

def feedAll (st : σ × List β) (chunks : List (List β)) : σ × List β := chunks.foldl c.feed st

def performAll (s : σ) (as : List α) : σ :=
  as.foldl (fun s a => if c.stopped s then s else c.perform s a) s

/-- What a whole stream leads to, without regard to chunks. -/
def outcome (s : σ) (stream : List β) : σ :=
  let s' := c.performAll s (c.decoder.drain stream).1
  if c.stopped s' then s'
  else
    match (c.decoder.drain stream).2 with
    | .waiting unread => if c.limit < unread.length then c.overflow s' else s'
    | .rejected e => c.reject s' e

variable {c}

@[simp] theorem performAll_nil (s : σ) : c.performAll s [] = s := rfl

theorem performAll_of_stopped {s : σ} (h : c.stopped s = true) (as : List α) :
    c.performAll s as = s := by
  induction as with
  | nil => rfl
  | cons a as ih =>
    rw [performAll, List.foldl_cons, if_pos h]
    exact ih

theorem performAll_append (s : σ) (as bs : List α) :
    c.performAll s (as ++ bs) = c.performAll (c.performAll s as) bs := List.foldl_append

theorem feedAll_append (st : σ × List β) (chunks chunks' : List (List β)) :
    c.feedAll st (chunks ++ chunks') = c.feedAll (c.feedAll st chunks) chunks' := List.foldl_append

theorem feedAll_of_stopped {st : σ × List β} (h : c.stopped st.1 = true) (chunks : List (List β)) :
    c.feedAll st chunks = st := by
  induction chunks with
  | nil => rfl
  | cons chunk chunks ih =>
    rw [feedAll, List.foldl_cons, feed, if_pos h]
    exact ih

theorem outcome_of_stopped {s : σ} (h : c.stopped s = true) (stream : List β) :
    c.outcome s stream = s := by
  simp [outcome, performAll_of_stopped h, h]

theorem absorb_of_stopped {s : σ} (h : c.stopped s = true) (buffer : List β) :
    c.absorb s buffer = (s, buffer) := by
  rw [absorb, if_pos h]

theorem absorb_complete {s : σ} {a : α} {buffer rest : List β} (hs : c.stopped s = false)
    (h : c.decoder.step buffer = .complete a rest) :
    c.absorb s buffer = c.absorb (c.perform s a) rest := by
  rw [absorb, if_neg (by simp [hs])]
  split <;> simp_all

theorem absorb_incomplete {s : σ} {buffer : List β} (h : c.decoder.step buffer = .incomplete) :
    c.absorb s buffer = (s, buffer) := by
  rw [absorb]
  split
  · rfl
  · split <;> simp_all

theorem absorb_failed {s : σ} {buffer : List β} {e : ε} (hs : c.stopped s = false)
    (h : c.decoder.step buffer = .failed e) : c.absorb s buffer = (c.reject s e, buffer) := by
  rw [absorb, if_neg (by simp [hs])]
  split <;> simp_all

/-- Absorbing a buffer performs its run as far as the consumer goes. -/
theorem absorb_fst (s : σ) (buffer : List β) :
    (c.absorb s buffer).1 =
      let s' := c.performAll s (c.decoder.drain buffer).1
      if c.stopped s' then s'
      else match (c.decoder.drain buffer).2 with
        | .waiting _ => s'
        | .rejected e => c.reject s' e := by
  induction buffer using c.decoder.drain_induction generalizing s with
  | complete buffer a rest h ih =>
    rw [Decoder.drain_complete h]
    cases hs : c.stopped s with
    | true => simp [absorb_of_stopped hs, performAll_of_stopped hs, hs]
    | false =>
      have hperform : c.performAll s (a :: (c.decoder.drain rest).1) =
          c.performAll (c.perform s a) (c.decoder.drain rest).1 := by
        simp [performAll, hs]
      rw [absorb_complete hs h, ih, hperform]
  | incomplete buffer h =>
    rw [Decoder.drain_incomplete h, absorb_incomplete h]
    exact (ite_self s).symm
  | failed buffer e h =>
    rw [Decoder.drain_failed h]
    cases hs : c.stopped s with
    | true => simp [absorb_of_stopped hs, hs]
    | false => simp [absorb_failed hs h, hs]

theorem absorb_snd {s : σ} {buffer unread : List β} {as : List α}
    (hdrain : c.decoder.drain buffer = (as, .waiting unread))
    (hs : c.stopped (c.performAll s as) = false) : (c.absorb s buffer).2 = unread := by
  induction buffer using c.decoder.drain_induction generalizing s as with
  | complete buffer a rest h ih =>
    rw [Decoder.drain_complete h, Prod.mk.injEq] at hdrain
    rcases hdrain with ⟨rfl, hend⟩
    cases hstop : c.stopped s with
    | true =>
      rw [performAll_of_stopped hstop, hstop] at hs
      cases hs
    | false =>
      rw [absorb_complete hstop h]
      apply ih (Prod.ext rfl hend)
      simpa [performAll, hstop] using hs
  | incomplete buffer h =>
    rw [Decoder.drain_incomplete h] at hdrain
    injection hdrain with _ hdrain
    injection hdrain with hdrain
    rw [absorb_incomplete h]
    exact hdrain
  | failed buffer e h =>
    rw [Decoder.drain_failed h] at hdrain
    injection hdrain with _ hdrain
    cases hdrain

/-- Chunks that leave the decoder waiting are only buffered. -/
theorem feedAll_of_waiting {s : σ} {buffer : List β} {chunks : List (List β)}
    (hs : c.stopped s = false) (hwait : c.decoder.step (buffer ++ chunks.flatten) = .incomplete)
    (hlimit : (buffer ++ chunks.flatten).length ≤ c.limit) :
    c.feedAll (s, buffer) chunks = (s, buffer ++ chunks.flatten) := by
  induction chunks generalizing buffer with
  | nil => simp [feedAll]
  | cons chunk chunks ih =>
    rw [List.flatten_cons, ← List.append_assoc] at hwait hlimit ⊢
    have hfits : (buffer ++ chunk).length ≤ c.limit := by
      rw [List.length_append] at hlimit
      omega
    have hfeed : c.feed (s, buffer) chunk = (s, buffer ++ chunk) := by
      rw [feed, if_neg (by simp [hs]), if_neg (Nat.not_lt.mpr hfits),
        absorb_incomplete (Decoder.step_of_append_incomplete hwait)]
    rw [feedAll, List.foldl_cons, hfeed]
    exact ih hwait hlimit

theorem outcome_of_overfull {s : σ} {stream : List β} (hs : c.stopped s = false)
    (hwait : c.decoder.step stream = .incomplete) (hlong : c.limit < stream.length) :
    c.outcome s stream = c.overflow s := by
  simp only [outcome, Decoder.drain_incomplete hwait, performAll_nil, hs, Bool.false_eq_true,
    if_false, if_pos hlong]

/-- If everything fits the buffer with a chunk to spare, the chunks lead where the stream does. -/
theorem feedAll_eq_outcome {n chunkSize : Nat} (hspare : n + chunkSize ≤ c.limit + 1) {s : σ}
    {buffer : List β} {chunks : List (List β)} (hwait : c.decoder.step buffer = .incomplete)
    (hbuffer : buffer.length ≤ c.limit) (hchunks : ∀ chunk ∈ chunks, chunk.length ≤ chunkSize)
    (hwithin : c.decoder.Within n (buffer ++ chunks.flatten)) :
    (c.feedAll (s, buffer) chunks).1 = c.outcome s (buffer ++ chunks.flatten) := by
  induction chunks generalizing s buffer with
  | nil =>
    rw [List.flatten_nil, List.append_nil]
    simp [feedAll, outcome, Decoder.drain_incomplete hwait, Nat.not_lt.mpr hbuffer]
  | cons chunk chunks ih =>
    cases hs : c.stopped s with
    | true => rw [feedAll_of_stopped hs, outcome_of_stopped hs]
    | false =>
      rw [feedAll, List.foldl_cons, feed, if_neg (by simp [hs])]
      rw [List.flatten_cons] at hwithin ⊢
      by_cases hover : c.limit < (buffer ++ chunk).length
      · -- the buffer was too full for anything to be complete in it
        have hlong : n ≤ buffer.length := by
          have hchunk := hchunks chunk List.mem_cons_self
          rw [List.length_append] at hover
          omega
        have hstep := hwithin.step_of_long_prefix rfl hwait hlong
        rw [if_pos hover]
        refine (congrArg Prod.fst (feedAll_of_stopped (c.stopped_overflow s) chunks)).trans ?_
        have hlength : c.limit < (buffer ++ (chunk ++ chunks.flatten)).length := by
          simp only [List.length_append] at hover ⊢
          omega
        exact (outcome_of_overfull hs hstep hlength).symm
      · rw [if_neg hover]
        rw [← List.append_assoc] at hwithin ⊢
        have habsorb := absorb_fst (c := c) s (buffer ++ chunk)
        rcases hdrain : c.decoder.drain (buffer ++ chunk) with ⟨as, unread | e⟩
        · rw [hdrain] at habsorb
          simp only [ite_self] at habsorb
          have hwhole := Decoder.drain_append_of_waiting hdrain chunks.flatten
          cases hstop : c.stopped (c.performAll s as) with
          | true =>
            rw [← habsorb] at hstop
            refine (congrArg Prod.fst (feedAll_of_stopped hstop chunks)).trans ?_
            rw [habsorb] at hstop ⊢
            simp only [outcome, hwhole, performAll_append, performAll_of_stopped hstop, hstop, if_true]
          | false =>
            have hrest : c.absorb s (buffer ++ chunk) = (c.performAll s as, unread) :=
              Prod.ext habsorb (absorb_snd hdrain hstop)
            have hunread := Decoder.length_of_drain_waiting hdrain
            rw [hrest]
            refine (ih (Decoder.step_of_drain_waiting hdrain) (by omega)
              (fun x hx => hchunks x (List.mem_cons_of_mem _ hx)) (hwithin.of_drain hdrain)).trans ?_
            simp only [outcome, hwhole, performAll_append]
        · rw [hdrain] at habsorb
          have hwhole := Decoder.drain_append_of_rejected hdrain chunks.flatten
          have hstop : c.stopped (c.absorb s (buffer ++ chunk)).1 = true := by
            rw [habsorb]
            dsimp only
            split
            · assumption
            · exact c.stopped_reject _ _
          refine (congrArg Prod.fst (feedAll_of_stopped hstop chunks)).trans ?_
          rw [habsorb]
          simp only [outcome, hwhole]

/-! ## What a whole stream leads to, value by value -/

theorem outcome_complete {s : σ} {a : α} {stream rest : List β} (hs : c.stopped s = false)
    (h : c.decoder.step stream = .complete a rest) :
    c.outcome s stream = c.outcome (c.perform s a) rest := by
  have hperform : ∀ as, c.performAll s (a :: as) = c.performAll (c.perform s a) as := by
    intro as
    simp [performAll, hs]
  simp only [outcome, Decoder.drain_complete h, hperform]

theorem outcome_incomplete {s : σ} {stream : List β} (hs : c.stopped s = false)
    (h : c.decoder.step stream = .incomplete) :
    c.outcome s stream = if c.limit < stream.length then c.overflow s else s := by
  simp only [outcome, Decoder.drain_incomplete h, performAll_nil, hs, Bool.false_eq_true, if_false]

theorem outcome_failed {s : σ} {stream : List β} {e : ε} (hs : c.stopped s = false)
    (h : c.decoder.step stream = .failed e) : c.outcome s stream = c.reject s e := by
  simp only [outcome, Decoder.drain_failed h, performAll_nil, hs, Bool.false_eq_true, if_false]

/-! ## Consumers that know less -/

/-- The consumer `c'` does as `c` does on what `view` shows of the states of `c`. There may be states
in which `c` has stopped for reasons of its own; there it is `lost`. -/
structure Projection (c : Consumer β α ε σ) (c' : Consumer β α ε τ) (view : σ → τ)
    (lost : σ → Prop) : Prop where
  decoder : c'.decoder = c.decoder
  limit : c'.limit = c.limit
  lost_stopped : ∀ s, lost s → c.stopped s = true
  stopped : ∀ s, ¬lost s → c'.stopped (view s) = c.stopped s
  perform : ∀ s a, ¬lost s → c.stopped s = false →
    lost (c.perform s a) ∨ c'.perform (view s) a = view (c.perform s a)
  reject : ∀ s e, ¬lost s → c'.reject (view s) e = view (c.reject s e)
  overflow : ∀ s, ¬lost s → c'.overflow (view s) = view (c.overflow s)

namespace Projection
variable {c' : Consumer β α ε τ} {view : σ → τ} {lost : σ → Prop}

theorem absorb (h : Projection c c' view lost) {s : σ} (hs : ¬lost s) (buffer : List β) :
    lost (c.absorb s buffer).1 ∨
      c'.absorb (view s) buffer = (view (c.absorb s buffer).1, (c.absorb s buffer).2) := by
  induction buffer using c.decoder.drain_induction generalizing s with
  | complete buffer a rest hstep ih =>
    cases hstop : c.stopped s with
    | true =>
      have hstop' := (h.stopped s hs).trans hstop
      exact Or.inr (by rw [absorb_of_stopped hstop, absorb_of_stopped hstop'])
    | false =>
      have hstop' := (h.stopped s hs).trans hstop
      rw [absorb_complete hstop hstep, absorb_complete hstop' (h.decoder ▸ hstep)]
      by_cases hlost : lost (c.perform s a)
      · rw [absorb_of_stopped (h.lost_stopped _ hlost)]
        exact Or.inl hlost
      · obtain hlost' | hperform := h.perform s a hs hstop
        · exact absurd hlost' hlost
        · rw [hperform]
          exact ih hlost
  | incomplete buffer hstep =>
    right
    rw [absorb_incomplete hstep, absorb_incomplete (h.decoder ▸ hstep)]
  | failed buffer e hstep =>
    right
    cases hstop : c.stopped s with
    | true =>
      have hstop' := (h.stopped s hs).trans hstop
      rw [absorb_of_stopped hstop, absorb_of_stopped hstop']
    | false =>
      have hstop' := (h.stopped s hs).trans hstop
      rw [absorb_failed hstop hstep, absorb_failed hstop' (h.decoder ▸ hstep), h.reject s e hs]

/-- Taking in one more chunk shows no difference, unless the consumer has lost its way. -/
theorem feed (h : Projection c c' view lost) {s : σ} (hs : ¬lost s) (buffer chunk : List β) :
    lost (c.feed (s, buffer) chunk).1 ∨
      c'.feed (view s, buffer) chunk =
        (view (c.feed (s, buffer) chunk).1, (c.feed (s, buffer) chunk).2) := by
  unfold Consumer.feed
  dsimp only
  rw [h.stopped s hs, h.limit]
  split
  · exact Or.inr rfl
  · split
    · exact Or.inr (by rw [h.overflow s hs])
    · exact h.absorb hs _

end Projection

end Consumer

end Incremental
