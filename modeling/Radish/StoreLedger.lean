import Radish.Library.Ledger
import Radish.LogWriter

/-!
# The store as a ledger

A store with a ttl is a ledger of values with their expiries, in which an entry is alive
until its expiry; a store without one is a ledger of values in which everything is alive.
The store's operations, and the replay of a log, are the ledger's `replay`.
-/

namespace Radish
set_option autoImplicit false
open Ledger

variable {V : Type}

/-- What an event does to a ledger of values with their expiries. -/
def Mutation.action : Mutation V → Action Key (V × Timestamp)
  | create timestamp key payload => .put key (payload, timestamp)
  | rename _ key renameKey => .move key renameKey
  | delete _ key => .drop key
  | clear _ => .wipe

def alive (now : Timestamp) (entry : V × Timestamp) : Bool := decide (now < entry.2)

theorem alive_mono {t t' : Timestamp} (h : t ≤ t') (entry : V × Timestamp)
    (halive : alive t' entry = true) : alive t entry = true := by
  simp only [alive, decide_eq_true_eq] at halive ⊢
  exact Int64.lt_of_le_of_lt h halive

/-- A list that acts as a list with a move in it has a rename there. -/
theorem Mutation.exists_rename {ms : List (Mutation V)} {before after : List (Action Key (V × Timestamp))}
    {a b : Key} (h : ms.map Mutation.action = before ++ .move a b :: after) :
    ∃ earlier stamp later, ms = earlier ++ .rename stamp a b :: later ∧
      earlier.map Mutation.action = before := by
  rcases List.map_eq_append_iff.mp h with ⟨earlier, rest, rfl, hearlier, hrest⟩
  rcases List.map_eq_cons_iff.mp hrest with ⟨m, later, rfl, haction, -⟩
  cases m with
  | rename stamp key renameKey =>
    injection haction with hkey hrenameKey
    subst hkey hrenameKey
    exact ⟨earlier, stamp, later, rfl, hearlier⟩
  | _ => cases haction

namespace RadishStore

def values (store : RadishStore V) : Map Key V := fun k => store.data.lookup k

def entries (store : RadishStore V) : Map Key (V × Timestamp) := fun k =>
  (store.data.lookup k).bind fun v => (store.ttlData.lookup k).map fun expiry => (v, expiry)

/-- Without a ttl no expiries are kept; with one, exactly the keys of the data have one. -/
structure Coherent (store : RadishStore V) : Prop where
  untimed : store.ttl = -1 → ∀ k, store.ttlData.lookup k = none
  timed : store.ttl ≠ -1 → ∀ k, (store.ttlData.lookup k).isSome = (store.data.lookup k).isSome

theorem hasTimeToLive_eq_true_iff (store : RadishStore V) :
    store.hasTimeToLive = true ↔ store.ttl ≠ -1 := by
  simp [hasTimeToLive]

/-- The effect of an event, once its fields are known to be there. -/
def apply (now : Timestamp) (store : RadishStore V) : Mutation V → Bool × RadishStore V
  | .create timestamp key payload => (true, (store.create now key payload (some timestamp)).2)
  | .rename _ key renameKey => store.rename now key renameKey
  | .delete _ key => store.delete key
  | .clear _ => store.clear

def applyAll (now : Timestamp) (store : RadishStore V) (ms : List (Mutation V)) : RadishStore V :=
  ms.foldl (fun store m => (store.apply now m).2) store

@[simp] theorem applyAll_cons (now : Timestamp) (store : RadishStore V) (m : Mutation V)
    (ms : List (Mutation V)) :
    store.applyAll now (m :: ms) = (store.apply now m).2.applyAll now ms := rfl

theorem applyAll_append (now : Timestamp) (store : RadishStore V) (ms ns : List (Mutation V)) :
    store.applyAll now (ms ++ ns) = (store.applyAll now ms).applyAll now ns :=
  List.foldl_append

end RadishStore

theorem LogWriter.applyEvent_toEvent (now : Timestamp) (store : RadishStore V) (m : Mutation V) :
    LogWriter.applyEvent now store m.toEvent = .ok (store.apply now m) := by
  cases m <;> rfl

theorem LogWriter.applyEvents_toEvent (now : Timestamp) (store : RadishStore V)
    (ms : List (Mutation V)) :
    LogWriter.applyEvents now store (ms.map Mutation.toEvent) = .ok (store.applyAll now ms) := by
  induction ms generalizing store with
  | nil => rfl
  | cons m ms ih =>
    rw [List.map_cons, applyEvents, applyEvent_toEvent, ok_bind]
    exact ih _

/-- Whatever event is applied, it acts as a well-formed one. -/
theorem LogWriter.apply_of_applyEvent {now : Timestamp} {store : RadishStore V}
    {event : RadishEvent V} {result : Bool × RadishStore V}
    (h : LogWriter.applyEvent now store event = .ok result) : ∃ m, result = store.apply now m := by
  unfold LogWriter.applyEvent at h
  split at h
  · obtain ⟨key, -, hpayload⟩ := bind_eq_ok_iff.mp h
    obtain ⟨payload, -, hcreate⟩ := bind_eq_ok_iff.mp hpayload
    exact ⟨.create event.timestamp key payload, (pure_eq_ok_iff.mp hcreate).symm⟩
  · obtain ⟨key, -, hrenameKey⟩ := bind_eq_ok_iff.mp h
    obtain ⟨renameKey, -, hrename⟩ := bind_eq_ok_iff.mp hrenameKey
    exact ⟨.rename event.timestamp key renameKey, (pure_eq_ok_iff.mp hrename).symm⟩
  · obtain ⟨key, -, hdelete⟩ := bind_eq_ok_iff.mp h
    exact ⟨.delete event.timestamp key, (pure_eq_ok_iff.mp hdelete).symm⟩
  · exact ⟨.clear event.timestamp, (pure_eq_ok_iff.mp h).symm⟩
  · cases h

theorem LogWriter.applyAll_of_applyEvents {now : Timestamp} {store store' : RadishStore V}
    {events : List (RadishEvent V)} (h : LogWriter.applyEvents now store events = .ok store') :
    ∃ ms, store' = store.applyAll now ms := by
  induction events generalizing store with
  | nil => exact ⟨[], (pure_eq_ok_iff.mp h).symm⟩
  | cons event events ih =>
    obtain ⟨result, hevent, hevents⟩ := bind_eq_ok_iff.mp h
    obtain ⟨m, rfl⟩ := apply_of_applyEvent hevent
    obtain ⟨ms, rfl⟩ := ih hevents
    exact ⟨m :: ms, rfl⟩

namespace RadishStore

/-! ## Rename, key by key -/

theorem rename_of_get_eq_none {now : Timestamp} {store : RadishStore V} {a : Key} (b : Key)
    (h : store.get now a = none) : store.rename now a b = (false, store) := by
  unfold get at h
  unfold rename
  cases hdata : store.data.lookup a with
  | none => rfl
  | some v =>
    have hexpired : store.isExpired now a = true := by simpa [hdata] using h
    simp [hexpired]

theorem rename_of_get_eq_some {now : Timestamp} {store : RadishStore V} {a : Key} {v : V} (b : Key)
    (h : store.get now a = some v) :
    (store.rename now a b).1 = true ∧
      (∀ x, (store.rename now a b).2.data.lookup x =
        if x = a then none else if x = b then some v else store.data.lookup x) ∧
      (∀ x, (store.rename now a b).2.ttlData.lookup x =
        if x = a then none else if x = b then store.ttlData.lookup a else store.ttlData.lookup x) := by
  unfold get at h
  cases hdata : store.data.lookup a with
  | none => simp [hdata] at h
  | some w =>
    simp only [hdata] at h
    split at h
    · cases h
    · rename_i hlive
      obtain rfl := Option.some.inj h
      unfold rename
      cases httl : store.ttlData.lookup a with
      | none =>
        simp only [hdata, hlive, Bool.false_eq_true, if_false, DataMap.lookup_erase,
          DataMap.lookup_insert, true_and, implies_true]
        intro x
        by_cases hx : x = a
        · subst hx
          simp [httl]
        · simp [hx]
      | some expiry =>
        simp [hdata, hlive, DataMap.lookup_erase, DataMap.lookup_insert]

theorem rename_fst (now : Timestamp) (store : RadishStore V) (a b : Key) :
    (store.rename now a b).1 = (store.get now a).isSome := by
  cases hget : store.get now a with
  | none => rw [rename_of_get_eq_none b hget]; rfl
  | some v => exact (rename_of_get_eq_some b hget).1

theorem clear_of_empty {store : RadishStore V} (h : ∀ k, store.data.lookup k = none) :
    store.clear = (false, store) := by
  simp [clear, (DataMap.isEmpty_entries_iff _).mpr h]

theorem clear_of_nonempty {store : RadishStore V} {k : Key} {v : V}
    (h : store.data.lookup k = some v) :
    store.clear = (true, { store with data := ∅, ttlData := ∅ }) := by
  have hne : store.data.entries.isEmpty ≠ true := by
    intro hempty
    rw [(DataMap.isEmpty_entries_iff _).mp hempty k] at h
    cases h
  simp [clear, hne]

/-! ## The keys an operation leaves alone -/

theorem kept_create {key created : Key} (store : RadishStore V) (now : Timestamp) (value : V)
    (timestamp : Option Timestamp) (hne : key ≠ created) :
    Kept key store (store.create now created value timestamp).2 := by
  by_cases httl : store.ttl = -1
  · rw [create_of_untimed httl]
    exact kept_of_lookups rfl (AList.lookup_insert_ne hne) rfl
  · rw [create_of_timed httl]
    exact kept_of_lookups rfl (AList.lookup_insert_ne hne) (AList.lookup_insert_ne hne)

theorem kept_rename {key oldKey newKey : Key} (store : RadishStore V) (now : Timestamp)
    (hold : key ≠ oldKey) (hnew : key ≠ newKey) :
    Kept key store (store.rename now oldKey newKey).2 := by
  cases hget : store.get now oldKey with
  | none =>
    rw [rename_of_get_eq_none newKey hget]
    exact .refl key store
  | some value =>
    obtain ⟨-, hdata, hexpiry⟩ := rename_of_get_eq_some newKey hget
    apply kept_of_lookups (rename_ttl now store oldKey newKey)
    · rw [hdata, if_neg hold, if_neg hnew]
    · rw [hexpiry, if_neg hold, if_neg hnew]

theorem kept_delete {key deleted : Key} (store : RadishStore V) (hne : key ≠ deleted) :
    Kept key store (store.delete deleted).2 := by
  apply kept_of_lookups (delete_ttl store deleted)
  · exact AList.lookup_erase_ne hne
  · exact AList.lookup_erase_ne hne

/-! ## Coherence -/

theorem coherent_new (ttl : Timestamp) : (new ttl : RadishStore V).Coherent :=
  ⟨fun _ _ => rfl, fun _ _ => rfl⟩

theorem Coherent.create {store : RadishStore V} (h : store.Coherent) (now : Timestamp) (key : Key)
    (v : V) (timestamp : Option Timestamp) : (store.create now key v timestamp).2.Coherent := by
  by_cases httl : store.ttl = -1
  · rw [create_of_untimed httl]
    exact ⟨h.untimed, fun hne => absurd httl hne⟩
  · rw [create_of_timed httl]
    constructor
    · exact fun heq => absurd heq httl
    · intro _ k
      dsimp only
      rw [DataMap.lookup_insert, DataMap.lookup_insert]
      split
      · rfl
      · exact h.timed httl k

theorem Coherent.rename {store : RadishStore V} (h : store.Coherent) (now : Timestamp)
    (a b : Key) : (store.rename now a b).2.Coherent := by
  cases hget : store.get now a with
  | none =>
    rw [rename_of_get_eq_none b hget]
    exact h
  | some v =>
    obtain ⟨-, hdata, httlData⟩ := rename_of_get_eq_some b hget
    have ha : (store.data.lookup a).isSome = true := by
      rw [lookup_of_get hget]
      rfl
    constructor
    · intro httl k
      rw [rename_ttl] at httl
      simp [httlData, h.untimed httl]
    · intro httl k
      rw [rename_ttl] at httl
      rw [hdata, httlData]
      split
      · rfl
      · split
        · simpa [ha] using h.timed httl a
        · exact h.timed httl k

theorem Coherent.delete {store : RadishStore V} (h : store.Coherent) (key : Key) :
    (store.delete key).2.Coherent := by
  constructor
  · intro httl k
    simp [RadishStore.delete, DataMap.lookup_erase, h.untimed httl]
  · intro httl k
    have hk := h.timed httl k
    simp only [RadishStore.delete, DataMap.lookup_erase]
    split <;> simp_all

theorem Coherent.clear {store : RadishStore V} (h : store.Coherent) : store.clear.2.Coherent := by
  unfold RadishStore.clear
  split
  · exact h
  · exact ⟨fun _ _ => rfl, fun _ _ => rfl⟩

theorem Coherent.apply {store : RadishStore V} (h : store.Coherent) (now : Timestamp)
    (m : Mutation V) : (store.apply now m).2.Coherent := by
  cases m with
  | create timestamp key payload => exact h.create now key payload _
  | rename _ key renameKey => exact h.rename now key renameKey
  | delete _ key => exact h.delete key
  | clear _ => exact h.clear

@[simp] theorem apply_ttl (now : Timestamp) (store : RadishStore V) (m : Mutation V) :
    (store.apply now m).2.ttl = store.ttl := by
  cases m <;> simp [apply]

theorem Coherent.applyAll {store : RadishStore V} (h : store.Coherent) (now : Timestamp)
    (ms : List (Mutation V)) : (store.applyAll now ms).Coherent := by
  induction ms generalizing store with
  | nil => exact h
  | cons m ms ih => exact ih (h.apply now m)

@[simp] theorem applyAll_ttl (now : Timestamp) (store : RadishStore V) (ms : List (Mutation V)) :
    (store.applyAll now ms).ttl = store.ttl := by
  induction ms generalizing store with
  | nil => rfl
  | cons m ms ih => rw [applyAll_cons, ih, apply_ttl]

/-! ## Reading -/

theorem get_of_untimed {store : RadishStore V} (h : store.Coherent) (httl : store.ttl = -1)
    (now : Timestamp) (k : Key) : store.get now k = store.values k := by
  have hnone := h.untimed httl k
  unfold get values isExpired
  cases store.data.lookup k <;> simp [hnone]

/-- With a ttl, a key shows its value until its expiry. -/
theorem get_of_expiry {store : RadishStore V} {key : Key} {value : V} {expiry : Timestamp}
    (httl : store.ttl ≠ -1) (hvalue : store.data.lookup key = some value)
    (hexpiry : store.ttlData.lookup key = some expiry) (t : Timestamp) :
    store.get t key = if t < expiry then some value else none := by
  have hlive : store.hasTimeToLive = true := (hasTimeToLive_eq_true_iff store).mpr httl
  unfold get isExpired
  rw [hvalue, hexpiry]
  by_cases hlt : t < expiry
  · simp [hlive, hlt, Int64.not_le.mpr hlt]
  · simp [hlive, hlt, Int64.not_lt.mp hlt]

theorem get_of_timed {store : RadishStore V} (h : store.Coherent) (httl : store.ttl ≠ -1)
    (now : Timestamp) (k : Key) :
    store.get now k = ((store.entries k).filter (alive now)).map Prod.fst := by
  have hk := h.timed httl k
  cases hd : store.data.lookup k with
  | none => simp [get_eq_none_of_lookup hd, entries, hd]
  | some v =>
    obtain ⟨expiry, hexpiry⟩ := Option.isSome_iff_exists.mp (hk.trans (by simp [hd]))
    rw [get_of_expiry httl hd hexpiry]
    by_cases hlt : now < expiry
    · simp [entries, hd, hexpiry, alive, hlt]
    · simp [entries, hd, hexpiry, alive, hlt, Int64.not_lt.mp hlt]

theorem get_eq_some_iff_of_timed {store : RadishStore V} (h : store.Coherent)
    (httl : store.ttl ≠ -1) {now : Timestamp} {k : Key} {v : V} :
    store.get now k = some v ↔ ∃ expiry, store.entries k = some (v, expiry) ∧ now < expiry := by
  rw [get_of_timed h httl]
  cases store.entries k with
  | none => simp
  | some e =>
    obtain ⟨w, expiry⟩ := e
    by_cases hlt : now < expiry <;> simp [alive, hlt, Option.filter]

/-! ## Refinement -/

theorem values_new (ttl : Timestamp) : (new ttl : RadishStore V).values = fun _ => none := rfl

theorem entries_create {store : RadishStore V} (httl : store.ttl ≠ -1) (now timestamp : Timestamp)
    (key : Key) (v : V) :
    (store.create now key v (some timestamp)).2.entries = put store.entries key (v, timestamp) := by
  funext k
  rw [put_apply, create_of_timed httl]
  simp only [entries, DataMap.lookup_insert, Option.getD_some]
  split <;> rfl

theorem values_create {store : RadishStore V} (now : Timestamp) (timestamp : Option Timestamp)
    (key : Key) (v : V) :
    (store.create now key v timestamp).2.values = put store.values key v := by
  funext k
  rw [put_apply]
  simp only [create, values]
  split <;> exact DataMap.lookup_insert _ _ _ _

theorem entries_rename {store : RadishStore V} (h : store.Coherent) (httl : store.ttl ≠ -1)
    (now : Timestamp) (a b : Key) :
    (store.rename now a b).2.entries =
      if (store.entries a).any (alive now) then relocate store.entries a b else store.entries := by
  cases hget : store.get now a with
  | none =>
    have hdead : (store.entries a).any (alive now) = false := by
      rw [get_of_timed h httl] at hget
      cases he : store.entries a with
      | none => rfl
      | some e => simpa [he, Option.filter] using hget
    rw [rename_of_get_eq_none b hget, hdead]
    rfl
  | some v =>
    obtain ⟨expiry, hentry, hlt⟩ := (get_eq_some_iff_of_timed h httl).mp hget
    obtain ⟨-, hdata, httlData⟩ := rename_of_get_eq_some b hget
    have halive : (store.entries a).any (alive now) = true := by
      simp [hentry, alive, hlt]
    have hexpiry : (some v).bind (fun w => (store.ttlData.lookup a).map fun expiry => (w, expiry)) =
        some (v, expiry) := by
      rw [← lookup_of_get hget]
      exact hentry
    rw [halive, if_pos rfl]
    funext x
    rw [relocate_apply hentry]
    unfold entries
    rw [hdata, httlData]
    by_cases hxa : x = a
    · simp [hxa]
    · by_cases hxb : x = b
      · rw [if_neg hxa, if_neg hxa, if_pos hxb, if_pos hxb, if_neg hxa, if_pos hxb]
        exact hexpiry
      · simp [hxa, hxb]

theorem values_rename {store : RadishStore V} (h : store.Coherent) (httl : store.ttl = -1)
    (now : Timestamp) (a b : Key) :
    (store.rename now a b).2.values = relocate store.values a b := by
  have hget := get_of_untimed h httl now a
  cases hvalue : store.values a with
  | none =>
    rw [rename_of_get_eq_none b (hget.trans hvalue), relocate_of_none b hvalue]
  | some v =>
    obtain ⟨-, hdata, -⟩ := rename_of_get_eq_some b (hget.trans hvalue)
    funext x
    rw [relocate_apply hvalue]
    exact hdata x

theorem entries_delete (store : RadishStore V) (key : Key) :
    (store.delete key).2.entries = drop store.entries key := by
  funext k
  rw [drop_apply]
  simp only [delete, entries, DataMap.lookup_erase]
  split <;> rfl

theorem values_delete (store : RadishStore V) (key : Key) :
    (store.delete key).2.values = drop store.values key := by
  funext k
  rw [drop_apply]
  exact DataMap.lookup_erase _ _ _

theorem values_clear (store : RadishStore V) : store.clear.2.values = fun _ => none := by
  by_cases hempty : ∀ k, store.data.lookup k = none
  · rw [clear_of_empty hempty]
    exact funext hempty
  · rw [not_forall] at hempty
    obtain ⟨k, hk⟩ := hempty
    obtain ⟨v, hv⟩ := Option.ne_none_iff_exists'.mp hk
    rw [clear_of_nonempty hv]
    rfl

theorem entries_clear (store : RadishStore V) : store.clear.2.entries = fun _ => none := by
  funext k
  have hk : store.clear.2.data.lookup k = none := congrFun (values_clear store) k
  simp [entries, hk]

/-- With a ttl, an event acts on the store as on the ledger of its entries. -/
theorem entries_apply {store : RadishStore V} (h : store.Coherent) (httl : store.ttl ≠ -1)
    (now : Timestamp) (m : Mutation V) :
    (store.apply now m).2.entries = replayStep (alive now) store.entries m.action := by
  cases m with
  | create timestamp key payload => exact entries_create httl now timestamp key payload
  | rename _ key renameKey => exact entries_rename h httl now key renameKey
  | delete _ key => exact entries_delete store key
  | clear _ => exact entries_clear store

/-- Without one, it acts as on the ledger of its values, all of them alive. -/
theorem values_apply {store : RadishStore V} (h : store.Coherent) (httl : store.ttl = -1)
    (now : Timestamp) (m : Mutation V) :
    (store.apply now m).2.values =
      replayStep (fun _ => true) store.values (m.action.map Prod.fst) := by
  cases m with
  | create timestamp key payload => exact values_create now _ key payload
  | rename _ key renameKey =>
    have hrename := values_rename h httl now key renameKey
    exact hrename.trans (replayStep_move_all _ _ _).symm
  | delete _ key => exact values_delete store key
  | clear _ => exact values_clear store

/-- Without a ttl, an event has an effect when its action has something to act on. -/
theorem apply_fst_iff {store : RadishStore V} (h : store.Coherent) (httl : store.ttl = -1)
    (now : Timestamp) (m : Mutation V) : (store.apply now m).1 = true ↔
      Effective (fun _ => true) store.values (m.action.map Prod.fst) := by
  cases m with
  | create timestamp key payload => exact ⟨fun _ => trivial, fun _ => rfl⟩
  | rename _ key renameKey =>
    have hget := get_of_untimed h httl now key
    cases hv : store.values key with
    | none =>
      rw [hv] at hget
      simp [apply, rename_of_get_eq_none renameKey hget, Effective, Mutation.action, Action.map, hv]
    | some v =>
      rw [hv] at hget
      simp [apply, (rename_of_get_eq_some renameKey hget).1, Effective, Mutation.action,
        Action.map, hv]
  | delete _ key => rfl
  | clear _ =>
    by_cases hempty : ∀ k, store.data.lookup k = none
    · simp [apply, clear_of_empty hempty, Effective, Mutation.action, Action.map, values, hempty]
    · have hsome : ∃ k, (store.values k).isSome = true := by
        rw [not_forall] at hempty
        rcases hempty with ⟨k, hk⟩
        exact ⟨k, Option.isSome_iff_ne_none.mpr hk⟩
      rcases hsome with ⟨k, hk⟩
      rcases Option.isSome_iff_exists.mp hk with ⟨v, hv⟩
      simp only [apply, clear_of_nonempty hv, Effective, Mutation.action, Action.map, true_iff]
      exact ⟨k, hk⟩

theorem entries_applyAll {store : RadishStore V} (h : store.Coherent) (httl : store.ttl ≠ -1)
    (now : Timestamp) (ms : List (Mutation V)) :
    (store.applyAll now ms).entries =
      Ledger.replay (alive now) store.entries (ms.map Mutation.action) := by
  induction ms generalizing store with
  | nil => rfl
  | cons m ms ih =>
    rw [applyAll_cons, ih (h.apply now m) (by rwa [apply_ttl]), entries_apply h httl]
    rfl

theorem values_applyAll {store : RadishStore V} (h : store.Coherent) (httl : store.ttl = -1)
    (now : Timestamp) (ms : List (Mutation V)) :
    (store.applyAll now ms).values =
      Ledger.replay (fun _ => true) store.values (ms.map fun m => m.action.map Prod.fst) := by
  induction ms generalizing store with
  | nil => rfl
  | cons m ms ih =>
    rw [applyAll_cons, ih (h.apply now m) (by rwa [apply_ttl]), values_apply h httl]
    rfl

/-- A fresh store after a list of events, as a ledger of entries. -/
theorem entries_fresh {ttl : Timestamp} (httl : ttl ≠ -1) (now : Timestamp) (ms : List (Mutation V)) :
    ((new ttl).applyAll now ms).entries =
      Ledger.replay (alive now) (fun _ => none) (ms.map Mutation.action) :=
  entries_applyAll (coherent_new ttl) httl now ms

theorem get_fresh {ttl : Timestamp} (httl : ttl ≠ -1) (now t : Timestamp) (ms : List (Mutation V))
    (k : Key) : ((new ttl).applyAll now ms).get t k = ((Ledger.replay (alive now) (fun _ => none)
      (ms.map Mutation.action) k).filter (alive t)).map Prod.fst := by
  rw [get_of_timed ((coherent_new ttl).applyAll now ms) (by rwa [applyAll_ttl]), entries_fresh httl]

/-- A fresh store without a ttl forgets the timestamps of the ledger. -/
theorem values_fresh (now : Timestamp) (ms : List (Mutation V)) :
    ((new (-1)).applyAll now ms).values = fun k =>
      (Ledger.replay (fun _ => true) (fun _ => none) (ms.map Mutation.action) k).map Prod.fst := by
  have hforget : (fun k => (Ledger.replay (fun _ => true) (fun _ => none)
      (ms.map Mutation.action) k).map Prod.fst) = Ledger.replay (fun _ : V => true) (fun _ => none)
      ((ms.map Mutation.action).map (Action.map Prod.fst)) :=
    @replay_map Key _ V _ (fun _ => true) (fun _ => true) Prod.fst (fun _ => rfl) _ _
  rw [values_applyAll (coherent_new (-1)) rfl, values_new, hforget, List.map_map]
  rfl

end RadishStore

end Radish
