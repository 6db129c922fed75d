import Mathlib.Data.Set.Card
import Radish.ReachableStore

/-!
# Keyspaces

What the database is about: which keys are bound to what, and until when. Its calls act on this
map alone, with or without a log, and the store's two maps are one way to keep it.
-/

namespace Radish
set_option autoImplicit false

open Ledger

variable {V : Type}

/-- A value and the time from which it is no longer shown, if there is one. -/
structure Binding (V : Type) where
  value : V
  deadline : Option Timestamp

def Binding.alive (now : Timestamp) (binding : Binding V) : Bool :=
  binding.deadline.all fun deadline => now < deadline

/-- A keyspace also holds what has expired, until it is overwritten or deleted. -/
abbrev Keyspace (V : Type) := Ledger.Map Key (Binding V)

/-- What is to be seen of a keyspace at a time. -/
def Keyspace.shown (now : Timestamp) (keyspace : Keyspace V) (key : Key) : Option V :=
  (visible (Binding.alive now) keyspace key).map Binding.value

/-- The deadline of what is created now. -/
def deadline (ttl now : Timestamp) : Option Timestamp := if ttl = -1 then none else some (now + ttl)

/-- What a call does to the keyspace. -/
def RadishDB.Call.effect (ttl now : Timestamp) : RadishDB.Call V → Action Key (Binding V)
  | .create key value => .put key ⟨value, deadline ttl now⟩
  | .rename oldKey newKey => .move oldKey newKey
  | .delete key => .drop key
  | .clear => .wipe

namespace RadishStore

def keyspace (store : RadishStore V) : Keyspace V := fun key =>
  (store.data.lookup key).map fun value => ⟨value, store.ttlData.lookup key⟩

theorem isSome_keyspace (store : RadishStore V) (key : Key) :
    (store.keyspace key).isSome = (store.data.lookup key).isSome := Option.isSome_map

theorem keyspace_eq_of_kept {before after : RadishStore V} {key : Key} (h : Kept key before after) :
    after.keyspace key = before.keyspace key := by
  rw [keyspace, keyspace, h.value, h.expiry]

section Views
variable {store : RadishStore V}

theorem Coherent.get_eq_shown (h : store.Coherent) (now : Timestamp) (key : Key) :
    store.get now key = store.keyspace.shown now key := by
  cases hdata : store.data.lookup key with
  | none => simp [get, Keyspace.shown, visible, keyspace, hdata]
  | some value =>
    by_cases httl : store.ttl = -1
    · have hnone := h.untimed httl key
      rw [get_of_untimed h httl]
      simp [values, Keyspace.shown, visible, keyspace, hdata, hnone, Binding.alive]
    · have htimed := h.timed httl key
      rw [hdata] at htimed
      obtain ⟨expiry, hexpiry⟩ := Option.isSome_iff_exists.mp htimed
      rw [get_of_expiry httl hdata hexpiry]
      by_cases hlt : now < expiry
      · simp [Keyspace.shown, visible, keyspace, hdata, hexpiry, Binding.alive, hlt]
      · simp [Keyspace.shown, visible, keyspace, hdata, hexpiry, Binding.alive, hlt]

theorem Coherent.get_eq_some_iff (h : store.Coherent) {now : Timestamp} {key : Key} {value : V} :
    store.get now key = some value ↔ ∃ binding, store.keyspace key = some binding ∧
      binding.alive now = true ∧ binding.value = value := by
  simp only [h.get_eq_shown, Keyspace.shown, Option.map_eq_some_iff, visible_eq_some_iff, and_assoc]

theorem Coherent.exists_eq_shown (h : store.Coherent) (now : Timestamp) (key : Key) :
    store.exists now key = (store.keyspace.shown now key).isSome := by
  rw [exists_eq_get, h.get_eq_shown]

theorem Coherent.any_keyspace (h : store.Coherent) (now : Timestamp) (key : Key) :
    (store.keyspace key).any (Binding.alive now) = (store.get now key).isSome := by
  rw [h.get_eq_shown, Keyspace.shown, Option.isSome_map, visible]
  cases store.keyspace key with
  | none => rfl
  | some binding => cases halive : binding.alive now <;> simp [Option.filter, halive]

theorem Coherent.size_eq_ncard (h : store.Coherent) (now : Timestamp) :
    store.size now = Set.ncard {key | (store.keyspace.shown now key).isSome = true} := by
  have hset : {key | (store.keyspace.shown now key).isSome = true} =
      ((store.scan .listed now).toFinset : Set Key) := by
    ext key
    rw [List.coe_toFinset, Set.mem_ofPred_eq, Set.mem_ofPred_eq, mem_scan_iff, h.exists_eq_shown]
  rw [hset, Set.ncard_coe_finset, List.toFinset_card_of_nodup (nodup_scan .listed now store),
    ← size_eq_length_scan]

end Views

/-! ## Events -/

/-- An entry of a log, opened with this ttl. -/
def binding (ttl : Timestamp) (entry : V × Timestamp) : Binding V :=
  ⟨entry.1, if ttl = -1 then none else some entry.2⟩

section Events
variable {store : RadishStore V}

theorem Coherent.keyspace_of_untimed (h : store.Coherent) (httl : store.ttl = -1) :
    store.keyspace = fun key => (store.values key).map fun value => ⟨value, none⟩ := by
  funext key
  rw [keyspace, h.untimed httl key]
  rfl

theorem Coherent.keyspace_of_timed (h : store.Coherent) (httl : store.ttl ≠ -1) :
    store.keyspace = fun key => (store.entries key).map (binding store.ttl) := by
  funext key
  have htimed := h.timed httl key
  cases hdata : store.data.lookup key with
  | none => simp [keyspace, entries, hdata]
  | some value =>
    rw [hdata] at htimed
    obtain ⟨expiry, hexpiry⟩ := Option.isSome_iff_exists.mp htimed
    simp [keyspace, entries, binding, hdata, hexpiry, httl]

/-- An event acts on the store as on its keyspace. -/
theorem Coherent.keyspace_apply (h : store.Coherent) (now : Timestamp) (m : Mutation V) :
    (store.apply now m).2.keyspace =
      replayStep (Binding.alive now) store.keyspace (m.action.map (binding store.ttl)) := by
  by_cases httl : store.ttl = -1
  · have hafter : (store.apply now m).2.ttl = -1 := by rw [apply_ttl, httl]
    have hmap : (m.action.map Prod.fst).map (fun value => (⟨value, none⟩ : Binding V)) =
        m.action.map (binding store.ttl) := by
      cases m <;> simp [Mutation.action, Action.map, binding, httl]
    rw [(h.apply now m).keyspace_of_untimed hafter, values_apply h httl, h.keyspace_of_untimed httl,
      ← hmap]
    have hkept : ∀ value, (⟨value, none⟩ : Binding V).alive now = true := fun _ => rfl
    exact replayStep_map _ hkept store.values _
  · have hafter : (store.apply now m).2.ttl ≠ -1 := by rwa [apply_ttl]
    rw [(h.apply now m).keyspace_of_timed hafter, apply_ttl, entries_apply h httl,
      h.keyspace_of_timed httl]
    refine replayStep_map _ (fun entry => ?_) store.entries _
    simp [Binding.alive, binding, httl, alive]

/-- It has an effect when there is something in the keyspace to act on. -/
theorem Coherent.apply_fst_iff_effective (h : store.Coherent) (now : Timestamp) (m : Mutation V) :
    (store.apply now m).1 = true ↔
      Effective (Binding.alive now) store.keyspace (m.action.map (binding store.ttl)) := by
  cases m with
  | create timestamp key payload => exact ⟨fun _ => trivial, fun _ => rfl⟩
  | rename _ key renameKey =>
    change (store.rename now key renameKey).1 = true ↔
      (store.keyspace key).any (Binding.alive now) = true
    rw [rename_fst, h.any_keyspace]
  | delete _ key =>
    change (store.delete key).1 = true ↔ (store.keyspace key).isSome = true
    rw [isSome_keyspace]
    rfl
  | clear _ =>
    change store.clear.1 = true ↔ ∃ key, (store.keyspace key).isSome = true
    simp only [isSome_keyspace]
    by_cases hempty : ∀ k, store.data.lookup k = none
    · simp [clear_of_empty hempty, hempty]
    · rw [not_forall] at hempty
      obtain ⟨key, hkey⟩ := hempty
      obtain ⟨value, hvalue⟩ := Option.ne_none_iff_exists'.mp hkey
      rw [clear_of_nonempty hvalue]
      exact ⟨fun _ => ⟨key, by rw [hvalue]; rfl⟩, fun _ => rfl⟩

end Events

end RadishStore

namespace RadishDB

theorem Call.action_mutation (c : Call V) (store : RadishStore V) (now : Timestamp) :
    (c.mutation (store.newExpiryTimestamp now)).action.map (RadishStore.binding store.ttl) =
      c.effect store.ttl now := by
  cases c with
  | create key value =>
    by_cases httl : store.ttl = -1
    · simp [mutation, Mutation.action, Action.map, effect, RadishStore.binding, deadline, httl]
    · simp [mutation, Mutation.action, Action.map, effect, RadishStore.binding, deadline, httl,
        RadishStore.newExpiryTimestamp, RadishStore.hasTimeToLive]
  | rename oldKey newKey => rfl
  | delete key => rfl
  | clear => rfl

variable [BinaryValue V]

/-- What a call that returns has done to the keyspace, and what its result tells. -/
theorem call_keyspace {fault : Option Fault} {now : Timestamp} {db db' : RadishDB V} {c : Call V}
    {found : Bool} (h : db.store.Coherent) (hcall : db.call fault now c = (.ok found, db')) :
    (found = true ↔
        Effective (Binding.alive now) db.store.keyspace (c.effect db.store.ttl now)) ∧
      db'.store.keyspace =
        replayStep (Binding.alive now) db.store.keyspace (c.effect db.store.ttl now) := by
  rw [call_eq_commit] at hcall
  obtain ⟨hfound, hstore⟩ := commit_ok hcall
  rw [← c.action_mutation db.store now]
  generalize c.mutation (db.store.newExpiryTimestamp now) = m at hfound hstore
  have heffective := h.apply_fst_iff_effective now m
  rw [← hfound] at heffective
  refine ⟨heffective, ?_⟩
  cases found with
  | true =>
    rw [hstore, if_pos rfl]
    exact h.keyspace_apply now m
  | false =>
    rw [hstore, if_neg Bool.false_ne_true]
    exact (replayStep_of_idle fun h => Bool.false_ne_true (heffective.mpr h)).symm

/-- The store of a database stays a way to keep a keyspace, whatever is called. -/
theorem call_coherent {db : RadishDB V} (h : db.store.Coherent) (fault : Option Fault)
    (now : Timestamp) (c : Call V) :
    (db.call fault now c).2.store.Coherent ∧ (db.call fault now c).2.store.ttl = db.store.ttl := by
  obtain hstore | hstore := call_store fault now db c
  · rw [hstore]
    exact ⟨h, rfl⟩
  · rw [hstore]
    exact ⟨h.apply now _, RadishStore.apply_ttl _ _ _⟩

end RadishDB

end Radish
