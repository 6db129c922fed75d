import Mathlib.Data.Finset.Card
import Radish.CallHistory
import Radish.Handlers

/-!
# What `RENAME` and `DEL` do to the keys

Renaming a live key moves its binding, unless the key is renamed onto itself. Deleting counts the
keys the map holds, and an expired entry is held until something overwrites or deletes it.
-/

namespace Radish
set_option autoImplicit false

variable {V : Type}

namespace RadishStore

/-! ## Rename -/

/-- The binding of `oldKey` is found at `newKey` from now on, and every other one where it was. -/
structure Moved (now : Timestamp) (oldKey newKey : Key) (before after : RadishStore V) : Prop where
  value : ∀ t ≥ now, after.get t newKey = before.get t oldKey
  expiry : after.ttlData.lookup newKey = before.ttlData.lookup oldKey
  gone : oldKey ≠ newKey → ∀ t ≥ now, after.exists t oldKey = false
  others : ∀ key, key ≠ oldKey → key ≠ newKey → Kept key before after

/-- Renaming moves one binding, that of a live key, and touches nothing else. -/
structure RenameMoves (now : Timestamp) (store : RadishStore V) (oldKey newKey : Key) : Prop where
  result : (store.rename now oldKey newKey).1 = true ↔ store.exists now oldKey = true
  moved : (store.rename now oldKey newKey).1 = true →
    Moved now oldKey newKey store (store.rename now oldKey newKey).2
  unchanged : (store.rename now oldKey newKey).1 = false →
    (store.rename now oldKey newKey).2 = store

theorem moved_of_ne {now : Timestamp} {store : RadishStore V} {oldKey newKey : Key} {value : V}
    (hne : oldKey ≠ newKey) (hget : store.get now oldKey = some value) :
    Moved now oldKey newKey store (store.rename now oldKey newKey).2 := by
  obtain ⟨-, hdata, hexpiry⟩ := rename_of_get_eq_some newKey hget
  have hdata_new : (store.rename now oldKey newKey).2.data.lookup newKey =
      store.data.lookup oldKey := by
    rw [hdata, if_neg hne.symm, if_pos rfl, lookup_of_get hget]
  have hexpiry_new : (store.rename now oldKey newKey).2.ttlData.lookup newKey =
      store.ttlData.lookup oldKey := by
    rw [hexpiry, if_neg hne.symm, if_pos rfl]
  constructor
  · intro t _
    exact get_eq_of_lookups (rename_ttl now store oldKey newKey) hdata_new hexpiry_new t
  · exact hexpiry_new
  · intro _ t _
    rw [exists_eq_false_iff]
    apply get_eq_none_of_lookup
    rw [hdata, if_pos rfl]
  · intro key hold hnew
    exact kept_rename store now hold hnew

/-- A live key renamed onto itself is erased. -/
theorem get_rename_self {now : Timestamp} {store : RadishStore V} {key : Key} {value : V}
    (hget : store.get now key = some value) (t : Timestamp) :
    (store.rename now key key).2.get t key = none := by
  obtain ⟨-, hdata, -⟩ := rename_of_get_eq_some key hget
  apply get_eq_none_of_lookup
  rw [hdata, if_pos rfl]

/-- Renaming does what it should unless a live key is renamed onto itself. -/
theorem renameMoves_iff (now : Timestamp) (store : RadishStore V) (oldKey newKey : Key) :
    RenameMoves now store oldKey newKey ↔
      oldKey ≠ newKey ∨ store.exists now oldKey = false := by
  cases hget : store.get now oldKey with
  | none =>
    refine iff_of_true ?_ (Or.inr (exists_eq_false_iff.mpr hget))
    have hrename := rename_of_get_eq_none newKey hget
    constructor
    · rw [hrename, exists_eq_get, hget]
      rfl
    · intro htrue
      rw [hrename] at htrue
      cases htrue
    · intro _
      rw [hrename]
  | some value =>
    have htrue := (rename_of_get_eq_some newKey hget).1
    have hexists : store.exists now oldKey = true := by
      rw [exists_eq_get, hget]
      rfl
    constructor
    · intro hmoves
      apply Or.inl
      intro heq
      subst heq
      have hvalue := (hmoves.moved htrue).value now (Int64.le_refl now)
      rw [get_rename_self hget, hget] at hvalue
      cases hvalue
    · intro hcondition
      obtain hne | hdead := hcondition
      · refine ⟨iff_of_true htrue hexists, fun _ => moved_of_ne hne hget, fun hfalse => ?_⟩
        rw [htrue] at hfalse
        cases hfalse
      · rw [hexists] at hdead
        cases hdead

theorem rename_self_loses_value :
    ¬ RenameMoves 0 ((new (-1) : RadishStore Bytes).create 0 [107] [118] none).2 [107] [107] := by
  intro hmoves
  have hvalue := (hmoves.moved rfl).value 0 (Int64.le_refl 0)
  revert hvalue
  decide

/-! ## Delete -/

/-- An entry has expired and is still in the map. -/
def Lingers (now : Timestamp) (store : RadishStore V) (key : Key) : Prop :=
  store.isExpired now key = true ∧ (store.data.lookup key).isSome = true

/-- The map holds the keys that exist and those that linger. -/
theorem exists_eq_lookup_iff {now : Timestamp} {store : RadishStore V} {key : Key} :
    (store.data.lookup key).isSome = store.exists now key ↔ ¬ store.Lingers now key := by
  unfold RadishStore.exists Lingers
  by_cases hexpired : store.isExpired now key = true
  · rw [if_pos hexpired]
    simp [hexpired]
  · rw [if_neg hexpired]
    simp [hexpired]

theorem lookup_isSome_of_exists {now : Timestamp} {store : RadishStore V} {key : Key}
    (h : store.exists now key = true) : (store.data.lookup key).isSome = true := by
  unfold RadishStore.exists at h
  split at h
  · cases h
  · exact h

end RadishStore

namespace RadishDB
variable [BinaryValue V]

/-- A `Delete` that returns has removed the key, and tells whether the map held it. -/
theorem delete_ok {fault : Option Fault} {now : Timestamp} {db db' : RadishDB V} {key : Key}
    {found : Bool} (h : db.delete fault now key = (.ok found, db')) :
    found = (db.store.data.lookup key).isSome ∧ db'.store.data.lookup key = none ∧
      ∀ other, other ≠ key → RadishStore.Kept other db.store db'.store := by
  obtain ⟨hfound, hstore⟩ := commit_ok (m := .delete (-1) key) h
  refine ⟨hfound, ?_⟩
  rw [hstore]
  cases found with
  | false =>
    rw [if_neg Bool.false_ne_true]
    exact ⟨Option.isNone_iff_eq_none.mp (Option.isSome_eq_false_iff.mp hfound.symm),
      fun other _ => .refl other db.store⟩
  | true =>
    rw [if_pos rfl]
    exact ⟨AList.lookup_erase key _, fun other hne => RadishStore.kept_delete db.store hne⟩

end RadishDB

namespace Session
open Postcondition

/-- The different keys of the list that the map holds. -/
def held (store : RadishStore Bytes) (keys : List Key) : Finset Key :=
  keys.toFinset.filter fun key => (store.data.lookup key).isSome = true

theorem mem_held {store : RadishStore Bytes} {keys : List Key} {key : Key} :
    key ∈ held store keys ↔ key ∈ keys ∧ (store.data.lookup key).isSome = true := by
  rw [held, Finset.mem_filter, List.mem_toFinset]

/-- Removing the first key leaves the rest of the keys to count. -/
theorem card_held_cons {before after : RadishStore Bytes} {key : Key} (keys : List Key)
    (hgone : after.data.lookup key = none)
    (hkept : ∀ other, other ≠ key → RadishStore.Kept other before after) :
    (if (before.data.lookup key).isSome then 1 else 0) + (held after keys).card =
      (held before (key :: keys)).card := by
  have hrest : held after keys = (held before (key :: keys)).erase key := by
    ext other
    rw [Finset.mem_erase, mem_held, mem_held, List.mem_cons]
    by_cases heq : other = key
    · subst heq
      simp [hgone]
    · simp [heq, (hkept other heq).value]
  rw [hrest]
  split
  · rename_i hfound
    rw [Nat.add_comm]
    exact Finset.card_erase_add_one (mem_held.mpr ⟨List.mem_cons_self, hfound⟩)
  · rename_i habsent
    rw [Nat.zero_add, Finset.erase_eq_of_notMem fun hmem => habsent (mem_held.mp hmem).2]

/-- The loop of `DEL` counts the keys the map holds, and removes them. -/
theorem countKeys_delete (env : Environment) (keys : List Key) (s : Service) :
    Ensures (countKeys (fun key => commit env fun fault now database =>
        database.delete fault now key) keys) s fun deleted s' =>
      deleted = (held s.database.store keys).card ∧
        (∀ key ∈ keys, s'.database.store.data.lookup key = none) ∧
        ∀ key ∉ keys, RadishStore.Kept key s.database.store s'.database.store := by
  induction keys generalizing s with
  | nil =>
    rw [countKeys, ensures_pure]
    exact ⟨rfl, List.forall_mem_nil _, fun key _ => .refl key _⟩
  | cons key keys ih =>
    simp only [countKeys, ensures_bind, ensures_commit, ensures_pure]
    intro found database hdelete
    obtain ⟨hfound, hgone, hkept⟩ := RadishDB.delete_ok hdelete
    refine (ih { s with database, calls := s.calls + 1 }).mono ?_
    intro later s' hlater
    obtain ⟨hcount, hlaterGone, hlaterKept⟩ := hlater
    refine ⟨?_, ?_, ?_⟩
    · rw [hcount, hfound]
      exact card_held_cons keys hgone hkept
    · intro other hmem
      by_cases hother : other ∈ keys
      · exact hlaterGone other hother
      · obtain rfl | hrest := List.mem_cons.mp hmem
        · rw [(hlaterKept other hother).value, hgone]
        · exact absurd hrest hother
    · intro other hnot
      rw [List.mem_cons, not_or] at hnot
      exact (hkept other hnot.1).trans (hlaterKept other hnot.2)

/-- A `DEL` that is answered has counted and removed the keys that the map held. -/
theorem dispatch_delete {name : Bytes} {keys : List Key} (hname : uppercase name = ascii "DEL")
    (hkeys : keys ≠ []) (env : Environment) (s : Service) :
    Ensures (dispatch env ⟨name :: keys⟩) s fun result s' =>
      result.1 = RespCodec.integer (held s.database.store keys).card ∧
        (∀ key ∈ keys, s'.database.store.data.lookup key = none) ∧
        ∀ key ∉ keys, RadishStore.Kept key s.database.store s'.database.store := by
  obtain ⟨key, rest, rfl⟩ := List.exists_cons_of_ne_nil hkeys
  have hlookup : commandHandlers.lookup (uppercase ((name :: key :: rest).headD [])) =
      some handleDelete := by
    rw [List.headD_cons, hname]
    rfl
  rw [dispatch_of_lookup hlookup]
  unfold handleDelete
  simp only [ensures_bind, ensures_pure]
  refine (countKeys_delete env (key :: rest) s).mono ?_
  intro deleted s' hdeleted
  exact ⟨congrArg (fun n : Nat => RespCodec.integer n) hdeleted.1, hdeleted.2⟩

/-- The different keys of the list that exist. -/
def live (now : Timestamp) (database : RadishDB Bytes) (keys : List Key) : Finset Key :=
  keys.toFinset.filter fun key => database.exists now key = true

/-- `DEL` replies with the number of the keys that existed, and removes these keys only. -/
structure DeletesLive (now : Timestamp) (keys : List Key) (before after : RadishDB Bytes)
    (response : Bytes) : Prop where
  reply : response = RespCodec.integer (live now before keys).card
  gone : ∀ key ∈ keys, ∀ t, after.exists t key = false
  others : ∀ key ∉ keys, RadishStore.Kept key before.store after.store

theorem integer_natCast_inj {m n : Nat} :
    RespCodec.integer m = RespCodec.integer n ↔ m = n := by
  constructor
  · intro h
    have hm : ¬ (m : Int) < 0 := by omega
    have hn : ¬ (n : Int) < 0 := by omega
    have hprint : Decimal.print m = Decimal.print n := by
      simpa [RespCodec.integer, hm, hn] using h
    rw [← Decimal.read_print m, hprint, Decimal.read_print]
  · intro h
    rw [h]

theorem card_live_eq_iff (now : Timestamp) (database : RadishDB Bytes) (keys : List Key) :
    (held database.store keys).card = (live now database keys).card ↔
      ∀ key ∈ keys, ¬ database.store.Lingers now key := by
  have hsubset : live now database keys ⊆ held database.store keys := by
    intro key hkey
    obtain ⟨hmem, hexists⟩ := Finset.mem_filter.mp hkey
    exact Finset.mem_filter.mpr ⟨hmem, RadishStore.lookup_isSome_of_exists hexists⟩
  constructor
  · intro hcard key hmem
    have heq := Finset.eq_of_subset_of_card_le hsubset hcard.le
    rw [← RadishStore.exists_eq_lookup_iff, Bool.eq_iff_iff]
    have hkey := Finset.ext_iff.mp heq.symm key
    rw [mem_held, live, Finset.mem_filter, List.mem_toFinset] at hkey
    simpa [hmem, RadishDB.exists] using hkey
  · intro hnone
    apply congrArg Finset.card
    ext key
    rw [mem_held, live, Finset.mem_filter, List.mem_toFinset]
    apply and_congr_right
    intro hmem
    rw [RadishStore.exists_eq_lookup_iff.mpr (hnone key hmem)]
    rfl

/-- `DEL` does what it should unless it meets an entry that has expired. -/
theorem delete_counts_live_iff {env : Environment} {s s' : Service} {name : Bytes}
    {keys : List Key} {response : Bytes} {close : Bool} (hname : uppercase name = ascii "DEL")
    (hkeys : keys ≠ [])
    (hreply : dispatch env ⟨name :: keys⟩ s = (.ok (response, close), s')) (now : Timestamp) :
    (DeletesLive now keys s.database s'.database response ↔
        ∀ key ∈ keys, ¬ s.database.store.Lingers now key) ∧
      ∀ (fault : Option Fault) (database database' : RadishDB Bytes) (key : Key) (found : Bool),
        database.delete fault now key = (.ok found, database') →
          (found = database.exists now key ↔ ¬ database.store.Lingers now key) := by
  constructor
  · obtain ⟨hresponse, hgone, hkept⟩ := dispatch_delete hname hkeys env s _ _ hreply
    dsimp only at hresponse
    rw [← card_live_eq_iff, ← integer_natCast_inj, ← hresponse]
    constructor
    · exact fun hdeletes => hdeletes.reply
    · intro hcount
      refine ⟨hcount, ?_, hkept⟩
      intro key hmem t
      exact RadishStore.exists_eq_false_iff.mpr
        (RadishStore.get_eq_none_of_lookup (hgone key hmem) t)
  · intro fault database database' key found hdelete
    rw [(RadishDB.delete_ok hdelete).1]
    exact RadishStore.exists_eq_lookup_iff

/-- A volatile database in which a key was set at 0, to live for ten milliseconds. -/
def shortLived : RadishDB Bytes := RadishDB.run ⟨.new 10, none⟩ [(0, .create [107] [118])]

theorem delete_counts_live_shortLived :
    ∃ response s', dispatch ⟨fun _ => 5, fun _ => none, fun _ => .listed⟩
        ⟨[ascii "del", [107], [107]]⟩ ⟨.resp2, shortLived, 0⟩ = (.ok (response, false), s') ∧
      DeletesLive 5 [[107], [107]] shortLived s'.database response := by
  have hname : uppercase (ascii "del") = ascii "DEL" := by decide
  obtain ⟨response, s', hreply⟩ : ∃ response s',
      dispatch ⟨fun _ => 5, fun _ => none, fun _ => .listed⟩ ⟨[ascii "del", [107], [107]]⟩
        ⟨.resp2, shortLived, 0⟩ = (.ok (response, false), s') := ⟨_, _, rfl⟩
  have hkeys : ([[107], [107]] : List Key) ≠ [] := by decide
  refine ⟨response, s', hreply, (delete_counts_live_iff hname hkeys hreply 5).1.mpr ?_⟩
  intro key hkey hlingers
  obtain rfl : key = [107] := by simpa using hkey
  exact absurd hlingers.1 (by decide)

theorem delete_counts_expired_shortLived :
    ∃ response s', dispatch ⟨fun _ => 20, fun _ => none, fun _ => .listed⟩
        ⟨[ascii "DEL", [107]]⟩ ⟨.resp2, shortLived, 0⟩ = (.ok (response, false), s') ∧
      ¬ DeletesLive 20 [[107]] shortLived s'.database response := by
  refine ⟨_, _, rfl, ?_⟩
  intro hdeletes
  have hreply := hdeletes.reply
  revert hreply
  decide

end Session

end Radish
