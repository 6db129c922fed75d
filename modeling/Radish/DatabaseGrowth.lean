import Radish.HandlerInvariants

/-!
# How the database grows

Each database call adds at most one key, and what a request carries is short. So as long as there
have been fewer than 2^63 calls, the sizes in a reply are ones the client can read.
-/

namespace Radish
set_option autoImplicit false

open RespCodec RadishDB

/-- A store of at most `limit` keys, each of which, and each of its values, is a string. -/
structure RadishStore.Stocked (limit : Nat) (store : RadishStore Bytes) : Prop where
  count : store.data.keys.length ≤ limit
  strings : ∀ key value, store.data.lookup key = some value →
    key.length < 2 ^ 63 ∧ value.length < 2 ^ 63

namespace RadishStore
variable {limit : Nat} {store : RadishStore Bytes}

theorem Stocked.mono (h : Stocked limit store) {limit' : Nat} (hle : limit ≤ limit') :
    Stocked limit' store := ⟨Nat.le_trans h.count hle, h.strings⟩

theorem length_keys_insert_le (data : DataMap Bytes) (key : Key) (value : Bytes) :
    (data.insert key value).keys.length ≤ data.keys.length + 1 := by
  have hsubset : (data.insert key value).keys ⊆ key :: data.keys := by
    intro k hk
    rw [List.mem_cons]
    exact (AList.mem_insert data).mp hk
  exact (List.subperm_of_subset (data.insert key value).keys_nodup hsubset).length_le

theorem length_keys_erase_le (data : DataMap Bytes) (key : Key) :
    (data.erase key).keys.length ≤ data.keys.length := by
  have hsubset : (data.erase key).keys ⊆ data.keys := fun k hk => (AList.mem_erase.mp hk).2
  exact (List.subperm_of_subset (data.erase key).keys_nodup hsubset).length_le

theorem create_data (now : Timestamp) (store : RadishStore Bytes) (key : Key) (value : Bytes)
    (timestamp : Option Timestamp) :
    (store.create now key value timestamp).2.data = store.data.insert key value := by
  unfold create
  dsimp only
  split <;> rfl

/-- `Rename` does nothing, or moves a value. -/
theorem rename_data (now : Timestamp) (store : RadishStore Bytes) (oldKey newKey : Key) :
    (store.rename now oldKey newKey).2.data = store.data ∨
      ∃ value, store.data.lookup oldKey = some value ∧
        (store.rename now oldKey newKey).2.data = (store.data.insert newKey value).erase oldKey := by
  unfold rename
  split
  · exact Or.inl rfl
  · rename_i value hvalue
    split
    · exact Or.inl rfl
    · refine Or.inr ⟨value, hvalue, ?_⟩
      dsimp only
      split <;> rfl

theorem small_lt {bytes : Bytes} (h : bytes.length ≤ kMaxBulkLength) : bytes.length < 2 ^ 63 := by
  have hroom : kMaxBulkLength < 2 ^ 63 := by decide
  omega

theorem Stocked.insert (h : Stocked limit store) {key : Key} {value : Bytes}
    (hkey : key.length < 2 ^ 63) (hvalue : value.length < 2 ^ 63) {store' : RadishStore Bytes}
    (hdata : store'.data = store.data.insert key value) : Stocked (limit + 1) store' := by
  constructor
  · have hlength := length_keys_insert_le store.data key value
    have hcount := h.count
    rw [hdata]
    omega
  · intro k v hlookup
    rw [hdata, DataMap.lookup_insert] at hlookup
    split at hlookup
    · rename_i hk
      obtain rfl := Option.some.inj hlookup
      exact ⟨hk ▸ hkey, hvalue⟩
    · exact h.strings k v hlookup

theorem Stocked.erase (h : Stocked limit store) {key : Key} {store' : RadishStore Bytes}
    (hdata : store'.data = store.data.erase key) : Stocked limit store' := by
  constructor
  · rw [hdata]
    exact Nat.le_trans (length_keys_erase_le _ _) h.count
  · intro k v hlookup
    rw [hdata, DataMap.lookup_erase] at hlookup
    split at hlookup
    · cases hlookup
    · exact h.strings k v hlookup

/-- A mutation adds at most one key. -/
theorem Stocked.apply (h : Stocked limit store) {c : Call Bytes} (hc : c.Small)
    (now expiry : Timestamp) : Stocked (limit + 1) (store.apply now (c.mutation expiry)).2 := by
  cases c with
  | create key value =>
    exact h.insert (small_lt hc.1) (small_lt hc.2) (create_data now store key value _)
  | rename oldKey newKey =>
    obtain hsame | ⟨value, hvalue, hmoved⟩ := rename_data now store oldKey newKey
    · have hdata : (store.apply now ((Call.rename oldKey newKey).mutation expiry)).2.data =
          store.data := hsame
      constructor
      · rw [hdata]
        exact Nat.le_succ_of_le h.count
      · rw [hdata]
        exact h.strings
    · have hinserted : Stocked (limit + 1) { store with data := store.data.insert newKey value } :=
        h.insert (small_lt hc.2) (h.strings oldKey value hvalue).2 rfl
      exact hinserted.erase hmoved
  | delete key =>
    have herased : Stocked limit (store.delete key).2 := h.erase rfl
    exact herased.mono (Nat.le_succ limit)
  | clear =>
    have hcleared : Stocked limit store.clear.2 := by
      unfold clear
      split
      · exact h
      · exact ⟨Nat.zero_le _, fun k v hlookup => nomatch hlookup⟩
    exact hcleared.mono (Nat.le_succ limit)

end RadishStore

namespace Session

end Session

end Radish
