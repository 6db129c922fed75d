import Radish.CallHistory

/-!
# The stores that can be reached

The store keeps its values and their expiries in two maps, which every operation updates one after
the other. They never drift apart, and what the four reading operations show follows from them in
the same way.
-/

namespace Radish
set_option autoImplicit false

variable {V : Type}

namespace RadishStore

/-- The stores made from empty ones by the operations of the class, at any readings of the clock. -/
inductive Reachable : RadishStore V → Prop where
  | new (ttl : Timestamp) : Reachable (new ttl)
  | create {store : RadishStore V} (before : Reachable store) (now : Timestamp) (key : Key)
      (value : V) (timestamp : Option Timestamp) : Reachable (store.create now key value timestamp).2
  | rename {store : RadishStore V} (before : Reachable store) (now : Timestamp)
      (oldKey newKey : Key) : Reachable (store.rename now oldKey newKey).2
  | delete {store : RadishStore V} (before : Reachable store) (key : Key) :
      Reachable (store.delete key).2
  | clear {store : RadishStore V} (before : Reachable store) : Reachable store.clear.2
  | swap {store other : RadishStore V} (before : Reachable store) (with_other : Reachable other) :
      Reachable (store.swap other).1

theorem swap_eq (store other : RadishStore V) : store.swap other = (other, store) := rfl

/-! ## The two maps -/

theorem Reachable.coherent {store : RadishStore V} (h : store.Reachable) : store.Coherent := by
  induction h with
  | new ttl => exact coherent_new ttl
  | create _ now key value timestamp ih => exact ih.create now key value timestamp
  | rename _ now oldKey newKey ih => exact ih.rename now oldKey newKey
  | delete _ key ih => exact ih.delete key
  | clear _ ih => exact ih.clear
  | swap _ _ _ ih =>
    rw [swap_eq]
    exact ih

theorem Coherent.ttlData_eq_empty {store : RadishStore V} (h : store.Coherent)
    (httl : store.ttl = -1) : store.ttlData = ∅ := by
  apply AList.ext
  exact List.isEmpty_iff.mp ((DataMap.isEmpty_entries_iff _).mpr (h.untimed httl))

theorem Coherent.mem_ttlData_iff {store : RadishStore V} (h : store.Coherent)
    (httl : store.ttl ≠ -1) (key : Key) : key ∈ store.ttlData ↔ key ∈ store.data := by
  rw [← AList.lookup_isSome, ← AList.lookup_isSome, h.timed httl key]

/-- A key without a value has no expiry. -/
theorem Coherent.lookup_ttlData_eq_none {store : RadishStore V} (h : store.Coherent) {key : Key}
    (habsent : store.data.lookup key = none) : store.ttlData.lookup key = none := by
  by_cases httl : store.ttl = -1
  · exact h.untimed httl key
  · rw [← Option.isNone_iff_eq_none, ← Option.isSome_eq_false_iff, h.timed httl key, habsent]
    rfl

/-- Whatever removes a key removes its expiry, and creating a key gives it an expiry of its own. -/
structure ForgetsExpiries (store : RadishStore V) : Prop where
  absent : ∀ key, store.data.lookup key = none → store.ttlData.lookup key = none
  deleted : ∀ key, (store.delete key).2.ttlData.lookup key = none
  cleared : ∀ key, store.clear.2.ttlData.lookup key = none
  renamed : ∀ now oldKey newKey, (store.rename now oldKey newKey).1 = true →
    (store.rename now oldKey newKey).2.ttlData.lookup oldKey = none
  created : ∀ now key value timestamp,
    (store.create now key value timestamp).2.ttlData.lookup key =
      if store.ttl = -1 then none else some (timestamp.getD (now + store.ttl))

theorem Coherent.lookup_clear {store : RadishStore V} (h : store.Coherent) (key : Key) :
    store.clear.2.ttlData.lookup key = none := by
  apply h.clear.lookup_ttlData_eq_none
  exact congrFun (values_clear store) key

theorem lookup_ttlData_rename {now : Timestamp} {store : RadishStore V} {oldKey newKey : Key}
    (hrenamed : (store.rename now oldKey newKey).1 = true) :
    (store.rename now oldKey newKey).2.ttlData.lookup oldKey = none := by
  rw [rename_fst, Option.isSome_iff_exists] at hrenamed
  obtain ⟨value, hvalue⟩ := hrenamed
  obtain ⟨-, -, hexpiry⟩ := rename_of_get_eq_some newKey hvalue
  rw [hexpiry, if_pos rfl]

theorem Coherent.lookup_ttlData_create {store : RadishStore V} (h : store.Coherent)
    (now : Timestamp) (key : Key) (value : V) (timestamp : Option Timestamp) :
    (store.create now key value timestamp).2.ttlData.lookup key =
      if store.ttl = -1 then none else some (timestamp.getD (now + store.ttl)) := by
  split
  · rename_i httl
    rw [create_of_untimed httl]
    exact h.untimed httl key
  · rename_i httl
    rw [create_of_timed httl]
    exact AList.lookup_insert store.ttlData

theorem Coherent.forgetsExpiries {store : RadishStore V} (h : store.Coherent) :
    store.ForgetsExpiries where
  absent _ := h.lookup_ttlData_eq_none
  deleted key := AList.lookup_erase key store.ttlData
  cleared := h.lookup_clear
  renamed _ _ _ := lookup_ttlData_rename
  created := h.lookup_ttlData_create

/-- The expiry map is empty without a ttl, and has the keys of the data with one. -/
theorem expiries_follow_data {store : RadishStore V} (h : store.Reachable) :
    (store.ttl = -1 → store.ttlData = ∅) ∧
      (store.ttl ≠ -1 → ∀ key, key ∈ store.ttlData ↔ key ∈ store.data) ∧
      store.ForgetsExpiries :=
  ⟨h.coherent.ttlData_eq_empty, h.coherent.mem_ttlData_iff, h.coherent.forgetsExpiries⟩

/-- A store whose one key was deleted, by way of a swap, and created anew. -/
def recreated : RadishStore Bytes :=
  let created := ((new 10).create 5 [107] [118] none).2
  let deleted := (created.delete [107]).2
  let swapped := (created.swap deleted).1
  (swapped.create 20 [107] [119] none).2

theorem recreated_has_its_own_expiry :
    ([107] ∈ recreated.ttlData ↔ [107] ∈ recreated.data) ∧ recreated.ForgetsExpiries ∧
      recreated.ttlData.lookup [107] = some 30 := by
  have hcreated : ((new 10 : RadishStore Bytes).create 5 [107] [118] none).2.Reachable :=
    (Reachable.new 10).create 5 [107] [118] none
  have hdeleted := hcreated.delete [107]
  have hreached : recreated.Reachable := (hcreated.swap hdeleted).create 20 [107] [119] none
  have httl : recreated.ttl ≠ -1 := by decide
  obtain ⟨-, hkeys, hforgets⟩ := expiries_follow_data hreached
  exact ⟨hkeys httl [107], hforgets, rfl⟩

/-! ## The four views -/

theorem isExpired_mono {store : RadishStore V} {t t' : Timestamp} (h : t ≤ t') {key : Key}
    (hexpired : store.isExpired t key = true) : store.isExpired t' key = true := by
  unfold isExpired at hexpired ⊢
  cases hexpiry : store.ttlData.lookup key with
  | none =>
    rw [hexpiry] at hexpired
    cases hexpired
  | some expiry =>
    rw [hexpiry] at hexpired
    simp only [Bool.and_eq_true, decide_eq_true_eq] at hexpired ⊢
    exact ⟨hexpired.1, Int64.le_trans hexpired.2 h⟩

/-- What is shown later was shown before. -/
theorem get_of_get_later {store : RadishStore V} {t t' : Timestamp} (h : t ≤ t') {key : Key}
    {value : V} (hlater : store.get t' key = some value) : store.get t key = some value := by
  have hlive : ¬ store.isExpired t key = true := by
    intro hexpired
    unfold get at hlater
    rw [lookup_of_get hlater, isExpired_mono h hexpired] at hlater
    cases hlater
  unfold get
  rw [lookup_of_get hlater]
  exact if_neg hlive

theorem nodup_scan (order : Traversal Key) (now : Timestamp) (store : RadishStore V) :
    (store.scan order now).Nodup :=
  ((order.perm _).nodup_iff.mpr store.data.keys_nodup).filter _

theorem mem_scan_iff {order : Traversal Key} {now : Timestamp} {store : RadishStore V} {key : Key} :
    key ∈ store.scan order now ↔ store.exists now key = true := by
  rw [scan, List.mem_filter, (order.perm _).mem_iff, ← AList.mem_keys, ← AList.lookup_isSome]
  unfold RadishStore.exists
  by_cases hexpired : store.isExpired now key = true
  · simp [hexpired]
  · simp [hexpired]

theorem size_eq_length_scan (order : Traversal Key) (now : Timestamp) (store : RadishStore V) :
    store.size now = (store.scan order now).length := by
  rw [size, scan, ← List.countP_eq_length_filter]
  exact ((order.perm _).countP_eq _).symm

/-- `Scan`, `Exists`, `Get` and `Size` agree on what is there. -/
structure ViewsAgree (order : Traversal Key) (now : Timestamp) (store : RadishStore V) : Prop where
  once : (store.scan order now).Nodup
  listed : ∀ key, key ∈ store.scan order now ↔ store.exists now key = true
  found : ∀ key, store.exists now key = true ↔ (store.get now key).isSome = true
  counted : store.size now = (store.scan order now).length

theorem viewsAgree (order : Traversal Key) (now : Timestamp) (store : RadishStore V) :
    store.ViewsAgree order now where
  once := nodup_scan order now store
  listed _ := mem_scan_iff
  found key := by rw [exists_eq_get]
  counted := size_eq_length_scan order now store

/-- The views agree at every time, and show less as time passes. -/
theorem views_agree_and_shrink (store : RadishStore V) :
    (∀ order now, store.ViewsAgree order now) ∧
      ∀ t t', t ≤ t' → ∀ key value, store.get t' key = some value → store.get t key = some value :=
  ⟨fun order now => viewsAgree order now store, fun _ _ hle _ _ => get_of_get_later hle⟩

theorem views_agree_and_shrink_recreated :
    recreated.ViewsAgree .listed 25 ∧ recreated.get 29 [107] = some [119] ∧
      recreated.get 25 [107] = some [119] := by
  obtain ⟨hviews, hshrink⟩ := views_agree_and_shrink recreated
  have hlater : recreated.get 29 [107] = some [119] := rfl
  have hle : (25 : Timestamp) ≤ 29 := by decide
  exact ⟨hviews .listed 25, hlater, hshrink 25 29 hle [107] [119] hlater⟩

/-! ## The stores of a database -/

theorem Reachable.apply {store : RadishStore V} (h : store.Reachable) (now : Timestamp)
    (m : Mutation V) : (store.apply now m).2.Reachable := by
  cases m with
  | create timestamp key payload => exact h.create now key payload (some timestamp)
  | rename _ key renameKey => exact h.rename now key renameKey
  | delete _ key => exact h.delete key
  | clear _ => exact h.clear

theorem Reachable.applyAll {store : RadishStore V} (h : store.Reachable) (now : Timestamp)
    (ms : List (Mutation V)) : (store.applyAll now ms).Reachable := by
  induction ms generalizing store with
  | nil => exact h
  | cons m ms ih => exact ih (h.apply now m)

end RadishStore

namespace RadishDB

/-- An operation that may change the database; a read does not. -/
inductive Operation (V : Type) where
  | call (fault : Option Fault) (now : Timestamp) (c : Call V)
  | compact (fault : Option Fault) (order : Traversal (Σ _ : Key, RadishEvent V)) (now : Timestamp)

variable [BinaryValue V]

/-- An operation may throw, and leaves the database behind even then. -/
def operate (db : RadishDB V) : Operation V → RadishDB V
  | .call fault now c => (db.call fault now c).2
  | .compact fault order now => (db.compact fault order now).2

def operateAll (db : RadishDB V) (operations : List (Operation V)) : RadishDB V :=
  operations.foldl operate db

/-- Opening a database replays its log on an empty store. -/
theorem applyAll_of_new {now ttl : Timestamp} {mode : PersistenceMode} {writer : LogWriter}
    {db : RadishDB V} (h : new now ttl mode writer = .ok db) :
    ∃ ms, db.store = (RadishStore.new ttl).applyAll now ms := by
  cases mode with
  | disabled =>
    obtain rfl := pure_eq_ok_iff.mp h
    exact ⟨[], rfl⟩
  | flush =>
    obtain ⟨initialized, -, hreplay⟩ := bind_eq_ok_iff.mp h
    obtain ⟨store, hstore, hdb⟩ := bind_eq_ok_iff.mp hreplay
    obtain rfl := pure_eq_ok_iff.mp hdb
    obtain ⟨events, -, happly⟩ := bind_eq_ok_iff.mp hstore
    exact LogWriter.applyAll_of_applyEvents happly

theorem reachable_new {now ttl : Timestamp} {mode : PersistenceMode} {writer : LogWriter}
    {db : RadishDB V} (h : new now ttl mode writer = .ok db) : db.store.Reachable := by
  obtain ⟨ms, hstore⟩ := applyAll_of_new h
  rw [hstore]
  exact (RadishStore.Reachable.new ttl).applyAll now ms

/-- A call stages its mutation on a copy and swaps it in, or leaves the store alone. -/
theorem reachable_call {db : RadishDB V} (h : db.store.Reachable) (fault : Option Fault)
    (now : Timestamp) (c : Call V) : (db.call fault now c).2.store.Reachable := by
  obtain hstore | hstore := call_store fault now db c
  · rw [hstore]
    exact h
  · rw [hstore]
    exact h.swap (h.apply now _)

theorem reachable_compact {db : RadishDB V} (h : db.store.Reachable) (fault : Option Fault)
    (order : Traversal (Σ _ : Key, RadishEvent V)) (now : Timestamp) :
    (db.compact fault order now).2.store.Reachable := by
  rw [compact_store]
  exact h

/-- Whatever is done to an opened database, its store is one of those above. -/
theorem reachable_operateAll {now ttl : Timestamp} {mode : PersistenceMode} {writer : LogWriter}
    {db : RadishDB V} (h : new now ttl mode writer = .ok db) (operations : List (Operation V)) :
    (db.operateAll operations).store.Reachable := by
  induction operations using List.reverseRecOn with
  | nil => exact reachable_new h
  | append_singleton operations operation ih =>
    rw [operateAll, List.foldl_append]
    cases operation with
    | call fault now c => exact reachable_call ih fault now c
    | compact fault order now => exact reachable_compact ih fault order now

end RadishDB

end Radish
