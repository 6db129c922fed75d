import Radish.Types

/-!
# RadishStore

The in-memory store: one map of values, one map of absolute expiry timestamps. Every
operation that consults the clock takes the reading as `now`.
-/

namespace Radish
set_option autoImplicit false

structure RadishStore (V : Type) where
  ttl : Timestamp
  data : DataMap V
  ttlData : DataMap Timestamp

namespace RadishStore
variable {V : Type}

def new (ttl : Timestamp) : RadishStore V := ⟨ttl, ∅, ∅⟩

def hasTimeToLive (store : RadishStore V) : Bool := store.ttl ≠ -1

def getTTL (store : RadishStore V) : Timestamp := store.ttl

def isExpired (now : Timestamp) (store : RadishStore V) (key : Key) : Bool :=
  match store.ttlData.lookup key with
  | some expiry => store.hasTimeToLive && decide (now ≥ expiry)
  | none => false

/-- Signed overflow of the sum is undefined in the source; here it wraps. -/
def newExpiryTimestamp (now : Timestamp) (store : RadishStore V) : Timestamp :=
  if store.hasTimeToLive then now + store.ttl else -1

def get (now : Timestamp) (store : RadishStore V) (key : Key) : Option V :=
  match store.data.lookup key with
  | some value => if store.isExpired now key then none else some value
  | none => none

def insertTimestampForKey (now : Timestamp) (store : RadishStore V) (key : Key)
    (timestamp : Option Timestamp) : Timestamp × RadishStore V :=
  let value := timestamp.getD (now + store.ttl)
  (value, { store with ttlData := store.ttlData.insert key value })

def create (now : Timestamp) (store : RadishStore V) (key : Key) (value : V)
    (timestamp : Option Timestamp) : Timestamp × RadishStore V :=
  let store := { store with data := store.data.insert key value }
  if store.hasTimeToLive then store.insertTimestampForKey now key timestamp
  else (-1, store)

/-- The value is copied to the new key before the old key is erased, so renaming a key onto
itself erases it. -/
def rename (now : Timestamp) (store : RadishStore V) (oldKey newKey : Key) :
    Bool × RadishStore V :=
  match store.data.lookup oldKey with
  | none => (false, store)
  | some value =>
    if store.isExpired now oldKey then (false, store)
    else
      let data := (store.data.insert newKey value).erase oldKey
      match store.ttlData.lookup oldKey with
      | some expiry =>
        (true, { store with data, ttlData := (store.ttlData.insert newKey expiry).erase oldKey })
      | none => (true, { store with data, ttlData := store.ttlData.erase newKey })

def delete (store : RadishStore V) (key : Key) : Bool × RadishStore V :=
  ((store.data.lookup key).isSome,
    { store with data := store.data.erase key, ttlData := store.ttlData.erase key })

def clear (store : RadishStore V) : Bool × RadishStore V :=
  if store.data.entries.isEmpty then (false, store)
  else (true, { store with data := ∅, ttlData := ∅ })

def scan (order : Traversal Key) (now : Timestamp) (store : RadishStore V) : List Key :=
  (order.visit store.data.keys).filter fun key => !store.isExpired now key

def size (now : Timestamp) (store : RadishStore V) : Nat :=
  store.data.keys.countP fun key => !store.isExpired now key

/-- Exchanges the two stores member by member. -/
def swap (store other : RadishStore V) : RadishStore V × RadishStore V :=
  ({ ttl := other.ttl, data := other.data, ttlData := other.ttlData },
    { ttl := store.ttl, data := store.data, ttlData := store.ttlData })

end RadishStore

def RadishStore.exists {V : Type} (now : Timestamp) (store : RadishStore V) (key : Key) : Bool :=
  if store.isExpired now key then false else (store.data.lookup key).isSome

namespace RadishStore
variable {V : Type}

@[simp] theorem new_ttl (ttl : Timestamp) : (new ttl : RadishStore V).ttl = ttl := rfl

@[simp] theorem create_ttl (now : Timestamp) (store : RadishStore V) (key : Key) (value : V)
    (timestamp : Option Timestamp) :
    (store.create now key value timestamp).2.ttl = store.ttl := by
  unfold create
  dsimp only
  split <;> rfl

@[simp] theorem rename_ttl (now : Timestamp) (store : RadishStore V) (a b : Key) :
    (store.rename now a b).2.ttl = store.ttl := by
  unfold rename
  split
  · rfl
  · split
    · rfl
    · dsimp only
      split <;> rfl

@[simp] theorem delete_ttl (store : RadishStore V) (key : Key) :
    (store.delete key).2.ttl = store.ttl := rfl

@[simp] theorem clear_ttl (store : RadishStore V) : store.clear.2.ttl = store.ttl := by
  unfold clear
  split <;> rfl

/-- With a ttl, `Create` sets both maps. -/
theorem create_of_timed {store : RadishStore V} (httl : store.ttl ≠ -1) (now : Timestamp) (key : Key)
    (value : V) (timestamp : Option Timestamp) :
    store.create now key value timestamp = (timestamp.getD (now + store.ttl),
      { store with
        data := store.data.insert key value
        ttlData := store.ttlData.insert key (timestamp.getD (now + store.ttl)) }) := by
  have hlive : store.hasTimeToLive = true := decide_eq_true httl
  exact if_pos hlive

/-- Without one, it sets the map of values. -/
theorem create_of_untimed {store : RadishStore V} (httl : store.ttl = -1) (now : Timestamp)
    (key : Key) (value : V) (timestamp : Option Timestamp) :
    store.create now key value timestamp =
      (-1, { store with data := store.data.insert key value }) := by
  have hnot : ¬ store.hasTimeToLive = true := by
    simp [hasTimeToLive, httl]
  exact if_neg hnot

/-- `Exists` is `Get` without the value. -/
theorem exists_eq_get (now : Timestamp) (store : RadishStore V) (key : Key) :
    store.exists now key = (store.get now key).isSome := by
  unfold RadishStore.exists get
  cases store.data.lookup key with
  | none => simp
  | some value => by_cases h : store.isExpired now key <;> simp [h]

theorem exists_eq_false_iff {now : Timestamp} {store : RadishStore V} {key : Key} :
    store.exists now key = false ↔ store.get now key = none := by
  rw [exists_eq_get, Option.isSome_eq_false_iff, Option.isNone_iff_eq_none]

/-- What is read at a key depends on the entries at that key alone. -/
theorem get_eq_of_lookups {before after : RadishStore V} {key key' : Key} (httl : after.ttl = before.ttl)
    (hdata : after.data.lookup key' = before.data.lookup key)
    (hexpiry : after.ttlData.lookup key' = before.ttlData.lookup key) (t : Timestamp) :
    after.get t key' = before.get t key := by
  unfold get isExpired hasTimeToLive
  rw [httl, hdata, hexpiry]

/-- A key has the value and the expiry it had. -/
structure Kept (key : Key) (before after : RadishStore V) : Prop where
  value : after.data.lookup key = before.data.lookup key
  expiry : after.ttlData.lookup key = before.ttlData.lookup key
  shown : ∀ t, after.get t key = before.get t key

theorem kept_of_lookups {key : Key} {before after : RadishStore V} (httl : after.ttl = before.ttl)
    (hdata : after.data.lookup key = before.data.lookup key)
    (hexpiry : after.ttlData.lookup key = before.ttlData.lookup key) : Kept key before after :=
  ⟨hdata, hexpiry, get_eq_of_lookups httl hdata hexpiry⟩

theorem Kept.refl (key : Key) (store : RadishStore V) : Kept key store store :=
  kept_of_lookups rfl rfl rfl

theorem Kept.trans {key : Key} {before between after : RadishStore V}
    (h : Kept key before between) (h' : Kept key between after) : Kept key before after :=
  ⟨h'.value.trans h.value, h'.expiry.trans h.expiry, fun t => (h'.shown t).trans (h.shown t)⟩

theorem get_eq_none_of_lookup {store : RadishStore V} {key : Key}
    (h : store.data.lookup key = none) (t : Timestamp) : store.get t key = none := by
  unfold get
  rw [h]

theorem lookup_of_get {now : Timestamp} {store : RadishStore V} {key : Key} {value : V}
    (h : store.get now key = some value) : store.data.lookup key = some value := by
  cases hlookup : store.data.lookup key with
  | none =>
    rw [get_eq_none_of_lookup hlookup] at h
    cases h
  | some found =>
    unfold get at h
    rw [hlookup] at h
    dsimp only at h
    split at h
    · cases h
    · exact h

end RadishStore

end Radish
