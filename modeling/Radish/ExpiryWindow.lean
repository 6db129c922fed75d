import Radish.ServerOptions

/-!
# The expiry window

A key that is created lives until the sum of the clock and the ttl. The sum has 64 bits: where it
does not fit it wraps to a negative number, and the key has expired before it can be read.
-/

namespace Radish
set_option autoImplicit false

variable {V : Type}

/-! ## The sum -/

theorem toInt_add_of_fits {now ttl : Timestamp} (hnow : 0 ≤ now) (httl : 0 ≤ ttl)
    (h : now.toInt + ttl.toInt < 2 ^ 63) : (now + ttl).toInt = now.toInt + ttl.toInt := by
  have hclock : (0 : Int) ≤ now.toInt := Int64.le_iff_toInt_le.mp hnow
  have hlife : (0 : Int) ≤ ttl.toInt := Int64.le_iff_toInt_le.mp httl
  rw [Int64.toInt_add]
  apply Int.bmod_eq_of_le_mul_two <;> omega

/-- A sum that does not fit is less than the clock. -/
theorem add_lt_of_overflow {now ttl : Timestamp} (hnow : 0 ≤ now)
    (h : 2 ^ 63 ≤ now.toInt + ttl.toInt) : now + ttl < now := by
  have hclock : (0 : Int) ≤ now.toInt := Int64.le_iff_toInt_le.mp hnow
  have hclockBound := Int64.toInt_lt now
  have hlifeBound := Int64.toInt_lt ttl
  have hwrapped : (now + ttl).toInt = now.toInt + ttl.toInt - 2 ^ 64 := by
    rw [Int64.toInt_add, ← Int.sub_bmod_right]
    apply Int.bmod_eq_of_le_mul_two <;> omega
  rw [Int64.lt_iff_toInt_lt, hwrapped]
  omega

/-! ## Exact windows -/

namespace RadishDB

/-- From `now` on the key shows its value until its time is over, in exact integers, and nothing
after that. -/
def ExactWindow (db : RadishDB V) (now ttl : Timestamp) (key : Key) (value : V) : Prop :=
  ∀ t ≥ now, (t.toInt < now.toInt + ttl.toInt → db.get t key = some value) ∧
    (now.toInt + ttl.toInt ≤ t.toInt → db.get t key = none)

/-- Whether the window is exact depends on the sum alone. -/
theorem exactWindow_iff_of_get {db : RadishDB V} {now ttl : Timestamp} {key : Key} {value : V}
    (hnow : 0 ≤ now) (httl : 0 ≤ ttl)
    (hget : ∀ t, db.get t key = if t < now + ttl then some value else none) :
    db.ExactWindow now ttl key value ↔ now.toInt + ttl.toInt < 2 ^ 63 := by
  constructor
  · intro hexact
    by_contra hfits
    have hoverflow : 2 ^ 63 ≤ now.toInt + ttl.toInt := by omega
    have hclockBound := Int64.toInt_lt now
    have hlive : now.toInt < now.toInt + ttl.toInt := by omega
    have hshown := (hexact now (Int64.le_refl now)).1 hlive
    have hpast : ¬ now < now + ttl :=
      Int64.not_lt.mpr (Int64.le_of_lt (add_lt_of_overflow hnow hoverflow))
    rw [hget, if_neg hpast] at hshown
    cases hshown
  · intro hfits t _
    have hsum := toInt_add_of_fits hnow httl hfits
    constructor
    · intro hbefore
      rw [hget, if_pos]
      rw [Int64.lt_iff_toInt_lt, hsum]
      exact hbefore
    · intro hafter
      rw [hget, if_neg]
      rw [Int64.lt_iff_toInt_lt, hsum]
      omega

/-! ## Operations on other keys -/

/-- The operation is not `Clear` and does not mention the key. -/
def Operation.Avoids (key : Key) : Operation V → Prop
  | .call _ _ (.create created _) => key ≠ created
  | .call _ _ (.rename oldKey newKey) => key ≠ oldKey ∧ key ≠ newKey
  | .call _ _ (.delete deleted) => key ≠ deleted
  | .call _ _ .clear => False
  | .compact _ _ _ => True

variable [BinaryValue V]

theorem kept_call {key : Key} {fault : Option Fault} {now : Timestamp} {c : Call V}
    (h : (Operation.call fault now c).Avoids key) (db : RadishDB V) :
    RadishStore.Kept key db.store (db.call fault now c).2.store := by
  obtain hstore | hstore := call_store fault now db c
  · rw [hstore]
    exact .refl key db.store
  · rw [hstore]
    cases c with
    | create created value => exact RadishStore.kept_create db.store now value _ h
    | rename oldKey newKey => exact RadishStore.kept_rename db.store now h.1 h.2
    | delete deleted => exact RadishStore.kept_delete db.store h
    | clear => exact absurd h id

theorem kept_operate {key : Key} {operation : Operation V} (h : operation.Avoids key)
    (db : RadishDB V) : RadishStore.Kept key db.store (db.operate operation).store := by
  cases operation with
  | call fault now c => exact kept_call h db
  | compact fault order now =>
    rw [operate, compact_store]
    exact .refl key db.store

/-- What other operations do to the database leaves the key as it was. -/
theorem kept_operateAll {key : Key} {operations : List (Operation V)}
    (h : ∀ operation ∈ operations, operation.Avoids key) (db : RadishDB V) :
    RadishStore.Kept key db.store (db.operateAll operations).store := by
  induction operations generalizing db with
  | nil => exact .refl key db.store
  | cons operation operations ih =>
    rw [List.forall_mem_cons] at h
    exact (kept_operate h.1 db).trans (ih h.2 (db.operate operation))

/-! ## The window of a created key -/

/-- A `Create` that returns has set the value, and the expiry to the sum. -/
theorem create_ok {fault : Option Fault} {now : Timestamp} {db created : RadishDB V} {key : Key}
    {value : V} {found : Bool} (httl : db.store.ttl ≠ -1)
    (h : db.create fault now key value = (.ok found, created)) :
    created.store.ttl = db.store.ttl ∧ created.store.data.lookup key = some value ∧
      created.store.ttlData.lookup key = some (now + db.store.ttl) := by
  have hexpiry : db.store.newExpiryTimestamp now = now + db.store.ttl :=
    if_pos ((RadishStore.hasTimeToLive_eq_true_iff db.store).mpr httl)
  obtain ⟨hfound, hstore⟩ := commit_ok (m := .create (db.store.newExpiryTimestamp now) key value) h
  have htrue : found = true := hfound
  rw [hstore, if_pos htrue, hexpiry, RadishStore.apply, RadishStore.create_of_timed httl]
  exact ⟨rfl, AList.lookup_insert db.store.data, AList.lookup_insert db.store.ttlData⟩

/-- A created key that nothing else touches has an exact window if and only if the end of its time
is a timestamp. -/
theorem expiry_window_exact_iff {fault : Option Fault} {now : Timestamp} {db created : RadishDB V}
    {key : Key} {value : V} {found : Bool} (haccepted : ServerOptions.AcceptedTtl db.store.ttl)
    (hnow : 0 ≤ now) (hcreate : db.create fault now key value = (.ok found, created))
    (operations : List (Operation V)) (havoids : ∀ operation ∈ operations, operation.Avoids key) :
    (created.operateAll operations).ExactWindow now db.store.ttl key value ↔
      now.toInt + db.store.ttl.toInt < 2 ^ 63 := by
  have hnonneg := ServerOptions.acceptedTtl_iff.mp haccepted
  have httl : db.store.ttl ≠ -1 := by
    intro hminus
    rw [hminus] at hnonneg
    exact absurd hnonneg (by decide)
  obtain ⟨hsame, hvalue, hexpiry⟩ := create_ok httl hcreate
  have hkept := kept_operateAll havoids created
  apply exactWindow_iff_of_get hnow hnonneg
  intro t
  rw [RadishDB.get, hkept.shown t]
  exact RadishStore.get_of_expiry (by rwa [hsame]) hvalue hexpiry t

/-- The options of a server that keeps nothing on disk. -/
def volatileOptions (ttl : String) : List Bytes :=
  [ascii "radish-server", ascii "--persistence", ascii "off", ascii "--ttl-ms", ascii ttl]

theorem expiry_window_exact_fifty :
    ∃ options db created, ServerOptions.parseOptions (volatileOptions "50") = .ok options ∧
      options.openDatabase 7 ⟨"radish", none, none⟩ = .ok db ∧
      db.create none 10 [107] [118] = (.ok true, created) ∧
      (created.operateAll [.call none 20 (.create [108] [119]),
        .call none 30 (.rename [108] [109])]).ExactWindow 10 50 [107] [118] := by
  obtain ⟨options, hparse, httl, hpersistence⟩ : ∃ options,
      ServerOptions.parseOptions (volatileOptions "50") = .ok options ∧
        options.ttl = some 50 ∧ options.persistenceEnabled = false := ⟨_, rfl, rfl, rfl⟩
  have haccepted : ServerOptions.AcceptedTtl 50 := ⟨_, options, hparse, httl⟩
  obtain ⟨created, hcreate⟩ : ∃ created, (⟨.new 50, none⟩ : RadishDB Bytes).create none 10 [107] [118] =
      (.ok true, created) := ⟨_, rfl⟩
  refine ⟨options, ⟨.new 50, none⟩, created, hparse, ?_, hcreate, ?_⟩
  · rw [ServerOptions.openDatabase, httl, hpersistence]
    rfl
  · refine (expiry_window_exact_iff haccepted ?_ hcreate _ ?_).mpr ?_
    · decide
    · simp [Operation.Avoids]
    · decide

theorem expiry_window_overflows :
    ∃ options db created,
      ServerOptions.parseOptions (volatileOptions "9223372036854775807") = .ok options ∧
      options.openDatabase 1 ⟨"radish", none, none⟩ = .ok db ∧
      db.create none 1 [107] [118] = (.ok true, created) ∧
      created.get 1 [107] = none ∧ ¬ created.ExactWindow 1 db.store.ttl [107] [118] := by
  refine ⟨_, _, _, rfl, rfl, rfl, rfl, ?_⟩
  intro hexact
  have hshown := (hexact 1 (Int64.le_refl 1)).1 (by decide)
  revert hshown
  decide

end RadishDB

end Radish
