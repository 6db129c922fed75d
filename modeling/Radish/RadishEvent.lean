import Radish.BinaryFile

/-!
# Events

The `uint8_t` event tag, the typed event with its optional fields, and the binary form of
an event. A `Mutation` is an event that carries exactly the fields its type requires, so
an ill-formed one cannot be built.
-/

namespace Radish
set_option autoImplicit false

/-- The enumeration has four names, but a value of it may hold any byte. -/
inductive EventType where
  | create
  | rename
  | delete
  | clear
  | unnamed (byte : UInt8) (above : 3 < byte.toNat)
  deriving DecidableEq

namespace EventType

def toByte : EventType → UInt8
  | create => 0
  | rename => 1
  | delete => 2
  | clear => 3
  | unnamed byte _ => byte

def ofByte (byte : UInt8) : EventType :=
  if h : 3 < byte.toNat then unnamed byte h
  else if byte = 0 then create
  else if byte = 1 then rename
  else if byte = 2 then delete
  else clear

theorem ofByte_toByte (type : EventType) : ofByte type.toByte = type := by
  cases type with
  | unnamed byte above => simp [toByte, ofByte, above]
  | _ => rfl

theorem toByte_ofByte (byte : UInt8) : (ofByte byte).toByte = byte := by
  unfold ofByte
  split
  · rfl
  · rename_i h
    split
    · simp_all [toByte]
    · split
      · simp_all [toByte]
      · split
        · simp_all [toByte]
        · apply UInt8.toNat_inj.mp
          have h0 : byte.toNat ≠ 0 := fun hb => by simp_all [← UInt8.toNat_inj]
          have h1 : byte.toNat ≠ 1 := fun hb => by simp_all [← UInt8.toNat_inj]
          have h2 : byte.toNat ≠ 2 := fun hb => by simp_all [← UInt8.toNat_inj]
          change 3 = byte.toNat
          omega

instance : FixedWidth EventType where
  width := 1
  width_pos := Nat.one_pos
  rep := Equiv.trans ⟨toByte, ofByte, ofByte_toByte, toByte_ofByte⟩ FixedWidth.rep

end EventType

structure RadishEvent (V : Type) where
  type : EventType
  timestamp : Timestamp
  key : Option Key
  renameKey : Option Key
  payload : Option V

/-- `ValidateType` -/
def validateType : EventType → Except Exception Unit
  | .unnamed _ _ => .error (.runtimeError "Invalid event type in persistence log")
  | _ => .ok ()

/-- An event with exactly the fields its type requires. -/
inductive Mutation (V : Type) where
  | create (timestamp : Timestamp) (key : Key) (payload : V)
  | rename (timestamp : Timestamp) (key renameKey : Key)
  | delete (timestamp : Timestamp) (key : Key)
  | clear (timestamp : Timestamp)

namespace Mutation
variable {V : Type}

def toEvent : Mutation V → RadishEvent V
  | create timestamp key payload => ⟨.create, timestamp, some key, none, some payload⟩
  | rename timestamp key renameKey => ⟨.rename, timestamp, some key, some renameKey, none⟩
  | delete timestamp key => ⟨.delete, timestamp, some key, none, none⟩
  | clear timestamp => ⟨.clear, timestamp, none, none, none⟩

def timestamp : Mutation V → Timestamp
  | create timestamp _ _ | rename timestamp _ _ | delete timestamp _ | clear timestamp => timestamp

theorem toEvent_injective : Function.Injective (toEvent : Mutation V → RadishEvent V) := by
  intro x y h
  cases x <;> cases y <;> simp_all [toEvent]

end Mutation

namespace RadishEvent
variable {V : Type}

/-- The fields an event of each type carries, and no others. -/
def WellFormed (event : RadishEvent V) : Prop :=
  match event.type with
  | .create => event.key.isSome ∧ event.renameKey = none ∧ event.payload.isSome
  | .rename => event.key.isSome ∧ event.renameKey.isSome ∧ event.payload = none
  | .delete => event.key.isSome ∧ event.renameKey = none ∧ event.payload = none
  | .clear => event.key = none ∧ event.renameKey = none ∧ event.payload = none
  | .unnamed _ _ => False

theorem wellFormed_iff (event : RadishEvent V) :
    event.WellFormed ↔ ∃ m : Mutation V, m.toEvent = event := by
  constructor
  · intro h
    obtain ⟨type, timestamp, key, renameKey, payload⟩ := event
    cases type with
    | create =>
      obtain ⟨hk, rfl, hp⟩ := h
      obtain ⟨k, rfl⟩ := Option.isSome_iff_exists.mp hk
      obtain ⟨v, rfl⟩ := Option.isSome_iff_exists.mp hp
      exact ⟨.create timestamp k v, rfl⟩
    | rename =>
      obtain ⟨hk, hr, rfl⟩ := h
      obtain ⟨k, rfl⟩ := Option.isSome_iff_exists.mp hk
      obtain ⟨r, rfl⟩ := Option.isSome_iff_exists.mp hr
      exact ⟨.rename timestamp k r, rfl⟩
    | delete =>
      obtain ⟨hk, rfl, rfl⟩ := h
      obtain ⟨k, rfl⟩ := Option.isSome_iff_exists.mp hk
      exact ⟨.delete timestamp k, rfl⟩
    | clear =>
      obtain ⟨rfl, rfl, rfl⟩ := h
      exact ⟨.clear timestamp, rfl⟩
    | unnamed byte above => exact h.elim
  · rintro ⟨m, rfl⟩
    cases m <;> simp [Mutation.toEvent, WellFormed]

variable [BinaryValue V]

def serialize (event : RadishEvent V) : Except Exception Bytes := do
  validateType event.type
  let type ← BinaryFile.write event.type
  let timestamp ← BinaryFile.write event.timestamp
  if event.type = .clear then
    return type ++ timestamp
  else
    let key ← BinaryFile.writeOptional event.key
    let renameKey ←
      if event.type = .rename then BinaryFile.writeOptional event.renameKey else pure []
    if event.type = .delete ∨ event.type = .rename then
      return type ++ timestamp ++ key ++ renameKey
    else
      let payload ← BinaryFile.writeOptional event.payload
      return type ++ timestamp ++ key ++ renameKey ++ payload

/-- The event at the front of a stream, with the bytes it leaves there. The fields are reset
first, so a field that is not read is absent. -/
def deserialize (file : Bytes) : Except Exception (RadishEvent V × Bytes) := do
  let (type, file) ← BinaryFile.read (V := EventType) file
  validateType type
  let (timestamp, file) ← BinaryFile.read (V := Timestamp) file
  if type = .clear then
    return (⟨type, timestamp, none, none, none⟩, file)
  else
    let (key, file) ← BinaryFile.read (V := Key) file
    let (renameKey, file) ←
      if type = .rename then do
        let (renameKey, file) ← BinaryFile.read (V := Key) file
        pure (some renameKey, file)
      else pure (none, file)
    if type = .delete ∨ type = .rename then
      return (⟨type, timestamp, some key, renameKey, none⟩, file)
    else
      let (payload, file) ← BinaryFile.read (V := V) file
      return (⟨type, timestamp, some key, renameKey, some payload⟩, file)

end RadishEvent

theorem Mutation.wellFormed {V : Type} (m : Mutation V) : m.toEvent.WellFormed :=
  (RadishEvent.wellFormed_iff _).mpr ⟨m, rfl⟩

/-- The bytes of a scalar field, which are written without a length. -/
theorem BinaryFile.write_scalar {E : Type} [FixedWidth E] (e : E) :
    BinaryFile.write e = .ok (FixedWidth.bytes e) := rfl

namespace Mutation
variable {V : Type} [BinaryValue V] {bytes : Bytes}

theorem serialize_create_iff {timestamp : Timestamp} {key : Key} {payload : V} :
    (create timestamp key payload).toEvent.serialize = .ok bytes ↔
      ∃ k, BinaryFile.write key = .ok k ∧ ∃ p, BinaryFile.write payload = .ok p ∧
        bytes = FixedWidth.bytes EventType.create ++ (FixedWidth.bytes timestamp ++ (k ++ p)) := by
  simp [toEvent, RadishEvent.serialize, validateType, BinaryFile.write_scalar,
    BinaryFile.writeOptional, ok_bind, bind_eq_ok_iff, map_eq_ok_iff, eq_comm (a := bytes)]

theorem serialize_rename_iff {timestamp : Timestamp} {key renameKey : Key} :
    (rename timestamp key renameKey : Mutation V).toEvent.serialize = .ok bytes ↔
      ∃ k, BinaryFile.write key = .ok k ∧ ∃ r, BinaryFile.write renameKey = .ok r ∧
        bytes = FixedWidth.bytes EventType.rename ++ (FixedWidth.bytes timestamp ++ (k ++ r)) := by
  simp [toEvent, RadishEvent.serialize, validateType, BinaryFile.write_scalar,
    BinaryFile.writeOptional, ok_bind, bind_eq_ok_iff, map_eq_ok_iff, eq_comm (a := bytes)]

theorem serialize_delete_iff {timestamp : Timestamp} {key : Key} :
    (delete timestamp key : Mutation V).toEvent.serialize = .ok bytes ↔
      ∃ k, BinaryFile.write key = .ok k ∧
        bytes = FixedWidth.bytes EventType.delete ++ (FixedWidth.bytes timestamp ++ k) := by
  simp [toEvent, RadishEvent.serialize, validateType, BinaryFile.write_scalar,
    BinaryFile.writeOptional, ok_bind, map_eq_ok_iff, eq_comm (a := bytes)]

theorem serialize_clear_iff {timestamp : Timestamp} :
    (clear timestamp : Mutation V).toEvent.serialize = .ok bytes ↔
      bytes = FixedWidth.bytes EventType.clear ++ FixedWidth.bytes timestamp := by
  simp [toEvent, RadishEvent.serialize, validateType, BinaryFile.write_scalar, ok_bind,
    eq_comm (a := bytes)]

end Mutation

namespace RadishEvent
variable {V : Type} [BinaryValue V] {file rest : Bytes}

/-- What `Deserialize` accepts is the serialization of a well-formed event. -/
theorem deserialize_sound {event : RadishEvent V} (h : deserialize file = .ok (event, rest)) :
    ∃ (m : Mutation V) (bytes : Bytes),
      m.toEvent = event ∧ m.toEvent.serialize = .ok bytes ∧ file = bytes ++ rest := by
  unfold deserialize at h
  simp only [bind_eq_ok_iff, Prod.exists, BinaryFile.read_eq_ok_iff, BinaryFile.write_scalar] at h
  obtain ⟨type, afterType, ⟨t, htype, rfl⟩, _, hvalid, timestamp, afterTime, ⟨s, htime, rfl⟩, h⟩ := h
  injection htype with htype
  injection htime with htime
  subst htype htime
  cases type with
  | create =>
    simp only [reduceCtorEq, if_false, or_false, bind_eq_ok_iff, Prod.exists,
      BinaryFile.read_eq_ok_iff, pure_eq_ok_iff] at h
    obtain ⟨key, _, ⟨k, hk, rfl⟩, renameKey, _, hr, payload, _, ⟨p, hp, rfl⟩, he⟩ := h
    injection hr with hr hfile
    injection he with he hrest
    subst hr hfile he hrest
    exact ⟨.create timestamp key payload, _, rfl,
      Mutation.serialize_create_iff.mpr ⟨k, hk, p, hp, rfl⟩, by simp⟩
  | rename =>
    simp only [reduceCtorEq, if_false, if_true, or_true, bind_eq_ok_iff, Prod.exists,
      BinaryFile.read_eq_ok_iff, pure_eq_ok_iff] at h
    obtain ⟨key, _, ⟨k, hk, rfl⟩, renameKey, _, ⟨r, hr, rfl⟩, _, _, hpair, he⟩ := h
    injection hpair with hkey hfile
    injection he with he hrest
    subst hkey hfile he hrest
    exact ⟨.rename timestamp key renameKey, _, rfl,
      Mutation.serialize_rename_iff.mpr ⟨k, hk, r, hr, rfl⟩, by simp⟩
  | delete =>
    simp only [reduceCtorEq, if_false, if_true, true_or, bind_eq_ok_iff, Prod.exists,
      BinaryFile.read_eq_ok_iff, pure_eq_ok_iff] at h
    obtain ⟨key, _, ⟨k, hk, rfl⟩, renameKey, _, hr, he⟩ := h
    injection hr with hr hfile
    injection he with he hrest
    subst hr hfile he hrest
    exact ⟨.delete timestamp key, _, rfl, Mutation.serialize_delete_iff.mpr ⟨k, hk, rfl⟩, by simp⟩
  | clear =>
    simp only [if_true, pure_eq_ok_iff] at h
    injection h with he hrest
    subst he hrest
    exact ⟨.clear timestamp, _, rfl, Mutation.serialize_clear_iff.mpr rfl, by simp⟩
  | unnamed byte above => cases hvalid

/-- `Deserialize` reads back every serialization, whatever follows it. -/
theorem deserialize_complete {m : Mutation V} {bytes : Bytes}
    (h : m.toEvent.serialize = .ok bytes) :
    deserialize (bytes ++ rest) = .ok (m.toEvent, rest) := by
  have readScalar {E : Type} [FixedWidth E] (e : E) (tail : Bytes) :
      BinaryFile.read (FixedWidth.bytes e ++ tail) = .ok (e, tail) :=
    BinaryFile.read_eq_ok_iff.mpr ⟨_, rfl, rfl⟩
  have readBack {W : Type} [BinaryValue W] {w : W} {written : Bytes}
      (hw : BinaryFile.write w = .ok written) (tail : Bytes) :
      BinaryFile.read (written ++ tail) = .ok (w, tail) :=
    BinaryFile.read_eq_ok_iff.mpr ⟨_, hw, rfl⟩
  cases m with
  | create timestamp key payload =>
    obtain ⟨k, hk, p, hp, rfl⟩ := Mutation.serialize_create_iff.mp h
    simp only [List.append_assoc, deserialize, readScalar, ok_bind, validateType, readBack hk]
    simp [readBack hp, Mutation.toEvent, ok_bind, pure, Except.pure]
  | rename timestamp key renameKey =>
    obtain ⟨k, hk, r, hr, rfl⟩ := Mutation.serialize_rename_iff.mp h
    simp only [List.append_assoc, deserialize, readScalar, ok_bind, validateType, readBack hk]
    simp [readBack hr, Mutation.toEvent, ok_bind, pure, Except.pure]
  | delete timestamp key =>
    obtain ⟨k, hk, rfl⟩ := Mutation.serialize_delete_iff.mp h
    simp only [List.append_assoc, deserialize, readScalar, ok_bind, validateType, readBack hk]
    simp [Mutation.toEvent, pure, Except.pure, bind, Except.bind]
  | clear timestamp =>
    obtain rfl := Mutation.serialize_clear_iff.mp h
    simp only [List.append_assoc, deserialize, readScalar, ok_bind, validateType]
    rfl

end RadishEvent

end Radish
