import Radish.Types

/-!
# BinaryFile

The checked `Write` and `Read` helpers. A write to an in-memory stream is the bytes it
appends; a read is given the bytes still in the stream and returns those it leaves.
-/

namespace Radish.BinaryFile
set_option autoImplicit false

variable {V : Type} {E : Type} [FixedWidth E]

/-- `std::numeric_limits<BinarySize>::max()` -/
def maxBinarySize : Nat := 2 ^ 32 - 1

def write [BinaryValue V] (value : V) : Except Exception Bytes :=
  match BinaryValue.layout (V := V) with
  | .heapAllocated E _ elements =>
    let data := elements value
    if data.length > maxBinarySize / FixedWidth.width E then
      .error (.lengthError "Binary value is too large to serialize")
    else
      .ok (LittleEndian.encode 4 (data.length * FixedWidth.width E) ++
        data.flatMap FixedWidth.bytes)
  | .binary _ => .ok (FixedWidth.bytes value)

def writeOptional [BinaryValue V] : Option V → Except Exception Bytes
  | none => .error (.invalidArgument "Cannot serialize a missing required field")
  | some value => write value

/-- `file.read(output, size)`: `none` when the stream ends first. -/
def readBytes (size : Nat) (file : Bytes) : Option (Bytes × Bytes) :=
  if size ≤ file.length then some (file.take size, file.drop size) else none

def loadElements (E : Type) [FixedWidth E] : Nat → Bytes → List E
  | 0, _ => []
  | n + 1, data =>
    FixedWidth.load (data.take (FixedWidth.width E)) ::
      loadElements E n (data.drop (FixedWidth.width E))

def read [BinaryValue V] (file : Bytes) : Except Exception (V × Bytes) :=
  match BinaryValue.layout (V := V) with
  | .heapAllocated E _ elements =>
    match readBytes 4 file with
    | none => .error (.runtimeError "Invalid binary value length")
    | some (size, file) =>
      let bytes := LittleEndian.decode size
      if bytes % FixedWidth.width E ≠ 0 then
        .error (.runtimeError "Invalid binary value length")
      else
        match readBytes bytes file with
        | none => .error (.runtimeError "Unexpected end of binary value")
        | some (data, file) =>
          .ok (elements.symm (loadElements E (bytes / FixedWidth.width E) data), file)
  | .binary _ =>
    match readBytes (FixedWidth.width V) file with
    | none => .error (.runtimeError "Unexpected end of binary value")
    | some (data, file) => .ok (FixedWidth.load data, file)

theorem readBytes_eq_some_iff {size : Nat} {file data rest : Bytes} :
    readBytes size file = some (data, rest) ↔ data.length = size ∧ file = data ++ rest := by
  unfold readBytes
  constructor
  · intro h
    split at h
    · rename_i hle
      injection h with h
      injection h with hdata hrest
      subst hdata hrest
      exact ⟨List.length_take_of_le hle, (List.take_append_drop size file).symm⟩
    · cases h
  · rintro ⟨rfl, rfl⟩
    simp

theorem flatMap_bytes_length (data : List E) :
    (data.flatMap FixedWidth.bytes).length = data.length * FixedWidth.width E := by
  induction data with
  | nil => simp
  | cons e data ih => simp [List.flatMap_cons, ih, Nat.add_mul, Nat.add_comm]

theorem loadElements_flatMap (data : List E) :
    loadElements E data.length (data.flatMap FixedWidth.bytes) = data := by
  induction data with
  | nil => rfl
  | cons e data ih =>
    have hlen := FixedWidth.bytes_length e
    simp only [List.length_cons, loadElements, List.flatMap_cons]
    rw [List.take_left' hlen, List.drop_left' hlen, ih, FixedWidth.load_bytes]

@[simp] theorem loadElements_length (n : Nat) (data : Bytes) :
    (loadElements E n data).length = n := by
  induction n generalizing data with
  | zero => rfl
  | succ n ih => simp [loadElements, ih]

theorem flatMap_loadElements {n : Nat} {data : Bytes} (h : data.length = n * FixedWidth.width E) :
    (loadElements E n data).flatMap FixedWidth.bytes = data := by
  induction n generalizing data with
  | zero =>
    have hnil : data = [] := List.length_eq_zero_iff.mp (by simpa using h)
    simp [loadElements, hnil]
  | succ n ih =>
    rw [Nat.add_mul, Nat.one_mul] at h
    have hhead : (data.take (FixedWidth.width E)).length = FixedWidth.width E := by
      rw [List.length_take]
      omega
    have htail : (data.drop (FixedWidth.width E)).length = n * FixedWidth.width E := by
      rw [List.length_drop]
      omega
    rw [loadElements, List.flatMap_cons, FixedWidth.bytes_load hhead, ih htail,
      List.take_append_drop]

theorem encodedSize_lt {data : List E} (h : data.length ≤ maxBinarySize / FixedWidth.width E) :
    data.length * FixedWidth.width E < 256 ^ 4 := by
  have hle := (Nat.le_div_iff_mul_le (FixedWidth.width_pos (E := E))).mp h
  unfold maxBinarySize at hle
  omega

theorem write_of_read [BinaryValue V] {file rest : Bytes} {value : V}
    (h : read file = .ok (value, rest)) :
    ∃ written, write value = .ok written ∧ file = written ++ rest := by
  unfold read at h
  unfold write
  cases hlayout : BinaryValue.layout (V := V) with
  | heapAllocated E _ elements =>
    simp only [hlayout] at h ⊢
    split at h
    · cases h
    rename_i size file' hsize
    obtain ⟨hlen, rfl⟩ := readBytes_eq_some_iff.mp hsize
    split at h
    · cases h
    rename_i hmod
    split at h
    · cases h
    rename_i data rest' hdata
    obtain ⟨hdatalen, rfl⟩ := readBytes_eq_some_iff.mp hdata
    injection h with h
    injection h with hvalue hrest
    subst hvalue hrest
    have hmul : LittleEndian.decode size / FixedWidth.width E * FixedWidth.width E =
        LittleEndian.decode size :=
      Nat.div_mul_cancel (Nat.dvd_of_mod_eq_zero (not_not.mp hmod))
    have hbound : LittleEndian.decode size ≤ maxBinarySize := by
      have hlt := LittleEndian.decode_lt size
      rw [hlen] at hlt
      unfold maxBinarySize
      omega
    have hfit : LittleEndian.decode size / FixedWidth.width E ≤
        maxBinarySize / FixedWidth.width E := Nat.div_le_div_right hbound
    refine ⟨size ++ data, ?_, by simp⟩
    simp only [Equiv.apply_symm_apply, loadElements_length, hmul]
    rw [if_neg (Nat.not_lt.mpr hfit), flatMap_loadElements (by rw [hmul, hdatalen]), ← hlen,
      LittleEndian.encode_decode]
  | binary _ =>
    simp only [hlayout] at h ⊢
    split at h
    · cases h
    rename_i data rest' hdata
    obtain ⟨hlen, rfl⟩ := readBytes_eq_some_iff.mp hdata
    injection h with h
    injection h with hvalue hrest
    subst hvalue hrest
    exact ⟨data, congrArg Except.ok (FixedWidth.bytes_load hlen), rfl⟩

theorem read_of_write [BinaryValue V] {written : Bytes} {value : V} (hwritten : write value = .ok written)
    (rest : Bytes) : read (written ++ rest) = .ok (value, rest) := by
  unfold write at hwritten
  unfold read
  cases hlayout : BinaryValue.layout (V := V) with
  | heapAllocated E _ elements =>
    simp only [hlayout] at hwritten ⊢
    split at hwritten
    · cases hwritten
    rename_i hfit
    have hsize := encodedSize_lt (Nat.not_lt.mp hfit)
    injection hwritten with hwritten
    subst hwritten
    rw [List.append_assoc, readBytes_eq_some_iff.mpr ⟨LittleEndian.encode_length 4 _, rfl⟩]
    simp only [LittleEndian.decode_encode hsize, Nat.mul_mod_left, ne_eq, not_true_eq_false,
      if_false]
    rw [readBytes_eq_some_iff.mpr ⟨flatMap_bytes_length _, rfl⟩]
    simp only [Nat.mul_div_cancel _ FixedWidth.width_pos, loadElements_flatMap,
      Equiv.symm_apply_apply]
  | binary _ =>
    simp only [hlayout] at hwritten ⊢
    injection hwritten with hwritten
    subst hwritten
    rw [readBytes_eq_some_iff.mpr ⟨FixedWidth.bytes_length value, rfl⟩]
    simp only [FixedWidth.load_bytes]

/-- Reading undoes writing, and accepts nothing else. -/
theorem read_eq_ok_iff [BinaryValue V] {file rest : Bytes} {value : V} :
    read file = .ok (value, rest) ↔
      ∃ written, write value = .ok written ∧ file = written ++ rest := by
  constructor
  · exact write_of_read
  · rintro ⟨written, hwritten, rfl⟩
    exact read_of_write hwritten rest

end Radish.BinaryFile
