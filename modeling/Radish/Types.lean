import Mathlib.Data.List.AList
import Radish.Library.LittleEndian

/-!
# Value types and their object representation

`Timestamp` is a 64-bit count of milliseconds, a key is a byte string, and a stored value is
anything the `BinaryType` and `HeapAllocated` concepts admit: a fixed-width scalar or a
container of fixed-width elements. The unordered maps are association lists; where the
source iterates over one, the order of the visit is an explicit argument.
-/

namespace Radish
set_option autoImplicit false

abbrev Bytes := List UInt8
abbrev Key := Bytes
abbrev Timestamp := Int64

/-- The exceptions the source throws, by class. -/
inductive Exception where
  | runtimeError (what : String)
  | lengthError (what : String)
  | invalidArgument (what : String)
  | iosFailure (what : String)
  | badOptionalAccess
  deriving DecidableEq, Repr

section Throwing
variable {α β : Type} {x : Except Exception α} {f : α → Except Exception β}

theorem ok_bind (a : α) : (Except.ok a >>= f) = f a := rfl

theorem error_bind (e : Exception) : (Except.error e >>= f) = .error e := rfl

theorem bind_eq_ok_iff {b : β} : (x >>= f) = .ok b ↔ ∃ a, x = .ok a ∧ f a = .ok b := by
  cases x with
  | error e => simp [error_bind]
  | ok a => simp [ok_bind]

theorem map_eq_ok_iff {g : α → β} {b : β} : g <$> x = .ok b ↔ ∃ a, x = .ok a ∧ g a = b := by
  cases x with
  | error e => simp [Functor.map, Except.map]
  | ok a => simp [Functor.map, Except.map]

theorem pure_eq_ok_iff {a b : α} : (pure a : Except Exception α) = .ok b ↔ a = b := by
  simp [pure, Except.pure]

end Throwing

/-- A trivially copyable type, seen through `reinterpret_cast` to its bytes. -/
class FixedWidth (E : Type) where
  width : Nat
  width_pos : 0 < width
  rep : E ≃ List.Vector UInt8 width

namespace FixedWidth
variable {E : Type} [FixedWidth E]

def bytes (e : E) : Bytes := (rep e).toList

/-- Reads the object from the front of `bs` into zero-initialised storage. -/
def load (bs : Bytes) : E :=
  rep.symm ⟨(bs ++ List.replicate (width E) 0).take (width E), by simp⟩

@[simp] theorem bytes_length (e : E) : (bytes e).length = width E := (rep e).toList_length

theorem bytes_load {bs : Bytes} (h : bs.length = width E) : bytes (load bs : E) = bs := by
  have hrep := rep.apply_symm_apply
    (⟨(bs ++ List.replicate (width E) 0).take (width E), by simp⟩ : List.Vector UInt8 (width E))
  exact (congrArg List.Vector.toList hrep).trans (List.take_left' h)

theorem bytes_injective : Function.Injective (bytes : E → Bytes) :=
  fun _ _ h => rep.injective (Subtype.ext h)

theorem load_bytes (e : E) : load (bytes e) = e :=
  bytes_injective (bytes_load (bytes_length e))

instance ofBitVec (w : Nat) : FixedWidth (BitVec (8 * (w + 1))) where
  width := w + 1
  width_pos := Nat.succ_pos w
  rep := LittleEndian.bitVecEquiv (w + 1)

instance : FixedWidth UInt8 where
  width := 1
  width_pos := Nat.one_pos
  rep := Equiv.trans ⟨UInt8.toBitVec, UInt8.ofBitVec, fun _ => rfl, fun _ => rfl⟩
    (LittleEndian.bitVecEquiv 1)

instance : FixedWidth Timestamp where
  width := 8
  width_pos := by decide
  rep := Equiv.trans ⟨Int64.toBitVec, Int64.ofBitVec, fun _ => rfl, fun _ => rfl⟩
    (LittleEndian.bitVecEquiv 8)

end FixedWidth

/-- The two concepts a stored type may satisfy: arithmetic or enumeration types, and
containers with `size` and `data` whose elements are trivially copyable. -/
inductive Layout (V : Type) : Type 1 where
  | binary (object : FixedWidth V)
  | heapAllocated (E : Type) (element : FixedWidth E) (elements : V ≃ List E)

class BinaryValue (V : Type) where
  layout : Layout V

instance {E : Type} [FixedWidth E] : BinaryValue (List E) where
  layout := .heapAllocated E inferInstance (Equiv.refl (List E))

instance {E : Type} [FixedWidth E] : BinaryValue E where
  layout := .binary inferInstance

/-- A `std::unordered_map` keyed by strings. -/
abbrev DataMap (V : Type) := AList (fun _ : Key => V)

namespace DataMap
variable {V : Type} (m : DataMap V) (k x : Key)

theorem lookup_insert (v : V) : (m.insert k v).lookup x = if x = k then some v else m.lookup x := by
  by_cases h : x = k
  · subst h
    simp
  · simp [h, AList.lookup_insert_ne h]

theorem lookup_erase : (m.erase k).lookup x = if x = k then none else m.lookup x := by
  by_cases h : x = k
  · subst h
    simp
  · simp [h, AList.lookup_erase_ne h]

theorem isEmpty_entries_iff : m.entries.isEmpty = true ↔ ∀ k, m.lookup k = none := by
  constructor
  · intro h k
    rw [AList.lookup_eq_none, AList.mem_keys, AList.keys, List.isEmpty_iff.mp h]
    exact List.not_mem_nil
  · intro h
    rw [List.isEmpty_iff, List.eq_nil_iff_forall_not_mem]
    rintro ⟨k, v⟩ hmem
    have hlookup := AList.mem_lookup_iff.mpr hmem
    rw [h k] at hlookup
    cases hlookup

end DataMap

/-- The unspecified order in which an unordered container is traversed. -/
structure Traversal (α : Type) where
  visit : List α → List α
  perm : ∀ l, (visit l).Perm l

/-- The traversal in the order the entries are listed. -/
def Traversal.listed {α : Type} : Traversal α := ⟨id, fun l => List.Perm.refl l⟩

end Radish
