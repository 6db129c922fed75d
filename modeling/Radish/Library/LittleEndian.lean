import Mathlib.Data.List.Basic
import Mathlib.Data.Vector.Basic

/-!
# Little-endian naturals of a fixed width

`encode w n` is the `w`-byte object representation of `n` on a little-endian machine,
and `decode` reads one back. On `w` bytes the two are inverse below `256 ^ w`.
-/

namespace LittleEndian
set_option autoImplicit false

def encode : Nat → Nat → List UInt8
  | 0, _ => []
  | w + 1, n => UInt8.ofNat n :: encode w (n / 256)

def decode : List UInt8 → Nat
  | [] => 0
  | b :: bs => b.toNat + 256 * decode bs

@[simp] theorem encode_length (w n : Nat) : (encode w n).length = w := by
  induction w generalizing n with
  | zero => rfl
  | succ w ih => simp [encode, ih]

theorem decode_lt (bs : List UInt8) : decode bs < 256 ^ bs.length := by
  induction bs with
  | nil => simp [decode]
  | cons b bs ih =>
    have hb := b.toNat_lt
    simp only [decode, List.length_cons, Nat.pow_succ]
    omega

theorem decode_encode {w n : Nat} (h : n < 256 ^ w) : decode (encode w n) = n := by
  induction w generalizing n with
  | zero =>
    have hn : n = 0 := by simpa using h
    simp [encode, decode, hn]
  | succ w ih =>
    have hq : n / 256 < 256 ^ w := by
      rw [Nat.pow_succ] at h
      exact Nat.div_lt_of_lt_mul (by omega)
    simp only [encode, decode, ih hq, UInt8.toNat_ofNat']
    omega

theorem encode_decode (bs : List UInt8) : encode bs.length (decode bs) = bs := by
  induction bs with
  | nil => rfl
  | cons b bs ih =>
    have hb := b.toNat_lt
    have hdiv : (b.toNat + 256 * decode bs) / 256 = decode bs := by omega
    have hlow : UInt8.ofNat (b.toNat + 256 * decode bs) = b := by
      apply UInt8.toNat_inj.mp
      simp only [UInt8.toNat_ofNat']
      omega
    simp only [decode, List.length_cons, encode, hdiv, ih, hlow]

/-- A bit vector of `w` bytes and its object representation. -/
def bitVecEquiv (w : Nat) : BitVec (8 * w) ≃ List.Vector UInt8 w where
  toFun x := ⟨encode w x.toNat, encode_length w _⟩
  invFun v := BitVec.ofNat (8 * w) (decode v.toList)
  left_inv x := by
    have hx : x.toNat < 256 ^ w := by
      simpa [Nat.pow_mul] using x.isLt
    simp [List.Vector.toList, decode_encode hx]
  right_inv v := by
    obtain ⟨bs, hbs⟩ := v
    have hlt : decode bs < 2 ^ (8 * w) := by
      have := decode_lt bs
      rw [hbs] at this
      simpa [Nat.pow_mul] using this
    apply Subtype.ext
    simp only [List.Vector.toList, BitVec.toNat_ofNat, Nat.mod_eq_of_lt hlt]
    rw [← hbs]
    exact encode_decode bs

end LittleEndian
