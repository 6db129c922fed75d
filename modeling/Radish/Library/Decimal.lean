import Mathlib.Data.List.Basic

/-!
# Decimal numerals as bytes

Printing a natural number in ASCII digits and reading digits back.
-/

namespace Decimal
set_option autoImplicit false

def isDigit (b : UInt8) : Bool := decide (48 ≤ b.toNat) && decide (b.toNat ≤ 57)

def digit (d : Nat) : UInt8 := UInt8.ofNat (48 + d)

/-- The value of a string of digits, most significant digit first. -/
def read (ds : List UInt8) : Nat := ds.foldl (fun n d => 10 * n + (d.toNat - 48)) 0

def print (n : Nat) : List UInt8 := (Nat.toDigits 10 n).map fun c => UInt8.ofNat c.toNat

theorem digit_toNat {d : Nat} (h : d < 10) : (digit d).toNat = 48 + d := by
  simp only [digit, UInt8.toNat_ofNat']
  omega

theorem isDigit_digit {d : Nat} (h : d < 10) : isDigit (digit d) = true := by
  simp only [isDigit, digit_toNat h, Bool.and_eq_true, decide_eq_true_eq]
  omega

theorem digitChar_eq {d : Nat} (h : d < 10) : UInt8.ofNat (Nat.digitChar d).toNat = digit d := by
  have hall : ∀ d : Fin 10, UInt8.ofNat (Nat.digitChar d).toNat = digit d := by decide
  exact hall ⟨d, h⟩

/-- The last digit comes off the end. -/
theorem print_eq (n : Nat) :
    print n = (if n < 10 then [] else print (n / 10)) ++ [digit (n % 10)] := by
  unfold print
  rw [Nat.toDigits_eq_if (by omega)]
  split
  · rename_i h
    simp [digitChar_eq h, Nat.mod_eq_of_lt h]
  · simp [digitChar_eq (Nat.mod_lt n (by omega : 0 < 10))]

theorem print_ne_nil (n : Nat) : print n ≠ [] := by
  rw [print_eq]
  simp

theorem isDigit_of_mem_print {n : Nat} {b : UInt8} (h : b ∈ print n) : isDigit b = true := by
  induction n using Nat.strongRecOn with
  | ind n ih =>
    rw [print_eq, List.mem_append, List.mem_singleton] at h
    rcases h with h | h
    · split at h
      · cases h
      · exact ih (n / 10) (by omega) h
    · rw [h]
      exact isDigit_digit (Nat.mod_lt n (by omega))

theorem read_append_digit (ds : List UInt8) {d : Nat} (h : d < 10) :
    read (ds ++ [digit d]) = 10 * read ds + d := by
  rw [read, List.foldl_append, List.foldl_cons, List.foldl_nil, digit_toNat h]
  unfold read
  omega

/-- What is printed reads back. -/
theorem read_print (n : Nat) : read (print n) = n := by
  induction n using Nat.strongRecOn with
  | ind n ih =>
    rw [print_eq, read_append_digit _ (Nat.mod_lt n (by omega))]
    split
    · have hnil : read [] = 0 := rfl
      omega
    · rw [ih (n / 10) (by omega)]
      omega

end Decimal
