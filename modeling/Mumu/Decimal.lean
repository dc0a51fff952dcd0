import Mathlib.Data.Nat.Digits.Defs
import Mathlib.Data.Int.Order.Basic

namespace Mumu.Decimal

/-- The decimal text of an integer, without a plus sign or leading zeros. -/
def print : Int → List Char
  | .ofNat n => Nat.toDigits 10 n
  | .negSucc n => '-' :: Nat.toDigits 10 (n + 1)

def readNat (s : List Char) : Option Nat :=
  if s ≠ [] ∧ s.all Char.isDigit then some (Nat.ofDigitChars 10 s 0) else none

def read : List Char → Option Int
  | '-' :: s => (readNat s).map Int.negOfNat
  | '+' :: s => (readNat s).map Int.ofNat
  | s => (readNat s).map Int.ofNat

theorem isDigit_toDigits (n : Nat) : ∀ c ∈ Nat.toDigits 10 n, c.isDigit :=
  fun _ hc => Nat.isDigit_of_mem_toDigits (by decide) (by decide) hc

theorem readNat_toDigits (n : Nat) : readNat (Nat.toDigits 10 n) = some n := by
  have hd : (Nat.toDigits 10 n).all Char.isDigit := List.all_eq_true.mpr (isDigit_toDigits n)
  rw [readNat, if_pos ⟨Nat.toDigits_ne_nil, hd⟩, Nat.ofDigitChars_ten_toDigits]

theorem read_digits (s : List Char) (hd : ∀ c ∈ s, c.isDigit) :
    read s = (readNat s).map Int.ofNat := by
  unfold read
  split
  · have h := hd '-' (by simp)
    simp at h
  · have h := hd '+' (by simp)
    simp at h
  · rfl

theorem read_print (i : Int) : read (print i) = some i := by
  cases i with
  | ofNat n =>
    change read (Nat.toDigits 10 n) = some (Int.ofNat n)
    rw [read_digits _ (isDigit_toDigits n), readNat_toDigits, Option.map_some]
  | negSucc n =>
    change (readNat (Nat.toDigits 10 (n + 1))).map Int.negOfNat = some (Int.negSucc n)
    rw [readNat_toDigits, Option.map_some]
    rfl

end Mumu.Decimal
