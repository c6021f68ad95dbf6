import Mathlib.Data.UInt
import Mathlib.Data.Nat.Digits.Defs

/-!
# Decimal numerals in bytes

The numeral of a number, and the loop that reads one: as long as there are digits, the value is
multiplied by ten and the digit is added, in arithmetic modulo `m`.
-/

namespace Decimal

open List

def isDigit (b : UInt8) : Bool := 0x30 ≤ b && b ≤ 0x39

def numeral (n : Nat) : List UInt8 := (Nat.toDigits 10 n).map fun c => UInt8.ofNat c.toNat

/-- The value read after `val`, and what follows the digits. -/
def read (m val : Nat) : List UInt8 → Nat × List UInt8
  | [] => (val, [])
  | c :: text => if isDigit c then read m ((val * 10 + (c.toNat - 0x30)) % m) text else (val, c :: text)

theorem numeral_ne_nil (n : Nat) : numeral n ≠ [] := mt map_eq_nil_iff.mp Nat.toDigits_ne_nil

theorem digit_bounds {c : Char} (h : c.isDigit = true) : 48 ≤ c.toNat ∧ c.toNat ≤ 57 := by
  rw [Char.isDigit, Bool.and_eq_true, decide_eq_true_iff, decide_eq_true_iff] at h
  exact h

theorem toNat_digit {c : Char} (h : c.isDigit = true) : (UInt8.ofNat c.toNat).toNat = c.toNat :=
  Nat.mod_eq_of_lt (Nat.lt_of_le_of_lt (digit_bounds h).2 (by decide))

theorem isDigit_digit {c : Char} (h : c.isDigit = true) : isDigit (UInt8.ofNat c.toNat) = true := by
  obtain ⟨hlow, hhigh⟩ := digit_bounds h
  rw [isDigit, Bool.and_eq_true, decide_eq_true_iff, decide_eq_true_iff, UInt8.le_iff_toNat_le,
    UInt8.le_iff_toNat_le,
    toNat_digit h]
  exact ⟨hlow, hhigh⟩

theorem isDigit_of_mem_numeral {n : Nat} {b : UInt8} (h : b ∈ numeral n) : isDigit b = true := by
  obtain ⟨c, hc, rfl⟩ := mem_map.mp h
  exact isDigit_digit (Nat.isDigit_of_mem_toDigits (by decide) (by decide) hc)

theorem read_of_not_digit {m val : Nat} {text : List UInt8} (h : ∀ c ∈ text.head?, isDigit c = false) :
    read m val text = (val, text) := by
  cases text with
  | nil => rfl
  | cons c text => rw [read, h c rfl, if_neg Bool.false_ne_true]

theorem read_append (m : Nat) {digits : List Char} (h : ∀ c ∈ digits, c.isDigit = true) (val : Nat)
    (rest : List UInt8) :
    read m (val % m) (digits.map (fun c => UInt8.ofNat c.toNat) ++ rest) =
      read m (Nat.ofDigitChars 10 digits val % m) rest := by
  induction digits generalizing val with
  | nil => rfl
  | cons c digits ih =>
    have hc := h c mem_cons_self
    have hval : (val % m * 10 + (c.toNat - 0x30)) % m = (10 * val + (c.toNat - 0x30)) % m := by
      rw [Nat.add_mod, Nat.mod_mul_mod, ← Nat.add_mod, Nat.mul_comm]
    rw [map_cons, cons_append, read, isDigit_digit hc, if_pos rfl, toNat_digit hc, hval,
      ih (fun d hd => h d (mem_cons_of_mem c hd)), Nat.ofDigitChars_cons]
    rfl

theorem read_numeral (m n : Nat) (rest : List UInt8) (h : ∀ c ∈ rest.head?, isDigit c = false) :
    read m 0 (numeral n ++ rest) = (n % m, rest) := by
  have hdigits : ∀ c ∈ Nat.toDigits 10 n, c.isDigit = true := fun c hc =>
    Nat.isDigit_of_mem_toDigits (by decide) (by decide) hc
  have hread := read_append m hdigits 0 rest
  rw [Nat.zero_mod, Nat.ofDigitChars_toDigits (by decide) (by decide), read_of_not_digit h] at hread
  exact hread

theorem read_numeral_cons (m n : Nat) {c : UInt8} (hc : isDigit c = false) (rest : List UInt8) :
    read m 0 (numeral n ++ c :: rest) = (n % m, c :: rest) := by
  refine read_numeral m n (c :: rest) fun d hd => ?_
  rw [← Option.some_inj.mp hd]
  exact hc

end Decimal
