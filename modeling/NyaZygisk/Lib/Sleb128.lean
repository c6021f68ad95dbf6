import Mathlib

/-!
# Signed LEB128 numbers

A number is written in bytes of seven bits, lowest first; every byte but the last
has its high bit set, and the second-highest bit of the last one is the sign.
-/

namespace Sleb128

/-- The bytes are one number and nothing after it. -/
inductive IsNumber : List (BitVec 8) → Prop
  | last {b : BitVec 8} : b &&& 0x80 = 0 → IsNumber [b]
  | more {b : BitVec 8} {bs : List (BitVec 8)} : b &&& 0x80 ≠ 0 → IsNumber bs → IsNumber (b :: bs)

/-- The seven bits that a byte carries. -/
def payload (b : BitVec 8) : BitVec 8 := b &&& 0x7f

/-- The number that the bytes stand for. -/
def value : List (BitVec 8) → Int
  | [] => 0
  | [b] => (payload b).toNat - if b &&& 0x40 = 0 then 0 else 128
  | b :: bs => (payload b).toNat + 128 * value bs

/-- The shortest encoding, of at most `n + 1` bytes. -/
def encodeWithin : Nat → Int → List (BitVec 8)
  | 0, v => [BitVec.ofInt 8 (v % 128)]
  | n + 1, v =>
    if -64 ≤ v ∧ v < 64 then [BitVec.ofInt 8 (v % 128)]
    else BitVec.ofInt 8 (v % 128 + 128) :: encodeWithin n (v / 128)

/-- The shortest encoding of a 64-bit number. -/
def encode (v : BitVec 64) : List (BitVec 8) := encodeWithin 9 v.toInt

/-! ## Encoding -/

theorem payload_lt (b : BitVec 8) : (payload b).toNat < 128 := by
  have h : ∀ b : BitVec 8, (payload b).toNat < 128 := by decide
  exact h b

theorem last_byte {v : Int} (h : -64 ≤ v ∧ v < 64) :
    IsNumber [BitVec.ofInt 8 (v % 128)] ∧ value [BitVec.ofInt 8 (v % 128)] = v := by
  have hbytes : ∀ n : Fin 128, BitVec.ofInt 8 ((n - 64 : Int) % 128) &&& 0x80 = 0 ∧
      value [BitVec.ofInt 8 ((n - 64 : Int) % 128)] = n - 64 := by decide
  obtain ⟨n, rfl⟩ : ∃ n : Fin 128, v = n - 64 := ⟨⟨(v + 64).toNat, by omega⟩, by simp; omega⟩
  exact ⟨.last (hbytes n).1, (hbytes n).2⟩

theorem more_byte (v : Int) :
    BitVec.ofInt 8 (v % 128 + 128) &&& 0x80 ≠ 0 ∧
      ((payload (BitVec.ofInt 8 (v % 128 + 128))).toNat : Int) = v % 128 := by
  have hbytes : ∀ n : Fin 128, BitVec.ofInt 8 (n + 128) &&& 0x80 ≠ 0 ∧
      ((payload (BitVec.ofInt 8 (n + 128))).toNat : Int) = n := by decide
  obtain ⟨n, hn⟩ : ∃ n : Fin 128, v % 128 = n := ⟨⟨(v % 128).toNat, by omega⟩, by simp; omega⟩
  rw [hn]
  exact hbytes n

theorem encodeWithin_spec {n : Nat} {v : Int} (h : -(64 * 128 ^ n) ≤ v ∧ v < 64 * 128 ^ n) :
    IsNumber (encodeWithin n v) ∧ value (encodeWithin n v) = v := by
  induction n generalizing v with
  | zero => exact last_byte (by simpa using h)
  | succ n ih =>
    unfold encodeWithin
    split
    · next hsmall => exact last_byte hsmall
    · obtain ⟨hbit, hpayload⟩ := more_byte v
      rw [pow_succ] at h
      obtain ⟨hnumber, hvalue⟩ := ih (v := v / 128) (by omega)
      refine ⟨.more hbit hnumber, ?_⟩
      cases henc : encodeWithin n (v / 128) with
      | nil => rw [henc] at hnumber; cases hnumber
      | cons c cs =>
        rw [henc] at hvalue
        rw [value, hvalue, hpayload]
        · omega
        · nofun

theorem length_encodeWithin (n : Nat) (v : Int) : (encodeWithin n v).length ≤ n + 1 := by
  induction n generalizing v with
  | zero => exact le_rfl
  | succ n ih =>
    unfold encodeWithin
    split
    · simp
    · exact Nat.succ_le_succ (ih _)

theorem encode_bounds (v : BitVec 64) : -(64 * 128 ^ 9) ≤ v.toInt ∧ v.toInt < 64 * 128 ^ 9 := by
  have hlo := BitVec.le_toInt v
  have hhi := BitVec.toInt_lt (x := v)
  norm_num at hlo hhi ⊢
  omega

theorem isNumber_encode (v : BitVec 64) : IsNumber (encode v) :=
  (encodeWithin_spec (encode_bounds v)).1

/-- The shortest encoding of a 64-bit number stands for it. -/
theorem value_encode (v : BitVec 64) : value (encode v) = v.toInt :=
  (encodeWithin_spec (encode_bounds v)).2

theorem length_encode (v : BitVec 64) : (encode v).length ≤ 10 := length_encodeWithin 9 _

/-! ## Collecting the bits of a number -/

variable {w : Nat}

theorem or_shiftLeft {a : BitVec w} {s : Nat} (ha : a.toNat < 2 ^ s) (x : BitVec w) :
    a ||| x <<< s = a + x <<< s := by
  refine (BitVec.add_eq_or_of_and_eq_zero _ _ ?_).symm
  ext i hi
  simp only [BitVec.getElem_and, BitVec.getElem_shiftLeft, BitVec.getElem_zero, Bool.and_eq_false_iff,
    Bool.not_eq_false', decide_eq_true_eq]
  rcases Nat.lt_or_ge i s with hlt | hge
  · simp [hlt]
  · refine .inl ?_
    rw [← BitVec.getLsbD_eq_getElem, BitVec.getLsbD]
    exact Nat.testBit_lt_two_pow (Nat.lt_of_lt_of_le ha (Nat.pow_le_pow_right (by decide) hge))

theorem add_shiftLeft (x y : BitVec w) (s : Nat) : (x + y) <<< s = x <<< s + y <<< s := by
  simp only [BitVec.shiftLeft_eq_mul_twoPow, BitVec.add_mul]

theorem mul_shiftLeft_128 (x : BitVec w) (s : Nat) : (128 * x) <<< s = x <<< (s + 7) := by
  rw [Nat.add_comm, BitVec.shiftLeft_add]
  congr 1
  rw [BitVec.shiftLeft_eq_mul_twoPow, BitVec.mul_comm]
  congr 1
  apply BitVec.eq_of_toNat_eq
  simp [BitVec.toNat_twoPow]

theorem neg_one_shiftLeft (s : Nat) : (-1 : BitVec w) <<< s = -((1 : BitVec w) <<< s) := by
  simp only [BitVec.shiftLeft_eq_mul_twoPow, BitVec.neg_mul]

end Sleb128
