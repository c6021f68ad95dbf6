import Mathlib.Data.Nat.Basic
import Mathlib.Tactic.Ring

/-!
# Numbers as bytes, low byte first
-/

namespace LittleEndian

/-- The lowest `n` bytes of a number. -/
def bytes : Nat → Nat → List UInt8
  | 0, _ => []
  | n + 1, v => UInt8.ofNat v :: bytes n (v / 256)

def number : List UInt8 → Nat
  | [] => 0
  | b :: rest => b.toNat + 256 * number rest

/-- The number in `n` bytes from place `i` on. -/
def numberAt (byte : Nat → UInt8) (n i : Nat) : Nat := number ((List.range n).map fun k => byte (i + k))

theorem numberAt_congr {byte byte' : Nat → UInt8} {n i : Nat} (h : ∀ k, i ≤ k → k < i + n → byte k =
    byte' k) :
    numberAt byte n i = numberAt byte' n i := by
  unfold numberAt
  congr 1
  exact List.map_congr_left fun k hk => h (i + k) (Nat.le_add_right i k)
    (Nat.add_lt_add_left (List.mem_range.mp hk) i)

@[simp] theorem length_bytes (n v : Nat) : (bytes n v).length = n := by
  induction n generalizing v with
  | zero => rfl
  | succ n ih => rw [bytes, List.length_cons, ih]

theorem number_bytes {n v : Nat} (h : v < 256 ^ n) : number (bytes n v) = v := by
  induction n generalizing v with
  | zero => rw [bytes, number, Nat.lt_one_iff.mp h]
  | succ n ih =>
    have hrest : v / 256 < 256 ^ n := Nat.div_lt_of_lt_mul (by rwa [Nat.mul_comm, ← Nat.pow_succ])
    rw [bytes, number, ih hrest, UInt8.toNat_ofNat']
    exact Nat.mod_add_div v 256

end LittleEndian
