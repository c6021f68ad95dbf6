import Mathlib

/-!
# Words in a byte memory

A memory of bytes under addresses of `w` bits, and the words of `w` bits in it, low
byte first.
-/

namespace Words

open List

variable {w : Nat}

abbrev Memory (w : Nat) : Type := BitVec w → BitVec 8

/-- The byte at `x` is one of the word at `a`. -/
def Within (a x : BitVec w) : Prop := (x - a).toNat < w / 8

instance (a x : BitVec w) : Decidable (Within a x) := inferInstanceAs (Decidable (_ < _))

/-- The words at `a` and at `b` have no byte in common. -/
def Apart (a b : BitVec w) : Prop := w / 8 ≤ (b - a).toNat ∧ w / 8 ≤ (a - b).toNat

instance (a b : BitVec w) : Decidable (Apart a b) := inferInstanceAs (Decidable (_ ∧ _))

def readWord (mem : Memory w) (a : BitVec w) : BitVec w :=
  BitVec.ofFnLE fun i : Fin w => (mem (a + BitVec.ofNat w (i / 8))).getLsbD (i % 8)

def writeWord (mem : Memory w) (a v : BitVec w) : Memory w :=
  fun x => if Within a x then v.extractLsb' (8 * (x - a).toNat) 8 else mem x

variable {a x : BitVec w}

theorem Apart.symm {b : BitVec w} (h : Apart a b) : Apart b a := ⟨h.2, h.1⟩

theorem Apart.not_within {b : BitVec w} (h : Apart a b) (hx : Within a x) : ¬ Within b x := by
  intro hb
  obtain ⟨hab, hba⟩ := h
  unfold Within at hx hb
  rcases Nat.lt_or_ge (x - b).toNat (x - a).toNat with hlt | hge
  · -- `b` lies between `a` and `x`
    have hsub : b - a = (x - a) - (x - b) := by ring
    rw [hsub, BitVec.toNat_sub_of_le (Nat.le_of_lt hlt)] at hab
    omega
  · have hsub : a - b = (x - b) - (x - a) := by ring
    rw [hsub, BitVec.toNat_sub_of_le hge] at hba
    omega

theorem Within.bounds (h : Within a x) (ha : a.toNat + w / 8 ≤ 2 ^ w) :
    a.toNat ≤ x.toNat ∧ x.toNat < a.toNat + w / 8 := by
  rw [Within, BitVec.toNat_sub] at h
  have hx := x.isLt
  rcases Nat.lt_or_ge x.toNat a.toNat with hlt | hge
  · rw [Nat.mod_eq_of_lt (by omega)] at h
    omega
  · rw [show 2 ^ w - a.toNat + x.toNat = x.toNat - a.toNat + 2 ^ w by omega, Nat.add_mod_right,
      Nat.mod_eq_of_lt (by omega)] at h
    omega

theorem writeWord_of_not_within (h : ¬ Within a x) (mem : Memory w) (v : BitVec w) :
    writeWord mem a v x = mem x := if_neg h

theorem index_lt (i : Fin w) : (i : Nat) / 8 < 2 ^ w :=
  Nat.lt_of_le_of_lt (Nat.div_le_self _ _) (Nat.lt_of_lt_of_le i.isLt (Nat.lt_two_pow_self).le)

theorem toNat_index (a : BitVec w) (i : Fin w) : (a + BitVec.ofNat w (i / 8) - a).toNat = i / 8 := by
  rw [add_sub_cancel_left, BitVec.toNat_ofNat, Nat.mod_eq_of_lt (index_lt i)]

theorem within_index (h8 : 8 ∣ w) (a : BitVec w) (i : Fin w) :
    Within a (a + BitVec.ofNat w (i / 8)) := by
  rw [Within, toNat_index]
  obtain ⟨k, rfl⟩ := h8
  have hi := i.isLt
  omega

theorem readWord_writeWord (h8 : 8 ∣ w) (mem : Memory w) (a v : BitVec w) :
    readWord (writeWord mem a v) a = v := by
  ext i hi
  have hbyte := within_index h8 a ⟨i, hi⟩
  simp only [readWord, BitVec.getElem_ofFnLE, writeWord, if_pos hbyte, toNat_index a ⟨i, hi⟩]
  rw [BitVec.getLsbD_extractLsb', Nat.div_add_mod, ← BitVec.getLsbD_eq_getElem]
  simp [Nat.mod_lt]

theorem readWord_congr (h8 : 8 ∣ w) {mem mem' : Memory w}
    (h : ∀ x, Within a x → mem x = mem' x) : readWord mem a = readWord mem' a := by
  unfold readWord
  congr 1
  funext i
  rw [h _ (within_index h8 a i)]

theorem readWord_writeWord_of_apart (h8 : 8 ∣ w) {b : BitVec w} (h : Apart a b) (mem : Memory w)
    (v : BitVec w) : readWord (writeWord mem a v) b = readWord mem b :=
  readWord_congr h8 fun _ hx => writeWord_of_not_within (h.symm.not_within hx) mem v

/-! ## Updates of words that lie apart -/

variable {α : Type}

/-- The word at `address i` is replaced by what `update i` makes of it. -/
def updateWord (address : α → BitVec w) (update : α → BitVec w → BitVec w) (mem : Memory w) (i : α) :
    Memory w :=
  writeWord mem (address i) (update i (readWord mem (address i)))

theorem foldl_outside (address : α → BitVec w) (update : α → BitVec w → BitVec w) {l : List α}
    (h : ∀ i ∈ l, ¬ Within (address i) x) (mem : Memory w) :
    l.foldl (updateWord address update) mem x = mem x := by
  induction l generalizing mem with
  | nil => rfl
  | cons i l ih =>
    rw [foldl_cons, ih fun j hj => h j (mem_cons_of_mem _ hj)]
    exact writeWord_of_not_within (h i mem_cons_self) mem _

theorem readWord_foldl_of_apart (h8 : 8 ∣ w) (address : α → BitVec w)
    (update : α → BitVec w → BitVec w) {l : List α}
    (h : ∀ i ∈ l, Apart (address i) a) (mem : Memory w) :
    readWord (l.foldl (updateWord address update) mem) a = readWord mem a :=
  readWord_congr h8 fun _ hx =>
    foldl_outside address update (fun i hi => (h i hi).symm.not_within hx) mem

/-- Each word is updated once, from what it was. -/
theorem readWord_foldl (h8 : 8 ∣ w) (address : α → BitVec w) (update : α → BitVec w → BitVec w)
    {l : List α} (hl : l.Pairwise fun i j => Apart (address i) (address j)) (mem : Memory w) {i : α}
    (hi : i ∈ l) :
    readWord (l.foldl (updateWord address update) mem) (address i) =
      update i (readWord mem (address i)) := by
  induction l generalizing mem with
  | nil => cases hi
  | cons j l ih =>
    obtain ⟨hj, hl⟩ := pairwise_cons.mp hl
    rw [foldl_cons]
    rcases mem_cons.mp hi with rfl | hi
    · rw [readWord_foldl_of_apart h8 address update fun k hk => (hj k hk).symm]
      exact readWord_writeWord h8 mem _ _
    · rw [ih hl _ hi, updateWord, readWord_writeWord_of_apart h8 (hj i hi)]

/-! ## Windows -/

section Windows

variable {β : Type} (mem : BitVec w → β)

/-- What is at the `n` addresses from `a` on. -/
def window (a : BitVec w) (n : Nat) : List β := (List.range n).map fun i => mem (a + BitVec.ofNat w i)

@[simp] theorem length_window (a : BitVec w) (n : Nat) : (window mem a n).length = n := by
  rw [window, length_map, length_range]

theorem window_add (a : BitVec w) (m n : Nat) :
    window mem a (m + n) = window mem a m ++ window mem (a + BitVec.ofNat w m) n := by
  unfold window
  rw [range_add, map_append, map_map]
  refine congrArg _ (map_congr_left fun i _ => ?_)
  rw [Function.comp_apply, BitVec.ofNat_add, add_assoc]

theorem drop_window (a : BitVec w) (k n : Nat) :
    (window mem a n).drop k = window mem (a + BitVec.ofNat w k) (n - k) := by
  rcases Nat.le_total k n with h | h
  · obtain ⟨m, rfl⟩ := Nat.exists_eq_add_of_le h
    rw [window_add, drop_left' (length_window mem a k), Nat.add_sub_cancel_left]
  · rw [drop_eq_nil_of_le (by rwa [length_window]), Nat.sub_eq_zero_of_le h]
    rfl

end Windows

end Words
