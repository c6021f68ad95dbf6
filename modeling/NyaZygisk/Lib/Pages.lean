import Mathlib

/-!
# Pages and arcs of addresses

Addresses of `w` bits, their pages, and the arcs of the address space, which may run on
from its end to its beginning.
-/

namespace Pages

open List

variable {w : Nat}

/-! ## Rounding -/

/-- The part of `a` below `size`, for a power of two. -/
def offset (size a : BitVec w) : BitVec w := a &&& (size - 1)

def floor (size a : BitVec w) : BitVec w := a &&& ~~~(size - 1)

def ceil (size a : BitVec w) : BitVec w := floor size (a + size - 1)

/-- The size of a page is a power of two, and a page more than a byte. -/
structure PageSize (w : Nat) where
  bits : Nat
  bits_pos : 0 < bits
  bits_lt : bits < w

/-- Pages of 4096 bytes. -/
def smallPages : PageSize 64 := ⟨12, by decide, by decide⟩

def PageSize.bytes (pg : PageSize w) : BitVec w := BitVec.twoPow w pg.bits

def Aligned (pg : PageSize w) (a : BitVec w) : Prop := offset pg.bytes a = 0

instance (pg : PageSize w) (a : BitVec w) : Decidable (Aligned pg a) := inferInstanceAs (Decidable (_ = _))

theorem offset_add_floor (size a : BitVec w) : offset size a + floor size a = a := by
  have hdisjoint : (a &&& (size - 1)) &&& (a &&& ~~~(size - 1)) = 0#w := by
    ext i hi
    simp only [BitVec.getElem_and, BitVec.getElem_not, BitVec.getElem_zero]
    cases (size - 1)[i] <;> simp
  rw [offset, floor, BitVec.add_eq_or_of_and_eq_zero _ _ hdisjoint]
  ext i hi
  simp only [BitVec.getElem_or, BitVec.getElem_and, BitVec.getElem_not]
  cases (size - 1)[i] <;> simp

theorem floor_eq_sub (size a : BitVec w) : floor size a = a - offset size a :=
  eq_sub_of_add_eq' (offset_add_floor size a)

theorem offset_le (size a : BitVec w) : (offset size a).toNat ≤ (size - 1).toNat := by
  rw [offset, BitVec.toNat_and]
  exact Nat.and_le_right

theorem PageSize.toNat_bytes (pg : PageSize w) : pg.bytes.toNat = 2 ^ pg.bits :=
  BitVec.toNat_twoPow_of_lt pg.bits_lt

theorem toNat_sub_one {a : BitVec w} (h : 0 < a.toNat) : (a - 1).toNat = a.toNat - 1 := by
  have hw : 1 < 2 ^ w := Nat.lt_of_le_of_lt h a.isLt
  have hone : (1 : BitVec w).toNat = 1 := by
    rw [show (1 : BitVec w) = 1#w from rfl, BitVec.toNat_ofNat, Nat.mod_eq_of_lt hw]
  have hle : (1 : BitVec w) ≤ a := by
    rw [BitVec.le_def, hone]
    exact h
  rw [BitVec.toNat_sub_of_le hle, hone]

theorem PageSize.toNat_bytes_sub_one (pg : PageSize w) : (pg.bytes - 1).toNat = 2 ^ pg.bits - 1 := by
  rw [toNat_sub_one, pg.toNat_bytes]
  rw [pg.toNat_bytes]
  exact Nat.two_pow_pos _

theorem toNat_offset (pg : PageSize w) (a : BitVec w) :
    (offset pg.bytes a).toNat = a.toNat % 2 ^ pg.bits := by
  rw [offset, BitVec.toNat_and, pg.toNat_bytes_sub_one, Nat.and_two_pow_sub_one_eq_mod]

theorem aligned_iff (pg : PageSize w) (a : BitVec w) : Aligned pg a ↔ 2 ^ pg.bits ∣ a.toNat := by
  rw [Aligned, ← BitVec.toNat_inj, toNat_offset, Nat.dvd_iff_mod_eq_zero]
  rfl

theorem page_dvd (pg : PageSize w) : 2 ^ pg.bits ∣ 2 ^ w := pow_dvd_pow 2 pg.bits_lt.le

section Moves

variable {pg : PageSize w} {a b : BitVec w}

theorem offset_add (hb : Aligned pg b) (a : BitVec w) : offset pg.bytes (b + a) = offset pg.bytes a := by
  obtain ⟨c, hc⟩ := (aligned_iff pg b).mp hb
  rw [← BitVec.toNat_inj, toNat_offset, toNat_offset, BitVec.toNat_add,
    Nat.mod_mod_of_dvd _ (page_dvd pg), hc, Nat.mul_add_mod]

/-- Rounding commutes with moves by whole pages. -/
theorem floor_add (hb : Aligned pg b) (a : BitVec w) :
    floor pg.bytes (b + a) = b + floor pg.bytes a := by
  rw [floor_eq_sub, floor_eq_sub, offset_add hb, add_sub_assoc]

theorem ceil_add (hb : Aligned pg b) (a : BitVec w) : ceil pg.bytes (b + a) = b + ceil pg.bytes a := by
  rw [ceil, ceil, ← floor_add hb, add_assoc, add_sub_assoc]

theorem aligned_floor (pg : PageSize w) (a : BitVec w) : Aligned pg (floor pg.bytes a) := by
  ext i hi
  simp only [offset, floor, BitVec.getElem_and, BitVec.getElem_not]
  cases (pg.bytes - 1)[i] <;> simp

theorem Aligned.sub (ha : Aligned pg a) (hb : Aligned pg b) : Aligned pg (a - b) := by
  have hmove := offset_add hb (a - b)
  rw [add_sub_cancel, ha] at hmove
  exact hmove.symm

/-- The unit need not be a power of two. -/
theorem aligned_ceil (ha : Aligned pg a) (size : BitVec w) : Aligned pg (ceil size a) := by
  have hlow : offset pg.bytes (a + (size - 1)) = offset pg.bytes (size - 1) := offset_add ha _
  have hbits := congrArg (· &&& ~~~(size - 1)) hlow
  rw [Aligned, ceil, floor, add_sub_assoc]
  ext i hi
  have hbit := congrArg (fun v : BitVec w => v[i]) hbits
  simp only [offset, BitVec.getElem_and, BitVec.getElem_not] at hbit ⊢
  revert hbit
  cases (size - 1)[i] <;> simp

end Moves

theorem ceil_sub_lt {size : BitVec w} (hsize : 0 < size.toNat) (a : BitVec w) :
    (ceil size a - a).toNat < size.toNat := by
  have hsub : ceil size a - a = (size - 1) - offset size (a + (size - 1)) := by
    rw [ceil, floor_eq_sub, add_sub_assoc]
    ring
  rw [hsub, BitVec.toNat_sub_of_le (offset_le _ _), toNat_sub_one hsize]
  exact Nat.lt_of_le_of_lt (Nat.sub_le _ _) (Nat.sub_lt hsize Nat.one_pos)

section Order

variable {pg : PageSize w} {a b : BitVec w}

theorem toNat_floor (pg : PageSize w) (a : BitVec w) :
    (floor pg.bytes a).toNat = a.toNat / 2 ^ pg.bits * 2 ^ pg.bits := by
  have hle : offset pg.bytes a ≤ a := by
    rw [BitVec.le_def, toNat_offset]
    exact Nat.mod_le _ _
  rw [floor_eq_sub, BitVec.toNat_sub_of_le hle, toNat_offset, Nat.mul_comm]
  exact Nat.sub_eq_of_eq_add' (Nat.mod_add_div _ _).symm

theorem floor_le (pg : PageSize w) (a : BitVec w) : floor pg.bytes a ≤ a := by
  rw [BitVec.le_def, toNat_floor]
  exact Nat.div_mul_le_self _ _

theorem floor_mono (h : a ≤ b) : floor pg.bytes a ≤ floor pg.bytes b := by
  rw [BitVec.le_def, toNat_floor, toNat_floor]
  exact Nat.mul_le_mul_right _ (Nat.div_le_div_right h)

theorem floor_le_floor (h : floor pg.bytes a ≤ b) : floor pg.bytes a ≤ floor pg.bytes b := by
  rw [BitVec.le_def, toNat_floor] at h ⊢
  rw [toNat_floor]
  exact Nat.mul_le_mul_right _ ((Nat.le_div_iff_mul_le (Nat.two_pow_pos _)).mpr h)

/-- `a` is not on the last page. -/
def Room (pg : PageSize w) (a : BitVec w) : Prop := a.toNat + 2 ^ pg.bits ≤ 2 ^ w

theorem toNat_add_page (h : Room pg a) : (a + pg.bytes - 1).toNat = a.toNat + (2 ^ pg.bits - 1) := by
  have hpos := Nat.two_pow_pos pg.bits
  rw [add_sub_assoc, BitVec.toNat_add_of_lt, pg.toNat_bytes_sub_one]
  rw [pg.toNat_bytes_sub_one]
  exact Nat.lt_of_lt_of_le (Nat.add_lt_add_left (Nat.sub_lt hpos Nat.one_pos) _) h

theorem toNat_ceil (h : Room pg a) :
    (ceil pg.bytes a).toNat = (a.toNat + (2 ^ pg.bits - 1)) / 2 ^ pg.bits * 2 ^ pg.bits := by
  rw [ceil, toNat_floor, toNat_add_page h]

theorem le_ceil (h : Room pg a) : a ≤ ceil pg.bytes a := by
  rw [BitVec.le_def, toNat_ceil h]
  have hmod := Nat.mod_add_div (a.toNat + (2 ^ pg.bits - 1)) (2 ^ pg.bits)
  have hlt := Nat.mod_lt (a.toNat + (2 ^ pg.bits - 1)) (Nat.two_pow_pos pg.bits)
  rw [Nat.mul_comm] at hmod
  omega

theorem ceil_lt (h : Room pg a) : (ceil pg.bytes a).toNat < a.toNat + 2 ^ pg.bits := by
  have hpos := Nat.two_pow_pos pg.bits
  have hle := Nat.div_mul_le_self (a.toNat + (2 ^ pg.bits - 1)) (2 ^ pg.bits)
  rw [toNat_ceil h]
  omega

theorem ceil_mono (h : a ≤ b) (hb : Room pg b) : ceil pg.bytes a ≤ ceil pg.bytes b := by
  have ha : Room pg a := Nat.le_trans (Nat.add_le_add_right h _) hb
  rw [BitVec.le_def, toNat_ceil ha, toNat_ceil hb]
  exact Nat.mul_le_mul_right _ (Nat.div_le_div_right (Nat.add_le_add_right h _))

/-- Nothing is rounded up past a boundary that it does not pass itself. -/
theorem ceil_le (ha : Room pg a) (hb : Aligned pg b) (h : a ≤ b) : ceil pg.bytes a ≤ b := by
  obtain ⟨c, hc⟩ := (aligned_iff pg b).mp hb
  have hle : a.toNat ≤ 2 ^ pg.bits * c := hc ▸ h
  rw [BitVec.le_def, toNat_ceil ha, hc, Nat.mul_comm (2 ^ pg.bits) c]
  refine Nat.mul_le_mul_right _ (Nat.lt_succ_iff.mp ((Nat.div_lt_iff_lt_mul (Nat.two_pow_pos _)).mpr ?_))
  rw [Nat.succ_mul, Nat.mul_comm c]
  have hpos := Nat.two_pow_pos pg.bits
  omega

theorem floor_lt_iff (ha : Room pg a) : floor pg.bytes b < a ↔ b < ceil pg.bytes a := by
  rw [← BitVec.not_le, ← BitVec.not_le, not_iff_not]
  exact ⟨fun h => BitVec.le_trans (ceil_le ha (aligned_floor pg b) h) (floor_le pg b),
    fun h => BitVec.le_trans (le_ceil ha) (floor_le_floor h)⟩

theorem toNat_add_ofNat {i : Nat} (h : a.toNat + i < 2 ^ w) : (a + BitVec.ofNat w i).toNat = a.toNat + i := by
  have hofNat : (BitVec.ofNat w i).toNat = i := by
    rw [BitVec.toNat_ofNat, Nat.mod_eq_of_lt (Nat.lt_of_le_of_lt (Nat.le_add_left _ _) h)]
  rw [BitVec.toNat_add_of_lt (by rwa [hofNat]), hofNat]

end Order

/-! ## Congruences -/

section Congruences

variable {n : Nat}

theorem dvd_toNat_sub_iff (hn : n ∣ 2 ^ w) {a : BitVec w} (ha : n ∣ a.toNat) (b : BitVec w) :
    n ∣ (a - b).toNat ↔ n ∣ b.toNat := by
  have hsum : ((a - b).toNat + b.toNat) % 2 ^ w = a.toNat := by
    rw [← BitVec.toNat_add, sub_add_cancel]
  have hdvd : n ∣ (a - b).toNat + b.toNat := (Nat.dvd_mod_iff hn).mp (hsum ▸ ha)
  exact ⟨fun h => (Nat.dvd_add_right h).mp hdvd, fun h => (Nat.dvd_add_left h).mp hdvd⟩

/-- A move keeps the addresses modulo `n` exactly when it is by a multiple of `n`. -/
theorem add_modEq_iff (hn : n ∣ 2 ^ w) (b a : BitVec w) :
    (b + a).toNat ≡ a.toNat [MOD n] ↔ n ∣ b.toNat := by
  rw [BitVec.toNat_add, Nat.ModEq, Nat.mod_mod_of_dvd _ hn, ← Nat.modEq_zero_iff_dvd]
  constructor
  · intro h
    exact Nat.ModEq.add_right_cancel' a.toNat (h.trans (by rw [Nat.zero_add]))
  · intro h
    have hmove := Nat.ModEq.add_right a.toNat h
    rwa [Nat.zero_add] at hmove

/-- Whatever is rounded up to a power of two is a multiple of it. -/
theorem two_pow_dvd_ceil {k : Nat} (hk : k < w) (a : BitVec w) :
    2 ^ k ∣ (ceil (BitVec.twoPow w k) a).toNat := by
  rcases Nat.eq_zero_or_pos k with rfl | hpos
  · exact one_dvd _
  · exact (aligned_iff ⟨k, hpos, hk⟩ _).mp (aligned_floor ⟨k, hpos, hk⟩ _)

end Congruences

/-! ## Arcs -/

/-- The addresses from `start` on, `len` of them. -/
structure Arc (w : Nat) where
  start : BitVec w
  len : BitVec w
deriving DecidableEq

def Arc.Has (r : Arc w) (x : BitVec w) : Prop := x - r.start < r.len

instance (r : Arc w) (x : BitVec w) : Decidable (r.Has x) := inferInstanceAs (Decidable (_ < _))

def Arc.shift (b : BitVec w) (r : Arc w) : Arc w := ⟨b + r.start, r.len⟩

theorem Arc.shift_has (b : BitVec w) (r : Arc w) (x : BitVec w) :
    (r.shift b).Has (b + x) ↔ r.Has x := by
  rw [Arc.Has, Arc.Has, Arc.shift, add_sub_add_left_eq_sub]

theorem Arc.has_sub_iff {a b : BitVec w} (h : a ≤ b) (x : BitVec w) :
    (⟨a, b - a⟩ : Arc w).Has x ↔ a ≤ x ∧ x < b := by
  rw [Arc.Has, BitVec.lt_def, BitVec.toNat_sub_of_le h]
  rcases Nat.lt_or_ge x.toNat a.toNat with hxa | hax
  · -- from `a` on, `x` comes after the end of the address space
    have hb := b.isLt
    refine iff_of_false (Nat.not_lt.mpr ?_) fun hle => Nat.not_le.mpr hxa hle.1
    rw [BitVec.toNat_sub_of_lt hxa]
    omega
  · rw [BitVec.toNat_sub_of_le hax, and_iff_right (show a ≤ x from hax)]
    exact Nat.sub_lt_sub_iff_right hax

/-! ## Layers -/

section Layers

variable {α β γ : Type}

/-- The layers are laid over `m` one after the other; each gives some places a value. -/
def layers (supply : α → β → Option γ) (l : List α) (m : β → γ) : β → γ :=
  l.foldl (fun m a x => (supply a x).getD (m x)) m

theorem layers_eq (supply : α → β → Option γ) (l : List α) (m : β → γ) (x : β) :
    layers supply l m x = (l.reverse.findSome? (supply · x)).getD (m x) := by
  induction l generalizing m with
  | nil => rfl
  | cons a l ih =>
    rw [show layers supply (a :: l) m = layers supply l fun x => (supply a x).getD (m x) from rfl, ih,
      reverse_cons, findSome?_append]
    cases l.reverse.findSome? (supply · x) <;> simp

variable {supply : α → β → Option γ} {m : β → γ} {x : β} {v : γ}

/-- A layer after which all that reach the place give it the same value. -/
theorem layers_split {pre post : List α} {a : α} (ha : supply a x = some v)
    (hpost : ∀ c ∈ post, supply c x = none ∨ supply c x = some v) :
    layers supply (pre ++ a :: post) m x = v := by
  rw [layers, foldl_append, foldl_cons]
  refine List.foldlRecOn (motive := fun m : β → γ => m x = v) post _ (by rw [ha, Option.getD_some])
    fun m hm c hc => ?_
  rcases hpost c hc with h | h <;> rw [h]
  · exact hm
  · rfl

theorem split_last {l : List α} {P : α → Prop} (h : ∃ a ∈ l, P a) :
    ∃ pre a post, l = pre ++ a :: post ∧ P a ∧ ∀ c ∈ post, ¬ P c := by
  induction l with
  | nil =>
    obtain ⟨a, ha, -⟩ := h
    cases ha
  | cons b l ih =>
    by_cases hrest : ∃ a ∈ l, P a
    · obtain ⟨pre, a, post, rfl, ha, hpost⟩ := ih hrest
      exact ⟨b :: pre, a, post, rfl, ha, hpost⟩
    · obtain ⟨a, ha, hP⟩ := h
      have hb : P b := (mem_cons.mp ha).elim (fun heq => heq ▸ hP) fun ha => absurd ⟨a, ha, hP⟩ hrest
      exact ⟨[], b, l, rfl, hb, fun c hc hP => hrest ⟨c, hc, hP⟩⟩

end Layers

end Pages
