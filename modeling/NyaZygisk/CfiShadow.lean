import Mathlib

/-!
# Marking the CFI shadow

bionic keeps two bytes for each 256 KiB of the address space. `CfiMarkUncheckedRange` of `cfi.cpp`
turns the invalid ones among those of a range into unchecked ones, if all of them lie in the
shadow. The addresses of the slots are computed in wrapping arithmetic, and the slots that change
are counted in an `int`.
-/

namespace NyaZygisk.CfiShadow

open List

/-! ## Memory -/

abbrev Memory : Type := Nat → BitVec 8

/-- A `uint16_t` in memory. -/
def load16 (mem : Memory) (p : Nat) : BitVec 16 := mem (p + 1) ++ mem p

def store16 (mem : Memory) (p : Nat) (v : BitVec 16) : Memory := fun a =>
  if a = p then v.extractLsb' 0 8 else if a = p + 1 then v.extractLsb' 8 8 else mem a

/-! ## `cfi.cpp` -/

def kCfiShadowGranularity : Nat := 18

def kCfiInvalidShadow : BitVec 16 := 0

def kCfiUncheckedShadow : BitVec 16 := 1

def cfiShadowByteOffset (addr : BitVec 64) : BitVec 64 := (addr >>> kCfiShadowGranularity) <<< 1

/-- The shadow, and `changed`, which is an `int`. -/
structure Marking where
  mem : Memory
  changed : Int

def markSlot (m : Marking) (p : Nat) : Marking :=
  if load16 m.mem p = kCfiInvalidShadow then
    ⟨store16 m.mem p kCfiUncheckedShadow, Int.bmod (m.changed + 1) (2 ^ 32)⟩
  else m

def markLoop (dstEnd : BitVec 64) : (fuel : Nat) → (p : BitVec 64) → Marking → Option Marking
  | 0, _, _ => none
  | fuel + 1, p, m => if p < dstEnd then markLoop dstEnd fuel (p + 2) (markSlot m p.toNat) else some m

def cfiMarkUncheckedRange (shadowStart shadowEnd base size : BitVec 64) (mem : Memory) : Option Marking :=
  if size = 0 then some ⟨mem, 0⟩
  else
    let last := base + size - 1
    let dst := shadowStart + cfiShadowByteOffset base
    let dstEnd := shadowStart + cfiShadowByteOffset last + 2
    if dst < shadowStart ∨ dstEnd > shadowEnd ∨ dstEnd ≤ dst then some ⟨mem, 0⟩
    else markLoop dstEnd (dstEnd.toNat - dst.toNat + 1) dst ⟨mem, 0⟩

/-! ## Granules and slots -/

section

variable (shadowStart shadowEnd base size : BitVec 64) (mem : Memory)

/-- Some address of the range lies in the granule. -/
def Meets (g : Nat) :
    Prop := ∃ a, base.toNat ≤ a ∧ a < base.toNat + size.toNat ∧ a / 2 ^ kCfiShadowGranularity = g

/-- Where the slot of a granule is, or would be. -/
def slot (g : Nat) : Nat := shadowStart.toNat + 2 * g

/-- A slot of the range does not lie in the shadow, or not in the address space. -/
def Outside : Prop :=
  ∃ g, Meets base size g ∧ (shadowEnd.toNat < slot shadowStart g + 2 ∨ 2 ^ 64 < slot shadowStart g + 2)

/-- The granules whose slots are to be changed. -/
def toMark : Set Nat := {g | Meets base size g ∧ load16 mem (slot shadowStart g) = kCfiInvalidShadow}

/-- These slots, and no other byte, are changed. -/
structure Marks (mem' : Memory) : Prop where
  marked : ∀ g ∈ toMark shadowStart base size mem, load16 mem' (slot shadowStart g) = kCfiUncheckedShadow
  kept : ∀ g ∉ toMark shadowStart base size mem, load16 mem' (slot shadowStart g) =
    load16 mem (slot shadowStart g)
  outside : ∀ a, (∀ g ∈ toMark shadowStart base size mem, a ≠ slot shadowStart g ∧
    a ≠ slot shadowStart g + 1) →
    mem' a = mem a

end

namespace CfiShadowLemmas

/-! ### Memory -/

theorem load16_store16_self (mem : Memory) (p : Nat) (v : BitVec 16) : load16 (store16 mem p v) p = v := by
  have hlow : store16 mem p v p = v.extractLsb' 0 8 := if_pos rfl
  have hhigh : store16 mem p v (p + 1) = v.extractLsb' 8 8 := by
    rw [store16, if_neg (Nat.succ_ne_self p), if_pos rfl]
  rw [load16, hlow, hhigh]
  exact BitVec.extractLsb'_append_extractLsb'_eq_extractLsb' rfl |>.trans (BitVec.extractLsb'_eq_self)

theorem store16_of_ne {mem : Memory} {p a : Nat} (h : a ≠ p ∧ a ≠ p + 1) (v : BitVec 16) :
    store16 mem p v a = mem a := by
  rw [store16, if_neg h.1, if_neg h.2]

theorem load16_store16_of_apart {mem : Memory} {p q : Nat} (h : p + 1 < q ∨ q + 1 < p) (v : BitVec 16) :
    load16 (store16 mem p v) q = load16 mem q := by
  rw [load16, store16_of_ne (by omega), store16_of_ne (by omega), load16]

theorem slot_apart (shadowStart : BitVec 64) {g g' : Nat} (h : g ≠ g') :
    slot shadowStart g + 1 < slot shadowStart g' ∨ slot shadowStart g' + 1 < slot shadowStart g := by
  unfold slot
  omega

/-! ### The loop -/

section

variable {shadowStart : BitVec 64}

theorem markLoop_eq {dstEnd : BitVec 64} {n fuel : Nat} (hfuel : n < fuel) {g : Nat} {p : BitVec 64}
    (hp : p.toNat = slot shadowStart g) (hend : dstEnd.toNat = slot shadowStart (g + n)) (m : Marking) :
    markLoop dstEnd fuel p m =
      some ((List.range' g n).foldl (fun m g => markSlot m (slot shadowStart g)) m) := by
  induction n generalizing fuel g p m with
  | zero =>
    obtain ⟨fuel, rfl⟩ := Nat.exists_eq_succ_of_ne_zero (Nat.ne_of_gt hfuel)
    rw [markLoop, if_neg]
    · rfl
    · rw [BitVec.lt_def, hp, hend, Nat.add_zero]
      exact Nat.lt_irrefl _
  | succ n ih =>
    obtain ⟨fuel, rfl⟩ := Nat.exists_eq_succ_of_ne_zero (Nat.ne_of_gt (Nat.zero_lt_of_lt hfuel))
    have hlt : p < dstEnd := by
      rw [BitVec.lt_def, hp, hend]
      unfold slot
      omega
    have hnext : (p + 2).toNat = slot shadowStart (g + 1) := by
      have hbound := dstEnd.isLt
      have htwo : (2 : BitVec 64).toNat = 2 := rfl
      rw [hend] at hbound
      rw [BitVec.toNat_add, htwo, hp]
      unfold slot at *
      rw [Nat.mod_eq_of_lt (by omega)]
      omega
    rw [markLoop, if_pos hlt, hp, range'_succ, foldl_cons]
    exact ih (Nat.lt_of_succ_lt_succ hfuel) hnext (by rw [hend, Nat.add_right_comm, Nat.add_assoc]) _

variable {granules : List Nat} {m : Marking}

theorem markSlot_of_invalid {p : Nat} (h : load16 m.mem p = kCfiInvalidShadow) :
    markSlot m p = ⟨store16 m.mem p kCfiUncheckedShadow, Int.bmod (m.changed + 1) (2 ^ 32)⟩ := if_pos h

theorem markSlot_of_valid {p : Nat} (h : load16 m.mem p ≠ kCfiInvalidShadow) : markSlot m p = m := if_neg h

theorem load16_markSlot {g g' : Nat} (h : g ≠ g') (m : Marking) :
    load16 (markSlot m (slot shadowStart g)).mem (slot shadowStart g') =
      load16 m.mem (slot shadowStart g') := by
  unfold markSlot
  split
  · exact load16_store16_of_apart (slot_apart shadowStart h) _
  · rfl

theorem markSlot_self (m : Marking) (p : Nat) :
    load16 (markSlot m p).mem p = if load16 m.mem p = kCfiInvalidShadow then kCfiUncheckedShadow
      else load16 m.mem p := by
  unfold markSlot
  split
  · exact load16_store16_self ..
  · rfl

theorem load16_foldl (hnodup : granules.Nodup) (m : Marking) (g : Nat) :
    load16 (granules.foldl (fun m g => markSlot m (slot shadowStart g)) m).mem (slot shadowStart g) =
      if g ∈ granules ∧ load16 m.mem (slot shadowStart g) = kCfiInvalidShadow then kCfiUncheckedShadow
      else load16 m.mem (slot shadowStart g) := by
  induction granules generalizing m with
  | nil => exact (if_neg fun h => not_mem_nil h.1).symm
  | cons g' granules ih =>
    obtain ⟨hnew, hnodup⟩ := nodup_cons.mp hnodup
    rw [foldl_cons, ih hnodup]
    by_cases hg : g' = g
    · subst hg
      rw [if_neg fun h => hnew h.1, markSlot_self]
      simp only [mem_cons_self, true_and]
    · simp only [load16_markSlot hg, mem_cons, Ne.symm hg, false_or]

theorem mem_foldl_of_ne (hnodup : granules.Nodup) {a : Nat}
    (ha : ∀ g ∈ granules, load16 m.mem (slot shadowStart g) = kCfiInvalidShadow →
      a ≠ slot shadowStart g ∧ a ≠ slot shadowStart g + 1) :
    (granules.foldl (fun m g => markSlot m (slot shadowStart g)) m).mem a = m.mem a := by
  induction granules generalizing m with
  | nil => rfl
  | cons g granules ih =>
    obtain ⟨hnew, hnodup⟩ := nodup_cons.mp hnodup
    rw [foldl_cons, ih hnodup]
    · unfold markSlot
      split
      · next hinvalid => exact store16_of_ne (ha g mem_cons_self hinvalid) _
      · rfl
    · intro g' hg' hinvalid
      have hne : g ≠ g' := fun h => hnew (h ▸ hg')
      exact ha g' (mem_cons_of_mem g hg') (load16_markSlot hne m ▸ hinvalid)

theorem changed_foldl (hnodup : granules.Nodup) {c : Int}
    (hc : m.changed = Int.bmod c (2 ^ 32)) :
    (granules.foldl (fun m g => markSlot m (slot shadowStart g)) m).changed =
      Int.bmod (c + granules.countP fun g => load16 m.mem (slot shadowStart g) = kCfiInvalidShadow)
        (2 ^ 32) := by
  induction granules generalizing m c with
  | nil => rw [foldl_nil, hc, countP_nil, Int.natCast_zero, Int.add_zero]
  | cons g granules ih =>
    obtain ⟨hnew, hnodup⟩ := nodup_cons.mp hnodup
    have hcount :
      granules.countP (fun g' =>
          load16 (markSlot m (slot shadowStart g)).mem (slot shadowStart g') = kCfiInvalidShadow) =
        granules.countP fun g' => load16 m.mem (slot shadowStart g') = kCfiInvalidShadow := by
      refine countP_congr fun g' hg' => ?_
      have hne : g ≠ g' := fun h => hnew (h ▸ hg')
      rw [load16_markSlot hne]
    rw [foldl_cons, countP_cons]
    by_cases hinvalid : load16 m.mem (slot shadowStart g) = kCfiInvalidShadow
    · have hstep : (markSlot m (slot shadowStart g)).changed = Int.bmod (c + 1) (2 ^ 32) := by
        rw [markSlot_of_invalid hinvalid, hc, Int.bmod_add_bmod]
      rw [ih hnodup hstep, hcount, if_pos (decide_eq_true hinvalid)]
      push_cast
      rw [Int.add_assoc, Int.add_comm 1]
    · rw [ih hnodup ((congrArg Marking.changed (markSlot_of_valid hinvalid)).trans hc), hcount,
        if_neg (mt of_decide_eq_true hinvalid), Nat.add_zero]

theorem foldl_of_valid
    (h : ∀ g ∈ granules, load16 m.mem (slot shadowStart g) ≠ kCfiInvalidShadow) :
    granules.foldl (fun m g => markSlot m (slot shadowStart g)) m = m := by
  induction granules with
  | nil => rfl
  | cons g granules ih =>
    rw [forall_mem_cons] at h
    rw [foldl_cons, markSlot_of_valid h.1, ih h.2]

end

/-! ### The range -/

section

variable {shadowStart shadowEnd base size : BitVec 64}

def granules (base size : BitVec 64) : List Nat :=
  List.range' (base.toNat / 2 ^ 18) ((base.toNat + size.toNat - 1) / 2 ^ 18 + 1 - base.toNat / 2 ^ 18)

theorem toNat_cfiShadowByteOffset (a : BitVec 64) :
    (cfiShadowByteOffset a).toNat = 2 * (a.toNat / 2 ^ 18) := by
  have ha := a.isLt
  rw [cfiShadowByteOffset, BitVec.toNat_shiftLeft, BitVec.toNat_ushiftRight, Nat.shiftRight_eq_div_pow,
    Nat.shiftLeft_eq, kCfiShadowGranularity]
  omega

theorem size_pos (hsize : size ≠ 0) : 0 < size.toNat :=
  Nat.pos_of_ne_zero fun h => hsize (BitVec.eq_of_toNat_eq h)

theorem mem_granules {g : Nat} (hsize : size ≠ 0) : g ∈ granules base size ↔ Meets base size g := by
  have hpos := size_pos hsize
  rw [granules, mem_range'_1, Meets, kCfiShadowGranularity]
  constructor
  · rintro ⟨hle, hlt⟩
    refine ⟨max base.toNat (g * 2 ^ 18), ?_⟩
    omega
  · rintro ⟨a, hle, hlt, rfl⟩
    omega

theorem nodup_granules (base size : BitVec 64) : (granules base size).Nodup := nodup_range'

section

variable (hsize : size ≠ 0) (hwrap : base.toNat + size.toNat ≤ 2 ^ 64)

include hsize hwrap in
theorem toNat_last : (base + size - 1).toNat = base.toNat + size.toNat - 1 := by
  have hpos := size_pos hsize
  bv_omega

include hsize in
theorem outside_iff :
    Outside shadowStart shadowEnd base size ↔
      shadowEnd.toNat < slot shadowStart ((base.toNat + size.toNat - 1) / 2 ^ 18) + 2 := by
  have hpos := size_pos hsize
  have hend := shadowEnd.isLt
  unfold Outside slot
  constructor
  · rintro ⟨g, ⟨a, -, hlt, rfl⟩, hout⟩
    have hle : a / 2 ^ kCfiShadowGranularity ≤ (base.toNat + size.toNat - 1) / 2 ^ 18 :=
      Nat.div_le_div_right (Nat.le_sub_one_of_lt hlt)
    omega
  · intro hout
    exact ⟨_, ⟨base.toNat + size.toNat - 1, by omega, by omega, rfl⟩, .inl hout⟩

include hsize hwrap in
/-- The one check of the code, in wrapping arithmetic, is that the last slot ends in the shadow. -/
theorem check_iff :
    (shadowStart + cfiShadowByteOffset base < shadowStart ∨
      shadowStart + cfiShadowByteOffset (base + size - 1) + 2 > shadowEnd ∨
      shadowStart + cfiShadowByteOffset (base + size - 1) + 2 ≤ shadowStart + cfiShadowByteOffset base) ↔
    Outside shadowStart shadowEnd base size := by
  have hpos := size_pos hsize
  have hlast := toNat_last hsize hwrap
  have hlow := toNat_cfiShadowByteOffset base
  have hhigh := toNat_cfiShadowByteOffset (base + size - 1)
  have hle : base.toNat / 2 ^ 18 ≤ (base.toNat + size.toNat - 1) / 2 ^ 18 := Nat.div_le_div_right (by omega)
  have hlt : (base.toNat + size.toNat - 1) / 2 ^ 18 < 2 ^ 46 := Nat.div_lt_of_lt_mul (by omega)
  have hstart := shadowStart.isLt
  have hend := shadowEnd.isLt
  have htwo : (2 : BitVec 64).toNat = 2 := rfl
  rw [outside_iff hsize, slot, gt_iff_lt, BitVec.lt_def, BitVec.lt_def, BitVec.le_def]
  simp only [BitVec.toNat_add, htwo, hlow, hhigh, hlast]
  generalize base.toNat / 2 ^ 18 = low at *
  generalize (base.toNat + size.toNat - 1) / 2 ^ 18 = high at *
  omega

include hsize hwrap in
/-- A call whose slots lie in the shadow marks them one after the other. -/
theorem cfiMarkUncheckedRange_eq (hinside : ¬ Outside shadowStart shadowEnd base size) (mem : Memory) :
    cfiMarkUncheckedRange shadowStart shadowEnd base size mem =
      some ((granules base size).foldl (fun m g => markSlot m (slot shadowStart g)) ⟨mem, 0⟩) := by
  have hpos := size_pos hsize
  have hlast := toNat_last hsize hwrap
  have hle : base.toNat / 2 ^ 18 ≤ (base.toNat + size.toNat - 1) / 2 ^ 18 := Nat.div_le_div_right (by omega)
  have hend := shadowEnd.isLt
  have htwo : (2 : BitVec 64).toNat = 2 := rfl
  have hroom := mt (outside_iff hsize).mpr hinside
  have hdst : (shadowStart + cfiShadowByteOffset base).toNat = slot shadowStart (base.toNat / 2 ^ 18) := by
    unfold slot at *
    rw [BitVec.toNat_add, toNat_cfiShadowByteOffset, Nat.mod_eq_of_lt (by omega)]
  have hdstEnd : (shadowStart + cfiShadowByteOffset (base + size - 1) + 2).toNat =
      slot shadowStart ((base.toNat + size.toNat - 1) / 2 ^ 18 + 1) := by
    unfold slot at *
    rw [BitVec.toNat_add, BitVec.toNat_add, toNat_cfiShadowByteOffset, hlast, htwo, Nat.mod_add_mod,
      Nat.mod_eq_of_lt (by omega)]
    omega
  unfold cfiMarkUncheckedRange
  rw [if_neg hsize]
  dsimp only
  rw [if_neg (mt (check_iff hsize hwrap).mp hinside)]
  refine markLoop_eq ?_ hdst ?_ _
  · rw [hdst, hdstEnd]
    unfold slot
    omega
  · rw [hdstEnd, Nat.add_sub_cancel' (Nat.le_succ_of_le hle)]

include hsize in
theorem mem_toMark {mem : Memory} {g : Nat} :
    g ∈ toMark shadowStart base size mem ↔
      g ∈ granules base size ∧ load16 mem (slot shadowStart g) = kCfiInvalidShadow := by
  rw [mem_granules hsize]
  rfl

include hsize in
theorem ncard_toMark (mem : Memory) :
    (toMark shadowStart base size mem).ncard =
      (granules base size).countP fun g => load16 mem (slot shadowStart g) = kCfiInvalidShadow := by
  have hset : toMark shadowStart base size mem =
      ((granules base size).filter fun g => load16 mem (slot shadowStart g) =
        kCfiInvalidShadow).toFinset := by
    ext g
    rw [mem_toMark hsize, Finset.mem_coe, mem_toFinset, mem_filter, decide_eq_true_iff]
  rw [hset, Set.ncard_coe_finset, toFinset_card_of_nodup ((nodup_granules base size).filter _),
    countP_eq_length_filter]

include hsize hwrap in
/-- What a call whose slots lie in the shadow changes, what it counts, and what a second one does. -/
theorem cfiMarkUncheckedRange_inside (hinside : ¬ Outside shadowStart shadowEnd base size) (mem : Memory) :
    ∃ m, cfiMarkUncheckedRange shadowStart shadowEnd base size mem = some m ∧
      Marks shadowStart base size mem m.mem ∧
      m.changed = Int.bmod (toMark shadowStart base size mem).ncard (2 ^ 32) ∧
      cfiMarkUncheckedRange shadowStart shadowEnd base size m.mem = some ⟨m.mem, 0⟩ := by
  have hnodup := nodup_granules base size
  refine ⟨_, cfiMarkUncheckedRange_eq hsize hwrap hinside mem, ⟨fun g hg => ?_, fun g hg =>
    ?_, fun a ha => ?_⟩, ?_, ?_⟩
  · rw [load16_foldl hnodup, if_pos ((mem_toMark hsize).mp hg)]
  · rw [load16_foldl hnodup, if_neg (mt (mem_toMark hsize).mpr hg)]
  · exact mem_foldl_of_ne hnodup fun g hg hinvalid => ha g ((mem_toMark hsize).mpr ⟨hg, hinvalid⟩)
  · rw [changed_foldl hnodup (c := 0) rfl, ncard_toMark hsize, Int.zero_add]
  · rw [cfiMarkUncheckedRange_eq hsize hwrap hinside, foldl_of_valid]
    intro g hg hinvalid
    rw [load16_foldl hnodup] at hinvalid
    split at hinvalid
    · exact absurd hinvalid (by decide)
    · next hvalid => exact hvalid ⟨hg, hinvalid⟩

end

end

end CfiShadowLemmas

open CfiShadowLemmas

/-- A call either changes nothing and returns 0, exactly if the size is zero or a slot of the range
lies outside the shadow, or marks the invalid slots of the range and no other byte; it returns their
number if that is less than 2^31, and repeating it changes nothing. -/
theorem mark_exact (shadowStart shadowEnd base size : BitVec 64) (mem : Memory)
    (hwrap : base.toNat + size.toNat ≤ 2 ^ 64) :
    ∃ m, cfiMarkUncheckedRange shadowStart shadowEnd base size mem = some m ∧
      (size = 0 ∨ Outside shadowStart shadowEnd base size → m = ⟨mem, 0⟩) ∧
      (¬ (size = 0 ∨ Outside shadowStart shadowEnd base size) →
        Marks shadowStart base size mem m.mem ∧
        ((toMark shadowStart base size mem).ncard < 2 ^ 31 → m.changed =
          (toMark shadowStart base size mem).ncard) ∧
        cfiMarkUncheckedRange shadowStart shadowEnd base size m.mem = some ⟨m.mem, 0⟩) := by
  by_cases hzero : size = 0
  · exact ⟨⟨mem, 0⟩, if_pos hzero, fun _ => rfl, fun h => absurd (.inl hzero) h⟩
  · by_cases hout : Outside shadowStart shadowEnd base size
    · refine ⟨⟨mem, 0⟩, ?_, fun _ => rfl, fun h => absurd (.inr hout) h⟩
      rw [cfiMarkUncheckedRange, if_neg hzero]
      exact if_pos ((check_iff hzero hwrap).mpr hout)
    · obtain ⟨m, hm, hmarks, hchanged, hagain⟩ := cfiMarkUncheckedRange_inside hzero hwrap hout mem
      refine ⟨m, hm, fun h => absurd h (not_or.mpr ⟨hzero, hout⟩), fun _ =>
        ⟨hmarks, fun hcount => ?_, hagain⟩⟩
      rw [hchanged, Int.bmod_eq_of_le (by omega) (by omega)]

/-- A shadow of eight slots in which a library has the granule 2. -/
def eightSlots : Memory := fun a => if a = 0x1004 then 7 else 0

theorem mark_exact_shared :
    ∃ m, cfiMarkUncheckedRange 0x1000 0x1010 0x40000 0x80000 eightSlots = some m ∧
      ((0x80000 : BitVec 64) = 0 ∨ Outside 0x1000 0x1010 0x40000 0x80000 → m = ⟨eightSlots, 0⟩) ∧
      (¬ ((0x80000 : BitVec 64) = 0 ∨ Outside 0x1000 0x1010 0x40000 0x80000) →
        Marks 0x1000 0x40000 0x80000 eightSlots m.mem ∧
        ((toMark 0x1000 0x40000 0x80000 eightSlots).ncard < 2 ^ 31 →
          m.changed = (toMark 0x1000 0x40000 0x80000 eightSlots).ncard) ∧
        cfiMarkUncheckedRange 0x1000 0x1010 0x40000 0x80000 m.mem = some ⟨m.mem, 0⟩) :=
  mark_exact 0x1000 0x1010 0x40000 0x80000 eightSlots (by decide)

example : (cfiMarkUncheckedRange 0x1000 0x1010 0x40000 0x80000 eightSlots).map Marking.changed = some 1 := by
  decide +kernel

/-- The slots of a range of 2^49 bytes, all invalid, are 2^31: no `int` is their number. -/
theorem count_wraps :
    ∃ m, cfiMarkUncheckedRange 0 0x100000000 0 0x2000000000000 (fun _ => 0) = some m ∧
      m.changed ≠ (toMark 0 0 0x2000000000000 fun _ => 0).ncard := by
  have hsize : (0x2000000000000 : BitVec 64) ≠ 0 := by decide
  have hinside : ¬ Outside 0 0x100000000 0 0x2000000000000 := mt (outside_iff hsize).mp (by decide)
  have hcount : (toMark 0 0 0x2000000000000 fun _ => 0).ncard = 2 ^ 31 := by
    have hzero : (0 : BitVec 8) ++ (0 : BitVec 8) = kCfiInvalidShadow := by decide
    have hinvalid :
      ∀ g ∈ granules 0 0x2000000000000, decide (load16 (fun _ => 0) (slot 0 g) = kCfiInvalidShadow) = true :=
      fun _ _ => decide_eq_true hzero
    rw [ncard_toMark hsize, countP_eq_length.mpr hinvalid, granules, length_range']
    decide
  obtain ⟨m, hm, -, hchanged, -⟩ := cfiMarkUncheckedRange_inside hsize (by decide) hinside fun _ => 0
  refine ⟨m, hm, ?_⟩
  rw [hchanged, hcount]
  decide

end NyaZygisk.CfiShadow
