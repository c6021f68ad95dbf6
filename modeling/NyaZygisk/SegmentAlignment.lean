import NyaZygisk.Mapping

/-!
# The alignment of the segments

`MapSegments` aligns the start of the mapping to the largest `p_align`, but the start is the
place of the lowest page of the segments, whatever that is modulo the alignment.
-/

namespace NyaZygisk

open Pages MappingLemmas

variable {w : Nat}

def Phdr.PowerAligned (ph : Phdr w) : Prop := ∃ k, ph.align.toNat = 2 ^ k

/-- The segment lies where it should, modulo its alignment. -/
def Phdr.Honoured (bias : BitVec w) (ph : Phdr w) : Prop :=
  (bias + ph.vaddr).toNat ≡ ph.vaddr.toNat [MOD ph.align.toNat]

instance (bias : BitVec w) (ph : Phdr w) : Decidable (ph.Honoured bias) :=
  inferInstanceAs (Decidable (_ ≡ _ [MOD _]))

namespace MappingLemmas

variable {pg : PageSize w} {phdrs : List (Phdr w)} {plan : Plan w}

theorem two_pow_lt_width {a : BitVec w} {k : Nat} (h : a.toNat = 2 ^ k) : k < w := by
  have hlt := a.isLt
  rw [h] at hlt
  exact (Nat.pow_lt_pow_iff_right Nat.one_lt_two).mp hlt

theorem align_dvd_space {ph : Phdr w} (h : ph.PowerAligned) : ph.align.toNat ∣ 2 ^ w := by
  obtain ⟨k, hk⟩ := h
  rw [hk]
  exact pow_dvd_pow 2 (two_pow_lt_width hk).le

/-- Of two powers of two, the mapping starts at a multiple of the larger, so of both. -/
theorem align_dvd_aligned (hplan : planSegments pg phdrs = some plan)
    (hpow : ∀ ph ∈ phdrs, ph.type = .load → ph.PowerAligned) (raw : BitVec w) {ph : Phdr w}
    (hph : ph ∈ phdrs) (hload : ph.type = .load) : ph.align.toNat ∣ (plan.aligned raw).toNat := by
  obtain ⟨t, rfl, -, hall, halign, -⟩ := planSegments_some hplan
  obtain ⟨m, hm⟩ : ∃ m, t.maxAlign.toNat = 2 ^ m := by
    rcases halign with heq | ⟨c, hc, heq⟩ <;> rw [heq]
    · exact ⟨pg.bits, pg.toNat_bytes⟩
    · exact hpow c (mem_loads.mp hc).1 (mem_loads.mp hc).2
  have hle : ph.align.toNat ≤ t.maxAlign.toNat := (hall ph (mem_loads.mpr ⟨hph, hload⟩)).align
  have hmax : t.maxAlign = BitVec.twoPow w m :=
    BitVec.eq_of_toNat_eq (hm.trans (BitVec.toNat_twoPow_of_lt (two_pow_lt_width hm)).symm)
  obtain ⟨k, hk⟩ := hpow ph hph hload
  rw [hk, hm] at hle
  rw [hk, Plan.aligned, hmax]
  exact (pow_dvd_pow 2 ((Nat.pow_le_pow_iff_right Nat.one_lt_two).mp hle)).trans
    (two_pow_dvd_ceil (two_pow_lt_width hm) raw)

end MappingLemmas

/-- After `MapSegments` has succeeded, every segment lies as its alignment asks for, if and only
if the lowest page of the segments is a multiple of all the alignments. -/
theorem segment_alignment_iff (sys : System w) (file : ElfFile)
    (hasBti : Space w → BitVec w → BitVec w → Bool) (ehdr : Ehdr w) (anonymous : Bool)
    {phdrs : List (Phdr w)} {plan : Plan w} {img : LinkerImage w} {p p' : Process w}
    (hpow : ∀ ph ∈ phdrs, ph.type = .load → ph.PowerAligned)
    (hplan : planSegments sys.page phdrs = some plan)
    (hmap : mapSegments sys file hasBti ehdr phdrs anonymous p = (some img, p')) :
    (∀ ph ∈ phdrs, ph.type = .load → ph.Honoured img.loadBias) ↔
      ∀ ph ∈ phdrs, ph.type = .load → ph.align.toNat ∣ plan.minVaddr.toNat := by
  obtain ⟨plan, raw, hplan', hraw⟩ := mapSegments_plan hmap
  cases hplan.symm.trans hplan'
  obtain ⟨-, -, -, hbias⟩ := mapSegments_some hplan hraw hmap
  refine forall_congr' fun ph => forall_congr' fun hph => forall_congr' fun hload => ?_
  have hspace := align_dvd_space (hpow ph hph hload)
  rw [Phdr.Honoured, hbias, add_modEq_iff hspace, Plan.loadBias]
  exact dvd_toNat_sub_iff hspace (align_dvd_aligned hplan hpow raw hph hload) _

/-- Two segments of 64 KiB alignment, the first of which begins there. -/
def wideTable : List (Phdr 64) :=
  [⟨.load, 5, 0, 0, 0x1800, 0x1800, 0x10000⟩, ⟨.load, 6, 0x2000, 0x12000, 0x300, 0x900, 0x10000⟩]

theorem segment_alignment_iff_wide :
    (∀ ph ∈ wideTable, ph.type = .load → ph.PowerAligned) ∧
      planSegments smallPages wideTable = some ⟨0x10000, 0, 0x13000⟩ ∧
      ∃ img p,
        mapSegments (fixedSystem smallPages (by decide)) ⟨0x2300, fun _ => 1⟩ (fun _ _ _ => false) ⟨64, 2⟩
          wideTable false ⟨emptySpace, []⟩ = (some img, p) ∧
        ∀ ph ∈ wideTable, ph.type = .load → ph.Honoured img.loadBias := by
  have hpow : ∀ ph ∈ wideTable, ph.type = .load → ph.PowerAligned := by
    intro ph hph _
    rcases List.mem_cons.mp hph with rfl | hph
    · exact ⟨16, by decide⟩
    · obtain rfl := List.mem_singleton.mp hph
      exact ⟨16, by decide⟩
  have hplan : planSegments smallPages wideTable = some ⟨0x10000, 0, 0x13000⟩ := rfl
  obtain ⟨-, img, p, hmap⟩ := openSystem_maps (show Aligned smallPages 0x7000000000 by decide)
    ⟨0x2300, fun _ => 1⟩ ⟨64, 2⟩ false emptySpace hplan nofun (by decide)
  have halign := segment_alignment_iff (fixedSystem smallPages (by decide)) ⟨0x2300, fun _ => 1⟩
    (fun _ _ _ => false) ⟨64, 2⟩ false hpow hplan hmap
  exact ⟨hpow, hplan, img, p, hmap, halign.mpr (by decide)⟩

/-- The same segments one page further on. -/
def shiftedTable : List (Phdr 64) :=
  [⟨.load, 5, 0x1000, 0x1000, 0x1800, 0x1800, 0x10000⟩,
    ⟨.load, 6, 0x3000, 0x13000, 0x300, 0x900, 0x10000⟩]

/-- They come to lie one page before where they should. -/
theorem shifted_segments_misaligned :
    ∃ img p,
      mapSegments (fixedSystem smallPages (by decide)) ⟨0x3300, fun _ => 1⟩ (fun _ _ _ => false) ⟨64, 2⟩
        shiftedTable false ⟨emptySpace, []⟩ = (some img, p) ∧
      img.loadBias = 0x6ffffff000 ∧
      ∀ ph ∈ shiftedTable, ¬ ph.Honoured img.loadBias :=
  ⟨_, _, rfl, rfl, by decide⟩

end NyaZygisk
