import NyaZygisk.Mapping

/-!
# The bytes of a mapped image

What `Image::MapSegments` leaves at the addresses of the segments, in its two modes. A
segment is laid over whole pages, so a later one may cover bytes of an earlier one.
-/

namespace NyaZygisk

open List MappingLemmas Pages

variable {w : Nat}

section Tables

variable (pg : PageSize w) (phdrs : List (Phdr w))

/-- The segment has the same place in its pages as in those of the file. -/
def Phdr.Congruent (ph : Phdr w) : Prop :=
  ph.vaddr.toNat % 2 ^ pg.bits = ph.offset.toNat % 2 ^ pg.bits

instance (ph : Phdr w) : Decidable (ph.Congruent pg) := inferInstanceAs (Decidable (_ = _))

end Tables

section Layout

variable (pg : PageSize w) (file : ElfFile)

/-- What a segment gives the address `u` of the file, if it reaches it. -/
def laidByte (anonymous : Bool) (ph : Phdr w) (u : BitVec w) : Option (Option (BitVec 8)) :=
  let fileEnd := ph.vaddr + ph.filesz
  if anonymous then
    if ph.vaddr ≤ u ∧ u < fileEnd then some (file.get? (ph.offset.toNat + (u - ph.vaddr).toNat)) else none
  else if pageEnd pg fileEnd ≤ u ∧ u < pageEnd pg (ph.vaddr + ph.memsz) then some (some 0)
  else if (0 < ph.filesz ∧ ph.filesz < ph.memsz) ∧ fileEnd ≤ u ∧ u < pageEnd pg fileEnd then some (some 0)
  else if 0 < ph.filesz ∧ pageStart pg ph.vaddr ≤ u ∧ u < pageEnd pg fileEnd then
    some (file.mapped pg ((pageStart pg ph.offset).toNat + (u - pageStart pg ph.vaddr).toNat))
  else none

end Layout

namespace SegmentsLemmas

/-! ## The calls of a segment -/

section Calls

variable {pg : PageSize w} {file : ElfFile} {bias : BitVec w}

theorem newByte_shift (kind : MapKind w) (r : Arc w) (u : BitVec w) :
    MapCall.newByte pg file ⟨kind, r.shift bias⟩ (bias + u) =
      if r.Has u then kind.newByte pg file (u - r.start).toNat else none := by
  simp only [MapCall.newByte, Arc.shift_has]
  rw [Arc.shift, add_sub_add_left_eq_sub]

theorem findSome_guard {α β : Type} (c : Prop) [Decidable c] (a : α) (f : α → Option β) :
    (if c then [a] else []).reverse.findSome? f = if c then f a else none := by
  split <;> simp

theorem ite_or {α : Type} (c : Prop) [Decidable c] (a : α) (o : Option α) :
    (if c then some a else none).or o = if c then some a else o := by
  split <;> rfl

variable {phdrs : List (Phdr w)} {plan : Plan w} {raw : BitVec w} {ph : Phdr w}

/-- The zeroes of a segment, by the addresses of the file. -/
theorem zeroes_iff (hroom : Roomy pg phdrs) (hplan : planSegments pg phdrs = some plan)
    (hraw : raw.toNat + plan.reserve.toNat ≤ 2 ^ w) (hph : ph ∈ loads phdrs)
    (hsize : ph.filesz.toNat ≤ ph.memsz.toNat) (u : BitVec w) :
    (MapsBss pg (plan.loadBias raw) ph ∧ (bssRange pg ph).Has u ↔
      pageEnd pg (ph.vaddr + ph.filesz) ≤ u ∧ u < pageEnd pg (ph.vaddr + ph.memsz)) ∧
    (ZeroesTail pg (plan.loadBias raw) ph ∧ (tailRange pg ph).Has u ↔
      (0 < ph.filesz ∧ ph.filesz < ph.memsz) ∧ ph.vaddr + ph.filesz ≤ u ∧
        u < pageEnd pg (ph.vaddr + ph.filesz)) := by
  obtain ⟨hmem, hroom₁, hfile, hroom₂⟩ := ends_of_roomy hroom hph
  have hsum : ph.vaddr + ph.filesz ≤ ph.vaddr + ph.memsz := by
    rw [BitVec.le_def, hmem, hfile]
    exact Nat.add_le_add_left hsize _
  have hends : pageEnd pg (ph.vaddr + ph.filesz) ≤ pageEnd pg (ph.vaddr + ph.memsz) := ceil_mono hsum hroom₁
  obtain ⟨hlow, hhigh⟩ := within_plan hroom hplan hph
  have hmax : pageEnd pg (ph.vaddr + ph.filesz) ≤ plan.maxVaddr := BitVec.le_trans hends hhigh
  have hmin := BitVec.le_trans hlow (pageStart_le_end hroom hph).2
  have hup : ph.vaddr + ph.filesz ≤ pageEnd pg (ph.vaddr + ph.filesz) := le_ceil hroom₂
  constructor
  · rw [bss_iff hroom hplan hraw hph hmax, bssRange, Arc.has_sub_iff hends, and_iff_right_iff_imp]
    exact fun h => Nat.lt_of_le_of_lt h.1 h.2
  · rw [ZeroesTail, tailRange, Arc.has_sub_iff hup, loadBias_lt_iff hroom hplan hraw hmin
      (BitVec.le_trans hup hmax) (BitVec.le_trans hmin hup) hmax]
    constructor
    · rintro ⟨⟨hpos, hlt, -⟩, hu⟩
      exact ⟨⟨hpos, hlt⟩, hu⟩
    · rintro ⟨⟨hpos, hlt⟩, hu⟩
      exact ⟨⟨hpos, hlt, Nat.lt_of_le_of_lt hu.1 hu.2⟩, hu⟩

/-- The last call for a segment that reaches an address tells what the segment gives it. -/
theorem segmentCalls_byte (hroom : Roomy pg phdrs) (hplan : planSegments pg phdrs = some plan)
    (haligned : Aligned pg raw) (hraw : raw.toNat + plan.reserve.toNat ≤ 2 ^ w) (anonymous : Bool)
    (hph : ph ∈ loads phdrs) (hsize : ph.filesz.toNat ≤ ph.memsz.toNat) (u : BitVec w) :
    (segmentCalls pg (plan.loadBias raw) anonymous ph).reverse.findSome?
        (MapCall.newByte pg file · (plan.loadBias raw + u)) =
      laidByte pg file anonymous ph u := by
  obtain ⟨-, hfile, -, hbytes⟩ := ranges_of_roomy hroom hph u
  obtain ⟨hbss, htail⟩ := zeroes_iff hroom hplan hraw hph hsize u
  rw [segmentCalls_eq (loadBias_aligned hplan haligned), laidByte]
  cases anonymous with
  | true =>
    have hread : ph.vaddr ≤ u ∧ u < ph.vaddr + ph.filesz → 0 < ph.filesz := fun h =>
      Nat.lt_of_le_of_lt (Nat.zero_le _) (hbytes.mpr h)
    simp only [if_true, reverse_cons, findSome?_append, findSome_guard, newByte_shift,
      MapKind.newByte, findSome?_singleton, ite_self, ← ite_and, Option.or_none,
      hbytes, and_iff_right_of_imp hread]
  | false =>
    simp only [Bool.false_eq_true, if_false, reverse_append, findSome?_append, findSome_guard,
      newByte_shift, MapKind.newByte, ← ite_and, ite_or, hbss]
    split
    · rfl
    · by_cases hpos : 0 < ph.filesz
      · simp only [hpos, if_true, reverse_cons, findSome?_append, findSome_guard, newByte_shift,
          MapKind.newByte, ← ite_and, ite_or, findSome?_singleton, true_and, htail, hfile]
        rfl
      · simp only [hpos, false_and, if_false, reverse_nil, findSome?_nil]

end Calls

/-! ## The calls of all segments -/

theorem findSome_flatMap {α β γ : Type} (f : α → List β) (g : β → Option γ) (l : List α) :
    (l.flatMap f).reverse.findSome? g = l.reverse.findSome? fun a => (f a).reverse.findSome? g := by
  induction l with
  | nil => rfl
  | cons a l ih =>
    rw [flatMap_cons, reverse_append, findSome?_append, ih, reverse_cons,
      findSome?_append, findSome?_singleton]

theorem findSome_congr {α β : Type} {f g : α → Option β} {l : List α} (h : ∀ a ∈ l, f a = g a) :
    l.findSome? f = l.findSome? g := by
  induction l with
  | nil => rfl
  | cons a l ih =>
    rw [findSome?_cons, findSome?_cons, h a mem_cons_self,
      ih fun b hb => h b (mem_cons_of_mem _ hb)]

section MapSegments

variable {sys : System w} {file : ElfFile} {hasBti : Space w → BitVec w → BitVec w → Bool} {ehdr : Ehdr w}
  {phdrs : List (Phdr w)} {anonymous : Bool} {plan : Plan w} {raw : BitVec w} {img : LinkerImage w}
  {p p' : Process w}

/-- The bytes of the mapped image, in the addresses of the file. -/
theorem mapSegments_byte (hroom : Roomy sys.page phdrs)
    (hsizes : ∀ ph ∈ loads phdrs, ph.filesz.toNat ≤ ph.memsz.toNat)
    (h : mapSegments sys file hasBti ehdr phdrs anonymous p = (some img, p')) {u : BitVec w}
    (hu : Between sys.page phdrs u) :
    p'.space.byte (img.loadBias + u) =
      layers (laidByte sys.page file anonymous) (loads phdrs) (fun _ => some 0) u := by
  obtain ⟨plan, raw, hplan, hraw⟩ := mapSegments_plan h
  obtain ⟨hrun, -, -, hbias⟩ := mapSegments_some hplan hraw h
  rw [(untilFailure_call hrun).1, hbias]
  simp only [Space.afterCalls, layers_eq, findSome_flatMap]
  rw [reserveSpan_byte (kept_of_between hroom hplan hu)]
  congr 1
  exact findSome_congr fun ph hph => segmentCalls_byte hroom hplan (sys.mmap_page hraw)
    (sys.mmap_room hraw) anonymous (mem_reverse.mp hph) (hsizes ph (mem_reverse.mp hph)) u

theorem between_byte {pg : PageSize w} (hroom : Roomy pg phdrs) {ph : Phdr w} (hph : ph ∈ loads phdrs)
    {i : Nat} (hi : i < ph.memsz.toNat) :
    (ph.vaddr + BitVec.ofNat w i).toNat = ph.vaddr.toNat + i ∧
      Between pg phdrs (ph.vaddr + BitVec.ofNat w i) := by
  have hend := hroom.1 ph hph
  have hpage := Nat.two_pow_pos pg.bits
  have hnat : (ph.vaddr + BitVec.ofNat w i).toNat = ph.vaddr.toNat + i := toNat_add_ofNat (by omega)
  obtain ⟨hmem, hroom₁, -⟩ := ends_of_roomy hroom hph
  have hup : ph.vaddr + ph.memsz ≤ pageEnd pg (ph.vaddr + ph.memsz) := le_ceil hroom₁
  refine ⟨hnat, ph, hph, ph, hph, BitVec.le_trans (floor_le pg _) ?_, Nat.lt_of_lt_of_le ?_ hup⟩
  · rw [BitVec.le_def, hnat]
    exact Nat.le_add_right _ _
  · rw [hnat, hmem]
    exact Nat.add_lt_add_left hi _

end MapSegments

/-! ## Pages and segments -/

section Agree

variable {pg : PageSize w} {phdrs : List (Phdr w)} {ph a c : Phdr w} {u : BitVec w}

/-- The places of the file's pages, where they agree with those of the segment. -/
theorem place_of_congruent (h : ph.Congruent pg)
    (hu : pageStart pg ph.vaddr ≤ u) :
    (pageStart pg ph.offset).toNat + (u - pageStart pg ph.vaddr).toNat + ph.vaddr.toNat =
      ph.offset.toNat + u.toNat := by
  have hfloor : ∀ a : BitVec w, (pageStart pg a).toNat + a.toNat % 2 ^ pg.bits = a.toNat := fun a => by
    rw [pageStart, toNat_floor]
    exact Nat.div_add_mod' _ _
  have hv := hfloor ph.vaddr
  have ho := hfloor ph.offset
  rw [Phdr.Congruent] at h
  have hle : (pageStart pg ph.vaddr).toNat ≤ u.toNat := hu
  rw [BitVec.toNat_sub_of_le hu]
  omega

theorem mapped_of_lt {file : ElfFile} {i : Nat} (h : i < file.size) : file.mapped pg i = some (file.byte i) :=
  if_pos h

/-- On the pages of its bytes in the file, a segment that is all in the file has these. -/
theorem laidByte_file (file : ElfFile) (hpos : 0 < ph.filesz.toNat)
    (hlow : pageStart pg ph.vaddr ≤ u) (hhigh : u < pageEnd pg (ph.vaddr + ph.filesz))
    (hin : u < ph.vaddr + ph.filesz ∨ ph.memsz.toNat ≤ ph.filesz.toNat) :
    laidByte pg file false ph u =
      some (file.mapped pg ((pageStart pg ph.offset).toNat + (u - pageStart pg ph.vaddr).toNat)) := by
  have htail : ¬ ((0 < ph.filesz ∧ ph.filesz < ph.memsz) ∧ ph.vaddr + ph.filesz ≤ u ∧
      u < pageEnd pg (ph.vaddr + ph.filesz)) := fun ⟨⟨_, hlt⟩, hle, _⟩ =>
    hin.elim (Nat.not_lt.mpr hle) (Nat.not_le.mpr hlt)
  simp only [laidByte, Bool.false_eq_true, if_false, BitVec.not_le.mpr hhigh, false_and]
  rw [if_neg htail, if_pos ⟨hpos, hlow, hhigh⟩]

theorem laidByte_place (file : ElfFile) (hpos : 0 < ph.filesz.toNat)
    (hcongr : ph.Congruent pg)
    (hlow : pageStart pg ph.vaddr ≤ u) (hhigh : u < pageEnd pg (ph.vaddr + ph.filesz))
    (hin : u < ph.vaddr + ph.filesz ∨ ph.memsz.toNat ≤ ph.filesz.toNat) :
    laidByte pg file false ph u = some (file.mapped pg (ph.offset.toNat + u.toNat - ph.vaddr.toNat)) := by
  rw [laidByte_file file hpos hlow hhigh hin, ← place_of_congruent hcongr hlow, Nat.add_sub_cancel]

section Roomy

variable (hroom : Roomy pg phdrs)

include hroom

/-! ## Files that tell the places apart -/

/-! ## Bytes that are read -/

theorem laidByte_read (hph : ph ∈ loads phdrs) (file : ElfFile) (u : BitVec w) :
    laidByte pg file true ph u =
      if ph.vaddr.toNat ≤ u.toNat ∧ u.toNat < ph.vaddr.toNat + ph.filesz.toNat then
        some (file.get? (ph.offset.toNat + (u.toNat - ph.vaddr.toNat)))
      else none := by
  simp only [laidByte, if_true, BitVec.le_def, BitVec.lt_def, (ends_of_roomy hroom hph).2.2.1]
  split
  · next h => rw [BitVec.toNat_sub_of_le h.1]
  · rfl

end Roomy

end Agree

end SegmentsLemmas

open SegmentsLemmas

def largePages : PageSize 64 := ⟨14, by decide, by decide⟩

end NyaZygisk
