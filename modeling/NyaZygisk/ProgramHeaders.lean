import NyaZygisk.Segments

/-!
# The program headers of a mapped image

`Image::Load` reads the headers of the file with `pread` and maps its segments by them; after
that the headers are those at `phdr_`, which `MapSegments` finds in the mapped image.
-/

namespace NyaZygisk

open List MappingLemmas Pages SegmentsLemmas

variable {w : Nat}

/-! ## Headers as bytes -/

/-- The headers that these bytes are. -/
def readTable (w : Nat) (byte : Nat → BitVec 8) (n : Nat) : List (Phdr w) :=
  (List.range n).map fun i => Phdr.read w (fun k => ⟨byte k⟩) (i * phdrSize w)

def Ehdr.tableSize (ehdr : Ehdr w) : Nat := ehdr.phnum * phdrSize w

/-- The `pread` of the table. -/
def readHeaders (file : ElfFile) (ehdr : Ehdr w) : Option (List (Phdr w)) :=
  if ehdr.phoff.toNat + ehdr.tableSize ≤ file.size then
    some (readTable w (fun i => file.byte (ehdr.phoff.toNat + i)) ehdr.phnum)
  else none

/-- The `phnum_` headers at `phdr_`. -/
def LinkerImage.headers (img : LinkerImage w) (s : Space w) : List (Phdr w) :=
  readTable w (fun i => (s.byte (img.phdr + BitVec.ofNat w i)).getD 0) img.phnum

/-! ## The same headers -/

/-- The headers at `phdr_` are in the mapped image and are, byte for byte, those of the file. -/
structure HeadersLoaded (file : ElfFile) (ehdr : Ehdr w) (img : LinkerImage w) (s : Space w) : Prop where
  found : img.phdr ≠ 0
  inside : ∀ i, i < ehdr.tableSize →
    (⟨img.mapStart, img.mapSize⟩ : Arc w).Has (img.phdr + BitVec.ofNat w i)
  same : ∀ i, i < ehdr.tableSize →
    s.byte (img.phdr + BitVec.ofNat w i) = some (file.byte (ehdr.phoff.toNat + i))

/-- Where the segment has byte `e_phoff` of the file. -/
def Phdr.tablePlace (ehdr : Ehdr w) (ph : Phdr w) : BitVec w := ph.vaddr + (ehdr.phoff - ph.offset)

/-- The segment holds byte `e_phoff` of the file, as it is tested. -/
def Phdr.HasPhoff (ehdr : Ehdr w) (ph : Phdr w) : Prop :=
  ph.type = .load ∧ ph.offset ≤ ehdr.phoff ∧ ehdr.phoff < ph.offset + ph.filesz

instance (ehdr : Ehdr w) (ph : Phdr w) : Decidable (ph.HasPhoff ehdr) :=
  inferInstanceAs (Decidable (_ ∧ _ ∧ _))

/-- `MapSegments` looks for the table at this address of the file: that of the first `PT_PHDR`, or
where the first segment with `e_phoff` has it. -/
def Located (ehdr : Ehdr w) (phdrs : List (Phdr w)) (v : BitVec w) : Prop :=
  match phdrs.find? fun ph => ph.type = .phdr with
  | some ph => ph.vaddr = v
  | none => ∃ ph, phdrs.find? (fun ph => ph.HasPhoff ehdr) = some ph ∧ ph.tablePlace ehdr = v

/-- `MapSegments` reads or maps something for the segment to this address. -/
def Phdr.Reaches (pg : PageSize w) (anonymous : Bool) (ph : Phdr w) (u : BitVec w) : Prop :=
  if anonymous then ph.vaddr ≤ u ∧ u < ph.vaddr + ph.filesz
  else (if 0 < ph.filesz then pageStart pg ph.vaddr else pageEnd pg ph.vaddr) ≤ u ∧
    u < pageEnd pg (ph.vaddr + ph.memsz)

/-- The segment has the whole table of the file, which is looked for there, and a later segment
that reaches it has the same bytes of the file there. -/
structure TableHeld (pg : PageSize w) (ehdr : Ehdr w) (phdrs : List (Phdr w)) (anonymous : Bool)
    (ph : Phdr w) (later : List (Phdr w)) : Prop where
  low : ph.offset.toNat ≤ ehdr.phoff.toNat
  high : ehdr.phoff.toNat + ehdr.tableSize ≤ ph.offset.toNat + ph.filesz.toNat
  congruent : anonymous = false → ph.Congruent pg
  located : Located ehdr phdrs (ph.tablePlace ehdr)
  later : ∀ c ∈ later, ∀ i, i < ehdr.tableSize →
    c.Reaches pg anonymous (ph.tablePlace ehdr + BitVec.ofNat w i) →
      ph.offset.toNat + c.vaddr.toNat = c.offset.toNat + ph.vaddr.toNat ∧
        ph.tablePlace ehdr + BitVec.ofNat w i < c.vaddr + c.filesz

namespace ProgramHeadersLemmas

/-! ## Reading -/

theorem read_congr (hw : w = 32 ∨ w = 64) {byte byte' : Nat → UInt8} {i : Nat}
    (h : ∀ k, i ≤ k → k < i + phdrSize w → byte k = byte' k) :
    Phdr.read w byte i = Phdr.read w byte' i := by
  have hnumber : ∀ n k, k + n ≤ phdrSize w → LittleEndian.numberAt byte n (i + k) =
      LittleEndian.numberAt byte' n (i + k) :=
    fun n k hk => LittleEndian.numberAt_congr fun j hj hj' => h j (by omega) (by omega)
  rcases hw with rfl | rfl
  · simp (disch := decide) only [Phdr.read, show ¬ 32 = 64 by decide, if_false, hnumber]
  · simp (disch := decide) only [Phdr.read, if_true, hnumber]

theorem readTable_congr (hw : w = 32 ∨ w = 64) {byte byte' : Nat → BitVec 8} {n : Nat}
    (h : ∀ k, k < n * phdrSize w → byte k = byte' k) : readTable w byte n = readTable w byte' n := by
  refine map_congr_left fun i hi => read_congr hw fun k hk hk' => congrArg UInt8.ofBitVec (h k ?_)
  have hlast : (i + 1) * phdrSize w ≤ n * phdrSize w := Nat.mul_le_mul_right _ (mem_range.mp hi)
  rw [Nat.succ_mul] at hlast
  exact Nat.lt_of_lt_of_le hk' hlast

section MapSegments

variable {sys : System w} {file : ElfFile} {hasBti : Space w → BitVec w → BitVec w → Bool} {ehdr : Ehdr w}
  {phdrs : List (Phdr w)} {anonymous : Bool} {img : LinkerImage w} {p p' : Process w}

theorem mapSegments_phdr (h : mapSegments sys file hasBti ehdr phdrs anonymous p = (some img, p')) :
    img.phdr = locatePhdr ehdr phdrs img.loadBias ∧ img.phnum = ehdr.phnum := by
  unfold mapSegments at h
  split at h
  · cases h
  split at h
  · cases h
  dsimp only at h
  split at h
  · cases h
  · cases h
    exact ⟨rfl, rfl⟩

/-- What is found at `phdr_`, if the bytes are those of the file, is the table of the file. -/
theorem headers_eq (hw : w = 32 ∨ w = 64) (hread : readHeaders file ehdr = some phdrs)
    (hphnum : img.phnum = ehdr.phnum) {s : Space w} (h : HeadersLoaded file ehdr img s) :
    img.headers s = phdrs := by
  rw [readHeaders] at hread
  split at hread
  · rw [← Option.some_inj.mp hread, LinkerImage.headers, hphnum]
    refine readTable_congr hw fun i hi => ?_
    rw [h.same i hi, Option.getD_some]
  · cases hread

end MapSegments

/-! ## The place -/

theorem locatePhdr_of_located {ehdr : Ehdr w} {phdrs : List (Phdr w)} {bias v : BitVec w}
    (h : Located ehdr phdrs v) (hne : bias + v ≠ 0) : locatePhdr ehdr phdrs bias = bias + v := by
  rw [locatePhdr]
  rw [Located] at h
  split at h
  · next ph hph =>
    rw [hph, Option.elim_some, h, if_neg hne]
  · next hnone =>
    obtain ⟨ph, hph, hv⟩ := h
    have hfind : (phdrs.find? fun ph => ph.type = .load ∧ ph.offset ≤ ehdr.phoff ∧
      ehdr.phoff < ph.offset + ph.filesz) = some ph := hph
    rw [hnone, Option.elim_none, if_pos rfl, hfind, Option.elim_some, add_assoc]
    exact congrArg (bias + ·) hv

section Held

variable {pg : PageSize w} {ehdr : Ehdr w} {phdrs pre later : List (Phdr w)} {anonymous : Bool}
  {ph : Phdr w}

/-- A segment that does not reach an address leaves it alone. -/
theorem laidByte_none (hroom : Roomy pg phdrs) (hph : ph ∈ loads phdrs)
    (hsize : ph.filesz.toNat ≤ ph.memsz.toNat) (file : ElfFile) {u : BitVec w}
    (hu : ¬ ph.Reaches pg anonymous u) : laidByte pg file anonymous ph u = none := by
  cases anonymous with
  | true => exact if_neg hu
  | false =>
    obtain ⟨hmem, hroom₁, hfile, hroom₂⟩ := ends_of_roomy hroom hph
    have hup : ph.vaddr + ph.filesz ≤ pageEnd pg (ph.vaddr + ph.filesz) := le_ceil hroom₂
    have hstart : pageStart pg ph.vaddr ≤ ph.vaddr + ph.filesz := (pageStart_le_end hroom hph).2
    have hends : pageEnd pg (ph.vaddr + ph.filesz) ≤ pageEnd pg (ph.vaddr + ph.memsz) := by
      refine ceil_mono ?_ hroom₁
      rw [BitVec.le_def, hmem, hfile]
      exact Nat.add_le_add_left hsize _
    have hbss : ¬ (pageEnd pg (ph.vaddr + ph.filesz) ≤ u ∧ u < pageEnd pg (ph.vaddr + ph.memsz)) := by
      rintro ⟨hlow, hhigh⟩
      refine hu ⟨?_, hhigh⟩
      split
      · exact BitVec.le_trans hstart (BitVec.le_trans hup hlow)
      · next hzero =>
        rwa [show ph.filesz = 0 from BitVec.eq_of_toNat_eq (Nat.eq_zero_of_not_pos hzero), add_zero] at hlow
    have hfilePages : ∀ {q : Prop}, (q → pageStart pg ph.vaddr ≤ u) →
        ¬ (0 < ph.filesz ∧ q ∧ u < pageEnd pg (ph.vaddr + ph.filesz)) := by
      rintro q hq ⟨hpos, h, hhigh⟩
      refine hu ⟨?_, Nat.lt_of_lt_of_le hhigh hends⟩
      rw [if_pos hpos]
      exact hq h
    simp only [laidByte, Bool.false_eq_true, if_false, hbss]
    rw [if_neg fun h => hfilePages (BitVec.le_trans hstart) ⟨h.1.1, h.2⟩, if_neg (hfilePages id)]

/-- The bytes of the table are those of the segment's part of the file. -/
theorem table_byte (h : TableHeld pg ehdr phdrs anonymous ph later) {i : Nat} (hi : i < ehdr.tableSize) :
    ehdr.phoff.toNat - ph.offset.toNat + i < ph.filesz.toNat ∧
      ph.tablePlace ehdr + BitVec.ofNat w i =
        ph.vaddr + BitVec.ofNat w (ehdr.phoff.toNat - ph.offset.toNat + i) := by
  have hlow := h.low
  have hhigh := h.high
  refine ⟨by omega, ?_⟩
  rw [Phdr.tablePlace, add_assoc, BitVec.ofNat_add]
  congr 2
  apply BitVec.eq_of_toNat_eq
  rw [BitVec.toNat_sub_of_le hlow, BitVec.toNat_ofNat, Nat.mod_eq_of_lt (by omega)]

variable (hroom : Roomy pg phdrs) (hsizes : ∀ ph ∈ loads phdrs, ph.filesz.toNat ≤ ph.memsz.toNat)
  (hsplit : loads phdrs = pre ++ ph :: later) (h : TableHeld pg ehdr phdrs anonymous ph later)

include hroom h

/-- Who reaches a byte of the table at the same distance from the file has the byte. -/
theorem laidByte_table {c : Phdr w} (hc : c ∈ loads phdrs) {file : ElfFile}
    (hfile : ehdr.phoff.toNat + ehdr.tableSize ≤ file.size) {i : Nat} (hi : i < ehdr.tableSize) {u : BitVec w}
    (hnat : u.toNat + ph.offset.toNat = ph.vaddr.toNat + ehdr.phoff.toNat + i)
    (hreaches : c.Reaches pg anonymous u)
    (hdelta : ph.offset.toNat + c.vaddr.toNat = c.offset.toNat + ph.vaddr.toNat)
    (hend : u < c.vaddr + c.filesz) :
    laidByte pg file anonymous c u = some (some (file.byte (ehdr.phoff.toNat + i))) := by
  obtain ⟨-, -, hsum, hroom₂⟩ := ends_of_roomy hroom hc
  have hend' : u.toNat < (c.vaddr + c.filesz).toNat := hend
  cases anonymous with
  | true =>
    have hlow : c.vaddr.toNat ≤ u.toNat := hreaches.1
    rw [laidByte_read hroom hc, if_pos ⟨hlow, by omega⟩,
      show c.offset.toNat + (u.toNat - c.vaddr.toNat) = ehdr.phoff.toNat + i by omega]
    exact congrArg some (if_pos (by omega))
  | false =>
    have hup : c.vaddr + c.filesz ≤ pageEnd pg (c.vaddr + c.filesz) := le_ceil hroom₂
    obtain ⟨hlow, -⟩ : (if 0 < c.filesz then pageStart pg c.vaddr else pageEnd pg c.vaddr) ≤ u ∧ _ := hreaches
    split at hlow
    · next hpos =>
      have hcongr : c.Congruent pg := by
        refine Nat.ModEq.add_right_cancel (Nat.ModEq.symm (h.congruent rfl)) ?_
        rw [Nat.add_comm, hdelta]
      rw [laidByte_place file hpos hcongr hlow (Nat.lt_of_lt_of_le hend hup) (.inl hend),
        show c.offset.toNat + u.toNat - c.vaddr.toNat = ehdr.phoff.toNat + i by omega,
          mapped_of_lt (by omega)]
    · next hzero =>
      -- nothing of it is in the file, and it begins after the byte
      rw [show c.filesz = 0 from BitVec.eq_of_toNat_eq (Nat.eq_zero_of_not_pos hzero), add_zero] at hend hup
      exact absurd hend (BitVec.not_lt.mpr (BitVec.le_trans hup hlow))

include hsizes hsplit

theorem layers_table {file : ElfFile} (hfile : ehdr.phoff.toNat + ehdr.tableSize ≤ file.size) {i : Nat}
    (hi : i < ehdr.tableSize) :
    Between pg phdrs (ph.tablePlace ehdr + BitVec.ofNat w i) ∧
      layers (laidByte pg file anonymous) (loads phdrs) (fun _ => some 0)
        (ph.tablePlace ehdr + BitVec.ofNat w i) = some (file.byte (ehdr.phoff.toNat + i)) := by
  have hin : ∀ c ∈ ph :: later, c ∈ loads phdrs := fun c hc => hsplit ▸ mem_append_right _ hc
  have hph := hin ph mem_cons_self
  have hlow := h.low
  obtain ⟨hlt, hplace⟩ := table_byte h hi
  have hsize := hsizes ph hph
  obtain ⟨hnat, hbetween⟩ := between_byte hroom hph (i := ehdr.phoff.toNat - ph.offset.toNat + i) (by omega)
  rw [← hplace] at hnat hbetween
  obtain ⟨hmem, hroom₁, hfile', -⟩ := ends_of_roomy hroom hph
  refine ⟨hbetween, ?_⟩
  rw [hsplit]
  have hend : ph.tablePlace ehdr + BitVec.ofNat w i < ph.vaddr + ph.filesz := BitVec.lt_def.mpr (by omega)
  have hstart : ph.vaddr ≤ ph.tablePlace ehdr + BitVec.ofNat w i := BitVec.le_def.mpr (by omega)
  refine layers_split (laidByte_table hroom h hph hfile hi (by omega) ?_ rfl hend) fun c hc => ?_
  · cases anonymous with
    | true => exact ⟨hstart, hend⟩
    | false =>
      have hup : ph.vaddr + ph.memsz ≤ pageEnd pg (ph.vaddr + ph.memsz) := le_ceil hroom₁
      refine ⟨?_, Nat.lt_of_lt_of_le ?_ hup⟩
      · rw [if_pos (show 0 < ph.filesz from Nat.zero_lt_of_lt hlt)]
        exact BitVec.le_trans (floor_le pg _) hstart
      · omega
  · have hc' := hin c (mem_cons_of_mem _ hc)
    by_cases hreaches : c.Reaches pg anonymous (ph.tablePlace ehdr + BitVec.ofNat w i)
    · obtain ⟨hdelta, hcend⟩ := h.later c hc i hi hreaches
      exact .inr (laidByte_table hroom h hc' hfile hi (by omega) hreaches hdelta hcend)
    · exact .inl (laidByte_none hroom hc' (hsizes c hc') file hreaches)

end Held

end ProgramHeadersLemmas

open ProgramHeadersLemmas

/-- A file with a table at 64, of a `PT_PHDR` and one segment. -/
def tableFile : ElfFile where
  size := 0x1000
  byte i :=
    match i with
    | 64 => 6 | 68 => 4 | 72 => 64 | 80 => 64 | 88 => 64 | 96 => 112 | 104 => 112 | 112 => 8
    | 120 => 1 | 124 => 5 | 153 => 0x10 | 161 => 0x10 | 169 => 0x10
    | _ => 0

def tableLoad : Phdr 64 := ⟨.load, 5, 0, 0, 0x1000, 0x1000, 0x1000⟩

def tableHeaders : List (Phdr 64) := [⟨.phdr, 4, 64, 64, 112, 112, 8⟩, tableLoad]

/-- A file whose only segment starts after the table. -/
def strayFile : ElfFile where
  size := 0x2000
  byte i :=
    match i with
    | 64 => 1 | 68 => 5 | 73 => 0x10 | 81 => 0x10 | 97 => 0x10 | 105 => 0x10 | 113 => 0x10
    | _ => 0

def strayHeaders : List (Phdr 64) := [⟨.load, 5, 0x1000, 0x1000, 0x1000, 0x1000, 0x1000⟩]

end NyaZygisk
