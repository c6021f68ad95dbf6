import NyaZygisk.ElfImage
import Mathlib

/-!
# What is read of a library's file

The bytes that the constructor of `ElfImage` and `ensureParsed` read of the file and of its mini debug
info. Section headers, symbols and strings are found through offsets that the file gives, and only some
of them are checked.
-/

namespace NyaZygisk.Elf

open CStrings List

variable {w : Nat}

/-- Bytes that are read. A structure is read as a whole. -/
structure Access where
  off : Nat
  len : Nat
deriving DecidableEq

def Access.Inside (bytes : Bytes) (a : Access) : Prop := a.off + a.len ≤ bytes.length

instance (bytes : Bytes) (a : Access) : Decidable (a.Inside bytes) := by unfold Access.Inside; infer_instance

/-! ## The reads -/

def ehdrAccess (w : Nat) : Access := ⟨0, ehdrSize w⟩

/-- `shdrs[i]`. -/
def shdrAccess (w : Nat) (bytes : Bytes) (i : Nat) : Access :=
  ⟨index w ((Ehdr.read w bytes).shoff.toNat + i * shdrSize w), shdrSize w⟩

def stringAccess (bytes : Bytes) (off : Nat) : Access := ⟨off, (stringAt bytes off).length + 1⟩

def commonLength : Bytes → Bytes → Nat
  | a :: as, b :: bs => if a = b then commonLength as bs + 1 else 0
  | _, _ => 0

/-- What `strcmp` reads to compare with a text: all that is the same, and one byte more. -/
def compareAccess (bytes : Bytes) (off : Nat) (text : Bytes) :
    Access := ⟨off, commonLength (bytes.drop off) text + 1⟩

/-- The entries whose names `parseSymbols` looks at. -/
def SymTable.Named (t : SymTable w) (s : Sym w) : Prop := s.shndx ≠ 0 ∧ s.name ≠ 0 ∧ s.name < t.strSize

instance (t : SymTable w) (s : Sym w) : Decidable (t.Named s) := by unfold SymTable.Named; infer_instance

def SymTable.nameOffset (t : SymTable w) (i : Nat) : Nat := index w (t.strtab + (t.sym i).name)

def SymTable.symbolReads (t : SymTable w) (i : Nat) : List Access :=
  ⟨index w (t.symtab + i * symSize w), symSize w⟩ ::
    if t.Named (t.sym i) then [stringAccess t.bytes (t.nameOffset i)] else []

def SymTable.reads (t : SymTable w) : List Access := (List.range t.count).flatMap t.symbolReads

/-- Where `sec_name` finds the name of a section, unless it gives the empty string. -/
def ElfImage.nameOffset (img : ElfImage w) (sh : Shdr w) : Option Nat :=
  let ehdr := Ehdr.read w img.file
  if ehdr.shstrndx = 0 then none
  else
    match (sections w img.file)[ehdr.shstrndx]? with
    | none => none
    | some shstr =>
      if img.file.length < (shstr.offset + shstr.size).toNat then none
      else if shstr.size.toNat ≤ sh.name then none
      else some (index w (shstr.offset.toNat + sh.name))

/-- A round of the loop of `ensureParsed` over the sections of the file, for a header that is read. -/
def ElfImage.sectionReads (img : ElfImage w) (sh : Shdr w) : List Access :=
  if sh.type = .symtab ∨ sh.type = .dynsym then
    match (sections w img.file)[sh.link]? with
    | none => []
    | some strSh =>
      shdrAccess w img.file sh.link ::
        if img.file.length < (strSh.offset + strSh.size).toNat then []
        else (SymTable.ofSections img.file sh strSh).reads
  else if sh.type = .progbits then
    (img.nameOffset sh).toList.map fun off => compareAccess img.file off (ascii ".gnu_debugdata")
  else []

/-- The header of the section that holds the names of the sections. -/
def ElfImage.shstrReads (img : ElfImage w) : List Access :=
  let ehdr := Ehdr.read w img.file
  if ehdr.shstrndx ≠ 0 ∧ ehdr.shstrndx < ehdr.shnum then [shdrAccess w img.file ehdr.shstrndx] else []

def ElfImage.constructorReads (img : ElfImage w) (mapped : Bytes) : List Access :=
  if img.file.length < ehdrSize w then []
  else ehdrAccess w :: if img.valid mapped then img.shstrReads else []

def ElfImage.parseReads (img : ElfImage w) : List Access :=
  img.shstrReads ++
    (sections w img.file).zipIdx.flatMap fun p => shdrAccess w img.file p.2 :: img.sectionReads p.1

/-- A round of its loop over the sections of the mini debug info. -/
def debugSectionReads (data : Bytes) (sh : Shdr w) : List Access :=
  if sh.type = .symtab then
    match (sections w data)[sh.link]? with
    | none => []
    | some strSh => shdrAccess w data sh.link :: (SymTable.ofSections data sh strSh).reads
  else []

def debugReads (w : Nat) (data : Bytes) : List Access :=
  ehdrAccess w :: (sections w data).zipIdx.flatMap fun p =>
    shdrAccess w data p.2 :: debugSectionReads data p.1

variable (xz : Bytes → Option Bytes)

/-- All reads are inside the file or the mini debug info. Only a valid image is parsed. -/
def ElfImage.ReadsInside (img : ElfImage w) (mapped : Bytes) : Prop :=
  (∀ a ∈ img.constructorReads mapped, a.Inside img.file) ∧
    (img.valid mapped = true → (∀ a ∈ img.parseReads, a.Inside img.file) ∧
      ∀ data ∈ img.debugData xz, ∀ a ∈ debugReads w data, a.Inside data)

/-! ## What has to be inside -/

def HeadersInside (w : Nat) (bytes : Bytes) : Prop :=
  let ehdr := Ehdr.read w bytes
  ehdr.shnum = 0 ∨ ehdr.shoff.toNat + ehdr.shnum * shdrSize w ≤ bytes.length

structure SymTable.Inside (t : SymTable w) : Prop where
  entries : t.count = 0 ∨ t.symtab + t.count * symSize w ≤ t.bytes.length
  strings : ∀ i < t.count, t.Named (t.sym i) → 0 ∈ t.bytes.drop (t.nameOffset i)

/-- The section headers and symbol tables of the file and of the mini debug info are inside them,
and so are the ends of the strings. -/
structure ElfImage.TablesInside (img : ElfImage w) : Prop where
  headers : HeadersInside w img.file
  names : ∀ sh ∈ sections w img.file, sh.type = .progbits → ∀ off ∈ img.nameOffset sh,
    ¬img.file.drop off <+: ascii ".gnu_debugdata"
  tables : ∀ t ∈ img.mainTables, t.Inside
  debug : ∀ data ∈ img.debugData xz,
    ehdrSize w ≤ data.length ∧ HeadersInside w data ∧ ∀ t ∈ debugTables w data, t.Inside

namespace ElfReadsLemmas

/-! ### Strings -/

variable {bytes : Bytes} {off : Nat}

theorem add_lt_length_iff {n : Nat} : off + (n + 1) ≤ bytes.length ↔ n < (bytes.drop off).length := by
  rw [length_drop, Nat.lt_sub_iff_add_lt', ← Nat.add_assoc]
  exact Iff.rfl

theorem stringAccess_inside :
    (stringAccess bytes off).Inside bytes ↔ 0 ∈ bytes.drop off := by
  unfold Access.Inside stringAccess stringAt cString
  rw [add_lt_length_iff]
  generalize bytes.drop off = rest
  induction rest with
  | nil => simp
  | cons b rest ih =>
    rw [takeWhile_cons, mem_cons]
    split
    · next hb =>
      have hne : b ≠ 0 := of_decide_eq_true hb
      rw [length_cons, length_cons, Nat.succ_lt_succ_iff, ih, or_iff_right hne.symm]
    · next hb =>
      have heq : b = 0 := of_not_not fun hne => hb (decide_eq_true hne)
      exact iff_of_true (Nat.zero_lt_succ _) (.inl heq.symm)

theorem commonLength_lt_iff (bytes text : Bytes) :
    commonLength bytes text < bytes.length ↔ ¬bytes <+: text := by
  induction bytes generalizing text with
  | nil => exact iff_of_false (Nat.not_lt_zero _) (not_not_intro nil_prefix)
  | cons b bytes ih =>
    cases text with
    | nil => exact iff_of_true (Nat.zero_lt_succ _) fun h => absurd (prefix_nil.mp h) (cons_ne_nil _ _)
    | cons c text =>
      rw [commonLength, cons_prefix_cons, length_cons]
      split
      · next heq => rw [Nat.succ_lt_succ_iff, ih, and_iff_right heq]
      · next hne => exact iff_of_true (Nat.zero_lt_succ _) fun h => hne h.1

theorem compareAccess_inside {text : Bytes} :
    (compareAccess bytes off text).Inside bytes ↔ ¬bytes.drop off <+: text := by
  unfold Access.Inside compareAccess
  rw [add_lt_length_iff, commonLength_lt_iff]

/-! ### Tables -/

/-- The entries of a table are inside one after the other, so an offset that wraps is never reached. -/
theorem entries_inside_iff {len size n : Nat} (hlen : len < 2 ^ w) (hoff : off < 2 ^ w) :
    (∀ i < n, index w (off + i * size) + size ≤ len) ↔ n = 0 ∨ off + n * size ≤ len := by
  have hindex {m : Nat} (h : m < 2 ^ w) : index w m = m := by
    rw [index, BitVec.toNat_ofNat, Nat.mod_eq_of_lt h]
  constructor
  · intro h
    induction n with
    | zero => exact .inl rfl
    | succ n ih =>
      have hstart : off + n * size < 2 ^ w := by
        rcases ih fun i hi => h i (hi.trans n.lt_succ_self) with rfl | hle
        · rwa [Nat.zero_mul, Nat.add_zero]
        · exact hle.trans_lt hlen
      have hlast := h n n.lt_succ_self
      rw [hindex hstart] at hlast
      rw [Nat.succ_mul, ← Nat.add_assoc]
      exact .inr hlast
  · rintro (rfl | hle) i hi
    · exact absurd hi (Nat.not_lt_zero i)
    · have hend : off + i * size + size ≤ len := by
        rw [Nat.add_assoc, ← Nat.succ_mul]
        exact (Nat.add_le_add_left (Nat.mul_le_mul_right size hi) off).trans hle
      rw [hindex (((Nat.le_add_right _ _).trans hend).trans_lt hlen)]
      exact hend

theorem headersInside_iff (hlen : bytes.length < 2 ^ w) :
    (∀ i < (Ehdr.read w bytes).shnum, (shdrAccess w bytes i).Inside bytes) ↔ HeadersInside w bytes :=
  entries_inside_iff hlen (BitVec.isLt _)

theorem tableReads_inside_iff {t : SymTable w} (hlen : t.bytes.length < 2 ^ w) (hsymtab : t.symtab < 2 ^ w) :
    (∀ a ∈ t.reads, a.Inside t.bytes) ↔ t.Inside := by
  have hround (i : Nat) : (∀ a ∈ t.symbolReads i, a.Inside t.bytes) ↔
      index w (t.symtab + i * symSize w) + symSize w ≤ t.bytes.length ∧
        (t.Named (t.sym i) → 0 ∈ t.bytes.drop (t.nameOffset i)) := by
    rw [SymTable.symbolReads, forall_mem_cons]
    refine and_congr Iff.rfl ?_
    split
    · next hnamed => rw [forall_mem_singleton, stringAccess_inside, forall_prop_of_true hnamed]
    · next hnamed => exact iff_of_true (fun a ha => absurd ha not_mem_nil) fun h => absurd h hnamed
  simp only [SymTable.reads, forall_mem_flatMap, mem_range, hround, forall_and]
  rw [entries_inside_iff hlen hsymtab]
  exact ⟨fun h => ⟨h.1, h.2⟩, fun h => ⟨h.entries, h.strings⟩⟩

theorem length_sections (bytes : Bytes) : (sections w bytes).length = (Ehdr.read w bytes).shnum := by
  rw [sections, length_map, length_range]

theorem forall_sections_iff (hlen : bytes.length < 2 ^ w) (reads : Shdr w → List Access) :
    (∀ a ∈ (sections w bytes).zipIdx.flatMap fun p => shdrAccess w bytes p.2 :: reads p.1, a.Inside bytes) ↔
      HeadersInside w bytes ∧ ∀ sh ∈ sections w bytes, ∀ a ∈ reads sh, a.Inside bytes := by
  rw [forall_mem_flatMap, ← headersInside_iff hlen, ← length_sections]
  constructor
  · intro h
    refine ⟨fun i hi => ?_, fun sh hsh a ha => ?_⟩
    · exact h ((sections w bytes)[i], i) (mem_zipIdx_iff_getElem?.mpr (getElem?_eq_getElem hi)) _
        mem_cons_self
    · obtain ⟨i, hi⟩ := getElem?_of_mem hsh
      exact h (sh, i) (mem_zipIdx_iff_getElem?.mpr hi) a (mem_cons_of_mem _ ha)
  · rintro ⟨hheaders, hreads⟩ ⟨sh, i⟩ hmem a ha
    have hget : (sections w bytes)[i]? = some sh := mem_zipIdx_iff_getElem?.mp hmem
    obtain ⟨hi, -⟩ := List.getElem?_eq_some_iff.mp hget
    rcases mem_cons.mp ha with rfl | ha
    · exact hheaders i hi
    · exact hreads sh (mem_of_getElem? hget) a ha

theorem shdrAccess_link (hlen : bytes.length < 2 ^ w) (h : HeadersInside w bytes) {i : Nat} {sh : Shdr w}
    (hget : (sections w bytes)[i]? = some sh) : (shdrAccess w bytes i).Inside bytes := by
  obtain ⟨hi, -⟩ := List.getElem?_eq_some_iff.mp hget
  exact (headersInside_iff hlen).mpr h i (length_sections bytes ▸ hi)

theorem ofSections_inside_iff (hlen : bytes.length < 2 ^ w) (sh strSh : Shdr w) :
    (∀ a ∈ (SymTable.ofSections bytes sh strSh).reads, a.Inside bytes) ↔
      (SymTable.ofSections bytes sh strSh).Inside :=
  tableReads_inside_iff hlen (BitVec.isLt _)

/-! ### Sections -/

variable {img : ElfImage w}

/-- The table that a section of the file gives, if it is one and passes the check. -/
def tableOf (img : ElfImage w) (sh : Shdr w) : Option (SymTable w) :=
  if sh.type = .symtab ∨ sh.type = .dynsym then
    ((sections w img.file)[sh.link]?).bind fun strSh =>
      if img.file.length < (strSh.offset + strSh.size).toNat then none else some
        (.ofSections img.file sh strSh)
  else none

theorem sectionReads_inside_iff (hlen : img.file.length < 2 ^ w)
    (hheaders : HeadersInside w img.file) (sh : Shdr w) :
    (∀ a ∈ img.sectionReads sh, a.Inside img.file) ↔
      (sh.type = .progbits → ∀ off ∈ img.nameOffset sh, ¬img.file.drop off <+: ascii ".gnu_debugdata") ∧
        ∀ t ∈ tableOf img sh, t.Inside := by
  unfold ElfImage.sectionReads tableOf
  split
  · next htable =>
    have hprogbits : sh.type ≠ .progbits := by
      rcases htable with h | h <;> rw [h] <;> decide
    rw [and_iff_right fun h => absurd h hprogbits]
    cases hlink : (sections w img.file)[sh.link]? with
    | none => simp
    | some strSh =>
      rw [Option.bind_some]
      dsimp only
      rw [forall_mem_cons, and_iff_right (shdrAccess_link hlen hheaders hlink)]
      split
      · simp
      · rw [ofSections_inside_iff hlen]
        simp
  · split
    · next hprogbits =>
      rw [forall_prop_of_true hprogbits, and_iff_left fun t ht => by cases ht]
      cases img.nameOffset sh with
      | none => simp
      | some off => simp [compareAccess_inside]
    · next hprogbits => simp [hprogbits]

def debugTableOf (data : Bytes) (sh : Shdr w) : Option (SymTable w) :=
  if sh.type = .symtab then ((sections w data)[sh.link]?).map (.ofSections data sh) else none

theorem debugSectionReads_inside_iff {data : Bytes} (hlen : data.length < 2 ^ w)
    (hheaders : HeadersInside w data)
    (sh : Shdr w) :
    (∀ a ∈ debugSectionReads data sh, a.Inside data) ↔
      ∀ t ∈ debugTableOf data sh, t.Inside := by
  unfold debugSectionReads debugTableOf
  split
  · cases hlink : (sections w data)[sh.link]? with
    | none => simp
    | some strSh =>
      dsimp only
      rw [forall_mem_cons, and_iff_right (shdrAccess_link hlen hheaders hlink), ofSections_inside_iff hlen]
      simp
  · simp

theorem shstrReads_inside (hlen : img.file.length < 2 ^ w) (hheaders : HeadersInside w img.file) :
    ∀ a ∈ img.shstrReads, a.Inside img.file := by
  unfold ElfImage.shstrReads
  dsimp only
  split
  · next h =>
    rw [forall_mem_singleton]
    exact (headersInside_iff hlen).mpr hheaders _ h.2
  · exact fun a ha => absurd ha not_mem_nil

theorem parseReads_inside_iff (hlen : img.file.length < 2 ^ w) :
    (∀ a ∈ img.parseReads, a.Inside img.file) ↔
      HeadersInside w img.file ∧
        (∀ sh ∈ sections w img.file, sh.type = .progbits → ∀ off ∈ img.nameOffset sh,
          ¬img.file.drop off <+: ascii ".gnu_debugdata") ∧ ∀ t ∈ img.mainTables, t.Inside := by
  have htables :
    (∀ t ∈ img.mainTables, t.Inside) ↔ ∀ sh ∈ sections w img.file, ∀ t ∈ tableOf img sh, t.Inside := by
    unfold ElfImage.mainTables
    rw [forall_mem_filterMap]
    rfl
  rw [ElfImage.parseReads, forall_mem_append, forall_sections_iff hlen, htables]
  constructor
  · rintro ⟨-, hheaders, hreads⟩
    have hsections := fun sh hsh => (sectionReads_inside_iff hlen hheaders sh).mp (hreads sh hsh)
    exact ⟨hheaders, fun sh hsh => (hsections sh hsh).1, fun sh hsh => (hsections sh hsh).2⟩
  · rintro ⟨hheaders, hnames, htables⟩
    refine ⟨shstrReads_inside hlen hheaders, hheaders, fun sh hsh => ?_⟩
    exact (sectionReads_inside_iff hlen hheaders sh).mpr ⟨hnames sh hsh, htables sh hsh⟩

theorem debugReads_inside_iff {data : Bytes} (hlen : data.length < 2 ^ w) :
    (∀ a ∈ debugReads w data, a.Inside data) ↔
      ehdrSize w ≤ data.length ∧ HeadersInside w data ∧ ∀ t ∈ debugTables w data, t.Inside := by
  rw [debugReads, forall_mem_cons, forall_sections_iff hlen, debugTables, forall_mem_filterMap]
  refine and_congr (by rw [Access.Inside, ehdrAccess, Nat.zero_add]) (and_congr_right fun hheaders => ?_)
  exact forall₂_congr fun sh _ => debugSectionReads_inside_iff hlen hheaders sh

/-- The mini debug info is something that was decompressed. -/
theorem exists_of_debugData {data : Bytes} (h : img.debugData xz = some data) :
    ∃ packed, xz packed = some data := by
  have hfold (shdrs : List (Shdr w)) (start : Option Bytes) (hstart : ∀ d, start = some d →
    ∃ packed, xz packed = some d) :
      ∀ d, shdrs.foldl (fun data sh =>
        (parseGnuDebugData xz ((img.file.drop sh.offset.toNat).take sh.size.toNat)).or data) start = some d →
          ∃ packed, xz packed = some d := by
    induction shdrs generalizing start with
    | nil => exact hstart
    | cons sh shdrs ih =>
      refine ih _ fun d hd => ?_
      rcases Option.or_eq_some_iff.mp hd with hd | ⟨-, hd⟩
      · exact ⟨_, (Option.filter_eq_some_iff.mp hd).1⟩
      · exact hstart d hd
  exact hfold _ none (fun d hd => by cases hd) data h

end ElfReadsLemmas

open ElfReadsLemmas in
/-- All reads are inside exactly if the image is not valid, and so not parsed, or its tables and
strings are inside. -/
theorem readsInside_iff (img : ElfImage w) (mapped : Bytes) (hfile : img.file.length < 2 ^ w)
    (hxz : ∀ packed data, xz packed = some data → data.length < 2 ^ w) :
    img.ReadsInside xz mapped ↔ (img.valid mapped = true → img.TablesInside xz) := by
  have hdebug : (∀ data ∈ img.debugData xz, ∀ a ∈ debugReads w data, a.Inside data) ↔
      ∀ data ∈ img.debugData xz, ehdrSize w ≤ data.length ∧ HeadersInside w data ∧
        ∀ t ∈ debugTables w data, t.Inside := by
    refine forall₂_congr fun data hdata => ?_
    obtain ⟨packed, hpacked⟩ := exists_of_debugData xz hdata
    exact debugReads_inside_iff (hxz packed data hpacked)
  unfold ElfImage.ReadsInside
  rw [parseReads_inside_iff hfile, hdebug]
  constructor
  · rintro ⟨-, h⟩ hvalid
    obtain ⟨⟨hheaders, hnames, htables⟩, hdata⟩ := h hvalid
    exact ⟨hheaders, hnames, htables, hdata⟩
  · intro h
    refine ⟨?_, fun hvalid => ?_⟩
    · unfold ElfImage.constructorReads
      split
      · exact fun a ha => absurd ha not_mem_nil
      · next hsize =>
        rw [forall_mem_cons]
        refine ⟨?_, ?_⟩
        · rw [Access.Inside, ehdrAccess, Nat.zero_add]
          exact Nat.le_of_not_lt hsize
        · split
          · next hvalid => exact shstrReads_inside hfile (h hvalid).headers
          · exact fun a ha => absurd ha not_mem_nil
    · obtain ⟨hheaders, hnames, htables, hdata⟩ := h hvalid
      exact ⟨⟨hheaders, hnames, htables⟩, hdata⟩

theorem readsInside_iff_defined :
    definingLibrary.valid definingLibrary.mapped = true ∧ definingLibrary.TablesInside noXz := by
  have hvalid : definingLibrary.valid definingLibrary.mapped = true := by decide +kernel
  have hdebug : definingLibrary.debugData noXz = none := by decide +kernel
  refine ⟨hvalid, (readsInside_iff noXz definingLibrary.toElfImage definingLibrary.mapped (by decide +kernel)
    fun _ _ h => by cases h).mp ⟨by decide +kernel, fun _ =>
      ⟨by decide +kernel, fun data hdata => ?_⟩⟩ hvalid⟩
  rw [hdebug] at hdata
  cases hdata

open LittleEndian in
/-- An executable of two section headers: symbols that begin far behind the end of the file, and no
strings. -/
def strayFile : Bytes :=
  elfMagic ++ [2, 1, 1] ++ bytes 9 0 ++ bytes 2 2 ++ bytes 22 0 ++ bytes 8 64 ++ bytes 12 0 ++ bytes
    2 2 ++ bytes 2 0 ++
    (sampleShdr 2 0x100000 24 1 24 ++ sampleShdr 3 0 0 0 0)

def strayImage : ElfImage 64 := ⟨strayFile, 0⟩

/-- The file passes all checks, and an entry outside it is read. -/
theorem reads_outside :
    strayImage.valid [] = true ∧ strayFile.length = 192 ∧ ⟨0x100000, 24⟩ ∈ strayImage.parseReads ∧
      ¬strayImage.ReadsInside noXz [] := by
  have hvalid : strayImage.valid [] = true := by decide +kernel
  have hread : ⟨0x100000, 24⟩ ∈ strayImage.parseReads := by decide +kernel
  refine ⟨hvalid, by decide +kernel, hread, fun h => ?_⟩
  exact absurd ((h.2 hvalid).1 _ hread) (by decide +kernel)

end NyaZygisk.Elf
