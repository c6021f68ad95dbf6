import NyaZygisk.Phdr
import NyaZygisk.Lib.Pages

/-!
# Mapping an image

`Image::MapSegments`, `Image::SetSegmentProtections` and `Image::ApplyRelro` of `linker.cpp`,
with the address space that their calls change. The header table is any list of headers and
all sums wrap; what the kernel refuses, and the address of the reservation, are open.
-/

namespace NyaZygisk

open List Pages

variable {w : Nat}

/-! ## Plans -/

/-- What `MapSegments` reads of the ELF header. -/
structure Ehdr (w : Nat) where
  phoff : BitVec w
  phnum : Nat

def pageStart (pg : PageSize w) (addr : BitVec w) : BitVec w := floor pg.bytes addr

def pageEnd (pg : PageSize w) (addr : BitVec w) : BitVec w := ceil pg.bytes addr

/-- The extent of the `PT_LOAD` segments. -/
structure Plan (w : Nat) where
  maxAlign : BitVec w
  minVaddr : BitVec w
  maxVaddr : BitVec w
deriving DecidableEq

def Plan.add (plan : Plan w) (ph : Phdr w) : Plan w :=
  if ph.type = .load then
    { maxAlign := if plan.maxAlign < ph.align then ph.align else plan.maxAlign
      minVaddr := if ph.vaddr < plan.minVaddr then ph.vaddr else plan.minVaddr
      maxVaddr := if plan.maxVaddr < ph.vaddr + ph.memsz then ph.vaddr + ph.memsz
        else plan.maxVaddr }
  else plan

/-- The extent in whole pages, if some segment is below the last address. -/
def planSegments (pg : PageSize w) (phdrs : List (Phdr w)) : Option (Plan w) :=
  let plan := phdrs.foldl Plan.add ⟨pg.bytes, BitVec.allOnes w, 0⟩
  if plan.minVaddr = BitVec.allOnes w then none
  else
    some { plan with
      minVaddr := pageStart pg plan.minVaddr
      maxVaddr := pageEnd pg plan.maxVaddr }

def Plan.span (plan : Plan w) : BitVec w := plan.maxVaddr - plan.minVaddr

def Plan.reserve (plan : Plan w) : BitVec w := plan.span + plan.maxAlign

/-- The start of the mapping, if `raw` is that of the reservation. -/
def Plan.aligned (plan : Plan w) (raw : BitVec w) : BitVec w := ceil plan.maxAlign raw

def Plan.loadBias (plan : Plan w) (raw : BitVec w) : BitVec w := plan.aligned raw - plan.minVaddr

/-! ## The address space -/

structure Prot where
  read : Bool
  write : Bool
  exec : Bool
  bti : Bool
deriving DecidableEq

def Prot.none : Prot := ⟨false, false, false, false⟩

def Prot.readOnly : Prot := ⟨true, false, false, false⟩

def Prot.readWrite : Prot := ⟨true, true, false, false⟩

def toProt (flags : BitVec 32) : Prot :=
  ⟨flags &&& 4 ≠ 0, flags &&& 2 ≠ 0, flags &&& 1 ≠ 0, false⟩

/-- The bytes that can be read, and the protections of the addresses that are mapped. -/
structure Space (w : Nat) where
  byte : BitVec w → Option (BitVec 8)
  prot : BitVec w → Option Prot

structure ElfFile where
  size : Nat
  byte : Nat → BitVec 8

def ElfFile.get? (file : ElfFile) (i : Nat) : Option (BitVec 8) :=
  if i < file.size then some (file.byte i) else none

/-- Byte `i` of the file's pages: the last page is filled up with 0, and those after it
cannot be read. -/
def ElfFile.mapped (file : ElfFile) (pg : PageSize w) (i : Nat) : Option (BitVec 8) :=
  if i < file.size then some (file.byte i)
  else if i / 2 ^ pg.bits * 2 ^ pg.bits < file.size then some 0
  else none

inductive MapKind (w : Nat)
  /-- The mapping that is made for the reservation. -/
  | reserve
  | munmap
  | mprotect (prot : Prot)
  /-- `PreadFull` to its end. -/
  | pread (offset : BitVec w)
  /-- A private mapping of the file, with `MAP_FIXED`. -/
  | mmapFile (offset : BitVec w)
  | memset
  /-- A private anonymous mapping, with `MAP_FIXED`. -/
  | mmapZero
deriving DecidableEq

structure MapCall (w : Nat) where
  kind : MapKind w
  range : Arc w
deriving DecidableEq

/-- The file has the bytes that a `PreadFull` of this length asks for. -/
def MapKind.hasBytes (file : ElfFile) (len : BitVec w) : MapKind w → Bool
  | pread offset => offset.toNat + len.toNat ≤ file.size
  | _ => true

/-- What the call puts at place `i` of its range, if it changes the bytes. -/
def MapKind.newByte (pg : PageSize w) (file : ElfFile) (i : Nat) :
    MapKind w → Option (Option (BitVec 8))
  | reserve => some (some 0)
  | munmap => some none
  | mprotect _ => none
  | pread offset => some (file.get? (offset.toNat + i))
  | mmapFile offset => some (file.mapped pg (offset.toNat + i))
  | memset => some (some 0)
  | mmapZero => some (some 0)

def MapKind.newProt : MapKind w → Option (Option Prot)
  | reserve => some (some .none)
  | munmap => some none
  | mprotect prot => some (some prot)
  | pread _ => none
  | mmapFile _ => some (some .readWrite)
  | memset => none
  | mmapZero => some (some .readWrite)

def MapCall.newByte (pg : PageSize w) (file : ElfFile) (c : MapCall w) (x : BitVec w) :
    Option (Option (BitVec 8)) :=
  if c.range.Has x then c.kind.newByte pg file (x - c.range.start).toNat else none

def MapCall.newProt (c : MapCall w) (x : BitVec w) : Option (Option Prot) :=
  if c.range.Has x then c.kind.newProt else none

/-- The space after these calls, none of which failed. -/
def Space.afterCalls (pg : PageSize w) (file : ElfFile) (s : Space w) (cs : List (MapCall w)) : Space w :=
  ⟨layers (MapCall.newByte pg file) cs s.byte, layers MapCall.newProt cs s.prot⟩

/-- The kernel: where it puts a reservation, and which calls it carries out (for `memset`:
without a fault). A call that fails changes nothing. -/
structure System (w : Nat) where
  page : PageSize w
  mmap : Space w → BitVec w → Option (BitVec w)
  accepts : Space w → MapCall w → Bool
  mmap_page : ∀ {s : Space w} {len raw : BitVec w}, mmap s len = some raw → Aligned page raw
  mmap_room : ∀ {s : Space w} {len raw : BitVec w}, mmap s len = some raw →
    raw.toNat + len.toNat ≤ 2 ^ w

/-- A process, with the calls it has made. -/
structure Process (w : Nat) where
  space : Space w
  calls : List (MapCall w)

/-- What `MapSegments` sets; 0 is the null pointer. -/
structure LinkerImage (w : Nat) where
  mapStart : BitVec w
  mapSize : BitVec w
  loadBias : BitVec w
  phdr : BitVec w
  phnum : Nat
  wantsBti : Bool
deriving DecidableEq

/-! ## The calls -/

section Calls

variable (pg : PageSize w) (bias : BitVec w)

/-- The two `munmap`s of the slack. -/
def Plan.trims (plan : Plan w) (raw : BitVec w) : List (MapCall w) :=
  let aligned := plan.aligned raw
  let tail := aligned + plan.span
  let rawEnd := raw + plan.reserve
  (if aligned ≠ raw then [⟨.munmap, ⟨raw, aligned - raw⟩⟩] else []) ++
    if tail < rawEnd then [⟨.munmap, ⟨tail, rawEnd - tail⟩⟩] else []

/-- The calls for a segment, up to the first that fails. -/
def segmentCalls (anonymous : Bool) (ph : Phdr w) : List (MapCall w) :=
  let segStart := bias + pageStart pg ph.vaddr
  let segFileEnd := bias + ph.vaddr + ph.filesz
  let segMemEnd := bias + pageEnd pg (ph.vaddr + ph.memsz)
  if anonymous then
    ⟨.mprotect .readWrite, ⟨segStart, segMemEnd - segStart⟩⟩ ::
      if 0 < ph.filesz then [⟨.pread ph.offset, ⟨bias + ph.vaddr, ph.filesz⟩⟩] else []
  else
    let filePageEnd := pageEnd pg segFileEnd
    (if 0 < ph.filesz then
      ⟨.mmapFile (pageStart pg ph.offset), ⟨segStart, filePageEnd - segStart⟩⟩ ::
        if ph.filesz < ph.memsz ∧ segFileEnd < filePageEnd then
          [⟨.memset, ⟨segFileEnd, filePageEnd - segFileEnd⟩⟩]
        else []
    else []) ++
      if filePageEnd < segMemEnd then
        [⟨.mmapZero, ⟨filePageEnd, segMemEnd - filePageEnd⟩⟩]
      else []

def loads (phdrs : List (Phdr w)) : List (Phdr w) := phdrs.filter fun ph => ph.type = .load

/-- The pages of a header, and the call that protects them. -/
def protectCall (prot : Prot) (ph : Phdr w) : MapCall w :=
  let start := bias + pageStart pg ph.vaddr
  let stop := bias + pageEnd pg (ph.vaddr + ph.memsz)
  ⟨.mprotect prot, ⟨start, stop - start⟩⟩

/-- The protection of a segment; `bti` says that the target has BTI and the module wants it. -/
def segmentProt (bti : Bool) (ph : Phdr w) : Prot :=
  let prot := toProt ph.flags
  { prot with bti := bti && prot.exec }

end Calls

section Functions

variable (sys : System w) (file : ElfFile)

def makeCall (c : MapCall w) (p : Process w) : Bool × Process w :=
  if sys.accepts p.space c ∧ c.kind.hasBytes file c.range.len then
    (true, ⟨p.space.afterCalls sys.page file [c], p.calls ++ [c]⟩)
  else (false, ⟨p.space, p.calls ++ [c]⟩)

/-- A loop that ends when a round fails. -/
def untilFailure {α : Type} (step : α → Process w → Bool × Process w) :
    List α → Process w → Bool × Process w
  | [], p => (true, p)
  | a :: l, p =>
    match step a p with
    | (true, p) => untilFailure step l p
    | (false, p) => (false, p)

/-- The reservation at `raw`, without its slack; whether the trims fail is not looked at. -/
def reserveSpan (plan : Plan w) (raw : BitVec w) (p : Process w) : Process w :=
  let c : MapCall w := ⟨.reserve, ⟨raw, plan.reserve⟩⟩
  (plan.trims raw).foldl (fun p c => (makeCall sys file c p).2)
    ⟨p.space.afterCalls sys.page file [c], p.calls ++ [c]⟩

/-- The headers in the mapped image: at `PT_PHDR`, or where a segment holds the table. -/
def locatePhdr (ehdr : Ehdr w) (phdrs : List (Phdr w)) (bias : BitVec w) : BitVec w :=
  let phdr := (phdrs.find? fun ph => ph.type = .phdr).elim 0 fun ph => bias + ph.vaddr
  if phdr = 0 then
    (phdrs.find? fun ph =>
      ph.type = .load ∧ ph.offset ≤ ehdr.phoff ∧ ehdr.phoff < ph.offset + ph.filesz).elim 0
        fun ph => bias + ph.vaddr + (ehdr.phoff - ph.offset)
  else phdr

/-- `MapSegments`. `hasBti` is `GnuPropertyNoteHasBti`, of the note at an address. -/
def mapSegments (hasBti : Space w → BitVec w → BitVec w → Bool) (ehdr : Ehdr w)
    (phdrs : List (Phdr w)) (anonymous : Bool) (p : Process w) : Option (LinkerImage w) × Process w :=
  match planSegments sys.page phdrs with
  | none => (none, p)
  | some plan =>
    match sys.mmap p.space plan.reserve with
    | none => (none, p)
    | some raw =>
      let bias := plan.loadBias raw
      match untilFailure (makeCall sys file)
          ((loads phdrs).flatMap (segmentCalls sys.page bias anonymous))
          (reserveSpan sys file plan raw p) with
      | (false, p) => (none, p)
      | (true, p) =>
        let wantsBti := (phdrs.find? fun ph => ph.type = .gnuProperty).elim false
          fun ph => hasBti p.space (bias + ph.vaddr) ph.memsz
        (some ⟨plan.aligned raw, plan.span, bias, locatePhdr ehdr phdrs bias, ehdr.phnum, wantsBti⟩, p)

/-- The protection of a segment; one with BTI that is refused is tried again without it. -/
def protectSegment (aarch64 : Bool) (img : LinkerImage w) (ph : Phdr w) (p : Process w) : Bool × Process w :=
  if ph.type = .load then
    let prot := segmentProt (aarch64 && img.wantsBti) ph
    match makeCall sys file (protectCall sys.page img.loadBias prot ph) p with
    | (true, p) => (true, p)
    | (false, p) =>
      if prot.bti then makeCall sys file (protectCall sys.page img.loadBias { prot with bti := false } ph) p
      else (false, p)
  else (true, p)

/-- `SetSegmentProtections`, where `table` is what is found at `phdr_`. -/
def setSegmentProtections (aarch64 : Bool) (img : LinkerImage w) (table : List (Phdr w)) (p : Process w) :
    Bool × Process w :=
  untilFailure (protectSegment sys file aarch64 img) table p

/-- `ApplyRelro`, where `table` is what is found at `phdr_`. -/
def applyRelro (img : LinkerImage w) (table : List (Phdr w)) (p : Process w) : Process w :=
  (table.filter fun ph => ph.type = .gnuRelro).foldl
    (fun p ph => (makeCall sys file (protectCall sys.page img.loadBias .readOnly ph) p).2) p

end Functions

/-! ## Staying inside the reservation -/

/-- What is left of the reservation after the trims. -/
def Plan.Kept (plan : Plan w) (raw x : BitVec w) : Prop :=
  (⟨raw, plan.reserve⟩ : Arc w).Has x ∧ ∀ c ∈ plan.trims raw, ¬ c.range.Has x

/-- The call maps over its range, reads into it, zeroes or protects it. -/
def MapKind.changes : MapKind w → Bool
  | reserve => false
  | munmap => false
  | _ => true

/-- The call changes nothing outside the mapping, as it is kept of the reservation. -/
def LinkerImage.Contains (img : LinkerImage w) (plan : Plan w) (raw : BitVec w) (c : MapCall w) : Prop :=
  c.kind.changes → ∀ x, c.range.Has x →
    (⟨img.mapStart, img.mapSize⟩ : Arc w).Has x ∧ plan.Kept raw x

/-- The mapping, in the addresses of the file. -/
def Plan.extent (plan : Plan w) : Arc w := ⟨plan.minVaddr, plan.span⟩

section Ranges

variable (pg : PageSize w) (bias : BitVec w)

def pageRange (ph : Phdr w) : Arc w :=
  ⟨pageStart pg ph.vaddr, pageEnd pg (ph.vaddr + ph.memsz) - pageStart pg ph.vaddr⟩

/-- The pages of the bytes that a segment has in the file. -/
def fileRange (ph : Phdr w) : Arc w :=
  ⟨pageStart pg ph.vaddr, pageEnd pg (ph.vaddr + ph.filesz) - pageStart pg ph.vaddr⟩

/-- The rest of the last of them. -/
def tailRange (ph : Phdr w) : Arc w :=
  ⟨ph.vaddr + ph.filesz, pageEnd pg (ph.vaddr + ph.filesz) - (ph.vaddr + ph.filesz)⟩

/-- The pages after it. -/
def bssRange (ph : Phdr w) : Arc w :=
  ⟨pageEnd pg (ph.vaddr + ph.filesz),
    pageEnd pg (ph.vaddr + ph.memsz) - pageEnd pg (ph.vaddr + ph.filesz)⟩

/-- The rest of the page is zeroed, if there is one below the end of the address space. -/
def ZeroesTail (ph : Phdr w) : Prop :=
  0 < ph.filesz ∧ ph.filesz < ph.memsz ∧
    bias + (ph.vaddr + ph.filesz) < bias + pageEnd pg (ph.vaddr + ph.filesz)

def MapsBss (ph : Phdr w) : Prop :=
  bias + pageEnd pg (ph.vaddr + ph.filesz) < bias + pageEnd pg (ph.vaddr + ph.memsz)

instance (ph : Phdr w) : Decidable (ZeroesTail pg bias ph) := inferInstanceAs (Decidable (_ ∧ _))

instance (ph : Phdr w) : Decidable (MapsBss pg bias ph) := inferInstanceAs (Decidable (_ < _))

end Ranges

section Tables

variable (pg : PageSize w) (phdrs : List (Phdr w))

/-- None of the sums that the code makes of the headers wraps: the ends of the segments in memory
and in the file, rounded up to a page, and the length of the reservation. -/
def Roomy : Prop :=
  (∀ a ∈ loads phdrs, a.vaddr.toNat + max a.memsz.toNat a.filesz.toNat + 2 ^ pg.bits ≤ 2 ^ w) ∧
    ∀ a ∈ loads phdrs, ∀ b ∈ loads phdrs, ∀ c ∈ loads phdrs,
      (pageEnd pg (b.vaddr + b.memsz)).toNat - (pageStart pg a.vaddr).toNat +
        max c.align.toNat (2 ^ pg.bits) < 2 ^ w

instance : Decidable (Roomy pg phdrs) := inferInstanceAs (Decidable (_ ∧ _))

/-- The address lies from the first page of a segment on and before the end of the last page of
one. -/
def Between (x : BitVec w) : Prop :=
  ∃ a, a ∈ loads phdrs ∧ ∃ b, b ∈ loads phdrs ∧
    pageStart pg a.vaddr ≤ x ∧ x < pageEnd pg (b.vaddr + b.memsz)

instance (x : BitVec w) : Decidable (Between pg phdrs x) :=
  inferInstanceAs (Decidable (∃ a, a ∈ loads phdrs ∧ ∃ b, b ∈ loads phdrs ∧ _))

/-- The bytes that the segments have in the file, and the pages of the headers that the later
functions find in the mapped image, lie among the segments. -/
structure TablesInside (protTable relroTable : List (Phdr w)) : Prop where
  files : ∀ ph ∈ loads phdrs, ∀ x, (⟨ph.vaddr, ph.filesz⟩ : Arc w).Has x → Between pg phdrs x
  protections : ∀ ph ∈ loads protTable, ∀ x, (pageRange pg ph).Has x → Between pg phdrs x
  relro : ∀ ph ∈ relroTable, ph.type = .gnuRelro → ∀ x, (pageRange pg ph).Has x → Between pg phdrs x

/-- Whatever the kernel, the file and the address of the reservation are: if `MapSegments`
succeeds, every range that a call of the three functions changes lies in what is kept of the
reservation. -/
def StaysInside (anonymous aarch64 : Bool) (protTable relroTable : List (Phdr w)) : Prop :=
  ∀ (sys : System w) (file : ElfFile) (hasBti : Space w → BitVec w → BitVec w → Bool) (ehdr : Ehdr w)
    (plan : Plan w) (raw : BitVec w) (img : LinkerImage w) (s s₁ s₂ : Space w) (p : Process w),
    sys.page = pg → planSegments pg phdrs = some plan → sys.mmap s plan.reserve = some raw →
    mapSegments sys file hasBti ehdr phdrs anonymous ⟨s, []⟩ = (some img, p) →
    ∀ c ∈ p.calls ++ (setSegmentProtections sys file aarch64 img protTable ⟨s₁, []⟩).2.calls ++
      (applyRelro sys file img relroTable ⟨s₂, []⟩).calls, img.Contains plan raw c

end Tables

/-- A kernel that puts every reservation at the same address, if there is room, and refuses
nothing. -/
def openSystem (pg : PageSize w) (base : BitVec w) (hbase : Aligned pg base) : System w where
  page := pg
  mmap _ len := if base.toNat + len.toNat ≤ 2 ^ w then some base else none
  accepts _ _ := true
  mmap_page h := by
    split at h
    · cases h
      exact hbase
    · cases h
  mmap_room h := by
    split at h
    · next hroom =>
      cases h
      exact hroom
    · cases h

namespace MappingLemmas

/-! ## Calls -/

section Calls

variable {pg : PageSize w} {bias : BitVec w}

/-- The calls for a segment, by ranges in the addresses of the file. -/
theorem segmentCalls_eq (hbias : Aligned pg bias) (anonymous : Bool) (ph : Phdr w) :
    segmentCalls pg bias anonymous ph =
      if anonymous then
        ⟨.mprotect .readWrite, (pageRange pg ph).shift bias⟩ ::
          if 0 < ph.filesz then [⟨.pread ph.offset, Arc.shift bias ⟨ph.vaddr, ph.filesz⟩⟩] else []
      else
        (if 0 < ph.filesz then
          ⟨.mmapFile (pageStart pg ph.offset), (fileRange pg ph).shift bias⟩ ::
            if ZeroesTail pg bias ph then [⟨.memset, (tailRange pg ph).shift bias⟩] else []
        else []) ++
          if MapsBss pg bias ph then [⟨.mmapZero, (bssRange pg ph).shift bias⟩] else [] := by
  have hend : pageEnd pg (bias + (ph.vaddr + ph.filesz)) = bias + pageEnd pg (ph.vaddr + ph.filesz) :=
    ceil_add hbias _
  simp only [segmentCalls, add_assoc, hend, add_sub_add_left_eq_sub]
  by_cases hfile : 0 < ph.filesz
  · simp only [hfile, if_true, ZeroesTail, true_and]
    rfl
  · simp only [hfile, if_false]
    rfl

theorem protectCall_eq (prot : Prot) (ph : Phdr w) :
    protectCall pg bias prot ph = ⟨.mprotect prot, (pageRange pg ph).shift bias⟩ := by
  rw [protectCall, add_sub_add_left_eq_sub]
  rfl

theorem forall_segmentCalls (hbias : Aligned pg bias) (anonymous : Bool) (ph : Phdr w)
    (P : MapCall w → Prop) :
    (∀ c ∈ segmentCalls pg bias anonymous ph, P c) ↔
      (anonymous → P ⟨.mprotect .readWrite, (pageRange pg ph).shift bias⟩) ∧
      (anonymous → 0 < ph.filesz → P ⟨.pread ph.offset, Arc.shift bias ⟨ph.vaddr, ph.filesz⟩⟩) ∧
      (¬ anonymous → 0 < ph.filesz →
        P ⟨.mmapFile (pageStart pg ph.offset), (fileRange pg ph).shift bias⟩) ∧
      (¬ anonymous → ZeroesTail pg bias ph → P ⟨.memset, (tailRange pg ph).shift bias⟩) ∧
      (¬ anonymous → MapsBss pg bias ph → P ⟨.mmapZero, (bssRange pg ph).shift bias⟩) := by
  have hfile : ZeroesTail pg bias ph → 0 < ph.filesz := And.left
  rw [segmentCalls_eq hbias]
  cases anonymous with
  | true => split <;> simp_all
  | false =>
    by_cases h0 : 0 < ph.filesz <;> by_cases h1 : ZeroesTail pg bias ph <;>
      by_cases h2 : MapsBss pg bias ph <;> simp_all

end Calls

theorem mem_loads {phdrs : List (Phdr w)} {ph : Phdr w} :
    ph ∈ loads phdrs ↔ ph ∈ phdrs ∧ ph.type = .load := by
  rw [loads, mem_filter, decide_eq_true_iff]

theorem loads_cons (ph : Phdr w) (phdrs : List (Phdr w)) :
    loads (ph :: phdrs) = if ph.type = .load then ph :: loads phdrs else loads phdrs := by
  simp only [loads, filter_cons, decide_eq_true_eq]

/-! ## The extent -/

/-- What the first is wide enough for, the second is. -/
structure Le (plan plan' : Plan w) : Prop where
  align : plan.maxAlign ≤ plan'.maxAlign
  low : plan'.minVaddr ≤ plan.minVaddr
  high : plan.maxVaddr ≤ plan'.maxVaddr

def planOf (ph : Phdr w) : Plan w := ⟨ph.align, ph.vaddr, ph.vaddr + ph.memsz⟩

theorem Le.trans {a b c : Plan w} (h : Le a b) (h' : Le b c) : Le a c :=
  ⟨BitVec.le_trans h.align h'.align, BitVec.le_trans h'.low h.low, BitVec.le_trans h.high h'.high⟩

theorem le_add (plan : Plan w) (ph : Phdr w) :
    Le plan (plan.add ph) ∧ (ph.type = .load → Le (planOf ph) (plan.add ph)) := by
  have hmax : ∀ a b : BitVec w, a ≤ (if a < b then b else a) ∧ b ≤ if a < b then b else a := by
    intro a b
    simp only [BitVec.lt_def, BitVec.le_def]
    split <;> omega
  have hmin : ∀ a b : BitVec w, (if b < a then b else a) ≤ a ∧ (if b < a then b else a) ≤ b := by
    intro a b
    simp only [BitVec.lt_def, BitVec.le_def]
    split <;> omega
  rw [Plan.add]
  split
  · exact ⟨⟨(hmax _ _).1, (hmin _ _).1, (hmax _ _).1⟩, fun _ => ⟨(hmax _ _).2, (hmin _ _).2, (hmax _ _).2⟩⟩
  · next hload => exact ⟨⟨BitVec.le_refl _, BitVec.le_refl _, BitVec.le_refl _⟩, fun h => absurd h hload⟩

/-- The loop over the headers leaves a plan for all of them. -/
theorem le_foldl (phdrs : List (Phdr w)) (plan : Plan w) :
    Le plan (phdrs.foldl Plan.add plan) ∧
      ∀ ph ∈ loads phdrs, Le (planOf ph) (phdrs.foldl Plan.add plan) := by
  induction phdrs generalizing plan with
  | nil => exact ⟨⟨BitVec.le_refl _, BitVec.le_refl _, BitVec.le_refl _⟩, nofun⟩
  | cons ph phdrs ih =>
    obtain ⟨hfirst, hrest⟩ := ih (plan.add ph)
    obtain ⟨hadd, hself⟩ := le_add plan ph
    refine ⟨hadd.trans hfirst, fun ph' hph' => ?_⟩
    obtain ⟨hmem, hload⟩ := mem_loads.mp hph'
    rcases mem_cons.mp hmem with rfl | hmem
    · exact (hself hload).trans hfirst
    · exact hrest ph' (mem_loads.mpr ⟨hmem, hload⟩)

/-- A field that the loop takes from the headers is that of the first plan or of a header. -/
theorem foldl_attains {f : Plan w → BitVec w} {g : Phdr w → BitVec w}
    (hadd : ∀ plan ph, f (plan.add ph) = f plan ∨ ph.type = .load ∧ f (plan.add ph) = g ph)
    (phdrs : List (Phdr w)) (plan : Plan w) :
    f (phdrs.foldl Plan.add plan) = f plan ∨ ∃ ph ∈ loads phdrs, f (phdrs.foldl Plan.add plan) = g ph := by
  induction phdrs generalizing plan with
  | nil => exact .inl rfl
  | cons ph phdrs ih =>
    have hmem : ∀ ph' ∈ loads phdrs, ph' ∈ loads (ph :: phdrs) := fun ph' h =>
      mem_loads.mpr ⟨mem_cons_of_mem _ (mem_loads.mp h).1, (mem_loads.mp h).2⟩
    rcases ih (plan.add ph) with heq | ⟨ph', hph', heq⟩
    · refine (hadd plan ph).imp heq.trans fun ⟨hload, hg⟩ => ?_
      exact ⟨ph, mem_loads.mpr ⟨mem_cons_self, hload⟩, heq.trans hg⟩
    · exact .inr ⟨ph', hmem ph' hph', heq⟩

section Reservation

variable {pg : PageSize w} {phdrs : List (Phdr w)} {plan : Plan w} {raw : BitVec w}

/-- The plan is one for all segments and the size of a page, and no wider than they ask for. -/
theorem planSegments_some (h : planSegments pg phdrs = some plan) :
    ∃ t : Plan w, plan = ⟨t.maxAlign, pageStart pg t.minVaddr, pageEnd pg t.maxVaddr⟩ ∧
      pg.bytes ≤ t.maxAlign ∧ (∀ ph ∈ loads phdrs, Le (planOf ph) t) ∧
      (t.maxAlign = pg.bytes ∨ ∃ c ∈ loads phdrs, t.maxAlign = c.align) ∧
      (∃ a ∈ loads phdrs, t.minVaddr = a.vaddr) ∧
      ∃ b ∈ loads phdrs, t.maxVaddr = b.vaddr + b.memsz := by
  unfold planSegments at h
  dsimp only at h
  split at h
  · cases h
  · next hmin =>
    obtain ⟨hfirst, hall⟩ := le_foldl phdrs ⟨pg.bytes, BitVec.allOnes w, 0⟩
    have halign := foldl_attains (f := Plan.maxAlign) (g := Phdr.align)
      (fun plan ph => by rw [Plan.add]; split_ifs <;> simp_all) phdrs
      ⟨pg.bytes, BitVec.allOnes w, 0⟩
    have hlow := foldl_attains (f := Plan.minVaddr) (g := Phdr.vaddr)
      (fun plan ph => by rw [Plan.add]; split_ifs <;> simp_all) phdrs
      ⟨pg.bytes, BitVec.allOnes w, 0⟩
    have hhigh := foldl_attains (f := Plan.maxVaddr) (g := fun ph => ph.vaddr + ph.memsz)
      (fun plan ph => by rw [Plan.add]; split_ifs <;> simp_all) phdrs
      ⟨pg.bytes, BitVec.allOnes w, 0⟩
    obtain ⟨a, ha, hlow⟩ := hlow.resolve_left hmin
    refine ⟨_, (Option.some.inj h).symm, hfirst.align, hall, halign, ⟨a, ha, hlow⟩, ?_⟩
    rcases hhigh with hzero | hhigh
    · -- nothing ends above 0, so the segment that starts lowest ends there
      refine ⟨a, ha, hzero.trans ?_⟩
      have hle := (hall a ha).high
      rw [hzero] at hle
      exact (BitVec.le_zero_iff.mp hle).symm
    · exact hhigh

theorem maxAlign_pos (h : planSegments pg phdrs = some plan) : 0 < plan.maxAlign.toNat := by
  obtain ⟨t, rfl, hle, -⟩ := planSegments_some h
  have hbytes : pg.bytes.toNat ≤ t.maxAlign.toNat := hle
  rw [pg.toNat_bytes] at hbytes
  exact Nat.lt_of_lt_of_le (Nat.two_pow_pos _) hbytes

theorem loadBias_aligned (h : planSegments pg phdrs = some plan) (hraw : Aligned pg raw) :
    Aligned pg (plan.loadBias raw) := by
  obtain ⟨t, rfl, -⟩ := planSegments_some h
  exact Aligned.sub (aligned_ceil hraw _) (aligned_floor pg _)

theorem loadBias_add (plan : Plan w) (raw : BitVec w) :
    plan.extent.shift (plan.loadBias raw) = ⟨plan.aligned raw, plan.span⟩ := by
  rw [Arc.shift, Plan.extent, Plan.loadBias, sub_add_cancel]

/-- If the length of the reservation does not wrap, the trims leave the mapping alone. -/
theorem kept_of_extent (hpos : 0 < plan.maxAlign.toNat)
    (hwrap : plan.span.toNat + plan.maxAlign.toNat < 2 ^ w) {x : BitVec w}
    (hx : (⟨plan.aligned raw, plan.span⟩ : Arc w).Has x) : plan.Kept raw x := by
  have hlen : plan.reserve.toNat = plan.span.toNat + plan.maxAlign.toNat := BitVec.toNat_add_of_lt hwrap
  have hup : (plan.aligned raw - raw).toNat < plan.maxAlign.toNat := ceil_sub_lt hpos raw
  have hlt : x - plan.aligned raw < plan.span := hx
  have hx' : (x - plan.aligned raw).toNat < plan.span.toNat := hlt
  have hsum : (x - raw).toNat = (plan.aligned raw - raw).toNat + (x - plan.aligned raw).toNat := by
    rw [← BitVec.toNat_add_of_lt (by omega)]
    congr 1
    ring
  refine ⟨?_, fun c hc => ?_⟩
  · rw [Arc.Has, BitVec.lt_def, hsum, hlen]
    omega
  · rw [Plan.trims] at hc
    rcases mem_append.mp hc with hc | hc <;> split at hc
    · rw [mem_singleton.mp hc, Arc.Has, BitVec.lt_def, hsum]
      exact Nat.not_lt.mpr (Nat.le_add_right _ _)
    · cases hc
    · -- `x` lies before the tail, so it is a long way around from there
      have hback : raw + plan.reserve - (plan.aligned raw + plan.span) =
          plan.maxAlign - (plan.aligned raw - raw) := by
        rw [Plan.reserve]
        ring
      have hway : x - (plan.aligned raw + plan.span) = (x - plan.aligned raw) - plan.span := by ring
      rw [mem_singleton.mp hc, Arc.Has, BitVec.lt_def, hback, hway,
        BitVec.toNat_sub_of_lt hlt, BitVec.toNat_sub_of_le (BitVec.le_of_lt hup)]
      omega
    · cases hc

/-! ## Tables without wrapping sums -/

section Roomy

variable (hroom : Roomy pg phdrs) {ph : Phdr w}

include hroom

/-- The ends of a segment are sums, and can be rounded up to a page. -/
theorem ends_of_roomy (hph : ph ∈ loads phdrs) :
    (ph.vaddr + ph.memsz).toNat = ph.vaddr.toNat + ph.memsz.toNat ∧ Room pg (ph.vaddr + ph.memsz) ∧
      (ph.vaddr + ph.filesz).toNat = ph.vaddr.toNat + ph.filesz.toNat ∧ Room pg (ph.vaddr + ph.filesz) := by
  have hends := hroom.1 ph hph
  have hpage := Nat.two_pow_pos pg.bits
  have hmem : (ph.vaddr + ph.memsz).toNat = ph.vaddr.toNat + ph.memsz.toNat :=
    BitVec.toNat_add_of_lt (by omega)
  have hfile : (ph.vaddr + ph.filesz).toNat = ph.vaddr.toNat + ph.filesz.toNat :=
    BitVec.toNat_add_of_lt (by omega)
  refine ⟨hmem, ?_, hfile, ?_⟩
  · rw [Room, hmem]
    omega
  · rw [Room, hfile]
    omega

/-- The plan spans the pages of every segment. -/
theorem within_plan (hplan : planSegments pg phdrs = some plan) (hph : ph ∈ loads phdrs) :
    plan.minVaddr ≤ pageStart pg ph.vaddr ∧ pageEnd pg (ph.vaddr + ph.memsz) ≤ plan.maxVaddr := by
  obtain ⟨t, rfl, -, hall, -, -, b, hb, hhigh⟩ := planSegments_some hplan
  have hroomy : Room pg t.maxVaddr := hhigh ▸ (ends_of_roomy hroom hb).2.1
  exact ⟨floor_mono (hall ph hph).low, ceil_mono (hall ph hph).high hroomy⟩

/-- The extent is what lies between the segments, and the reservation has room for it. -/
theorem extent_of_roomy (hplan : planSegments pg phdrs = some plan) :
    plan.span.toNat + plan.maxAlign.toNat < 2 ^ w ∧
      plan.minVaddr ≤ plan.maxVaddr ∧ ∀ x, plan.extent.Has x ↔ Between pg phdrs x := by
  obtain ⟨t, rfl, -, hall, halign, ⟨a, ha, hlow⟩, b, hb, hhigh⟩ := planSegments_some hplan
  obtain ⟨hbsum, hbroom, -⟩ := ends_of_roomy hroom hb
  have hroomy : Room pg t.maxVaddr := hhigh ▸ hbroom
  have hstart : pageStart pg t.minVaddr ≤ t.minVaddr := floor_le pg _
  have hup : t.maxVaddr ≤ pageEnd pg t.maxVaddr := le_ceil hroomy
  have hends : t.minVaddr ≤ t.maxVaddr := by
    refine BitVec.le_trans (hlow ▸ ?_) (hall a ha).high
    show a.vaddr.toNat ≤ (a.vaddr + a.memsz).toNat
    rw [(ends_of_roomy hroom ha).1]
    exact Nat.le_add_right _ _
  have hle : pageStart pg t.minVaddr ≤ pageEnd pg t.maxVaddr :=
    BitVec.le_trans hstart (BitVec.le_trans hends hup)
  refine ⟨?_, hle, fun x => ?_⟩
  · rw [Plan.span, BitVec.toNat_sub_of_le hle, hlow, hhigh]
    rcases halign with heq | ⟨c, hc, heq⟩
    · have := hroom.2 a ha b hb b hb
      rw [heq, pg.toNat_bytes]
      omega
    · have := hroom.2 a ha b hb c hc
      rw [heq]
      omega
  · rw [Plan.extent, Plan.span, Arc.has_sub_iff hle]
    constructor
    · rintro ⟨h1, h2⟩
      exact ⟨a, ha, b, hb, hlow ▸ h1, hhigh ▸ h2⟩
    · rintro ⟨a', ha', b', hb', h1, h2⟩
      exact ⟨BitVec.le_trans (within_plan hroom hplan ha').1 h1,
        Nat.lt_of_lt_of_le h2 (within_plan hroom hplan hb').2⟩

theorem mapping_has_iff (hplan : planSegments pg phdrs = some plan) (u : BitVec w) :
    (⟨plan.aligned raw, plan.span⟩ : Arc w).Has (plan.loadBias raw + u) ↔ Between pg phdrs u := by
  rw [← loadBias_add, Arc.shift_has]
  exact (extent_of_roomy hroom hplan).2.2 u

theorem kept_of_between (hplan : planSegments pg phdrs = some plan) {u : BitVec w}
    (h : Between pg phdrs u) : plan.Kept raw (plan.loadBias raw + u) :=
  kept_of_extent (maxAlign_pos hplan) (extent_of_roomy hroom hplan).1 ((mapping_has_iff hroom hplan u).mpr h)

/-- A call is contained if its range lies between the segments. -/
theorem contains_iff (hplan : planSegments pg phdrs = some plan) {img : LinkerImage w}
    (hstart : img.mapStart = plan.aligned raw) (hsize : img.mapSize = plan.span) {kind : MapKind w}
    (hkind : kind.changes) (r : Arc w) :
    img.Contains plan raw ⟨kind, r.shift (plan.loadBias raw)⟩ ↔ ∀ x, r.Has x → Between pg phdrs x := by
  rw [LinkerImage.Contains, hstart, hsize]
  constructor
  · intro h x hx
    exact (mapping_has_iff hroom hplan x).mp (h hkind _ ((Arc.shift_has _ r x).mpr hx)).1
  · intro h _ x hx
    obtain ⟨u, rfl⟩ : ∃ u, plan.loadBias raw + u = x := ⟨x - plan.loadBias raw, add_sub_cancel _ _⟩
    have hin := h u ((Arc.shift_has _ r u).mp hx)
    exact ⟨(mapping_has_iff hroom hplan u).mpr hin, kept_of_between hroom hplan hin⟩

/-- The load bias keeps the order of the extent, of which nothing comes to lie at the end of the
address space. -/
theorem toNat_loadBias (hplan : planSegments pg phdrs = some plan)
    (hraw : raw.toNat + plan.reserve.toNat ≤ 2 ^ w) {u : BitVec w} (hlow : plan.minVaddr ≤ u)
    (hhigh : u ≤ plan.maxVaddr) :
    (plan.loadBias raw + u).toNat = (plan.aligned raw).toNat + (u.toNat - plan.minVaddr.toNat) ∧
      raw ≤ plan.aligned raw := by
  obtain ⟨hwrap, hle, -⟩ := extent_of_roomy hroom hplan
  have hpage := Nat.two_pow_pos pg.bits
  have hlen : plan.reserve.toNat = plan.span.toNat + plan.maxAlign.toNat :=
    BitVec.toNat_add_of_lt (by omega)
  have hup : (plan.aligned raw - raw).toNat < plan.maxAlign.toNat := ceil_sub_lt (maxAlign_pos hplan) raw
  have hspan : plan.span.toNat = plan.maxVaddr.toNat - plan.minVaddr.toNat := BitVec.toNat_sub_of_le hle
  have haligned : (plan.aligned raw).toNat = raw.toNat + (plan.aligned raw - raw).toNat := by
    rw [← BitVec.toNat_add_of_lt (by omega), add_sub_cancel]
  have hlow' : plan.minVaddr.toNat ≤ u.toNat := hlow
  have hhigh' : u.toNat ≤ plan.maxVaddr.toNat := hhigh
  refine ⟨?_, ?_⟩
  · rw [Plan.loadBias, sub_add_eq_add_sub, add_sub_assoc, BitVec.toNat_add_of_lt,
      BitVec.toNat_sub_of_le hlow]
    rw [BitVec.toNat_sub_of_le hlow]
    omega
  · rw [BitVec.le_def, haligned]
    exact Nat.le_add_right _ _

theorem loadBias_lt_iff (hplan : planSegments pg phdrs = some plan)
    (hraw : raw.toNat + plan.reserve.toNat ≤ 2 ^ w) {u v : BitVec w} (hu : plan.minVaddr ≤ u)
    (hu' : u ≤ plan.maxVaddr) (hv : plan.minVaddr ≤ v) (hv' : v ≤ plan.maxVaddr) :
    plan.loadBias raw + u < plan.loadBias raw + v ↔ u < v := by
  have hlow : plan.minVaddr.toNat ≤ u.toNat := hu
  have hlow' : plan.minVaddr.toNat ≤ v.toNat := hv
  rw [BitVec.lt_def, BitVec.lt_def, (toNat_loadBias hroom hplan hraw hu hu').1,
    (toNat_loadBias hroom hplan hraw hv hv').1]
  omega

theorem pageStart_le_end (hph : ph ∈ loads phdrs) :
    pageStart pg ph.vaddr ≤ ph.vaddr + ph.memsz ∧ pageStart pg ph.vaddr ≤ ph.vaddr + ph.filesz := by
  obtain ⟨hmem, -, hfile, -⟩ := ends_of_roomy hroom hph
  refine ⟨BitVec.le_trans (floor_le pg _) ?_, BitVec.le_trans (floor_le pg _) ?_⟩
  · rw [BitVec.le_def, hmem]
    exact Nat.le_add_right _ _
  · rw [BitVec.le_def, hfile]
    exact Nat.le_add_right _ _

/-- The ranges of a segment, by their ends. -/
theorem ranges_of_roomy (hph : ph ∈ loads phdrs) (x : BitVec w) :
    ((pageRange pg ph).Has x ↔ pageStart pg ph.vaddr ≤ x ∧ x < pageEnd pg (ph.vaddr + ph.memsz)) ∧
    ((fileRange pg ph).Has x ↔ pageStart pg ph.vaddr ≤ x ∧ x < pageEnd pg (ph.vaddr + ph.filesz)) ∧
    ((tailRange pg ph).Has x ↔ ph.vaddr + ph.filesz ≤ x ∧ x < pageEnd pg (ph.vaddr + ph.filesz)) ∧
    ((⟨ph.vaddr, ph.filesz⟩ : Arc w).Has x ↔ ph.vaddr ≤ x ∧ x < ph.vaddr + ph.filesz) := by
  obtain ⟨hmem, hroom₁, hfile, hroom₂⟩ := ends_of_roomy hroom hph
  obtain ⟨hstart₁, hstart₂⟩ := pageStart_le_end hroom hph
  have hbytes : ph.vaddr ≤ ph.vaddr + ph.filesz := by
    rw [BitVec.le_def, hfile]
    exact Nat.le_add_right _ _
  refine ⟨Arc.has_sub_iff (BitVec.le_trans hstart₁ (le_ceil hroom₁)) x,
    Arc.has_sub_iff (BitVec.le_trans hstart₂ (le_ceil hroom₂)) x, Arc.has_sub_iff (le_ceil hroom₂) x, ?_⟩
  rw [← Arc.has_sub_iff hbytes, add_sub_cancel_left]

/-- The pages of the file end between the segments if its bytes do. -/
theorem fileEnd_le (hph : ph ∈ loads phdrs)
    (hfiles : ∀ x, (⟨ph.vaddr, ph.filesz⟩ : Arc w).Has x → Between pg phdrs x) :
    ∃ b ∈ loads phdrs, pageEnd pg (ph.vaddr + ph.filesz) ≤ pageEnd pg (b.vaddr + b.memsz) := by
  obtain ⟨hmem, hroom₁, hfile, hroom₂⟩ := ends_of_roomy hroom hph
  rcases Nat.eq_zero_or_pos ph.filesz.toNat with hzero | hpos
  · refine ⟨ph, hph, ceil_mono ?_ hroom₁⟩
    rw [BitVec.le_def, hmem, hfile, hzero]
    exact Nat.add_le_add_left (Nat.zero_le _) _
  · -- the last byte is before the end of a segment's last page, so no page of the file goes on after it
    have hlast : (ph.vaddr + ph.filesz - 1).toNat = ph.vaddr.toNat + ph.filesz.toNat - 1 := by
      rw [toNat_sub_one (by omega), hfile]
    have hhas : (⟨ph.vaddr, ph.filesz⟩ : Arc w).Has (ph.vaddr + ph.filesz - 1) := by
      rw [(ranges_of_roomy hroom hph _).2.2.2, BitVec.le_def, BitVec.lt_def, hlast, hfile]
      omega
    obtain ⟨a, ha, b, hb, -, hlt⟩ := hfiles _ hhas
    refine ⟨b, hb, ceil_le hroom₂ (aligned_floor pg _) ?_⟩
    rw [BitVec.lt_def, hlast] at hlt
    rw [BitVec.le_def, hfile]
    exact Nat.le_of_pred_lt hlt

/-- The code compares addresses of the memory, the table has those of the file. -/
theorem bss_iff (hplan : planSegments pg phdrs = some plan) (hraw : raw.toNat + plan.reserve.toNat ≤ 2 ^ w)
    (hph : ph ∈ loads phdrs) (hend : pageEnd pg (ph.vaddr + ph.filesz) ≤ plan.maxVaddr) :
    MapsBss pg (plan.loadBias raw) ph ↔ pageEnd pg (ph.vaddr + ph.filesz) <
      pageEnd pg (ph.vaddr + ph.memsz) := by
  obtain ⟨-, hroom₁, -, hroom₂⟩ := ends_of_roomy hroom hph
  obtain ⟨hlow, hhigh⟩ := within_plan hroom hplan hph
  obtain ⟨hmem, hfile⟩ := pageStart_le_end hroom hph
  exact loadBias_lt_iff hroom hplan hraw
    (BitVec.le_trans hlow (BitVec.le_trans hfile (le_ceil hroom₂))) hend
    (BitVec.le_trans hlow (BitVec.le_trans hmem (le_ceil hroom₁))) hhigh

/-- What `MapSegments` changes for a segment lies between the segments if its bytes in the file do. -/
theorem segment_contained (hplan : planSegments pg phdrs = some plan) (haligned : Aligned pg raw)
    (hraw : raw.toNat + plan.reserve.toNat ≤ 2 ^ w) {img : LinkerImage w}
    (hstart : img.mapStart = plan.aligned raw) (hsize : img.mapSize = plan.span) (anonymous : Bool)
    (hph : ph ∈ loads phdrs) (hfiles : ∀ x, (⟨ph.vaddr, ph.filesz⟩ : Arc w).Has x → Between pg phdrs x) :
    ∀ c ∈ segmentCalls pg (plan.loadBias raw) anonymous ph, img.Contains plan raw c := by
  obtain ⟨hmem, hroom₁, hfile, hroom₂⟩ := ends_of_roomy hroom hph
  obtain ⟨b, hb, hend⟩ := fileEnd_le hroom hph hfiles
  have hcontains : ∀ kind : MapKind w, kind.changes → ∀ r : Arc w,
      img.Contains plan raw ⟨kind, r.shift (plan.loadBias raw)⟩ ↔ ∀ x, r.Has x → Between pg phdrs x :=
    fun _ => contains_iff hroom hplan hstart hsize
  have hstart' := (pageStart_le_end hroom hph).2
  rw [forall_segmentCalls (loadBias_aligned hplan haligned), hcontains _ rfl, hcontains _ rfl,
    hcontains _ rfl,
    hcontains _ rfl, hcontains _ rfl]
  refine ⟨fun _ x hx => ?_, fun _ _ => hfiles, fun _ _ x hx => ?_, fun _ _ x hx => ?_, fun _ hbss x hx => ?_⟩
  · exact ⟨ph, hph, ph, hph, (ranges_of_roomy hroom hph x).1.mp hx⟩
  · obtain ⟨hlow, hhigh⟩ := (ranges_of_roomy hroom hph x).2.1.mp hx
    exact ⟨ph, hph, b, hb, hlow, Nat.lt_of_lt_of_le hhigh hend⟩
  · obtain ⟨hlow, hhigh⟩ := (ranges_of_roomy hroom hph x).2.2.1.mp hx
    exact ⟨ph, hph, b, hb, BitVec.le_trans hstart' hlow, Nat.lt_of_lt_of_le hhigh hend⟩
  · have hlow : pageStart pg ph.vaddr ≤ pageEnd pg (ph.vaddr + ph.filesz) :=
      BitVec.le_trans hstart' (le_ceil hroom₂)
    have hlt := (bss_iff hroom hplan hraw hph (BitVec.le_trans hend (within_plan hroom hplan hb).2)).mp hbss
    have hx := (Arc.has_sub_iff (Nat.le_of_lt hlt) x).mp hx
    exact ⟨ph, hph, ph, hph, BitVec.le_trans hlow hx.1, hx.2⟩

end Roomy

end Reservation

/-! ## What a loop logs -/

section Logs

variable {sys : System w} {file : ElfFile} {P : MapCall w → Prop} {α : Type}
  {step : α → Process w → Bool × Process w}

theorem call_calls (c : MapCall w) (p : Process w) : (makeCall sys file c p).2.calls = p.calls ++ [c] := by
  rw [makeCall]
  split <;> rfl

theorem untilFailure_cons (step : α → Process w → Bool × Process w) (a : α) (l : List α) (p : Process w) :
    untilFailure step (a :: l) p =
      if (step a p).1 then untilFailure step l (step a p).2 else (false, (step a p).2) := by
  rw [untilFailure]
  generalize step a p = r
  obtain ⟨_ | _, p'⟩ := r <;> rfl

/-- What every round logs, the loop logs. -/
theorem forall_untilFailure {l : List α}
    (hstep : ∀ a ∈ l, ∀ p, (∀ c ∈ p.calls, P c) → ∀ c ∈ (step a p).2.calls, P c) {p : Process w}
    (hp : ∀ c ∈ p.calls, P c) : ∀ c ∈ (untilFailure step l p).2.calls, P c := by
  induction l generalizing p with
  | nil => exact hp
  | cons a l ih =>
    have hfirst := hstep a mem_cons_self p hp
    rw [untilFailure_cons]
    split
    · exact ih (fun b hb => hstep b (mem_cons_of_mem _ hb)) hfirst
    · exact hfirst

theorem untilFailure_ok {l : List α} (hok : ∀ a ∈ l, ∀ p, (step a p).1 = true) (p : Process w) :
    untilFailure step l p = (true, l.foldl (fun p a => (step a p).2) p) := by
  induction l generalizing p with
  | nil => rfl
  | cons a l ih =>
    rw [untilFailure_cons, if_pos (hok a mem_cons_self p)]
    exact ih (fun b hb => hok b (mem_cons_of_mem _ hb)) _

theorem forall_protectSegment {img : LinkerImage w} {aarch64 : Bool} {ph : Phdr w} {p : Process w}
    (hp : ∀ c ∈ p.calls, P c)
    (hph : ph.type = .load → ∀ prot, P (protectCall sys.page img.loadBias prot ph)) :
    ∀ c ∈ (protectSegment sys file aarch64 img ph p).2.calls, P c := by
  have hcall : ∀ prot q, ph.type = .load → (∀ c ∈ q.calls, P c) →
      ∀ c ∈ (makeCall sys file (protectCall sys.page img.loadBias prot ph) q).2.calls, P c := by
    intro prot q hload hq
    rw [call_calls, forall_mem_append, forall_mem_singleton]
    exact ⟨hq, hph hload prot⟩
  rw [protectSegment]
  split
  · next hload =>
    have hfirst := hcall (segmentProt (aarch64 && img.wantsBti) ph) p hload hp
    dsimp only
    revert hfirst
    generalize makeCall sys file _ p = r
    obtain ⟨_ | _, q⟩ := r
    · intro hfirst
      dsimp only
      split
      · exact hcall _ q hload hfirst
      · exact hfirst
    · exact id
  · exact hp

theorem foldl_call_calls (f : α → MapCall w) (l : List α) (p : Process w) :
    (l.foldl (fun p a => (makeCall sys file (f a) p).2) p).calls = p.calls ++ l.map f := by
  induction l generalizing p with
  | nil => simp
  | cons a l ih =>
    rw [foldl_cons, ih, call_calls, map_cons, append_assoc, singleton_append]

theorem applyRelro_calls (img : LinkerImage w) (table : List (Phdr w)) (p : Process w) :
    (applyRelro sys file img table p).calls = p.calls ++
      (table.filter fun ph => ph.type = .gnuRelro).map (protectCall sys.page img.loadBias .readOnly) :=
  foldl_call_calls _ _ p

theorem reserveSpan_calls (plan : Plan w) (raw : BitVec w) (p : Process w) :
    (reserveSpan sys file plan raw p).calls =
      p.calls ++ ⟨.reserve, ⟨raw, plan.reserve⟩⟩ :: plan.trims raw := by
  rw [reserveSpan, foldl_call_calls (fun c => c), map_id', append_assoc, singleton_append]

/-- A list of calls that all succeed is logged, and laid over the space. -/
theorem untilFailure_call {cs : List (MapCall w)} {p p' : Process w}
    (h : untilFailure (makeCall sys file) cs p = (true, p')) :
    p' = ⟨p.space.afterCalls sys.page file cs, p.calls ++ cs⟩ ∧
      ∀ c ∈ cs, c.kind.hasBytes file c.range.len = true := by
  induction cs generalizing p with
  | nil =>
    rw [append_nil]
    exact ⟨(Prod.mk.inj h).2.symm, nofun⟩
  | cons c cs ih =>
    rw [untilFailure_cons] at h
    split at h
    · next hok =>
      have hcall : (makeCall sys file c p).2 = ⟨p.space.afterCalls sys.page file [c], p.calls ++ [c]⟩ ∧
          c.kind.hasBytes file c.range.len = true := by
        rw [makeCall] at hok ⊢
        split at hok
        · next haccepted => exact ⟨by rw [if_pos haccepted], haccepted.2⟩
        · cases hok
      obtain ⟨hrest, hbytes⟩ := ih h
      refine ⟨?_, forall_mem_cons.mpr ⟨hcall.2, hbytes⟩⟩
      rw [hrest, hcall.1, append_assoc, singleton_append]
      rfl
    · cases h

section Accepts

variable (haccepts : ∀ s c, sys.accepts s c = true)

include haccepts

theorem makeCall_accepts {c : MapCall w} (hbytes : c.kind.hasBytes file c.range.len = true) (p : Process w) :
    (makeCall sys file c p).1 = true := by
  rw [makeCall, if_pos ⟨haccepts _ _, hbytes⟩]

theorem protectSegment_accepts (aarch64 : Bool) (img : LinkerImage w) (ph : Phdr w) (p : Process w) :
    protectSegment sys file aarch64 img ph p =
      (true, if ph.type = .load then (makeCall sys file (protectCall sys.page img.loadBias
        (segmentProt (aarch64 && img.wantsBti) ph) ph) p).2 else p) := by
  rw [protectSegment]
  split
  · dsimp only
    rw [makeCall, if_pos ⟨haccepts _ _, rfl⟩]
  · rfl

theorem setSegmentProtections_accepts (aarch64 : Bool) (img : LinkerImage w) (table : List (Phdr w))
    (p : Process w) :
    (setSegmentProtections sys file aarch64 img table p).1 = true ∧
      (setSegmentProtections sys file aarch64 img table p).2.calls = p.calls ++ (loads table).map fun ph =>
        protectCall sys.page img.loadBias (segmentProt (aarch64 && img.wantsBti) ph) ph := by
  rw [setSegmentProtections, untilFailure_ok fun ph _ p =>
    congrArg Prod.fst (protectSegment_accepts haccepts aarch64 img ph p)]
  refine ⟨rfl, ?_⟩
  induction table generalizing p with
  | nil => exact (append_nil _).symm
  | cons ph table ih =>
    rw [foldl_cons, protectSegment_accepts haccepts]
    refine (ih _).trans ?_
    rw [loads_cons]
    split
    · rw [call_calls, map_cons, append_assoc, singleton_append]
    · rfl

end Accepts

end Logs

/-! ## `MapSegments` -/

section MapSegments

variable {sys : System w} {file : ElfFile} {hasBti : Space w → BitVec w → BitVec w → Bool} {ehdr : Ehdr w}
  {phdrs : List (Phdr w)} {anonymous : Bool} {plan : Plan w} {raw : BitVec w} {img : LinkerImage w}
  {p p' : Process w}

theorem mapSegments_plan (h : mapSegments sys file hasBti ehdr phdrs anonymous p = (some img, p')) :
    ∃ plan raw, planSegments sys.page phdrs = some plan ∧ sys.mmap p.space plan.reserve = some raw := by
  rw [mapSegments] at h
  split at h
  · cases h
  · next plan hplan =>
    split at h
    · cases h
    · next raw hraw => exact ⟨plan, raw, hplan, hraw⟩

theorem mapSegments_some (hplan : planSegments sys.page phdrs = some plan)
    (hraw : sys.mmap p.space plan.reserve = some raw)
    (h : mapSegments sys file hasBti ehdr phdrs anonymous p = (some img, p')) :
    untilFailure (makeCall sys file)
        ((loads phdrs).flatMap (segmentCalls sys.page (plan.loadBias raw) anonymous))
        (reserveSpan sys file plan raw p) = (true, p') ∧
      img.mapStart = plan.aligned raw ∧ img.mapSize = plan.span ∧ img.loadBias = plan.loadBias raw := by
  simp only [mapSegments, hplan, hraw] at h
  split at h
  · cases h
  · next hrun =>
    cases h
    exact ⟨hrun, rfl, rfl, rfl⟩

/-- A kernel that refuses nothing lets the segments be mapped, if the file has their bytes or
they are mapped from it. -/
theorem mapSegments_accepts (sys : System w) (file : ElfFile)
    (hasBti : Space w → BitVec w → BitVec w → Bool) (ehdr : Ehdr w) (anonymous : Bool)
    (hplan : planSegments sys.page phdrs = some plan)
    (hraw : sys.mmap p.space plan.reserve = some raw) (haccepts : ∀ s c, sys.accepts s c = true)
    (hbytes : anonymous = true → ∀ ph ∈ loads phdrs, ph.offset.toNat + ph.filesz.toNat ≤ file.size) :
    ∃ img p', mapSegments sys file hasBti ehdr phdrs anonymous p = (some img, p') := by
  have hok : ∀ c ∈ (loads phdrs).flatMap (segmentCalls sys.page (plan.loadBias raw) anonymous), ∀ q,
      (makeCall sys file c q).1 = true := by
    intro c hc q
    obtain ⟨ph, hph, hc⟩ := mem_flatMap.mp hc
    refine makeCall_accepts haccepts ?_ q
    refine (forall_segmentCalls (loadBias_aligned hplan (sys.mmap_page hraw)) anonymous ph
      fun c => c.kind.hasBytes file c.range.len = true).mpr ?_ c hc
    exact ⟨fun _ => rfl, fun h _ => decide_eq_true (hbytes h ph hph), fun _ _ => rfl, fun _ _ => rfl,
      fun _ _ => rfl⟩
  simp only [mapSegments, hplan, hraw, untilFailure_ok hok]
  exact ⟨_, _, rfl⟩

/-- What is kept of the reservation is zero. -/
theorem reserveSpan_byte {x : BitVec w} (h : plan.Kept raw x) (p : Process w) :
    (reserveSpan sys file plan raw p).space.byte x = some 0 := by
  refine List.foldlRecOn (motive := fun p : Process w => p.space.byte x = some 0) (plan.trims raw) _ ?_
    fun p hp c hc => ?_
  · exact congrArg (Option.getD · _) (if_pos h.1)
  · rw [makeCall]
    split
    · exact (congrArg (Option.getD · _) (if_neg (h.2 c hc))).trans hp
    · exact hp

theorem trims_munmap {c : MapCall w} (hc : c ∈ plan.trims raw) : c.kind = .munmap := by
  rw [Plan.trims] at hc
  rcases mem_append.mp hc with hc | hc <;> split at hc
  all_goals first | rw [mem_singleton.mp hc] | cases hc

/-- The reservation and its trims change nothing that was mapped. -/
theorem contains_reserved {c : MapCall w}
    (hc : c ∈ ⟨.reserve, ⟨raw, plan.reserve⟩⟩ :: plan.trims raw) : img.Contains plan raw c := by
  intro hkind
  rcases mem_cons.mp hc with rfl | hc
  · cases hkind
  · rw [trims_munmap hc] at hkind
    cases hkind

/-- A table with a segment is mapped by a kernel that refuses nothing, if there is room. -/
theorem openSystem_maps {pg : PageSize w} {base : BitVec w} (hbase : Aligned pg base) (file : ElfFile)
    (ehdr : Ehdr w) (anonymous : Bool) (s : Space w) (hplan : planSegments pg phdrs = some plan)
    (hbytes : anonymous = true → ∀ ph ∈ loads phdrs, ph.offset.toNat + ph.filesz.toNat ≤ file.size)
    (hfits : base.toNat + plan.reserve.toNat ≤ 2 ^ w) :
    (openSystem pg base hbase).mmap s plan.reserve = some base ∧
      ∃ img p, mapSegments (openSystem pg base hbase) file (fun _ _ _ => false) ehdr phdrs anonymous ⟨s, []⟩ =
        (some img, p) :=
  have hraw : (openSystem pg base hbase).mmap s plan.reserve = some base := if_pos hfits
  ⟨hraw, mapSegments_accepts _ file _ ehdr anonymous (p := ⟨s, []⟩) hplan hraw (fun _ _ => rfl) hbytes⟩

theorem planSegments_of_roomy {pg : PageSize w} (hroom : Roomy pg phdrs) {ph : Phdr w}
    (hph : ph ∈ loads phdrs) : ∃ plan, planSegments pg phdrs = some plan := by
  have hlow := ((le_foldl phdrs ⟨pg.bytes, BitVec.allOnes w, 0⟩).2 ph hph).low
  have hend := hroom.1 ph hph
  have hpage : 1 < 2 ^ pg.bits := Nat.one_lt_two_pow pg.bits_pos.ne'
  rw [planSegments, if_neg]
  · exact ⟨_, rfl⟩
  · intro hmax
    rw [hmax, BitVec.le_def, BitVec.toNat_allOnes] at hlow
    change _ ≤ ph.vaddr.toNat at hlow
    omega

end MapSegments

end MappingLemmas

open MappingLemmas

def emptySpace : Space 64 := ⟨fun _ => none, fun _ => none⟩

/-- A kernel for the examples, with the reservation at a fixed address. -/
def fixedSystem (pg : PageSize 64) (hpg : Aligned pg 0x7000000000) : System 64 :=
  openSystem pg 0x7000000000 hpg

/-- Text, and data whose first page is sealed. -/
def sampleText : Phdr 64 := ⟨.load, 5, 0, 0, 0x1800, 0x1800, 0x1000⟩

def sampleData : Phdr 64 := ⟨.load, 6, 0x2000, 0x2000, 0x1300, 0x1900, 0x1000⟩

def sampleRelro : Phdr 64 := ⟨.gnuRelro, 4, 0x2000, 0x2000, 0x1000, 0x1000, 1⟩

def sampleTable : List (Phdr 64) := [sampleText, sampleData, sampleRelro]

/-- One page of memory for five pages of the file. -/
def longFilePhdr : Phdr 64 := ⟨.load, 6, 0, 0, 0x5000, 0x1000, 0x1000⟩

end NyaZygisk
