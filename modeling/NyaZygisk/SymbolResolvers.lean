import NyaZygisk.ElfImage
import NyaZygisk.Lib.Pages

/-!
# Three resolvers for symbols

The address of a symbol of a loaded library is found in three ways: by `ElfParser::ElfImage` from
`dl_iterate_phdr`, by `znn::ElfImage` from the maps of the process, and by the tracer from the maps of
the traced process. Each of them corrects in its own way for segments that are not at their offset in
the file. The lookups by hash are taken as scans of the hashed table.
-/

namespace NyaZygisk.Resolvers

open List Pages
open Elf (Bytes SymbolInfo unique)

variable {w : Nat} {pg : PageSize w}

/-! ## Libraries -/

/-- A `PT_LOAD`. -/
structure Segment (pg : PageSize w) where
  vaddr : BitVec w
  fileOffset : BitVec w
  congruent : offset pg.bytes vaddr = offset pg.bytes fileOffset

def Segment.shift (seg : Segment pg) : BitVec w := seg.vaddr - seg.fileOffset

inductive SymbolType
  | func | object | other
deriving DecidableEq

structure FileSymbol (w : Nat) where
  name : Bytes
  value : BitVec w
  undef : Bool
  type : SymbolType
  size : BitVec w
deriving DecidableEq

inductive SectionType
  | dynsym | symtab
deriving DecidableEq

structure SymbolSection (w : Nat) where
  type : SectionType
  symbols : List (FileSymbol w)

/-- A file with `e_type` `ET_DYN`. -/
structure SharedObject (pg : PageSize w) where
  size : BitVec w
  loads : List (Segment pg)
  /-- In the order of the section headers. -/
  sections : List (SymbolSection w)
  /-- There is a hash table for the dynamic symbols. -/
  hashed : Bool
  /-- The symbols in `.gnu_debugdata`. -/
  debugData : List (FileSymbol w)

structure MapEntry (w : Nat) where
  start : BitVec w
  stop : BitVec w
  fileOffset : BitVec w
  path : List Char
deriving DecidableEq

/-- An entry that `dl_iterate_phdr` reports. -/
structure DlPhdrInfo (w : Nat) where
  name : List Char
  addr : BitVec w

/-- The difference that the resolvers correct by, from the first `PT_LOAD`. -/
def SharedObject.firstShift (obj : SharedObject pg) : BitVec w := (obj.loads.head?.map Segment.shift).getD 0

/-! ## `ElfParser::ElfImage` -/

def findLoadedLibraryInfo (infos : List (DlPhdrInfo w)) (libraryName : List Char) : Option (BitVec w) :=
  (infos.find? fun info => decide (libraryName <:+: info.name)).map (·.addr)

/-- The table of a type. Of several, the last one is used. -/
def SharedObject.table (obj : SharedObject pg) (type : SectionType) : List (FileSymbol w) :=
  ((obj.sections.filter (·.type = type)).getLast?.map (·.symbols)).getD []

/-- `findSymbolByGnuHash` or `findSymbolBySysvHash`. -/
def SharedObject.findSymbolByHash (obj : SharedObject pg) (name : Bytes) : BitVec w :=
  if obj.hashed then (((obj.table .dynsym).find? fun s => !s.undef && s.name = name).map
    (·.value)).getD 0 else 0

/-- `buildSymbolCache` takes the symbol. -/
def FileSymbol.cached (s : FileSymbol w) : Bool := (s.type = .func || s.type = .object) && 0 < s.size

def SharedObject.findSymbolByLinearScan (obj : SharedObject pg) (name : Bytes) : BitVec w :=
  (((obj.table .symtab).find? fun s => s.cached && s.name = name).map (·.value)).getD 0

def SharedObject.findSymbolOffset (obj : SharedObject pg) (name : Bytes) : BitVec w :=
  if 0 < obj.findSymbolByHash name then obj.findSymbolByHash name else obj.findSymbolByLinearScan name

/-- `findSymbolAddress`; `base` is null for a library that is not loaded. -/
def SharedObject.findSymbolAddress (obj : SharedObject pg) (base : BitVec w) (name : Bytes) : BitVec w :=
  if 0 < obj.findSymbolOffset name ∧ base ≠ 0 then base + obj.findSymbolOffset name - obj.firstShift else 0

/-! ## `znn::ElfImage` -/

def basename (path : List Char) : List Char := (path.reverse.takeWhile (· ≠ '/')).reverse

def MapEntry.matchesName (name : List Char) (m : MapEntry w) : Bool :=
  m.path ≠ [] && m.path.head? ≠ some '[' && if '/' ∈ name then m.path = name else basename m.path = name

/-- The mapping is one of the whole file. -/
def MapEntry.wholeFile (wholeSize : BitVec w) (m : MapEntry w) : Bool :=
  wholeSize ≠ 0 && wholeSize ≤ m.stop - m.start && m.stop - m.start - wholeSize < 4096

/-- `findLibraryBaseInMaps` returns at this mapping. -/
def MapEntry.givesBase (name : List Char) (wholeSize : BitVec w) (m : MapEntry w) : Bool :=
  m.matchesName name && !m.wholeFile wholeSize && m.fileOffset ≤ m.start

def findLibraryBaseInMaps (maps : List (MapEntry w)) (name : List Char) (wholeSize : BitVec w) : BitVec w :=
  ((maps.find? (·.givesBase name wholeSize)).map fun m => m.start - m.fileOffset).getD 0

/-- The symbol is one that `parseSymbols` keeps. -/
def FileSymbol.parsed (s : FileSymbol w) : Bool := !s.undef && s.name ≠ []

def parseSymbols (bias : BitVec w) (symbols : List (FileSymbol w)) : List (SymbolInfo w) :=
  (symbols.filter FileSymbol.parsed).map fun s => ⟨s.name, bias + s.value, s.size⟩

def SharedObject.ensureParsed (obj : SharedObject pg) (bias : BitVec w) : List (SymbolInfo w) :=
  unique [] (obj.sections.flatMap (fun sec => parseSymbols bias sec.symbols) ++ parseSymbols bias
    obj.debugData)

/-- `resolveLibrarySymbol`; `magicAt` tells whether an ELF header is at an address. -/
def SharedObject.resolveLibrarySymbol (obj : SharedObject pg) (maps : List (MapEntry w))
    (magicAt : BitVec w → Bool) (path : List Char) (symbol : Bytes) : BitVec w :=
  let base := findLibraryBaseInMaps maps path obj.size
  if base = 0 then 0
  else if !magicAt base then 0
  else (((obj.ensureParsed base).find? fun s => s.name = symbol).map (·.addr)).getD 0

/-! ## The tracer -/

def findModuleMap (maps : List (MapEntry w)) (suffix : List Char) : Option (MapEntry w) :=
  maps.find? fun m => m.fileOffset = 0 && (m.path = suffix || decide (suffix <:+ m.path))

def findModuleBase (maps : List (MapEntry w)) (suffix : List Char) : BitVec w :=
  ((findModuleMap maps suffix).map (·.start)).getD 0

def SharedObject.findSymbolOffsetFromFile (obj : SharedObject pg) (func : Bytes) : BitVec w :=
  (((obj.sections.flatMap (·.symbols)).find? fun s => s.name = func).map fun s =>
    s.value - obj.firstShift).getD 0

def SharedObject.findFuncAddrFromFileModule (obj : SharedObject pg) (localMaps remoteMaps : List (MapEntry w))
    (module : List Char) (func : Bytes) : BitVec w :=
  if findModuleBase localMaps module = 0 then 0
  else if findModuleBase remoteMaps module = 0 then 0
  else if obj.findSymbolOffsetFromFile func = 0 then 0
  else findModuleBase remoteMaps module + obj.findSymbolOffsetFromFile func

/-! ## A library in a process -/

/-- The mapping is one of pages of the segment. -/
def MapEntry.PieceOf (bias : BitVec w) (seg : Segment pg) (m : MapEntry w) : Prop :=
  ∃ k, m.start = bias + floor pg.bytes seg.vaddr + k ∧ m.fileOffset = floor pg.bytes seg.fileOffset + k

/-- A loaded library. `dl_iterate_phdr` reports its load bias, and its mappings are of its segments. -/
structure Loaded (pg : PageSize w) where
  object : SharedObject pg
  bias : BitVec w
  libraryName : List Char
  infos : List (DlPhdrInfo w)
  reported : findLoadedLibraryInfo infos libraryName = some bias
  path : List Char
  maps : List (MapEntry w)
  pieces : ∀ m ∈ maps, m.matchesName path = true ∨ m.path = path ∨ path <:+ m.path →
    ∃ seg, seg ∈ object.loads ∧ m.PieceOf bias seg
  magicAt : BitVec w → Bool

def SharedObject.symbols (obj : SharedObject pg) : List (FileSymbol w) :=
  obj.sections.flatMap (·.symbols) ++ obj.debugData

/-- A symbol that the library defines, and that is not at the null address. -/
structure Defined (lib : Loaded pg) where
  name : Bytes
  value : BitVec w
  name_ne : name ≠ []
  entry : ∃ s, s ∈ lib.object.symbols ∧ s.name = name
  only : ∀ s ∈ lib.object.symbols, s.name = name → s.undef = false ∧ s.value = value
  address_ne : lib.bias + value ≠ 0

section Statement

variable (lib : Loaded pg) (sym : Defined lib) (localMaps : List (MapEntry w))

def Loaded.parserAddress : BitVec w :=
  lib.object.findSymbolAddress ((findLoadedLibraryInfo lib.infos lib.libraryName).getD 0) sym.name

def Loaded.znnAddress : BitVec w := lib.object.resolveLibrarySymbol lib.maps lib.magicAt lib.path sym.name

def Loaded.tracerAddress : BitVec w :=
  lib.object.findFuncAddrFromFileModule localMaps lib.maps lib.path sym.name

/-- All resolvers compute the load bias plus the value. -/
structure Agree : Prop where
  parser : lib.parserAddress sym = lib.bias + sym.value
  znn : lib.znnAddress sym = lib.bias + sym.value
  tracer : lib.tracerAddress sym localMaps = lib.bias + sym.value

/-- The mapping belongs to a segment that is at its offset in the file. -/
def Loaded.Unshifted (m : MapEntry w) : Prop :=
  ∃ seg, seg ∈ lib.object.loads ∧ m.PieceOf lib.bias seg ∧ seg.vaddr = seg.fileOffset

def Loaded.ParserFinds : Prop :=
  (lib.object.hashed = true ∧ ∃ s, s ∈ lib.object.table .dynsym ∧ s.name = sym.name) ∨
    ∃ s, s ∈ lib.object.table .symtab ∧ s.cached = true ∧ s.name = sym.name

/-- `znn` keeps the symbol: the first one with its value is one of its name. -/
def Loaded.ZnnKeeps : Prop :=
  ∃ s, (lib.object.symbols.filter FileSymbol.parsed).find? (·.value = sym.value) = some s ∧ s.name = sym.name

/-- The first `PT_LOAD` and those of the mappings that are used are at their offsets in the file, and
each of the resolvers finds the symbol. -/
structure AgreeWhen : Prop where
  bias_ne : lib.bias ≠ 0
  value_ne : sym.value ≠ 0
  first : lib.object.firstShift = 0
  parserFinds : lib.ParserFinds sym
  based : ∃ m, lib.maps.find? (·.givesBase lib.path lib.object.size) = some m ∧ lib.Unshifted m
  header : lib.magicAt lib.bias = true
  znnKeeps : lib.ZnnKeeps sym
  module : ∃ m, findModuleMap lib.maps lib.path = some m ∧ lib.Unshifted m
  own : findModuleBase localMaps lib.path ≠ 0
  inSections : ∃ s, s ∈ lib.object.sections.flatMap (·.symbols) ∧ s.name = sym.name

end Statement

namespace ResolverLemmas

/-! ### Mappings -/

/-- The start of a mapping less its offset is the load bias, up to the shift of its segment. -/
theorem start_sub_offset {bias : BitVec w} {seg : Segment pg} {m : MapEntry w} (h : m.PieceOf bias seg) :
    m.start - m.fileOffset = bias + seg.shift := by
  obtain ⟨k, hstart, hoffset⟩ := h
  rw [hstart, hoffset, floor_eq_sub, floor_eq_sub, seg.congruent, Segment.shift]
  ring

theorem shift_eq_zero {seg : Segment pg} : seg.shift = 0 ↔ seg.vaddr = seg.fileOffset := sub_eq_zero

/-- A mapping says the load bias exactly if its segment is at its offset. -/
theorem unshifted_iff {lib : Loaded pg} {m : MapEntry w}
    (hpiece : ∃ seg ∈ lib.object.loads, m.PieceOf lib.bias seg) :
    lib.Unshifted m ↔ m.start - m.fileOffset = lib.bias := by
  constructor
  · rintro ⟨seg, -, hm, hseg⟩
    rw [start_sub_offset hm, shift_eq_zero.mpr hseg, add_zero]
  · intro h
    obtain ⟨seg, hmem, hm⟩ := hpiece
    rw [start_sub_offset hm, add_eq_left] at h
    exact ⟨seg, hmem, hm, shift_eq_zero.mp h⟩

/-! ### Searches -/

section Search

variable {α : Type} {l : List α} {p : α → Bool} {f : α → BitVec w} {v : BitVec w}

theorem found (hall : ∀ a ∈ l, p a = true → f a = v) (h : ∃ a ∈ l, p a = true) :
    ((l.find? p).map f).getD 0 = v := by
  obtain ⟨a, ha⟩ := Option.isSome_iff_exists.mp (find?_isSome.mpr h)
  rw [ha, Option.map_some, Option.getD_some]
  exact hall a (mem_of_find?_eq_some ha) (find?_some ha)

theorem not_found (h : ¬ ∃ a ∈ l, p a = true) : ((l.find? p).map f).getD 0 = 0 := by
  rw [find?_eq_none.mpr fun a ha hp => h ⟨a, ha, hp⟩]
  rfl

end Search

theorem mem_symbols_of_table {obj : SharedObject pg} {type : SectionType} {s : FileSymbol w}
    (h : s ∈ obj.table type) : s ∈ obj.symbols := by
  rw [SharedObject.table] at h
  cases hlast : (obj.sections.filter (·.type = type)).getLast? with
  | none =>
    rw [hlast] at h
    cases h
  | some sec =>
    rw [hlast] at h
    have hsec : sec ∈ obj.sections := (mem_filter.mp (mem_of_getLast? hlast)).1
    exact mem_append_left _ (mem_flatMap.mpr ⟨sec, hsec, h⟩)

/-! ### `ElfParser` -/

section Resolvers

variable {lib : Loaded pg} {sym : Defined lib} {localMaps : List (MapEntry w)}

theorem byHash_of_mem (hhashed : lib.object.hashed = true)
    (h : ∃ s ∈ lib.object.table .dynsym, s.name = sym.name) :
    lib.object.findSymbolByHash sym.name = sym.value := by
  obtain ⟨s, hs, hname⟩ := h
  have honly := sym.only s (mem_symbols_of_table hs) hname
  rw [SharedObject.findSymbolByHash, if_pos hhashed]
  refine found (fun a ha hp => ?_) ⟨s, hs, ?_⟩
  · rw [Bool.and_eq_true, decide_eq_true_eq] at hp
    exact (sym.only a (mem_symbols_of_table ha) hp.2).2
  · rw [honly.1, decide_eq_true hname]
    rfl

theorem byHash_of_not (h : ¬ (lib.object.hashed = true ∧ ∃ s ∈ lib.object.table .dynsym, s.name = sym.name)) :
    lib.object.findSymbolByHash sym.name = 0 := by
  rw [SharedObject.findSymbolByHash]
  by_cases hhashed : lib.object.hashed = true
  · rw [if_pos hhashed]
    refine not_found ?_
    rintro ⟨s, hs, hp⟩
    rw [Bool.and_eq_true, decide_eq_true_eq] at hp
    exact h ⟨hhashed, s, hs, hp.2⟩
  · exact if_neg hhashed

theorem byScan_of_mem (h : ∃ s ∈ lib.object.table .symtab, s.cached = true ∧ s.name = sym.name) :
    lib.object.findSymbolByLinearScan sym.name = sym.value := by
  obtain ⟨s, hs, hcached, hname⟩ := h
  refine found (fun a ha hp => ?_) ⟨s, hs, ?_⟩
  · rw [Bool.and_eq_true, decide_eq_true_eq] at hp
    exact (sym.only a (mem_symbols_of_table ha) hp.2).2
  · rw [hcached, decide_eq_true hname]
    rfl

theorem byScan_of_not (h : ¬ ∃ s ∈ lib.object.table .symtab, s.cached = true ∧ s.name = sym.name) :
    lib.object.findSymbolByLinearScan sym.name = 0 := by
  refine not_found ?_
  rintro ⟨s, hs, hp⟩
  rw [Bool.and_eq_true, decide_eq_true_eq] at hp
  exact h ⟨s, hs, hp⟩

theorem findSymbolOffset_of_finds (h : lib.ParserFinds sym) :
    lib.object.findSymbolOffset sym.name = sym.value := by
  rw [SharedObject.findSymbolOffset]
  by_cases hhash : lib.object.hashed = true ∧ ∃ s ∈ lib.object.table .dynsym, s.name = sym.name
  · have hvalue := byHash_of_mem hhash.1 hhash.2
    by_cases hpos : 0 < lib.object.findSymbolByHash sym.name
    · rw [if_pos hpos, hvalue]
    · -- a symbol with value 0 is looked for in the other table too
      have hzero : sym.value = 0 := by
        rw [hvalue] at hpos
        exact not_not.mp fun hne => hpos ((BitVec.pos_iff_ne_zero _).mpr hne)
      rw [if_neg hpos]
      by_cases hscan : ∃ s ∈ lib.object.table .symtab, s.cached = true ∧ s.name = sym.name
      · exact byScan_of_mem hscan
      · rw [byScan_of_not hscan, hzero]
  · have hscan := h.resolve_left hhash
    rw [byHash_of_not hhash, if_neg (BitVec.lt_irrefl _)]
    exact byScan_of_mem hscan

theorem findSymbolOffset_of_not (h : ¬ lib.ParserFinds sym) : lib.object.findSymbolOffset sym.name = 0 := by
  obtain ⟨hhash, hscan⟩ := not_or.mp h
  rw [SharedObject.findSymbolOffset, byHash_of_not hhash, if_neg (BitVec.lt_irrefl _)]
  exact byScan_of_not hscan

theorem parser_iff : lib.parserAddress sym = lib.bias + sym.value ↔
    lib.bias ≠ 0 ∧ sym.value ≠ 0 ∧ lib.object.firstShift = 0 ∧ lib.ParserFinds sym := by
  rw [Loaded.parserAddress, lib.reported, Option.getD_some, SharedObject.findSymbolAddress]
  by_cases hfinds : lib.ParserFinds sym
  · rw [findSymbolOffset_of_finds hfinds]
    by_cases hguard : 0 < sym.value ∧ lib.bias ≠ 0
    · rw [if_pos hguard, sub_eq_self]
      exact ⟨fun h => ⟨hguard.2, (BitVec.pos_iff_ne_zero _).mp hguard.1, h, hfinds⟩, fun h => h.2.2.1⟩
    · rw [if_neg hguard]
      exact ⟨fun h => absurd h.symm sym.address_ne,
        fun h => absurd ⟨(BitVec.pos_iff_ne_zero _).mpr h.2.1, h.1⟩ hguard⟩
  · rw [findSymbolOffset_of_not hfinds, if_neg fun h => BitVec.lt_irrefl _ h.1]
    exact ⟨fun h => absurd h.symm sym.address_ne, fun h => absurd h.2.2.2 hfinds⟩

/-! ### `znn` -/

/-- After duplicates at one address are dropped, a name is found if it is the first one there. -/
theorem find_unique {l : List (SymbolInfo w)} {name : Bytes} {addr : BitVec w}
    (hall : ∀ s ∈ l, s.name = name → s.addr = addr) :
    (unique [] l).find? (fun s => s.name = name) =
      (l.find? fun s => s.addr = addr).filter fun s => s.name = name := by
  have hunique {s : SymbolInfo w} (hname : s.name = name) :
      s ∈ unique [] l ↔ l.find? (·.addr = addr) = some s := by
    rw [Elf.ElfImageLemmas.mem_unique_iff, and_iff_right not_mem_nil]
    refine ⟨fun h => ?_, fun h => ?_⟩
    · rwa [hall s (mem_of_find?_eq_some h) hname] at h
    · rwa [hall s (mem_of_find?_eq_some h) hname]
  cases hfind : (unique [] l).find? (fun s => s.name = name) with
  | some s =>
    have hname := find?_some hfind
    rw [decide_eq_true_eq] at hname
    rw [(hunique hname).mp (mem_of_find?_eq_some hfind), Option.filter_some_pos (by rwa [decide_eq_true_eq])]
  | none =>
    refine (Option.filter_eq_none_iff.mpr fun s hs hname => ?_).symm
    exact find?_eq_none.mp hfind s ((hunique (of_decide_eq_true hname)).mpr hs) hname

theorem ensureParsed_eq (obj : SharedObject pg) (base : BitVec w) :
    obj.ensureParsed base = unique [] (parseSymbols base obj.symbols) := by
  rw [SharedObject.ensureParsed, SharedObject.symbols, parseSymbols, parseSymbols, filter_append,
    map_append, filter_flatMap, map_flatMap]
  rfl

theorem lookup_eq (lib : Loaded pg) (sym : Defined lib) (base : BitVec w) :
    ((lib.object.ensureParsed base).find? fun s => s.name = sym.name) =
      (((lib.object.symbols.filter FileSymbol.parsed).find? (·.value = sym.value)).filter
        (·.name = sym.name)).map fun s => ⟨s.name, base + s.value, s.size⟩ := by
  have hall : ∀ s ∈ parseSymbols base lib.object.symbols, s.name = sym.name → s.addr = base + sym.value := by
    intro s hs hname
    obtain ⟨s', hs', rfl⟩ := mem_map.mp hs
    rw [(sym.only s' (mem_filter.mp hs').1 hname).2]
  rw [ensureParsed_eq, find_unique hall, parseSymbols, find?_map, Option.filter_map]
  congr 3
  funext s
  exact decide_eq_decide.mpr (add_right_inj base)

theorem lookup_of_keeps (h : lib.ZnnKeeps sym) (base : BitVec w) :
    (((lib.object.ensureParsed base).find? fun s => s.name = sym.name).map (·.addr)).getD 0 =
      base + sym.value := by
  obtain ⟨s, hs, hname⟩ := h
  have hfound := find?_some hs
  have hvalue : s.value = sym.value := of_decide_eq_true hfound
  rw [lookup_eq, hs, Option.filter_some_pos (by rwa [decide_eq_true_eq]), ← hvalue]
  rfl

theorem lookup_of_not (h : ¬ lib.ZnnKeeps sym) (base : BitVec w) :
    (((lib.object.ensureParsed base).find? fun s => s.name = sym.name).map (·.addr)).getD 0 = 0 := by
  rw [lookup_eq]
  cases hs : (lib.object.symbols.filter FileSymbol.parsed).find? (·.value = sym.value) with
  | none => rfl
  | some s =>
    rw [Option.filter_some_neg (by exact decide_eq_false fun hname => h ⟨s, hs, hname⟩)]
    rfl

theorem znn_iff : lib.znnAddress sym = lib.bias + sym.value ↔
    lib.bias ≠ 0 ∧ (∃ m, lib.maps.find? (·.givesBase lib.path lib.object.size) = some m ∧ lib.Unshifted m) ∧
      lib.magicAt lib.bias = true ∧ lib.ZnnKeeps sym := by
  rw [Loaded.znnAddress, SharedObject.resolveLibrarySymbol, findLibraryBaseInMaps]
  cases hm : lib.maps.find? (·.givesBase lib.path lib.object.size) with
  | none => exact ⟨fun h => absurd h.symm sym.address_ne, fun ⟨_, ⟨_, h, _⟩, _⟩ => nomatch h⟩
  | some m =>
    have hgives := find?_some hm
    rw [MapEntry.givesBase, Bool.and_eq_true, Bool.and_eq_true] at hgives
    have hpiece := lib.pieces m (mem_of_find?_eq_some hm) (.inl hgives.1.1)
    have hunshifted : (∃ m', some m = some m' ∧ lib.Unshifted m') ↔ m.start - m.fileOffset = lib.bias := by
      rw [← unshifted_iff hpiece]
      exact ⟨fun ⟨_, heq, h⟩ => Option.some.inj heq ▸ h, fun h => ⟨m, rfl, h⟩⟩
    rw [hunshifted]
    simp only [Option.map_some, Option.getD_some]
    constructor
    · intro h
      by_cases hbase : m.start - m.fileOffset = 0
      · rw [if_pos hbase] at h
        exact absurd h.symm sym.address_ne
      rw [if_neg hbase] at h
      by_cases hmagic : lib.magicAt (m.start - m.fileOffset) = true
      · rw [if_neg (by rw [hmagic]; exact Bool.false_ne_true)] at h
        by_cases hkeeps : lib.ZnnKeeps sym
        · rw [lookup_of_keeps hkeeps, add_left_inj] at h
          exact ⟨h ▸ hbase, h, h ▸ hmagic, hkeeps⟩
        · rw [lookup_of_not hkeeps] at h
          exact absurd h.symm sym.address_ne
      · rw [if_pos (by rw [Bool.eq_false_iff.mpr hmagic]; rfl)] at h
        exact absurd h.symm sym.address_ne
    · rintro ⟨hbias, hbase, hmagic, hkeeps⟩
      rw [hbase, if_neg hbias, if_neg (by rw [hmagic]; exact Bool.false_ne_true), lookup_of_keeps hkeeps]

/-! ### The tracer -/

theorem offsetFromFile_of_mem (h : ∃ s ∈ lib.object.sections.flatMap (·.symbols), s.name = sym.name) :
    lib.object.findSymbolOffsetFromFile sym.name = sym.value - lib.object.firstShift := by
  obtain ⟨s, hs, hname⟩ := h
  refine found (fun a ha hp => ?_) ⟨s, hs, decide_eq_true hname⟩
  rw [(sym.only a (mem_append_left _ ha) (of_decide_eq_true hp)).2]

theorem offsetFromFile_of_not (h : ¬ ∃ s ∈ lib.object.sections.flatMap (·.symbols), s.name = sym.name) :
    lib.object.findSymbolOffsetFromFile sym.name = 0 :=
  not_found fun ⟨s, hs, hp⟩ => h ⟨s, hs, of_decide_eq_true hp⟩

theorem moduleBase_iff (hbias : lib.bias ≠ 0) : findModuleBase lib.maps lib.path = lib.bias ↔
    ∃ m, findModuleMap lib.maps lib.path = some m ∧ lib.Unshifted m := by
  rw [findModuleBase]
  cases hm : findModuleMap lib.maps lib.path with
  | none => exact ⟨fun h => absurd h.symm hbias, fun ⟨_, h, _⟩ => nomatch h⟩
  | some m =>
    have hfound := find?_some hm
    rw [Bool.and_eq_true, Bool.or_eq_true, decide_eq_true_eq, decide_eq_true_eq, decide_eq_true_eq] at hfound
    have hpiece := lib.pieces m (mem_of_find?_eq_some hm) (.inr hfound.2)
    have hstart : m.start = m.start - m.fileOffset := by rw [hfound.1, sub_zero]
    rw [Option.map_some, Option.getD_some, hstart, ← unshifted_iff hpiece]
    exact ⟨fun h => ⟨m, rfl, h⟩, fun ⟨_, heq, h⟩ => Option.some.inj heq ▸ h⟩

/-- For a library whose first segment is at its offset. -/
theorem tracer_iff (hbias : lib.bias ≠ 0) (hvalue : sym.value ≠ 0) (hfirst : lib.object.firstShift = 0) :
    lib.tracerAddress sym localMaps = lib.bias + sym.value ↔
      (∃ m, findModuleMap lib.maps lib.path = some m ∧ lib.Unshifted m) ∧
      findModuleBase localMaps lib.path ≠ 0 ∧
      ∃ s ∈ lib.object.sections.flatMap (·.symbols), s.name = sym.name := by
  rw [← moduleBase_iff hbias, Loaded.tracerAddress, SharedObject.findFuncAddrFromFileModule]
  have hnull : ∀ {q : Prop}, (0 : BitVec w) = lib.bias + sym.value → q := fun h =>
    absurd h.symm sym.address_ne
  by_cases hsym : ∃ s ∈ lib.object.sections.flatMap (·.symbols), s.name = sym.name
  · rw [offsetFromFile_of_mem hsym, hfirst, sub_zero, if_neg hvalue]
    by_cases hown : findModuleBase localMaps lib.path = 0
    · rw [if_pos hown]
      exact ⟨hnull, fun h => absurd hown h.2.1⟩
    rw [if_neg hown]
    by_cases hbase : findModuleBase lib.maps lib.path = 0
    · rw [if_pos hbase]
      exact ⟨hnull, fun h => absurd (h.1.symm.trans hbase) hbias⟩
    · rw [if_neg hbase, add_left_inj]
      exact ⟨fun h => ⟨h, hown, hsym⟩, fun h => h.1⟩
  · rw [offsetFromFile_of_not hsym, if_pos rfl, ite_self, ite_self]
    exact ⟨hnull, fun h => absurd h.2.2 hsym⟩

end Resolvers

end ResolverLemmas

open ResolverLemmas

/-- The resolvers agree exactly if the segments that they correct by are at their offsets in the
file, and each of them finds the symbol. -/
theorem resolvers_agree_iff (lib : Loaded pg) (sym : Defined lib) (localMaps : List (MapEntry w)) :
    Agree lib sym localMaps ↔ AgreeWhen lib sym localMaps := by
  constructor
  · rintro ⟨hparser, hznn, htracer⟩
    obtain ⟨hbias, hvalue, hfirst, hfinds⟩ := parser_iff.mp hparser
    obtain ⟨-, hbased, hheader, hkeeps⟩ := znn_iff.mp hznn
    obtain ⟨hmodule, hown, hsections⟩ := (tracer_iff hbias hvalue hfirst).mp htracer
    exact ⟨hbias, hvalue, hfirst, hfinds, hbased, hheader, hkeeps, hmodule, hown, hsections⟩
  · intro h
    exact ⟨parser_iff.mpr ⟨h.bias_ne, h.value_ne, h.first, h.parserFinds⟩,
      znn_iff.mpr ⟨h.bias_ne, h.based, h.header, h.znnKeeps⟩,
      (tracer_iff h.bias_ne h.value_ne h.first).mpr ⟨h.module, h.own, h.inSections⟩⟩

/-- The beginning of the file is one page above the load bias. -/
def shiftedSegment : Segment smallPages := ⟨0x1000, 0, by decide⟩

def shiftedObject : SharedObject smallPages where
  size := 0x4000
  loads := [shiftedSegment]
  sections := [⟨.dynsym, [⟨CStrings.ascii "init", 0x1500, false, .func, 0x20⟩]⟩]
  hashed := true
  debugData := []

def shiftedPath : List Char := "/system/lib64/libx.so".toList

def shiftedMap : MapEntry 64 := ⟨0x70001000, 0x70003000, 0, shiftedPath⟩

def shiftedLibrary : Loaded smallPages where
  object := shiftedObject
  bias := 0x70000000
  libraryName := "libx.so".toList
  infos := [⟨shiftedPath, 0x70000000⟩]
  reported := by decide
  path := shiftedPath
  maps := [shiftedMap]
  pieces := by
    rintro m hm -
    obtain rfl := mem_singleton.mp hm
    exact ⟨shiftedSegment, mem_cons_self, 0, by decide, by decide⟩
  magicAt := fun addr => addr = 0x70001000

def shiftedSymbol : Defined shiftedLibrary where
  name := CStrings.ascii "init"
  value := 0x1500
  name_ne := by decide
  entry := ⟨⟨CStrings.ascii "init", 0x1500, false, .func, 0x20⟩, mem_cons_self, rfl⟩
  only := by
    rintro s hs -
    obtain rfl := mem_singleton.mp hs
    exact ⟨rfl, rfl⟩
  address_ne := by decide

/-- One resolver is right, one is a page too low, and one a page too high. -/
theorem three_answers :
    ¬ Agree shiftedLibrary shiftedSymbol [shiftedMap] ∧
    shiftedLibrary.parserAddress shiftedSymbol = 0x70000500 ∧
    shiftedLibrary.znnAddress shiftedSymbol = 0x70002500 ∧
    shiftedLibrary.tracerAddress shiftedSymbol [shiftedMap] = 0x70001500 :=
  ⟨fun h => absurd h.parser (by decide), by decide, by decide, by decide⟩

end NyaZygisk.Resolvers
