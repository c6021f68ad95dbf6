import NyaZygisk.Phdr
import NyaZygisk.Lib.CStrings
import Mathlib.Data.List.Basic

/-!
# Symbols of a loaded library

`ElfImage` of `elf_util.cpp`, which reads the symbol tables of a library's file and of its mapped
image, and `api_symbolLookup` of `zn_api.cpp`. Bytes outside a file or a mapped image read as zero.
-/

namespace NyaZygisk.Elf

open CStrings List LittleEndian

variable {w : Nat}

/-! ## Reading -/

abbrev Bytes : Type := List UInt8

def numberAt (n : Nat) (bytes : Bytes) (off : Nat) : Nat := number ((bytes.drop off).take n)

/-- A number of the size of an address. -/
def wordAt (w : Nat) (bytes : Bytes) (off : Nat) : BitVec w := BitVec.ofNat w (numberAt (w / 8) bytes off)

/-- Offsets are added to the address of a file or an image, so they wrap. -/
def index (w n : Nat) : Nat := (BitVec.ofNat w n).toNat

/-- The characters from an offset to the next NUL. -/
def stringAt (bytes : Bytes) (off : Nat) : Bytes := cString 0 (bytes.drop off)

/-- The fields of `ElfW(Sym)` that are read. -/
structure Sym (w : Nat) where
  name : Nat
  shndx : Nat
  value : BitVec w
  size : BitVec w
deriving DecidableEq

def symSize (w : Nat) : Nat := if w = 64 then 24 else 16

def Sym.read (w : Nat) (bytes : Bytes) (off : Nat) : Sym w :=
  if w = 64 then
    ⟨numberAt 4 bytes off, numberAt 2 bytes (off + 6), wordAt w bytes (off + 8), wordAt w bytes (off + 16)⟩
  else
    ⟨numberAt 4 bytes off, numberAt 2 bytes (off + 14), wordAt w bytes (off + 4), wordAt w bytes (off + 8)⟩

/-- `sh_type` of a section. -/
inductive SectionType
  | progbits | symtab | dynsym | other
deriving DecidableEq

def SectionType.ofNumber : Nat → SectionType
  | 1 => .progbits
  | 2 => .symtab
  | 11 => .dynsym
  | _ => .other

/-- The fields of `ElfW(Shdr)` that are read. -/
structure Shdr (w : Nat) where
  name : Nat
  type : SectionType
  offset : BitVec w
  size : BitVec w
  link : Nat
  entsize : BitVec w
deriving DecidableEq

def shdrSize (w : Nat) : Nat := if w = 64 then 64 else 40

def Shdr.read (w : Nat) (bytes : Bytes) (off : Nat) : Shdr w :=
  let type := SectionType.ofNumber (numberAt 4 bytes (off + 4))
  if w = 64 then
    ⟨numberAt 4 bytes off, type, wordAt w bytes (off + 24), wordAt w bytes (off + 32),
      numberAt 4 bytes (off + 40), wordAt w bytes (off + 56)⟩
  else
    ⟨numberAt 4 bytes off, type, wordAt w bytes (off + 16), wordAt w bytes (off + 20),
      numberAt 4 bytes (off + 24), wordAt w bytes (off + 36)⟩

/-- The fields of `ElfW(Ehdr)` that are read. -/
structure Ehdr (w : Nat) where
  ident : Bytes
  type : Nat
  phoff : BitVec w
  shoff : BitVec w
  phnum : Nat
  shnum : Nat
  shstrndx : Nat
deriving DecidableEq

def Ehdr.read (w : Nat) (bytes : Bytes) : Ehdr w :=
  if w = 64 then
    ⟨bytes.take 16, numberAt 2 bytes 16, wordAt w bytes 32, wordAt w bytes 40, numberAt 2 bytes 56,
      numberAt 2 bytes 60, numberAt 2 bytes 62⟩
  else
    ⟨bytes.take 16, numberAt 2 bytes 16, wordAt w bytes 28, wordAt w bytes 32, numberAt 2 bytes 44,
      numberAt 2 bytes 48, numberAt 2 bytes 50⟩

def ehdrSize (w : Nat) : Nat := if w = 64 then 64 else 52

def elfMagic : Bytes := [0x7f, 0x45, 0x4c, 0x46]

def sections (w : Nat) (bytes : Bytes) : List (Shdr w) :=
  let ehdr := Ehdr.read w bytes
  (List.range ehdr.shnum).map fun i => Shdr.read w bytes (index w (ehdr.shoff.toNat + i * shdrSize w))

/-! ## The file -/

/-- What stays of `ElfImage` after its constructor. -/
structure ElfImage (w : Nat) where
  file : Bytes
  base : BitVec w

/-- `valid_`, with the bytes that are mapped at the base. -/
def ElfImage.valid (img : ElfImage w) (mapped : Bytes) : Bool :=
  let ehdr := Ehdr.read w img.file
  decide (ehdrSize w ≤ img.file.length) && decide (img.file.take 4 = elfMagic) &&
    !decide (img.file.length < (ehdr.shoff + BitVec.ofNat w (ehdr.shnum * shdrSize w)).toNat) &&
    (ehdr.type ≠ 3 || (img.base ≠ 0 && decide (mapped.take 4 = elfMagic)))

def ElfImage.isDyn (img : ElfImage w) : Bool := (Ehdr.read w img.file).type = 3

def ElfImage.bias (img : ElfImage w) : BitVec w := if img.isDyn then img.base else 0

def ElfImage.secName (img : ElfImage w) (sh : Shdr w) : Bytes :=
  let ehdr := Ehdr.read w img.file
  let shdrs := sections w img.file
  if ehdr.shstrndx = 0 then []
  else
    match shdrs[ehdr.shstrndx]? with
    | none => []
    | some shstr =>
      if img.file.length < (shstr.offset + shstr.size).toNat then []
      else if shstr.size.toNat ≤ sh.name then []
      else stringAt img.file (index w (shstr.offset.toNat + sh.name))

/-- A symbol table and its strings, in the bytes of a file. -/
structure SymTable (w : Nat) where
  bytes : Bytes
  symtab : Nat
  count : Nat
  strtab : Nat
  strSize : Nat
deriving DecidableEq

def SymTable.sym (t : SymTable w) (i : Nat) : Sym w := Sym.read w t.bytes (index w (t.symtab + i * symSize w))

def SymTable.name (t : SymTable w) (s : Sym w) : Bytes := stringAt t.bytes (index w (t.strtab + s.name))

def SymTable.ofSections (bytes : Bytes) (sh strSh : Shdr w) : SymTable w where
  bytes := bytes
  symtab := sh.offset.toNat
  count := if sh.entsize = 0 then 0 else sh.size.toNat / sh.entsize.toNat
  strtab := strSh.offset.toNat
  strSize := strSh.size.toNat

structure SymbolInfo (w : Nat) where
  name : Bytes
  addr : BitVec w
  size : BitVec w
deriving DecidableEq

def SymTable.parseSymbol (t : SymTable w) (bias : BitVec w) (s : Sym w) : Option (SymbolInfo w) :=
  if s.shndx = 0 then none
  else if s.name = 0 then none
  else if t.strSize ≤ s.name then none
  else if t.name s = [] then none
  else some ⟨t.name s, bias + s.value, s.size⟩

def SymTable.parseSymbols (t : SymTable w) (bias : BitVec w) : List (SymbolInfo w) :=
  (List.range t.count).filterMap fun i => t.parseSymbol bias (t.sym i)

/-- The tables that `ensureParsed` finds in the sections of the file. -/
def ElfImage.mainTables (img : ElfImage w) : List (SymTable w) :=
  let shdrs := sections w img.file
  shdrs.filterMap fun sh =>
    if sh.type = .symtab ∨ sh.type = .dynsym then
      (shdrs[sh.link]?).bind fun strSh =>
        if img.file.length < (strSh.offset + strSh.size).toNat then none
        else some (.ofSections img.file sh strSh)
    else none

variable (xz : Bytes → Option Bytes)

/-- `parseGnuDebugData`, with `decompress_xz` as `xz`. -/
def parseGnuDebugData (data : Bytes) : Option Bytes :=
  (xz data).filter fun out => decide (5 ≤ out.length) && decide (out.take 4 = elfMagic)

/-- The sections that hold mini debug info. -/
def ElfImage.debugSections (img : ElfImage w) : List (Shdr w) :=
  (sections w img.file).filter fun sh =>
    decide (sh.type = .progbits) && decide (img.secName sh = ascii ".gnu_debugdata") &&
      !decide (img.file.length < (sh.offset + sh.size).toNat)

/-- `debugdata_`: of several, the last that could be read. -/
def ElfImage.debugData (img : ElfImage w) : Option Bytes :=
  img.debugSections.foldl (fun data sh =>
    (parseGnuDebugData xz ((img.file.drop sh.offset.toNat).take sh.size.toNat)).or data) none

def debugTables (w : Nat) (data : Bytes) : List (SymTable w) :=
  let shdrs := sections w data
  shdrs.filterMap fun sh =>
    if sh.type = .symtab then (shdrs[sh.link]?).map (.ofSections data sh) else none

def ElfImage.tables (img : ElfImage w) : List (SymTable w) :=
  img.mainTables ++ ((img.debugData xz).map (debugTables w)).getD []

/-- `symbols_` before the de-duplication. -/
def ElfImage.parsed (img : ElfImage w) : List (SymbolInfo w) :=
  (img.tables xz).flatMap (·.parseSymbols img.bias)

/-- The de-duplication of `ensureParsed`, with the addresses that it has seen. -/
def unique (seen : List (BitVec w)) : List (SymbolInfo w) → List (SymbolInfo w)
  | [] => []
  | s :: rest => if s.addr ∈ seen then unique seen rest else s :: unique (s.addr :: seen) rest

/-- `symbols_` after `ensureParsed`. -/
def ElfImage.symbols (img : ElfImage w) : List (SymbolInfo w) := unique [] (img.parsed xz)

def ElfImage.lookup (img : ElfImage w) (name : Bytes) (byPrefix : Bool) : Option (SymbolInfo w) :=
  if byPrefix then (img.symbols xz).find? fun s => name.isPrefixOf s.name
  else (img.symbols xz).find? fun s => s.name == name

/-- The loop of `forEach`, with a callback that has a state and may stop it. -/
def forEachSymbol {σ : Type} (cb : σ → SymbolInfo w → Bool × σ) : List (SymbolInfo w) → σ → σ
  | [], st => st
  | s :: rest, st =>
    match cb st s with
    | (true, st) => forEachSymbol cb rest st
    | (false, st) => st

def ElfImage.forEach {σ : Type} (img : ElfImage w) (cb : σ → SymbolInfo w → Bool × σ) (st : σ) : σ :=
  forEachSymbol cb (img.symbols xz) st

/-! ## The mapped image -/

/-- What the loop over the dynamic section keeps. -/
structure DynInfo (w : Nat) where
  symtab : Option (BitVec w)
  strtab : Option (BitVec w)
  strsz : BitVec w

/-- The loop over the dynamic section. Every entry before `DT_NULL` takes some bytes, so as many
rounds as there are bytes are enough. -/
def readDynamic (bytes : Bytes) : Nat → Nat → DynInfo w → DynInfo w
  | 0, _, info => info
  | rounds + 1, off, info =>
    let value := wordAt w bytes (off + w / 8)
    let next := readDynamic bytes rounds (off + 2 * (w / 8))
    match numberAt (w / 8) bytes off with
    | 0 => info
    | 5 => next { info with strtab := some value }
    | 6 => next { info with symtab := some value }
    | 10 => next { info with strsz := value }
    | _ => next info

structure Library (w : Nat) extends ElfImage w where
  mapped : Bytes
  /-- `/proc/self/maps`. -/
  maps : List (BitVec w × BitVec w)
  dynCount : Nat

/-- The dynamic section, where the header at the base is one that is understood. -/
def Library.dynamic (lib : Library w) : Option (BitVec w) :=
  let ehdr := Ehdr.read w lib.mapped
  if lib.base = 0 then none
  else if ehdr.ident.take 4 ≠ elfMagic then none
  else if ehdr.ident[4]? ≠ some (if w = 64 then 2 else 1) then none
  else if ehdr.ident[5]? ≠ some 1 then none
  else
    (((List.range ehdr.phnum).map fun i =>
      Phdr.read w (lib.mapped.getD · 0) (ehdr.phoff.toNat + i * phdrSize w)).find? (·.type = .dynamic)).map
        Phdr.vaddr

def Library.maxSyms (lib : Library w) (symtab strtab : BitVec w) : Nat :=
  let symtabAddress := lib.base + symtab
  let strtabAddress := lib.base + strtab
  let inMap :=
    match lib.maps.find? fun map => decide (map.1 ≤ symtabAddress) && decide (symtabAddress < map.2) with
    | some map => (map.2 - symtabAddress).toNat / symSize w
    | none => 0
  if symtabAddress < strtabAddress then min ((strtabAddress - symtabAddress).toNat / symSize w) inMap
  else inMap

/-- The entries that `runtimeLookup` goes through, as a table. -/
def Library.window (lib : Library w) : Option (SymTable w) :=
  lib.dynamic.bind fun dyn =>
    let info := readDynamic lib.mapped lib.mapped.length dyn.toNat ⟨none, none, 0⟩
    info.symtab.bind fun symtab =>
      info.strtab.bind fun strtab =>
        if info.strsz = 0 then none
        else some ⟨lib.mapped, symtab.toNat, lib.maxSyms symtab strtab, strtab.toNat, info.strsz.toNat⟩

/-- The first entry of that name in the window, and where it is. -/
def Library.firstNamed (lib : Library w) (name : Bytes) : Option (Nat × Sym w) :=
  lib.window.bind fun t =>
    ((List.range' 1 (t.count - 1)).find? fun i =>
      decide ((t.sym i).name ≠ 0) && decide ((t.sym i).name < t.strSize) &&
        decide (t.name (t.sym i) = name)).map fun i => (i, t.sym i)

/-- `runtimeLookup`, with what it writes to `size`. -/
def Library.runtimeLookup (lib : Library w) (name : Bytes) : BitVec w × Option (BitVec w) :=
  match lib.firstNamed name with
  | some (_, s) => (lib.base + s.value, some s.size)
  | none => (0, none)

/-- `api_symbolLookup`, with what it writes to `size`. -/
def apiSymbolLookup (lib : Library w) (name : Bytes) (byPrefix : Bool) : BitVec w × Option (BitVec w) :=
  match lib.lookup xz name byPrefix with
  | some s => (s.addr, some s.size)
  | none => if byPrefix then (0, none) else lib.runtimeLookup name

/-! ## Specification -/

/-- The table has a defined entry of that name, at that address. -/
def SymTable.Defines (t : SymTable w) (bias : BitVec w) (name : Bytes) (addr : BitVec w) : Prop :=
  ∃ i, i < t.count ∧ (t.sym i).shndx ≠ 0 ∧ (t.sym i).name ≠ 0 ∧ (t.sym i).name < t.strSize ∧
    t.name (t.sym i) = name ∧ bias + (t.sym i).value = addr

/-- One of the tables of the file has a defined entry of that name. -/
def ElfImage.Carries (img : ElfImage w) (name : Bytes) : Prop :=
  name ≠ [] ∧ ∃ t, t ∈ img.tables xz ∧ ∃ addr, t.Defines img.bias name addr

def Library.dynsym (lib : Library w) : Option (SymTable w) :=
  lib.window.map fun t => { t with count := lib.dynCount }

/-- A symbol of that name is defined at that address. -/
def Library.HasSymbol (lib : Library w) (name : Bytes) (addr : BitVec w) : Prop :=
  ∃ t, t ∈ lib.tables xz ++ lib.dynsym.toList ∧ t.Defines lib.bias name addr

/-- Of all defined entries at some address, in the order of the tables, the first has that name. -/
def ElfImage.FirstAtAddress (img : ElfImage w) (name : Bytes) : Prop :=
  ∃ s, (img.parsed xz).find? (·.addr = s.addr) = some s ∧ s.name = name

def collectNames (names : List Bytes) (s : SymbolInfo w) : Bool × List Bytes := (true, names ++ [s.name])

instance (t : SymTable w) (bias : BitVec w) (name : Bytes) (addr : BitVec w) :
    Decidable (t.Defines bias name addr) := inferInstanceAs (Decidable (∃ i, i < _ ∧ _))

instance (lib : Library w) (name : Bytes) (addr : BitVec w) : Decidable (lib.HasSymbol xz name addr) :=
  inferInstanceAs (Decidable (∃ t, t ∈ _ ∧ _))

/-! ### A small library -/

def sampleSym (name shndx value : Nat) : Bytes :=
  bytes 4 name ++ [0x12, 0] ++ bytes 2 shndx ++ bytes 8 value ++ bytes 8 0

def sampleShdr (type offset size link entsize : Nat) : Bytes :=
  bytes 4 0 ++ bytes 4 type ++ bytes 16 0 ++ bytes 8 offset ++ bytes 8 size ++ bytes 4 link ++
    bytes 4 0 ++ bytes 8 1 ++ bytes 8 entsize

/-- A shared library with these dynamic symbols and nothing else: headers, dynamic section, symbols,
strings and section headers. -/
def sampleFile (syms : List Bytes) (strings : Bytes) : Bytes :=
  let strtab := 184 + 24 * syms.length
  elfMagic ++ [2, 1, 1] ++ bytes 9 0 ++ bytes 2 3 ++ bytes 14 0 ++ bytes 8 64 ++
    bytes 8 (strtab + strings.length) ++ bytes 8 0 ++ bytes 2 1 ++ bytes 2 64 ++ bytes 2 3 ++ bytes 2 0 ++
    (bytes 4 2 ++ bytes 12 0 ++ bytes 8 120 ++ bytes 32 0) ++
    (bytes 8 6 ++ bytes 8 184 ++ bytes 8 5 ++ bytes 8 strtab ++ bytes 8 10 ++ bytes 8 strings.length ++
      bytes 16 0) ++
    syms.flatten ++ strings ++
    (sampleShdr 0 0 0 0 0 ++ sampleShdr 11 184 (24 * syms.length) 2 24 ++
      sampleShdr 3 strtab strings.length 0 0)

def sampleLibrary (syms : List Bytes) (strings : Bytes) : Library 64 where
  file := sampleFile syms strings
  base := 0x7000
  mapped := sampleFile syms strings
  maps := [(0x7000, 0x8000)]
  dynCount := syms.length

def noXz : Bytes → Option Bytes := fun _ => none

namespace ElfImageLemmas

theorem parseSymbol_eq_some {t : SymTable w} {bias : BitVec w} {s : Sym w} {x : SymbolInfo w} :
    t.parseSymbol bias s = some x ↔
      s.shndx ≠ 0 ∧ s.name ≠ 0 ∧ s.name < t.strSize ∧ t.name s ≠ [] ∧
        ⟨t.name s, bias + s.value, s.size⟩ = x := by
  simp only [SymTable.parseSymbol, Option.ite_none_left_eq_some, Option.some.injEq, Nat.not_le, ne_eq]

variable {name : Bytes} {img : ElfImage w}

theorem mem_parsed {addr : BitVec w} :
    (∃ s ∈ img.parsed xz, s.name = name ∧ s.addr = addr) ↔
      name ≠ [] ∧ ∃ t ∈ img.tables xz, t.Defines img.bias name addr := by
  unfold ElfImage.parsed
  simp only [mem_flatMap, SymTable.parseSymbols, mem_filterMap, mem_range,
    parseSymbol_eq_some]
  constructor
  · rintro ⟨s, ⟨t, ht, i, hi, hdef, hnamed, hinside, hne, rfl⟩, rfl, rfl⟩
    exact ⟨hne, t, ht, i, hi, hdef, hnamed, hinside, rfl, rfl⟩
  · rintro ⟨hne, t, ht, i, hi, hdef, hnamed, hinside, rfl, rfl⟩
    exact ⟨_, ⟨t, ht, i, hi, hdef, hnamed, hinside, hne, rfl⟩, rfl, rfl⟩

/-- The first symbol at each address survives. -/
theorem mem_unique_iff {seen : List (BitVec w)} {symbols : List (SymbolInfo w)} {s : SymbolInfo w} :
    s ∈ unique seen symbols ↔ s.addr ∉ seen ∧ symbols.find? (·.addr = s.addr) = some s := by
  induction symbols generalizing seen with
  | nil => simp [unique]
  | cons first rest ih =>
    unfold unique
    split
    · next hseen =>
      rw [ih]
      refine and_congr_right fun hs => ?_
      have hne : first.addr ≠ s.addr := fun heq => hs (heq ▸ hseen)
      rw [find?_cons_of_neg (by simpa using hne)]
    · next hseen =>
      rw [mem_cons, ih, mem_cons, not_or]
      rcases eq_or_ne first.addr s.addr with heq | hne
      · rw [find?_cons_of_pos (by simpa using heq), Option.some.injEq]
        constructor
        · rintro (rfl | ⟨⟨hs, -⟩, -⟩)
          · exact ⟨hseen, rfl⟩
          · exact absurd heq.symm hs
        · rintro ⟨-, rfl⟩
          exact .inl rfl
      · rw [find?_cons_of_neg (by simpa using hne)]
        constructor
        · rintro (rfl | ⟨⟨-, hs⟩, hfind⟩)
          · exact absurd rfl hne
          · exact ⟨hs, hfind⟩
        · rintro ⟨hs, hfind⟩
          exact .inr ⟨⟨hne.symm, hs⟩, hfind⟩

theorem mem_symbols {s : SymbolInfo w} :
    s ∈ img.symbols xz ↔ (img.parsed xz).find? (·.addr = s.addr) = some s := by
  rw [ElfImage.symbols, mem_unique_iff]
  simp

/-- A name is found if it is one of the symbols that are left. -/
theorem lookup_exact_iff :
    (∃ s, img.lookup xz name false = some s ∧ s.name = name) ↔ img.FirstAtAddress xz name := by
  simp only [ElfImage.lookup, ElfImage.FirstAtAddress, ← mem_symbols, Bool.false_eq_true, if_false]
  constructor
  · rintro ⟨s, hfind, hname⟩
    exact ⟨s, mem_of_find?_eq_some hfind, hname⟩
  · rintro ⟨s, hs, hname⟩
    have hsome : ((img.symbols xz).find? fun s => s.name == name).isSome = true :=
      find?_isSome.mpr ⟨s, hs, beq_iff_eq.mpr hname⟩
    obtain ⟨t, ht⟩ := Option.isSome_iff_exists.mp hsome
    have hmatch := find?_some ht
    exact ⟨t, ht, beq_iff_eq.mp hmatch⟩

theorem forEachSymbol_collectNames (symbols : List (SymbolInfo w)) (names : List Bytes) :
    forEachSymbol collectNames symbols names = names ++ symbols.map SymbolInfo.name := by
  induction symbols generalizing names with
  | nil => exact (append_nil names).symm
  | cons s rest ih =>
    rw [forEachSymbol, collectNames]
    simp only [ih, map_cons, append_assoc, singleton_append]

theorem mem_forEach_iff :
    name ∈ img.forEach xz collectNames [] ↔ img.FirstAtAddress xz name := by
  rw [ElfImage.forEach, forEachSymbol_collectNames, nil_append, mem_map]
  simp only [mem_symbols]
  rfl

theorem firstNamed_eq_some {lib : Library w} {i : Nat} {s : Sym w}
    (h : lib.firstNamed name = some (i, s)) :
    ∃ t, lib.window = some t ∧ t.sym i = s ∧ s.name ≠ 0 ∧ s.name < t.strSize ∧ t.name s = name := by
  obtain ⟨t, ht, hfind⟩ := Option.bind_eq_some_iff.mp h
  obtain ⟨j, hj, heq⟩ := Option.map_eq_some_iff.mp hfind
  obtain ⟨rfl, rfl⟩ := Prod.mk.inj heq
  have hmatch := find?_some hj
  simp only [Bool.and_eq_true, decide_eq_true_eq] at hmatch
  exact ⟨t, ht, rfl, hmatch.1.1, hmatch.1.2, hmatch.2⟩

/-- A defined entry within the dynamic symbol table is a symbol of the library. -/
theorem hasSymbol_of_firstNamed {lib : Library w} (hdyn : lib.isDyn = true) {i : Nat}
    {s : Sym w} (h : lib.firstNamed name = some (i, s)) (hdef : s.shndx ≠ 0) (hi : i < lib.dynCount) :
    lib.HasSymbol xz name (lib.base + s.value) := by
  obtain ⟨t, ht, rfl, hnamed, hinside, hname⟩ := firstNamed_eq_some h
  refine ⟨{ t with count := lib.dynCount }, ?_, i, hi, hdef, hnamed, hinside, hname, ?_⟩
  · rw [Library.dynsym, ht]
    exact mem_append_right _ mem_cons_self
  · rw [ElfImage.bias, if_pos hdyn]
    rfl

theorem hasSymbol_of_lookup {lib : Library w} {s : SymbolInfo w}
    (h : lib.lookup xz name false = some s) : lib.HasSymbol xz name s.addr := by
  have hname : s.name = name := by
    have hmatch := find?_some h
    exact beq_iff_eq.mp hmatch
  have hmem : s ∈ lib.symbols xz := mem_of_find?_eq_some h
  have hparsed := mem_of_find?_eq_some ((mem_symbols xz).mp hmem)
  obtain ⟨-, t, ht, hdefines⟩ := (mem_parsed xz).mp ⟨s, hparsed, hname, rfl⟩
  exact ⟨t, mem_append_left _ ht, hdefines⟩

end ElfImageLemmas

open ElfImageLemmas

/-- A name that some defined entry carries is found, and reported, exactly if it is the first one at
some address. -/
theorem lookup_complete_iff (img : ElfImage w) (name : Bytes) :
    (img.Carries xz name →
      (∃ s, img.lookup xz name false = some s ∧ s.name = name) ∧
        name ∈ img.forEach xz collectNames []) ↔
    (img.Carries xz name → img.FirstAtAddress xz name) := by
  rw [lookup_exact_iff, mem_forEach_iff, and_self]

/-- Two functions with the same code. -/
def foldedLibrary : Library 64 :=
  sampleLibrary [sampleSym 0 0 0, sampleSym 1 7 0x100, sampleSym 3 7 0x100] (ascii "\x00a\x00b\x00")

/-- The second name is lost. -/
theorem lookup_loses_alias :
    foldedLibrary.valid foldedLibrary.mapped = true ∧ foldedLibrary.Carries noXz (ascii "b") ∧
      foldedLibrary.lookup noXz (ascii "b") false = none ∧
      ascii "b" ∉ foldedLibrary.forEach noXz collectNames [] := by
  refine ⟨by decide +kernel, ⟨by decide, ?_⟩, by decide +kernel, by decide +kernel⟩
  refine ⟨.ofSections foldedLibrary.file ⟨0, .dynsym, 184, 72, 2, 24⟩ ⟨0, .other, 256, 5, 0, 0⟩, ?_,
    0x7100, ?_⟩
  · decide +kernel
  · decide +kernel

/-- An address that is given for a name is that of a defined symbol exactly if the name is found in
the tables of the file, or the first entry of that name in the mapped ones is no import and not
beyond them. Otherwise this entry has to have no address, or that of such a symbol by chance. -/
theorem symbolLookup_sound_iff (lib : Library w) (hdyn : lib.isDyn = true) (name : Bytes) :
    ((apiSymbolLookup xz lib name false).1 ≠ 0 →
      lib.HasSymbol xz name (apiSymbolLookup xz lib name false).1) ↔
    ((lib.lookup xz name false).isSome = true ∨
      ∀ i s, lib.firstNamed name = some (i, s) → s.shndx = 0 ∨ lib.dynCount ≤ i →
        lib.base + s.value = 0 ∨ lib.HasSymbol xz name (lib.base + s.value)) := by
  unfold apiSymbolLookup
  cases hlookup : lib.lookup xz name false with
  | some s => exact iff_of_true (fun _ => hasSymbol_of_lookup xz hlookup) (.inl rfl)
  | none =>
    simp only [Option.isSome_none, Bool.false_eq_true, false_or, if_false]
    unfold Library.runtimeLookup
    cases hfirst : lib.firstNamed name with
    | none => simp
    | some found =>
      obtain ⟨i, s⟩ := found
      constructor
      · intro hsound j t heq _
        cases heq
        exact or_iff_not_imp_left.mpr hsound
      · intro hstray hne
        rcases Classical.em (s.shndx = 0 ∨ lib.dynCount ≤ i) with hbad | hgood
        · exact (hstray i s rfl hbad).resolve_left hne
        · obtain ⟨hdef, hi⟩ := not_or.mp hgood
          exact hasSymbol_of_firstNamed xz hdyn hfirst hdef (Nat.lt_of_not_le hi)

/-- A library that defines a function. -/
def definingLibrary : Library 64 :=
  sampleLibrary [sampleSym 0 0 0, sampleSym 1 7 0x100] (ascii "\x00puts\x00")

theorem symbolLookup_sound_iff_defined :
    definingLibrary.isDyn = true ∧
      (apiSymbolLookup noXz definingLibrary (ascii "puts") false).1 = 0x7100 ∧
      definingLibrary.HasSymbol noXz (ascii "puts")
        (apiSymbolLookup noXz definingLibrary (ascii "puts") false).1 := by
  have hdyn : definingLibrary.isDyn = true := by decide +kernel
  have haddr : (apiSymbolLookup noXz definingLibrary (ascii "puts") false).1 = 0x7100 := by decide +kernel
  refine ⟨hdyn, haddr, (symbolLookup_sound_iff noXz definingLibrary hdyn (ascii "puts")).mpr ?_ ?_⟩
  · exact .inl (by decide +kernel)
  · rw [haddr]
    decide

/-- A library that calls it. -/
def importingLibrary : Library 64 :=
  sampleLibrary [sampleSym 0 0 0, sampleSym 1 0 0] (ascii "\x00puts\x00")

/-- The import is given as if it were at the base. -/
theorem symbolLookup_finds_import :
    importingLibrary.valid importingLibrary.mapped = true ∧ importingLibrary.isDyn = true ∧
      (apiSymbolLookup noXz importingLibrary (ascii "puts") false).1 = 0x7000 ∧
      ¬ importingLibrary.HasSymbol noXz (ascii "puts") 0x7000 := by
  refine ⟨by decide +kernel, by decide +kernel, by decide +kernel, by decide +kernel⟩

end NyaZygisk.Elf
