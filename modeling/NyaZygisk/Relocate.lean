import NyaZygisk.Lib.Words
import NyaZygisk.PackedRelocs

/-!
# Relocating an image

`Image::Relocate` of `linker.cpp`, with `ForEachRelr` of `relocate.cpp` and the types of
`reloc_arch.hpp`. The tables and the symbols are read from the memory that the relocations
change; what the resolvers return is given. A log tells the words that are touched.
-/

namespace NyaZygisk

open List Words

variable {w : Nat}

/-! ## RELR tables -/

def wordSize (w : Nat) : BitVec w := BitVec.ofNat w (w / 8)

/-- The loop over the bits of a bitmap, which are all 0 after `w` rounds. -/
def relrBits : Nat → BitVec w → BitVec w → List (BitVec w)
  | 0, _, _ => []
  | n + 1, bits, slot =>
    if bits = 0 then []
    else (if bits &&& 1 ≠ 0 then [slot] else []) ++ relrBits n (bits >>> 1) (slot + wordSize w)

/-- The addresses that `ForEachRelr` emits for an entry, and `base` after it. -/
def relrStep (loadBias base entry : BitVec w) : List (BitVec w) × BitVec w :=
  if entry &&& 1 = 0 then ([loadBias + entry], loadBias + entry + wordSize w)
  else (relrBits w (entry >>> 1) base, base + BitVec.ofNat w (w - 1) * wordSize w)

/-- The addresses that `ForEachRelr` emits for a table that stays as it is. -/
def forEachRelr (loadBias : BitVec w) : BitVec w → List (BitVec w) → List (BitVec w)
  | _, [] => []
  | base, entry :: table =>
    (relrStep loadBias base entry).1 ++ forEachRelr loadBias (relrStep loadBias base entry).2 table

/-- The addresses that a bitmap stands for if `base` is that of its first slot: slot
`i` is bit `i + 1`. -/
def bitmapSlots (base entry : BitVec w) : List (BitVec w) :=
  ((List.range (w - 1)).filter fun i => entry.getLsbD (i + 1)).map
    fun i => base + BitVec.ofNat w i * wordSize w

/-- The table stands for the addresses, if the next bitmap's slots begin at `base`. -/
inductive RelrEncodes : Option (BitVec w) → List (BitVec w) → List (BitVec w) → Prop
  | nil {base : Option (BitVec w)} : RelrEncodes base [] []
  | address {base : Option (BitVec w)} {a : BitVec w} {table addrs : List (BitVec w)} :
      a &&& 1 = 0 → RelrEncodes (some (a + wordSize w)) table addrs →
      RelrEncodes base (a :: table) (a :: addrs)
  | bitmap {base entry : BitVec w} {table addrs : List (BitVec w)} :
      entry &&& 1 ≠ 0 →
      RelrEncodes (some (base + BitVec.ofNat w (w - 1) * wordSize w)) table addrs →
      RelrEncodes (some base) (entry :: table) (bitmapSlots base entry ++ addrs)

/-! ## Relocations -/

inductive LoadError
  | none
  | unsupported
  | error
deriving DecidableEq

structure RelocArch where
  relative : BitVec 32
  globDat : BitVec 32
  jumpSlot : BitVec 32
  abs : BitVec 32
  irelative : BitVec 32
  tlsDtpmod : BitVec 32
  tlsDtprel : BitVec 32
  tlsTprel : BitVec 32
  tlsdesc : BitVec 32

def RelocArch.aarch64 : RelocArch := ⟨1027, 1025, 1026, 257, 1032, 1028, 1029, 1030, 1031⟩

def RelocArch.x86_64 : RelocArch := ⟨8, 6, 7, 1, 37, 16, 17, 18, 36⟩

def RelocArch.riscv64 : RelocArch := ⟨3, 2, 5, 2, 58, 7, 9, 11, 12⟩

def RelocArch.isTlsReloc (arch : RelocArch) (type : BitVec 32) : Bool :=
  type == arch.tlsDtpmod || type == arch.tlsDtprel || type == arch.tlsTprel || type == arch.tlsdesc

/-- `RELOC_R_TYPE`, of the target with words of `w` bits. -/
def relocRType (w : Nat) (info : BitVec 64) : BitVec 32 :=
  if w = 64 then info.setWidth 32 else (info &&& 0xff).setWidth 32

def relocRSym (w : Nat) (info : BitVec 64) : BitVec 32 :=
  if w = 64 then (info >>> 32).setWidth 32 else (info >>> 8).setWidth 32

/-- What a relocation looks at in an entry of the symbol table. -/
structure DynSym (w : Nat) where
  /-- The address of the name. -/
  name : BitVec w
  /-- `st_shndx` is `SHN_UNDEF`. -/
  undef : Bool
  value : BitVec w
  /-- The type is `STT_GNU_IFUNC`. -/
  ifunc : Bool
  /-- The binding is `STB_WEAK`. -/
  weak : Bool
deriving DecidableEq

/-- The `ElfW(Sym)` at `a`. -/
def DynSym.read (mem : Memory w) (strtab a : BitVec w) : DynSym w :=
  let info := mem (a + if w = 64 then 4 else 12)
  let shndx := a + if w = 64 then 6 else 14
  { name := strtab + (mem (a + 3) ++ mem (a + 2) ++ mem (a + 1) ++ mem a).setWidth w
    undef := mem shndx = 0 ∧ mem (shndx + 1) = 0
    value := readWord mem (a + if w = 64 then 8 else 4)
    ifunc := info &&& 0xf = 10
    weak := info >>> 4 = 2 }

/-- An entry of a table, with its addend if the table has addends. -/
structure RelocEntry (w : Nat) where
  offset : BitVec w
  info : BitVec 64
  addend : Option (BitVec 64)
deriving DecidableEq

/-- The words of an `ElfW(Rela)` or `ElfW(Rel)`. -/
def entryWords (isRela : Bool) : Nat := if isRela then 3 else 2

def RelocEntry.read (isRela : Bool) (mem : Memory w) (table : BitVec w) (i : Nat) : RelocEntry w :=
  let field k := readWord mem (table + BitVec.ofNat w (entryWords isRela * i + k) * wordSize w)
  ⟨field 0, (field 1).setWidth 64, if isRela then some ((field 2).signExtend 64) else none⟩

/-- A mapped image, after `ParseDynamic`; 0 is the null pointer. -/
structure RelocImage (w : Nat) where
  loadBias : BitVec w
  mapStart : BitVec w
  mapSize : BitVec w
  strtab : BitVec w
  symtab : BitVec w
  relr : BitVec w
  relrCount : Nat
  androidRel : BitVec w
  androidRelSize : Nat
  rela : BitVec w
  relaCount : Nat
  rel : BitVec w
  relCount : Nat
  pltRel : BitVec w
  pltRelSize : Nat
  pltIsRela : Bool

/-- The target, and what `ResolveSymbol` finds for the name at an address and
`CallIfuncResolver` returns. -/
structure RelocEnv (w : Nat) where
  arch : RelocArch
  wide : WideShift
  resolveSymbol : Memory w → BitVec w → BitVec w
  callIfuncResolver : BitVec w → BitVec w

structure RelocState (w : Nat) where
  mem : Memory w
  ok : Bool
  err : LoadError
  /-- The words that were read as addends or written. -/
  words : List (BitVec w)

def RelocState.fail (s : RelocState w) (err : LoadError) : RelocState w := { s with ok := false, err := err }

section Apply

variable (env : RelocEnv w) (img : RelocImage w)

def RelocImage.Inside (addr : BitVec w) : Prop :=
  ¬ (addr < img.mapStart ∨ img.mapStart + img.mapSize ≤ addr)

instance (addr : BitVec w) : Decidable (img.Inside addr) := inferInstanceAs (Decidable (¬ _))

/-- The value of a symbol of `symbols`, if it has one. -/
def RelocImage.symbolValue (symbols : Memory w) (sym : BitVec 32) : Option (BitVec w) :=
  let s := DynSym.read symbols img.strtab
    (img.symtab + sym.setWidth w * BitVec.ofNat w (if w = 64 then 24 else 16))
  if s.undef then
    let resolved := env.resolveSymbol symbols s.name
    if resolved = 0 then if s.weak then some 0 else none else some resolved
  else
    let value := img.loadBias + s.value
    some (if s.ifunc then env.callIfuncResolver value else value)

/-- What `apply` stores in a slot inside the mapping, if anything. -/
def RelocImage.relocValue (symbols : Memory w) (info addend : BitVec 64) :
    Except LoadError (Option (BitVec w)) :=
  let type := relocRType w info
  if type = 0 then .ok none
  else if env.arch.isTlsReloc type then .error .unsupported
  else if type = env.arch.relative then .ok (some (img.loadBias + addend.setWidth w))
  else if type = env.arch.irelative then
    .ok (some (env.callIfuncResolver (img.loadBias + addend.setWidth w)))
  else
    match img.symbolValue env symbols (relocRSym w info) with
    | none => .error .error
    | some value =>
      if type = env.arch.jumpSlot then .ok (some value)
      else if type = env.arch.globDat then
        .ok (some (if env.arch.abs = env.arch.globDat then value + addend.setWidth w else value))
      else if type = env.arch.abs then .ok (some (value + addend.setWidth w))
      else .error .unsupported

/-- The lambda `apply` of `Relocate`, with the symbols of `symbols`. -/
def RelocImage.apply (symbols : Memory w) (offset : BitVec w) (info addend : BitVec 64)
    (s : RelocState w) : RelocState w :=
  let slot := img.loadBias + offset
  if img.Inside slot then
    match img.relocValue env symbols info addend with
    | .ok none => s
    | .ok (some value) => { s with mem := writeWord s.mem slot value, words := s.words ++ [slot] }
    | .error err => s.fail err
  else s.fail .error

/-- An entry without an addend has it in its slot. -/
def RelocImage.applyEntry (symbols : Memory w) (e : RelocEntry w) (s : RelocState w) : RelocState w :=
  let slot := img.loadBias + e.offset
  match e.addend with
  | some addend => img.apply env symbols e.offset e.info addend s
  | none =>
    img.apply env symbols e.offset e.info ((readWord s.mem slot).signExtend 64)
      { s with words := s.words ++ [slot] }

/-! ## Tables in memory -/

/-- The callback for RELR tables. -/
def RelocImage.addBias (s : RelocState w) (slot : BitVec w) : RelocState w :=
  { s with mem := writeWord s.mem slot (readWord s.mem slot + img.loadBias), words := s.words ++ [slot] }

def RelocImage.relrEntry (mem : Memory w) (i : Nat) : BitVec w :=
  readWord mem (img.relr + BitVec.ofNat w i * wordSize w)

/-- The loop of `ForEachRelr`, with `n` entries left from entry `i` on. -/
def RelocImage.relrLoop : Nat → Nat → BitVec w → RelocState w → RelocState w
  | 0, _, _, s => s
  | n + 1, i, base, s =>
    let (slots, base) := relrStep img.loadBias base (img.relrEntry s.mem i)
    RelocImage.relrLoop n (i + 1) base (slots.foldl img.addBias s)

def RelocImage.applyRelr (s : RelocState w) : RelocState w :=
  if img.relr = 0 then s else img.relrLoop img.relrCount 0 0 s

/-- The same place of the stream, as it is in memory now. -/
def Cursor.reread (mem : Memory w) (stop : BitVec w) (c : Cursor) : Cursor :=
  { c with rest := window mem (stop - BitVec.ofNat w c.rest.length) c.rest.length }

def RelocImage.packedEnd : BitVec w := img.androidRel + BitVec.ofNat w img.androidRelSize

/-- The inner loop of `ForEachPackedReloc`, with `apply` as `emit`: every relocation is applied,
also after a bad one. -/
def RelocImage.applyGroup (flags : BitVec 64) (groupDelta : BitVec w) :
    Nat → Reloc w → Cursor → RelocState w → RelocState w × Reloc w × Cursor
  | 0, r, c, s => (s, r, c)
  | n + 1, r, c, s =>
    let (r, c) := nextReloc env.wide flags groupDelta r c
    let s := img.apply env s.mem r.offset r.info r.addend s
    RelocImage.applyGroup flags groupDelta n r (c.reread s.mem img.packedEnd) s

/-- The outer loop, of which `n` rounds are looked at. -/
def RelocImage.applyGroups (total : BitVec 64) :
    Nat → BitVec 64 → Reloc w → Cursor → RelocState w → Option (RelocState w)
  | 0, _, _, _, _ => none
  | n + 1, idx, r, c, s =>
    if idx.slt total then
      let (size, c) := readSleb128 env.wide c
      let (flags, c) := readSleb128 env.wide c
      let (groupDelta, r, c) := groupHead env.wide flags r c
      let (s, r, c) := img.applyGroup env flags groupDelta size.toInt.toNat r c s
      RelocImage.applyGroups total n (idx + size) r c s
    else some s

def RelocImage.applyPacked (n : Nat) (s : RelocState w) : Option (RelocState w) :=
  if img.androidRel = 0 ∨ img.androidRelSize = 0 then some s
  else
    let stream := window s.mem img.androidRel img.androidRelSize
    if stream.take 4 ≠ aps2Magic then some (s.fail .error)
    else
      let (total, c) := readSleb128 env.wide ⟨stream.drop 4, true⟩
      let (offset, c) := readSleb128 env.wide c
      img.applyGroups env total n 0 ⟨offset.setWidth w, 0, 0⟩ c s

/-- A loop over a plain table, which ends at the first bad entry. -/
def RelocImage.applyTable (isRela : Bool) (table : BitVec w) : Nat → Nat → RelocState w → RelocState w
  | 0, _, s => s
  | n + 1, i, s =>
    if s.ok then
      RelocImage.applyTable isRela table n (i + 1)
        (img.applyEntry env s.mem (.read isRela s.mem table i) s)
    else s

/-- The number of entries that `DT_PLTRELSZ` stands for. -/
def RelocImage.pltCount : Nat := img.pltRelSize / (entryWords img.pltIsRela * (w / 8))

/-- `Relocate`, after the libraries that the image needs were opened; `n` bounds the
groups of the packed relocations. `ok` is what it returns. -/
def RelocImage.relocate (n : Nat) (mem : Memory w) (err : LoadError) : Option (RelocState w) :=
  (img.applyPacked env n (img.applyRelr ⟨mem, true, err, []⟩)).map fun s =>
    let s := img.applyTable env false img.rel img.relCount 0
      (img.applyTable env true img.rela img.relaCount 0 s)
    if img.pltRel = 0 then s else img.applyTable env img.pltIsRela img.pltRel img.pltCount 0 s

end Apply

/-! ## Tables as lists -/

section Lists

variable (env : RelocEnv w) (img : RelocImage w)

def Reloc.entry (r : Reloc w) : RelocEntry w := ⟨r.offset, r.info, some r.addend⟩

def RelocImage.relrTable (mem : Memory w) : List (BitVec w) :=
  if img.relr = 0 then [] else (List.range img.relrCount).map (img.relrEntry mem)

/-- What the stream stands for, if it is read to its end. -/
def RelocImage.packed (n : Nat) (mem : Memory w) : Option (Decoded w) :=
  if img.androidRel = 0 ∨ img.androidRelSize = 0 then some ⟨true, [], none, true⟩
  else forEachPackedReloc env.wide n (window mem img.androidRel img.androidRelSize)

def tableEntries (isRela : Bool) (mem : Memory w) (table : BitVec w) (n : Nat) : List (RelocEntry w) :=
  (List.range n).map (.read isRela mem table)

def RelocImage.pltEntries (mem : Memory w) : List (RelocEntry w) :=
  if img.pltRel = 0 then [] else tableEntries img.pltIsRela mem img.pltRel img.pltCount

/-- The plain tables, in the order in which they are gone through. -/
def RelocImage.plainEntries (mem : Memory w) : List (RelocEntry w) :=
  tableEntries true mem img.rela img.relaCount ++ tableEntries false mem img.rel img.relCount ++
    img.pltEntries mem

def RelocImage.applyEntries (symbols : Memory w) : List (RelocEntry w) → RelocState w → RelocState w
  | [], s => s
  | e :: es, s => if s.ok then RelocImage.applyEntries symbols es (img.applyEntry env symbols e s) else s

def RelocImage.applyDecoded (symbols : Memory w) (d : Decoded w) (s : RelocState w) : RelocState w :=
  let s := d.emitted.foldl (fun s r => img.apply env symbols r.offset r.info r.addend s) s
  if d.ok then s else s.fail .error

/-- `Relocate` with the tables as they are in `mem`. -/
def RelocImage.relocateLists (mem : Memory w) (d : Decoded w) (err : LoadError) : RelocState w :=
  let relr := (forEachRelr img.loadBias 0 (img.relrTable mem)).foldl img.addBias ⟨mem, true, err, []⟩
  img.applyEntries env mem (img.plainEntries mem) (img.applyDecoded env mem d relr)

/-- A relocation writes no byte of `keep`, and these bytes decide what it writes. -/
structure RelocImage.Settled (keep : BitVec w → Prop) (offset : BitVec w) (info : BitVec 64) : Prop where
  spared : ∀ x, Within (img.loadBias + offset) x → ¬ keep x
  decided : ∀ mem mem' : Memory w, (∀ x, keep x → mem x = mem' x) → ∀ addend,
    img.relocValue env mem info addend = img.relocValue env mem' info addend

/-- The bytes of the tables are among those of `keep`, and nothing writes there. -/
structure RelocImage.Undisturbed (mem : Memory w) (packed : List (Reloc w)) (keep : BitVec w → Prop) :
    Prop where
  relrBytes : ∀ i, i < img.relrCount → ∀ x, Within (img.relr + BitVec.ofNat w i * wordSize w) x → keep x
  packedBytes : ∀ i, i < img.androidRelSize → keep (img.androidRel + BitVec.ofNat w i)
  plainBytes : ∀ t ∈ [(true, img.rela, img.relaCount), (false, img.rel, img.relCount),
      (img.pltIsRela, img.pltRel, img.pltCount)],
    ∀ i, i < entryWords t.1 * t.2.2 → ∀ x, Within (t.2.1 + BitVec.ofNat w i * wordSize w) x → keep x
  relr : ∀ a ∈ forEachRelr img.loadBias 0 (img.relrTable mem), ∀ x, Within a x → ¬ keep x
  packed : ∀ r ∈ packed, img.Settled env keep r.offset r.info
  plain : ∀ e ∈ img.plainEntries mem, img.Settled env keep e.offset e.info

end Lists

/-! ## One list of relocations, packed or plain -/

/-- A relocation as an entry of a table of the target's kind. -/
def Reloc.entryOf (usesRela : Bool) (r : Reloc w) : RelocEntry w :=
  ⟨r.offset, r.info, if usesRela then some r.addend else none⟩

section Encodings

variable (env : RelocEnv w) (img : RelocImage w) (symbols : Memory w)

/-- The relocations in a table of the target's kind. -/
def RelocImage.withTable (usesRela : Bool) (table : BitVec w) (n : Nat) : RelocImage w :=
  if usesRela then { img with androidRelSize := 0, rela := table, relaCount := n, relCount := 0 }
  else { img with androidRelSize := 0, relaCount := 0, rel := table, relCount := n }

end Encodings

namespace RelocateLemmas

/-! ## Tables that are not written -/

section InPlace

variable {env : RelocEnv w} {img : RelocImage w} {keep : BitVec w → Prop} {mem₀ : Memory w}
  {s : RelocState w}

theorem apply_keeps {offset : BitVec w} {info : BitVec 64} (addend : BitVec 64)
    (hspared : img.Settled env keep offset info) (h : ∀ x, keep x → s.mem x = mem₀ x) :
    ∀ x, keep x → (img.apply env mem₀ offset info addend s).mem x = mem₀ x := by
  intro x hx
  rw [RelocImage.apply]
  split
  · split
    · exact h x hx
    · exact (writeWord_of_not_within (fun hin => hspared.spared x hin hx) _ _).trans (h x hx)
    · exact h x hx
  · exact h x hx

theorem foldl_addBias_keeps {slots : List (BitVec w)} (hspared : ∀ a ∈ slots, ∀ x, Within a x → ¬ keep x)
    (h : ∀ x, keep x → s.mem x = mem₀ x) : ∀ x, keep x → (slots.foldl img.addBias s).mem x = mem₀ x := by
  refine List.foldlRecOn (motive := fun s : RelocState w => ∀ x, keep x → s.mem x = mem₀ x) slots _ h
    fun s hs a ha x hx => ?_
  exact (writeWord_of_not_within (fun hin => hspared a ha x hin hx) _ _).trans (hs x hx)

theorem foldl_apply_keeps {relocs : List (Reloc w)}
    (hspared : ∀ r ∈ relocs, img.Settled env keep r.offset r.info)
    (h : ∀ x, keep x → s.mem x = mem₀ x) : ∀ x, keep x →
      (relocs.foldl (fun s r => img.apply env mem₀ r.offset r.info r.addend s) s).mem x = mem₀ x :=
  List.foldlRecOn (motive := fun s : RelocState w => ∀ x, keep x → s.mem x = mem₀ x) relocs _ h
    fun _ hs r hr => apply_keeps _ (hspared r hr) hs

theorem relrLoop_eq (h8 : 8 ∣ w) {n i : Nat}
    (hread : ∀ j, j < i + n → ∀ x, Within (img.relr + BitVec.ofNat w j * wordSize w) x → keep x)
    {base : BitVec w}
    (hspared : ∀ a ∈ forEachRelr img.loadBias base ((List.range' i n).map (img.relrEntry mem₀)),
      ∀ x, Within a x → ¬ keep x) (h : ∀ x, keep x → s.mem x = mem₀ x) :
    img.relrLoop n i base s =
      (forEachRelr img.loadBias base ((List.range' i n).map (img.relrEntry mem₀))).foldl img.addBias s := by
  induction n generalizing i base s with
  | zero => rfl
  | succ n ih =>
    rw [range'_succ, map_cons, forEachRelr, foldl_append]
    rw [range'_succ, map_cons, forEachRelr, forall_mem_append] at hspared
    have hentry : img.relrEntry s.mem i = img.relrEntry mem₀ i :=
      readWord_congr h8 fun x hx => h x (hread i (by omega) x hx)
    rw [RelocImage.relrLoop, hentry]
    exact ih (fun j hj => hread j (by omega)) hspared.2 (foldl_addBias_keeps hspared.1 h)

theorem apply_symbols {offset : BitVec w} {info : BitVec 64} (hsettled : img.Settled env keep offset info)
    (h : ∀ x, keep x → s.mem x = mem₀ x) (addend : BitVec 64) (s' : RelocState w) :
    img.apply env s.mem offset info addend s' = img.apply env mem₀ offset info addend s' := by
  simp only [RelocImage.apply, hsettled.decided _ _ h]

theorem entry_read_eq (h8 : 8 ∣ w) {isRela : Bool} {table : BitVec w} {i n : Nat}
    (hread : ∀ j, j < entryWords isRela * n → ∀ x, Within (table + BitVec.ofNat w j * wordSize w) x → keep x)
    (hi : i < n) (h : ∀ x, keep x → s.mem x = mem₀ x) :
    RelocEntry.read isRela s.mem table i = .read isRela mem₀ table i := by
  have hfield : ∀ k, k < entryWords isRela →
      readWord s.mem (table + BitVec.ofNat w (entryWords isRela * i + k) * wordSize w) =
        readWord mem₀ (table + BitVec.ofNat w (entryWords isRela * i + k) * wordSize w) := by
    intro k hk
    refine readWord_congr h8 fun x hx => h x (hread _ ?_ x hx)
    calc entryWords isRela * i + k < entryWords isRela * (i + 1) := by rw [Nat.mul_add_one]; omega
      _ ≤ entryWords isRela * n := Nat.mul_le_mul_left _ hi
  cases isRela with
  | false => simp only [RelocEntry.read, hfield 0 (by decide), hfield 1 (by decide),
      Bool.false_eq_true, if_false]
  | true => simp only [RelocEntry.read, hfield 0 (by decide), hfield 1 (by decide), hfield 2 (by decide)]

theorem applyTable_eq (h8 : 8 ∣ w) {isRela : Bool} {table : BitVec w} {n i : Nat}
    (hread : ∀ j, j < entryWords isRela * (i + n) →
      ∀ x, Within (table + BitVec.ofNat w j * wordSize w) x → keep x)
    (hspared : ∀ e ∈ (List.range' i n).map (RelocEntry.read isRela mem₀ table),
      img.Settled env keep e.offset e.info) (h : ∀ x, keep x → s.mem x = mem₀ x) :
    img.applyTable env isRela table n i s =
        img.applyEntries env mem₀ ((List.range' i n).map (.read isRela mem₀ table)) s ∧
      ∀ x, keep x → (img.applyTable env isRela table n i s).mem x = mem₀ x := by
  induction n generalizing i s with
  | zero => exact ⟨rfl, h⟩
  | succ n ih =>
    rw [range'_succ, map_cons, forall_mem_cons] at hspared
    rw [range'_succ, map_cons, RelocImage.applyTable, RelocImage.applyEntries]
    split
    · have hstep : img.applyEntry env s.mem (.read isRela s.mem table i) s =
          img.applyEntry env mem₀ (.read isRela mem₀ table i) s := by
        rw [entry_read_eq h8 hread (by omega) h]
        simp only [RelocImage.applyEntry, apply_symbols hspared.1 h]
      have hkeeps : ∀ x, keep x → (img.applyEntry env mem₀ (.read isRela mem₀ table i) s).mem x = mem₀ x := by
        rw [RelocImage.applyEntry]
        split
        · exact apply_keeps _ hspared.1 h
        · exact apply_keeps _ hspared.1 h
      rw [hstep]
      exact ih (by rwa [Nat.add_right_comm, Nat.add_assoc]) hspared.2 hkeeps
    · exact ⟨rfl, h⟩

/-! ## Streams that are not written -/

theorem readSlebFrom_suffix (wide : WideShift) (complete : Bool) (value : BitVec 64) (shift : Nat)
    (bytes : List (BitVec 8)) : (readSlebFrom wide complete value shift bytes).2.rest <:+ bytes := by
  induction bytes generalizing value shift with
  | nil => exact suffix_rfl
  | cons byte bytes ih =>
    simp only [readSlebFrom]
    split
    · exact (ih _ _).trans (suffix_cons _ _)
    · split <;> exact suffix_cons _ _

theorem readSleb128_suffix (wide : WideShift) (c : Cursor) : (readSleb128 wide c).2.rest <:+ c.rest :=
  readSlebFrom_suffix ..

theorem readIf_suffix (wide : WideShift) (cond : Bool) (value : BitVec 64) (c : Cursor) :
    (readIf wide cond value c).2.rest <:+ c.rest := by
  rw [readIf]
  split
  · exact readSleb128_suffix ..
  · exact suffix_rfl

theorem nextReloc_suffix (wide : WideShift) (flags : BitVec 64) (groupDelta : BitVec w) (r : Reloc w)
    (c : Cursor) : (nextReloc wide flags groupDelta r c).2.rest <:+ c.rest :=
  (readIf_suffix ..).trans ((readIf_suffix ..).trans (readIf_suffix ..))

theorem groupHead_suffix (wide : WideShift) (flags : BitVec 64) (r : Reloc w) (c : Cursor) :
    (groupHead wide flags r c).2.2.rest <:+ c.rest :=
  (readIf_suffix ..).trans ((readIf_suffix ..).trans (readIf_suffix ..))

variable (hread : ∀ i, i < img.androidRelSize → keep (img.androidRel + BitVec.ofNat w i))

include hread

/-- What is read again of a stream that is kept is the same. -/
theorem reread_eq {c : Cursor} (h : ∀ x, keep x → s.mem x = mem₀ x)
    (hc : c.rest <:+ window mem₀ img.androidRel img.androidRelSize) :
    c.reread s.mem img.packedEnd = c := by
  have hlen := hc.length_le
  rw [length_window] at hlen
  have hrest := suffix_iff_eq_drop.mp hc
  rw [length_window, drop_window, Nat.sub_sub_self hlen] at hrest
  have hstart : img.packedEnd - BitVec.ofNat w c.rest.length =
      img.androidRel + BitVec.ofNat w (img.androidRelSize - c.rest.length) := by
    obtain ⟨k, hk⟩ := Nat.exists_eq_add_of_le hlen
    rw [RelocImage.packedEnd, hk, Nat.add_sub_cancel_left, BitVec.ofNat_add]
    ring
  have hsame : window s.mem (img.packedEnd - BitVec.ofNat w c.rest.length) c.rest.length = c.rest := by
    refine Eq.trans ?_ hrest.symm
    rw [hstart]
    refine map_congr_left fun i hi => h _ ?_
    rw [add_assoc, ← BitVec.ofNat_add]
    exact hread _ (by have := mem_range.mp hi; omega)
  rw [Cursor.reread, hsame]

theorem applyGroup_eq {flags : BitVec 64} {groupDelta : BitVec w} {n : Nat} {r : Reloc w} {c : Cursor}
    (hspared : ∀ r' ∈ (groupRelocs env.wide flags groupDelta n r c).1,
      img.Settled env keep r'.offset r'.info)
    (h : ∀ x, keep x → s.mem x = mem₀ x)
    (hc : c.rest <:+ window mem₀ img.androidRel img.androidRelSize) :
    img.applyGroup env flags groupDelta n r c s =
        ((groupRelocs env.wide flags groupDelta n r c).1.foldl
          (fun s r => img.apply env mem₀ r.offset r.info r.addend s) s,
          (groupRelocs env.wide flags groupDelta n r c).2) ∧
      (groupRelocs env.wide flags groupDelta n r c).2.2.rest <:+
        window mem₀ img.androidRel img.androidRelSize := by
  induction n generalizing r c s with
  | zero => exact ⟨rfl, hc⟩
  | succ n ih =>
    have hc' := (nextReloc_suffix env.wide flags groupDelta r c).trans hc
    simp only [groupRelocs, forall_mem_cons] at hspared ⊢
    have hkeeps := apply_keeps (nextReloc env.wide flags groupDelta r c).1.addend hspared.1 h
    rw [RelocImage.applyGroup, foldl_cons]
    dsimp only
    rw [apply_symbols hspared.1 h, reread_eq hread hkeeps hc']
    exact ih hspared.2 hkeeps hc'

theorem applyGroups_eq {total idx : BitVec 64} {n : Nat} {r : Reloc w} {c c' : Cursor}
    {emitted : List (Reloc w)} (hgroups : readGroups env.wide total n idx r c = some (emitted, c'))
    (hspared : ∀ r' ∈ emitted, img.Settled env keep r'.offset r'.info)
    (h : ∀ x, keep x → s.mem x = mem₀ x)
    (hc : c.rest <:+ window mem₀ img.androidRel img.androidRelSize) :
    img.applyGroups env total n idx r c s =
      some (emitted.foldl (fun s r => img.apply env mem₀ r.offset r.info r.addend s) s) := by
  induction n generalizing idx r c c' s emitted with
  | zero => cases hgroups
  | succ n ih =>
    rw [readGroups] at hgroups
    rw [RelocImage.applyGroups]
    split at hgroups
    · next hlt =>
      rw [if_pos hlt]
      dsimp only [readGroup] at hgroups ⊢
      have hsize := readSleb128_suffix env.wide c
      generalize readSleb128 env.wide c = size at hgroups hsize ⊢
      have hflags := readSleb128_suffix env.wide size.2
      generalize readSleb128 env.wide size.2 = flags at hgroups hflags ⊢
      have hhead := groupHead_suffix env.wide flags.1 r flags.2
      generalize groupHead env.wide flags.1 r flags.2 = head at hgroups hhead ⊢
      obtain ⟨⟨more, c''⟩, hmore, heq⟩ := Option.map_eq_some_iff.mp hgroups
      obtain ⟨rfl, -⟩ := Prod.mk.inj heq
      rw [forall_mem_append] at hspared
      obtain ⟨hgroup, hrest⟩ := applyGroup_eq hread hspared.1 h
        (hhead.trans (hflags.trans (hsize.trans hc)))
      rw [hgroup, foldl_append]
      exact ih hmore hspared.2 (foldl_apply_keeps hspared.1 h) hrest
    · next hge =>
      rw [if_neg hge]
      cases hgroups
      rfl

theorem applyPacked_eq {n : Nat} {d : Decoded w} (hd : img.packed env n mem₀ = some d)
    (hspared : ∀ r ∈ d.emitted, img.Settled env keep r.offset r.info)
    (h : ∀ x, keep x → s.mem x = mem₀ x) :
    img.applyPacked env n s = some (img.applyDecoded env mem₀ d s) := by
  have hstream : window s.mem img.androidRel img.androidRelSize =
      window mem₀ img.androidRel img.androidRelSize :=
    map_congr_left fun i hi => h _ (hread i (mem_range.mp hi))
  rw [RelocImage.packed] at hd
  rw [RelocImage.applyPacked, hstream]
  split at hd
  · next hnone =>
    rw [if_pos hnone]
    cases hd
    rfl
  · next hsome =>
    rw [if_neg hsome]
    rw [forEachPackedReloc] at hd
    split at hd
    · next hmagic =>
      rw [if_pos hmagic]
      cases hd
      rfl
    · next hmagic =>
      rw [if_neg hmagic]
      obtain ⟨⟨emitted, c⟩, hgroups, rfl⟩ := Option.map_eq_some_iff.mp hd
      refine applyGroups_eq hread hgroups hspared h ?_
      exact (readSleb128_suffix ..).trans ((readSleb128_suffix ..).trans (drop_suffix _ _))

end InPlace

theorem applyEntries_stop {env : RelocEnv w} {img : RelocImage w} {symbols : Memory w}
    (l : List (RelocEntry w)) {s : RelocState w} (h : s.ok = false) : img.applyEntries env symbols l
      s = s := by
  cases l with
  | nil => rfl
  | cons e l => rw [RelocImage.applyEntries, h, if_neg Bool.false_ne_true]

theorem applyEntries_append {env : RelocEnv w} {img : RelocImage w} {symbols : Memory w}
    (l l' : List (RelocEntry w)) (s : RelocState w) :
    img.applyEntries env symbols (l ++ l') s =
      img.applyEntries env symbols l' (img.applyEntries env symbols l s) := by
  induction l generalizing s with
  | nil => rfl
  | cons e l ih =>
    rw [cons_append, RelocImage.applyEntries, RelocImage.applyEntries]
    cases hok : s.ok with
    | false => exact (applyEntries_stop l' hok).symm
    | true => exact ih _

theorem applyRelr_eq (h8 : 8 ∣ w) {img : RelocImage w} {keep : BitVec w → Prop} {s : RelocState w}
    (hread : ∀ i, i < img.relrCount → ∀ x, Within (img.relr + BitVec.ofNat w i * wordSize w) x → keep x)
    (hspared : ∀ a ∈ forEachRelr img.loadBias 0 (img.relrTable s.mem), ∀ x, Within a x → ¬ keep x) :
    img.applyRelr s = (forEachRelr img.loadBias 0 (img.relrTable s.mem)).foldl img.addBias s := by
  rw [RelocImage.relrTable] at hspared ⊢
  rw [RelocImage.applyRelr]
  split
  · rfl
  · next hsome =>
    rw [if_neg hsome, range_eq_range'] at hspared
    rw [range_eq_range']
    exact relrLoop_eq h8 (by simpa using hread) hspared fun _ _ => rfl

/-- If nothing is written of what is read, the tables can be read at the start. -/
theorem relocate_eq (h8 : 8 ∣ w) {env : RelocEnv w} {img : RelocImage w} {keep : BitVec w → Prop}
    {mem : Memory w} {n : Nat} {d : Decoded w} (hd : img.packed env n mem = some d)
    (h : img.Undisturbed env mem d.emitted keep) (err : LoadError) :
    img.relocate env n mem err = some (img.relocateLists env mem d err) := by
  have ⟨_, _, _, hrelr, hpacked, hplain⟩ := h
  have hrelrs := applyRelr_eq (s := ⟨mem, true, err, []⟩) h8 h.relrBytes hrelr
  have hkept : ∀ x, keep x → (img.applyRelr ⟨mem, true, err, []⟩).mem x = mem x := by
    rw [hrelrs]
    exact foldl_addBias_keeps hrelr fun _ _ => rfl
  rw [RelocImage.relocate, applyPacked_eq h.packedBytes hd hpacked hkept, Option.map_some,
    RelocImage.relocateLists, ← hrelrs, RelocImage.plainEntries, applyEntries_append, applyEntries_append]
  have hkept' : ∀ x, keep x →
      (img.applyDecoded env mem d (img.applyRelr ⟨mem, true, err, []⟩)).mem x = mem x := by
    rw [RelocImage.applyDecoded]
    split
    · exact foldl_apply_keeps hpacked hkept
    · exact foldl_apply_keeps hpacked hkept
  rw [RelocImage.plainEntries, forall_mem_append, forall_mem_append] at hplain
  obtain ⟨⟨hrela, hrel⟩, hplt⟩ := hplain
  simp only [tableEntries, range_eq_range'] at hrela hrel ⊢
  obtain ⟨heq, hkept⟩ := applyTable_eq h8 (by simpa using h.plainBytes (true, _, _) (by simp))
    hrela hkept'
  rw [← heq]
  obtain ⟨heq, hkept⟩ := applyTable_eq h8 (by simpa using h.plainBytes (false, _, _) (by simp))
    hrel hkept
  rw [← heq, RelocImage.pltEntries]
  rw [RelocImage.pltEntries] at hplt
  split
  · rfl
  · next hsome =>
    rw [if_neg hsome, tableEntries, range_eq_range'] at hplt
    rw [tableEntries, range_eq_range',
      (applyTable_eq h8 (by simpa using h.plainBytes (_, _, _) (by simp)) hplt hkept).1]

/-! ## RELR tables -/

theorem and_one_eq_zero_iff (bits : BitVec w) : bits &&& 1 = 0 ↔ bits.getLsbD 0 = false := by
  rw [show bits &&& 1 = bits &&& 1#w from rfl, BitVec.and_one_eq_setWidth_ofBool_getLsbD]
  cases hbit : bits.getLsbD 0 with
  | false => simp
  | true =>
    have hw : 0 < w := BitVec.lt_of_getLsbD hbit
    refine iff_of_false (fun h => ?_) nofun
    have hzero := congrArg (fun v => v.getLsbD 0) h
    simp [hw] at hzero

theorem getLsbD_half (bits : BitVec w) (i : Nat) : (bits >>> 1).getLsbD i = bits.getLsbD (i + 1) := by
  rw [BitVec.getLsbD_ushiftRight, Nat.add_comm]

theorem slot_succ (slot : BitVec w) (i : Nat) :
    slot + wordSize w + BitVec.ofNat w i * wordSize w =
      slot + BitVec.ofNat w (i + 1) * wordSize w := by
  rw [BitVec.ofNat_add, add_mul, show BitVec.ofNat w 1 = 1 from rfl, one_mul, add_assoc,
    add_comm (wordSize w)]

theorem relrBits_eq (n : Nat) (bits slot : BitVec w) :
    relrBits n bits slot =
      ((List.range n).filter fun i => bits.getLsbD i).map fun i => slot + BitVec.ofNat w i * wordSize w := by
  induction n generalizing bits slot with
  | zero => rfl
  | succ n ih =>
    rw [relrBits]
    split
    · next hzero => simp [hzero]
    · have htail : relrBits n (bits >>> 1) (slot + wordSize w) =
          (((List.range n).map Nat.succ).filter fun i => bits.getLsbD i).map
            fun i => slot + BitVec.ofNat w i * wordSize w := by
        simp only [ih, filter_map, map_map, Function.comp_def, getLsbD_half, slot_succ]
      rw [htail, range_succ_eq_map, filter_cons]
      simp only [ne_eq, and_one_eq_zero_iff, Bool.not_eq_false]
      split
      · simp
      · rfl

theorem relrBits_bitmap (hw : 0 < w) (entry slot : BitVec w) :
    relrBits w (entry >>> 1) slot = bitmapSlots slot entry := by
  obtain ⟨k, rfl⟩ : ∃ k, w = k + 1 := ⟨w - 1, by omega⟩
  -- The last of the `w` rounds has no bit left.
  have hlast : entry.getLsbD (k + 1) = false := BitVec.getLsbD_of_ge entry (k + 1) le_rfl
  simp only [relrBits_eq, bitmapSlots, getLsbD_half, range_succ, filter_append, filter_cons,
    hlast, filter_nil, Nat.add_sub_cancel]
  simp

theorem bitmapSlots_add (bias base entry : BitVec w) :
    bitmapSlots (bias + base) entry = (bitmapSlots base entry).map (bias + ·) := by
  simp only [bitmapSlots, map_map, Function.comp_def, add_assoc]

/-- The addresses of a table are emitted, where `cur` is the place of the next bitmap's
slots. -/
theorem forEachRelr_encodes (hw : 0 < w) (bias : BitVec w) {base : Option (BitVec w)}
    {table addrs : List (BitVec w)} (h : RelrEncodes base table addrs) (cur : BitVec w)
    (hcur : ∀ b, base = some b → cur = bias + b) :
    forEachRelr bias cur table = addrs.map (bias + ·) := by
  induction h generalizing cur with
  | nil => rfl
  | address heven _ ih =>
    rw [forEachRelr, relrStep, if_pos heven, ih]
    · rfl
    · rintro _ ⟨⟩
      rw [add_assoc]
  | bitmap hodd _ ih =>
    rw [forEachRelr, relrStep, if_neg hodd, relrBits_bitmap hw, hcur _ rfl, bitmapSlots_add, ih,
      map_append]
    rintro _ ⟨⟩
    rw [add_assoc]

theorem apart_of_aligned (hw : w / 8 ∣ 2 ^ w) (bias : BitVec w) {a b : BitVec w} (ha : w / 8 ∣ a.toNat)
    (hb : w / 8 ∣ b.toNat) (h : a < b) : Apart (bias + a) (bias + b) := by
  have hlt : a.toNat < b.toNat := h
  have hle : w / 8 ≤ b.toNat - a.toNat :=
    Nat.le_of_dvd (Nat.sub_pos_of_lt hlt) (Nat.dvd_sub hb ha)
  have hle' : w / 8 ≤ 2 ^ w - b.toNat :=
    Nat.le_of_dvd (Nat.sub_pos_of_lt b.isLt) (Nat.dvd_sub hw hb)
  rw [Apart, add_sub_add_left_eq_sub, add_sub_add_left_eq_sub,
    BitVec.toNat_sub_of_le (BitVec.le_of_lt h), BitVec.toNat_sub_of_lt h]
  exact ⟨hle, by omega⟩

theorem word_dvd (hw : w = 32 ∨ w = 64) : 8 ∣ w ∧ w / 8 ∣ 2 ^ w ∧ 0 < w ∧ w ≤ 64 := by
  rcases hw with rfl | rfl <;> decide

theorem foldl_addBias (img : RelocImage w) (slots : List (BitVec w)) (s : RelocState w) :
    slots.foldl img.addBias s =
      { s with
        mem := slots.foldl (updateWord id fun _ word => word + img.loadBias) s.mem
        words := s.words ++ slots } := by
  induction slots generalizing s with
  | nil => rw [foldl_nil, foldl_nil, append_nil]
  | cons slot slots ih =>
    rw [foldl_cons, ih, RelocImage.addBias]
    simp [updateWord]

/-! ## Single relocations -/

section Apply

variable (env : RelocEnv w) (img : RelocImage w) (symbols : Memory w)

/-- Addends do not decide what kind of thing a relocation does. -/
theorem relocValue_shape (info addend addend' : BitVec 64) :
    (img.relocValue env symbols info addend).map Option.isSome =
      (img.relocValue env symbols info addend').map Option.isSome := by
  simp only [RelocImage.relocValue]
  repeat' split
  all_goals rfl

/-! ## Lists of relocations -/

variable {relocs : List (Reloc w)}

/-! ## Comparing the two forms -/

end Apply

end RelocateLemmas

open RelocateLemmas

/-- The load bias is added once to each word that a RELR table stands for, in the
order of the table, and nothing else is changed, if none of the words is one of the table. -/
theorem relr_decoding_exact (hw : w = 32 ∨ w = 64) (env : RelocEnv w) (img : RelocImage w) {mem : Memory w}
    {addrs : List (BitVec w)} (hsorted : addrs.Pairwise (· < ·)) (haligned : ∀ a ∈ addrs, w / 8 ∣ a.toNat)
    (henc : RelrEncodes none (img.relrTable mem) addrs)
    (hapart : ∀ i, i < img.relrCount → ∀ a ∈ addrs,
      Apart (img.relr + BitVec.ofNat w i * wordSize w) (img.loadBias + a)) (err : LoadError) :
    (img.applyRelr ⟨mem, true, err, []⟩).words = addrs.map (img.loadBias + ·) ∧
      (∀ a ∈ addrs, readWord (img.applyRelr ⟨mem, true, err, []⟩).mem (img.loadBias + a) =
        readWord mem (img.loadBias + a) + img.loadBias) ∧
      (∀ x, (∀ a ∈ addrs, ¬ Within (img.loadBias + a) x) →
        (img.applyRelr ⟨mem, true, err, []⟩).mem x = mem x) ∧
      (img.androidRelSize = 0 → img.relaCount = 0 → img.relCount = 0 → img.pltRelSize = 0 →
        ∀ n, img.relocate env n mem err = some (img.applyRelr ⟨mem, true, err, []⟩)) := by
  obtain ⟨h8, hdvd, hpos, -⟩ := word_dvd hw
  have hemit : forEachRelr img.loadBias 0 (img.relrTable mem) = addrs.map (img.loadBias + ·) :=
    forEachRelr_encodes hpos img.loadBias henc 0 nofun
  have hrelr : img.applyRelr ⟨mem, true, err, []⟩ =
      (addrs.map (img.loadBias + ·)).foldl img.addBias ⟨mem, true, err, []⟩ := by
    rw [← hemit]
    refine applyRelr_eq h8 (fun i hi x hx => show ∃ i < img.relrCount,
      Within (img.relr + BitVec.ofNat w i * wordSize w) x from ⟨i, hi, hx⟩) ?_
    rw [hemit, forall_mem_map]
    rintro a ha x hx ⟨i, hi, hin⟩
    exact (hapart i hi a ha).not_within hin hx
  have happart : (addrs.map (img.loadBias + ·)).Pairwise fun a b => Apart (id a) (id b) := by
    rw [pairwise_map]
    exact hsorted.imp_of_mem fun ha hb hlt =>
      apart_of_aligned hdvd img.loadBias (haligned _ ha) (haligned _ hb) hlt
  rw [hrelr, foldl_addBias]
  refine ⟨rfl, ?_, ?_, ?_⟩
  · intro a ha
    exact readWord_foldl h8 id (fun _ word => word + img.loadBias) happart mem (mem_map_of_mem ha)
  · intro x hx
    refine foldl_outside id _ (fun b hb => ?_) mem
    obtain ⟨a, ha, rfl⟩ := mem_map.mp hb
    exact hx a ha
  · intro hpacked hrela hrel hplt n
    simp only [RelocImage.relocate, RelocImage.applyPacked, hpacked, hrela, hrel, or_true, if_true,
      Option.map_some, RelocImage.applyTable, RelocImage.pltCount, hplt, Nat.zero_div, ite_self]
    rw [hrelr, foldl_addBias]

/-- An image of four pages without tables. -/
def smallImage (w : Nat) : RelocImage w where
  loadBias := 0x10000
  mapStart := 0x10000
  mapSize := 0x4000
  strtab := 0x13000
  symtab := 0x13000
  relr := 0
  relrCount := 0
  androidRel := 0
  androidRelSize := 0
  rela := 0
  relaCount := 0
  rel := 0
  relCount := 0
  pltRel := 0
  pltRelSize := 0
  pltIsRela := true

/-- No symbol is found outside. -/
def closedEnv (arch : RelocArch) : RelocEnv w := ⟨arch, fun v _ => v, fun _ _ => 0, id⟩

def bytesAt (a : BitVec w) (bytes : List (BitVec 8)) (mem : Memory w) : Memory w :=
  fun x => bytes.getD (x - a).toNat (mem x)

def wordsAt (a : BitVec w) (words : List (BitVec w)) (mem : Memory w) : Memory w :=
  bytesAt a (words.flatMap fun word => (List.range (w / 8)).map fun i => word.extractLsb' (8 * i) 8) mem

/-- An address, and three bitmaps of which the second is empty, on the third page. -/
def relrImage : RelocImage 64 := { smallImage 64 with relr := 0x12000, relrCount := 4 }

def relrMemory : Memory 64 := wordsAt 0x12000 [0x1000, 0xd, 1, 3] fun _ => 0

theorem relr_decoding_exact_bitmaps :
    RelrEncodes none (relrImage.relrTable relrMemory) [0x1000, 0x1010, 0x1018, 0x13f8] ∧
      ∃ s, relrImage.relocate (closedEnv .aarch64) 0 relrMemory .none = some s ∧
        s.words = [0x11000, 0x11010, 0x11018, 0x113f8] := by
  have henc : RelrEncodes (w := 64) none [0x1000, 0xd, 1, 3]
      (0x1000 :: (bitmapSlots 0x1008 0xd ++ (bitmapSlots 0x1200 1 ++ (bitmapSlots 0x13f8 3 ++ [])))) :=
    .address (by decide) (.bitmap (by decide) (.bitmap (by decide) (.bitmap (by decide) .nil)))
  rw [show bitmapSlots (0x1008 : BitVec 64) 0xd = [0x1010, 0x1018] by decide +kernel,
    show bitmapSlots (0x1200 : BitVec 64) 1 = [] by decide +kernel,
    show bitmapSlots (0x13f8 : BitVec 64) 3 = [0x13f8] by decide +kernel] at henc
  have haligned : ∀ a : BitVec 64, a ∈ [0x1000, 0x1010, 0x1018, 0x13f8] → 64 / 8 ∣ a.toNat := by
    intro a ha
    simp only [mem_cons, not_mem_nil, or_false] at ha
    rcases ha with rfl | rfl | rfl | rfl <;> decide
  have htable : relrImage.relrTable relrMemory = [0x1000, 0xd, 1, 3] := by decide +kernel
  rw [← htable] at henc
  have hapart : ∀ i, i < relrImage.relrCount → ∀ a : BitVec 64, a ∈ [0x1000, 0x1010, 0x1018, 0x13f8] →
      Apart (relrImage.relr + BitVec.ofNat 64 i * wordSize 64) (relrImage.loadBias + a) := by
    intro i (hi : i < 4) a ha
    simp only [mem_cons, not_mem_nil, or_false] at ha
    interval_cases i <;> rcases ha with rfl | rfl | rfl | rfl <;> decide
  obtain ⟨hwords, -, -, hrelocate⟩ := relr_decoding_exact (.inr rfl) (closedEnv .aarch64) relrImage
    (by decide) haligned henc hapart .none
  exact ⟨henc, _, hrelocate rfl rfl rfl rfl 0, hwords⟩
/-- The first word that this table stands for is its second entry, which is read after the load bias
was added to it. -/
def selfRelocating : RelocImage 64 := { smallImage 64 with relr := 0x10200, relrCount := 2 }

def selfMemory : Memory 64 := wordsAt 0x10200 [0x208, 0x300] fun _ => 0

/-- The second word of the list is left, and another one is written. -/
theorem relr_table_relocated :
    ([0x208, 0x300] : List (BitVec 64)).Pairwise (· < ·) ∧
      RelrEncodes none (selfRelocating.relrTable selfMemory) [0x208, 0x300] ∧
      (selfRelocating.relocate (closedEnv .aarch64) 0 selfMemory .none).map
        (fun s => (s.words, readWord s.mem 0x10300, readWord s.mem 0x20300)) =
          some ([0x10208, 0x20300], 0, 0x10000) := by
  have htable : selfRelocating.relrTable selfMemory = [0x208, 0x300] := by decide +kernel
  rw [htable]
  exact ⟨by decide, .address (by decide) (.address (by decide) .nil), by decide +kernel⟩

/-- Two relative relocations with addends. -/
def relativeGroup : Group 64 :=
  ⟨9, 0, 1027, 0, [⟨0x1000, 1027, 0x10⟩, ⟨0x1010, 1027, 0x20⟩]⟩

/-- They are in both forms on the last two pages. -/
def relativeMemory : Memory 64 :=
  bytesAt 0x12000 (encodeStream 0 [relativeGroup])
    (wordsAt 0x13000 [0x1000, 1027, 0x10, 0x1010, 1027, 0x20] fun _ => 0)

/-- The relocations of the first two pages leave the tables after these. -/
theorem relative_settled (img : RelocImage 64) (hbias : img.loadBias = 0x10000) {offset : BitVec 64}
    (hoffset : offset.toNat ≤ 0x1010) : img.Settled (closedEnv .aarch64) (0x12000 ≤ ·) offset 1027 := by
  have hrelative : ∀ mem addend, img.relocValue (closedEnv .aarch64) mem 1027 addend =
      .ok (some (img.loadBias + addend.setWidth 64)) := by
    intro mem addend
    simp [RelocImage.relocValue, relocRType, closedEnv, RelocArch.aarch64, RelocArch.isTlsReloc]
  refine ⟨fun x hx (hle : 0x12000 ≤ x.toNat) => ?_, fun _ _ _ _ => by rw [hrelative, hrelative]⟩
  have htarget : (img.loadBias + offset).toNat = 0x10000 + offset.toNat := by
    rw [hbias, BitVec.toNat_add, show (0x10000 : BitVec 64).toNat = 0x10000 from rfl]
    omega
  have hbounds := hx.bounds (by omega)
  omega

theorem relative_entries : tableEntries true relativeMemory 0x13000 2 =
    (groupRelocList [relativeGroup]).map (Reloc.entryOf true) := by
  decide +kernel

theorem relative_undisturbed : ((smallImage 64).withTable true 0x13000 2).Undisturbed (closedEnv .aarch64)
    relativeMemory [] (0x12000 ≤ ·) := by
  refine ⟨nofun, nofun, ?_, nofun, nofun, ?_⟩
  · rintro t ht i hi x hx
    fin_cases ht
    · have hi : i < 6 := hi
      have haddress : ((0x13000 : BitVec 64) + BitVec.ofNat 64 i * wordSize 64).toNat = 0x13000 + i * 8 := by
        interval_cases i <;> rfl
      exact Nat.le_trans (by omega : 0x12000 ≤ 0x13000 + i * 8)
        (haddress ▸ (hx.bounds (by change BitVec.toNat (0x13000 + _) + _ ≤ _; omega)).1)
    · cases hi
    · cases hi
  · change ∀ e ∈ tableEntries true relativeMemory 0x13000 2 ++ [] ++ [], _
    rw [relative_entries]
    exact forall_mem_cons.mpr ⟨relative_settled _ rfl (by decide),
      forall_mem_singleton.mpr (relative_settled _ rfl (by decide))⟩

end NyaZygisk
