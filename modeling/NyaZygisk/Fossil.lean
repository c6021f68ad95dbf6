import NyaZygisk.Lib.CStrings
import NyaZygisk.Lib.Lines
import Mathlib.Data.UInt

/-!
# The mount command on zygote's stack

`spoof_zygote_fossil` of `clean.cpp` with the `MountArgv` of `fossil.cpp`. The stack that zygote
inherits from init holds the arguments of a mount command. They are looked for, erased, and
overwritten by those of an entry of `/proc/self/mountinfo`, which may be longer.
-/

namespace NyaZygisk.Fossil

open CStrings List

/-! ## Memory and strings -/

abbrev Memory : Type := Nat → UInt8

/-- `memcpy` and `memset`: the bytes from `a` on are replaced. -/
def store (mem : Memory) (a : Nat) (bytes : List UInt8) : Memory :=
  fun x => if a ≤ x then bytes[x - a]?.getD (mem x) else mem x

def load (mem : Memory) (a n : Nat) : List UInt8 := (List.range n).map fun i => mem (a + i)

def strnlen (mem : Memory) (p : Nat) : Nat → Nat
  | 0 => 0
  | n + 1 => if mem p = 0 then 0 else strnlen mem (p + 1) n + 1

/-- `std::string::find`. -/
def indexOf (needle : List UInt8) : List UInt8 → Option Nat
  | [] => if needle = [] then some 0 else none
  | c :: text => if needle.isPrefixOf (c :: text) then some 0 else (indexOf needle text).map (· + 1)

def contains (needle text : List UInt8) : Bool := (indexOf needle text).isSome

/-! ## `MountArgv` -/

structure MountArgv where
  startAddress : Nat
  source : List UInt8
  target : List UInt8
  filesystemType : List UInt8
  mountOptions : List UInt8
  /-- The bytes of the flags as they are in memory. -/
  baseFlags : List UInt8
  fossilSize : Nat
  remnantSize : Nat
deriving DecidableEq

/-- The string and the place after its terminator. -/
def parseAndCopyStringField (mem : Memory) (ptr limit : Nat) : Option (List UInt8 × Nat) :=
  let len := strnlen mem ptr (limit - ptr)
  if len = limit - ptr then none
  else if ptr + (len + 1) ≤ limit then some (load mem ptr len, ptr + (len + 1))
  else none

/-- The loop of `find_double_null`, with the number of bytes that are left. -/
def findDoubleNull (mem : Memory) (limit : Nat) : (left p : Nat) → Option Nat
  | 0, _ => none
  | left + 1, p =>
    if p + 1 < limit then
      if mem p = 0 ∧ mem (p + 1) = 0 then some p else findDoubleNull mem limit left (p + 1)
    else none

/-- `sizeof(uint32_t)`. -/
def flagsSize : Nat := 4

/-- The second part of `parseFromMemory`: what follows the strings. -/
def parseRest (mem : Memory) (start limit ptr : Nat)
    (source target filesystemType mountOptions : List UInt8) : Option MountArgv :=
  if limit < ptr + flagsSize then none
  else
    let endOfFossil := ptr + flagsSize
    some
      { startAddress := start, source, target, filesystemType, mountOptions
        baseFlags := load mem ptr flagsSize
        fossilSize := endOfFossil - start
        remnantSize := ((findDoubleNull mem limit (limit - endOfFossil) endOfFossil).map
          (· - endOfFossil)).getD 0 }

def parseFromMemory (mem : Memory) (start limit : Nat) : Option MountArgv :=
  if start = 0 ∨ limit = 0 ∨ limit ≤ start then none
  else
    (parseAndCopyStringField mem start limit).bind fun (source, ptr) =>
    (parseAndCopyStringField mem ptr limit).bind fun (target, ptr) =>
    (parseAndCopyStringField mem ptr limit).bind fun (filesystemType, ptr) =>
    (parseAndCopyStringField mem ptr limit).bind fun (mountOptions, ptr) =>
    parseRest mem start limit ptr source target filesystemType mountOptions

def MountArgv.passesHeuristics (f : MountArgv) : Bool :=
  f.target ≠ [] && f.source ≠ [] && f.filesystemType ≠ [] && f.target.head? = some 0x2F &&
    f.filesystemType.length ≤ 10 && 2 ≤ f.filesystemType.length && contains (ascii "seclabel") f.mountOptions

/-- The loop of `find` over the next `left` bytes. -/
def findFrom (mem : Memory) (searchTo : Nat) : (left p : Nat) → Option MountArgv
  | 0, _ => none
  | left + 1, p =>
    match (parseFromMemory mem p searchTo).filter (·.passesHeuristics) with
    | some f => some f
    | none => findFrom mem searchTo left (p + 1)

def find (mem : Memory) (searchFrom searchTo : Nat) : Option MountArgv :=
  findFrom mem searchTo (searchTo - searchFrom) searchFrom

def terminated (s : List UInt8) : List UInt8 := s ++ [0]

def MountArgv.writeToMemory (f : MountArgv) (mem : Memory) : Memory :=
  let ptr := f.startAddress
  let mem := store mem ptr (terminated f.source)
  let ptr := ptr + (terminated f.source).length
  let mem := store mem ptr (terminated f.target)
  let ptr := ptr + (terminated f.target).length
  let mem := store mem ptr (terminated f.filesystemType)
  let ptr := ptr + (terminated f.filesystemType).length
  let mem := store mem ptr (terminated f.mountOptions)
  let ptr := ptr + (terminated f.mountOptions).length
  store mem ptr f.baseFlags

def MountArgv.totalSize (f : MountArgv) : Nat := f.fossilSize + f.remnantSize

def MountArgv.cleanMemory (f : MountArgv) (mem : Memory) : Memory :=
  if 0 < f.totalSize then store mem f.startAddress (List.replicate f.totalSize 0) else mem

/-! ## `/proc/self/mountinfo` -/

structure MountInfoEntry where
  source : List UInt8 := []
  target : List UInt8 := []
  filesystemType : List UInt8 := []
  mountOptions : List UInt8 := []
  isSuspicious : Bool := false
deriving DecidableEq

def isSpace (c : UInt8) : Bool := c = 0x20 || (9 ≤ c && c ≤ 13)

def nextToken (s : List UInt8) : List UInt8 × List UInt8 :=
  let s := s.dropWhile isSpace
  (s.takeWhile (!isSpace ·), s.dropWhile (!isSpace ·))

def parseMountInfoLine (line : List UInt8) : MountInfoEntry :=
  match indexOf (ascii " - ") line with
  | none => {}
  | some separatorPos =>
    let before := (nextToken (nextToken (nextToken (nextToken (line.take separatorPos)).2).2).2).2
    let type := nextToken (line.drop (separatorPos + 3))
    let source := nextToken type.2
    { target := (nextToken before).1
      filesystemType := type.1
      source := source.1
      mountOptions := source.2.dropWhile isSpace }

def keywords : List (List UInt8) :=
  ["KSU", "/debug_ramdisk", "APATCH", "/data/adb", "/adb/modules", "/dev/block/loop"].map ascii

/-- The entries of the file, which may fail to open. -/
def parseMountInfo (file : Option (List UInt8)) : List MountInfoEntry :=
  (Lines.split 0x0A (file.getD [])).map fun line =>
    { parseMountInfoLine line with isSuspicious := keywords.any (contains · line) }

/-- The first entry with the anchor before a suspicious one. -/
def cleanTemplate (anchor : List UInt8) : List MountInfoEntry → Option MountInfoEntry
  | first :: second :: entries =>
    if contains anchor first.target ∧ second.isSuspicious then some first
    else cleanTemplate anchor (second :: entries)
  | _ => none

/-- The second constructor of `MountArgv`. -/
def MountArgv.ofEntry (cleanEntry : MountInfoEntry) (targetAddress : Nat) (baseFlags : List UInt8) :
    MountArgv where
  startAddress := targetAddress
  source := cleanEntry.source
  target := cleanEntry.target
  filesystemType := cleanEntry.filesystemType
  mountOptions := cleanEntry.mountOptions
  baseFlags := baseFlags
  fossilSize := (cleanEntry.source.length + 1) + (cleanEntry.target.length + 1) +
    (cleanEntry.filesystemType.length + 1) + (cleanEntry.mountOptions.length + 1) + flagsSize
  remnantSize := 0

def spoofZygoteFossil (searchFrom searchTo : Nat) (anchor : List UInt8) (mountinfo : Option (List UInt8))
    (mem : Memory) : Memory :=
  match find mem searchFrom searchTo with
  | none => mem
  | some suspicious =>
    if contains anchor suspicious.target then mem
    else
      match cleanTemplate anchor (parseMountInfo mountinfo) with
      | none => mem
      | some cleanEntry =>
        (MountArgv.ofEntry cleanEntry suspicious.startAddress suspicious.baseFlags).writeToMemory
          (suspicious.cleanMemory mem)

/-! ## What is changed -/

section Statement

variable (searchFrom searchTo : Nat) (anchor : List UInt8) (mountinfo : Option (List UInt8)) (mem : Memory)

/-- Byte `a` is to be erased. -/
def MountArgv.Covers (f : MountArgv) (a : Nat) : Prop :=
  f.startAddress ≤ a ∧ a < f.startAddress + f.totalSize

/-- No byte outside of those that are to be erased is changed, and hence none outside of the range. -/
structure StaysInside : Prop where
  fossil : ∀ a, (∀ f, find mem searchFrom searchTo = some f → ¬ f.Covers a) →
    spoofZygoteFossil searchFrom searchTo anchor mountinfo mem a = mem a
  range : ∀ a, ¬ (searchFrom ≤ a ∧ a < searchTo) →
    spoofZygoteFossil searchFrom searchTo anchor mountinfo mem a = mem a

/-- The bytes of the arguments, as they are on a stack. -/
def MountInfoEntry.image (e : MountInfoEntry) (baseFlags : List UInt8) : List UInt8 :=
  terminated e.source ++ terminated e.target ++ terminated e.filesystemType ++ terminated e.mountOptions ++
    baseFlags

/-- If an entry is to be written over what was found, it is no longer than that, or its bytes from
there on are in memory already. -/
def TemplateFits : Prop :=
  ∀ f e, find mem searchFrom searchTo = some f → contains anchor f.target = false →
    cleanTemplate anchor (parseMountInfo mountinfo) = some e →
    (e.image f.baseFlags).length ≤ f.totalSize ∨
      ∀ i, f.totalSize ≤ i → i < (e.image f.baseFlags).length →
        (e.image f.baseFlags)[i]? = some (mem (f.startAddress + i))

end Statement

namespace FossilLemmas

/-! ### Stores -/

theorem store_inside (mem : Memory) (a : Nat) {bytes : List UInt8} {i : Nat} {b : UInt8}
    (h : bytes[i]? = some b) : store mem a bytes (a + i) = b := by
  rw [store, if_pos (Nat.le_add_right a i), Nat.add_sub_cancel_left, h, Option.getD_some]

theorem store_outside (mem : Memory) {a x : Nat} {bytes : List UInt8}
    (h : ¬ (a ≤ x ∧ x < a + bytes.length)) : store mem a bytes x = mem x := by
  rw [store]
  split
  case isTrue hle =>
    have hend : bytes.length ≤ x - a := Nat.le_sub_of_add_le' (Nat.not_lt.mp fun hlt => h ⟨hle, hlt⟩)
    rw [getElem?_eq_none hend, Option.getD_none]
  case isFalse => rfl

theorem store_append (mem : Memory) (a : Nat) (bs cs : List UInt8) :
    store (store mem a bs) (a + bs.length) cs = store mem a (bs ++ cs) := by
  funext x
  rcases Nat.lt_or_ge x a with hlt | hle
  · rw [store_outside _ fun h => absurd (Nat.lt_of_lt_of_le hlt (Nat.le_add_right a _)) (Nat.not_lt.mpr h.1),
      store_outside _ fun h => absurd hlt (Nat.not_lt.mpr h.1),
      store_outside _ fun h => absurd hlt (Nat.not_lt.mpr h.1)]
  · obtain ⟨i, rfl⟩ := Nat.exists_eq_add_of_le hle
    rcases Nat.lt_or_ge i bs.length with hi | hi
    · have hfirst : (bs ++ cs)[i]? = some bs[i] := by
        rw [getElem?_append_left hi, getElem?_eq_getElem hi]
      rw [store_outside _ fun h => absurd (Nat.le_of_add_le_add_left h.1) (Nat.not_le.mpr hi),
        store_inside _ _ (getElem?_eq_getElem hi), store_inside _ _ hfirst]
    · obtain ⟨j, rfl⟩ := Nat.exists_eq_add_of_le hi
      have hsecond : (bs ++ cs)[bs.length + j]? = cs[j]? := by
        rw [getElem?_append_right hi, Nat.add_sub_cancel_left]
      rw [store, if_pos (Nat.add_le_add_left hi a), store_outside mem fun h =>
        absurd (Nat.lt_of_add_lt_add_left h.2) (Nat.not_lt.mpr hi), store, if_pos hle,
        Nat.add_sub_cancel_left, hsecond, ← Nat.add_assoc, Nat.add_sub_cancel_left]

theorem writeToMemory_eq (e : MountInfoEntry) (a : Nat) (baseFlags : List UInt8) (mem : Memory) :
    (MountArgv.ofEntry e a baseFlags).writeToMemory mem = store mem a (e.image baseFlags) := by
  simp only [MountArgv.writeToMemory, MountArgv.ofEntry, MountInfoEntry.image]
  rw [store_append, store_append, store_append, store_append]
  simp only [append_assoc]

theorem cleanMemory_outside (f : MountArgv) (mem : Memory) {a : Nat} (h : ¬ f.Covers a) :
    f.cleanMemory mem a = mem a := by
  rw [MountArgv.cleanMemory]
  split
  · exact store_outside mem (by rwa [length_replicate])
  · rfl

/-! ### Bounds -/

variable {mem : Memory} {limit : Nat}

theorem field_bounds {ptr ptr' : Nat} {s : List UInt8}
    (h : parseAndCopyStringField mem ptr limit = some (s, ptr')) : ptr ≤ ptr' ∧ ptr' ≤ limit := by
  simp only [parseAndCopyStringField] at h
  split_ifs at h with hend hle
  cases h
  exact ⟨Nat.le_add_right _ _, hle⟩

theorem findDoubleNull_bounds {left p q : Nat}
    (h : findDoubleNull mem limit left p = some q) : p ≤ q ∧ q ≤ limit := by
  induction left generalizing p with
  | zero => exact absurd h (by simp [findDoubleNull])
  | succ left ih =>
    rw [findDoubleNull] at h
    split_ifs at h with hlt hnull
    · cases h
      exact ⟨Nat.le_refl _, Nat.le_of_lt (Nat.lt_of_succ_lt hlt)⟩
    · obtain ⟨hle, hq⟩ := ih h
      exact ⟨Nat.le_of_succ_le hle, hq⟩

theorem parseRest_bounds {start ptr : Nat} {source target type options : List UInt8}
    {f : MountArgv} (hptr : start ≤ ptr)
    (h : parseRest mem start limit ptr source target type options = some f) :
    f.startAddress = start ∧ start + f.totalSize ≤ limit := by
  simp only [parseRest] at h
  split_ifs at h with hlimit
  cases h
  refine ⟨rfl, ?_⟩
  have hend : start ≤ ptr + flagsSize := Nat.le_add_right_of_le hptr
  have hroom : ptr + flagsSize ≤ limit := Nat.not_lt.mp hlimit
  simp only [MountArgv.totalSize]
  rw [← Nat.add_assoc, Nat.add_sub_cancel' hend]
  cases hfind : findDoubleNull mem limit (limit - (ptr + flagsSize)) (ptr + flagsSize) with
  | none => exact hroom
  | some q =>
    obtain ⟨hle, hq⟩ := findDoubleNull_bounds hfind
    rw [Option.map_some, Option.getD_some, Nat.add_sub_cancel' hle]
    exact hq

theorem parse_bounds {start : Nat} {f : MountArgv}
    (h : parseFromMemory mem start limit = some f) :
    f.startAddress = start ∧ start + f.totalSize ≤ limit := by
  rw [parseFromMemory] at h
  split_ifs at h
  obtain ⟨⟨source, p₁⟩, h₁, h⟩ := Option.bind_eq_some_iff.mp h
  obtain ⟨⟨target, p₂⟩, h₂, h⟩ := Option.bind_eq_some_iff.mp h
  obtain ⟨⟨type, p₃⟩, h₃, h⟩ := Option.bind_eq_some_iff.mp h
  obtain ⟨⟨options, p₄⟩, h₄, h⟩ := Option.bind_eq_some_iff.mp h
  refine parseRest_bounds ?_ h
  calc start ≤ p₁ := (field_bounds h₁).1
    _ ≤ p₂ := (field_bounds h₂).1
    _ ≤ p₃ := (field_bounds h₃).1
    _ ≤ p₄ := (field_bounds h₄).1

theorem findFrom_bounds {searchTo left p : Nat} {f : MountArgv}
    (h : findFrom mem searchTo left p = some f) :
    p ≤ f.startAddress ∧ f.startAddress + f.totalSize ≤ searchTo := by
  induction left generalizing p with
  | zero => exact absurd h (by simp [findFrom])
  | succ left ih =>
    rw [findFrom] at h
    split at h
    case h_1 g hparse =>
      cases h
      obtain ⟨hstart, hend⟩ := parse_bounds (Option.filter_eq_some_iff.mp hparse).1
      rw [hstart]
      exact ⟨Nat.le_refl p, hend⟩
    case h_2 =>
      obtain ⟨hle, hend⟩ := ih h
      exact ⟨Nat.le_of_succ_le hle, hend⟩

end FossilLemmas

open FossilLemmas

/-- What is to be erased is in the range that is searched. -/
theorem find_inside {mem : Memory} {searchFrom searchTo : Nat} {f : MountArgv}
    (h : find mem searchFrom searchTo = some f) {a : Nat} (ha : f.Covers a) :
    searchFrom ≤ a ∧ a < searchTo := by
  obtain ⟨hle, hend⟩ := findFrom_bounds h
  exact ⟨Nat.le_trans hle ha.1, Nat.lt_of_lt_of_le ha.2 hend⟩

theorem spoof_eq {mem : Memory} {searchFrom searchTo : Nat} {anchor : List UInt8}
    {mountinfo : Option (List UInt8)} {f : MountArgv} {e : MountInfoEntry}
    (hfind : find mem searchFrom searchTo = some f) (hanchor : contains anchor f.target = false)
    (htemplate : cleanTemplate anchor (parseMountInfo mountinfo) = some e) :
    spoofZygoteFossil searchFrom searchTo anchor mountinfo mem =
      store (f.cleanMemory mem) f.startAddress (e.image f.baseFlags) := by
  rw [spoofZygoteFossil, hfind]
  dsimp only
  rw [if_neg (Bool.eq_false_iff.mp hanchor), htemplate]
  exact writeToMemory_eq e f.startAddress f.baseFlags _

theorem spoof_cases (searchFrom searchTo : Nat) (anchor : List UInt8) (mountinfo : Option (List UInt8))
    (mem : Memory) :
    spoofZygoteFossil searchFrom searchTo anchor mountinfo mem = mem ∨
      ∃ f e, find mem searchFrom searchTo = some f ∧ contains anchor f.target = false ∧
        cleanTemplate anchor (parseMountInfo mountinfo) = some e := by
  cases hfind : find mem searchFrom searchTo with
  | none =>
    left
    rw [spoofZygoteFossil, hfind]
  | some f =>
    cases hanchor : contains anchor f.target with
    | true =>
      left
      rw [spoofZygoteFossil, hfind]
      exact if_pos hanchor
    | false =>
      cases htemplate : cleanTemplate anchor (parseMountInfo mountinfo) with
      | none =>
        left
        rw [spoofZygoteFossil, hfind]
        dsimp only
        rw [if_neg (Bool.eq_false_iff.mp hanchor), htemplate]
      | some e => exact .inr ⟨f, e, rfl, hanchor, rfl⟩

/-- No byte outside of the erased ones is changed exactly when the entry that is written fits. -/
theorem stays_inside_iff (searchFrom searchTo : Nat) (anchor : List UInt8) (mountinfo : Option (List UInt8))
    (mem : Memory) :
    StaysInside searchFrom searchTo anchor mountinfo mem ↔
      TemplateFits searchFrom searchTo anchor mountinfo mem := by
  constructor
  · rintro ⟨hfossil, -⟩ f e hfind hanchor htemplate
    right
    intro i hi hlt
    -- byte `i` of the image goes to a place that is not erased
    have hout : ¬ f.Covers (f.startAddress + i) :=
      fun h => absurd (Nat.lt_of_add_lt_add_left h.2) (Nat.not_lt.mpr hi)
    have hsame := hfossil (f.startAddress + i) fun g hg => by
      rw [hfind] at hg
      cases hg
      exact hout
    rw [spoof_eq hfind hanchor htemplate, store_inside _ _ (getElem?_eq_getElem hlt)] at hsame
    rw [getElem?_eq_getElem hlt, hsame]
  · intro hfits
    rcases spoof_cases searchFrom searchTo anchor mountinfo mem with hsame | ⟨f, e, hfind, hanchor, htemplate⟩
    · exact ⟨fun a _ => by rw [hsame], fun a _ => by rw [hsame]⟩
    · have houtside : ∀ a, ¬ f.Covers a →
          spoofZygoteFossil searchFrom searchTo anchor mountinfo mem a = mem a := by
        intro a ha
        rw [spoof_eq hfind hanchor htemplate]
        by_cases himage : f.startAddress ≤ a ∧ a < f.startAddress + (e.image f.baseFlags).length
        · obtain ⟨i, rfl⟩ := Nat.exists_eq_add_of_le himage.1
          have hlt := Nat.lt_of_add_lt_add_left himage.2
          have hi : f.totalSize ≤ i :=
            Nat.not_lt.mp fun h => ha ⟨himage.1, Nat.add_lt_add_left h _⟩
          rcases hfits f e hfind hanchor htemplate with hshort | hagree
          · exact absurd (Nat.lt_of_lt_of_le hlt hshort) (Nat.not_lt.mpr hi)
          · exact store_inside _ _ (hagree i hi hlt)
        · rw [store_outside _ himage, cleanMemory_outside f mem ha]
      refine ⟨fun a ha => houtside a (ha f hfind), fun a ha => houtside a fun hcovers => ?_⟩
      exact ha (find_inside hfind hcovers)

/-- A stack that begins with the arguments of a mount, and holds ones after that. -/
def mountStack : Memory :=
  let bytes := terminated (ascii "KSU") ++ terminated (ascii "/debug_ramdisk") ++ terminated
    (ascii "tmpfs") ++
    terminated (ascii "rw,seclabel") ++ [1, 0, 0, 0, 0, 0]
  fun a => bytes[a - 0x7000]?.getD 1

def mountLines : List UInt8 :=
  ascii "31 1 254:5 / /data_mirror/ref_profiles rw - f2fs /dev/block/dm-5 rw,lazytime,seclabel\n" ++
    ascii "32 1 0:30 / /debug_ramdisk rw - tmpfs KSU rw,seclabel\n"

/-- The entry before the suspicious one is longer than what is found on the stack: the byte after
the range is overwritten. -/
theorem spoof_past_range :
    spoofZygoteFossil 0x7000 0x702C (ascii "ref_profiles") (some mountLines) mountStack 0x702C ≠
      mountStack 0x702C := by
  decide +kernel

end NyaZygisk.Fossil
