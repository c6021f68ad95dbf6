import NyaZygisk.Fossil
import NyaZygisk.Lib.Readable

/-!
# A fossil that is written and read again

`writeToMemory` of `fossil.cpp` puts four strings and the flags one behind the other, and
`parseFromMemory` finds them again by their terminators.
-/

namespace NyaZygisk.Fossil

open CStrings List Readable

/-! ## Parsing memory that is readable in part -/

/-- `parse_and_copy_string_field`. -/
def readStringField (mem : Nat → Option UInt8) (ptr limit : Nat) : Option (Option (List UInt8 × Nat)) :=
  (Readable.scan (· ≠ 0) mem (limit - ptr) ptr).bind fun len =>
    if len = limit - ptr then some none
    else (fetch mem ptr len).map fun s => if ptr + (len + 1) ≤ limit then some (s, ptr + (len + 1)) else none

/-- The loop of `find_double_null`, which reads the second byte only if the first is 0. -/
def readDoubleNull (mem : Nat → Option UInt8) (limit : Nat) : (left p : Nat) → Option (Option Nat)
  | 0, _ => some none
  | left + 1, p =>
    if p + 1 < limit then
      (mem p).bind fun first =>
        if first = 0 then
          (mem (p + 1)).bind fun second => if second = 0 then some (some p) else readDoubleNull mem
            limit left (p + 1)
        else readDoubleNull mem limit left (p + 1)
    else some none

/-- The second part of `parseFromMemory`. -/
def readRest (mem : Nat → Option UInt8) (start limit ptr : Nat)
    (source target filesystemType mountOptions : List UInt8) : Option (Option MountArgv) :=
  if limit < ptr + flagsSize then some none
  else
    let endOfFossil := ptr + flagsSize
    (fetch mem ptr flagsSize).bind fun baseFlags =>
    (readDoubleNull mem limit (limit - endOfFossil) endOfFossil).map fun remnantsEnd =>
      some
        { startAddress := start, source, target, filesystemType, mountOptions, baseFlags
          fossilSize := endOfFossil - start
          remnantSize := (remnantsEnd.map (· - endOfFossil)).getD 0 }

/-- `parseFromMemory`. -/
def readFromMemory (mem : Nat → Option UInt8) (start limit : Nat) : Option (Option MountArgv) :=
  if start = 0 ∨ limit = 0 ∨ limit ≤ start then some none
  else
    andThen (readStringField mem start limit) fun (source, ptr) =>
    andThen (readStringField mem ptr limit) fun (target, ptr) =>
    andThen (readStringField mem ptr limit) fun (filesystemType, ptr) =>
    andThen (readStringField mem ptr limit) fun (mountOptions, ptr) =>
    readRest mem start limit ptr source target filesystemType mountOptions

structure MountInfoEntry.NulFree (e : MountInfoEntry) : Prop where
  source : 0 ∉ e.source
  target : 0 ∉ e.target
  filesystemType : 0 ∉ e.filesystemType
  mountOptions : 0 ∉ e.mountOptions

namespace FossilLemmas

/-! ### Loads -/

variable {mem : Memory} {limit : Nat}

theorem length_load (mem : Memory) (a n : Nat) : (load mem a n).length = n := by
  rw [load, length_map, length_range]

theorem load_add (mem : Memory) (a m n : Nat) : load mem a (m + n) = load mem a m ++ load mem (a + m) n := by
  simp only [load, range_add, map_append, map_map, Function.comp_def, Nat.add_assoc]

theorem strnlen_eq (mem : Memory) (p n : Nat) :
    strnlen mem p n = ((load mem p n).takeWhile (· ≠ 0)).length := by
  induction n generalizing p with
  | zero => rfl
  | succ n ih =>
    have hload : load mem p (n + 1) = mem p :: load mem (p + 1) n := by
      rw [Nat.add_comm, load_add]
      rfl
    rw [strnlen, hload, ih]
    split
    · next h => rw [takeWhile_cons_of_neg (by simp [h]), length_nil]
    · next h => rw [takeWhile_cons_of_pos (by simp [h]), length_cons]

/-- Memory has these bytes. -/
def Stored (mem : Memory) (a : Nat) (bytes : List UInt8) : Prop := load mem a bytes.length = bytes

theorem stored_append {a : Nat} {xs ys : List UInt8} :
    Stored mem a (xs ++ ys) ↔ Stored mem a xs ∧ Stored mem (a + xs.length) ys := by
  rw [Stored, length_append, load_add]
  exact ⟨fun h => append_inj h (length_load _ _ _), fun h => congrArg₂ _ h.1 h.2⟩

theorem stored_store (mem : Memory) (a : Nat) (bytes : List UInt8) : Stored (store mem a bytes) a bytes := by
  refine ext_getElem? fun i => ?_
  rw [load, getElem?_map]
  rcases Nat.lt_or_ge i bytes.length with hi | hi
  · rw [getElem?_range hi, Option.map_some, store_inside _ _ (getElem?_eq_getElem hi),
      getElem?_eq_getElem hi]
  · rw [getElem?_eq_none (by rwa [length_range]), getElem?_eq_none hi, Option.map_none]

theorem parse_stored {ptr : Nat} {s : List UInt8} (hs : 0 ∉ s) (h : Stored mem ptr (terminated s))
    (hlimit : ptr + (terminated s).length ≤ limit) :
    parseAndCopyStringField mem ptr limit = some (s, ptr + (terminated s).length) := by
  obtain ⟨n, hn⟩ := Nat.exists_eq_add_of_le (Nat.le_sub_of_add_le' hlimit)
  have hlen : strnlen mem ptr (limit - ptr) = s.length := by
    rw [strnlen_eq, hn, load_add, h, terminated, append_assoc, takeWhile_append_of_pos]
    · simp
    · exact fun c hc => decide_eq_true fun h0 => hs (h0 ▸ hc)
  have hload : load mem ptr s.length = s := (stored_append.mp h).1
  have hterminated : (terminated s).length = s.length + 1 := length_append
  simp only [parseAndCopyStringField, hlen, hload]
  rw [if_neg (by omega), if_pos (by omega), hterminated]

/-! ### Nothing else is read -/

section

variable {readable : Nat → Option UInt8} {start : Nat} (hread : ∀ a, start ≤ a → a < limit →
    readable a = some (mem a))

include hread in
theorem holds_load {ptr n : Nat} (hptr : start ≤ ptr) (hn : ptr + n ≤ limit) :
    Holds readable ptr (load mem ptr n) := by
  intro i hi
  rw [length_load] at hi
  rw [hread _ (by omega) (by omega), load, getElem?_map, getElem?_range hi, Option.map_some]

include hread in
theorem fetch_load {ptr n : Nat} (hptr : start ≤ ptr) (hn : ptr + n ≤ limit) :
    fetch readable ptr n = some (load mem ptr n) := by
  have hlen := length_load mem ptr n
  rw [fetch_eq hlen.ge (holds_load hread hptr hn), take_of_length_le hlen.le]

include hread in
theorem readStringField_eq {ptr : Nat} (hptr : start ≤ ptr) (hlimit : ptr ≤ limit) :
    readStringField readable ptr limit = some (parseAndCopyStringField mem ptr limit) := by
  have hscan : Readable.scan (· ≠ 0) readable (limit - ptr) ptr = some (strnlen mem ptr (limit - ptr)) := by
    have h := scan_eq (· ≠ 0) (holds_load hread hptr (n := limit - ptr) (by omega))
    rwa [length_load, ← strnlen_eq] at h
  have hle : strnlen mem ptr (limit - ptr) ≤ limit - ptr := by
    have h := (List.takeWhile_prefix (· ≠ 0) (l := load mem ptr (limit - ptr))).length_le
    rwa [length_load, ← strnlen_eq] at h
  rw [readStringField, hscan, Option.bind_some, parseAndCopyStringField]
  split
  · rfl
  · rw [fetch_load hread hptr (by omega)]
    rfl

include hread in
theorem readDoubleNull_eq {left p : Nat} (hp : start ≤ p) :
    readDoubleNull readable limit left p = some (findDoubleNull mem limit left p) := by
  induction left generalizing p with
  | zero => rfl
  | succ left ih =>
    have hrest := ih (Nat.le_succ_of_le hp)
    rw [readDoubleNull, findDoubleNull]
    split
    · next hlt =>
      rw [hread p hp (by omega), hread (p + 1) (by omega) hlt, Option.bind_some, Option.bind_some]
      split
      · next hfirst => simp only [hfirst, true_and, hrest]; split <;> rfl
      · next hfirst => rw [if_neg fun h => hfirst h.1, hrest]
    · rfl

include hread in
theorem readRest_eq {ptr : Nat} (hptr : start ≤ ptr) (source target type options : List UInt8) :
    readRest readable start limit ptr source target type options =
      some (parseRest mem start limit ptr source target type options) := by
  rw [readRest, parseRest]
  split
  · rfl
  · next hlimit =>
    rw [fetch_load hread hptr (Nat.not_lt.mp hlimit), Option.bind_some,
      readDoubleNull_eq hread (Nat.le_add_right_of_le hptr)]
    rfl

include hread in
/-- One field after another, with the rest of the parse behind it. -/
theorem readField_then {β : Type} {ptr : Nat} (hptr : start ≤ ptr) (hlimit : ptr ≤ limit)
    {next : List UInt8 × Nat → Option (Option β)} {rest : List UInt8 × Nat → Option β}
    (h : ∀ s ptr', start ≤ ptr' → ptr' ≤ limit → next (s, ptr') = some (rest (s, ptr'))) :
    andThen (readStringField readable ptr limit) next =
      some ((parseAndCopyStringField mem ptr limit).bind rest) := by
  refine andThen_eq (readStringField_eq hread hptr hlimit) ?_
  rintro ⟨s, ptr'⟩ hfield
  obtain ⟨hle, hle'⟩ := field_bounds hfield
  exact h s ptr' (hptr.trans hle) hle'

include hread in
theorem readFromMemory_eq : readFromMemory readable start limit = some (parseFromMemory mem start limit) := by
  rw [readFromMemory, parseFromMemory]
  split
  · rfl
  · next hrange =>
    refine readField_then hread (Nat.le_refl start) (by omega) fun source ptr hptr hlimit => ?_
    refine readField_then hread hptr hlimit fun target ptr hptr hlimit => ?_
    refine readField_then hread hptr hlimit fun type ptr hptr hlimit => ?_
    refine readField_then hread hptr hlimit fun options ptr hptr hlimit => ?_
    exact readRest_eq hread hptr source target type options

end

theorem parse_image {e : MountInfoEntry} (he : e.NulFree) {start : Nat} (hstart : start ≠ 0)
    {baseFlags : List UInt8}
    (hflags : baseFlags.length = flagsSize) (hfit : start + (e.image baseFlags).length ≤ limit)
    (h : Stored mem start (e.image baseFlags)) :
    ∃ f, parseFromMemory mem start limit = some f ∧
      (f.source, f.target, f.filesystemType, f.mountOptions, f.baseFlags) =
        (e.source, e.target, e.filesystemType, e.mountOptions, baseFlags) ∧
      f.fossilSize = (e.image baseFlags).length := by
  simp only [MountInfoEntry.image, stored_append, length_append, ← Nat.add_assoc] at h hfit ⊢
  obtain ⟨⟨⟨⟨hsource, htarget⟩, htype⟩, hoptions⟩, hbase⟩ := h
  have hpos : 0 < flagsSize := by decide
  have hsource' : parseAndCopyStringField mem start limit = _ := parse_stored he.source hsource (by omega)
  have htarget' : parseAndCopyStringField mem _ limit = _ := parse_stored he.target htarget (by omega)
  have htype' : parseAndCopyStringField mem _ limit = _ := parse_stored he.filesystemType htype (by omega)
  have hoptions' : parseAndCopyStringField mem _ limit = _ := parse_stored he.mountOptions hoptions (by omega)
  rw [parseFromMemory, if_neg (by omega)]
  simp only [hsource', htarget', htype', hoptions', Option.bind_some]
  rw [parseRest, if_neg (by omega)]
  rw [Stored, hflags] at hbase
  refine ⟨_, rfl, by rw [hbase], ?_⟩
  dsimp only
  omega

end FossilLemmas

open FossilLemmas

/-- What is parsed where an entry was written is the entry, with as many bytes as were written. For
all memory, the parser reads in its range only, and what it reports to be the fossil and its
remnants ends in the range. -/
theorem fossil_round_trip (start limit : Nat) :
    (∀ (e : MountInfoEntry) (baseFlags : List UInt8) (mem : Memory), e.NulFree → start ≠ 0 →
      baseFlags.length = flagsSize → start + (e.image baseFlags).length ≤ limit →
      ∃ f, parseFromMemory ((MountArgv.ofEntry e start baseFlags).writeToMemory mem) start limit = some f ∧
        (f.source, f.target, f.filesystemType, f.mountOptions, f.baseFlags) =
          (e.source, e.target, e.filesystemType, e.mountOptions, baseFlags) ∧
        f.fossilSize = (e.image baseFlags).length) ∧
    (∀ (readable : Nat → Option UInt8) (mem : Memory), (∀ a, start ≤ a → a < limit → readable a =
      some (mem a)) →
      readFromMemory readable start limit = some (parseFromMemory mem start limit)) ∧
    ∀ (mem : Memory) (f : MountArgv), parseFromMemory mem start limit = some f →
      start + f.fossilSize + f.remnantSize ≤ limit := by
  refine ⟨fun e baseFlags mem he hstart hflags hfit => ?_, fun _ _ => readFromMemory_eq, fun mem f hf => ?_⟩
  · rw [writeToMemory_eq]
    exact parse_image he hstart hflags hfit (stored_store mem start _)
  · have hend := (parse_bounds hf).2
    rwa [MountArgv.totalSize, ← Nat.add_assoc] at hend

def tmpfsEntry : MountInfoEntry :=
  { source := ascii "tmpfs", target := ascii "/dev", filesystemType := ascii "tmpfs"
    mountOptions := ascii "rw" }

/-- The entry of a mount point, written at `0x1000` and read where nothing else is readable. -/
theorem fossil_round_trip_tmpfs :
    ∃ (mem : Memory) (f : MountArgv),
      readFromMemory (fun a => if 0x1000 ≤ a ∧ a < 0x2000 then some (mem a) else none) 0x1000 0x2000 =
        some (some f) ∧
      f.target = ascii "/dev" ∧ 0x1000 + f.fossilSize + f.remnantSize ≤ 0x2000 := by
  obtain ⟨hwritten, hread, hbounds⟩ := fossil_round_trip 0x1000 0x2000
  obtain ⟨f, hf, hfields, -⟩ := hwritten tmpfsEntry [1, 0, 0, 0] (fun _ => 0)
    ⟨by decide, by decide, by decide, by decide⟩ (by decide) rfl (by decide)
  refine ⟨_, f, (hread _ _ fun a hlow hhigh => if_pos ⟨hlow, hhigh⟩).trans (congrArg some hf), ?_,
    hbounds _ f hf⟩
  exact (Prod.mk.inj (Prod.mk.inj hfields).2).1

end NyaZygisk.Fossil
