import NyaZygisk.Lib.Compaction
import NyaZygisk.Lib.Pages

/-!
# The exit handlers of libc

`AtexitArray::recompact` of `atexit.cpp`, which takes the traces of unloaded modules out of libc's
array of exit handlers: null entries that were handlers once, and a counter of appends that is ahead
of the entries.
-/

namespace NyaZygisk.Atexit

open Compaction List Pages

variable {w : Nat}

/-! ## The array -/

inductive ScrubStatus
  | done | nothingToScrub | noArray | noLock | lockBusy | notWritable | leftWritable
deriving DecidableEq

structure AtexitEntry (w : Nat) where
  fn : BitVec w
  arg : BitVec w
  dso : BitVec w
deriving DecidableEq

def AtexitEntry.null : AtexitEntry w := ⟨0, 0, 0⟩

def AtexitEntry.live (e : AtexitEntry w) : Bool := e.fn ≠ 0

/-- `sizeof(AtexitEntry)`. -/
def entrySize (w : Nat) : Nat := 3 * (w / 8)

structure WordPages (w : Nat) extends PageSize w where
  word_pos : 0 < w / 8
  words : w / 8 ∣ 2 ^ bits

variable {pg : WordPages w}

/-- The array with its pages is in the address space. -/
structure AtexitArray (pg : WordPages w) where
  array : BitVec w
  entries : Nat → AtexitEntry w
  size : Nat
  extractedCount : Nat
  totalAppends : Nat
  room : size * entrySize w + 2 ^ pg.bits ≤ 2 ^ w

/-- The null entries below `size`. -/
def AtexitArray.holes (a : AtexitArray pg) : Nat := (below a.entries a.size).countP fun e => !e.live

def pageStartOfIndex (pg : WordPages w) (idx : Nat) : BitVec w :=
  floor pg.bytes (BitVec.ofNat w (idx * entrySize w))

def pageEndOfIndex (pg : WordPages w) (idx : Nat) : BitVec w :=
  ceil pg.bytes (BitVec.ofNat w (idx * entrySize w))

def AtexitArray.hasFingerprint (a : AtexitArray pg) : Bool :=
  0 < a.extractedCount ∨ a.size < a.totalAppends

/-! ## `recompact` -/

inductive Call (w : Nat)
  | mprotect (start len : BitVec w) (write : Bool)
  /-- With `MADV_DONTNEED`. -/
  | madvise (start len : BitVec w)
deriving DecidableEq

/-- What the kernel answers: the error of each `mprotect`, if any, and whether `madvise` works. -/
structure Answers where
  opening : Option Nat
  release : Bool
  closing : Option Nat
deriving DecidableEq

def EFAULT : Nat := 14

/-- The error, if there is one, and the calls. -/
def AtexitArray.setWritable (a : AtexitArray pg) (answer : Option Nat) (writable : Bool)
    (startIdx numEntries : Nat) : Option Nat × List (Call w) :=
  if a.array = 0 then (some EFAULT, [])
  else
    let startByte := pageStartOfIndex pg startIdx
    let stopByte := pageEndOfIndex pg (startIdx + numEntries)
    (answer, [.mprotect (a.array + startByte) (stopByte - startByte) writable])

/-- The word at byte `place` after the bytes from `lo` to `hi` were released: it is on one page. -/
def releasedWord (lo hi place : Nat) (v : BitVec w) : BitVec w := if lo ≤ place ∧ place < hi then 0 else v

/-- Entry `i` after the bytes from `lo` to `hi` of the array were released. -/
def AtexitEntry.released (lo hi i : Nat) (e : AtexitEntry w) : AtexitEntry w where
  fn := releasedWord lo hi (i * entrySize w + 0 * (w / 8)) e.fn
  arg := releasedWord lo hi (i * entrySize w + 1 * (w / 8)) e.arg
  dso := releasedWord lo hi (i * entrySize w + 2 * (w / 8)) e.dso

/-- The entries and their number after the two loops. -/
def AtexitArray.moved (a : AtexitArray pg) : (Nat → AtexitEntry w) × Nat :=
  compact AtexitEntry.live .null a.size a.entries

/-- What is past the new end, if that is pages. -/
def AtexitArray.releaseCalls (a : AtexitArray pg) : List (Call w) :=
  let oldBytes := pageEndOfIndex pg a.size
  let newBytes := pageEndOfIndex pg a.moved.2
  if newBytes < oldBytes then [.madvise (a.array + newBytes) (oldBytes - newBytes)] else []

/-- The array after the loops, the release and the stores to the counters. -/
def AtexitArray.compacted (release : Bool) (a : AtexitArray pg) : AtexitArray pg :=
  let oldBytes := pageEndOfIndex pg a.size
  let newBytes := pageEndOfIndex pg a.moved.2
  { a with
    entries := fun i =>
      if newBytes < oldBytes ∧ release then (a.moved.1 i).released newBytes.toNat oldBytes.toNat i
      else a.moved.1 i
    size := a.moved.2
    extractedCount := 0
    totalAppends := a.moved.2
    room := Nat.le_trans
      (Nat.add_le_add_right (Nat.mul_le_mul_right _ (compact_end_le _ _ _ _)) _) a.room }

structure Scrub (pg : WordPages w) where
  status : ScrubStatus
  protectErrno : Nat
  array : AtexitArray pg
  calls : List (Call w)

def AtexitArray.recompact (answers : Answers) (a : AtexitArray pg) : Scrub pg :=
  if a.hasFingerprint then
    if 0 < a.extractedCount then
      match a.setWritable answers.opening true 0 a.size with
      | (some errno, calls) => ⟨.notWritable, errno, a, calls⟩
      | (none, calls) =>
        let restored := a.setWritable answers.closing false 0 a.size
        ⟨if restored.1.isNone then .done else .leftWritable, restored.1.getD 0,
          a.compacted answers.release, calls ++ a.releaseCalls ++ restored.2⟩
    else ⟨.done, 0, { a with totalAppends := a.size }, []⟩
  else ⟨.nothingToScrub, 0, a, []⟩

/-! ## What it leaves -/

/-- The handlers of `a` in their order, zero entries after them, and counters that say so. -/
structure Tidied (a b : AtexitArray pg) : Prop where
  live : below b.entries b.size = (below a.entries a.size).filter AtexitEntry.live
  zero : ∀ i, b.size ≤ i → i < a.size ∨ a.entries i = .null → b.entries i = .null
  size : b.size = (below a.entries a.size).countP AtexitEntry.live
  appends : b.totalAppends = (below a.entries a.size).countP AtexitEntry.live
  extracted : b.extractedCount = 0

structure KeepsLive (a : AtexitArray pg) (r : Scrub pg) : Prop where
  ends : ((r.status = .notWritable ∨ r.status = .nothingToScrub) ∧ r.array = a) ∨
    ((r.status = .done ∨ r.status = .leftWritable) ∧ Tidied a r.array)
  released : ∀ start len, Call.madvise start len ∈ r.calls → ∀ i, i < r.array.size →
    ∀ k, k < entrySize w → ¬ (⟨start, len⟩ : Arc w).Has (a.array + BitVec.ofNat w (i * entrySize w + k))
  again : r.status ≠ .notWritable → ∀ answers, (r.array.recompact answers).status = .nothingToScrub

namespace AtexitLemmas

theorem setWritable_calls (a : AtexitArray pg) (answer : Option Nat) (writable : Bool) (i n : Nat)
    (start len : BitVec w) : Call.madvise start len ∉ (a.setWritable answer writable i n).2 := by
  rw [AtexitArray.setWritable]
  split <;> simp

theorem recompact_cases (answers : Answers) (a : AtexitArray pg) :
    (a.hasFingerprint = false ∧ a.recompact answers = ⟨.nothingToScrub, 0, a, []⟩) ∨
    (∃ errno calls, (∀ start len, Call.madvise start len ∉ calls) ∧
      a.recompact answers = ⟨.notWritable, errno, a, calls⟩) ∨
    (∃ status errno calls, (status = .done ∨ status = .leftWritable) ∧
      (∀ start len, Call.madvise start len ∈ calls → Call.madvise start len ∈ a.releaseCalls) ∧
      a.recompact answers = ⟨status, errno, a.compacted answers.release, calls⟩) ∨
    (a.extractedCount = 0 ∧ a.recompact answers = ⟨.done, 0, { a with totalAppends := a.size }, []⟩) := by
  rw [AtexitArray.recompact]
  by_cases hprint : a.hasFingerprint = true
  · rw [if_pos hprint]
    by_cases hholes : 0 < a.extractedCount
    · rw [if_pos hholes]
      have hopen := setWritable_calls a answers.opening true 0 a.size
      split
      case h_1 errno calls heq =>
        rw [heq] at hopen
        exact .inr (.inl ⟨errno, calls, hopen, rfl⟩)
      case h_2 calls heq =>
        rw [heq] at hopen
        have hclose := setWritable_calls a answers.closing false 0 a.size
        refine .inr (.inr (.inl ⟨_, _, _, ?_, ?_, rfl⟩))
        · split
          · exact .inl rfl
          · exact .inr rfl
        · intro start len hmem
          simp only [mem_append] at hmem
          exact (hmem.resolve_right (hclose start len)).resolve_left (hopen start len)
    · rw [if_neg hholes]
      exact .inr (.inr (.inr ⟨Nat.eq_zero_of_not_pos hholes, rfl⟩))
  · rw [if_neg hprint]
    exact .inl ⟨Bool.eq_false_iff.mpr hprint, rfl⟩

theorem recompact_of_clean {a : AtexitArray pg} (hextracted : a.extractedCount = 0)
    (happends : a.totalAppends ≤ a.size) (answers : Answers) :
    (a.recompact answers).status = .nothingToScrub := by
  have hprint : ¬ a.hasFingerprint = true := by
    rw [AtexitArray.hasFingerprint, decide_eq_true_iff, hextracted]
    rintro (h | h)
    · exact Nat.lt_irrefl 0 h
    · exact Nat.not_lt.mpr happends h
  rw [AtexitArray.recompact, if_neg hprint]

/-! ### Bytes -/

variable {i n : Nat}

theorem room_of_le (a : AtexitArray pg) (hn : n ≤ a.size) :
    n * entrySize w + 2 ^ pg.bits ≤ 2 ^ w :=
  Nat.le_trans (Nat.add_le_add_right (Nat.mul_le_mul_right _ hn) _) a.room

theorem toNat_index (a : AtexitArray pg) (hn : n ≤ a.size) :
    (BitVec.ofNat w (n * entrySize w)).toNat = n * entrySize w := by
  refine (BitVec.toNat_ofNat _ _).trans (Nat.mod_eq_of_lt ?_)
  exact Nat.lt_of_lt_of_le (Nat.lt_add_of_pos_right (Nat.two_pow_pos _)) (room_of_le a hn)

theorem le_pageEnd (a : AtexitArray pg) (hn : n ≤ a.size) :
    n * entrySize w ≤ (pageEndOfIndex pg n).toNat := by
  have hroom : Room pg.toPageSize (BitVec.ofNat w (n * entrySize w)) := by
    rw [Room, toNat_index a hn]
    exact room_of_le a hn
  have hle := le_ceil hroom
  rwa [BitVec.le_def, toNat_index a hn] at hle

theorem byte_lt {k : Nat} (hi : i < n) (hk : k < entrySize w) :
    i * entrySize w + k < n * entrySize w :=
  calc i * entrySize w + k < i * entrySize w + entrySize w := Nat.add_lt_add_left hk _
    _ = (i + 1) * entrySize w := (Nat.succ_mul i _).symm
    _ ≤ n * entrySize w := Nat.mul_le_mul_right _ hi

theorem word_lt (pg : WordPages w) {k : Nat} (hk : k < 3) : k * (w / 8) < entrySize w :=
  Nat.mul_lt_mul_of_pos_right hk pg.word_pos

theorem released_of_lt (pg : WordPages w) {lo hi : Nat} (hin : i < n) (hlo : n * entrySize w ≤ lo)
    (e : AtexitEntry w) : e.released lo hi i = e := by
  have hkeep (k : Nat) (hk : k < 3) (v : BitVec w) :
      releasedWord lo hi (i * entrySize w + k * (w / 8)) v = v :=
    if_neg fun h => absurd (Nat.lt_of_lt_of_le (byte_lt hin (word_lt pg hk)) hlo) (Nat.not_lt.mpr h.1)
  rw [AtexitEntry.released, hkeep 0 (by decide), hkeep 1 (by decide), hkeep 2 (by decide)]

@[simp] theorem released_null (lo hi i : Nat) :
    (AtexitEntry.null : AtexitEntry w).released lo hi i = .null := by
  simp [AtexitEntry.released, releasedWord, AtexitEntry.null]

/-! ### Entries -/

theorem moved_le (a : AtexitArray pg) : a.moved.2 ≤ a.size := compact_end_le _ _ _ _

/-- The release takes no entry below the new end. -/
theorem compacted_entry (release : Bool) (a : AtexitArray pg) (hi : i < a.moved.2) :
    (a.compacted release).entries i = a.moved.1 i := by
  simp only [AtexitArray.compacted]
  split
  · exact released_of_lt pg hi (le_pageEnd a (moved_le a)) _
  · rfl

theorem compacted_null (release : Bool) (a : AtexitArray pg) (hi : a.moved.1 i = .null) :
    (a.compacted release).entries i = .null := by
  simp only [AtexitArray.compacted, hi, released_null, ite_self]

theorem tidied_compacted (release : Bool) (a : AtexitArray pg) : Tidied a (a.compacted release) := by
  obtain ⟨hkept, hblank, hrest⟩ := compact_spec AtexitEntry.live .null a.size a.entries
  have hend : a.moved.2 = (below a.entries a.size).countP AtexitEntry.live :=
    (compact_end _ _ _ _).trans (countP_eq_length_filter).symm
  refine ⟨?_, ?_, hend, hend, rfl⟩
  · exact (below_congr fun i hi => compacted_entry release a hi).trans hkept
  · intro i hi hzero
    refine compacted_null release a ?_
    by_cases hlt : i < a.size
    · exact hblank i hi hlt
    · exact (hrest i (Nat.not_lt.mp hlt)).trans (hzero.resolve_left hlt)

/-- Without null entries the array is tidy but for the counter of appends. -/
theorem tidied_appends (a : AtexitArray pg) (hextracted : a.extractedCount = 0) (hholes : a.holes = 0) :
    Tidied a { a with totalAppends := a.size } := by
  have hall : ∀ e ∈ below a.entries a.size, e.live = true := by
    intro e he
    have hnot := countP_eq_zero.mp hholes e he
    rwa [Bool.not_eq_true', Bool.not_eq_false] at hnot
  have hcount : a.size = (below a.entries a.size).countP AtexitEntry.live := by
    rw [countP_eq_length.mpr hall, below, length_map, length_range]
  refine ⟨(filter_eq_self.mpr hall).symm, ?_, hcount, hcount, hextracted⟩
  intro i hi hzero
  exact hzero.resolve_left (Nat.not_lt.mpr hi)

/-- The pages that are released begin after the last entry. -/
theorem release_past_entries (a : AtexitArray pg) {start len : BitVec w}
    (h : Call.madvise start len ∈ a.releaseCalls) {k : Nat} (hi : i < a.moved.2) (hk : k < entrySize w) :
    ¬ (⟨start, len⟩ : Arc w).Has (a.array + BitVec.ofNat w (i * entrySize w + k)) := by
  simp only [AtexitArray.releaseCalls] at h
  split at h
  case isFalse => exact absurd h not_mem_nil
  case isTrue hlt =>
    obtain ⟨rfl, rfl⟩ := Call.madvise.inj (mem_singleton.mp h)
    have hbyte := Nat.lt_of_lt_of_le (byte_lt hi hk) (le_pageEnd a (moved_le a))
    intro hhas
    have hhas := (Arc.has_sub_iff (BitVec.le_of_lt hlt) _).mp ((Arc.shift_has a.array _ _).mp hhas)
    have hle := hhas.1
    rw [BitVec.le_def, BitVec.toNat_ofNat, Nat.mod_eq_of_lt (Nat.lt_trans hbyte (BitVec.isLt _))] at hle
    exact Nat.not_lt.mpr hle hbyte

end AtexitLemmas

open AtexitLemmas

/-- No handler is lost: `recompact` gives up and leaves the array, or what it leaves is tidy. -/
theorem recompact_keeps_live (answers : Answers) (a : AtexitArray pg)
    (hcount : a.extractedCount = a.holes) : KeepsLive a (a.recompact answers) := by
  rcases recompact_cases answers a with ⟨hprint, heq⟩ | ⟨errno, calls, hcalls, heq⟩ |
    ⟨status, errno, calls, hstatus, hcalls, heq⟩ | ⟨hextracted, heq⟩
  · rw [heq]
    refine ⟨.inl ⟨.inr rfl, rfl⟩, fun _ _ h => absurd h not_mem_nil, fun _ answers => ?_⟩
    rw [AtexitArray.recompact, if_neg (Bool.eq_false_iff.mp hprint)]
  · rw [heq]
    exact ⟨.inl ⟨.inl rfl, rfl⟩, fun start len h => absurd h (hcalls start len), fun h => absurd rfl h⟩
  · rw [heq]
    refine ⟨.inr ⟨hstatus, tidied_compacted answers.release a⟩, ?_, fun _ answers => ?_⟩
    · intro start len h i hi k hk
      exact release_past_entries a (hcalls start len h) hi hk
    · exact recompact_of_clean (a := a.compacted _) rfl (Nat.le_refl a.moved.2) answers
  · rw [heq]
    refine ⟨.inr ⟨.inl rfl, tidied_appends a hextracted (hcount ▸ hextracted)⟩,
      fun _ _ h => absurd h not_mem_nil, fun _ answers => ?_⟩
    exact recompact_of_clean (a := { a with totalAppends := a.size }) hextracted (Nat.le_refl a.size) answers

/-- Pages of 4 KiB, with eight bytes to a word. -/
def fourKib : WordPages 64 where
  toPageSize := smallPages
  word_pos := by decide
  words := by decide

/-- Three handlers, the second of which was removed. -/
def holedArray : AtexitArray fourKib where
  array := 0x7000000000
  entries
    | 0 => ⟨0x5100, 1, 0x5000⟩
    | 2 => ⟨0x6100, 2, 0x6000⟩
    | _ => .null
  size := 3
  extractedCount := 1
  totalAppends := 3
  room := by decide

theorem recompact_holedArray :
    holedArray.extractedCount = holedArray.holes ∧
      (holedArray.recompact ⟨none, true, some 12⟩).status = .leftWritable ∧
      KeepsLive holedArray (holedArray.recompact ⟨none, true, some 12⟩) :=
  ⟨by decide, by decide, recompact_keeps_live _ holedArray (by decide)⟩

/-- Where the pages are not made writable the holes are still there, and the next call is refused
again. -/
theorem refused_again :
    ¬ ∀ (answers answers' : Answers) (a : AtexitArray fourKib), a.extractedCount = a.holes →
      ((a.recompact answers).array.recompact answers').status = .nothingToScrub := by
  intro h
  exact absurd (h ⟨some 12, true, none⟩ ⟨some 12, true, none⟩ holedArray (by decide)) (by decide)

/-! ## `scrubFingerprint` -/

/-- What is found of libc: the array under the name it has with its fields split, or under the
older one, and whether the lock is found. -/
structure LibcSymbols (pg : WordPages w) where
  splitArray : Option (AtexitArray pg)
  wholeArray : Option (AtexitArray pg)
  lock : Bool

def findArray (libc : LibcSymbols pg) : Option (AtexitArray pg) :=
  (libc.splitArray <|> libc.wholeArray).filter fun a => a.size < 4096 * 16

def kLockAttempts : Nat := 8

/-- The status and the array afterwards; `trylock` tells which attempts get the lock. -/
def scrubFingerprint (libc : Option (LibcSymbols pg)) (trylock : Nat → Bool) (answers : Answers) :
    ScrubStatus × Option (AtexitArray pg) :=
  match libc with
  | none => (.noArray, none)
  | some libc =>
    match findArray libc with
    | none => (.noArray, none)
    | some a =>
      if ¬ libc.lock then (.noLock, some a)
      else if (List.range kLockAttempts).any trylock then
        ((a.recompact answers).status, some (a.recompact answers).array)
      else (.lockBusy, some a)

def AtexitArray.handlers (a : AtexitArray pg) :
    List (AtexitEntry w) := (below a.entries a.size).filter AtexitEntry.live

theorem handlers_compacted (release : Bool) (a : AtexitArray pg) :
    (a.compacted release).handlers = a.handlers := by
  rw [AtexitArray.handlers, (tidied_compacted release a).live, filter_filter]
  simp only [Bool.and_self, AtexitArray.handlers]

/-- Whatever fails, and whatever libc has counted, the handlers stay and in their order, and every
obstacle leaves the array exactly as it was. -/
theorem scrub_keeps_handlers (libc : LibcSymbols pg) (trylock : Nat → Bool) (answers : Answers) :
    let scrubbed := scrubFingerprint (some libc) trylock answers
    scrubbed.2.map AtexitArray.handlers = (findArray libc).map AtexitArray.handlers ∧
      (scrubbed.2 = findArray libc ∨ scrubbed.1 = .done ∨ scrubbed.1 = .leftWritable) := by
  dsimp only
  rw [scrubFingerprint]
  cases findArray libc with
  | none => exact ⟨rfl, .inl rfl⟩
  | some a =>
    dsimp only
    split_ifs with hlock htaken
    · rcases recompact_cases answers a with ⟨-, heq⟩ | ⟨errno, calls, -, heq⟩ |
        ⟨status, errno, calls, hdone, -, heq⟩ | ⟨-, heq⟩ <;> rw [heq]
      · exact ⟨rfl, .inl rfl⟩
      · exact ⟨rfl, .inl rfl⟩
      · exact ⟨congrArg some (handlers_compacted answers.release a), .inr hdone⟩
      · exact ⟨rfl, .inr (.inl rfl)⟩
    · exact ⟨rfl, .inl rfl⟩
    · exact ⟨rfl, .inl rfl⟩

end NyaZygisk.Atexit
