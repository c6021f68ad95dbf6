import NyaZygisk.AppMonitor
import NyaZygisk.Lib.LittleEndian

/-!
# Control datagrams

`SocketHandler::HandleEvent` looks at the head of a datagram first, works out the size of the whole
from it, and then reads that much. The buffer is kept from one datagram to the next.
-/

namespace NyaZygisk

namespace ControlDatagrams

open AppMonitor List

/-- `sizeof(MsgHead)`. -/
def headSize : Nat := 8

/-- `sizeof(Command)`. -/
def commandSize : Nat := 4

/-- The bits of `size_t`. -/
def sizeBits (lp64 : Bool) : Nat := if lp64 then 64 else 32

@[irreducible] def signed (bits : Nat) (n : Int) : Int := Int.bmod n (2 ^ bits)

def word (memory : List UInt8) (offset : Nat) : Int :=
  signed 32 (LittleEndian.number ((memory.drop offset).take 4))

/-- `std::vector<uint8_t>`, with the memory behind it. -/
structure Buffer where
  size : Nat
  memory : List UInt8
  fits : size ≤ memory.length

namespace Buffer

/-- `resize`: new elements are zero. -/
def resize (b : Buffer) (n : Nat) : Buffer :=
  if h : n ≤ b.size then ⟨n, b.memory, h.trans b.fits⟩
  else
    { size := n
      memory := b.memory.take b.size ++ List.replicate (n - b.size) 0 ++ b.memory.drop n
      fits := by
        have hfits := b.fits
        simp only [length_append, length_take, length_replicate, length_drop]
        omega }

/-- `recv` of up to `n` bytes of a datagram into the buffer. -/
def fill (b : Buffer) (d : List UInt8) (n : Nat) : Buffer where
  size := b.size
  memory := d.take n ++ b.memory.drop (min n d.length)
  fits := by
    have hfits := b.fits
    simp only [length_append, length_take, length_drop]
    omega

end Buffer

structure Handled where
  /-- Each byte of the buffer that was read, with the number of bytes of the datagram that it held
  by then. -/
  reads : List (Nat × Nat)
  /-- The lengths that a size of the buffer was computed from. -/
  sizedBy : List Int
  message : Option Message
  /-- The process has aborted, or has read memory that is not the buffer's. -/
  undefined : Bool

/-- The bytes from one index on. -/
def span (start count received : Nat) : List (Nat × Nat) :=
  (List.range' start count).map (·, received)

/-- The two commands that carry a payload. -/
def carriesText (command : Int) : Bool := command = 5 || command = 6

def bareMessage (command : Int) : Option Message :=
  if command = 1 then some .start
  else if command = 2 then some .stop
  else if command = 3 then some .exit
  else if command = 4 then some .zygoteInjected
  else if command = 7 then some .systemServerStarted
  else if command = 8 then some .rearm
  else none

def textMessage (command : Int) (text : List UInt8) : Message :=
  if command = 5 then .daemonSetInfo text else .daemonSetErrorInfo text

/-- The `switch`. The payload is read from its end to its last byte that is not NUL, and what is left
of it is copied, so all of it is read. A negative length is a huge `size_t`: the address of the first
byte that is read with it wraps, and there is no string of such a length. -/
def dispatch (lp64 : Bool) (memory : List UInt8) (received : Nat) (sizedBy : List Int)
    (reads : List (Nat × Nat)) : Handled :=
  let command := word memory 0
  if carriesText command then
    let length := word memory 4
    if length < 0 then
      { reads := reads ++ span 0 8 received ++
          span ((headSize + length - 1) % 2 ^ sizeBits lp64).toNat 1 received
        sizedBy := sizedBy
        message := none
        undefined := true }
    else
      { reads := reads ++ span 0 8 received ++ span headSize length.toNat received
        sizedBy := sizedBy
        message := some (textMessage command
          (withoutTrailingNuls ((memory.drop headSize).take length.toNat)))
        undefined := false }
  else
    { reads := reads ++ span 0 4 received
      sizedBy := sizedBy
      message := bareMessage command
      undefined := false }

/-- From the size of the whole datagram on. A negative one is too much for `resize`, which is a
`std::length_error`: without exceptions the process aborts. -/
def readAll (lp64 readFails : Bool) (b : Buffer) (d : List UInt8) (realSize : Int)
    (sizedBy : List Int) (reads : List (Nat × Nat)) : Handled :=
  if realSize < 0 then ⟨reads, sizedBy, none, true⟩
  else
    let b := (b.resize realSize.toNat).fill d realSize.toNat
    if readFails || min realSize.toNat d.length ≠ realSize.toNat then ⟨reads, sizedBy, none, false⟩
    else dispatch lp64 b.memory realSize.toNat sizedBy reads

/-- One round of `HandleEvent`; `readFails` is an error of the second `recv`. -/
def handleDatagram (lp64 readFails : Bool) (b : Buffer) (d : List UInt8) : Handled :=
  let b := (b.resize headSize).fill d headSize
  let received := min headSize d.length
  let reads := span 0 4 received
  if carriesText (word b.memory 0) then
    if d.length < headSize then ⟨reads, [], none, false⟩
    else
      readAll lp64 readFails b d (signed (sizeBits lp64) (headSize + word b.memory 4))
        [word b.memory 4] (reads ++ span 4 4 received)
  else if d.length ≠ commandSize then ⟨reads, [], none, false⟩
  else readAll lp64 readFails b d commandSize [] reads

def Handled.apply (h : Handled) (m : AppMonitor) (env : Rearm.Env) (seizes : Bool) : AppMonitor :=
  h.message.elim m (m.handleMessage env seizes)

/-! ## Specification -/

/-- The bytes that the length of a datagram says are its text. -/
def payload (d : List UInt8) : List UInt8 := (d.drop headSize).take (word d 4).toNat

/-- The length of a datagram lies between zero and the number of bytes that follow it. -/
def IsFrame (d : List UInt8) : Prop :=
  headSize ≤ d.length ∧ 0 ≤ word d 4 ∧ word d 4 ≤ (d.drop headSize).length

/-- What a datagram may do to the monitor. -/
inductive Acted (d : List UInt8) (env : Rearm.Env) (seizes : Bool) (m : AppMonitor) :
    AppMonitor → Prop
  | rejected : Acted d env seizes m m
  | bare {message : Message} (hsize : d.length = commandSize)
      (hcommand : bareMessage (word d 0) = some message) :
      Acted d env seizes m (m.handleMessage env seizes message)
  | info (hcommand : word d 0 = 5) (hframe : IsFrame d) :
      Acted d env seizes m { m with daemonInfo := withoutTrailingNuls (payload d) }
  | errorInfo (hcommand : word d 0 = 6) (hframe : IsFrame d) :
      Acted d env seizes m
        { m with
          status := { m.status with daemonRunning := false }
          daemonErrorInfo := withoutTrailingNuls (payload d) }

structure Safe (d : List UInt8) (h : Handled) : Prop where
  reads : ∀ r ∈ h.reads, r.1 < r.2
  sizedBy : ∀ length ∈ h.sizedBy, 0 ≤ length
  defined : h.undefined = false
  acted : ∀ m env seizes, Acted d env seizes m (h.apply m env seizes)

/-- There is a command in the datagram, and if a length belongs to it that is there too, it is not
negative and the size of the whole can be held in a `ssize_t`. -/
def Decodable (lp64 : Bool) (d : List UInt8) : Prop :=
  commandSize ≤ d.length ∧
    (carriesText (word d 0) = true → headSize ≤ d.length →
      0 ≤ word d 4 ∧ headSize + word d 4 < 2 ^ (sizeBits lp64 - 1))

instance (lp64 : Bool) (d : List UInt8) : Decidable (Decodable lp64 d) :=
  inferInstanceAs (Decidable (_ ∧ _))

namespace ControlDatagramsLemmas

variable {lp64 readFails : Bool} {b : Buffer} {d : List UInt8} {n offset received : Nat}

/-! ## What is in the buffer -/

theorem take_drop_fill (h : offset + n ≤ min received d.length) :
    (((b.fill d received).memory.drop offset).take n) = (d.drop offset).take n := by
  have hlength : (d.take received).length = min received d.length := length_take
  rw [Buffer.fill, drop_append_of_le_length (by omega),
    take_append_of_le_length (by rw [length_drop]; omega), drop_take, take_take]
  congr 1
  omega

theorem word_fill (h : offset + 4 ≤ min received d.length) :
    word (b.fill d received).memory offset = word d offset := by
  rw [word, take_drop_fill h, word]

/-! ## What is read -/

theorem mem_span {start count : Nat} {r : Nat × Nat} :
    r ∈ span start count received ↔ (start ≤ r.1 ∧ r.1 < start + count) ∧ r.2 = received := by
  obtain ⟨index, held⟩ := r
  simp only [span, mem_map, mem_range'_1, Prod.mk.injEq]
  constructor
  · rintro ⟨_, h, rfl, rfl⟩
    exact ⟨h, rfl⟩
  · rintro ⟨h, rfl⟩
    exact ⟨index, h, rfl, rfl⟩

theorem span_inside {start count : Nat} (h : start + count ≤ received) :
    ∀ r ∈ span start count received, r.1 < r.2 := by
  intro r hr
  obtain ⟨⟨_, hlt⟩, heq⟩ := mem_span.mp hr
  rw [heq]
  exact lt_of_lt_of_le hlt h

theorem forall_mem_append {P : Nat × Nat → Prop} {l l' : List (Nat × Nat)}
    (h : ∀ r ∈ l, P r) (h' : ∀ r ∈ l', P r) : ∀ r ∈ l ++ l', P r := by
  intro r hr
  exact (mem_append.mp hr).elim (h r) (h' r)

variable {reads : List (Nat × Nat)} {sizedBy : List Int} {memory : List UInt8}

theorem reads_dispatch :
    reads ⊆ (dispatch lp64 memory received sizedBy reads).reads := by
  simp only [dispatch]
  split
  · split
    · rw [append_assoc]
      exact subset_append_left ..
    · rw [append_assoc]
      exact subset_append_left ..
  · exact subset_append_left ..

theorem sizedBy_dispatch :
    (dispatch lp64 memory received sizedBy reads).sizedBy = sizedBy := by
  simp only [dispatch]
  split
  · split <;> rfl
  · rfl

theorem reads_readAll {realSize : Int} :
    reads ⊆ (readAll lp64 readFails b d realSize sizedBy reads).reads := by
  simp only [readAll]
  split
  · exact List.Subset.refl _
  · split
    · exact List.Subset.refl _
    · exact reads_dispatch

theorem sizedBy_readAll {realSize : Int} :
    (readAll lp64 readFails b d realSize sizedBy reads).sizedBy = sizedBy := by
  simp only [readAll]
  split
  · rfl
  · split
    · rfl
    · exact sizedBy_dispatch

/-- The command is read before anything else is known about the datagram. -/
theorem reads_handleDatagram :
    span 0 4 (min headSize d.length) ⊆ (handleDatagram lp64 readFails b d).reads := by
  simp only [handleDatagram]
  split
  · split
    · exact List.Subset.refl _
    · exact List.Subset.trans (subset_append_left ..) reads_readAll
  · split
    · exact List.Subset.refl _
    · exact reads_readAll

/-! ## The size -/

theorem sizeBits_eq (lp64 : Bool) : sizeBits lp64 = 32 ∨ sizeBits lp64 = 64 := by
  cases lp64
  · exact .inl rfl
  · exact .inr rfl

theorem signed_32_lt (n : Int) : signed 32 n < 2 ^ 31 := by
  have h := Int.bmod_lt (x := n) (Nat.two_pow_pos 32)
  rw [signed]
  omega

theorem signed_of_lt {bits : Nat} {n : Int} (hn : 0 ≤ n) (hlt : n < 2 ^ bits) :
    signed (bits + 1) n = n := by
  have hpow : ((2 ^ (bits + 1) : Nat) : Int) = 2 * 2 ^ bits := by
    rw [Nat.pow_succ, Nat.mul_comm, Nat.cast_mul, Nat.cast_pow, Nat.cast_ofNat]
  rw [signed]
  refine Int.bmod_eq_of_le ?_ ?_ <;> rw [hpow] <;> omega

theorem realSize_of_lt {length : Int} (hlength : 0 ≤ length)
    (hlt : headSize + length < 2 ^ (sizeBits lp64 - 1)) :
    signed (sizeBits lp64) (headSize + length) = ((headSize + length.toNat : Nat) : Int) := by
  rw [Nat.cast_add, Int.toNat_of_nonneg hlength]
  cases lp64
  · exact signed_of_lt (by positivity) hlt
  · exact signed_of_lt (by positivity) hlt

theorem realSize_of_le
    (hle : 2 ^ (sizeBits lp64 - 1) ≤ headSize + word memory offset) :
    signed (sizeBits lp64) (headSize + word memory offset) < 0 := by
  have hrange : word memory offset < 2 ^ 31 := signed_32_lt _
  generalize word memory offset = length at *
  have hhead : headSize = 8 := rfl
  rcases sizeBits_eq lp64 with h | h
  · rw [h, hhead] at hle ⊢
    rw [signed, Int.bmod]
    split <;> omega
  · rw [h, hhead] at hle
    omega

/-! ## Where the whole of a text is there -/

theorem dispatch_text
    (hcommand : carriesText (word d 0) = true) (hlength : 0 ≤ word d 4)
    (hsize : headSize + (word d 4).toNat ≤ d.length) :
    dispatch lp64 (b.fill d (headSize + (word d 4).toNat)).memory
        (headSize + (word d 4).toNat) sizedBy reads =
      { reads := reads ++ span 0 8 (headSize + (word d 4).toNat) ++
          span headSize (word d 4).toNat (headSize + (word d 4).toNat)
        sizedBy := sizedBy
        message := some (textMessage (word d 0) (withoutTrailingNuls (payload d)))
        undefined := false } := by
  have hhead : 8 ≤ min (headSize + (word d 4).toNat) d.length :=
    le_min (Nat.le_add_right ..) ((Nat.le_add_right ..).trans hsize)
  have hcmd : word (b.fill d (headSize + (word d 4).toNat)).memory 0 = word d 0 :=
    word_fill ((by decide : 0 + 4 ≤ 8).trans hhead)
  have hlen : word (b.fill d (headSize + (word d 4).toNat)).memory 4 = word d 4 := word_fill hhead
  have htext : (((b.fill d (headSize + (word d 4).toNat)).memory.drop headSize).take
      (word d 4).toNat) = payload d := take_drop_fill (le_min le_rfl hsize)
  simp only [dispatch, hcmd, hlen, htext, hcommand, if_true, if_neg hlength.not_gt]

theorem handleDatagram_text (hcommand : carriesText (word d 0) = true) (hsize : headSize ≤ d.length) :
    handleDatagram lp64 readFails b d =
      readAll lp64 readFails ((b.resize headSize).fill d headSize) d
        (signed (sizeBits lp64) (headSize + word d 4)) [word d 4]
        (span 0 4 (min headSize d.length) ++ span 4 4 (min headSize d.length)) := by
  have hhead : 4 + 4 ≤ min headSize d.length := le_min le_rfl hsize
  have hpeek : 0 + 4 ≤ min headSize d.length := (by decide : 0 + 4 ≤ 4 + 4).trans hhead
  simp only [handleDatagram, word_fill hpeek, word_fill hhead, hcommand, if_true,
    if_neg hsize.not_gt]

/-! ## Each outcome -/

theorem Safe.of_message {h : Handled} (reads : ∀ r ∈ h.reads, r.1 < r.2)
    (sizedBy : ∀ length ∈ h.sizedBy, 0 ≤ length) (defined : h.undefined = false)
    (acted : ∀ message, h.message = some message →
      ∀ m env seizes, Acted d env seizes m (m.handleMessage env seizes message)) : Safe d h where
  reads := reads
  sizedBy := sizedBy
  defined := defined
  acted := by
    intro m env seizes
    cases hmessage : h.message with
    | none =>
      rw [Handled.apply, hmessage]
      exact .rejected
    | some message =>
      rw [Handled.apply, hmessage]
      exact acted message hmessage m env seizes

theorem withoutTrailingNuls_twice (text : List UInt8) :
    withoutTrailingNuls (withoutTrailingNuls text) = withoutTrailingNuls text :=
  rdropWhile_idempotent _ _

/-- The text is stripped of its NULs before it is given to the ABI manager, and there again. -/
theorem acted_text (hcommand : carriesText (word d 0) = true) (hframe : IsFrame d)
    (m : AppMonitor) (env : Rearm.Env) (seizes : Bool) :
    Acted d env seizes m
      (m.handleMessage env seizes (textMessage (word d 0) (withoutTrailingNuls (payload d)))) := by
  simp only [carriesText, Bool.or_eq_true, decide_eq_true_eq] at hcommand
  rcases hcommand with h | h
  · rw [textMessage, if_pos h, handleMessage, setDaemonInfo, withoutTrailingNuls_twice]
    exact .info h hframe
  · have hne : word d 0 ≠ 5 := by rw [h]; decide
    rw [textMessage, if_neg hne, handleMessage, setDaemonCrashed, withoutTrailingNuls_twice]
    exact .errorInfo h hframe

section

variable {sizedBy : List Int} {reads : List (Nat × Nat)}
  (hreads : ∀ r ∈ reads, r.1 < r.2) (hsized : ∀ length ∈ sizedBy, 0 ≤ length)

include hreads hsized

theorem safe_rejected : Safe d ⟨reads, sizedBy, none, false⟩ :=
  Safe.of_message hreads hsized rfl (by simp)

theorem safe_dispatch_bare (hsize : d.length = commandSize)
    (hcommand : carriesText (word d 0) = false) :
    Safe d (dispatch lp64 (b.fill d commandSize).memory commandSize sizedBy reads) := by
  have hword : word (b.fill d commandSize).memory 0 = word d 0 := word_fill (le_min le_rfl hsize.ge)
  simp only [dispatch, hword, hcommand, Bool.false_eq_true, if_false]
  refine Safe.of_message ?_ hsized rfl ?_
  · exact forall_mem_append hreads (span_inside le_rfl)
  · intro message hmessage m env seizes
    exact .bare hsize hmessage

theorem safe_dispatch_text (hcommand : carriesText (word d 0) = true) (hlength : 0 ≤ word d 4)
    (hsize : headSize + (word d 4).toNat ≤ d.length) :
    Safe d (dispatch lp64 (b.fill d (headSize + (word d 4).toNat)).memory
      (headSize + (word d 4).toNat) sizedBy reads) := by
  have hframe : IsFrame d := by
    refine ⟨(Nat.le_add_right ..).trans hsize, hlength, ?_⟩
    rw [length_drop]
    omega
  rw [dispatch_text hcommand hlength hsize]
  refine Safe.of_message ?_ hsized rfl ?_
  · exact forall_mem_append
      (forall_mem_append hreads (span_inside (Nat.le_add_right ..))) (span_inside le_rfl)
  · rintro _ ⟨⟩ m env seizes
    exact acted_text hcommand hframe m env seizes

theorem safe_readAll {realSize : Nat}
    (hdispatch : realSize ≤ d.length →
      Safe d (dispatch lp64 ((b.resize realSize).fill d realSize).memory realSize sizedBy reads)) :
    Safe d (readAll lp64 readFails b d realSize sizedBy reads) := by
  rw [readAll, if_neg (Int.natCast_nonneg realSize).not_gt]
  simp only [Int.toNat_natCast]
  split
  · exact safe_rejected hreads hsized
  · rename_i h
    simp only [Bool.or_eq_true, decide_eq_true_eq, not_or, ne_eq, not_not] at h
    exact hdispatch (min_eq_left_iff.mp h.2)

end

/-! ## A whole datagram -/

theorem safe_of_decodable (h : Decodable lp64 d) :
    Safe d (handleDatagram lp64 readFails b d) := by
  obtain ⟨hcommandSize, htext⟩ := h
  have hpeek : 0 + 4 ≤ min headSize d.length := le_min (by decide) hcommandSize
  have hnone : ∀ length ∈ ([] : List Int), 0 ≤ length := by simp
  cases hcommand : carriesText (word d 0) with
  | true =>
    rcases Nat.lt_or_ge d.length headSize with hsize | hsize
    · simp only [handleDatagram, word_fill hpeek, hcommand, if_true, if_pos hsize]
      exact safe_rejected (span_inside hpeek) hnone
    · obtain ⟨hlength, hlt⟩ := htext hcommand hsize
      have hreads := forall_mem_append (span_inside hpeek)
        (span_inside (le_min le_rfl hsize : 4 + 4 ≤ min headSize d.length))
      have hsized : ∀ length ∈ [word d 4], 0 ≤ length := by simpa using hlength
      rw [handleDatagram_text hcommand hsize, realSize_of_lt hlength hlt]
      exact safe_readAll hreads hsized (safe_dispatch_text hreads hsized hcommand hlength)
  | false =>
    simp only [handleDatagram, word_fill hpeek, hcommand, Bool.false_eq_true, if_false]
    split
    · exact safe_rejected (span_inside hpeek) hnone
    · rename_i hsize
      exact safe_readAll (span_inside hpeek) hnone fun _ =>
        safe_dispatch_bare (span_inside hpeek) hnone (not_not.mp hsize) hcommand

theorem commandSize_le_of_safe (h : Safe d (handleDatagram lp64 readFails b d)) :
    commandSize ≤ d.length := by
  have hread : (3, min headSize d.length) ∈ (handleDatagram lp64 readFails b d).reads :=
    reads_handleDatagram (mem_span.mpr ⟨⟨Nat.zero_le _, Nat.lt_succ_self 3⟩, rfl⟩)
  exact Nat.succ_le_of_lt ((h.reads _ hread).trans_le (min_le_right ..))

theorem length_of_safe (h : Safe d (handleDatagram lp64 readFails b d))
    (hcommand : carriesText (word d 0) = true) (hsize : headSize ≤ d.length) :
    0 ≤ word d 4 ∧ headSize + word d 4 < 2 ^ (sizeBits lp64 - 1) := by
  rw [handleDatagram_text hcommand hsize] at h
  refine ⟨h.sizedBy _ (by rw [sizedBy_readAll]; exact mem_singleton.mpr rfl), ?_⟩
  by_contra hle
  have hdefined := h.defined
  rw [readAll, if_pos (realSize_of_le (not_lt.mp hle))] at hdefined
  exact Bool.noConfusion hdefined

end ControlDatagramsLemmas

open ControlDatagramsLemmas

variable (lp64 readFails : Bool) (b : Buffer) (d : List UInt8)

/-- Whatever is left in the buffer from the datagrams before, a datagram is decoded safely exactly
when the bytes that its head is read from are there and the length in it is neither negative nor too
large for a size. -/
theorem handleDatagram_safe_iff :
    Safe d (handleDatagram lp64 readFails b d) ↔ Decodable lp64 d :=
  ⟨fun h => ⟨commandSize_le_of_safe h, length_of_safe h⟩, safe_of_decodable⟩

def empty : Buffer := ⟨0, [], le_rfl⟩

/-- `DAEMON_SET_INFO` with the length -1. -/
def negativeLength : List UInt8 := [5, 0, 0, 0, 255, 255, 255, 255]

/-- The size of the buffer is computed from the negative length, and the seven bytes that are read then
are all there. The end of the text is looked for at the last of them, which is not NUL, and a text of
`SIZE_MAX` bytes is recorded. -/
theorem negative_length_unsafe :
    (handleDatagram true false empty negativeLength).sizedBy = [-1] ∧
      (handleDatagram true false empty negativeLength).reads.getLast? = some (6, 7) ∧
      (handleDatagram true false empty negativeLength).undefined = true ∧
      ¬ Safe negativeLength (handleDatagram true false empty negativeLength) := by
  have hsized : (handleDatagram true false empty negativeLength).sizedBy = [-1] := by
    decide +kernel
  refine ⟨hsized, by decide +kernel, by decide +kernel, fun h => ?_⟩
  have hlength := h.sizedBy (-1)
  rw [hsized] at hlength
  exact absurd (hlength (mem_singleton.mpr rfl)) (by decide)

end ControlDatagrams

end NyaZygisk
