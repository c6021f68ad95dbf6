import NyaZygisk.Lib.Faults
import NyaZygisk.DaemonWire

/-!
# Reads of a reply that time out

The client's socket has a time limit, so a `read` or `recvmsg` may fail with the rest of the reply
still to come. `socket_utils.cpp` then gives the caller a default, and `ReadModules` and `GetZnPlan`
go on from wherever they are in the stream.
-/

namespace NyaZygisk.TimedReads

open CStrings List LittleEndian Octets Wire

/-! ## The socket -/

/-- What a call to `read` or `recvmsg` finds. -/
inductive Outcome
  /-- One octet, and so many more. -/
  | arrived (more : Nat)
  | interrupted
  /-- `EAGAIN`, after `kDaemonIoTimeoutMs`. -/
  | timedOut
deriving DecidableEq

structure Call where
  field : Field
  /-- The octets that were still to come. -/
  left : Nat
  complete : Bool
deriving DecidableEq

structure Socket where
  /-- What the next calls find. After these, whatever they ask for is there. -/
  schedule : List Outcome
  inFlight : Stream Descriptor
  calls : List Call

abbrev Client : Type → Type := StateM Socket

def Socket.of (schedule : List Outcome) (reply : Stream Descriptor) : Socket := ⟨schedule, reply, []⟩

/-! ## Its calls -/

/-- The loop of `xread`: what it returns, with `none` for -1, and what is in the buffer. -/
def xreadLoop (count : Nat) (buf : List UInt8) (s : Stream Descriptor) :
    List Outcome → (Option Nat × List UInt8) × List Outcome × Stream Descriptor
  | [] =>
    let (bs, s) := readUpTo (count - buf.length) s
    ((some (buf ++ bs).length, buf ++ bs), [], s)
  -- `continue` goes to the condition of the loop, which holds
  | .interrupted :: schedule => xreadLoop count buf s schedule
  | .timedOut :: schedule => ((none, buf), schedule, s)
  | .arrived more :: schedule =>
    let (bs, s) := readUpTo (min (more + 1) (count - buf.length)) s
    let buf := buf ++ bs
    if buf.length ≠ count ∧ bs ≠ [] then xreadLoop count buf s schedule
    else ((some buf.length, buf), schedule, s)

/-- `xread`. A `read` of no octets returns at once. -/
def xread (field : Field) (count : Nat) : Client (Option Nat × List UInt8) := fun w =>
  let (result, schedule, s) :=
    if count = 0 then ((some 0, []), w.schedule, w.inFlight)
    else xreadLoop count [] w.inFlight w.schedule
  (result, ⟨schedule, s, w.calls ++ [⟨field, w.inFlight.length, result.1 = some count⟩]⟩)

/-- What `recv_fd` gets from a `recvmsg` that does not fail. -/
def received (n : Nat) (schedule : List Outcome) (w : Socket) : Option Descriptor × Socket :=
  let (fd, s) := receive n w.inFlight
  let octets := (w.inFlight.take n).length
  (fd, ⟨schedule, s, w.calls ++ [⟨.descriptor, w.inFlight.length, octets = 4⟩]⟩)

/-- `recv_fd`, with `none` for -1 and other values that are not those of a descriptor. If `recvmsg`
fails, `msg_controllen` is still the size of the buffer, and the descriptor is what the buffer had
in it before. -/
def recvFd (leftover : Socket → Option Descriptor) : Client (Option Descriptor) := fun w =>
  match w.schedule with
  | [] => received 4 [] w
  | .arrived more :: schedule => received (min (more + 1) 4) schedule w
  | .interrupted :: schedule | .timedOut :: schedule =>
    (leftover w, ⟨schedule, w.inFlight, w.calls ++ [⟨.descriptor, w.inFlight.length, false⟩]⟩)

def timed (heap : Stream Descriptor → Nat → UInt8) (leftover : Socket → Option Descriptor) :
    Connection Client where
  heap w := (heap w.inFlight, w)
  xread := xread
  recvFd := recvFd leftover

/-! ## Specification -/

section

variable (k : Nat) (payload : Descriptor → UInt32)

/-- For each length field of a reply, the octets that are still to come where it starts. -/
def lengthFields : List Sent → List Nat
  | [] => []
  | .string value :: reply => (encodeAll k payload (.string value :: reply)).length :: lengthFields reply
  | _ :: reply => lengthFields reply

/-- Whatever was taken for a length was sent as one. -/
def LengthsKept (reply : List Sent) (w : Socket) : Prop :=
  ∀ c ∈ w.calls, c.field = .length → c.complete → c.left ∈ lengthFields k payload reply

/-- The client got nothing but what was sent, and took no length from anywhere else. -/
structure InStep {ε : Type} (reply : List Sent) (sent got : List ε) (w : Socket) : Prop where
  entries : ∀ e ∈ got, e ∈ sent
  lengths : LengthsKept k payload reply w

end

/-- Reads failed only for these fields. -/
def FailedOnly (fields : Set Field) (w : Socket) : Prop :=
  ∀ c ∈ w.calls, c.complete = false → c.field ∈ fields

/-- Both clients stay in step with any reply, however the calls go in which reads fail only for
these fields. -/
def InStepDespite (k : Nat) (fields : Set Field) : Prop :=
  ∀ (heap : Stream Descriptor → Nat → UInt8) (leftover : Socket → Option Descriptor)
    (payload : Descriptor → UInt32) (os : Os) (d : Daemon) (processName processPath : String)
    (schedule : List Outcome),
    let scanned := scanZnModulesForTarget os.toScanOs processName processPath
    d.modules.length < 256 ^ k → (∀ m ∈ d.modules, Text k m.name) →
    scanned.length < 256 ^ k → (∀ m ∈ scanned, Text k m.libPath) →
    let modules := (handleReadModules os d).1
    let plan := (handleGetZnPlan os d processName processPath).1
    let modulesRun := readModules k (timed heap leftover) (.of schedule (encodeAll k payload modules))
    let planRun := getZnPlan k (timed heap leftover) (.of schedule (encodeAll k payload plan))
    (FailedOnly fields modulesRun.2 → InStep k payload modules (moduleEntries d.modules)
      (modulesRun.1.filter (·.2.isSome)) modulesRun.2) ∧
    (FailedOnly fields planRun.2 → InStep k payload plan (planEntries d.memfds.length scanned)
      planRun.1 planRun.2)

namespace TimedReadsLemmas

open Faults WireLemmas

variable {k : Nat} {heap : Stream Descriptor → Nat → UInt8} {leftover : Socket → Option Descriptor}
  {payload : Descriptor → UInt32}

/-! ## One read -/

theorem length_readUpTo_le (n : Nat) (s : Stream Descriptor) : (readUpTo n s).1.length ≤ n := by
  rw [readUpTo, length_map]
  exact length_take_le n s

theorem xreadLoop_arrived (count more : Nat) (buf : List UInt8) (s : Stream Descriptor)
    (schedule : List Outcome) :
    let m := min (more + 1) (count - buf.length)
    let bs := (readUpTo m s).1
    xreadLoop count buf s (.arrived more :: schedule) =
      if (buf ++ bs).length ≠ count ∧ bs ≠ [] then xreadLoop count (buf ++ bs) (s.drop m) schedule
      else ((some (buf ++ bs).length, buf ++ bs), schedule, s.drop m) :=
  rfl

/-- A loop that got all it was to get has read on where the buffer ended. -/
theorem xreadLoop_complete {count : Nat} (schedule : List Outcome) :
    ∀ {buf : List UInt8} {s : Stream Descriptor}, buf.length ≤ count →
      (xreadLoop count buf s schedule).1.1 = some count →
      (xreadLoop count buf s schedule).1.2 = buf ++ (readUpTo (count - buf.length) s).1 ∧
        (xreadLoop count buf s schedule).2.2 = s.drop (count - buf.length) := by
  induction schedule with
  | nil => exact fun _ _ => ⟨rfl, rfl⟩
  | cons outcome schedule ih =>
    intro buf s hbuf h
    cases outcome with
    | interrupted => exact ih hbuf h
    | timedOut => cases h
    | arrived more =>
      have hm := Nat.min_le_right (more + 1) (count - buf.length)
      obtain ⟨hbytes, hrest⟩ := readUpTo_resume hm s
      have hlength := (length_readUpTo_le _ s).trans hm
      rw [xreadLoop_arrived] at h ⊢
      generalize min (more + 1) (count - buf.length) = m at *
      have hmissing : count - (buf ++ (readUpTo m s).1).length =
          count - buf.length - (readUpTo m s).1.length := by
        rw [length_append, Nat.sub_add_eq]
      rw [← hbytes, ← hrest, ← hmissing, ← append_assoc]
      split at h <;> rename_i hagain
      · rw [if_pos hagain]
        refine ih ?_ h
        rw [length_append]
        exact Nat.add_le_of_le_sub' hbuf hlength
      · rw [if_neg hagain]
        -- the buffer is full
        obtain hfull : (buf ++ (readUpTo m s).1).length = count := Option.some.inj h
        rw [hfull, Nat.sub_self]
        exact ⟨(append_nil _).symm, rfl⟩

variable {field : Field} {schedule : List Outcome} {fields : Set Field} {w : Socket}
    {rest : Stream Descriptor}

theorem xread_complete {n : Nat} {bs : List UInt8} (hn : bs.length = n) (hw : w.inFlight = plain bs ++ rest)
    (h : (xread field n w).1.1 = some n) :
    (xread field n w).1.2 = bs ∧ (xread field n w).2.inFlight = rest := by
  have hgot : (xread field n w).1.2 = (readUpTo n w.inFlight).1 ∧
      (xread field n w).2.inFlight = w.inFlight.drop n := by
    rcases Nat.eq_zero_or_pos n with rfl | hn
    · exact ⟨rfl, rfl⟩
    · have hloop : (xread field n w).1 = (xreadLoop n [] w.inFlight w.schedule).1 ∧
          (xread field n w).2.inFlight = (xreadLoop n [] w.inFlight w.schedule).2.2 := by
        simp only [xread, if_neg hn.ne', and_self]
      rw [hloop.1] at h ⊢
      rw [hloop.2]
      exact xreadLoop_complete w.schedule (Nat.zero_le n) h
  rwa [hw, readUpTo_plain hn, drop_left' (by rw [length_plain, hn])] at hgot

/-! ## Runs in which only the read of the count fails -/

/-- Nothing but the read of the count failed. -/
abbrev Sound : Socket → Prop := FailedOnly {.count}

theorem sound_snoc {s : Stream Descriptor} {c : Call} :
    Sound ⟨schedule, s, w.calls ++ [c]⟩ ↔ Sound w ∧ (c.complete = false → c.field = .count) := by
  simp only [Sound, FailedOnly, mem_append, mem_singleton, Set.mem_singleton_iff, or_imp,
    forall_and, forall_eq]

theorem xread_records (field : Field) (n : Nat) : Records Sound (xread field n) :=
  fun _ h => (sound_snoc.mp h).1

theorem readExactOr_records (field : Field) (size fail : Nat) :
    Records Sound (readExactOr (timed heap leftover) field size fail) :=
  (xread_records field size).bind fun _ => .pure _

theorem readU8_records : Records Sound (readU8 (timed heap leftover)) :=
  (readExactOr_records .companion 1 0).bind fun _ => .pure _

theorem recvFd_records : Records Sound (recvFd leftover) := by
  intro w h
  unfold recvFd at h
  split at h <;> exact (sound_snoc.mp h).1

theorem readChars_records (len : Nat) : Records Sound (readChars (timed heap leftover) len) :=
  xread_records .text len

theorem readString_records : Records Sound (readString k (timed heap leftover)) :=
  (readExactOr_records .length k 0).bind readChars_records

theorem readModulesLoop_records (n : Nat) : Records Sound (readModulesLoop k (timed heap leftover) n) := by
  induction n with
  | zero => exact .pure _
  | succ n ih =>
    exact readString_records.bind fun _ => recvFd_records.bind fun _ => ih.bind fun _ => .pure _

theorem planEntry_records {rest : Client (List ZnPlanEntry)} (hrest : Records Sound rest)
    (libPath : List UInt8) (companion : UInt8) (memfd : Option Descriptor) :
    Records Sound (do
      let entries ← rest
      match memfd with
      | none => return entries
      | some memfd => return ⟨libPath, companion ≠ 0, memfd⟩ :: entries) := by
  refine hrest.bind fun _ => ?_
  cases memfd with
  | none | some _ => exact .pure _

theorem getZnPlanLoop_records (n : Nat) : Records Sound (getZnPlanLoop k (timed heap leftover) n) := by
  induction n with
  | zero => exact .pure _
  | succ n ih =>
    exact readString_records.bind fun _ => readU8_records.bind fun _ => recvFd_records.bind
      (planEntry_records ih _ _)

/-- So much of the reply is still to come, and no length was taken from anywhere else. -/
def At (k : Nat) (payload : Descriptor → UInt32) (reply : List Sent) (s : Stream Descriptor)
    (w : Socket) : Prop :=
  w.inFlight = s ∧ LengthsKept k payload reply w

section

variable {reply : List Sent}

theorem at_of (schedule : List Outcome) (s : Stream Descriptor) :
    At k payload reply s (.of schedule s) :=
  ⟨rfl, fun _ hc => absurd hc not_mem_nil⟩

theorem lengthsKept_snoc {s : Stream Descriptor} {c : Call} (h : LengthsKept k payload reply w)
    (hc : c.field = .length → c.left ∈ lengthFields k payload reply) :
    LengthsKept k payload reply ⟨schedule, s, w.calls ++ [c]⟩ := by
  intro c' hc' hfield hcomplete
  rcases mem_append.mp hc' with hc' | hc'
  · exact h c' hc' hfield hcomplete
  · rw [mem_singleton.mp hc'] at hfield ⊢
    exact hc hfield

theorem xread_inStep {n : Nat} {bs : List UInt8} (hn : bs.length = n) (hcount : field ≠ .count)
    (hplace : field = .length → (plain bs ++ rest).length ∈ lengthFields k payload reply) :
    Triple Sound (At k payload reply (plain bs ++ rest)) (xread field n) (some n, bs)
      (At k payload reply rest) := by
  intro w hw hsound
  have hret : (xread field n w).1.1 = some n := by
    by_contra hret
    exact hcount ((sound_snoc.mp hsound).2 (decide_eq_false hret))
  obtain ⟨hbuf, hrest⟩ := xread_complete hn hw.1 hret
  refine ⟨Prod.ext hret hbuf, hrest, lengthsKept_snoc hw.2 ?_⟩
  rw [hw.1]
  exact hplace

theorem readExactOr_inStep {size v : Nat} (fail : Nat) (hv : v < 256 ^ size) (hcount : field ≠ .count)
    (hplace : field = .length → (plain (bytes size v) ++ rest).length ∈ lengthFields k payload reply) :
    Triple Sound (At k payload reply (plain (bytes size v) ++ rest))
      (readExactOr (timed heap leftover) field size fail) v
      (At k payload reply rest) := by
  have hread := (xread_inStep (length_bytes size v) hcount hplace).map
    fun r : Option Nat × List UInt8 => if r.1 = some size then number r.2 else fail
  rw [if_pos rfl, number_bytes hv] at hread
  exact hread

theorem readU8_inStep (value : UInt8) :
    Triple Sound (At k payload reply (plain [value] ++ rest)) (readU8 (timed heap leftover)) value
      (At k payload reply rest) := by
  have hread : Triple Sound (At k payload reply (plain (bytes 1 value.toNat) ++ rest))
      (readExactOr (timed heap leftover) .companion 1 0) value.toNat (At k payload reply rest) :=
    readExactOr_inStep 0 value.toNat_lt nofun nofun
  rw [bytes, bytes, UInt8.ofNat_toNat] at hread
  have hu8 := hread.map UInt8.ofNat
  rwa [UInt8.ofNat_toNat] at hu8

theorem length_mem_lengthFields {text : String} {after : List Sent}
    (h : .string text :: after <:+ reply) :
    (encodeAll k payload (.string text :: after)).length ∈ lengthFields k payload reply := by
  induction reply with
  | nil => exact absurd h.length_le (by simp)
  | cons item reply ih =>
    rcases suffix_cons_iff.mp h with heq | hlater
    · rw [← heq, lengthFields]
      exact mem_cons_self
    · cases item with
      | string value => exact mem_cons_of_mem _ (ih hlater)
      | _ => exact ih hlater

theorem readChars_inStep {text : String} (htext : Text k text) :
    Triple Sound (At k payload reply (plain (utf8 text) ++ rest))
      (readChars (timed heap leftover) (utf8 text).length)
      (utf8 text) (At k payload reply rest) := by
  intro w hw hsound
  have hxread : Triple Sound (At k payload reply (plain (utf8 text) ++ rest))
      (xread .text (utf8 text).length) _ (At k payload reply rest) := xread_inStep rfl nofun nofun
  obtain ⟨hread, hafter⟩ := hxread w hw hsound
  refine ⟨?_, hafter⟩
  change cString 0 ((xread .text (utf8 text).length w).1.2 ++ (List.range ((utf8 text).length -
    (xread .text (utf8 text).length w).1.2.length)).map (heap w.inFlight)) = _
  rw [hread, Nat.sub_self, range_zero, map_nil, append_nil]
  exact cString_eq_self htext.nulFree

/-- The read of a length that was sent, and of as many octets. -/
theorem readString_inStep {text : String} {after : List Sent} (htext : Text k text)
    (hsuffix : .string text :: after <:+ reply) :
    Triple Sound (At k payload reply (encodeAll k payload (.string text :: after)))
      (readString k (timed heap leftover))
      (utf8 text) (At k payload reply (encodeAll k payload after)) := by
  have hplace : (encodeAll k payload (.string text :: after)).length ∈ lengthFields k payload reply :=
    length_mem_lengthFields hsuffix
  have hsplit : encodeAll k payload (.string text :: after) =
      plain (bytes k (utf8 text).length) ++ (plain (utf8 text) ++ encodeAll k payload after) := by
    rw [← append_assoc, ← plain_append]
    rfl
  rw [hsplit] at hplace ⊢
  have hlength : Triple Sound (At k payload reply _) (readExactOr (timed heap leftover) .length k 0) _ _ :=
    readExactOr_inStep 0 htext.fits nofun fun _ => hplace
  exact hlength.bind readChars_records (readChars_inStep htext)

theorem received_inStep {n : Nat} (hn : n ≤ 4) (d : Descriptor)
    (hw : At k payload reply (passed d (bytes 4 (payload d).toNat) ++ rest) w)
    (hsound : Sound (received n schedule w).2) :
    (received n schedule w).1 = some d ∧ At k payload reply rest (received n schedule w).2 := by
  have hfour : (w.inFlight.take n).length = 4 := by
    by_contra hless
    cases (sound_snoc.mp hsound).2 (decide_eq_false hless)
  obtain rfl : n = 4 := hn.antisymm (hfour ▸ length_take_le n w.inFlight)
  have hreceive : receive 4 w.inFlight = (some d, rest) := by
    rw [hw.1]
    exact receive_passed (length_bytes 4 _) (by simp [bytes]) d rest
  refine ⟨congrArg Prod.fst hreceive, congrArg Prod.snd hreceive, lengthsKept_snoc hw.2 fun h => ?_⟩
  cases h

theorem recvFd_inStep (d : Descriptor) :
    Triple Sound (At k payload reply (passed d (bytes 4 (payload d).toNat) ++ rest)) (recvFd leftover)
      (some d) (At k payload reply rest) := by
  intro w hw hsound
  unfold recvFd at hsound ⊢
  split at hsound
  · exact received_inStep le_rfl d hw hsound
  · exact received_inStep (Nat.min_le_right _ 4) d hw hsound
  · cases (sound_snoc.mp hsound).2 rfl
  · cases (sound_snoc.mp hsound).2 rfl

/-! ## Whole replies -/

theorem readModulesLoop_inStep {modules : List Module} (hnames : ∀ m ∈ modules, Text k m.name)
    (hsuffix : moduleReply modules <:+ reply) :
    Triple Sound (At k payload reply (encodeAll k payload (moduleReply modules)))
      (readModulesLoop k (timed heap leftover) modules.length) (moduleEntries modules)
        (At k payload reply []) := by
  induction modules with
  | nil => exact .pure _
  | cons m modules ih =>
    obtain ⟨hname, hnames⟩ := forall_mem_cons.mp hnames
    change .string m.name :: .fd (.memfd m.libFd) :: moduleReply modules <:+ reply at hsuffix
    have hnext : moduleReply modules <:+ reply :=
      ((suffix_cons _ _).trans (suffix_cons _ _)).trans hsuffix
    exact (readString_inStep hname hsuffix).bind
      (fun _ => recvFd_records.bind fun _ => (readModulesLoop_records _).bind fun _ => .pure _)
      ((recvFd_inStep _).bind (fun _ => (readModulesLoop_records _).bind fun _ => .pure _)
        ((ih hnames hnext).map _))

theorem getZnPlanLoop_inStep {plan : List ZnPlanModule} (hpaths : ∀ m ∈ plan, Text k m.libPath)
    {firstFd : Nat} (hsuffix : sendPlan firstFd plan <:+ reply) :
    Triple Sound (At k payload reply (encodeAll k payload (sendPlan firstFd plan)))
      (getZnPlanLoop k (timed heap leftover) plan.length) (planEntries firstFd plan)
        (At k payload reply []) := by
  induction plan generalizing firstFd with
  | nil => exact .pure _
  | cons m plan ih =>
    obtain ⟨hpath, hpaths⟩ := forall_mem_cons.mp hpaths
    have hnext : sendPlan (firstFd + 1) plan <:+ reply :=
      ((suffix_cons _ _).trans ((suffix_cons _ _).trans (suffix_cons _ _))).trans hsuffix
    have hround : Records Sound (getZnPlanLoop k (timed heap leftover) plan.length) := getZnPlanLoop_records _
    have hentry : planEntries firstFd (m :: plan) = ⟨utf8 m.libPath,
        (if m.companion then 1 else 0 : UInt8) ≠ 0, .memfd firstFd⟩ :: planEntries (firstFd + 1) plan := by
      rw [planEntries]
      cases m.companion <;> rfl
    rw [hentry]
    exact (readString_inStep hpath hsuffix).bind
      (fun _ => readU8_records.bind fun _ => recvFd_records.bind (planEntry_records hround _ _))
      ((readU8_inStep _).bind (fun _ => recvFd_records.bind (planEntry_records hround _ _))
        ((recvFd_inStep _).bind (planEntry_records hround _ _) ((ih hpaths hnext).map _)))

variable (heap leftover)

/-- A count is read as it was sent or taken for 0. -/
theorem readCount_cases {n : Nat} (hn : n < 256 ^ k)
    (hw : At k payload reply (plain (bytes k n) ++ rest) w) :
    let read := readUsize k (timed heap leftover) .count w
    read.1 = 0 ∧ LengthsKept k payload reply read.2 ∨ read.1 = n ∧ At k payload reply rest read.2 := by
  intro read
  have hkept : LengthsKept k payload reply read.2 := lengthsKept_snoc hw.2 nofun
  by_cases hret : (xread .count k w).1.1 = some k
  · right
    obtain ⟨hbuf, hrest⟩ := xread_complete (length_bytes k n) hw.1 hret
    refine ⟨?_, hrest, hkept⟩
    change (if (xread .count k w).1.1 = some k then number (xread .count k w).1.2 else 0) = n
    rw [if_pos hret, hbuf, number_bytes hn]
  · left
    exact ⟨if_neg hret, hkept⟩

/-- A reply is read whole or, if the count was not, not at all. -/
theorem reply_inStep {ε : Type} {loop : Nat → Client (List ε)} (hzero : loop 0 = pure []) {n : Nat}
    (hn : n < 256 ^ k) {sent : List ε}
    (hloop : Triple Sound (At k payload reply rest) (loop n) sent (At k payload reply []))
    (hw : At k payload reply (plain (bytes k n) ++ rest) w) :
    let run := (readUsize k (timed heap leftover) .count >>= loop) w
    Sound run.2 → (∀ e ∈ run.1, e ∈ sent) ∧ LengthsKept k payload reply run.2 := by
  intro run hsound
  have hrun {m : Nat} (hm : (readUsize k (timed heap leftover) .count w).1 = m) :
      run = loop m (readUsize k (timed heap leftover) .count w).2 :=
    congrArg (loop · (readUsize k (timed heap leftover) .count w).2) hm
  rcases readCount_cases heap leftover hn hw with ⟨hlen, hkept⟩ | ⟨hlen, hafter⟩
  · rw [hrun hlen, hzero]
    exact ⟨fun _ he => absurd he not_mem_nil, hkept⟩
  · rw [hrun hlen] at hsound ⊢
    obtain ⟨hsent, hend⟩ := hloop _ hafter hsound
    exact ⟨fun _ he => hsent ▸ he, hend.2⟩

end

theorem readModules_inStep {modules : List Module} (hlength : modules.length < 256 ^ k)
    (hnames : ∀ m ∈ modules, Text k m.name) :
    let reply : List Sent := .usize modules.length :: moduleReply modules
    let run := readModules k (timed heap leftover) (.of schedule (encodeAll k payload reply))
    Sound run.2 → InStep k payload reply (moduleEntries modules) (run.1.filter (·.2.isSome)) run.2 := by
  intro reply run hsound
  have hloop : Triple Sound (At k payload reply (encodeAll k payload (moduleReply modules)))
      (readModulesLoop k (timed heap leftover) modules.length) (moduleEntries modules)
        (At k payload reply []) :=
    readModulesLoop_inStep hnames (suffix_cons _ _)
  obtain ⟨hgot, hkept⟩ := reply_inStep heap leftover rfl hlength hloop (at_of schedule _) hsound
  exact ⟨fun e he => hgot e (mem_filter.mp he).1, hkept⟩

theorem getZnPlan_inStep {plan : List ZnPlanModule} (hlength : plan.length < 256 ^ k)
    (hpaths : ∀ m ∈ plan, Text k m.libPath) (firstFd : Nat) :
    let reply : List Sent := .usize plan.length :: sendPlan firstFd plan
    let run := getZnPlan k (timed heap leftover) (.of schedule (encodeAll k payload reply))
    Sound run.2 → InStep k payload reply (planEntries firstFd plan) run.1 run.2 := by
  intro reply run hsound
  have hloop : Triple Sound (At k payload reply (encodeAll k payload (sendPlan firstFd plan)))
      (getZnPlanLoop k (timed heap leftover) plan.length) (planEntries firstFd plan)
        (At k payload reply []) :=
    getZnPlanLoop_inStep hpaths (suffix_cons _ _)
  obtain ⟨hgot, hkept⟩ := reply_inStep heap leftover rfl hlength hloop (at_of schedule _) hsound
  exact ⟨hgot, hkept⟩

/-! ## Failures of other reads -/

theorem failedOnly_of_all (hfield : field ∈ fields)
    (h : (w.calls.all fun c => c.complete || c.field = field) = true) : FailedOnly fields w := by
  intro c hc hfailed
  have hall := all_eq_true.mp h c hc
  rw [hfailed, Bool.false_or, decide_eq_true_eq] at hall
  exact hall ▸ hfield

def daemonWith (name : String) : Daemon := { freshDaemon with modules := [⟨name, 4, none⟩] }

/-- The runs in which a client gets out of step have buffers of zeros, and 9 for a descriptor that
is left over. -/
def runModules (k : Nat) (d : Daemon) (schedule : List Outcome) :
    List (List UInt8 × Option Descriptor) × Socket :=
  readModules k (timed (fun _ _ => 0) fun _ => some (.memfd 9))
    (.of schedule (encodeAll k (fun _ => 0) (handleReadModules (quietOs none) d).1))

/-- As `runModules`, for the plan of `oneLibraryOs`. -/
def runPlan (k : Nat) (schedule : List Outcome) : List ZnPlanEntry × Socket :=
  getZnPlan k (timed (fun _ _ => 0) fun _ => some (.memfd 9))
    (.of schedule (encodeAll k (fun _ => 0)
      (handleGetZnPlan (oneLibraryOs none) freshDaemon "zygote64" "").1))

/-- An entry that was not sent, got after only one kind of read failed. -/
theorem not_inStepDespite_of_modules (hfield : field ∈ fields)
    (hk : 1 < 256 ^ k) (name : String) (hname : Text k name) (schedule : List Outcome)
    (hfailed : ((runModules k (daemonWith name) schedule).2.calls.all
      fun c => c.complete || c.field = field) = true)
    (e : List UInt8 × Option Descriptor) (hgot : (runModules k (daemonWith name) schedule).1 = [e])
    (hfd : e.2.isSome) (hsent : e ≠ (utf8 name, some (.memfd 4))) : ¬ InStepDespite k fields := by
  intro h
  have hscan : scanZnModulesForTarget (quietOs none).toScanOs "" "" = [] := rfl
  obtain ⟨hmodules, -⟩ := h (fun _ _ => 0) (fun _ => some (.memfd 9)) (fun _ => 0) (quietOs none)
    (daemonWith name) "" "" schedule hk (forall_mem_singleton.mpr hname)
    (by rw [hscan]; exact Nat.zero_lt_of_lt hk) (by rw [hscan]; exact fun _ hm => absurd hm not_mem_nil)
  have hmem : e ∈ (runModules k (daemonWith name) schedule).1.filter (·.2.isSome) := by
    rw [hgot]
    exact mem_filter.mpr ⟨mem_singleton_self e, hfd⟩
  have hentry := (hmodules (failedOnly_of_all hfield hfailed)).entries e hmem
  exact hsent (mem_singleton.mp hentry)

/-- The flag of the only library, lost. -/
theorem not_inStepDespite_of_plan (hfield : field ∈ fields)
    (hk : 1 < 256 ^ k) (hpath : Text k "/data/adb/modules/nya/lib/nya.so") (schedule : List Outcome)
    (hfailed : ((runPlan k schedule).2.calls.all fun c => c.complete || c.field = field) = true)
    (hgot : (runPlan k schedule).1 = [⟨utf8 "/data/adb/modules/nya/lib/nya.so", false, .memfd 0⟩]) :
    ¬ InStepDespite k fields := by
  intro h
  have hscan : scanZnModulesForTarget (oneLibraryOs none).toScanOs "zygote64" "" =
      [⟨"/data/adb/modules/nya/lib/nya.so", true, ⟨[0x7F, 0x45, 0x4C, 0x46, 2], []⟩⟩] := rfl
  obtain ⟨-, hplan⟩ := h (fun _ _ => 0) (fun _ => some (.memfd 9)) (fun _ => 0) (oneLibraryOs none)
    freshDaemon "zygote64" "" schedule (Nat.zero_lt_of_lt hk) (fun _ hm => absurd hm not_mem_nil)
    (by rw [hscan]; exact hk) (by rw [hscan]; exact forall_mem_singleton.mpr hpath)
  have hentries := (hplan (failedOnly_of_all hfield hfailed)).entries
  change ∀ e ∈ (runPlan k schedule).1, _ at hentries
  rw [hscan, hgot] at hentries
  cases mem_singleton.mp (hentries _ (mem_singleton_self _))

end TimedReadsLemmas

open TimedReadsLemmas

theorem inStepDespite_count {k : Nat} {fields : Set Field} (hfields : fields ⊆ {.count}) :
    InStepDespite k fields := by
  intro heap leftover payload os d processName processPath schedule scanned hmodules hnames hplan hpaths
    modules plan modulesRun planRun
  have hsound {w : Socket} (hfailed : FailedOnly fields w) : Sound w :=
    fun c hc hcomplete => hfields (hfailed c hc hcomplete)
  exact ⟨fun hfailed => readModules_inStep hmodules hnames (hsound hfailed),
    fun hfailed => getZnPlan_inStep hplan hpaths d.memfds.length (hsound hfailed)⟩

/-- A client stays in step with the daemon if only the read of the count may fail. For each other
field there is a reply with which it does not. -/
theorem in_step_iff {k : Nat} (hk : k = 4 ∨ k = 8) (fields : Set Field) :
    InStepDespite k fields ↔ fields ⊆ {.count} := by
  refine ⟨fun h field hfield => ?_, inStepDespite_count⟩
  by_contra hcount
  revert h
  cases field with
  | count => exact absurd rfl hcount
  | length =>
    -- all but one octet of the length arrive, and `recv_fd` finds the descriptor after the rest
    rcases hk with rfl | rfl
    · exact not_inStepDespite_of_modules hfield (by decide) "n" ⟨by decide +kernel, by decide +kernel⟩
        [.arrived 3, .arrived 2, .timedOut] (by decide +kernel) ([], some (.memfd 4))
        (by decide +kernel) rfl (by decide +kernel)
    · exact not_inStepDespite_of_modules hfield (by decide) "n" ⟨by decide +kernel, by decide +kernel⟩
        [.arrived 7, .arrived 6, .timedOut] (by decide +kernel) ([], some (.memfd 4))
        (by decide +kernel) rfl (by decide +kernel)
  | text =>
    -- the name is short enough for `recv_fd` to find the descriptor after it
    rcases hk with rfl | rfl <;>
      exact not_inStepDespite_of_modules hfield (by decide) "nya" ⟨by decide +kernel, by decide +kernel⟩
        [.arrived 7, .arrived 7, .timedOut] (by decide +kernel) ([], some (.memfd 4))
        (by decide +kernel) rfl (by decide +kernel)
  | companion =>
    rcases hk with rfl | rfl <;>
      exact not_inStepDespite_of_plan hfield (by decide) ⟨by decide +kernel, by decide +kernel⟩
        [.arrived 7, .arrived 7, .arrived 31, .timedOut] (by decide +kernel) (by decide +kernel)
  | descriptor =>
    rcases hk with rfl | rfl <;>
      exact not_inStepDespite_of_modules hfield (by decide) "nya" ⟨by decide +kernel, by decide +kernel⟩
        [.arrived 7, .arrived 7, .arrived 2, .timedOut] (by decide +kernel)
        (utf8 "nya", some (.memfd 9)) (by decide +kernel) rfl (by decide +kernel)

/-- Octets that come one after the other, with a signal in between. -/
theorem in_step_iff_pieces :
    InStepDespite 8 {.count} ∧ ¬ InStepDespite 8 {.companion} ∧
    (runModules 8 (daemonWith "nya") [.arrived 2, .interrupted, .arrived 0, .arrived 9, .arrived 7]).1 =
      [(utf8 "nya", some (.memfd 4))] := by
  refine ⟨(in_step_iff (.inr rfl) _).mpr subset_rfl, fun h => ?_, by decide +kernel⟩
  cases (in_step_iff (.inr rfl) _).mp h rfl

/-- If the flag of a library is late, the descriptor comes with no flag. If the length of a name is
late, `recv_fd` takes the first half of it, and the next length is the other half and the name. -/
theorem reply_shifted :
    let modules : List Module := [⟨"nya", 4, none⟩, ⟨"zygisk", 5, none⟩]
    let reply := (handleReadModules (quietOs none) { freshDaemon with modules }).1
    let late := (runModules 8 { freshDaemon with modules } [.arrived 7, .timedOut]).2
    (runPlan 8 [.arrived 7, .arrived 7, .arrived 31, .timedOut]).1 =
      [⟨utf8 "/data/adb/modules/nya/lib/nya.so", false, .memfd 0⟩] ∧
    planEntries 0 (scanZnModulesForTarget (oneLibraryOs none).toScanOs "zygote64" "") =
      [⟨utf8 "/data/adb/modules/nya/lib/nya.so", true, .memfd 0⟩] ∧
    lengthFields 8 (fun _ => 0) reply = [33, 18] ∧ ⟨.length, 29, true⟩ ∈ late.calls := by
  decide +kernel

end NyaZygisk.TimedReads
