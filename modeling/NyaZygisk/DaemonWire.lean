import NyaZygisk.ZnCompanions
import NyaZygisk.Lib.CStrings
import NyaZygisk.Lib.Octets

/-!
# What goes over the daemon's socket

The two ends of a connection: what the handlers of `zygiskd.rs` write, as octets and descriptors,
and how `daemon.cpp` reads it with `socket_utils.cpp`; and in the other direction the requests. Both
are built for the same word size, of `k` bytes.
-/

namespace NyaZygisk.Wire

open CStrings List LittleEndian Octets

/-! ## Writing -/

def utf8 (s : String) : List UInt8 := s.toUTF8.data.toList

/-- `String::from_utf8`. -/
def fromUtf8 (bs : List UInt8) : Option String := String.fromUTF8? ⟨bs.toArray⟩

section

variable (k : Nat)

/-- `write_string`, the same in both languages. -/
def writeString (s : String) : List UInt8 := bytes k (utf8 s).length ++ utf8 s

/-- What the daemon writes. A descriptor goes with four octets, which mean nothing. -/
def encode (payload : Descriptor → UInt32) : Sent → Stream Descriptor
  | .u8 value => plain [value]
  | .u32 value => plain (bytes 4 value.toNat)
  | .usize value => plain (bytes k value)
  | .string value => plain (writeString k value)
  | .fd descriptor => passed descriptor (bytes 4 (payload descriptor).toNat)
  | .handedTo _ => []

def encodeAll (payload : Descriptor → UInt32) (reply : List Sent) : Stream Descriptor :=
  reply.flatMap (encode k payload)

/-! ## The client -/

/-- What the client reads for. -/
inductive Field
  | count | length | text | companion | descriptor
deriving DecidableEq

/-- The connection that the functions of `socket_utils.cpp` read from. -/
structure Connection (m : Type → Type) where
  /-- What is in a new buffer. -/
  heap : m (Nat → UInt8)
  /-- `xread`: what it returns, with `none` for -1, and what is in the buffer. -/
  xread : Field → Nat → m (Option Nat × List UInt8)
  /-- `recv_fd`, with `none` for -1. -/
  recvFd : m (Option Descriptor)

structure ZnPlanEntry where
  libPath : List UInt8
  companion : Bool
  memfd : Descriptor
deriving DecidableEq

section

variable {m : Type → Type} [Monad m] (c : Connection m)

/-- `read_exact_or`, for a number of `size` bytes. -/
def readExactOr (field : Field) (size fail : Nat) : m Nat := do
  let (ret, res) ← c.xread field size
  return if ret = some size then number res else fail

def readU8 : m UInt8 := do
  return UInt8.ofNat (← readExactOr c .companion 1 0)

def readUsize (field : Field) : m Nat := readExactOr c field k 0

/-- A new buffer and what `xread` leaves in it. The part that nothing was read into has what was
there, and the string ends with the first NUL. -/
def readChars (len : Nat) : m (List UInt8) := do
  let heap ← c.heap
  let (_, bs) ← c.xread .text len
  return cString 0 (bs ++ (List.range (len - bs.length)).map heap)

def readString : m (List UInt8) := do
  let len ← readUsize k c .length
  readChars c len

def readModulesLoop : Nat → m (List (List UInt8 × Option Descriptor))
  | 0 => return []
  | n + 1 => do
    let name ← readString k c
    let moduleFd ← c.recvFd
    let modules ← readModulesLoop n
    return (name, moduleFd) :: modules

/-- `ReadModules`, after its request. -/
def readModules : m (List (List UInt8 × Option Descriptor)) := do
  let len ← readUsize k c .count
  readModulesLoop k c len

def getZnPlanLoop : Nat → m (List ZnPlanEntry)
  | 0 => return []
  | n + 1 => do
    let libPath ← readString k c
    let companion ← readU8 c
    let memfd ← c.recvFd
    let entries ← getZnPlanLoop n
    match memfd with
    -- of the values that are no descriptors, the source leaves out the negative ones only
    | none => return entries
    | some memfd => return ⟨libPath, companion ≠ 0, memfd⟩ :: entries

/-- `GetZnPlan`, after its request. -/
def getZnPlan : m (List ZnPlanEntry) := do
  let count ← readUsize k c .count
  getZnPlanLoop k c count

end

/-- A connection on which every call gets what it asks for, until the stream ends. -/
def patient (heap : Stream Descriptor → Nat → UInt8) : Connection (StateM (Stream Descriptor)) where
  heap s := (heap s, s)
  xread _ n s := ((some (readUpTo n s).1.length, (readUpTo n s).1), (readUpTo n s).2)
  recvFd := receive 4

end

/-! ## Requests -/

inductive SocketAction
  | pingHeartbeat | getProcessFlags | cacheMountNamespace | updateMountNamespace | readModules
  | requestCompanionSocket | getModuleDir | zygoteRestart | systemServerStarted | getSharedMemoryFd
  | requestZnCompanionSocket | getZnPlan | reportZnModule | refreshModules
deriving DecidableEq

/-- The values of `SocketAction` in `daemon.hpp`. -/
def SocketAction.code : SocketAction → UInt8
  | .pingHeartbeat => 0
  | .getProcessFlags => 1
  | .cacheMountNamespace => 2
  | .updateMountNamespace => 3
  | .readModules => 4
  | .requestCompanionSocket => 5
  | .getModuleDir => 6
  | .zygoteRestart => 7
  | .systemServerStarted => 8
  | .getSharedMemoryFd => 9
  | .requestZnCompanionSocket => 10
  | .getZnPlan => 11
  | .reportZnModule => 12
  | .refreshModules => 13

/-- `DaemonSocketAction::try_from`, in the order of `constants.rs`. -/
def SocketAction.tryFrom (code : UInt8) : Option SocketAction :=
  [.pingHeartbeat, .getProcessFlags, .cacheMountNamespace, .updateMountNamespace, .readModules,
    .requestCompanionSocket, .getModuleDir, .zygoteRestart, .systemServerStarted, .getSharedMemoryFd,
    .requestZnCompanionSocket, .getZnPlan, .reportZnModule, .refreshModules][code.toNat]?

section

variable (k : Nat)

/-- What `daemon.cpp` writes for a request. -/
def writeRequest : Request → List UInt8
  | .pingHeartbeat => [SocketAction.pingHeartbeat.code]
  | .getProcessFlags uid => SocketAction.getProcessFlags.code :: bytes 4 uid.toNat
  | .cacheMountNamespace pid => SocketAction.cacheMountNamespace.code :: bytes 4 pid.toNat
  | .updateMountNamespace namespaceType => [SocketAction.updateMountNamespace.code, namespaceType]
  | .readModules => [SocketAction.readModules.code]
  | .requestCompanionSocket index => SocketAction.requestCompanionSocket.code :: bytes k index
  | .getModuleDir index => SocketAction.getModuleDir.code :: bytes k index
  | .zygoteRestart => [SocketAction.zygoteRestart.code]
  | .systemServerStarted => [SocketAction.systemServerStarted.code]
  | .getSharedMemoryFd => [SocketAction.getSharedMemoryFd.code]
  | .requestZnCompanionSocket libPath =>
    SocketAction.requestZnCompanionSocket.code :: writeString k libPath
  | .getZnPlan processName processPath =>
    SocketAction.getZnPlan.code :: (writeString k processName ++ writeString k processPath)
  | .reportZnModule libPath injected =>
    SocketAction.reportZnModule.code :: (writeString k libPath ++ [injected])
  | .refreshModules => [SocketAction.refreshModules.code]
  | .malformed => []

def readExact (n : Nat) (bs : List UInt8) : Option (List UInt8 × List UInt8) :=
  if n ≤ bs.length then some (bs.take n, bs.drop n) else none

/-- The daemon's `read_u8`, `read_u32` and `read_usize`, by their size. -/
def readNumber (n : Nat) (bs : List UInt8) : Option (Nat × List UInt8) :=
  (readExact n bs).map fun (number, rest) => (LittleEndian.number number, rest)

/-- The daemon's `read_string`. -/
def readText (bs : List UInt8) : Option (String × List UInt8) := do
  let (len, bs) ← readNumber k bs
  let (text, bs) ← readExact len bs
  let text ← fromUtf8 text
  return (text, bs)

/-- The payload of a request, as its handler reads it. -/
def readPayload (bs : List UInt8) : SocketAction → Option (Request × List UInt8)
  | .pingHeartbeat => some (.pingHeartbeat, bs)
  | .getProcessFlags => do
    let (uid, bs) ← readNumber 4 bs
    return (.getProcessFlags (UInt32.ofNat uid), bs)
  | .cacheMountNamespace => do
    let (pid, bs) ← readNumber 4 bs
    return (.cacheMountNamespace (UInt32.ofNat pid), bs)
  | .updateMountNamespace => do
    let (namespaceType, bs) ← readNumber 1 bs
    return (.updateMountNamespace (UInt8.ofNat namespaceType), bs)
  | .readModules => some (.readModules, bs)
  | .requestCompanionSocket => do
    let (index, bs) ← readNumber k bs
    return (.requestCompanionSocket index, bs)
  | .getModuleDir => do
    let (index, bs) ← readNumber k bs
    return (.getModuleDir index, bs)
  | .zygoteRestart => some (.zygoteRestart, bs)
  | .systemServerStarted => some (.systemServerStarted, bs)
  | .getSharedMemoryFd => some (.getSharedMemoryFd, bs)
  | .requestZnCompanionSocket => do
    let (libPath, bs) ← readText k bs
    return (.requestZnCompanionSocket libPath, bs)
  | .getZnPlan => do
    let (processName, bs) ← readText k bs
    let (processPath, bs) ← readText k bs
    return (.getZnPlan processName processPath, bs)
  | .reportZnModule => do
    let (libPath, bs) ← readText k bs
    let (injected, bs) ← readNumber 1 bs
    return (.reportZnModule libPath (UInt8.ofNat injected), bs)
  | .refreshModules => some (.refreshModules, bs)

/-- `handle_connection` up to the handlers; `none` where it or a handler fails to read. -/
def readRequest (bs : List UInt8) : Option (Request × List UInt8) := do
  let (code, bs) ← readNumber 1 bs
  let action ← SocketAction.tryFrom (UInt8.ofNat code)
  readPayload k bs action

/-! ## Specification -/

/-- A text without NUL, of a length that a `usize` can hold. -/
structure Text (s : String) : Prop where
  nulFree : 0 ∉ utf8 s
  fits : (utf8 s).length < 256 ^ k

/-- Numbers and lengths are those of a `usize`. -/
def Sendable : Request → Prop
  | .requestCompanionSocket index | .getModuleDir index => index < 256 ^ k
  | .requestZnCompanionSocket libPath | .reportZnModule libPath _ => (utf8 libPath).length < 256 ^ k
  | .getZnPlan processName processPath =>
    (utf8 processName).length < 256 ^ k ∧ (utf8 processPath).length < 256 ^ k
  | .malformed => False
  | _ => True

def moduleEntries (modules : List Module) : List (List UInt8 × Option Descriptor) :=
  modules.map fun m => (utf8 m.name, some (.memfd m.libFd))

/-- A plan as the client has it, with memfds numbered from `firstFd`. -/
def planEntries (firstFd : Nat) : List ZnPlanModule → List ZnPlanEntry
  | [] => []
  | m :: rest => ⟨utf8 m.libPath, m.companion, .memfd firstFd⟩ :: planEntries (firstFd + 1) rest

end

namespace WireLemmas

variable {k : Nat} {heap : Stream Descriptor → Nat → UInt8} {payload : Descriptor → UInt32}
  {s rest : Stream Descriptor}

theorem plain_append (a b : List UInt8) : (plain (a ++ b) : Stream Descriptor) = plain a ++ plain b :=
  map_append

theorem bind_apply {σ α β : Type} (f : StateM σ α) (g : α → StateM σ β) (s : σ) :
    (f >>= g) s = g (f s).1 (f s).2 := rfl

/-! ## Whole streams -/

theorem readUsize_eq (field : Field) (s : Stream Descriptor) :
    readUsize k (patient heap) field s =
      (if (readUpTo k s).1.length = k then number (readUpTo k s).1 else 0, (readUpTo k s).2) := by
  simp only [← Option.some_inj (b := k)]
  rfl

theorem readUsize_plain {n : Nat} (hn : n < 256 ^ k) (field : Field) (rest : Stream Descriptor) :
    readUsize k (patient heap) field (plain (bytes k n) ++ rest) = (n, rest) := by
  rw [readUsize_eq, readUpTo_plain (length_bytes k n), if_pos (length_bytes k n), number_bytes hn]

theorem readString_eq (s : Stream Descriptor) :
    readString k (patient heap) s =
      let (len, s) := readUsize k (patient heap) .length s
      let (bs, rest) := readUpTo len s
      (cString 0 (bs ++ (List.range (len - bs.length)).map (heap s)), rest) :=
  rfl

theorem readString_plain {text : String} (h : Text k text) (rest : Stream Descriptor) :
    readString k (patient heap) (plain (writeString k text) ++ rest) = (utf8 text, rest) := by
  rw [readString_eq, writeString, plain_append, append_assoc, readUsize_plain h.fits]
  simp only [readUpTo_plain rfl, Nat.sub_self, range_zero, map_nil, append_nil]
  rw [cString_eq_self h.nulFree]

theorem readU8_eq {value : UInt8} {after : Stream Descriptor} (h : readUpTo 1 s = ([value], after)) :
    readU8 (patient heap) s = (value, after) := by
  change (UInt8.ofNat (if some (readUpTo 1 s).1.length = some 1 then number (readUpTo 1 s).1 else 0),
    (readUpTo 1 s).2) = _
  rw [h]
  exact Prod.ext UInt8.ofNat_toNat rfl

theorem recvFd_patient : (patient heap).recvFd = receive 4 := rfl

theorem recvFd_passed (d : Descriptor) (rest : Stream Descriptor) :
    receive 4 (passed d (bytes 4 (payload d).toNat) ++ rest) = (some d, rest) :=
  receive_passed (length_bytes 4 _) (by simp [bytes]) d rest

/-! ## Streams that end early -/

theorem readUsize_of_cut (heap : Stream Descriptor → Nat → UInt8) {n : Nat} (hn : n < 256 ^ k)
    (h : s <+: plain (bytes k n) ++ rest) (field : Field) :
    let r := readUsize k (patient heap) field s
    r.2 <+: rest ∧ (r.1 = n ∨ r.1 = 0 ∧ r.2 = []) := by
  simp only [readUsize_eq]
  refine ⟨drop_of_cut h (by simp), ?_⟩
  rcases Nat.lt_or_ge s.length k with hlt | hge
  · have hshort : (readUpTo k s).1.length ≠ k := by
      rw [readUpTo, length_map, length_take, Nat.min_eq_right hlt.le]
      exact hlt.ne
    exact .inr ⟨if_neg hshort, drop_eq_nil_of_le hlt.le⟩
  · left
    have hread := readUpTo_of_cut h (length_bytes k n) hge
    simp only [hread, length_bytes, if_true, number_bytes hn]

/-- A string after which something is left is the one that was sent. -/
theorem readString_of_cut (heap : Stream Descriptor → Nat → UInt8) {text : String}
    (htext : Text k text) (h : s <+: plain (writeString k text) ++ rest) :
    (readString k (patient heap) s).2 <+: rest ∧
      ((readString k (patient heap) s).2 ≠ [] → (readString k (patient heap) s).1 = utf8 text) := by
  rw [writeString, plain_append, append_assoc] at h
  obtain ⟨hchars, hlen⟩ := readUsize_of_cut heap htext.fits h .length
  rw [readString_eq]
  generalize readUsize k (patient heap) .length s = r at hchars hlen
  obtain ⟨len, s⟩ := r
  rcases hlen with hlen | ⟨hlen, hs⟩
  · cases hlen
    refine ⟨drop_of_cut hchars (length_plain _), fun hleft => ?_⟩
    have hread := readUpTo_of_cut hchars rfl (le_length_of_drop_ne_nil hleft)
    simp only [hread, Nat.sub_self, range_zero, map_nil, append_nil]
    exact cString_eq_self htext.nulFree
  · cases hlen
    cases hs
    refine ⟨?_, fun hleft => absurd rfl hleft⟩
    exact nil_prefix

theorem readU8_of_cut {value : UInt8} (h : s <+: plain [value] ++ rest) :
    (readU8 (patient heap) s).2 <+: rest ∧
      ((readU8 (patient heap) s).2 ≠ [] → (readU8 (patient heap) s).1 = value) := by
  refine ⟨drop_of_cut h rfl, fun hleft => ?_⟩
  exact congrArg Prod.fst (readU8_eq (Prod.ext (readUpTo_of_cut h rfl (le_length_of_drop_ne_nil hleft)) rfl))

/-- A descriptor that arrives is the one that was sent. -/
theorem recvFd_of_cut {d : Descriptor} (h : s <+: passed d (bytes 4 (payload d).toNat) ++ rest) :
    (receive 4 s).2 <+: rest ∧ ∀ e, (receive 4 s).1 = some e → e = d ∧ s ≠ [] :=
  ⟨drop_of_cut h (by simp), fun _ he =>
    ⟨receive_of_cut h (length_bytes 4 _) he, ne_nil_of_receive he⟩⟩

/-! ## Replies -/

theorem encodeAll_module (m : Module) (reply : List Sent) :
    encodeAll k payload (.string m.name :: .fd (.memfd m.libFd) :: reply) =
      plain (writeString k m.name) ++
        (passed (.memfd m.libFd) (bytes 4 (payload (.memfd m.libFd)).toNat) ++ encodeAll k payload reply) :=
  rfl

theorem encodeAll_plan (path : String) (companion : UInt8) (fd : Nat) (reply : List Sent) :
    encodeAll k payload (.string path :: .u8 companion :: .fd (.memfd fd) :: reply) =
      plain (writeString k path) ++ (plain [companion] ++
        (passed (.memfd fd) (bytes 4 (payload (.memfd fd)).toNat) ++ encodeAll k payload reply)) :=
  rfl

/-- What `handle_read_modules` writes after the number of modules. -/
def moduleReply (modules : List Module) : List Sent :=
  modules.flatMap fun m => [.string m.name, .fd (.memfd m.libFd)]

variable {modules : List Module} {plan : List ZnPlanModule}

theorem readModulesLoop_encode (hnames : ∀ m ∈ modules, Text k m.name)
    (more : Stream Descriptor) :
    readModulesLoop k (patient heap) modules.length (encodeAll k payload (moduleReply modules) ++ more) =
      (moduleEntries modules, more) := by
  induction modules with
  | nil => rfl
  | cons m modules ih =>
    obtain ⟨hname, hnames⟩ := forall_mem_cons.mp hnames
    change readModulesLoop k (patient heap) (modules.length + 1)
      (encodeAll k payload (.string m.name :: .fd (.memfd m.libFd) :: moduleReply modules) ++ more) = _
    rw [encodeAll_module, readModulesLoop]
    simp only [append_assoc, bind_apply, readString_plain hname, recvFd_patient, recvFd_passed, ih hnames]
    rfl

/-- Of a reply that ends early, the entries with a descriptor are those that were sent. -/
theorem readModulesLoop_of_cut
    (hnames : ∀ m ∈ modules, Text k m.name)
    (h : s <+: encodeAll k payload (moduleReply modules)) {i : Nat} {name : List UInt8} {d : Descriptor}
    (hi : (readModulesLoop k (patient heap) modules.length s).1[i]? = some (name, some d)) :
    (moduleEntries modules)[i]? = some (name, some d) := by
  induction modules generalizing s i with
  | nil => cases hi
  | cons m modules ih =>
    obtain ⟨hname, hnames⟩ := forall_mem_cons.mp hnames
    change s <+: encodeAll k payload (.string m.name :: .fd (.memfd m.libFd) :: moduleReply modules) at h
    rw [encodeAll_module] at h
    obtain ⟨hafter, hstring⟩ := readString_of_cut heap hname h
    obtain ⟨hrest, hfd⟩ := recvFd_of_cut hafter
    cases i with
    | succ i => exact ih hnames hrest hi
    | zero =>
      obtain ⟨hn, hd⟩ : (readString k (patient heap) s).1 = name ∧
        (receive 4 (readString k (patient heap) s).2).1 = some d :=
        Prod.mk.inj (Option.some.inj hi)
      obtain ⟨rfl, hleft⟩ := hfd d hd
      rw [← hn, hstring hleft]
      rfl

theorem getZnPlanLoop_encode (hpaths : ∀ m ∈ plan, Text k m.libPath)
    (firstFd : Nat) (more : Stream Descriptor) :
    getZnPlanLoop k (patient heap) plan.length (encodeAll k payload (sendPlan firstFd plan) ++ more) =
      (planEntries firstFd plan, more) := by
  induction plan generalizing firstFd with
  | nil => rfl
  | cons m plan ih =>
    obtain ⟨hpath, hpaths⟩ := forall_mem_cons.mp hpaths
    rw [sendPlan, encodeAll_plan, length_cons, getZnPlanLoop]
    have hu8 (rest : Stream Descriptor) (value : UInt8) :
        readU8 (patient heap) (plain [value] ++ rest) = (value, rest) := readU8_eq rfl
    simp only [append_assoc, bind_apply, readString_plain hpath, hu8, recvFd_patient, recvFd_passed,
      ih hpaths]
    rw [planEntries]
    cases m.companion <;> rfl

theorem getZnPlanLoop_succ (n : Nat) (s : Stream Descriptor) :
    (getZnPlanLoop k (patient heap) (n + 1) s).1 =
      ((receive 4 (readU8 (patient heap) (readString k (patient heap) s).2).2).1.map fun d =>
        (⟨(readString k (patient heap) s).1,
        (readU8 (patient heap) (readString k (patient heap) s).2).1 ≠ 0, d⟩ : ZnPlanEntry)).toList ++
          (getZnPlanLoop k (patient heap) n
            (receive 4 (readU8 (patient heap) (readString k (patient heap) s).2).2).2).1 := by
  simp only [getZnPlanLoop, bind_apply, recvFd_patient]
  cases hfd : (receive 4 (readU8 (patient heap) (readString k (patient heap) s).2).2).1 with
  | none | some d => rfl

theorem getZnPlanLoop_of_cut (hpaths : ∀ m ∈ plan, Text k m.libPath)
    {firstFd : Nat} (h : s <+: encodeAll k payload (sendPlan firstFd plan)) {e : ZnPlanEntry}
    (he : e ∈ (getZnPlanLoop k (patient heap) plan.length s).1) : e ∈ planEntries firstFd plan := by
  induction plan generalizing s firstFd with
  | nil => cases he
  | cons m plan ih =>
    obtain ⟨hpath, hpaths⟩ := forall_mem_cons.mp hpaths
    rw [sendPlan, encodeAll_plan] at h
    obtain ⟨hafter, hstring⟩ := readString_of_cut heap hpath h
    obtain ⟨hafter', hcompanion⟩ := readU8_of_cut hafter
    obtain ⟨hrest, hfd⟩ := recvFd_of_cut hafter'
    rw [length_cons, getZnPlanLoop_succ, mem_append] at he
    rw [planEntries, mem_cons]
    rcases he with he | he
    · left
      obtain ⟨d, hd, rfl⟩ := Option.map_eq_some_iff.mp (Option.mem_toList.mp he)
      obtain ⟨rfl, hleft⟩ := hfd d hd
      -- there is something after the flag, so also after the path
      have hleft' : (readString k (patient heap) s).2 ≠ [] := by
        intro hnil
        exact hleft (by rw [hnil]; rfl)
      rw [hstring hleft', hcompanion hleft]
      cases m.companion <;> rfl
    · exact .inr (ih hpaths hrest he)

/-- A number that was not sent in full is taken for 0, so nothing follows it. -/
theorem readModules_of_cut (hlength : modules.length < 256 ^ k)
    (hnames : ∀ m ∈ modules, Text k m.name)
    (h : s <+: plain (bytes k modules.length) ++ encodeAll k payload (moduleReply modules)) {i : Nat}
    {name : List UInt8} {d : Descriptor} (hi : (readModules k (patient heap) s).1[i]? = some (name, some d)) :
    (moduleEntries modules)[i]? = some (name, some d) := by
  obtain ⟨hafter, hlen⟩ := readUsize_of_cut heap hlength h .count
  rw [readModules, bind_apply] at hi
  rcases hlen with hlen | ⟨hlen, -⟩
  · rw [hlen] at hi
    exact readModulesLoop_of_cut hnames hafter hi
  · rw [hlen] at hi
    cases hi

theorem getZnPlan_of_cut (hlength : plan.length < 256 ^ k)
    (hpaths : ∀ m ∈ plan, Text k m.libPath) {firstFd : Nat}
    (h : s <+: plain (bytes k plan.length) ++ encodeAll k payload (sendPlan firstFd plan))
    {e : ZnPlanEntry} (he : e ∈ (getZnPlan k (patient heap) s).1) : e ∈ planEntries firstFd plan := by
  obtain ⟨hafter, hlen⟩ := readUsize_of_cut heap hlength h .count
  rw [getZnPlan, bind_apply] at he
  rcases hlen with hlen | ⟨hlen, -⟩
  · rw [hlen] at he
    exact getZnPlanLoop_of_cut hpaths hafter he
  · rw [hlen] at he
    cases he

/-! ## Requests -/

theorem readExact_append {n : Nat} {bs : List UInt8} (hn : bs.length = n) (more : List UInt8) :
    readExact n (bs ++ more) = some (bs, more) := by
  rw [readExact, length_append, hn, if_pos (Nat.le_add_right n _), take_left' hn,
    drop_left' hn]

theorem readNumber_append {n v : Nat} (hv : v < 256 ^ n) (more : List UInt8) :
    readNumber n (bytes n v ++ more) = some (v, more) := by
  rw [readNumber, readExact_append (length_bytes n v)]
  simp only [Option.map_some, number_bytes hv]

theorem readNumber_cons (value : UInt8) (more : List UInt8) :
    readNumber 1 (value :: more) = some (value.toNat, more) := by
  have hbytes := readNumber_append (n := 1) value.toNat_lt more
  rwa [bytes, bytes, UInt8.ofNat_toNat] at hbytes

theorem fromUtf8_utf8 (text : String) : fromUtf8 (utf8 text) = some text := by
  rw [fromUtf8, utf8, Array.toArray_toList]
  exact dif_pos text.isValidUTF8

theorem readText_append {text : String} (h : (utf8 text).length < 256 ^ k) (more : List UInt8) :
    readText k (writeString k text ++ more) = some (text, more) := by
  rw [readText, writeString, append_assoc, readNumber_append h]
  simp only [Option.bind_eq_bind, Option.bind_some, readExact_append rfl, fromUtf8_utf8]
  rfl

theorem tryFrom_code (action : SocketAction) : SocketAction.tryFrom action.code = some action := by
  cases action <;> rfl

theorem readRequest_cons (action : SocketAction) (payload : List UInt8) :
    readRequest k (action.code :: payload) = readPayload k payload action := by
  rw [readRequest, readNumber_cons]
  simp only [Option.bind_eq_bind, Option.bind_some, UInt8.ofNat_toNat, tryFrom_code]

/-- Every request is read as it was written. -/
theorem readRequest_writeRequest {r : Request} (h : Sendable k r) (more : List UInt8) :
    readRequest k (writeRequest k r ++ more) = some (r, more) := by
  have hu32 (v : UInt32) : readNumber 4 (bytes 4 v.toNat ++ more) = some (v.toNat, more) :=
    readNumber_append v.toNat_lt more
  cases r with
  | malformed => exact absurd h id
  | getProcessFlags uid | cacheMountNamespace pid =>
    simp [writeRequest, readRequest_cons, readPayload, hu32]
  | updateMountNamespace namespaceType =>
    simp [writeRequest, readRequest_cons, readPayload, readNumber_cons]
  | requestCompanionSocket index | getModuleDir index =>
    simp [writeRequest, readRequest_cons, readPayload, readNumber_append h]
  | requestZnCompanionSocket libPath =>
    simp [writeRequest, readRequest_cons, readPayload, readText_append h]
  | getZnPlan processName processPath =>
    simp [writeRequest, readRequest_cons, readPayload, append_assoc, readText_append h.1,
      readText_append h.2]
  | reportZnModule libPath injected =>
    simp [writeRequest, readRequest_cons, readPayload, append_assoc, readText_append h,
      readNumber_cons]
  | _ => simp [writeRequest, readRequest_cons, readPayload]

end WireLemmas

open WireLemmas

/-- The client gets the modules and the plan that the daemon sends, each with its descriptor, and
leaves what follows. If the stream ends early, what it gets with a descriptor was sent, a module at
the same index. The daemon reads every request as the client writes it. -/
theorem daemon_wire_faithful {k : Nat} (heap : Stream Descriptor → Nat → UInt8)
    (payload : Descriptor → UInt32) (os : Os) (d : Daemon) (processName processPath : String)
    (hmodules : d.modules.length < 256 ^ k) (hnames : ∀ m ∈ d.modules, Text k m.name)
    (hplan : (scanZnModulesForTarget os.toScanOs processName processPath).length < 256 ^ k)
    (hpaths : ∀ m ∈ scanZnModulesForTarget os.toScanOs processName processPath, Text k m.libPath) :
    let modules := encodeAll k payload (handleReadModules os d).1
    let plan := encodeAll k payload (handleGetZnPlan os d processName processPath).1
    let sent := planEntries d.memfds.length (scanZnModulesForTarget os.toScanOs processName processPath)
    (∀ more, readModules k (patient heap) (modules ++ more) = (moduleEntries d.modules, more)) ∧
    (∀ s, s <+: modules → ∀ (i : Nat) name fd, (readModules k (patient heap) s).1[i]? = some (name, some fd) →
      (moduleEntries d.modules)[i]? = some (name, some fd)) ∧
    (∀ more, getZnPlan k (patient heap) (plan ++ more) = (sent, more)) ∧
    (∀ s, s <+: plan → ∀ e ∈ (getZnPlan k (patient heap) s).1, e ∈ sent) ∧
    ∀ r more, Sendable k r → readRequest k (writeRequest k r ++ more) = some (r, more) := by
  intro modules plan sent
  have hmodulesReply : modules =
      plain (bytes k d.modules.length) ++ encodeAll k payload (moduleReply d.modules) := rfl
  have hplanReply : plan = plain (bytes k
      (scanZnModulesForTarget os.toScanOs processName processPath).length) ++ encodeAll k payload
        (sendPlan d.memfds.length (scanZnModulesForTarget os.toScanOs processName processPath)) := rfl
  refine ⟨fun more => ?_, fun s hs i name fd hi => ?_, fun more => ?_, fun s hs e he => ?_,
    fun r more hr => readRequest_writeRequest hr more⟩
  · rw [hmodulesReply, append_assoc, readModules, bind_apply, readUsize_plain hmodules]
    exact readModulesLoop_encode hnames more
  · exact readModules_of_cut hmodules hnames (hmodulesReply ▸ hs) hi
  · rw [hplanReply, append_assoc, getZnPlan, bind_apply, readUsize_plain hplan]
    exact getZnPlanLoop_encode hpaths d.memfds.length more
  · exact getZnPlan_of_cut hplan hpaths (hplanReply ▸ hs) he

def oneModuleDaemon : Daemon := { freshDaemon with modules := [⟨"nya", 4, none⟩] }

theorem daemon_wire_faithful_nya :
    readModules 8 (patient fun _ _ => 0) (encodeAll 8 (fun _ => 0)
        (handleReadModules (oneLibraryOs (some 0)) oneModuleDaemon).1) =
      ([(utf8 "nya", some (.memfd 4))], []) ∧
    getZnPlan 8 (patient fun _ _ => 0) (encodeAll 8 (fun _ => 0)
        (handleGetZnPlan (oneLibraryOs (some 0)) oneModuleDaemon "zygote64" "").1) =
      ([⟨utf8 "/data/adb/modules/nya/lib/nya.so", true, .memfd 0⟩], []) := by
  have hplan : scanZnModulesForTarget (oneLibraryOs (some 0)).toScanOs "zygote64" "" =
      [⟨"/data/adb/modules/nya/lib/nya.so", true, ⟨[0x7F, 0x45, 0x4C, 0x46, 2], []⟩⟩] := by decide +kernel
  have hnames : ∀ m ∈ oneModuleDaemon.modules, Text 8 m.name := by
    intro m hm
    rw [mem_singleton.mp hm]
    exact ⟨by decide, by decide⟩
  have hpaths : ∀ m ∈ scanZnModulesForTarget (oneLibraryOs (some 0)).toScanOs "zygote64" "",
      Text 8 m.libPath := by
    intro m hm
    rw [hplan] at hm
    rw [mem_singleton.mp hm]
    exact ⟨by decide, by decide⟩
  obtain ⟨hmodules, -, hsent, -⟩ := daemon_wire_faithful (fun _ _ => 0) (fun _ => 0)
    (oneLibraryOs (some 0)) oneModuleDaemon "zygote64" "" (by decide) hnames
    (by rw [hplan]; decide) hpaths
  have hmodules := hmodules []
  have hsent := hsent []
  rw [append_nil] at hmodules hsent
  rw [hplan] at hsent
  exact ⟨hmodules, hsent⟩

end NyaZygisk.Wire
