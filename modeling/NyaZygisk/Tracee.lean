import NyaZygisk.Abi
import NyaZygisk.Lib.Effects
import NyaZygisk.ModuleScan

/-!
# A traced process and the calls of its tracer

The injector (`ptracer.cpp`, `utils.cpp`) works on its target through ptrace,
waitpid and `process_vm_readv`/`writev`. Here are the target, as its memory and
its registers on aarch64, and what each of these calls does to it.

The program that runs in the target is a parameter: which register files are of
its own start-up, what it does when it is let run, and what it has mapped
(`TargetProgram`).
-/

namespace NyaZygisk

open Effects List

/-! ## Memory -/

def Memory : Type := BitVec 64 → UInt8

def Memory.read (mem : Memory) (addr : BitVec 64) (len : Nat) : List UInt8 :=
  (List.range len).map fun i => mem (addr + BitVec.ofNat 64 i)

def Memory.write (mem : Memory) (addr : BitVec 64) (bytes : List UInt8) : Memory :=
  fun a => bytes.getD (a - addr).toNat (mem a)

/-- The number that little-endian bytes stand for. -/
def ofBytes (bytes : List UInt8) : Nat := Nat.ofDigits 256 (bytes.map UInt8.toNat)

/-- A `uintptr_t` in memory. -/
def Memory.word (mem : Memory) (addr : BitVec 64) : BitVec 64 := BitVec.ofNat 64 (ofBytes (mem.read addr 8))

/-- The bytes of a `uintptr_t`. -/
abbrev wordBytes (word : BitVec 64) : List UInt8 := Abi.aarch64.wordBytes word

namespace TraceeLemmas

@[simp] theorem length_read (mem : Memory) (addr : BitVec 64) (len : Nat) :
    (mem.read addr len).length = len := by
  rw [Memory.read, length_map, length_range]

@[simp] theorem length_wordBytes (word : BitVec 64) : (wordBytes word).length = 8 := by
  rw [wordBytes, Abi.wordBytes, length_map, length_range]
  rfl

theorem read_add (mem : Memory) (addr : BitVec 64) (m n : Nat) :
    mem.read addr (m + n) = mem.read addr m ++ mem.read (addr + BitVec.ofNat 64 m) n := by
  unfold Memory.read
  rw [range_add, map_append, map_map]
  refine congrArg _ (map_congr_left fun i _ => ?_)
  rw [Function.comp_apply, BitVec.ofNat_add, BitVec.add_assoc]

/-- A word, read where its first bytes have been written. -/
theorem read_write (mem : Memory) (addr : BitVec 64) {bytes : List UInt8} (h : bytes.length ≤ 8) :
    (mem.write addr bytes).read addr 8 = bytes ++ (mem.read addr 8).drop bytes.length := by
  refine ext_getElem (by simp; omega) fun i hi _ => ?_
  rw [length_read] at hi
  have hoffset : (addr + BitVec.ofNat 64 i - addr).toNat = i := by
    rw [BitVec.add_comm, BitVec.add_sub_cancel, BitVec.toNat_ofNat,
      Nat.mod_eq_of_lt (Nat.lt_trans hi (by decide))]
  simp only [Memory.read, Memory.write, getElem_map, getElem_range, hoffset]
  rw [getElem_append]
  split
  · next hlt => rw [getD_eq_getElem _ _ hlt]
  · next hge =>
    rw [getD_eq_default _ _ (by omega)]
    simp only [getElem_drop, getElem_map, getElem_range]
    congr 3
    omega

theorem ofBytes_lt (bytes : List UInt8) : ofBytes bytes < 256 ^ bytes.length := by
  rw [ofBytes, ← length_map UInt8.toNat]
  refine Nat.ofDigits_lt_base_pow_length (by decide) fun digit hdigit => ?_
  obtain ⟨byte, _, rfl⟩ := mem_map.mp hdigit
  exact byte.toNat_lt

theorem ofBytes_inj {bytes bytes' : List UInt8} (hlen : bytes.length = bytes'.length)
    (h : ofBytes bytes = ofBytes bytes') : bytes = bytes' := by
  have hdigits : ∀ l : List UInt8, ∀ d ∈ l.map UInt8.toNat, d < 256 := by
    intro l d hd
    obtain ⟨byte, _, rfl⟩ := mem_map.mp hd
    exact byte.toNat_lt
  have hmap : bytes.map UInt8.toNat = bytes'.map UInt8.toNat :=
    Nat.ofDigits_inj_of_len_eq (by decide) (by simpa using hlen) (hdigits _) (hdigits _) h
  exact map_injective_iff.mpr (fun _ _ => UInt8.toNat_inj.mp) hmap

theorem word_eq_iff (mem mem' : Memory) (addr : BitVec 64) :
    mem'.word addr = mem.word addr ↔ mem'.read addr 8 = mem.read addr 8 := by
  refine ⟨fun h => ofBytes_inj (by simp) ?_, fun h => by rw [Memory.word, Memory.word, h]⟩
  have hlt := fun m : Memory => ofBytes_lt (m.read addr 8)
  simp only [length_read, show 256 ^ 8 = 2 ^ 64 from rfl] at hlt
  have hnat := congrArg BitVec.toNat h
  rwa [Memory.word, Memory.word, BitVec.toNat_ofNat, BitVec.toNat_ofNat, Nat.mod_eq_of_lt (hlt _),
    Nat.mod_eq_of_lt (hlt _)] at hnat

/-- A word is left as it is by a write of its first bytes exactly when these are
the bytes it has. -/
theorem word_write_iff (mem : Memory) (addr : BitVec 64) {bytes : List UInt8} (h : bytes.length ≤ 8) :
    (mem.write addr bytes).word addr = mem.word addr ↔
      bytes = (mem.read addr 8).take bytes.length := by
  rw [word_eq_iff, read_write mem addr h]
  constructor
  · intro heq
    rw [← heq, take_left]
  · intro heq
    rw [heq, length_take, length_read, Nat.min_eq_left h, take_append_drop]

end TraceeLemmas

/-! ## Mappings -/

structure MapInfo where
  start : BitVec 64
  stop : BitVec 64
  executable : Bool
  dev : UInt64
  inode : UInt64
  path : String
deriving DecidableEq

/-- `std::string::ends_with`. -/
def endsWith (text suffix : String) : Bool := decide (suffix.toList <:+ text.toList)

def findModuleReturnAddr (maps : List MapInfo) (suffix : String) : BitVec 64 :=
  match maps.find? fun map => !map.executable && endsWith map.path suffix with
  | some map => map.start
  | none => 0

/-! ## Calls -/

def sigsegv : Nat := 11
def sigtrap : Nat := 5
def sigcont : Nat := 18
def sigstop : Nat := 19
def ptraceEventSeccomp : Nat := 7
def ptraceEventStop : Nat := 128

inductive Status
  | exited (code : Nat)
  | signaled (signal : Nat)
  | stopped (signal event : Nat)
deriving DecidableEq

/-- `WIFSTOPPED`. -/
def Status.isStopped : Status → Bool
  | .stopped _ _ => true
  | _ => false

/-- `stopped_with`, and `STOPPED_WITH`. -/
def stoppedWith (status : Status) (signal event : Nat) : Bool := status == .stopped signal event

/-- What `waitpid` answers; `interrupted` is an error with `EINTR`. -/
inductive Waited
  | interrupted
  | failed
  | status (status : Status)
deriving DecidableEq

/-- The calls of a tracer. -/
inductive Abi.Call (abi : Abi)
  | getRegs
  | setRegs (regs : abi.Regs)
  /-- `PTRACE_SETREGSET` with `NT_ARM_SYSTEM_CALL`, or `PTRACE_SET_SYSCALL`, and -1. -/
  | setSyscall
  | readProc (addr : BitVec abi.width) (len : Nat)
  | writeProc (addr : BitVec abi.width) (bytes : List UInt8)
  /-- `PTRACE_CONT` with no signal. -/
  | cont
  | waitpid
  | detach (signal : Nat)
  | kill (signal : Nat)
  /-- `MapInfo::Scan` of the target. -/
  | scanMaps
  | findFuncAddr (module func : String)
  | getTmpPath
  | exit
  /-- A loop goes on for more rounds than are looked at. -/
  | spin

/-- What a call answers: false for an error, 0 for a null pointer. -/
def Abi.Call.Result {abi : Abi} : abi.Call → Type
  | .getRegs => Option abi.Regs
  | .setRegs _ | .setSyscall | .cont | .detach _ | .kill _ => Bool
  | .readProc _ _ => List UInt8
  | .writeProc _ _ => Int
  | .waitpid => Waited
  | .scanMaps => List MapInfo
  | .findFuncAddr _ _ => BitVec abi.width
  | .getTmpPath => String
  | .exit | .spin => Empty

abbrev AbiTracer (abi : Abi) (α : Type) : Type := Prog abi.Call Abi.Call.Result α

abbrev AbiEvent (abi : Abi) : Type := Sigma (@Abi.Call.Result abi)

abbrev TraceCall : Type := Abi.aarch64.Call

abbrev Tracer (α : Type) : Type := AbiTracer .aarch64 α

abbrev TraceEvent : Type := AbiEvent .aarch64

/-! ## The target -/

/-- What a process continues from. -/
structure Image where
  mem : Memory
  regs : Regs

structure Target where
  image : Image
  alive : Bool
  /-- The image that the target had when its tracer let it go. -/
  released : Option Image

def Target.setRegs (t : Target) (regs : Regs) : Target := { t with image := { t.image with regs } }

def Target.setMem (t : Target) (mem : Memory) : Target := { t with image := { t.image with mem } }

structure TargetProgram where
  /-- From these registers it continues its own start-up. -/
  own : Regs → Prop
  /-- Let run from the one image, it may be stopped at the other. -/
  runs : Image → Image → Prop
  maps : Image → List MapInfo → Prop

/-- What a call does to a target that stays alive. A read fails only for a target
that does not: with memory that cannot be read the source would go on with
variables it never set. -/
def TargetProgram.answers (P : TargetProgram) : (c : TraceCall) → Target → c.Result → Target → Prop
  | .getRegs, t, (regs : Option Regs), t' =>
    t' = t ∧ (regs = none ∨ regs = some t.image.regs)
  | .setRegs regs, t, (ok : Bool), t' => t' = if ok then t.setRegs regs else t
  | .readProc addr len, t, (bytes : List UInt8), t' => t' = t ∧ bytes = t.image.mem.read addr len
  | .writeProc addr bytes, t, (n : Int), t' =>
    (n = -1 ∧ t' = t) ∨
      ∃ k, k ≤ bytes.length ∧ n = Int.ofNat k ∧
        t' = t.setMem (t.image.mem.write addr (bytes.take k))
  | .waitpid, t, (_ : Waited), t' =>
    t' = t ∨ ∃ image, P.runs t.image image ∧ t' = { t with image }
  | .detach _, t, (ok : Bool), t' =>
    (ok = false ∧ t' = t) ∨
      (ok = true ∧ t.released = none ∧ t' = { t with released := some t.image })
  | .scanMaps, t, (maps : List MapInfo), t' => t' = t ∧ P.maps t.image maps
  | .setSyscall, t, _, t' | .cont, t, _, t' | .kill _, t, _, t' | .findFuncAddr _ _, t, _, t'
  | .getTmpPath, t, _, t' => t' = t
  | .exit, _, _, _ | .spin, _, _, _ => False

/-- What a call does: the target may also die of it, and what a call on a dead
target answers is open. -/
def TargetProgram.kernel (P : TargetProgram) : Kernel TraceCall Abi.Call.Result Target :=
  fun c t r t' => t'.alive = false ∨ (t.alive = true ∧ t'.alive = true ∧ P.answers c t r t')

end NyaZygisk
