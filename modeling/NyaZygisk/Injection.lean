import NyaZygisk.Tracee

/-!
# Injecting a library into a traced process

`execute_remote_injection`, `inject_before_start` and `inject_after_start` of
`ptracer.cpp`, and the functions of `utils.cpp` they are made of; `inject_before_start`
for aarch64. The loops of the source are bounded by `n`, the number of rounds that are
looked at; a run that takes more does not return.
-/

namespace NyaZygisk

open Effects

/-- The stop is a `PTRACE_EVENT_SECCOMP`. -/
def Status.isSeccompEvent : Status → Bool
  | .stopped signal event => signal = sigtrap && event = ptraceEventSeccomp
  | _ => false

inductive TraceMode
  | unknown
  | spawn
  | standalone
  | systemServer
deriving DecidableEq

def TraceMode.value : TraceMode → BitVec 64
  | .unknown => 0
  | .spawn => 1
  | .standalone => 2
  | .systemServer => 3

def rtldNow : BitVec 64 := 2

/-- The start of the injected library's mappings, and their size together. -/
def libraryRange (maps : List MapInfo) : BitVec 64 × BitVec 64 :=
  match maps.find? fun map => map.inode ≠ 0 && containsText map.path "libzygisk.so" with
  | none => (0, 0)
  | some found =>
    let mappings := maps.filter fun map => map.dev = found.dev && map.inode = found.inode
    ((mappings.head?.map MapInfo.start).getD 0,
      (mappings.map fun map => map.stop - map.start).foldl (· + ·) 0)

section Programs

variable {abi : Abi}

def call (c : abi.Call) : AbiTracer abi c.Result := .op c

/-- `exit(1)`. -/
def exitTracer {α : Type} : AbiTracer abi α := .call .exit Empty.elim

def spin {α : Type} : AbiTracer abi α := .call .spin Empty.elim

/-! ## Waiting and remote calls -/

def traceeSkipSyscall : AbiTracer abi Unit := do
  match ← call .getRegs with
  | none => exitTracer
  | some regs =>
    let ok : Bool ← call (.setRegs (abi.skipSyscall regs))
    if ok then
      if abi.requestsSkip then
        let _ ← call .setSyscall
        return ()
      else return ()
    else exitTracer

def waitForTrace : Nat → AbiTracer abi Status
  | 0 => spin
  | n + 1 => do
    match ← call .waitpid with
    | .interrupted => waitForTrace n
    | .failed => exitTracer
    | .status status =>
      -- the event is over once the tracee runs on, and another stop is waited for
      if status.isSeccompEvent then
        traceeSkipSyscall
        let _ ← call .cont
        waitForTrace n
      else if status.isStopped then return status
      else exitTracer

def alignStack (regs : abi.Regs) : abi.Regs := abi.setSp regs (abi.sp regs &&& ~~~ 0xf)

/-- The stack pointer moved down by a number of bytes. -/
def lower (regs : abi.Regs) (len : Nat) : abi.Regs := abi.setSp regs (abi.sp regs - BitVec.ofNat _ len)

def stringBytes (str : String) : List UInt8 := str.toUTF8.toList ++ [0]

/-- `push_string`: the address of the string, 0 for a failure, and the registers after it. -/
def pushString (regs : abi.Regs) (str : String) : AbiTracer abi (BitVec abi.width × abi.Regs) := do
  let bytes := stringBytes str
  let regs := alignStack (lower regs bytes.length)
  let written : Int ← call (.writeProc (abi.sp regs) bytes)
  if written ≠ bytes.length then return (0, regs) else return (abi.sp regs, regs)

/-- The registers for a call with these arguments, as far as they are passed in registers. -/
def setArgs (regs : abi.Regs) (args : List (BitVec abi.width)) : abi.Regs :=
  (args.take abi.argRegs).zipIdx.foldl (fun regs (arg, i) => abi.setArg regs i arg) regs

/-- A block of words on the stack: whether it was written, and the registers after it. -/
def pushWords (regs : abi.Regs) (words : List (BitVec abi.width)) : AbiTracer abi (Bool × abi.Regs) := do
  let bytes := words.flatMap abi.wordBytes
  let regs := lower regs bytes.length
  let written : Int ← call (.writeProc (abi.sp regs) bytes)
  return (written = bytes.length, regs)

/-- The arguments that are not passed in registers. -/
def pushArgs (regs : abi.Regs) (args : List (BitVec abi.width)) : AbiTracer abi (Bool × abi.Regs) :=
  if abi.argRegs < args.length then pushWords regs (args.drop abi.argRegs) else return (true, regs)

def pushReturn (regs : abi.Regs) (returnAddr : BitVec abi.width) : AbiTracer abi (Bool × abi.Regs) :=
  if abi.pushesReturn then pushWords regs [returnAddr] else return (true, regs)

/-- What `remote_call` returns: the value, whether the call returned, and the registers after it. -/
structure RemoteResult (abi : Abi) where
  value : BitVec abi.width
  ok : Bool
  regs : abi.Regs

/-- `remote_call`, from where the arguments are in place. -/
def enterCall (n : Nat) (regs : abi.Regs) (funcAddr returnAddr : BitVec abi.width) :
    AbiTracer abi (RemoteResult abi) := do
  let regs := abi.enter regs funcAddr returnAddr
  let ok : Bool ← call (.setRegs regs)
  if !ok then return ⟨0, false, regs⟩
  else
    let _ ← call .cont
    let status ← waitForTrace n
    match ← call .getRegs with
    | none => return ⟨0, false, regs⟩
    | some regs =>
      if status.isStopped && abi.ip regs = returnAddr then return ⟨abi.ret regs, true, regs⟩
      else return ⟨0, false, regs⟩

def remoteCall (n : Nat) (regs : abi.Regs) (funcAddr returnAddr : BitVec abi.width)
    (args : List (BitVec abi.width)) : AbiTracer abi (RemoteResult abi) := do
  let regs := setArgs (alignStack regs) args
  let (ok, regs) ← pushArgs regs args
  if !ok then return ⟨0, false, regs⟩
  else
    let (ok, regs) ← pushReturn regs returnAddr
    if !ok then return ⟨0, false, regs⟩ else enterCall n regs funcAddr returnAddr

/-! ## Injection -/

/-- The part of `execute_remote_injection` that reports why `dlopen` failed. -/
def reportDlerror (n : Nat) (regs : abi.Regs) (libcReturnAddr : BitVec abi.width) : AbiTracer abi Bool := do
  let dlerrorAddr : BitVec abi.width ← call (.findFuncAddr "libdl.so" "dlerror")
  if dlerrorAddr = 0 then return false
  else
    let dlerror ← remoteCall n regs dlerrorAddr libcReturnAddr []
    if dlerror.value = 0 then return false
    else
      let strlenAddr : BitVec abi.width ← call (.findFuncAddr "libc.so" "strlen")
      if strlenAddr = 0 then return false
      else
        let strlen ← remoteCall n dlerror.regs strlenAddr libcReturnAddr [dlerror.value]
        if strlen.value = 0 then return false
        else
          let _ ← call (.readProc dlerror.value strlen.value.toNat)
          return false

/-- The part of `execute_remote_injection` after `dlsym`. -/
def callEntry (n : Nat) (regs : abi.Regs) (libcReturnAddr injectorEntry : BitVec abi.width)
    (mode : TraceMode) : AbiTracer abi Bool := do
  let maps : List MapInfo ← call .scanMaps
  let (startAddr, blockSize) := libraryRange maps
  let tmpPath : String ← call .getTmpPath
  let (remoteTmpPath, regs) ← pushString regs tmpPath
  let entry ← remoteCall n regs injectorEntry libcReturnAddr
    [abi.word startAddr, abi.word blockSize, remoteTmpPath, abi.word mode.value]
  return entry.ok

/-- The part of `execute_remote_injection` after `dlopen`. -/
def findEntry (n : Nat) (regs : abi.Regs) (libcReturnAddr handle : BitVec abi.width) (mode : TraceMode) :
    AbiTracer abi Bool := do
  let dlsymAddr : BitVec abi.width ← call (.findFuncAddr "libdl.so" "dlsym")
  if dlsymAddr = 0 then return false
  else
    let (remoteEntryStr, regs) ← pushString regs "entry"
    let dlsym ← remoteCall n regs dlsymAddr libcReturnAddr [handle, remoteEntryStr]
    if dlsym.value = 0 then return false
    else callEntry n dlsym.regs libcReturnAddr dlsym.value mode

def executeRemoteInjection (n : Nat) (regs : abi.Regs) (libPath : String) (mode : TraceMode) :
    AbiTracer abi Bool := do
  let regs := abi.clearBranch regs
  let maps : List MapInfo ← call .scanMaps
  let libcReturnAddr := abi.word (findModuleReturnAddr maps "libc.so")
  let dlopenAddr : BitVec abi.width ← call (.findFuncAddr "libdl.so" "dlopen")
  if dlopenAddr = 0 then return false
  else
    let (remoteLibPath, regs) ← pushString regs libPath
    let dlopen ← remoteCall n regs dlopenAddr libcReturnAddr [remoteLibPath, abi.word rtldNow]
    if dlopen.value = 0 then reportDlerror n dlopen.regs libcReturnAddr
    else findEntry n dlopen.regs libcReturnAddr dlopen.value mode

end Programs

/-! ## Before the target has started -/

def readWord (addr : BitVec 64) : Tracer (BitVec 64) := do
  let bytes : List UInt8 ← call (.readProc addr 8)
  return BitVec.ofNat 64 (ofBytes bytes)

/-- The loop over the environment: the address of the null pointer at its end. -/
def scanEnvp : Nat → BitVec 64 → Tracer (BitVec 64)
  | 0, _ => spin
  | n + 1, p => do
    let val ← readWord p
    if val ≠ 0 then scanEnvp n (p + 8) else return p

def atNull : BitVec 64 := 0
def atEntry : BitVec 64 := 9

/-- The loop over the auxiliary vector: the address of the word of `AT_ENTRY`, and
the entry address in it. -/
def scanAuxv : Nat → BitVec 64 → Tracer (Option (BitVec 64 × BitVec 64))
  | 0, _ => spin
  | n + 1, v => do
    let buf : List UInt8 ← call (.readProc v 16)
    let type := BitVec.ofNat 64 (ofBytes (buf.take 8))
    if type = atNull then return none
    else if type = atEntry then return some (v + 8, BitVec.ofNat 64 (ofBytes (buf.drop 8)))
    else scanAuxv n (v + 16)

/-- `argv + argc + 1`, for the `int` with these bytes. -/
def envpOf (sp : BitVec 64) (argc : List UInt8) : BitVec 64 :=
  sp + 8 + ((BitVec.ofNat 32 (ofBytes argc)).signExtend 64 + 1) * 8

/-- The invalid address that takes the place of the entry address. -/
def breakAddr (entryAddr : BitVec 64) : BitVec 64 := (-0x05ec1cff &&& ~~~ 1) ||| (entryAddr &&& 1)

/-- The loop that resumes the target until it traps: false when it stops for
another reason. -/
def runToTrap : Nat → Nat → Tracer Bool
  | _, 0 => spin
  | n, k + 1 => do
    let ok : Bool ← call .cont
    if !ok then return false
    else match ← waitForTrace n with
      | .exited _ | .signaled _ => return false
      | .stopped signal _ =>
        if signal = sigsegv then return true
        else if signal = sigstop then runToTrap n k
        else return false

/-- `inject_before_start` from where the target has trapped. -/
def injectAtTrap (n : Nat) (libPath : String) (mode : TraceMode) (addrOfEntryAddr entryAddr : BitVec 64) :
    Tracer Bool := do
  match ← call .getRegs with
  | none => return false
  | some regs =>
    if regs.pc &&& ~~~ 1 ≠ breakAddr entryAddr &&& ~~~ 1 then return false
    else
      let written : Int ← call (.writeProc addrOfEntryAddr (wordBytes entryAddr))
      if written = 0 then return false
      else
        let injected ← executeRemoteInjection n regs libPath mode
        if !injected then return false
        else call (.setRegs { regs with pc := entryAddr })

/-- `inject_before_start` from where the entry address is known. What `write_proc`
returns is taken for a truth value: -1 passes for a success. -/
def hijackEntry (n : Nat) (libPath : String) (mode : TraceMode) (addrOfEntryAddr entryAddr : BitVec 64) :
    Tracer Bool := do
  let written : Int ← call (.writeProc addrOfEntryAddr (wordBytes (breakAddr entryAddr)))
  if written = 0 then return false
  else
    let trapped ← runToTrap n n
    if !trapped then return false
    else injectAtTrap n libPath mode addrOfEntryAddr entryAddr

def injectBeforeStart (n : Nat) (libPath : String) (mode : TraceMode) : Tracer Bool := do
  let _ ← call .scanMaps
  match ← call .getRegs with
  | none => return false
  | some regs =>
    let argc : List UInt8 ← call (.readProc regs.sp 4)
    let p ← scanEnvp n (envpOf regs.sp argc)
    match ← scanAuxv n (p + 8) with
    | none => return false
    | some (addrOfEntryAddr, entryAddr) =>
      if entryAddr = 0 then return false
      else hijackEntry n libPath mode addrOfEntryAddr entryAddr

/-- What `trace_with_seize`, `trace_target` and `handle_trace` still do when the
early injection has failed. With `EIO` in `errno`, `trace_target` tries once more
to attach, after the first of these calls. -/
def resumeUninjected : Tracer Unit := do
  let _ ← call (.detach 0)
  let _ ← call (.detach sigcont)
  let _ ← call (.kill sigcont)
  return ()

/-! ## After the target has started -/

def injectAfterStart (abi : Abi) (n : Nat) (libPath : String) (mode : TraceMode) : AbiTracer abi Bool := do
  match ← call .getRegs with
  | none => return false
  | some backup =>
    let success ← executeRemoteInjection n (abi.clearSyscall backup) libPath mode
    let restored : Bool ← call (.setRegs backup)
    if !restored then return false else return success

end NyaZygisk
