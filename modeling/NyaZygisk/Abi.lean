import Mathlib.Data.Vector.Basic

/-!
# Calling conventions

What the injector knows of the architectures that the loader is built for: the registers that
`remote_call` and its callers set, and how a call passes its arguments and its return address.
-/

namespace NyaZygisk

/-- `user_regs_struct` of aarch64. -/
structure Regs where
  x : Vector (BitVec 64) 31
  sp : BitVec 64
  pc : BitVec 64
  pstate : BitVec 64
deriving DecidableEq

namespace Regs

variable (regs : Regs)

def setX (i : Nat) (value : BitVec 64) : Regs := { regs with x := regs.x.setIfInBounds i value }

/-- `REG_RET`. -/
def ret : BitVec 64 := regs.x[0]

def lr : BitVec 64 := regs.x[30]

/-- The registers with `REG_SYSNR` set to -1. -/
def skipSyscall : Regs := regs.setX 8 (-1)

end Regs

/-- What `remote_call` and its callers know of an architecture. -/
structure Abi where
  width : Nat
  width_eq : width = 32 ∨ width = 64
  /-- `user_regs_struct`. -/
  Regs : Type
  sp : Regs → BitVec width
  setSp : Regs → BitVec width → Regs
  ip : Regs → BitVec width
  ret : Regs → BitVec width
  argRegs : Nat
  setArg : Regs → Nat → BitVec width → Regs
  /-- The return address is pushed, and not passed in a register. -/
  pushesReturn : Bool
  /-- `REG_IP` and the register for the return address, if there is one. -/
  enter : Regs → (funcAddr returnAddr : BitVec width) → Regs
  /-- `REG_SYSNR` becomes -1. -/
  skipSyscall : Regs → Regs
  /-- The system call is skipped by a request of its own as well. -/
  requestsSkip : Bool
  /-- `inject_after_start` takes away the state of a system call. -/
  clearSyscall : Regs → Regs
  /-- `execute_remote_injection` takes away that of an indirect branch. -/
  clearBranch : Regs → Regs
  /-- What a function may use below its stack pointer. -/
  redZone : Nat
  redZone_eq : redZone = 0 ∨ 16 ≤ redZone
  sp_setSp (regs : Regs) (addr : BitVec width) : sp (setSp regs addr) = addr
  sp_setArg (regs : Regs) (i : Nat) (arg : BitVec width) : i < argRegs → sp (setArg regs i arg) = sp regs
  sp_enter (regs : Regs) (funcAddr returnAddr : BitVec width) :
    sp (enter regs funcAddr returnAddr) = sp regs
  sp_skipSyscall (regs : Regs) : sp (skipSyscall regs) = sp regs
  sp_clearSyscall (regs : Regs) : sp (clearSyscall regs) = sp regs
  sp_clearBranch (regs : Regs) : sp (clearBranch regs) = sp regs

namespace Abi

/-- The registers of x86_64 that are used. -/
structure X86Regs where
  rdi : BitVec 64
  rsi : BitVec 64
  rdx : BitVec 64
  rcx : BitVec 64
  r8 : BitVec 64
  r9 : BitVec 64
  rax : BitVec 64
  origRax : BitVec 64
  rsp : BitVec 64
  rip : BitVec 64
deriving DecidableEq

def X86Regs.setArg (regs : X86Regs) (i : Nat) (arg : BitVec 64) : X86Regs :=
  match i with
  | 0 => { regs with rdi := arg }
  | 1 => { regs with rsi := arg }
  | 2 => { regs with rdx := arg }
  | 3 => { regs with rcx := arg }
  | 4 => { regs with r8 := arg }
  | 5 => { regs with r9 := arg }
  | _ => regs

def x8664 : Abi where
  width := 64
  width_eq := .inr rfl
  Regs := X86Regs
  sp := X86Regs.rsp
  setSp regs addr := { regs with rsp := addr }
  ip := X86Regs.rip
  ret := X86Regs.rax
  argRegs := 6
  setArg := X86Regs.setArg
  pushesReturn := true
  enter regs funcAddr _ := { regs with rip := funcAddr }
  skipSyscall regs := { regs with origRax := -1 }
  requestsSkip := false
  clearSyscall regs := { regs with origRax := -1, rax := 0 }
  clearBranch regs := regs
  redZone := 128
  redZone_eq := .inr (by decide)
  sp_setSp _ _ := rfl
  sp_setArg regs i arg _ := by
    unfold X86Regs.setArg
    split <;> rfl
  sp_enter _ _ _ := rfl
  sp_skipSyscall _ := rfl
  sp_clearSyscall _ := rfl
  sp_clearBranch _ := rfl

/-- The registers of i386 that are used. -/
structure I386Regs where
  eax : BitVec 32
  origEax : BitVec 32
  esp : BitVec 32
  eip : BitVec 32
deriving DecidableEq

def i386 : Abi where
  width := 32
  width_eq := .inl rfl
  Regs := I386Regs
  sp := I386Regs.esp
  setSp regs addr := { regs with esp := addr }
  ip := I386Regs.eip
  ret := I386Regs.eax
  argRegs := 0
  setArg regs _ _ := regs
  pushesReturn := true
  enter regs funcAddr _ := { regs with eip := funcAddr }
  skipSyscall regs := { regs with origEax := -1 }
  requestsSkip := false
  clearSyscall regs := { regs with origEax := -1, eax := 0 }
  clearBranch regs := regs
  redZone := 0
  redZone_eq := .inl rfl
  sp_setSp _ _ := rfl
  sp_setArg _ _ _ _ := rfl
  sp_enter _ _ _ := rfl
  sp_skipSyscall _ := rfl
  sp_clearSyscall _ := rfl
  sp_clearBranch _ := rfl

abbrev aarch64 : Abi where
  width := 64
  width_eq := .inr rfl
  Regs := NyaZygisk.Regs
  sp := NyaZygisk.Regs.sp
  setSp regs addr := { regs with sp := addr }
  ip := NyaZygisk.Regs.pc
  ret := NyaZygisk.Regs.ret
  argRegs := 8
  setArg := NyaZygisk.Regs.setX
  pushesReturn := false
  enter regs funcAddr returnAddr := { regs.setX 30 returnAddr with pc := funcAddr }
  skipSyscall := NyaZygisk.Regs.skipSyscall
  requestsSkip := true
  clearSyscall regs := regs.setX 0 0
  -- BTYPE, bits 10 and 11
  clearBranch regs := { regs with pstate := regs.pstate &&& ~~~ ((3 : BitVec 64) <<< 10) }
  redZone := 0
  redZone_eq := .inl rfl
  sp_setSp _ _ := rfl
  sp_setArg _ _ _ _ := rfl
  sp_enter _ _ _ := rfl
  sp_skipSyscall _ := rfl
  sp_clearSyscall _ := rfl
  sp_clearBranch _ := rfl

/-- The registers of riscv64 that are used; `REG_RET` is the first of `a`, `REG_SYSNR` the last. -/
structure RiscvRegs where
  a : Vector (BitVec 64) 8
  ra : BitVec 64
  sp : BitVec 64
  pc : BitVec 64
deriving DecidableEq

def riscv64 : Abi where
  width := 64
  width_eq := .inr rfl
  Regs := RiscvRegs
  sp := RiscvRegs.sp
  setSp regs addr := { regs with sp := addr }
  ip := RiscvRegs.pc
  ret regs := regs.a[0]
  argRegs := 8
  setArg regs i arg := { regs with a := regs.a.setIfInBounds i arg }
  pushesReturn := false
  enter regs funcAddr returnAddr := { regs with ra := returnAddr, pc := funcAddr }
  skipSyscall regs := { regs with a := regs.a.set 7 (-1) }
  requestsSkip := false
  clearSyscall regs := regs
  clearBranch regs := regs
  redZone := 0
  redZone_eq := .inl rfl
  sp_setSp _ _ := rfl
  sp_setArg _ _ _ _ := rfl
  sp_enter _ _ _ := rfl
  sp_skipSyscall _ := rfl
  sp_clearSyscall _ := rfl
  sp_clearBranch _ := rfl

/-- `user_regs` of arm: `r0` to `r15`, the status word, and the first argument of a system call. -/
structure ArmRegs where
  uregs : Vector (BitVec 32) 18
deriving DecidableEq

def ArmRegs.set (regs : ArmRegs) (i : Fin 18) (value : BitVec 32) : ArmRegs := ⟨regs.uregs.set i value⟩

/-- The status word with the bit for Thumb code set or cleared. -/
def ArmRegs.setThumb (regs : ArmRegs) (thumb : Bool) : ArmRegs :=
  regs.set 16 (if thumb then regs.uregs[16] ||| 1#32 <<< 5 else regs.uregs[16] &&& ~~~ (1#32 <<< 5))

def arm : Abi where
  width := 32
  width_eq := .inl rfl
  Regs := ArmRegs
  sp regs := regs.uregs[13]
  setSp regs addr := regs.set 13 addr
  ip regs := regs.uregs[15]
  ret regs := regs.uregs[0]
  argRegs := 4
  setArg regs i arg := if h : i < 4 then regs.set ⟨i, by omega⟩ arg else regs
  pushesReturn := false
  enter regs funcAddr returnAddr :=
    ((regs.set 14 returnAddr).set 15 (if funcAddr &&& 1 ≠ 0 then funcAddr &&& ~~~ 1 else funcAddr)).setThumb
      (funcAddr &&& 1 ≠ 0)
  skipSyscall regs := regs.set 7 (-1)
  requestsSkip := true
  clearSyscall regs := (regs.set 17 (-1)).set 0 0
  clearBranch regs := regs
  redZone := 0
  redZone_eq := .inl rfl
  sp_setSp regs addr := by simp [ArmRegs.set]
  sp_setArg regs i arg h := by
    rw [dif_pos h]
    have hne : i ≠ 13 := by omega
    simp [ArmRegs.set, hne]
  sp_enter regs funcAddr returnAddr := by simp [ArmRegs.set, ArmRegs.setThumb]
  sp_skipSyscall regs := by simp [ArmRegs.set]
  sp_clearSyscall regs := by simp [ArmRegs.set]
  sp_clearBranch _ := rfl

/-- An address or a number of 64 bits as a `long`. -/
def word (abi : Abi) (value : BitVec 64) : BitVec abi.width := value.setWidth abi.width

def wordBytes (abi : Abi) (value : BitVec abi.width) : List UInt8 :=
  (List.range (abi.width / 8)).map fun i => ⟨value.extractLsb' (8 * i) 8⟩

end Abi

end NyaZygisk
