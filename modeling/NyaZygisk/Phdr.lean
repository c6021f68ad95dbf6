import NyaZygisk.Lib.LittleEndian

/-!
# Program headers
-/

namespace NyaZygisk

open LittleEndian

inductive PhdrType
  | load
  | dynamic
  | phdr
  | tls
  | gnuRelro
  | gnuProperty
  | other
deriving DecidableEq

structure Phdr (w : Nat) where
  type : PhdrType
  flags : BitVec 32
  offset : BitVec w
  vaddr : BitVec w
  filesz : BitVec w
  memsz : BitVec w
  align : BitVec w
deriving DecidableEq

def phdrSize (w : Nat) : Nat := if w = 64 then 56 else 32

def PhdrType.ofNumber : Nat → PhdrType
  | 1 => load
  | 2 => dynamic
  | 6 => phdr
  | 7 => tls
  | 0x6474e552 => gnuRelro
  | 0x6474e553 => gnuProperty
  | _ => other

/-- `ElfW(Phdr)`, of which `p_paddr` is not used. -/
def Phdr.read (w : Nat) (byte : Nat → UInt8) (i : Nat) : Phdr w :=
  let word k : BitVec w := BitVec.ofNat w (numberAt byte (w / 8) (i + k))
  let half k := numberAt byte 4 (i + k)
  if w = 64 then ⟨.ofNumber (half 0), BitVec.ofNat 32 (half 4), word 8, word 16, word 32, word 40, word 48⟩
  else ⟨.ofNumber (half 0), BitVec.ofNat 32 (half 24), word 4, word 8, word 16, word 20, word 28⟩

end NyaZygisk
