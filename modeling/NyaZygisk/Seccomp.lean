import NyaZygisk.Lib.Bpf

/-!
# The system call that takes the message off zygote

`send_seccomp_event_if_needed` of `seccomp.cpp` has zygote call `exit_group` with random arguments. The
filter that is installed before stops this very call for the tracer, which skips it. If another call were
stopped it would fail, and if this one were allowed zygote would exit.
-/

namespace NyaZygisk.Seccomp

open Bpf

/-- `struct seccomp_data`. -/
structure SeccompData where
  nr : BitVec 32
  arch : BitVec 32
  instructionPointer : BitVec 64
  args : Fin 6 → BitVec 64

/-- The words of it in memory, little endian. -/
def SeccompData.words (d : SeccompData) : List (BitVec 32) :=
  d.nr :: d.arch :: (d.instructionPointer :: List.ofFn d.args).flatMap fun x : BitVec 64 =>
    [x.setWidth 32, (x >>> 32).setWidth 32]

/-- `BPF_LD | BPF_W | BPF_ABS`. -/
def SeccompData.load (d : SeccompData) (offset : Nat) : Option (BitVec 32) :=
  if offset % 4 = 0 then d.words[offset / 4]? else none

def retTrace : BitVec 32 := 0x7ff00000

def retAllow : BitVec 32 := 0x7fff0000

/-- `offsetof(struct seccomp_data, args[i])`. -/
def argOffset (i : Nat) : Nat := 16 + 8 * i

def filter (exitGroup : BitVec 32) (args : Fin 4 → BitVec 32) : List (Insn 32) :=
  [.load 0, .jumpEq exitGroup 0 9,
    .load (argOffset 0), .jumpEq (args 0) 0 7,
    .load (argOffset 1), .jumpEq (args 1) 0 5,
    .load (argOffset 2), .jumpEq (args 2) 0 3,
    .load (argOffset 3), .jumpEq (args 3) 0 1,
    .ret retTrace, .ret retAllow]

/-- What is found out, and whether the filter can be installed. -/
structure Answers where
  keepsPtraceMessage : Bool
  random : Option (Fin 4 → BitVec 32)
  installs : Bool

inductive Syscall
  | setSeccomp (prog : List (Insn 32))
  | exitGroup (args : Fin 4 → BitVec 32)

def signature (random : Fin 4 → BitVec 32) (i : Fin 4) : BitVec 32 :=
  if i = 0 then random 0 ||| 0x10000 else random i

def sendSeccompEventIfNeeded (exitGroup : BitVec 32) (a : Answers) : List Syscall :=
  if !a.keepsPtraceMessage then []
  else match a.random with
    | none => []
    | some random =>
      .setSeccomp (filter exitGroup (signature random)) ::
        if a.installs then [.exitGroup (signature random)] else []

/-- The call is `exit_group` with these arguments, as far as an `int` goes. -/
def IsCall (d : SeccompData) (exitGroup : BitVec 32) (args : Fin 4 → BitVec 32) : Prop :=
  d.nr = exitGroup ∧ ∀ i : Fin 4, (d.args (i.castLE (by decide))).setWidth 32 = args i

instance (d : SeccompData) (exitGroup : BitVec 32) (args : Fin 4 → BitVec 32) :
    Decidable (IsCall d exitGroup args) :=
  inferInstanceAs (Decidable (_ ∧ _))

/-- The words that the filter looks at, and what they are to be. -/
def tests (exitGroup : BitVec 32) (args : Fin 4 → BitVec 32) : List (Nat × BitVec 32) :=
  (0, exitGroup) :: List.ofFn fun i : Fin 4 => (argOffset i, args i)

theorem run_filter (d : SeccompData) (exitGroup : BitVec 32) (args : Fin 4 → BitVec 32) :
    run d.load (filter exitGroup args) 0 0 =
      some (if IsCall d exitGroup args then retTrace else retAllow) := by
  have hwords : ∀ t ∈ tests exitGroup args, (d.load t.1).isSome = true := by
    simp [tests, argOffset, SeccompData.load, SeccompData.words]
  refine (run_matchAll d.load retTrace retAllow hwords 0).trans ?_
  simp [tests, argOffset, IsCall, SeccompData.load, SeccompData.words, Fin.forall_fin_succ]

end NyaZygisk.Seccomp
