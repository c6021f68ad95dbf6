import Mathlib.Data.List.Basic

/-!
# Filter programs

Programs of the classic packet filter that load words, compare them and return. Jumps go forward only.
-/

namespace Bpf

inductive Insn (w : Nat)
  | load (offset : Nat)
  | jumpEq (k : BitVec w) (jt jf : Nat)
  | ret (k : BitVec w)
deriving DecidableEq

variable {w : Nat} (data : Nat → Option (BitVec w)) (accept reject : BitVec w)

/-- What is returned after `skip` instructions; `none` if a word that is loaded is not there, or the
program has no more instructions. -/
def run : List (Insn w) → (skip : Nat) → (acc : BitVec w) → Option (BitVec w)
  | [], _, _ => none
  | _ :: rest, skip + 1, acc => run rest skip acc
  | .load offset :: rest, 0, _ => (data offset).bind (run rest 0)
  | .jumpEq k jt jf :: rest, 0, acc => run rest (if acc = k then jt else jf) acc
  | .ret k :: _, 0, _ => some k

/-- Compares words with what they are to be; the first that differs decides. -/
def matchAll : List (Nat × BitVec w) → List (Insn w)
  | [] => [.ret accept, .ret reject]
  | (offset, k) :: tests => .load offset :: .jumpEq k 0 (2 * tests.length + 1) :: matchAll tests

theorem run_matchAll_skip (tests : List (Nat × BitVec w)) (acc : BitVec w) :
    run data (matchAll accept reject tests) (2 * tests.length + 1) acc = some reject := by
  induction tests with
  | nil => rfl
  | cons test tests ih => exact ih

theorem run_matchAll {tests : List (Nat × BitVec w)} (h : ∀ t ∈ tests, (data t.1).isSome = true)
    (acc : BitVec w) : run data (matchAll accept reject tests) 0 acc =
      some (if ∀ t ∈ tests, data t.1 = some t.2 then accept else reject) := by
  induction tests generalizing acc with
  | nil => simp [matchAll, run]
  | cons test tests ih =>
    obtain ⟨hfirst, hrest⟩ := List.forall_mem_cons.mp h
    obtain ⟨word, hword⟩ := Option.isSome_iff_exists.mp hfirst
    simp only [matchAll, run, hword, Option.bind_some, List.forall_mem_cons, Option.some.injEq]
    by_cases heq : word = test.2
    · rw [if_pos heq, ih hrest]
      simp only [heq, true_and]
    · rw [if_neg heq, run_matchAll_skip, if_neg fun hall => heq hall.1]

end Bpf
