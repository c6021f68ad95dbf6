import NyaZygisk.Lib.Runs
import Mathlib.Data.BitVec

/-!
# Sequence locks

Writers, one at a time, step a version counter to odd, change the memory, and
step the counter to the next even value. A reader loads the version, reads,
loads the version again and keeps what it read if both loads agree.

`Protocol.stable` is what the reader relies on: between two equal version loads
with no writer inside at either of them, and with fewer than `2 ^ (w - 1)`
writes finished in between, nothing changed. The bound is where the `w`-bit
counter would come around.
-/

namespace Seqlock

open List Runs

variable {σ ι M : Type} {w : Nat}

/-- A step system with a version counter and one writer at a time. `mid` says
that a writer is between its two version stores, `publishes` that a step is the
second of them. -/
structure Protocol (σ ι M : Type) (w : Nat) where
  step : σ → ι → σ → Prop
  version : σ → BitVec w
  mem : σ → M
  mid : σ → Bool
  publishes : σ → ι → Bool
  /-- Outside the two stores neither version nor memory changes. -/
  quiet : ∀ s i t, step s i t → mid s = false → mid t = false →
    publishes s i = false ∧ version t = version s ∧ mem t = mem s
  /-- The first store makes the version odd and changes nothing else. -/
  enter : ∀ s i t, step s i t → mid s = false → mid t = true →
    publishes s i = false ∧ version t = version s + 1 ∧ mem t = mem s
  /-- Between the stores the version stands still. -/
  inside : ∀ s i t, step s i t → mid s = true → mid t = true →
    publishes s i = false ∧ version t = version s
  /-- The second store is the only way out. -/
  leave : ∀ s i t, step s i t → mid s = true → mid t = false →
    publishes s i = true ∧ version t = version s + 1

namespace Protocol

variable (P : Protocol σ ι M w)

def finished (tr : List (σ × ι)) : Nat := tr.countP fun p => P.publishes p.1 p.2

/-- What the version counter lacks from its value at the start of a run. -/
def ticks (tr : List (σ × ι)) (t : σ) : Nat := 2 * P.finished tr + (P.mid t).toNat

variable {P}

theorem finished_snoc (tr : List (σ × ι)) (s : σ) (i : ι) :
    P.finished (tr ++ [(s, i)]) = P.finished tr + (P.publishes s i).toNat := by
  simp only [finished, countP_append, countP_singleton]
  cases P.publishes s i <;> rfl

variable {tr : List (σ × ι)}

/-- Along a run from outside the writers' stores, each finished write has moved
the version by two, and one in progress by one more. -/
theorem version_run {s t : σ} (h : Run P.step s tr t)
    (hs : P.mid s = false) : P.version t = P.version s + BitVec.ofNat w (P.ticks tr t) := by
  induction h with
  | refl => simp [ticks, finished, hs]
  | @snoc tr t u i _ hstep ih =>
    simp only [ticks, finished_snoc] at ih ⊢
    cases ht : P.mid t <;> cases hu : P.mid u
    · obtain ⟨hp, hv, _⟩ := P.quiet t i u hstep ht hu
      rw [hv, ih, ht, hp]; rfl
    · obtain ⟨hp, hv, _⟩ := P.enter t i u hstep ht hu
      rw [hv, ih, ht, hp, BitVec.add_assoc]
      simp [BitVec.ofNat_add]
    · obtain ⟨hp, hv⟩ := P.leave t i u hstep ht hu
      rw [hv, ih, ht, hp, BitVec.add_assoc]
      congr 1
      simp only [Bool.toNat_true, Bool.toNat_false]
      rw [show 2 * (P.finished tr + 1) + 0 = (2 * P.finished tr + 1) + 1 by omega,
        BitVec.ofNat_add (2 * P.finished tr + 1) 1]
      rfl
    · obtain ⟨hp, hv⟩ := P.inside t i u hstep ht hu
      rw [hv, ih, ht, hp]; rfl

/-- On a run that starts outside with an even version, the version is odd
exactly while a writer is inside. -/
theorem mid_of_version {s t : σ} (hw : 0 < w) (h : Run P.step s tr t)
    (hs : P.mid s = false) (heven : (P.version s).toNat % 2 = 0) :
    (P.version t).toNat % 2 = (P.mid t).toNat := by
  obtain ⟨k, rfl⟩ : ∃ k, w = k + 1 := ⟨w - 1, by omega⟩
  rw [version_run h hs, BitVec.toNat_add, BitVec.toNat_ofNat, ticks, Nat.pow_succ]
  have hle := Bool.toNat_lt (P.mid t)
  rw [Nat.mod_mul_left_mod, Nat.add_mod, Nat.mod_mul_left_mod, heven]
  omega

/-- While no write has finished and no writer is inside, nothing has changed
since the start of the run. -/
theorem unchanged_of_none {s t : σ} (h : Run P.step s tr t)
    (hnone : P.finished tr = 0) (ht : P.mid t = false) :
    P.mem t = P.mem s ∧ ∀ p ∈ tr, P.mid p.1 = false ∧ P.mem p.1 = P.mem s := by
  induction h with
  | refl => exact ⟨rfl, fun p hp => absurd hp not_mem_nil⟩
  | @snoc tr t u i _ hstep ih =>
    rw [finished_snoc] at hnone
    cases hmid : P.mid t with
    | true =>
      obtain ⟨hp, _⟩ := P.leave t i u hstep hmid ht
      rw [hp] at hnone
      exact absurd hnone (by simp)
    | false =>
      obtain ⟨_, _, hmem⟩ := P.quiet t i u hstep hmid ht
      obtain ⟨hsame, hall⟩ := ih (Nat.eq_zero_of_add_eq_zero_right hnone) hmid
      refine ⟨hmem.trans hsame, fun p hp => ?_⟩
      rcases mem_append.mp hp with hp | hp
      · exact hall p hp
      · rw [mem_singleton] at hp; subst hp; exact ⟨hmid, hsame⟩

/-- Two equal versions, with no writer inside at either moment and fewer than
`2 ^ (w - 1)` writes finished in between: nothing was written in between. -/
theorem stable {s t : σ} (h : Run P.step s tr t)
    (hs : P.mid s = false) (ht : P.mid t = false) (hver : P.version t = P.version s)
    (hfew : P.finished tr < 2 ^ (w - 1)) :
    P.mem t = P.mem s ∧ ∀ p ∈ tr, P.mid p.1 = false ∧ P.mem p.1 = P.mem s := by
  refine unchanged_of_none h ?_ ht
  have hrun := version_run h hs
  rw [hver, ticks, ht] at hrun
  have hzero : BitVec.ofNat w (2 * P.finished tr) = 0#w := by
    have h0 := congrArg (fun v => v - P.version s) hrun
    simpa [BitVec.add_sub_cancel, BitVec.add_comm] using h0.symm
  have hmod : 2 * P.finished tr % 2 ^ w = 0 := by
    simpa using congrArg BitVec.toNat hzero
  cases w with
  | zero => simp at hfew; exact hfew
  | succ k =>
    rw [Nat.add_sub_cancel] at hfew
    rw [Nat.pow_succ, Nat.mod_eq_of_lt (by omega)] at hmod
    omega

end Protocol

end Seqlock
