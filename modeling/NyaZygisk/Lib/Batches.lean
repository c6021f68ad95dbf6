import Mathlib.Data.List.Basic

/-!
# A directory that is read in batches

Positions below a bound are visible or not. A call returns the visible ones from a position on, as
many as fit, and each is handled before the next call. Handling may change what is visible.
-/

namespace Batches

open List

variable {σ : Type} (visible : σ → Nat → Bool) (bound : Nat) (handle : σ → Nat → σ)

/-- What is visible from a position on. -/
def ahead (s : σ) (pos : Nat) : List Nat := (List.range' pos (bound - pos)).filter (visible s)

/-- Calls until one returns nothing; the call with number `n` returns up to `counts n` positions. -/
def loop (counts : Nat → Nat) : (fuel n pos : Nat) → σ → Option σ
  | 0, _, _, _ => none
  | fuel + 1, n, pos, s =>
    match (ahead visible bound s pos).take (counts n) with
    | [] => some s
    | p :: batch => loop counts fuel (n + 1) (batch.getLastD p + 1) ((p :: batch).foldl handle s)

variable {visible bound handle}

theorem ahead_cons {s : σ} {pos p : Nat} {rest : List Nat} (h : ahead visible bound s pos = p :: rest) :
    ahead visible bound s (p + 1) = rest ∧ pos ≤ p ∧ p < bound := by
  obtain ⟨n, hn⟩ : ∃ n, bound - pos = n := ⟨_, rfl⟩
  induction n generalizing pos with
  | zero =>
    rw [ahead, hn] at h
    cases h
  | succ n ih =>
    have hnext : bound - (pos + 1) = n := by rw [Nat.sub_add_eq, hn, Nat.add_sub_cancel]
    rw [ahead, hn, range'_succ, filter_cons] at h
    split at h
    · obtain ⟨rfl, rfl⟩ := cons_eq_cons.mp h
      refine ⟨by rw [ahead, hnext], Nat.le_refl _, ?_⟩
      exact Nat.lt_of_sub_pos (hn ▸ Nat.succ_pos n)
    · obtain ⟨hahead, hle, hlt⟩ := ih (by rw [ahead, hnext]; exact h) hnext
      exact ⟨hahead, Nat.le_of_succ_le hle, hlt⟩

theorem le_getLastD {s : σ} {pos p : Nat} {batch rest : List Nat}
    (h : ahead visible bound s pos = p :: (batch ++ rest)) : pos ≤ batch.getLastD p ∧
      batch.getLastD p < bound := by
  induction batch generalizing pos p with
  | nil => exact (ahead_cons h).2
  | cons q batch ih =>
    rw [getLastD_cons]
    obtain ⟨hahead, hle, -⟩ := ahead_cons h
    obtain ⟨hle', hlt⟩ := ih hahead
    exact ⟨Nat.le_trans hle (Nat.le_of_succ_le hle'), hlt⟩

section

variable (hframe : ∀ s p q, p < bound → p < q → visible (handle s p) q = visible s q)

include hframe in
theorem ahead_handle (s : σ) {p : Nat} (hp : p < bound) :
    ahead visible bound (handle s p) (p + 1) = ahead visible bound s (p + 1) := by
  refine filter_congr fun q hq => hframe s p q hp ?_
  exact (mem_range'_1.mp hq).1

include hframe in
theorem ahead_foldl {s : σ} {pos p : Nat} {batch rest : List Nat}
    (h : ahead visible bound s pos = p :: (batch ++ rest)) :
    ahead visible bound ((p :: batch).foldl handle s) (batch.getLastD p + 1) = rest := by
  induction batch generalizing s pos p with
  | nil =>
    obtain ⟨hrest, -, hp⟩ := ahead_cons h
    rw [foldl_cons, foldl_nil, getLastD_nil, ahead_handle hframe s hp]
    exact hrest
  | cons q batch ih =>
    obtain ⟨hrest, -, hp⟩ := ahead_cons h
    have hnext : ahead visible bound (handle s p) (p + 1) = q :: (batch ++ rest) := by
      rw [ahead_handle hframe s hp]
      exact hrest
    rw [foldl_cons, getLastD_cons]
    exact ih hnext

include hframe in
/-- If handling a position changes nothing above it, the calls come to what one pass over the
positions that were visible at the start comes to. -/
theorem loop_eq {counts : Nat → Nat} (hcounts : ∀ n, 0 < counts n) {fuel : Nat} (n : Nat) {pos : Nat}
    (hfuel : bound - pos < fuel) (s : σ) :
    loop visible bound handle counts fuel n pos s = some ((ahead visible bound s pos).foldl handle s) := by
  induction fuel generalizing n pos s with
  | zero => exact absurd hfuel (Nat.not_lt_zero _)
  | succ fuel ih =>
    rw [loop]
    cases hahead : ahead visible bound s pos with
    | nil => rw [take_nil]; rfl
    | cons p rest =>
      obtain ⟨k, hk⟩ := Nat.exists_eq_succ_of_ne_zero (Nat.ne_of_gt (hcounts n))
      rw [hk, take_succ_cons]
      have hsplit : ahead visible bound s pos = p :: (rest.take k ++ rest.drop k) := by
        rw [take_append_drop, hahead]
      obtain ⟨hle, hlt⟩ := le_getLastD hsplit
      dsimp only
      rw [ih (n + 1) (by omega), ahead_foldl hframe hsplit, ← foldl_append, cons_append,
        take_append_drop]

end

end Batches
