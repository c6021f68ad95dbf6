import Mathlib.Data.List.Range
import Mathlib.Logic.Function.Basic

/-!
# Compaction in place

Cells of which some are live, and the loops that move the live ones to the front: skip those that
are in place already, then take out one cell after the other and put it back where the live cells
end so far.
-/

namespace Compaction

open List

variable {α : Type}

/-- The first of the next `left` cells that is not live, or the end of them. -/
def skip (live : α → Bool) (cells : Nat → α) : (left src : Nat) → Nat
  | 0, src => src
  | left + 1, src => if live (cells src) then skip live cells left (src + 1) else src

/-- Moves the live ones of the next `left` cells to `dst` and on. Also gives the end of them. -/
def shift (live : α → Bool) (blank : α) : (left src dst : Nat) → (Nat → α) → (Nat → α) × Nat
  | 0, _, dst, cells => (cells, dst)
  | left + 1, src, dst, cells =>
    let cell := cells src
    let cells := Function.update cells src blank
    if live cell then shift live blank left (src + 1) (dst + 1) (Function.update cells dst cell)
    else shift live blank left (src + 1) dst cells

def compact (live : α → Bool) (blank : α) (size : Nat) (cells : Nat → α) : (Nat → α) × Nat :=
  let src := skip live cells size 0
  shift live blank (size - src) src src cells

def below (cells : Nat → α) (n : Nat) : List α := (List.range n).map cells

theorem below_succ (cells : Nat → α) (n : Nat) : below cells (n + 1) = below cells n ++ [cells n] := by
  rw [below, range_succ, map_append, below, map_singleton]

theorem below_add (cells : Nat → α) (m n : Nat) :
    below cells (m + n) = below cells m ++ (List.range' m n).map cells := by
  rw [below, range_eq_range', ← range'_append_1, map_append, Nat.zero_add, below,
    range_eq_range']

theorem below_congr {cells cells' : Nat → α} {n : Nat} (h : ∀ i, i < n → cells' i = cells i) :
    below cells' n = below cells n :=
  map_congr_left fun i hi => h i (mem_range.mp hi)

theorem skip_spec (live : α → Bool) (cells : Nat → α) (left src : Nat) :
    src ≤ skip live cells left src ∧ skip live cells left src ≤ src + left ∧
      ∀ i, src ≤ i → i < skip live cells left src → live (cells i) = true := by
  induction left generalizing src with
  | zero => exact ⟨Nat.le_refl _, Nat.le_refl _, fun i hi hlt => absurd hlt (Nat.not_lt.mpr hi)⟩
  | succ left ih =>
    rw [skip]
    split
    case isTrue hlive =>
      obtain ⟨hle, hend, hall⟩ := ih (src + 1)
      refine ⟨Nat.le_of_succ_le hle, Nat.le_trans hend (by rw [Nat.add_right_comm, Nat.add_assoc]), ?_⟩
      intro i hi hlt
      rcases Nat.eq_or_lt_of_le hi with rfl | hi
      · exact hlive
      · exact hall i hi hlt
    case isFalse =>
      exact ⟨Nat.le_refl _, Nat.le_add_right _ _, fun i hi hlt => absurd hlt (Nat.not_lt.mpr hi)⟩

/-- The cells that a round leaves for the next ones are as they were. -/
theorem map_range'_congr {cells cells' : Nat → α} {src left : Nat}
    (h : ∀ i, src ≤ i → cells' i = cells i) :
    (List.range' src left).map cells' = (List.range' src left).map cells :=
  map_congr_left fun i hi => h i (mem_range'_1.mp hi).1

/-- What `shift` leaves: the live cells after those below `dst`, blanks up to the end of the cells
it went over, and the cells after that. -/
structure Shifted (live : α → Bool) (blank : α) (left src dst : Nat) (cells : Nat → α)
    (r : (Nat → α) × Nat) : Prop where
  kept : below r.1 r.2 = below cells dst ++ ((List.range' src left).map cells).filter live
  blank : ∀ i, r.2 ≤ i → i < src + left → r.1 i = blank
  rest : ∀ i, src + left ≤ i → r.1 i = cells i

section Rounds

variable {live : α → Bool} {blank : α} {left src dst : Nat} {cells : Nat → α} {r : (Nat → α) × Nat}

/-- A round leaves the cells after `src` as they were, and has moved the one it took if that is live. -/
theorem Shifted.of_round {dst' : Nat} {cells' : Nat → α} (hafter : ∀ i, src + 1 ≤ i → cells' i = cells i)
    (hbelow : below cells' dst' = below cells dst ++ [cells src].filter live)
    (h : Shifted live blank left (src + 1) dst' cells' r) :
    Shifted live blank (left + 1) src dst cells r := by
  have hend : src + 1 + left = src + (left + 1) := Nat.succ_add_eq_add_succ src left
  obtain ⟨hkept, hblank, hrest⟩ := h
  rw [hend] at hblank hrest
  refine ⟨?_, hblank, fun i hi => ?_⟩
  · rw [hkept, hbelow, map_range'_congr hafter, range'_succ, map_cons, append_assoc,
      ← filter_append, singleton_append]
  · rw [hrest i hi]
    exact hafter i (Nat.le_trans (Nat.le_add_right (src + 1) left) (hend ▸ hi))

theorem blank_update (hgap : ∀ i, dst ≤ i → i < src → cells i = blank) :
    ∀ i, dst ≤ i → i < src + 1 → Function.update cells src blank i = blank := by
  intro i hi hlt
  rcases Nat.eq_or_lt_of_le (Nat.le_of_lt_succ hlt) with rfl | hlt
  · exact Function.update_self ..
  · rw [Function.update_of_ne (Nat.ne_of_lt hlt)]
    exact hgap i hi hlt

end Rounds

/-- The invariant of the loop: between `dst` and `src` there are blanks only. -/
theorem shift_spec (live : α → Bool) (blank : α) (left src dst : Nat) (cells : Nat → α)
    (hle : dst ≤ src)
    (hgap : ∀ i, dst ≤ i → i < src → cells i = blank) :
    Shifted live blank left src dst cells (shift live blank left src dst cells) := by
  induction left generalizing src dst cells with
  | zero =>
    refine ⟨?_, hgap, fun _ _ => rfl⟩
    rw [shift, range'_zero, map_nil, filter_nil, append_nil]
  | succ left ih =>
    have hgap' := blank_update hgap
    have hbelow : below (Function.update cells src blank) dst = below cells dst :=
      below_congr fun i hi => Function.update_of_ne (Nat.ne_of_lt (Nat.lt_of_lt_of_le hi hle)) _ _
    have hafter : ∀ i, src + 1 ≤ i → Function.update cells src blank i = cells i :=
      fun i hi => Function.update_of_ne (Nat.ne_of_gt hi) _ _
    rw [shift]
    split
    case isTrue hlive =>
      -- `dst` may be the place that the cell was taken from
      refine .of_round (fun i hi => ?_) ?_ (ih _ _ _ (Nat.succ_le_succ hle) fun i hi hlt => ?_)
      · rw [Function.update_of_ne (Nat.ne_of_gt (Nat.lt_of_le_of_lt hle hi)), hafter i hi]
      · rw [below_succ, Function.update_self, filter_cons_of_pos hlive, filter_nil, ← hbelow]
        exact congrArg (· ++ _) (below_congr fun i hi => Function.update_of_ne (Nat.ne_of_lt hi) _ _)
      · rw [Function.update_of_ne (Nat.ne_of_gt hi)]
        exact hgap' i (Nat.le_of_succ_le hi) hlt
    case isFalse hdead =>
      refine .of_round hafter ?_ (ih _ _ _ (Nat.le_succ_of_le hle) hgap')
      rw [hbelow, filter_cons_of_neg hdead, filter_nil, append_nil]

structure Compacted (live : α → Bool) (blank : α) (size : Nat) (cells : Nat → α)
    (r : (Nat → α) × Nat) : Prop where
  kept : below r.1 r.2 = (below cells size).filter live
  blank : ∀ i, r.2 ≤ i → i < size → r.1 i = blank
  rest : ∀ i, size ≤ i → r.1 i = cells i

/-- The live cells in their order, then blank ones, and nothing else changed. -/
theorem compact_spec (live : α → Bool) (blank : α) (size : Nat) (cells : Nat → α) :
    Compacted live blank size cells (compact live blank size cells) := by
  obtain ⟨-, hend, hlive⟩ := skip_spec live cells size 0
  rw [compact]
  generalize skip live cells size 0 = k at hend hlive ⊢
  rw [Nat.zero_add] at hend
  have hsum : k + (size - k) = size := Nat.add_sub_cancel' hend
  have hskipped : (below cells k).filter live = below cells k := by
    refine filter_eq_self.mpr fun cell hcell => ?_
    obtain ⟨i, hi, rfl⟩ := mem_map.mp hcell
    exact hlive i (Nat.zero_le i) (mem_range.mp hi)
  obtain ⟨hkept, hblank, hrest⟩ := shift_spec live blank (size - k) k k cells (Nat.le_refl k)
    (fun i hi hlt => absurd hlt (Nat.not_lt.mpr hi))
  rw [hsum] at hblank hrest
  refine ⟨?_, hblank, hrest⟩
  calc below (shift live blank (size - k) k k cells).1 (shift live blank (size - k) k k cells).2
      = below cells k ++ ((List.range' k (size - k)).map cells).filter live := hkept
    _ = (below cells (k + (size - k))).filter live := by rw [below_add, filter_append, hskipped]
    _ = (below cells size).filter live := by rw [hsum]

theorem compact_end (live : α → Bool) (blank : α) (size : Nat) (cells : Nat → α) :
    (compact live blank size cells).2 = ((below cells size).filter live).length := by
  rw [← (compact_spec live blank size cells).kept, below, length_map, length_range]

theorem compact_end_le (live : α → Bool) (blank : α) (size : Nat) (cells : Nat → α) :
    (compact live blank size cells).2 ≤ size := by
  rw [compact_end]
  refine Nat.le_trans (length_filter_le _ _) ?_
  rw [below, length_map, length_range]

end Compaction
