import Mathlib

/-!
# Labelled intervals in order

Half-open intervals come in the order of their starts. Each is cut to what lies behind all before
it, and joined to the last one if it touches it with the same label. What results is a list of
disjoint intervals in which every point has the label of the first interval that covers it.
-/

namespace Intervals

open List

structure Interval (α β : Type) where
  start : α
  stop : α
  label : β
deriving DecidableEq

variable {α β : Type} [LinearOrder α]

def Interval.Covers (r : Interval α β) (a : α) : Prop := r.start ≤ a ∧ a < r.stop

instance (r : Interval α β) (a : α) : Decidable (r.Covers a) := by unfold Interval.Covers; infer_instance

/-- One interval after another, with a gap between them or another label. -/
def Before (r s : Interval α β) : Prop := r.stop < s.start ∨ r.stop = s.start ∧ r.label ≠ s.label

/-- The interval without what ends before `last` does. -/
def trimmed (last r : Interval α β) :
    Interval α β := if r.start < last.stop then { r with start := last.stop } else r

/-- One more interval for a result whose last one comes first. -/
def push [DecidableEq β] (out : List (Interval α β)) (r : Interval α β) : List (Interval α β) :=
  match out with
  | [] => if r.stop ≤ r.start then [] else [r]
  | last :: rest =>
    let r := trimmed last r
    if r.stop ≤ r.start then out
    else if last.stop = r.start ∧ last.label = r.label then { last with stop := r.stop } :: rest
    else r :: out

theorem Before.le {r s : Interval α β} (h : Before r s) : r.stop ≤ s.start := h.elim le_of_lt fun h => h.1.le

/-! ## What a push does -/

theorem trimmed_spec (last r : Interval α β) :
    (trimmed last r).stop = r.stop ∧ (trimmed last r).label = r.label ∧ last.stop ≤ (trimmed last r).start ∧
      ∀ a, (trimmed last r).Covers a ↔ r.Covers a ∧ last.stop ≤ a := by
  unfold trimmed Interval.Covers
  split
  · next h =>
    refine ⟨rfl, rfl, le_rfl, fun a => ?_⟩
    exact ⟨fun ⟨hle, hlt⟩ => ⟨⟨(h.trans_le hle).le, hlt⟩, hle⟩, fun ⟨⟨_, hlt⟩, hle⟩ => ⟨hle, hlt⟩⟩
  · next h =>
    refine ⟨rfl, rfl, not_lt.mp h, fun a => ?_⟩
    exact ⟨fun hcovers => ⟨hcovers, (not_lt.mp h).trans hcovers.1⟩, And.left⟩

/-- The result so far: it is in order, its points are those of the intervals that have come, each
with the label of the first one that covers it, and it ends with the latest end. -/
structure Reflects (out come : List (Interval α β)) : Prop where
  nonempty : ∀ r ∈ out, r.start < r.stop
  ordered : out.Pairwise fun s r => Before r s
  labels : ∀ a l, (∃ r ∈ out, r.Covers a ∧ r.label = l) ↔ ∃ r, come.find? (·.Covers a) = some r ∧ r.label = l
  last : match out with
    | [] => come = []
    | last :: _ => (∃ r ∈ come, r.stop = last.stop) ∧ ∀ r ∈ come, r.stop ≤ last.stop

theorem Reflects.nil : Reflects ([] : List (Interval α β)) [] where
  nonempty := nofun
  ordered := .nil
  labels := fun _ _ => iff_of_false nofun nofun
  last := rfl

section

variable [DecidableEq β] {last r : Interval α β} {rest come : List (Interval α β)}

theorem push_cases (last r : Interval α β) (rest : List (Interval α β)) :
    r.stop ≤ (trimmed last r).start ∧ push (last :: rest) r = last :: rest ∨
    (trimmed last r).start < r.stop ∧ last.stop = (trimmed last r).start ∧ last.label = r.label ∧
      push (last :: rest) r = { last with stop := r.stop } :: rest ∨
    (trimmed last r).start < r.stop ∧ Before last (trimmed last r) ∧
      push (last :: rest) r = trimmed last r :: last :: rest := by
  obtain ⟨hstop, hlabel, hle, -⟩ := trimmed_spec last r
  unfold push
  simp only [hstop, hlabel]
  split
  · next h => exact .inl ⟨h, rfl⟩
  · next h =>
    have hlt := not_le.mp h
    split
    · next htouch => exact .inr (.inl ⟨hlt, htouch.1, htouch.2, rfl⟩)
    · next htouch =>
      refine .inr (.inr ⟨hlt, ?_, rfl⟩)
      rcases lt_or_eq_of_le hle with hgap | heq
      · exact .inl hgap
      · exact .inr ⟨heq, fun hsame => htouch ⟨heq, hsame.trans hlabel⟩⟩

/-- A push adds the points of the cut interval. -/
theorem labels_push (hlast : last.start < last.stop) (a : α) (l : β) :
    (∃ s ∈ push (last :: rest) r, s.Covers a ∧ s.label = l) ↔
      (∃ s ∈ last :: rest, s.Covers a ∧ s.label = l) ∨ (r.Covers a ∧ last.stop ≤ a ∧ r.label = l) := by
  obtain ⟨hstop, hlabel, -, hcovers⟩ := trimmed_spec last r
  have hpoints : (r.Covers a ∧ last.stop ≤ a ∧ r.label = l) ↔ (trimmed last r).Covers a ∧ r.label = l := by
    rw [hcovers, and_assoc]
  rw [hpoints]
  rcases push_cases last r rest with ⟨hempty, h⟩ | ⟨hlt, htouch, hsame, h⟩ | ⟨hlt, -, h⟩
  · rw [h, or_iff_left]
    rintro ⟨⟨hle, hlt⟩, -⟩
    exact absurd (hempty.trans hle) (not_le.mpr (hstop ▸ hlt))
  · have hjoined : ({ last with stop := r.stop } : Interval α β).Covers a ↔
        last.Covers a ∨ (trimmed last r).Covers a := by
      unfold Interval.Covers
      rw [hstop, ← htouch]
      constructor
      · rintro ⟨hle, hltr⟩
        exact (lt_or_ge a last.stop).imp (fun h => ⟨hle, h⟩) fun h => ⟨h, hltr⟩
      · rintro (⟨hle, hlta⟩ | ⟨hle, hlta⟩)
        · exact ⟨hle, hlta.trans (htouch ▸ hlt)⟩
        · exact ⟨hlast.le.trans hle, hlta⟩
    rw [h, exists_mem_cons_iff, exists_mem_cons_iff, hjoined, or_and_right, hsame]
    exact or_right_comm
  · rw [h, exists_mem_cons_iff, hlabel, or_comm]

theorem nonempty_push (hout : ∀ s ∈ last :: rest, s.start < s.stop) :
    ∀ s ∈ push (last :: rest) r, s.start < s.stop := by
  obtain ⟨hlast, hrest⟩ := forall_mem_cons.mp hout
  obtain ⟨hstop, -, hle, -⟩ := trimmed_spec last r
  rcases push_cases last r rest with ⟨-, h⟩ | ⟨hlt, htouch, -, h⟩ | ⟨hlt, -, h⟩
  · rwa [h]
  · rw [h]
    exact forall_mem_cons.mpr ⟨(hlast.trans_le hle).trans hlt, hrest⟩
  · rw [h]
    exact forall_mem_cons.mpr ⟨hstop.symm ▸ hlt, hout⟩

theorem ordered_push (hlast : last.start < last.stop) (hout : (last :: rest).Pairwise fun s r => Before r s) :
    (push (last :: rest) r).Pairwise fun s r => Before r s := by
  obtain ⟨hbefore, hrest⟩ := pairwise_cons.mp hout
  rcases push_cases last r rest with ⟨-, h⟩ | ⟨-, -, -, h⟩ | ⟨-, hafter, h⟩
  · rwa [h]
  · rw [h]
    exact pairwise_cons.mpr ⟨hbefore, hrest⟩
  · rw [h]
    refine pairwise_cons.mpr ⟨forall_mem_cons.mpr ⟨hafter, fun s hs => .inl ?_⟩, hout⟩
    exact ((hbefore s hs).le.trans_lt hlast).trans_le hafter.le

theorem latest_push (hr : r.start < r.stop) (rest : List (Interval α β))
    (hlatest : (∃ s ∈ come, s.stop = last.stop) ∧ ∀ s ∈ come, s.stop ≤ last.stop) :
    ∃ last' rest', push (last :: rest) r = last' :: rest' ∧
      (∃ s ∈ come ++ [r], s.stop = last'.stop) ∧ ∀ s ∈ come ++ [r], s.stop ≤ last'.stop := by
  obtain ⟨⟨s, hs, hstop⟩, hall⟩ := hlatest
  obtain ⟨htrim, -, hle, -⟩ := trimmed_spec last r
  have hself : r ∈ come ++ [r] := mem_append_right come (mem_singleton_self r)
  have hupto : ∀ {stop : α}, last.stop ≤ stop → r.stop ≤ stop → ∀ s ∈ come ++ [r], s.stop ≤ stop := by
    intro stop hlast hr s hs
    rcases mem_append.mp hs with hs | hs
    · exact (hall s hs).trans hlast
    · exact mem_singleton.mp hs ▸ hr
  rcases push_cases last r rest with ⟨hempty, h⟩ | ⟨hlt, -, -, h⟩ | ⟨hlt, -, h⟩
  · refine ⟨last, rest, h, ⟨s, mem_append_left _ hs, hstop⟩, hupto le_rfl ?_⟩
    unfold trimmed at hempty
    split at hempty
    · exact hempty
    · exact absurd hr (not_lt.mpr hempty)
  · exact ⟨_, rest, h, ⟨r, hself, rfl⟩, hupto (hle.trans hlt.le) le_rfl⟩
  · exact ⟨_, _, h, ⟨r, hself, htrim.symm⟩, hupto ((hle.trans hlt.le).trans htrim.ge) htrim.ge⟩

end

variable {come : List (Interval α β)}

theorem exists_find?_concat {r : Interval α β} {a : α} {l : β} :
    (∃ s, (come ++ [r]).find? (·.Covers a) = some s ∧ s.label = l) ↔
      (∃ s, come.find? (·.Covers a) = some s ∧ s.label = l) ∨
        ((∀ s ∈ come, ¬ s.Covers a) ∧ r.Covers a) ∧ r.label = l := by
  rw [find?_append]
  cases hfind : come.find? (·.Covers a) with
  | some s =>
    have hs := find?_some hfind
    have hcovers : ¬ ∀ s ∈ come, ¬ s.Covers a := fun h =>
      h s (mem_of_find?_eq_some hfind) (of_decide_eq_true hs)
    rw [Option.some_or, or_iff_left fun h => hcovers h.1.1]
  | none =>
    have hcovers : ∀ s ∈ come, ¬ s.Covers a := fun s hs h =>
      find?_eq_none.mp hfind s hs (decide_eq_true h)
    rw [Option.none_or, or_iff_right (by rintro ⟨s, h, -⟩; cases h), and_iff_right hcovers, find?_singleton]
    by_cases hr : r.Covers a
    · simp only [hr, decide_true, if_true, Option.some.injEq, exists_eq_left', true_and]
    · simp only [hr, decide_false, Bool.false_eq_true, if_false, reduceCtorEq, false_and, exists_false]

theorem Reflects.push [DecidableEq β] {out : List (Interval α β)} {r : Interval α β} (h : Reflects out come)
    (hr : r.start < r.stop) (hsorted : ∀ s ∈ come, s.start ≤ r.start) :
    Reflects (Intervals.push out r) (come ++ [r]) := by
  cases out with
  | nil =>
    have hcome : come = [] := h.last
    have hpush : Intervals.push [] r = [r] := if_neg (not_le.mpr hr)
    subst hcome
    rw [hpush]
    refine ⟨forall_mem_singleton.mpr hr, pairwise_singleton _ _, fun a l => ?_, ?_⟩
    · rw [exists_find?_concat, ← h.labels, exists_mem_cons_iff, or_comm, and_iff_right (forall_mem_nil _)]
    · exact ⟨⟨r, mem_singleton_self r, rfl⟩, forall_mem_singleton.mpr le_rfl⟩
  | cons last rest =>
    obtain ⟨hlast, hrest⟩ := forall_mem_cons.mp h.nonempty
    obtain ⟨⟨t, ht, htstop⟩, hall⟩ := h.last
    refine ⟨nonempty_push h.nonempty, ordered_push hlast h.ordered, fun a l => ?_, ?_⟩
    · rw [labels_push hlast, h.labels, exists_find?_concat, ← and_assoc]
      refine or_congr_right (and_congr_left fun _ => ?_)
      constructor
      · rintro ⟨hcovers, hle⟩
        exact ⟨fun s hs hs' => absurd (hs'.2.trans_le ((hall s hs).trans hle)) (lt_irrefl a), hcovers⟩
      · rintro ⟨hnone, hcovers⟩
        refine ⟨hcovers, not_lt.mp fun hlt => hnone t ht ⟨(hsorted t ht).trans hcovers.1, ?_⟩⟩
        exact htstop ▸ hlt
    · obtain ⟨last', rest', hpush, hlatest⟩ := latest_push hr rest h.last
      rw [hpush]
      exact hlatest

/-- The result for intervals in the order of their starts. -/
theorem reflects_foldl [DecidableEq β] (hne : ∀ r ∈ come, r.start < r.stop)
    (hsorted : come.Pairwise fun s r => s.start ≤ r.start) : Reflects (come.foldl Intervals.push [])
      come := by
  induction come using List.reverseRecOn with
  | nil => exact .nil
  | append_singleton come r ih =>
    obtain ⟨hcome, -, hlast⟩ := pairwise_append.mp hsorted
    rw [foldl_concat]
    refine (ih (fun s hs => hne s (mem_append_left _ hs)) hcome).push
      (hne r (mem_append_right _ (mem_singleton_self r))) fun s hs => ?_
    exact hlast s hs r (mem_singleton_self r)

end Intervals
