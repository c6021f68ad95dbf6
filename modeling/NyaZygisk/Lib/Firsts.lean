import Mathlib.Data.List.Nodup
import Mathlib.Data.List.Induction

/-!
# The first item of each key

Items come one after another, and an item is dropped if an earlier one had its key.
-/

namespace Firsts

open List

variable {α κ : Type} [DecidableEq κ] (key : α → κ)

def add (kept : List α) (a : α) : List α := if key a ∈ kept.map key then kept else kept ++ [a]

def firsts (items : List α) : List α := items.foldl (add key) []

variable {key}

theorem firsts_concat (items : List α) (a : α) : firsts key (items ++ [a]) = add key (firsts key items) a :=
  foldl_concat ..

theorem mem_map_firsts {items : List α} {k : κ} : k ∈ (firsts key items).map key ↔ k ∈ items.map key := by
  induction items using List.reverseRecOn with
  | nil => exact Iff.rfl
  | append_singleton items a ih =>
    rw [firsts_concat, add, map_append, mem_append, ← ih]
    split
    · next hold =>
      refine ⟨.inl, fun h => h.elim id fun hk => ?_⟩
      rw [map_singleton, mem_singleton] at hk
      exact hk ▸ hold
    · rw [map_append, mem_append]

theorem nodup_map_firsts (items : List α) : ((firsts key items).map key).Nodup := by
  induction items using List.reverseRecOn with
  | nil => exact nodup_nil
  | append_singleton items a ih =>
    rw [firsts_concat, add]
    split
    · exact ih
    · next hnew =>
      rw [map_append, map_singleton, ← concat_eq_append]
      exact ih.concat hnew

theorem exists_split_concat {β : Type} {l : List β} {a b : β} {P : List β → Prop} :
    (∃ before after, l ++ [b] = before ++ a :: after ∧ P before) ↔
      (∃ before after, l = before ++ a :: after ∧ P before) ∨ a = b ∧ P l := by
  constructor
  · rintro ⟨before, after, h, hP⟩
    rcases eq_nil_or_concat after with rfl | ⟨after, c, rfl⟩
    · obtain ⟨rfl, hlast⟩ := append_inj' h rfl
      exact .inr ⟨(singleton_inj.mp hlast).symm, hP⟩
    · rw [concat_eq_append, ← cons_append, ← append_assoc] at h
      obtain ⟨rfl, -⟩ := append_inj' h rfl
      exact .inl ⟨before, after, rfl, hP⟩
  · rintro (⟨before, after, rfl, hP⟩ | ⟨rfl, hP⟩)
    · exact ⟨before, after ++ [b], by rw [append_assoc, cons_append], hP⟩
    · exact ⟨l, [], rfl, hP⟩

theorem not_exists_split_nil {β : Type} {a : β} {P : List β → Prop} :
    ¬ ∃ before after, [] = before ++ a :: after ∧ P before := by
  rintro ⟨before, after, h, -⟩
  exact cons_ne_nil _ _ (append_eq_nil_iff.mp h.symm).2

/-- What is kept is what had no item of its key before it. -/
theorem mem_firsts_iff {items : List α} {a : α} :
    a ∈ firsts key items ↔ ∃ before after, items = before ++ a :: after ∧ key a ∉ before.map key := by
  induction items using List.reverseRecOn with
  | nil => exact iff_of_false not_mem_nil not_exists_split_nil
  | append_singleton items b ih =>
    have hkeep : a ∈ firsts key (items ++ [b]) ↔ a ∈ firsts key items ∨ (a = b ∧ key a ∉ items.map key) := by
      rw [firsts_concat, add]
      split
      · next hold =>
        refine ⟨.inl, fun h => h.elim id ?_⟩
        rintro ⟨rfl, hnew⟩
        exact absurd (mem_map_firsts.mp hold) hnew
      · next hnew =>
        rw [mem_append, mem_singleton]
        exact or_congr_right ⟨fun h => ⟨h, h ▸ mt mem_map_firsts.mpr hnew⟩, And.left⟩
    rw [hkeep, ih, exists_split_concat]

end Firsts
