import Mathlib.Data.List.Chain
import Mathlib.Data.List.Infix

/-!
# The last run of a list

The last run of a list is its longest end in which each element is in a relation to the next, as
the last ones of a history that follow each other closely.
-/

namespace LastRun

open List

variable {α : Type} {R : α → α → Prop} {l run run' : List α} {x last : α}

structure IsLastRun (R : α → α → Prop) (l run : List α) : Prop where
  isEnd : run <:+ l
  chain : run.IsChain R
  longest : ∀ other, other <:+ l → other.IsChain R → other.length ≤ run.length

theorem IsLastRun.length_eq (h : IsLastRun R l run) (h' : IsLastRun R l run') :
    run.length = run'.length :=
  Nat.le_antisymm (h'.longest run h.isEnd h.chain) (h.longest run' h'.isEnd h'.chain)

theorem isLastRun_nil : IsLastRun R [] [] := by
  refine ⟨suffix_rfl, .nil, fun other h _ => ?_⟩
  rw [suffix_nil.mp h]

theorem getLast?_of_suffix (h : run <:+ l) (hmem : last ∈ run.getLast?) : last ∈ l.getLast? := by
  obtain ⟨before, rfl⟩ := h
  rw [getLast?_append, Option.mem_def.mp hmem]
  rfl

/-- It is longer by an element that is in the relation to the last one. -/
theorem IsLastRun.snoc (h : IsLastRun R l run) (hx : ∀ last ∈ l.getLast?, R last x) :
    IsLastRun R (l ++ [x]) (run ++ [x]) := by
  refine ⟨?_, ?_, ?_⟩
  · obtain ⟨before, rfl⟩ := h.isEnd
    exact ⟨before, (append_assoc _ _ _).symm⟩
  · refine isChain_append.mpr ⟨h.chain, .singleton x, fun a ha b hb => ?_⟩
    cases hb
    exact hx a (getLast?_of_suffix h.isEnd ha)
  · intro other hother hchain
    rcases suffix_concat_iff.mp hother with rfl | ⟨rest, rfl, hrest⟩
    · exact Nat.zero_le _
    · have hlength := h.longest rest hrest hchain.left_of_append
      rw [length_append, length_append]
      exact Nat.add_le_add_right hlength _

/-- It begins again with an element that is not. -/
theorem isLastRun_snoc_of_not (hlast : last ∈ l.getLast?) (hnot : ¬ R last x) :
    IsLastRun R (l ++ [x]) [x] := by
  refine ⟨⟨l, rfl⟩, .singleton x, ?_⟩
  intro other hother hchain
  rcases suffix_concat_iff.mp hother with rfl | ⟨rest, rfl, hrest⟩
  · exact Nat.zero_le _
  · cases hend : rest.getLast? with
    | none =>
      rw [getLast?_eq_none_iff] at hend
      rw [hend]
      rfl
    | some a =>
      have heq := (getLast?_of_suffix hrest hend).symm.trans hlast
      cases heq
      exact absurd ((isChain_append.mp hchain).2.2 last hend x rfl) hnot

end LastRun
