import Mathlib.Data.List.Perm.Subperm
import Mathlib.Logic.Relation
import Mathlib.Order.Preorder.Finite

/-!
# Detaching subtrees by their place

A tree of things, each at a place, several of them possibly at the same. Who wants a thing away
names its place, and the topmost thing there goes with all that hangs beneath it. Whether that hits
the things that were meant depends on what is stacked upon them.
-/

namespace Subtrees

open List

variable {α β : Type} {child : α → α → Prop} {place : α → β} {a b c r s : α}

/-- `b` is `a` or hangs beneath it. -/
abbrev Under (child : α → α → Prop) : α → α → Prop := Relation.ReflTransGen child

structure IsForest (child : α → α → Prop) : Prop where
  parent_unique : ∀ {a b c}, child a c → child b c → a = b
  antisymm : ∀ {a b}, Under child a b → Under child b a → a = b

/-- `s` hangs beneath no other of `meant`. -/
def IsRoot (child : α → α → Prop) (meant : List α) (s : α) : Prop :=
  s ∈ meant ∧ ∀ t ∈ meant, Under child t s → t = s

/-- Two things above the same one are one above the other. -/
theorem IsForest.under_or_under (h : IsForest child) (hac : Under child a c)
    (hbc : Under child b c) : Under child a b ∨ Under child b a := by
  have hunique : Relator.RightUnique (Function.swap child) := fun _ _ _ => h.parent_unique
  have hca : Under (Function.swap child) c a := Relation.reflTransGen_swap.mpr hac
  have hcb : Under (Function.swap child) c b := Relation.reflTransGen_swap.mpr hbc
  rcases hca.total_of_right_unique hunique hcb with hab | hba
  · exact .inr (Relation.reflTransGen_swap.mp hab)
  · exact .inl (Relation.reflTransGen_swap.mp hba)

theorem IsForest.exists_isRoot (h : IsForest child) {meant : List α} (hs : s ∈ meant) :
    ∃ r, IsRoot child meant r ∧ Under child r s := by
  let _ : PartialOrder α :=
    { le := Under child
      le_refl := fun _ => .refl
      le_trans := fun _ _ _ => .trans
      le_antisymm := fun _ _ => h.antisymm }
  obtain ⟨r, hle, hmin⟩ := (finite_toSet meant).exists_le_minimal hs
  exact ⟨r, ⟨hmin.1, fun t ht htr => h.antisymm htr (hmin.2 ht htr)⟩, hle⟩

/-! ## What is gone -/

/-- The things that went are those that were meant, with what hangs beneath them, exactly if each
root of these went itself and nothing else did. -/
theorem covered_iff (h : IsForest child) {meant gone : List α} :
    ((∀ s ∈ meant, ∃ a ∈ gone, Under child a s) ∧
      ∀ a ∈ gone, ∃ s ∈ meant, Under child s a) ↔
    (∀ s, IsRoot child meant s → s ∈ gone) ∧ ∀ a ∈ gone, ∃ s ∈ meant, Under child s a := by
  refine and_congr_left fun hmeant => ⟨fun hgone s hs => ?_, fun hroots s hs => ?_⟩
  · obtain ⟨a, ha, has⟩ := hgone s hs.1
    obtain ⟨t, ht, hta⟩ := hmeant a ha
    -- what went above a root is the root
    have hts : t = s := hs.2 t ht (hta.trans has)
    subst hts
    rwa [← h.antisymm has hta]
  · obtain ⟨r, hr, hrs⟩ := h.exists_isRoot hs
    exact ⟨r, hroots r hr, hrs⟩

/-- One after another went: each was still there, and topmost at its place. -/
structure Pops (child : α → α → Prop) (place : α → β) (all gone : List α) : Prop where
  attached : ∀ before a after, gone = before ++ a :: after → ∀ b ∈ before, ¬ Under child b a
  topmost : ∀ before a after, gone = before ++ a :: after → ∀ c ∈ all, place c = place a →
    Under child a c → c = a ∨ ∃ b ∈ before, Under child b c

/-- Things at one place are stacked: one hangs beneath the other, with only things of that place
between them. -/
structure Stacked (child : α → α → Prop) (place : α → β) (all : List α) : Prop where
  chain : ∀ {a b}, a ∈ all → b ∈ all → place a = place b → Under child a b ∨ Under child b a
  convex : ∀ {a b c}, Under child a b → Under child b c → place a = place c → place b = place a

variable {all gone meant : List α}

theorem Pops.nil : Pops child place all [] := by
  constructor <;> (intro before a after h; cases before <;> cases h)

/-- The first goes, and the others of what it leaves. -/
theorem Pops.cons {rest : List α} (htop : ∀ c ∈ all, place c = place a → Under child a c → c = a)
    (hrest : ∀ c ∈ all, ¬ Under child a c → c ∈ rest) (hgone : ∀ b ∈ gone, ¬ Under child a b)
    (h : Pops child place rest gone) : Pops child place all (a :: gone) where
  attached before b after hsplit := by
    cases before with
    | nil => exact nofun
    | cons first before =>
      obtain ⟨rfl, rfl⟩ := cons_eq_cons.mp hsplit
      intro d hd
      rcases mem_cons.mp hd with rfl | hd
      · exact hgone b (by simp)
      · exact h.attached before b after rfl d hd
  topmost before b after hsplit c hc hplace hbc := by
    cases before with
    | nil =>
      obtain ⟨rfl, rfl⟩ := cons_eq_cons.mp hsplit
      exact .inl (htop c hc hplace hbc)
    | cons first before =>
      obtain ⟨rfl, rfl⟩ := cons_eq_cons.mp hsplit
      rcases Classical.em (Under child a c) with hac | hac
      · exact .inr ⟨a, mem_cons_self, hac⟩
      · refine (h.topmost before b after rfl c (hrest c hc hac) hplace hbc).imp_right ?_
        rintro ⟨d, hd, hdc⟩
        exact ⟨d, mem_cons_of_mem a hd, hdc⟩

theorem Pops.nodup (h : Pops child place all gone) : gone.Nodup := by
  rw [nodup_iff_sublist]
  intro a hpair
  obtain ⟨before, after, rfl, ha, hafter⟩ := cons_sublist_iff.mp hpair
  rw [singleton_sublist] at hafter
  obtain ⟨l, m, rfl⟩ := append_of_mem hafter
  exact h.attached (before ++ l) a m (by simp) a (mem_append_left l ha) .refl

/-- What is stacked upon a thing went before it, one by one. -/
theorem Pops.mem_of_under (hforest : IsForest child) (hstack : Stacked child place all)
    (h : Pops child place all gone) (before after : List α) (a : α) (hgone : gone = before ++ a :: after)
    (hc : c ∈ all) (hplace : place c = place a) (hac : Under child a c) : c ∈ before ++ [a] := by
  rcases h.topmost before a after hgone c hc hplace hac with rfl | ⟨b, hb, hbc⟩
  · exact mem_append_right before (mem_singleton_self c)
  · -- `c` went with an earlier `b`, which is between `a` and `c` and so at their place
    have hab : Under child a b :=
      (hforest.under_or_under hac hbc).resolve_right (h.attached before a after hgone b hb)
    have hbplace : place b = place a := hstack.convex hab hbc hplace.symm
    obtain ⟨l, m, hsplit⟩ := append_of_mem hb
    have hearlier : l.length < before.length := by simp [hsplit]
    have hmem : c ∈ l ++ [b] := mem_of_under hforest hstack h l (m ++ a :: after) b
      (by rw [hgone, hsplit, append_assoc, cons_append]) hc (hplace.trans hbplace.symm) hbc
    have hsub : l ++ [b] ⊆ before ++ [a] := by simp [hsplit]
    exact hsub hmem
termination_by before.length

section Counting

variable [DecidableEq β]

/-- Two lists of different things, one within the other, that have as many things at every place,
have the same. -/
theorem mem_of_place_counts {l m : List α} (hnodup : l.Nodup)
    (hcount : (l.map place).Perm (m.map place)) {p : β} (hsub : ∀ x ∈ l, place x = p → x ∈ m)
    (hb : b ∈ m) (hp : place b = p) : b ∈ l := by
  have hsubset : l.filter (place · == p) ⊆ m.filter (place · == p) := by
    intro x hx
    obtain ⟨hxl, hxp⟩ := mem_filter.mp hx
    exact mem_filter.mpr ⟨hsub x hxl (beq_iff_eq.mp hxp), hxp⟩
  have hlength : (m.filter (place · == p)).length = (l.filter (place · == p)).length := by
    have hperm := (hcount.filter (· == p)).length_eq
    rw [filter_map, filter_map, length_map, length_map] at hperm
    exact hperm.symm
  have hperm := ((hnodup.filter _).subperm hsubset).perm_of_length_le hlength.le
  exact (mem_filter.mp (hperm.mem_iff.mpr (mem_filter.mpr ⟨hb, beq_iff_eq.mpr hp⟩))).1

/-- Of stacked things that are called away by their places, none goes that was not meant. -/
theorem Pops.exists_meant (hforest : IsForest child) (hstack : Stacked child place all)
    (h : Pops child place all gone) (hmeant : meant ⊆ all) (hgone : gone ⊆ all) (hnodup : meant.Nodup)
    (hcount : (meant.map place).Perm (gone.map place)) (ha : a ∈ gone) : ∃ s ∈ meant, Under child s a := by
  obtain ⟨t, ht, hplace⟩ : ∃ t ∈ meant, place t = place a :=
    mem_map.mp (hcount.mem_iff.mpr (mem_map_of_mem ha))
  obtain ⟨r, hr, hrt⟩ := hforest.exists_isRoot ht
  rcases hstack.chain (hgone ha) (hmeant ht) hplace.symm with hat | hta
  · rcases hforest.under_or_under hat hrt with har | hra
    · -- `a` is beneath the root in the stack, so all that was meant at the place went
      have hrplace : place r = place a := hstack.convex har hrt hplace.symm
      obtain ⟨before, after, hsplit⟩ := append_of_mem ha
      refine ⟨a, ?_, .refl⟩
      refine mem_of_place_counts hnodup hcount (fun x hx hxa => ?_) ha rfl
      have hrx : Under child r x := by
        rcases hstack.chain (hmeant hr.1) (hmeant hx) (hrplace.trans hxa.symm) with hrx | hxr
        · exact hrx
        · rw [hr.2 x hx hxr]
      have hmem := h.mem_of_under hforest hstack before after _ hsplit (hmeant hx) hxa (har.trans hrx)
      have hsub : before ++ [a] ⊆ gone := by simp [hsplit]
      exact hsub hmem
    · exact ⟨r, hr.1, hra⟩
  · exact ⟨t, ht, hta⟩

/-- All that was meant goes exactly if nothing else is stacked upon a root of it. -/
theorem Pops.roots_iff (hforest : IsForest child) (hstack : Stacked child place all)
    (h : Pops child place all gone) (hmeant : meant ⊆ all) (hgone : gone ⊆ all) (hnodup : meant.Nodup)
    (hcount : (meant.map place).Perm (gone.map place)) :
    (∀ s, IsRoot child meant s → s ∈ gone) ↔
      ∀ s, IsRoot child meant s → ∀ c ∈ all, place c = place s → Under child s c → c ∈ meant := by
  constructor
  · intro hroots s hs c hc hplace hsc
    obtain ⟨before, after, hsplit⟩ := append_of_mem (hroots s hs)
    have hsub : before ++ [s] ⊆ gone := by simp [hsplit]
    refine mem_of_place_counts hnodup hcount (fun x hx hxs => ?_)
      (hsub (h.mem_of_under hforest hstack before after _ hsplit hc hplace hsc)) hplace
    refine hsub (h.mem_of_under hforest hstack before after _ hsplit (hmeant hx) hxs ?_)
    rcases hstack.chain (hmeant hs.1) (hmeant hx) hxs.symm with hsx | hxs
    · exact hsx
    · rw [hs.2 x hx hxs]
  · intro hupon s hs
    refine mem_of_place_counts h.nodup hcount.symm (fun x hx hxs => ?_) hs.1 rfl
    -- what went at the place of a root is the root or stacked upon it
    refine hupon s hs x (hgone hx) hxs ?_
    rcases hstack.chain (hgone hx) (hmeant hs.1) hxs with hxs | hsx
    · obtain ⟨t, ht, htx⟩ := h.exists_meant hforest hstack hmeant hgone hnodup hcount hx
      rwa [hs.2 t ht (htx.trans hxs)] at htx
    · exact hsx

end Counting

end Subtrees
