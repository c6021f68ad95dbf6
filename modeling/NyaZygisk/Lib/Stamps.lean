import Mathlib.Data.List.Basic

/-!
# Files with stamps

A file that is created and replaced as a whole, with a stamp that it never had before. Who has
read a stamp first and the content afterwards knows which content stands under the stamp, as
long as the file still has it.
-/

namespace Stamps

variable {α : Type}

/-- The versions of a file, the latest first, each with its stamp; none before it is created. -/
structure History (α : Type) where
  versions : List (Nat × α)

namespace History

variable (h : History α)

def stamp : Option Nat := h.versions.head?.map Prod.fst

def content : Option α := h.versions.head?.map Prod.snd

def Fresh (m : Nat) : Prop := m ∉ h.versions.map Prod.fst

instance (m : Nat) : Decidable (h.Fresh m) := inferInstanceAs (Decidable (m ∉ _))

def put (m : Nat) (a : α) : History α := ⟨(m, a) :: h.versions⟩

/-- The stamp was read from the file at some time. -/
def Past (x : Option Nat) : Prop := ∀ m, x = some m → m ∈ h.versions.map Prod.fst

end History

variable {h : History α}

theorem past_stamp (h : History α) : h.Past h.stamp := by
  intro m hm
  obtain ⟨v, hv, rfl⟩ := Option.map_eq_some_iff.mp hm
  exact List.mem_map_of_mem (List.mem_of_mem_head? hv)

theorem past_none (h : History α) : h.Past none := nofun

theorem past_put {x : Option Nat} (hx : h.Past x) (m : Nat) (a : α) : (h.put m a).Past x :=
  fun n hn => List.mem_cons_of_mem _ (hx n hn)

/-- A new version has none of the stamps that were read before. -/
theorem ne_stamp_put {x : Option Nat} (hx : h.Past x) {m : Nat} (hm : h.Fresh m) (a : α) :
    x ≠ (h.put m a).stamp := by
  intro heq
  exact hm (hx m heq)

end Stamps
