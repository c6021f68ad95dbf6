import Mathlib.Logic.Relation
import Mathlib.Tactic.ByContra

/-!
# Normal forms

What a deterministic relation ends in, and the loop that applies a function until nothing changes.
-/

namespace NormalForms

variable {α : Type}

/-- The relation leads from `a` to `b` and from there no further. -/
structure Ends (step : α → α → Prop) (a b : α) : Prop where
  leads : Relation.ReflTransGen step a b
  normal : ∀ c, ¬ step b c

namespace Ends

variable {step : α → α → Prop} {a b b' : α}

theorem head {a' : α} (hstep : step a a') (h : Ends step a' b) : Ends step a b :=
  ⟨.head hstep h.leads, h.normal⟩

theorem refl (h : ∀ c, ¬ step a c) : Ends step a a := ⟨.refl, h⟩

theorem unique (hstep : Relator.RightUnique step) (h : Ends step a b) (h' : Ends step a b') :
    b = b' := by
  rcases Relation.ReflTransGen.total_of_right_unique hstep h.leads h'.leads with hb | hb
  · rcases hb.cases_head with heq | ⟨c, hc, _⟩
    · exact heq
    · exact absurd hc (h.normal c)
  · rcases hb.cases_head with heq | ⟨c, hc, _⟩
    · exact heq.symm
    · exact absurd hc (h'.normal c)

/-- What every step leaves as it is, the end has too. -/
theorem preserves {P : α → Prop} (hstep : ∀ a b, step a b → (P a ↔ P b)) (h : Ends step a b) :
    P a ↔ P b := by
  have hleads := h.leads
  clear h
  induction hleads with
  | refl => rfl
  | tail _ hbc ih => exact ih.trans (hstep _ _ hbc)

end Ends

section

variable [DecidableEq α] (f : α → α)

/-- The function again and again, until it changes nothing or the fuel is used up. -/
def exhaust : Nat → α → α
  | 0, a => a
  | fuel + 1, a => if f a = a then a else exhaust fuel (f a)

variable {f}

/-- If each change makes the value smaller, enough fuel lets the loop come to its end. -/
theorem exhaust_fixed {size : α → Nat} (hsize : ∀ a, f a ≠ a → size (f a) < size a) {fuel : Nat}
    {a : α} (h : size a ≤ fuel) : f (exhaust f fuel a) = exhaust f fuel a := by
  induction fuel generalizing a with
  | zero =>
    by_contra hne
    exact Nat.not_lt_zero _ (Nat.lt_of_lt_of_le (hsize a hne) h)
  | succ fuel ih =>
    rw [exhaust]
    split
    · next heq => exact heq
    · next hne => exact ih (Nat.le_of_lt_succ (Nat.lt_of_lt_of_le (hsize a hne) h))

/-- What holds between a value and what one round makes of it holds for the whole loop. -/
theorem exhaust_rel {r : α → α → Prop} {P : α → Prop} (hrefl : ∀ a, r a a)
    (htrans : ∀ {a b c}, r a b → r b c → r a c) (hf : ∀ a, P a → r a (f a))
    (hP : ∀ a, P a → P (f a)) {fuel : Nat} {a : α} (h : P a) : r a (exhaust f fuel a) := by
  induction fuel generalizing a with
  | zero => exact hrefl a
  | succ fuel ih =>
    rw [exhaust]
    split
    · exact hrefl a
    · exact htrans (hf a h) (ih (hP a h))

end

end NormalForms
