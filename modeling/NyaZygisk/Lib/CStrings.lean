import Mathlib.Data.List.TakeWhile

/-!
# Strings that end with a NUL
-/

namespace CStrings

variable {α : Type} [DecidableEq α] {nul : α} {text : List α}

/-- The characters up to the first NUL. -/
def cString (nul : α) (text : List α) : List α := text.takeWhile (· ≠ nul)

theorem cString_eq_self_iff : cString nul text = text ↔ nul ∉ text := by
  rw [cString, List.takeWhile_eq_self_iff]
  simp only [decide_eq_true_eq]
  exact ⟨fun h hmem => h nul hmem rfl, fun h c hc heq => h (heq ▸ hc)⟩

theorem cString_eq_self (h : nul ∉ text) : cString nul text = text := cString_eq_self_iff.mpr h

def ascii (text : String) : List UInt8 := text.toList.map fun c => UInt8.ofNat c.toNat

end CStrings
