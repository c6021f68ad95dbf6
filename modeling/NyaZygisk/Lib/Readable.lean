import Mathlib.Data.List.TakeWhile

/-!
# Memory that is readable in part

A memory has a value at each address that may be read. What reads at any other address has no
result; what has a result has read nothing else.
-/

namespace Readable

open List

variable {α : Type} {mem : Nat → Option α} {pos : Nat} {l : List α}

/-- The number of values that pass the test before the first that fails, of `left` at most. -/
def scan (p : α → Bool) (mem : Nat → Option α) : (left pos : Nat) → Option Nat
  | 0, _ => some 0
  | left + 1, pos => (mem pos).bind fun c => if p c then (scan p mem left (pos + 1)).map (· + 1) else some 0

def fetch (mem : Nat → Option α) (pos : Nat) : Nat → Option (List α)
  | 0 => some []
  | n + 1 => (mem pos).bind fun c => (fetch mem (pos + 1) n).map (c :: ·)

/-- What follows a reading that may also come to nothing. -/
def andThen {β : Type} : Option (Option α) → (α → Option (Option β)) → Option (Option β)
  | none, _ => none
  | some none, _ => some none
  | some (some a), next => next a

/-- These values are there to be read. -/
def Holds (mem : Nat → Option α) (pos : Nat) (l : List α) : Prop := ∀ i < l.length, mem (pos + i) = l[i]?

theorem Holds.head {c : α} (h : Holds mem pos (c :: l)) : mem pos = some c := h 0 (Nat.succ_pos _)

theorem Holds.drop (h : Holds mem pos l) (n : Nat) : Holds mem (pos + n) (l.drop n) := by
  intro i hi
  rw [length_drop] at hi
  rw [Nat.add_assoc, getElem?_drop]
  exact h (n + i) (Nat.add_lt_of_lt_sub' hi)

theorem Holds.tail {c : α} (h : Holds mem pos (c :: l)) : Holds mem (pos + 1) l := h.drop 1

theorem scan_eq (p : α → Bool) (h : Holds mem pos l) :
    scan p mem l.length pos = some (l.takeWhile p).length := by
  induction l generalizing pos with
  | nil => rfl
  | cons c l ih =>
    rw [length_cons, scan, h.head, Option.bind_some]
    split
    · next hc => rw [ih h.tail, takeWhile_cons_of_pos hc, Option.map_some, length_cons]
    · next hc => rw [takeWhile_cons_of_neg hc, length_nil]

theorem fetch_eq {n : Nat} (hn : n ≤ l.length) (h : Holds mem pos l) : fetch mem pos n = some (l.take n) := by
  induction n generalizing pos l with
  | zero => rfl
  | succ n ih =>
    cases l with
    | nil => exact absurd hn (Nat.not_succ_le_zero n)
    | cons c l =>
      rw [fetch, h.head, Option.bind_some, ih (Nat.le_of_succ_le_succ hn) h.tail, Option.map_some,
        take_succ_cons]

theorem andThen_eq {β : Type} {r : Option (Option α)} {next : α → Option (Option β)} {found : Option α}
    {rest : α → Option β} (hr : r = some found) (hnext : ∀ a, found = some a → next a = some (rest a)) :
    andThen r next = some (found.bind rest) := by
  subst hr
  cases found with
  | none => rfl
  | some a => exact hnext a rfl

end Readable
