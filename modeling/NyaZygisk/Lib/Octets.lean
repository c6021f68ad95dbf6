import NyaZygisk.Lib.LittleEndian
import Mathlib.Data.List.Infix

/-!
# Streams of octets and descriptors

What is in flight on a local stream socket: octets, some of which carry a descriptor. A reader may
find that the stream ends early. It then gets what is there, and nothing from then on.
-/

namespace Octets

open List LittleEndian

variable {δ : Type}

structure Octet (δ : Type) where
  byte : UInt8
  descriptor : Option δ

abbrev Stream (δ : Type) : Type := List (Octet δ)

/-- Octets without descriptors. -/
def plain (bs : List UInt8) : Stream δ := bs.map (⟨·, none⟩)

/-- A message of some octets that carries a descriptor, which goes with the first of them. -/
def passed (d : δ) : List UInt8 → Stream δ
  | [] => []
  | b :: bs => ⟨b, some d⟩ :: plain bs

/-- Reads up to `n` octets; descriptors are lost. -/
def readUpTo (n : Nat) (s : Stream δ) : List UInt8 × Stream δ := ((s.take n).map Octet.byte, s.drop n)

/-- Reads up to `n` octets for the descriptor that comes with them. -/
def receive (n : Nat) (s : Stream δ) : Option δ × Stream δ :=
  ((s.take n).findSome? Octet.descriptor, s.drop n)

@[simp] theorem length_plain (bs : List UInt8) : (plain bs : Stream δ).length = bs.length :=
  length_map _

@[simp] theorem length_passed (d : δ) (bs : List UInt8) : (passed d bs).length = bs.length := by
  cases bs with
  | nil => rfl
  | cons b bs => rw [passed, length_cons, length_plain, length_cons]

theorem map_byte_plain (bs : List UInt8) : (plain bs : Stream δ).map Octet.byte = bs := by
  simp [plain, Function.comp_def]

/-! ## Whole streams -/

variable {bs : List UInt8} {n : Nat} {s : Stream δ}

theorem readUpTo_plain (hn : bs.length = n) (rest : Stream δ) :
    readUpTo n (plain bs ++ rest) = (bs, rest) := by
  have hlength : (plain bs : Stream δ).length = n := by rw [length_plain, hn]
  rw [readUpTo, take_left' hlength, drop_left' hlength, map_byte_plain]

theorem receive_passed (hn : bs.length = n) (hne : bs ≠ []) (d : δ)
    (rest : Stream δ) : receive n (passed d bs ++ rest) = (some d, rest) := by
  have hlength : (passed d bs).length = n := by rw [length_passed, hn]
  rw [receive, take_left' hlength, drop_left' hlength]
  obtain ⟨b, bs, rfl⟩ := exists_cons_of_ne_nil hne
  rfl

/-- A reader that has got a part of `n` octets goes on for as many as are missing. -/
theorem readUpTo_resume {m : Nat} (hmn : m ≤ n) (s : Stream δ) :
    (readUpTo m s).1 ++ (readUpTo (n - (readUpTo m s).1.length) (s.drop m)).1 = (readUpTo n s).1 ∧
      (s.drop m).drop (n - (readUpTo m s).1.length) = s.drop n := by
  rcases Nat.lt_or_ge s.length m with hlt | hge
  · simp [readUpTo, drop_eq_nil_of_le hlt.le, take_of_length_le hlt.le,
      take_of_length_le (hlt.le.trans hmn), drop_eq_nil_of_le (hlt.le.trans hmn)]
  · obtain ⟨r, rfl⟩ := Nat.exists_eq_add_of_le hmn
    simp [readUpTo, take_add, Nat.min_eq_left hge]

/-! ## Streams that end early -/

/-- After the first `n` octets a stream that ends early is one that ends early in the rest. -/
theorem drop_of_cut {x rest : Stream δ} (h : s <+: x ++ rest) (hn : x.length = n) :
    s.drop n <+: rest := by
  have hdrop := h.drop n
  rwa [drop_left' hn] at hdrop

/-- A reader that has got all has got what was sent. -/
theorem readUpTo_of_cut {rest : Stream δ} (h : s <+: plain bs ++ rest)
    (hn : bs.length = n) (hall : n ≤ s.length) : (readUpTo n s).1 = bs := by
  have htake : s.take n = plain bs := by
    have hcut := h.take n
    rw [take_left' (by rw [length_plain, hn])] at hcut
    refine hcut.eq_of_length ?_
    rw [length_take, length_plain, hn, Nat.min_eq_left hall]
  rw [readUpTo, htake, map_byte_plain]

theorem le_length_of_drop_ne_nil (h : s.drop n ≠ []) : n ≤ s.length := by
  rcases Nat.lt_or_ge s.length n with hlt | hge
  · exact absurd (drop_eq_nil_of_le hlt.le) h
  · exact hge

/-- A descriptor that is received is the one that was sent. -/
theorem receive_of_cut {rest : Stream δ} {d e : δ}
    (h : s <+: passed d bs ++ rest) (hn : bs.length = n) (he : (receive n s).1 = some e) : e = d := by
  have hcut : s.take n <+: passed d bs := by
    have htake := h.take n
    rwa [take_left' (by rw [length_passed, hn])] at htake
  obtain ⟨o, ho, hoe⟩ := exists_of_findSome?_eq_some he
  have hmem := hcut.subset ho
  cases bs with
  | nil => cases hmem
  | cons b bs =>
    rcases mem_cons.mp hmem with rfl | hplain
    · exact (Option.some.inj hoe).symm
    · obtain ⟨c, -, rfl⟩ := mem_map.mp hplain
      cases hoe

theorem ne_nil_of_receive {e : δ} (he : (receive n s).1 = some e) : s ≠ [] := by
  rintro rfl
  rw [receive, take_nil] at he
  cases he

end Octets
