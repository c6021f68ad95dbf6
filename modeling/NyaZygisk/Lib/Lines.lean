import Mathlib.Data.List.Basic

/-!
# Lines

A text as lines that a separator ends, and the two ways to read it: line by line, and through a
buffer of fixed size, which cuts a long line into pieces.
-/

namespace Lines

open List

variable {α : Type}

/-- The text of these lines. -/
def render (sep : α) (ls : List (List α)) : List α := ls.flatMap (· ++ [sep])

@[simp] theorem render_nil (sep : α) : render sep [] = [] := rfl

@[simp] theorem render_cons (sep : α) (l : List α) (ls : List (List α)) :
    render sep (l :: ls) = l ++ sep :: render sep ls := by
  simp [render]

theorem render_append (sep : α) (ls ls' : List (List α)) :
    render sep (ls ++ ls') = render sep ls ++ render sep ls' := flatMap_append

/-- One more line in a text, with a separator before it unless it is the first. -/
def addLine [DecidableEq α] (sep : α) (text l : List α) : List α :=
  if text = [] then l else text ++ sep :: l

section AddLine

variable [DecidableEq α] {sep : α} {text : List α}

theorem addLine_nil (l : List α) : addLine sep [] l = l := if_pos rfl

theorem addLine_of_ne_nil (h : text ≠ []) (l : List α) :
    addLine sep text l = text ++ sep :: l := if_neg h

/-- The lines added to a text that is not empty, with a separator at the end. -/
theorem foldl_addLine (h : text ≠ []) (ls : List (List α)) :
    ls.foldl (addLine sep) text ++ [sep] = render sep (text :: ls) := by
  induction ls generalizing text with
  | nil => simp
  | cons l ls ih =>
    rw [foldl_cons, addLine_of_ne_nil h, ih (by simp)]
    simp

theorem foldl_addLine_ne_nil (h : text ≠ []) (ls : List (List α)) :
    ls.foldl (addLine sep) text ≠ [] := by
  induction ls generalizing text with
  | nil => exact h
  | cons l ls ih =>
    rw [foldl_cons, addLine_of_ne_nil h]
    exact ih (by simp)

/-- The last character of the lines together is that of one of them. -/
theorem getLast?_foldl_addLine {P : α → Prop} {ls : List (List α)}
    (htext : ∀ c ∈ text.getLast?, P c) (hne : ∀ l ∈ ls, l ≠ [])
    (h : ∀ l ∈ ls, ∀ c ∈ l.getLast?, P c) :
    ∀ c ∈ (ls.foldl (addLine sep) text).getLast?, P c := by
  induction ls generalizing text with
  | nil => exact htext
  | cons l ls ih =>
    rw [foldl_cons]
    refine ih ?_ (fun l' hl' => hne l' (mem_cons_of_mem _ hl'))
      fun l' hl' => h l' (mem_cons_of_mem _ hl')
    have hlast : (addLine sep text l).getLast? = l.getLast? := by
      rw [addLine]
      split
      · rfl
      · rw [← singleton_append, ← append_assoc,
          getLast?_append_of_ne_nil _ (hne l mem_cons_self)]
    rw [hlast]
    exact h l mem_cons_self

end AddLine

section Read

variable [DecidableEq α] (sep : α)

/-- The lines still to come, where `acc` holds the current one backwards. A last line that is not
ended counts too. -/
def splitFrom (acc : List α) : List α → List (List α)
  | [] => if acc = [] then [] else [acc.reverse]
  | c :: text => if c = sep then acc.reverse :: splitFrom [] text else splitFrom (c :: acc) text

def split (text : List α) : List (List α) := splitFrom sep [] text

/-- The pieces still to come from a buffer that takes `room` characters, where `acc` holds the
current one backwards: a piece ends after a separator, or when the buffer is full. -/
def piecesFrom (room : Nat) (acc : List α) : List α → List (List α)
  | [] => if acc = [] then [] else [acc.reverse]
  | c :: text =>
    if c = sep ∨ acc.length + 1 = room then (c :: acc).reverse :: piecesFrom room [] text
    else piecesFrom room (c :: acc) text

def pieces (room : Nat) (text : List α) : List (List α) := piecesFrom sep room [] text

variable {sep}

/-! ## Line by line -/

variable {ls : List (List α)} {acc l text : List α} {room : Nat}

theorem splitFrom_line (hl : sep ∉ l) (acc text : List α) :
    splitFrom sep acc (l ++ sep :: text) = (acc.reverse ++ l) :: split sep text := by
  induction l generalizing acc with
  | nil => simp [splitFrom, split]
  | cons c l ih =>
    obtain ⟨hc, hl⟩ := not_or.mp (mt mem_cons.mpr hl)
    rw [cons_append, splitFrom, if_neg (Ne.symm hc), ih hl]
    simp

/-- Reading line by line gives the lines back. -/
theorem split_render (h : ∀ l ∈ ls, sep ∉ l) :
    split sep (render sep ls) = ls := by
  induction ls with
  | nil => rfl
  | cons l ls ih =>
    rw [render_cons, split, splitFrom_line (h l mem_cons_self),
      ih fun l' hl' => h l' (mem_cons_of_mem _ hl')]
    rfl

theorem not_mem_of_mem_splitFrom (hacc : sep ∉ acc)
    (hl : l ∈ splitFrom sep acc text) : sep ∉ l := by
  induction text generalizing acc with
  | nil =>
    rw [splitFrom] at hl
    split at hl
    · exact absurd hl not_mem_nil
    · rwa [mem_singleton.mp hl, mem_reverse]
  | cons c text ih =>
    rw [splitFrom] at hl
    split at hl
    · rcases mem_cons.mp hl with rfl | hl
      · rwa [mem_reverse]
      · exact ih not_mem_nil hl
    · next hc => exact ih (not_mem_cons_of_ne_of_not_mem (Ne.symm hc) hacc) hl

theorem not_mem_of_mem_split (hl : l ∈ split sep text) : sep ∉ l :=
  not_mem_of_mem_splitFrom not_mem_nil hl

/-! ## Through a buffer -/

theorem flatten_piecesFrom (room : Nat) (acc text : List α) :
    (piecesFrom sep room acc text).flatten = acc.reverse ++ text := by
  induction text generalizing acc with
  | nil =>
    rw [piecesFrom]
    split
    · next h => simp [h]
    · simp
  | cons c text ih =>
    rw [piecesFrom]
    split
    · simp [ih]
    · simp [ih]

theorem mem_of_mem_pieces {p : List α} (hp : p ∈ pieces sep room text) {c : α}
    (hc : c ∈ p) : c ∈ text := by
  have hmem := mem_flatten_of_mem hp hc
  rwa [pieces, flatten_piecesFrom, reverse_nil, nil_append] at hmem

/-- The pieces of a line end where the line does. -/
theorem piecesFrom_line (hl : sep ∉ l) (room : Nat) (acc text : List α) :
    piecesFrom sep room acc (l ++ sep :: text) =
      piecesFrom sep room acc (l ++ [sep]) ++ pieces sep room text := by
  induction l generalizing acc with
  | nil => simp [piecesFrom, pieces]
  | cons c l ih =>
    obtain ⟨hc, hl⟩ := not_or.mp (mt mem_cons.mpr hl)
    simp only [cons_append, piecesFrom]
    split
    · rw [ih hl, cons_append]
    · exact ih hl (c :: acc)

/-- Where the separator is at the end at most, the first piece is what the buffer takes. -/
theorem piecesFrom_cons (hne : text ≠ []) (hsep : sep ∉ text.dropLast) (hacc : acc.length < room) :
    piecesFrom sep room acc text =
      (acc.reverse ++ text.take (room - acc.length)) :: pieces sep room (text.drop (room - acc.length)) := by
  induction text generalizing acc with
  | nil => exact absurd rfl hne
  | cons c text ih =>
    obtain ⟨rest, hrest⟩ := Nat.exists_eq_add_of_lt hacc
    have hsub : room - acc.length = rest + 1 := by omega
    rw [hsub, take_succ_cons, drop_succ_cons, piecesFrom]
    rcases eq_or_ne text [] with rfl | hne'
    · rw [take_nil, drop_nil]
      split
      · simp [piecesFrom, pieces]
      · simp [piecesFrom, pieces]
    · rw [dropLast_cons_of_ne_nil hne'] at hsep
      obtain ⟨hc, hsep⟩ := not_or.mp (mt mem_cons.mpr hsep)
      split
      · next hfull =>
        have hzero : rest = 0 := by
          rcases hfull with rfl | hfull
          · exact absurd rfl hc
          · omega
        simp [hzero, pieces]
      · next hfull =>
        have hlen : (c :: acc).length < room := by
          have hne_room := (not_or.mp hfull).2
          rw [length_cons]
          omega
        have hsub' : room - (c :: acc).length = rest := by
          rw [length_cons]
          omega
        rw [ih hne' hsep hlen, hsub', reverse_cons, append_assoc, singleton_append]

theorem piecesFrom_short (hl : sep ∉ l)
    (h : acc.length + l.length < room) :
    piecesFrom sep room acc (l ++ [sep]) = [acc.reverse ++ l ++ [sep]] := by
  have hfits : (l ++ [sep]).length ≤ room - acc.length := by
    rw [length_append, length_singleton]
    omega
  rw [piecesFrom_cons (concat_ne_nil _ _) (by rwa [dropLast_concat]) (by omega),
    take_of_length_le hfits, drop_eq_nil_of_le hfits, append_assoc]
  rfl

/-- The first piece of a line that does not fit fills the buffer. -/
theorem piecesFrom_long (hl : sep ∉ l)
    (hacc : acc.length < room) (h : room ≤ acc.length + l.length) :
    piecesFrom sep room acc (l ++ [sep]) =
      (acc.reverse ++ l.take (room - acc.length)) ::
        pieces sep room (l.drop (room - acc.length) ++ [sep]) := by
  have hin : room - acc.length ≤ l.length := by omega
  rw [piecesFrom_cons (concat_ne_nil _ _) (by rwa [dropLast_concat]) hacc,
    take_append_of_le_length hin, drop_append_of_le_length hin]

theorem pieces_cons (hne : text ≠ []) (hsep : sep ∉ text.dropLast)
    (hroom : 0 < room) :
    pieces sep room text = text.take room :: pieces sep room (text.drop room) := by
  rw [pieces, piecesFrom_cons hne hsep hroom]
  rfl

/-- The pieces are the blocks of the size of the buffer. -/
theorem mem_pieces_iff (hsep : sep ∉ text.dropLast) (hroom : 0 < room)
    {p : List α} :
    p ∈ pieces sep room text ↔ ∃ k, room * k < text.length ∧ p = (text.drop (room * k)).take room := by
  induction hlen : text.length using Nat.strongRecOn generalizing text with
  | ind n ih =>
    subst hlen
    rcases eq_or_ne text [] with rfl | hne
    · exact iff_of_false not_mem_nil fun ⟨k, hk, _⟩ => Nat.not_lt_zero _ hk
    · have hpos := length_pos_iff.mpr hne
      have hshort : (text.drop room).length < text.length := by
        rw [length_drop]
        exact Nat.sub_lt hpos hroom
      have hsep' : sep ∉ (text.drop room).dropLast := by
        intro hmem
        have hne' : text.drop room ≠ [] := fun hnil => by rw [hnil] at hmem; cases hmem
        rw [← take_append_drop room text, dropLast_append_of_ne_nil hne'] at hsep
        exact hsep (mem_append_right _ hmem)
      rw [pieces_cons hne hsep hroom, mem_cons, ih _ hshort hsep' rfl]
      constructor
      · rintro (rfl | ⟨k, hk, rfl⟩)
        · exact ⟨0, hpos, rfl⟩
        · rw [length_drop] at hk
          refine ⟨k + 1, ?_, ?_⟩
          · rw [Nat.mul_succ]
            exact Nat.add_lt_of_lt_sub hk
          · rw [drop_drop, Nat.mul_succ, Nat.add_comm]
      · rintro ⟨k, hk, rfl⟩
        cases k with
        | zero => exact .inl rfl
        | succ k =>
          refine .inr ⟨k, ?_, ?_⟩
          · rw [length_drop]
            exact Nat.lt_sub_of_add_lt hk
          · rw [drop_drop, Nat.mul_succ, Nat.add_comm]

/-! ## Any text -/

/-- A text is lines that are ended, and what follows the last separator. -/
theorem exists_render (sep : α) (text : List α) :
    ∃ ls last, text = render sep ls ++ last ∧ (∀ l ∈ ls, sep ∉ l) ∧ sep ∉ last := by
  induction text with
  | nil => exact ⟨[], [], rfl, fun _ h => absurd h not_mem_nil, not_mem_nil⟩
  | cons c text ih =>
    obtain ⟨ls, last, rfl, hls, hlast⟩ := ih
    by_cases hc : c = sep
    · refine ⟨[] :: ls, last, by rw [render_cons, hc]; rfl, ?_, hlast⟩
      exact forall_mem_cons.mpr ⟨not_mem_nil, hls⟩
    · cases ls with
      | nil => exact ⟨[], c :: last, rfl, hls, not_mem_cons_of_ne_of_not_mem (Ne.symm hc) hlast⟩
      | cons l ls =>
        obtain ⟨hl, hls⟩ := forall_mem_cons.mp hls
        refine ⟨(c :: l) :: ls, last, by rw [render_cons, render_cons]; rfl, ?_, hlast⟩
        exact forall_mem_cons.mpr ⟨not_mem_cons_of_ne_of_not_mem (Ne.symm hc) hl, hls⟩

theorem splitFrom_last {last : List α} (hlast : sep ∉ last) (acc : List α) :
    splitFrom sep acc last = if acc.reverse ++ last = [] then [] else [acc.reverse ++ last] := by
  induction last generalizing acc with
  | nil => simp [splitFrom]
  | cons c last ih =>
    obtain ⟨hc, hlast⟩ := not_or.mp (mt mem_cons.mpr hlast)
    rw [splitFrom, if_neg (Ne.symm hc), ih hlast]
    simp

/-- The lines of a text, the last one if it is not empty. -/
theorem split_render_append (h : ∀ l ∈ ls, sep ∉ l) {last : List α}
    (hlast : sep ∉ last) :
    split sep (render sep ls ++ last) = ls ++ if last = [] then [] else [last] := by
  induction ls with
  | nil => exact splitFrom_last hlast []
  | cons l ls ih =>
    obtain ⟨hl, hls⟩ := forall_mem_cons.mp h
    rw [render_cons, append_assoc, cons_append, split, splitFrom_line hl, ih hls]
    rfl

theorem pieces_render_append (h : ∀ l ∈ ls, sep ∉ l) (last : List α)
    (room : Nat) :
    pieces sep room (render sep ls ++ last) =
      ls.flatMap (fun l => pieces sep room (l ++ [sep])) ++ pieces sep room last := by
  induction ls with
  | nil => rfl
  | cons l ls ih =>
    obtain ⟨hl, hls⟩ := forall_mem_cons.mp h
    rw [render_cons, append_assoc, cons_append, pieces, piecesFrom_line hl, ih hls,
      flatMap_cons, append_assoc]
    rfl

theorem pieces_render (h : ∀ l ∈ ls, sep ∉ l) (room : Nat) :
    pieces sep room (render sep ls) = ls.flatMap fun l => pieces sep room (l ++ [sep]) := by
  have happend := pieces_render_append h [] room
  rw [append_nil] at happend
  rw [happend]
  exact append_nil _

end Read

end Lines
