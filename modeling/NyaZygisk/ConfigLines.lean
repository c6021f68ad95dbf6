import NyaZygisk.ConfigFile

/-!
# Lines that are longer than the buffer

`config_line_present` reads `config.prop` in pieces of 127 characters and compares each of them as if it
were a line. A character stands for a byte here.
-/

namespace NyaZygisk.ConfigLines

open CStrings ConfigFileLemmas List

/-! ## Lines and blocks -/

def needle (key value : List Char) : List Char := key ++ '=' :: value

/-- A whole line is the text, blanks at its end aside. -/
def HasLine (text wanted : List Char) : Prop := ∃ line, line ∈ Lines.split '\n' text ∧ stripEnd line = wanted

/-- The characters of a line from `127 * k` on, as many as fit into the buffer. -/
def block (line : List Char) (k : Nat) : List Char := (line.drop (127 * k)).take 127

/-- A block of a line that does not fit into the buffer is the text, blanks at its end aside. -/
def HasStrayBlock (text wanted : List Char) : Prop :=
  ∃ line, line ∈ Lines.split '\n' text ∧ 127 ≤ line.length ∧ ∃ k, stripEnd (block line k) = wanted

namespace ConfigLinesLemmas

/-! ### Ends of lines -/

theorem stripEnd_nil : stripEnd [] = [] := rfl

theorem stripEnd_append_blanks (l : List Char) {blanks : List Char} (h : ∀ c ∈ blanks, isLineEnd c = true) :
    stripEnd (l ++ blanks) = stripEnd l := by
  have hrev : ∀ c ∈ blanks.reverse, isLineEnd c = true := fun c hc => h c (mem_reverse.mp hc)
  rw [stripEnd, reverse_append, dropWhile_append_of_pos hrev, stripEnd]

theorem exists_blanks (line : List Char) :
    ∃ blanks, line = stripEnd line ++ blanks ∧ ∀ c ∈ blanks, isLineEnd c = true := by
  refine ⟨(line.reverse.takeWhile isLineEnd).reverse, ?_, fun c hc => ?_⟩
  · rw [stripEnd, ← reverse_append, takeWhile_append_dropWhile, reverse_reverse]
  · exact mem_takeWhile_imp (mem_reverse.mp hc)

theorem stripEnd_stripEnd (line : List Char) : stripEnd (stripEnd line) = stripEnd line := by
  obtain ⟨blanks, hline, hblanks⟩ := exists_blanks line
  conv_rhs => rw [hline]
  exact (stripEnd_append_blanks _ hblanks).symm

/-- The line feed makes no difference to the blocks of a line. -/
theorem stripEnd_take_drop {l : List Char} {n : Nat} (hn : n ≤ l.length) (room : Nat) :
    stripEnd (((l ++ ['\n']).drop n).take room) = stripEnd ((l.drop n).take room) := by
  rw [drop_append_of_le_length hn, take_append]
  refine stripEnd_append_blanks _ fun c hc => ?_
  rw [mem_singleton.mp (mem_of_mem_take hc)]
  rfl

/-! ### Pieces -/

variable {text wanted : List Char}

theorem exists_piece_line (hne : wanted ≠ []) {l : List Char} (hl : '\n' ∉ l) :
    (∃ p ∈ Lines.pieces '\n' 127 (l ++ ['\n']), stripEnd p = wanted) ↔ ∃ k, stripEnd (block l k) =
      wanted := by
  have hsep : '\n' ∉ (l ++ ['\n']).dropLast := by rwa [dropLast_concat]
  constructor
  · rintro ⟨p, hp, rfl⟩
    obtain ⟨k, hk, rfl⟩ := (Lines.mem_pieces_iff hsep (by decide)).mp hp
    rw [length_append, length_singleton] at hk
    exact ⟨k, (stripEnd_take_drop (Nat.le_of_lt_succ hk) 127).symm⟩
  · rintro ⟨k, hk⟩
    have hle : 127 * k ≤ l.length := by
      by_contra hout
      rw [block, drop_eq_nil_of_le (Nat.le_of_not_le hout), take_nil, stripEnd_nil] at hk
      exact hne hk.symm
    refine ⟨_, (Lines.mem_pieces_iff hsep (by decide)).mpr ⟨k, ?_, rfl⟩, ?_⟩
    · rw [length_append, length_singleton]
      exact Nat.lt_succ_of_le hle
    · rw [stripEnd_take_drop hle]
      exact hk

/-- A last line that is not ended is read in the same way. -/
theorem exists_piece_last (hne : wanted ≠ []) {l : List Char} (hl : '\n' ∉ l) :
    (∃ p ∈ Lines.pieces '\n' 127 l, stripEnd p = wanted) ↔ ∃ k, stripEnd (block l k) = wanted := by
  have hsep : '\n' ∉ l.dropLast := fun hmem => hl (mem_of_mem_dropLast hmem)
  constructor
  · rintro ⟨p, hp, rfl⟩
    obtain ⟨k, -, rfl⟩ := (Lines.mem_pieces_iff hsep (by decide)).mp hp
    exact ⟨k, rfl⟩
  · rintro ⟨k, hk⟩
    refine ⟨_, (Lines.mem_pieces_iff hsep (by decide)).mpr ⟨k, ?_, rfl⟩, hk⟩
    by_contra hout
    rw [block, drop_eq_nil_of_le (Nat.le_of_not_lt hout), take_nil, stripEnd_nil] at hk
    exact hne hk.symm

/-- The pieces are the blocks of 127 characters of the lines. -/
theorem exists_piece_iff_block (text : List Char) (hne : wanted ≠ []) :
    (∃ p ∈ Lines.pieces '\n' 127 text, stripEnd p = wanted) ↔
      ∃ line ∈ Lines.split '\n' text, ∃ k, stripEnd (block line k) = wanted := by
  obtain ⟨ls, last, rfl, hls, hlast⟩ := Lines.exists_render '\n' text
  rw [Lines.split_render_append hls hlast, Lines.pieces_render_append hls]
  constructor
  · rintro ⟨p, hp, hstrip⟩
    rcases mem_append.mp hp with hp | hp
    · obtain ⟨l, hl, hp⟩ := mem_flatMap.mp hp
      exact ⟨l, mem_append_left _ hl, (exists_piece_line hne (hls l hl)).mp ⟨p, hp, hstrip⟩⟩
    · have hlast_ne : last ≠ [] := by
        rintro rfl
        cases hp
      refine ⟨last, mem_append_right _ ?_, (exists_piece_last hne hlast).mp ⟨p, hp, hstrip⟩⟩
      rw [if_neg hlast_ne]
      exact mem_cons_self
  · rintro ⟨l, hl, hk⟩
    rcases mem_append.mp hl with hl | hl
    · obtain ⟨p, hp, hstrip⟩ := (exists_piece_line hne (hls l hl)).mpr hk
      exact ⟨p, mem_append_left _ (mem_flatMap.mpr ⟨l, hl, hp⟩), hstrip⟩
    · split at hl
      · cases hl
      · obtain rfl := mem_singleton.mp hl
        obtain ⟨p, hp, hstrip⟩ := (exists_piece_last hne hlast).mpr hk
        exact ⟨p, mem_append_right _ hp, hstrip⟩

theorem cString_piece (hnul : '\x00' ∉ text) {p : List Char} (hp : p ∈ Lines.pieces '\n' 127 text) :
    cString '\x00' p = p := cString_eq_self fun hmem => hnul (Lines.mem_of_mem_pieces hp hmem)

theorem present_iff_block (hnul : '\x00' ∉ text) {key value : List Char}
    (hlen : (needle key value).length ≤ 63) :
    configLinePresent (some text) key value = true ↔
      ∃ line ∈ Lines.split '\n' text, ∃ k, stripEnd (block line k) = needle key value := by
  have hne : needle key value ≠ [] := append_ne_nil_of_right_ne_nil _ (cons_ne_nil _ _)
  have htake : (key ++ '=' :: value).take 63 = needle key value := take_of_length_le hlen
  rw [← exists_piece_iff_block text hne, configLinePresent]
  simp only [htake, any_eq_true, decide_eq_true_eq]
  refine exists_congr fun p => and_congr_right fun hp => ?_
  rw [cString_piece hnul hp]

/-! ### Whole lines -/

/-- The first block of a line that is looked for has all of it. -/
theorem block_of_line {line : List Char} (hlen : wanted.length ≤ 63) (h : stripEnd line = wanted) :
    stripEnd (block line 0) = wanted := by
  obtain ⟨blanks, hline, hblanks⟩ := exists_blanks line
  rw [h] at hline
  have hfits : wanted.length ≤ 127 := Nat.le_trans hlen (by decide)
  have htake : block line 0 = wanted ++ blanks.take (127 - wanted.length) := by
    rw [block, Nat.mul_zero, drop_zero, hline, take_append, take_of_length_le hfits]
  rw [htake, stripEnd_append_blanks _ fun c hc => hblanks c (mem_of_mem_take hc), ← h, stripEnd_stripEnd]

/-- A line that fits has one block, itself. -/
theorem line_of_block (hne : wanted ≠ []) {line : List Char} (hshort : line.length < 127) {k : Nat}
    (h : stripEnd (block line k) = wanted) : stripEnd line = wanted := by
  cases k with
  | zero =>
    rwa [block, Nat.mul_zero, drop_zero, take_of_length_le (Nat.le_of_lt hshort)] at h
  | succ k =>
    have hout : line.length ≤ 127 * (k + 1) :=
      Nat.le_trans (Nat.le_of_lt hshort) (Nat.le_mul_of_pos_right 127 (Nat.succ_pos k))
    rw [block, drop_eq_nil_of_le hout, take_nil, stripEnd_nil] at h
    exact absurd h.symm hne

end ConfigLinesLemmas

open ConfigLinesLemmas

/-- `config_line_present` tells whether the file has the line, exactly if no block of a longer line
is like it, or the line is there too. -/
theorem config_line_present_iff {text : List Char} (hnul : '\x00' ∉ text) {key value : List Char}
    (hlen : (needle key value).length ≤ 63) :
    (configLinePresent (some text) key value = true ↔ HasLine text (needle key value)) ↔
      (HasStrayBlock text (needle key value) → HasLine text (needle key value)) := by
  have hne : needle key value ≠ [] := append_ne_nil_of_right_ne_nil _ (cons_ne_nil _ _)
  rw [present_iff_block hnul hlen]
  constructor
  · rintro hiff ⟨line, hline, -, hk⟩
    exact hiff.mp ⟨line, hline, hk⟩
  · intro hstray
    constructor
    · rintro ⟨line, hline, k, hk⟩
      rcases Nat.lt_or_ge line.length 127 with hshort | hlong
      · exact ⟨line, hline, line_of_block hne hshort hk⟩
      · exact hstray ⟨line, hline, hlong, k, hk⟩
    · rintro ⟨line, hline, hstrip⟩
      exact ⟨line, hline, 0, block_of_line hlen hstrip⟩

/-- The line with blanks behind it, as many as there is room for and more. -/
theorem config_line_present_blanks :
    let text := "custom_linker=1".toList ++ List.replicate 120 ' '
    configLinePresent (some text) "custom_linker".toList ['1'] = true ∧
      HasLine text (needle "custom_linker".toList ['1']) := by
  have hline : HasLine ("custom_linker=1".toList ++ List.replicate 120 ' ')
    (needle "custom_linker".toList ['1']) :=
    ⟨"custom_linker=1".toList ++ List.replicate 120 ' ', by decide +kernel, by decide +kernel⟩
  exact ⟨((config_line_present_iff (by decide +kernel) (by decide)).mpr fun _ => hline).mpr hline, hline⟩

/-- A comment of 127 characters, and the text right behind it. -/
def longComment : List Char := List.replicate 127 '#' ++ "custom_linker=1\n".toList

/-- The second piece of the comment is taken for a line. -/
theorem comment_switches_on :
    isCustomLinkerEnabled (some longComment) = true ∧
      ¬ HasLine longComment (needle "custom_linker".toList ['1']) := by
  have hlines : Lines.split '\n' longComment = [List.replicate 127 '#' ++ "custom_linker=1".toList] := by
    decide +kernel
  refine ⟨by decide +kernel, ?_⟩
  rintro ⟨line, hline, hstrip⟩
  rw [hlines, mem_singleton] at hline
  subst hline
  exact absurd hstrip (by decide +kernel)

end NyaZygisk.ConfigLines
