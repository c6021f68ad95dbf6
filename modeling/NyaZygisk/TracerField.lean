import NyaZygisk.TracerPid
import NyaZygisk.Lib.Readable
import Mathlib.Data.Nat.Find

/-!
# What sanitizing one buffer does

`sanitize_tracer_pid` of `tracer_pid.cpp` for any bytes: where it reads, and which bytes it changes.
-/

namespace NyaZygisk.TracerPid

open List Readable

/-! ## Reading -/

/-- The length of a run that must not be empty. -/
def readRun (p : Char → Bool) (buf : Nat → Option Char) (nbytes pos : Nat) : Option (Option Nat) :=
  if nbytes ≤ pos then some none
  else (buf pos).bind fun c => if !p c then some none else (Readable.scan p buf (nbytes - pos) pos).map some

/-- A round of the loop: the number that it finds, or nothing where it continues. -/
def readField (buf : Nat → Option Char) (nbytes i : Nat) : Option (Option (Nat × Nat)) :=
  (if 0 < i then (buf (i - 1)).map fun c => decide (c = '\n') else some true).bind fun atStart =>
  if !atStart then some none
  else
    (fetch buf i kKey.length).bind fun key =>
    if key ≠ kKey then some none
    else
      let pos := i + kKey.length
      andThen (readRun isGap buf nbytes pos) fun gap =>
      let numStart := pos + gap
      andThen (readRun Char.isDigit buf nbytes numStart) fun numLen =>
      let pos := numStart + numLen
      if pos < nbytes then (buf pos).map fun c => if endsNumber c then some (numStart, numLen) else none
      else some (some (numStart, numLen))

def readNumber (buf : Nat → Option Char) (nbytes : Nat) : List Nat → Option (Option (Nat × Nat))
  | [] => some none
  | i :: places =>
    match readField buf nbytes i with
    | none => none
    | some none => readNumber buf nbytes places
    | some (some found) => some (some found)

/-- `sanitize_tracer_pid`, where nothing but the buffer can be read. -/
def sanitizeReading (buf : List Char) : Option (List Char) :=
  match readNumber (buf[·]?) buf.length (List.range (buf.length + 1 - kKey.length)) with
  | none => none
  | some none => some buf
  | some (some (numStart, numLen)) =>
    (if numLen = 1 then (buf[numStart]?).map fun c => decide (c = '0') else some false).map fun isZero =>
      if isZero then buf else buf.take numStart ++ zeroed numLen ++ buf.drop (numStart + numLen)

/-! ## Fields -/

/-- A text with a line that starts with the key, blanks and a number. -/
structure Field where
  before : List Char
  gap : List Char
  digits : List Char
  after : List Char
  starts : lineStart before before.length = true
  gap_ne : gap ≠ []
  gap_all : ∀ c ∈ gap, isGap c = true
  digits_ne : digits ≠ []
  digits_all : ∀ c ∈ digits, c.isDigit = true
  ends : after.head?.all endsNumber = true

namespace Field

def text (f : Field) : List Char := f.before ++ (kKey ++ f.gap ++ f.digits) ++ f.after

/-- No line before it is a field. -/
def IsFirst (f : Field) : Prop := ∀ g : Field, g.text = f.text → f.before.length ≤ g.before.length

/-- The text with a 0 for the number. -/
def sanitized (f : Field) : List Char := f.before ++ (kKey ++ f.gap ++ zeroed f.digits.length) ++ f.after

end Field

namespace TracerLemmas

variable {buf : List Char}

/-! ### The reads -/

theorem holds_drop (buf : List Char) (i : Nat) : Holds (buf[·]?) i (buf.drop i) := by
  intro j _
  rw [getElem?_drop]

theorem readRun_eq (p : Char → Bool) (pos : Nat) :
    readRun p (buf[·]?) buf.length pos =
      some (if (buf.drop pos).takeWhile p = [] then none else some ((buf.drop pos).takeWhile p).length) := by
  have hscan := scan_eq p (holds_drop buf pos)
  rw [length_drop] at hscan
  rw [readRun, hscan]
  split
  · next h => rw [drop_of_length_le h]; rfl
  · next h =>
    have hlt : pos < buf.length := Nat.not_le.mp h
    rw [drop_eq_getElem_cons hlt, getElem?_eq_getElem hlt, Option.bind_some]
    cases hc : p buf[pos] with
    | false => rw [takeWhile_cons_of_neg (Bool.eq_false_iff.mp hc)]; rfl
    | true => rw [takeWhile_cons_of_pos hc]; rfl

theorem atStart_eq {i : Nat} (hi : i ≤ buf.length) :
    (if 0 < i then (buf[i - 1]?).map fun c => decide (c = '\n') else some true) = some (lineStart buf i) := by
  rw [lineStart]
  split
  · next hpos =>
    rw [getElem?_eq_getElem (by omega), Option.map_some, decide_eq_false (Nat.ne_of_gt hpos), Bool.false_or]
    simp only [Option.some.injEq]
  · next h =>
    rw [decide_eq_true (Nat.eq_zero_of_not_pos h), Bool.true_or]

/-- The end of a field: the byte after the number, if there is one. -/
theorem ends_eq {found : Nat × Nat} (buf : List Char) (pos : Nat) :
    (if pos < buf.length then (buf[pos]?).map fun c => if endsNumber c then some found else none
      else some (some found)) =
      some (if (buf.drop pos).head?.all endsNumber then some found else none) := by
  rw [head?_drop]
  split
  · next h => rw [getElem?_eq_getElem h]; rfl
  · next h => rw [getElem?_eq_none (Nat.not_lt.mp h)]; rfl

theorem readField_eq {i : Nat} (hi : i + kKey.length ≤ buf.length) :
    readField (buf[·]?) buf.length i =
      some (if lineStart buf i then (numberAt (buf.drop i)).map fun found =>
        (i + found.1, found.2) else none) := by
  have hkey : fetch (buf[·]?) i kKey.length = some ((buf.drop i).take kKey.length) :=
    fetch_eq (by rw [length_drop]; omega) (holds_drop buf i)
  rw [readField, atStart_eq (by omega), Option.bind_some]
  cases lineStart buf i with
  | false => rfl
  | true =>
    rw [hkey, Option.bind_some, numberAt, if_neg (by decide), if_pos rfl]
    by_cases hprefix : kKey.isPrefixOf (buf.drop i) = true
    · have htake : ¬ (buf.drop i).take kKey.length ≠ kKey := not_not.mpr
        (prefix_iff_eq_take.mp (List.isPrefixOf_iff_prefix.mp hprefix)).symm
      rw [if_neg htake, if_pos hprefix]
      simp only [drop_drop, readRun_eq, ends_eq]
      by_cases hgap : (buf.drop (i + kKey.length)).takeWhile isGap = []
      · rw [if_pos hgap, if_pos (.inl hgap)]
        rfl
      · rw [if_neg hgap, andThen]
        by_cases hnum :
          (buf.drop (i + kKey.length + ((buf.drop (i + kKey.length)).takeWhile isGap).length)).takeWhile
            Char.isDigit = []
        · rw [if_pos hnum, if_pos (.inr hnum)]
          rfl
        · rw [if_neg hnum, if_neg (not_or.mpr ⟨hgap, hnum⟩), andThen]
          simp only [Nat.add_assoc]
          split <;> rfl
    · have htake : (buf.drop i).take kKey.length ≠ kKey := fun h =>
        hprefix (List.isPrefixOf_iff_prefix.mpr (prefix_iff_eq_take.mpr h.symm))
      rw [if_pos htake, if_neg hprefix]
      rfl

theorem readNumber_eq {places : List Nat} (h : ∀ i ∈ places, i + kKey.length ≤ buf.length) :
    readNumber (buf[·]?) buf.length places =
      some (places.findSome? fun i =>
        if lineStart buf i then (numberAt (buf.drop i)).map fun found =>
          (i + found.1, found.2) else none) := by
  induction places with
  | nil => rfl
  | cons i places ih =>
    obtain ⟨hi, hplaces⟩ := forall_mem_cons.mp h
    rw [readNumber, readField_eq hi, findSome?_cons]
    split
    · next heq => cases heq
    · next heq => rw [Option.some.inj heq, ih hplaces]
    · next found heq => rw [Option.some.inj heq]

/-- Without a read outside of the buffer, the loop comes to its result. -/
theorem readNumber_range (buf : List Char) :
    readNumber (buf[·]?) buf.length (List.range (buf.length + 1 - kKey.length)) = some (findNumber buf) := by
  refine readNumber_eq fun i hi => ?_
  have hlt := mem_range.mp hi
  omega

/-! ### The first field -/

/-- What is found is made of the parts of a field. -/
theorem exists_parts {rest : List Char} {found : Nat × Nat} (h : numberAt rest = some found) :
    ∃ gap digits after, rest = kKey ++ gap ++ digits ++ after ∧ gap ≠ [] ∧ (∀ c ∈ gap, isGap c = true) ∧
      digits ≠ [] ∧ (∀ c ∈ digits, c.isDigit = true) ∧ after.head?.all endsNumber = true := by
  obtain ⟨tail, rfl⟩ := key_isPrefix h
  rw [numberAt, if_pos (List.isPrefixOf_iff_prefix.mpr (prefix_append _ _)), drop_left] at h
  dsimp only at h
  obtain ⟨hparts, h⟩ := Option.ite_none_left_eq_some.mp h
  obtain ⟨hends, -⟩ := Option.ite_none_right_eq_some.mp h
  obtain ⟨hgap, hnum⟩ := not_or.mp hparts
  rw [← drop_drop] at hends
  refine ⟨_, _, _, ?_, hgap, fun c => mem_takeWhile_imp, hnum, fun c => mem_takeWhile_imp, hends⟩
  rw [append_assoc, append_assoc, prefix_iff_eq_append.mp (List.takeWhile_prefix _),
    prefix_iff_eq_append.mp (List.takeWhile_prefix _)]

theorem lineStart_left {l : List Char} {i : Nat} (hi : i ≤ l.length) (r : List Char) :
    lineStart (l ++ r) i = lineStart l i := by
  rcases Nat.eq_zero_or_pos i with rfl | hpos
  · rfl
  · have hmove := lineStart_append (l := []) (r := r) hi hpos
    rwa [nil_append, length_nil, Nat.zero_add] at hmove

theorem exists_field {i : Nat} {found : Nat × Nat} (hstart : lineStart buf i = true)
    (hnumber : numberAt (buf.drop i) = some found) : ∃ f : Field, f.text = buf ∧ f.before.length = i := by
  obtain ⟨gap, digits, after, hrest, hgap, hgaps, hdigits, hall, hends⟩ := exists_parts hnumber
  have hi : (buf.take i).length = i := length_take_of_le (Nat.le_of_add_right_le (key_fits hnumber))
  have hstart' : lineStart (buf.take i) (buf.take i).length = true := by
    rw [← lineStart_left (Nat.le_refl _) (buf.drop i), take_append_drop, hi, hstart]
  refine ⟨⟨buf.take i, gap, digits, after, hstart', hgap, hgaps, hdigits, hall, hends⟩, ?_, hi⟩
  rw [Field.text, append_assoc, ← hrest, take_append_drop]

theorem match_of_field (f : Field) :
    lineStart f.text f.before.length = true ∧
      numberAt (f.text.drop f.before.length) = some (kKey.length + f.gap.length, f.digits.length) := by
  rw [Field.text, append_assoc, lineStart_left (Nat.le_refl _), drop_left]
  exact ⟨f.starts, numberAt_field f.gap_ne f.gap_all f.digits_ne f.digits_all f.ends⟩

theorem findNumber_of_first {f : Field} (h : f.IsFirst) :
    findNumber f.text = some (f.before.length + (kKey.length + f.gap.length), f.digits.length) := by
  obtain ⟨hstart, hnumber⟩ := match_of_field f
  obtain ⟨found, hfound⟩ := Option.ne_none_iff_exists'.mp (found_of_match hstart hnumber)
  rw [hfound]
  obtain ⟨earlier, i, later, hrange, hi, hnone⟩ := findSome?_eq_some_iff.mp hfound
  obtain ⟨hstart', hi⟩ := Option.ite_none_right_eq_some.mp hi
  obtain ⟨match', hnumber', rfl⟩ := Option.map_eq_some_iff.mp hi
  obtain ⟨g, hg, rfl⟩ := exists_field hstart' hnumber'
  have hle : g.before.length ≤ f.before.length := by
    have hmem : f.before.length ∈ List.range (f.text.length + 1 - kKey.length) := by
      have hfits := key_fits hnumber
      exact mem_range.mpr (by omega)
    have hpairwise := pairwise_lt_range (n := f.text.length + 1 - kKey.length)
    rw [hrange] at hmem hpairwise
    rcases mem_append.mp hmem with hmem | hmem
    · have hno := hnone _ hmem
      rw [if_pos hstart, hnumber] at hno
      cases hno
    · rcases mem_cons.mp hmem with heq | hmem
      · exact Nat.le_of_eq heq.symm
      · exact Nat.le_of_lt ((pairwise_cons.mp (pairwise_append.mp hpairwise).2.1).1 _ hmem)
  rw [Nat.le_antisymm hle (h g hg), hnumber] at hnumber'
  rw [← Option.some.inj hnumber', Nat.le_antisymm hle (h g hg)]

theorem sanitize_of_first {f : Field} (h : f.IsFirst) : sanitizeTracerPid f.text = f.sanitized := by
  have hfound := findNumber_of_first h
  have hsplit : ∀ number, f.before ++ (kKey ++ f.gap ++ number) ++ f.after =
      f.before ++ (kKey ++ f.gap) ++ number ++ f.after := fun _ => by simp only [append_assoc]
  rw [Field.text, hsplit, ← length_append, ← length_append] at hfound
  rw [Field.text, Field.sanitized, hsplit, hsplit]
  exact sanitize_found hfound

theorem found_lt {start len : Nat} (h : findNumber buf = some (start, len)) : start < buf.length := by
  obtain ⟨i, place, hstart, hnumber, rfl⟩ := found_match h
  obtain ⟨f, rfl, rfl⟩ := exists_field hstart hnumber
  rw [(match_of_field f).2] at hnumber
  obtain ⟨rfl, -⟩ := Prod.mk.inj (Option.some.inj hnumber)
  have hpos := length_pos_iff.mpr f.digits_ne
  simp only [Field.text, length_append]
  omega

theorem sanitizeReading_eq (buf : List Char) : sanitizeReading buf = some (sanitizeTracerPid buf) := by
  rw [sanitizeReading, readNumber_range, sanitizeTracerPid]
  cases hfound : findNumber buf with
  | none => rfl
  | some found =>
    obtain ⟨start, len⟩ := found
    dsimp only
    rw [getElem?_eq_getElem (found_lt hfound)]
    by_cases hlen : len = 1
    · simp only [hlen, if_true, Option.map_some, Option.some.injEq, true_and, decide_eq_true_eq]
    · simp only [hlen, if_false, Option.map_some, false_and, Bool.false_eq_true]

/-! ### The second call -/

theorem newline_notMem (f : Field) : '\n' ∉ kKey ++ f.gap ++ f.digits := by
  simp only [mem_append, not_or]
  refine ⟨⟨by decide, fun h => ?_⟩, fun h => ?_⟩
  · exact absurd (f.gap_all _ h) (by decide)
  · exact absurd (f.digits_all _ h) (by decide)

/-- A field before the beginning of a line is a field whatever that line is. -/
theorem exists_field_before {b x : List Char} (hb : lineStart b b.length = true) {f : Field}
    (hf : f.text = b ++ x)
    (hlt : f.before.length < b.length) (y : List Char) :
    ∃ g : Field, g.text = b ++ y ∧ g.before.length = f.before.length := by
  have hnewline : b[b.length - 1]? = some '\n' := by
    rw [lineStart, decide_eq_false (Nat.ne_of_gt (Nat.zero_lt_of_lt hlt)), Bool.false_or] at hb
    exact of_decide_eq_true hb
  -- the line ends in front of the other one, so the field does
  have hshort : ∀ m, f.before ++ (kKey ++ f.gap ++ f.digits) ≠ b ++ m := by
    intro m hm
    have hget : (b ++ m)[b.length - 1]? = some '\n' := by rw [getElem?_append_left (by omega), hnewline]
    rw [← hm, getElem?_append_right (by omega)] at hget
    exact newline_notMem f (mem_of_getElem? hget)
  rcases append_eq_append_iff.mp hf with ⟨m, hm, hafter⟩ | ⟨m, hm, -⟩
  · cases m with
    | nil => exact absurd (hm.trans (append_nil _)).symm (by simpa using hshort [])
    | cons c m =>
      refine ⟨{ f with after := c :: m ++ y, ends := ?_ }, ?_, rfl⟩
      · have hends := f.ends
        rwa [hafter] at hends
      · rw [hm, append_assoc]
        rfl
  · exact absurd hm (hshort m)

/-- The text with a 0 for its number has that as its first field. -/
theorem exists_first_sanitized {f : Field} (h : f.IsFirst) :
    ∃ g : Field, g.IsFirst ∧ g.text = f.sanitized ∧ g.sanitized = f.sanitized := by
  have hends : (List.replicate (f.digits.length - 1) ' ' ++ f.after).head?.all endsNumber = true := by
    cases f.digits.length - 1 with
    | zero => exact f.ends
    | succ n => rfl
  let g : Field := { f with
    digits := ['0'], after := List.replicate (f.digits.length - 1) ' ' ++ f.after
    digits_ne := cons_ne_nil _ _, digits_all := all_eq_true.mp rfl, ends := hends }
  have htext : g.text = f.sanitized := by
    simp only [g, Field.text, Field.sanitized, zeroed, append_assoc, cons_append, nil_append]
  refine ⟨g, fun g' hg' => ?_, htext, htext⟩
  rw [htext, Field.sanitized, append_assoc] at hg'
  refine Nat.not_lt.mp fun hlt => ?_
  obtain ⟨g'', hg'', hlen⟩ := exists_field_before f.starts hg' hlt ((kKey ++ f.gap ++ f.digits) ++ f.after)
  have hle := h g'' (hg''.trans (append_assoc ..).symm)
  exact absurd hlt (Nat.not_lt.mpr (hlen ▸ hle))

theorem exists_first {f : Field} (hf : f.text = buf) : ∃ g : Field, g.text = buf ∧ g.IsFirst := by
  classical
  have hex : ∃ n, ∃ g : Field, g.text = buf ∧ g.before.length = n := ⟨_, f, hf, rfl⟩
  obtain ⟨g, hg, hn⟩ := Nat.find_spec hex
  exact ⟨g, hg, fun g' hg' => hn ▸ Nat.find_min' hex ⟨g', hg'.trans hg, rfl⟩⟩

end TracerLemmas

open TracerLemmas

/-- For every buffer: no read is outside of it, and either it has no field and is left as it is, or
the digits of its first one become a 0 and blanks; its length stays, and a second call changes
nothing. -/
theorem sanitize_footprint (buf : List Char) :
    ∃ out, sanitizeReading buf = some out ∧ out.length = buf.length ∧
      ((out = buf ∧ ∀ f : Field, f.text ≠ buf) ∨ ∃ f : Field, f.text = buf ∧ f.IsFirst ∧ out = f.sanitized) ∧
      sanitizeReading out = some out := by
  simp only [sanitizeReading_eq, Option.some.injEq, exists_eq_left']
  by_cases hfield : ∃ f : Field, f.text = buf
  · obtain ⟨f, hf⟩ := hfield
    obtain ⟨f, rfl, hfirst⟩ := exists_first hf
    obtain ⟨g, hg, htext, hsame⟩ := exists_first_sanitized hfirst
    have hlen := length_zeroed (length_pos_iff.mpr f.digits_ne)
    rw [sanitize_of_first hfirst]
    refine ⟨?_, .inr ⟨f, rfl, hfirst, rfl⟩, ?_⟩
    · simp only [Field.sanitized, Field.text, length_append, hlen]
    · rw [← htext, sanitize_of_first hg, hsame, htext]
  · have hnone : findNumber buf = none := by
      refine Option.eq_none_iff_forall_ne_some.mpr ?_
      rintro ⟨start, len⟩ hfound
      obtain ⟨i, place, hstart, hnumber, -⟩ := found_match hfound
      obtain ⟨f, hf, -⟩ := exists_field hstart hnumber
      exact hfield ⟨f, hf⟩
    rw [sanitize_of_none hnone, sanitize_of_none hnone]
    exact ⟨rfl, .inl ⟨rfl, fun f hf => hfield ⟨f, hf⟩⟩, rfl⟩

end NyaZygisk.TracerPid
