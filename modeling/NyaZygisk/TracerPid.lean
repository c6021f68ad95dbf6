import Mathlib.Data.List.Basic

/-!
# The tracer in `/proc/self/status`

`sanitize_tracer_pid` of `tracer_pid.cpp`, which `new_read` of `hook.cpp` calls on what a `read` of
a tracked descriptor returns. It works on one buffer at a time, and the beginning of a buffer counts
as the beginning of a line.
-/

namespace NyaZygisk.TracerPid

open List

/-! ## Descriptors -/

def kMaxTrackedFds : Nat := 16

def noFds : List Int := List.replicate kMaxTrackedFds (-1)

/-- The first free slot gets `fd`. -/
def takeSlot (fd : Int) : List Int → List Int
  | [] => []
  | slot :: slots => if slot = -1 then fd :: slots else slot :: takeSlot fd slots

def trackFd (fd : Int) (slots : List Int) : List Int := if fd < 0 then slots else takeSlot fd slots

def isTrackedFd (slots : List Int) (fd : Int) : Bool := 0 ≤ fd && slots.contains fd

/-! ## `sanitize_tracer_pid` -/

def kKey : List Char := "TracerPid:".toList

def isGap (c : Char) : Bool := c = '\t' || c = ' '

def endsNumber (c : Char) : Bool := c = '\n' || c = '\r' || c = ' ' || c = '\t'

/-- For the rest of a buffer that begins with a field: where its number is, and how long. -/
def numberAt (rest : List Char) : Option (Nat × Nat) :=
  if kKey.isPrefixOf rest then
    let tail := rest.drop kKey.length
    let gap := tail.takeWhile isGap
    let num := (tail.drop gap.length).takeWhile Char.isDigit
    if gap = [] ∨ num = [] then none
    else if (tail.drop (gap.length + num.length)).head?.all endsNumber then
      some (kKey.length + gap.length, num.length)
    else none
  else none

def lineStart (buf : List Char) (i : Nat) : Bool := i = 0 || buf[i - 1]? = some '\n'

/-- The loop: the number of the first field, as its place and length. -/
def findNumber (buf : List Char) : Option (Nat × Nat) :=
  (List.range (buf.length + 1 - kKey.length)).findSome? fun i =>
    if lineStart buf i then (numberAt (buf.drop i)).map fun found => (i + found.1, found.2) else none

/-- What is written over a number of that length. -/
def zeroed (len : Nat) : List Char := '0' :: List.replicate (len - 1) ' '

def sanitizeTracerPid (buf : List Char) : List Char :=
  match findNumber buf with
  | none => buf
  | some (start, len) =>
    if len = 1 ∧ buf[start]? = some '0' then buf
    else buf.take start ++ zeroed len ++ buf.drop (start + len)

/-- `new_read`, where the original returns these bytes. -/
def newRead (slots : List Int) (fd : Int) (bytes : List Char) : List Char :=
  if bytes ≠ [] ∧ isTrackedFd slots fd then sanitizeTracerPid bytes else bytes

def delivered (slots : List Int) (fd : Int) (chunks : List (List Char)) : List Char :=
  (chunks.map (newRead slots fd)).flatten

/-! ## Status files -/

/-- A status file with one line that begins with the key, and that one is well formed. -/
structure StatusFile where
  before : List Char
  gap : List Char
  digits : List Char
  after : List Char
  starts : lineStart before before.length = true
  gap_ne : gap ≠ []
  gap_all : ∀ c ∈ gap, isGap c = true
  digits_ne : digits ≠ []
  digits_all : ∀ c ∈ digits, c.isDigit = true
  ends : after.head?.all endsNumber = true
  only : ∀ i, lineStart (before ++ (kKey ++ gap ++ digits) ++ after) i = true →
    kKey <+: (before ++ (kKey ++ gap ++ digits) ++ after).drop i → i = before.length

namespace StatusFile

variable (file : StatusFile)

def field : List Char := kKey ++ file.gap ++ file.digits

def text : List Char := file.before ++ file.field ++ file.after

def numberStart : Nat := file.before.length + kKey.length + file.gap.length

/-- One read returns the whole field. -/
def HeldByOne (chunks : List (List Char)) : Prop :=
  ∃ l b a r, chunks = l ++ (b ++ file.field ++ a) :: r ∧ file.before = l.flatten ++ b ∧
    file.after = a ++ r.flatten

/-- No read begins inside a line with what looks like a field. -/
def NoLookAlike (chunks : List (List Char)) : Prop :=
  ∀ l c r, chunks = l ++ c :: r → lineStart file.text l.flatten.length = false → numberAt c = none

/-- Only the number has changed, and it is 0. -/
structure ShowsZero (out : List Char) : Prop where
  length : out.length = file.text.length
  zero : (out.drop file.numberStart).take file.digits.length = zeroed file.digits.length
  same : ∀ i, ¬ (file.numberStart ≤ i ∧ i < file.numberStart + file.digits.length) →
    out[i]? = file.text[i]?

end StatusFile

namespace TracerLemmas

/-! ### Fields -/

theorem isGap_of_isDigit {c : Char} (h : c.isDigit = true) : isGap c = false := by
  rw [isGap, Bool.or_eq_false_iff, decide_eq_false_iff_not, decide_eq_false_iff_not]
  constructor
  · rintro rfl
    exact absurd h (by decide)
  · rintro rfl
    exact absurd h (by decide)

theorem isDigit_of_endsNumber {c : Char} (h : endsNumber c = true) : c.isDigit = false := by
  simp only [endsNumber, Bool.or_eq_true, decide_eq_true_eq] at h
  rcases h with ((rfl | rfl) | rfl) | rfl <;> decide

theorem takeWhile_of_head {p : Char → Bool} {l : List Char} (h : l.head?.all (!p ·) = true) :
    l.takeWhile p = [] := by
  cases l with
  | nil => rfl
  | cons c l =>
    have hc : ¬ p c = true := by simpa using h
    exact takeWhile_cons_of_neg hc

theorem takeWhile_append_head {p : Char → Bool} {l r : List Char} (hl : ∀ c ∈ l, p c = true)
    (hr : r.head?.all (!p ·) = true) : (l ++ r).takeWhile p = l := by
  rw [takeWhile_append_of_pos hl, takeWhile_of_head hr, append_nil]

variable {rest : List Char} {i : Nat} {found : Nat × Nat}

theorem key_isPrefix (h : numberAt rest = some found) :
    kKey <+: rest := by
  rw [numberAt] at h
  split at h
  · exact isPrefixOf_iff_prefix.mp ‹_›
  · exact absurd h (by simp)

theorem numberAt_field {gap digits : List Char} (hgap : gap ≠ []) (hgaps : ∀ c ∈ gap, isGap c = true)
    (hdigits : digits ≠ []) (hall : ∀ c ∈ digits, c.isDigit = true)
    (hrest : rest.head?.all endsNumber = true) :
    numberAt (kKey ++ gap ++ digits ++ rest) = some (kKey.length + gap.length, digits.length) := by
  have hhead : (digits ++ rest).head?.all (!isGap ·) = true := by
    obtain ⟨d, ds, rfl⟩ := exists_cons_of_ne_nil hdigits
    simpa using isGap_of_isDigit (hall d mem_cons_self)
  have hend : rest.head?.all (!Char.isDigit ·) = true := by
    cases rest with
    | nil => rfl
    | cons c rest => simpa using isDigit_of_endsNumber (by simpa using hrest)
  have hkey : kKey.isPrefixOf (kKey ++ gap ++ digits ++ rest) = true := by
    rw [append_assoc, append_assoc]
    exact isPrefixOf_iff_prefix.mpr (prefix_append _ _)
  rw [numberAt, if_pos hkey]
  have htail : (kKey ++ gap ++ digits ++ rest).drop kKey.length = gap ++ (digits ++ rest) := by
    rw [append_assoc, append_assoc, drop_left]
  simp only [htail]
  rw [takeWhile_append_head hgaps hhead, drop_left, takeWhile_append_head hall hend,
    if_neg (not_or.mpr ⟨hgap, hdigits⟩), ← append_assoc, ← length_append, drop_left,
    if_pos hrest]

theorem numberAt_gap {gap : List Char} (hgaps : ∀ c ∈ gap, isGap c = true) :
    numberAt (kKey ++ gap) = none := by
  have htake := takeWhile_append_head (r := []) hgaps rfl
  rw [append_nil] at htake
  rw [numberAt]
  simp [htake]

theorem found_match {buf : List Char} {start len : Nat} (h : findNumber buf = some (start, len)) :
    ∃ i place, lineStart buf i = true ∧ numberAt (buf.drop i) = some (place, len) ∧ start = i + place := by
  rw [findNumber] at h
  obtain ⟨i, -, hi⟩ := exists_of_findSome?_eq_some h
  split at hi
  · obtain ⟨⟨place, len'⟩, hnumber, heq⟩ := Option.map_eq_some_iff.mp hi
    obtain ⟨rfl, rfl⟩ := Prod.mk.inj heq
    exact ⟨i, place, ‹_›, hnumber, rfl⟩
  · exact absurd hi (by simp)

theorem found_of_match {buf : List Char} (hstart : lineStart buf i = true)
    (hnumber : numberAt (buf.drop i) = some found) : findNumber buf ≠ none := by
  have hlen := (key_isPrefix hnumber).length_le
  rw [length_drop] at hlen
  have hpos : 0 < kKey.length := by decide
  have hi : i < buf.length + 1 - kKey.length := by omega
  intro hnone
  have hno := findSome?_eq_none_iff.mp hnone i (mem_range.mpr hi)
  rw [if_pos hstart, hnumber] at hno
  exact absurd hno (by simp)

theorem sanitize_of_none {buf : List Char} (h : findNumber buf = none) : sanitizeTracerPid buf = buf := by
  rw [sanitizeTracerPid, h]

theorem newRead_eq {slots : List Int} {fd : Int} (h : isTrackedFd slots fd = true) (bytes : List Char) :
    newRead slots fd bytes = sanitizeTracerPid bytes := by
  rw [newRead]
  split
  · rfl
  case isFalse hempty =>
    have hnil : bytes = [] := Classical.not_not.mp fun hne => hempty ⟨hne, h⟩
    rw [hnil]
    decide

/-- What comes of a buffer whose first number is this one. -/
theorem sanitize_found {p digits q : List Char}
    (h : findNumber (p ++ digits ++ q) = some (p.length, digits.length)) :
    sanitizeTracerPid (p ++ digits ++ q) = p ++ zeroed digits.length ++ q := by
  rw [sanitizeTracerPid, h]
  dsimp only
  rw [append_assoc]
  split
  case isTrue hzero =>
    -- the number is 0 already
    obtain ⟨d, hd⟩ := length_eq_one_iff.mp hzero.1
    rw [getElem?_append_right (Nat.le_refl _), Nat.sub_self, hd] at hzero
    obtain rfl : d = '0' := Option.some.inj hzero.2
    rw [hd, append_assoc p]
    rfl
  case isFalse => rw [take_left, drop_length_add_append, drop_left]

/-! ### Chunks -/

theorem lineStart_append {l r : List Char} (hi : i ≤ c.length) (hpos : 0 < i) :
    lineStart (l ++ c ++ r) (l.length + i) = lineStart c i := by
  have hplace : (l ++ c ++ r)[l.length + i - 1]? = (c)[i - 1]? := by
    rw [Nat.add_sub_assoc hpos, append_assoc, getElem?_append_right (Nat.le_add_right _ _),
      Nat.add_sub_cancel_left, getElem?_append_left (Nat.lt_of_lt_of_le (Nat.sub_lt hpos Nat.one_pos) hi)]
  rw [lineStart, lineStart, hplace, decide_eq_false (Nat.ne_of_gt hpos),
    decide_eq_false (Nat.ne_of_gt (Nat.add_pos_right _ hpos))]

variable {file : StatusFile} {l r : List (List Char)} {c : List Char}

theorem text_eq (h : (l ++ c :: r).flatten = file.text) : file.text = l.flatten ++ c ++ r.flatten := by
  rw [← h, flatten_append, flatten_cons, append_assoc]

theorem key_fits (h : numberAt (c.drop i) = some found) :
    i + kKey.length ≤ c.length := by
  have hlen := (key_isPrefix h).length_le
  rw [length_drop] at hlen
  have hpos : 0 < kKey.length := by decide
  omega

/-- What is found in a chunk is the field of the file. -/
theorem unique_match (h : (l ++ c :: r).flatten = file.text) (hmid : file.NoLookAlike (l ++ c :: r))
    (hstart : lineStart c i = true) (hnumber : numberAt (c.drop i) = some found) :
    l.flatten.length + i = file.before.length := by
  have htext := text_eq h
  have hi : i ≤ c.length := Nat.le_of_add_right_le (key_fits hnumber)
  refine file.only _ ?_ ?_
  · change lineStart file.text _ = true
    rcases Nat.eq_zero_or_pos i with rfl | hpos
    · -- the chunk begins with the field, so it does not begin inside a line
      rw [Nat.add_zero]
      rw [drop_zero] at hnumber
      refine Bool.not_eq_false _ |>.mp fun hinside => ?_
      rw [hmid l c r rfl hinside] at hnumber
      exact absurd hnumber (by simp)
    · rw [htext, lineStart_append hi hpos, hstart]
  · change kKey <+: file.text.drop _
    rw [htext, append_assoc, drop_length_add_append, drop_append_of_le_length hi]
    exact (key_isPrefix hnumber).trans (prefix_append _ _)

/-- A chunk in which the field does not begin is left as it is. -/
theorem sanitize_elsewhere (h : (l ++ c :: r).flatten = file.text) (hmid : file.NoLookAlike (l ++ c :: r))
    (hplace : ∀ i, l.flatten.length + i = file.before.length → ¬ i + kKey.length ≤ c.length) :
    sanitizeTracerPid c = c := by
  refine sanitize_of_none (Option.eq_none_iff_forall_ne_some.mpr ?_)
  rintro ⟨start, len⟩ hfound
  obtain ⟨i, place, hstart, hnumber, -⟩ := found_match hfound
  exact hplace i (unique_match h hmid hstart hnumber) (key_fits hnumber)

theorem head_of_append {a : List Char} (h : (a ++ rest).head?.all endsNumber = true) :
    a.head?.all endsNumber = true := by
  cases a with
  | nil => rfl
  | cons x a => exact h

theorem lineStart_text (file : StatusFile) : lineStart file.text file.before.length = true := by
  rcases Nat.eq_zero_or_pos file.before.length with hzero | hpos
  · rw [hzero]
    rfl
  · have hmove := lineStart_append (l := []) (r := file.field ++ file.after)
      (Nat.le_refl file.before.length) hpos
    rw [nil_append, length_nil, Nat.zero_add, ← append_assoc] at hmove
    rw [StatusFile.text, hmove, file.starts]

/-- In the chunk with the field, it begins a line. -/
theorem lineStart_home {b a : List Char} (h : (l ++ (b ++ file.field ++ a) :: r).flatten = file.text)
    (hbefore : file.before = l.flatten ++ b) : lineStart (b ++ file.field ++ a) b.length = true := by
  rcases Nat.eq_zero_or_pos b.length with hzero | hpos
  · rw [hzero]
    rfl
  · have hfit : b.length ≤ (b ++ file.field ++ a).length := by
      rw [append_assoc, length_append]
      exact Nat.le_add_right _ _
    rw [← lineStart_append (l := l.flatten) (r := r.flatten) hfit hpos, ← text_eq h,
      ← length_append, ← hbefore]
    exact lineStart_text file

theorem sanitize_home {b a : List Char} (h : (l ++ (b ++ file.field ++ a) :: r).flatten = file.text)
    (hmid : file.NoLookAlike (l ++ (b ++ file.field ++ a) :: r)) (hbefore : file.before = l.flatten ++ b)
    (hafter : file.after = a ++ r.flatten) :
    sanitizeTracerPid (b ++ file.field ++ a) = b ++ kKey ++ file.gap ++ zeroed file.digits.length ++ a := by
  have hlen : file.before.length = l.flatten.length + b.length := by rw [hbefore, length_append]
  have hstart := lineStart_home h hbefore
  have hnumber : numberAt ((b ++ file.field ++ a).drop b.length) =
      some (kKey.length + file.gap.length, file.digits.length) := by
    rw [append_assoc, drop_left]
    exact numberAt_field file.gap_ne file.gap_all file.digits_ne file.digits_all
      (head_of_append (hafter ▸ file.ends))
  obtain ⟨⟨start, len⟩, hfound⟩ := Option.ne_none_iff_exists'.mp (found_of_match hstart hnumber)
  obtain ⟨i, place, hstart', hnumber', hplace⟩ := found_match hfound
  -- the match that comes first is the only one
  have hi : i = b.length := Nat.add_left_cancel ((unique_match h hmid hstart' hnumber').trans hlen)
  rw [hi, hnumber] at hnumber'
  obtain ⟨rfl, rfl⟩ := Prod.mk.inj (Option.some.inj hnumber')
  have hsplit : b ++ file.field ++ a = b ++ kKey ++ file.gap ++ file.digits ++ a := by
    simp only [StatusFile.field, append_assoc]
  have hprefix : start = (b ++ kKey ++ file.gap).length := by
    rw [hplace, hi, length_append, length_append, Nat.add_assoc]
  rw [hsplit, hprefix] at hfound
  rw [hsplit]
  exact sanitize_found hfound

/-- A buffer that begins with the field of a 0, whole or in part, has no other number. -/
theorem numberAt_zero {gap tail after : List Char} (hgap : gap ≠ []) (hgaps : ∀ c ∈ gap, isGap c = true)
    (hafter : after.head?.all endsNumber = true) (h : rest ++ tail = kKey ++ gap ++ ['0'] ++ after)
    {place len : Nat} (hnumber : numberAt rest = some (place, len)) : len = 1 ∧ rest[place]? = some '0' := by
  obtain ⟨more, rfl⟩ := key_isPrefix hnumber
  have hmore : more ++ tail = gap ++ ('0' :: after) := by
    simpa only [append_assoc, append_cancel_left_eq, singleton_append] using h
  have hnogap : ∀ g, more = g → (∀ c ∈ g, isGap c = true) → False := by
    rintro g rfl hg
    rw [numberAt_gap hg] at hnumber
    exact absurd hnumber (by simp)
  rcases append_eq_append_iff.mp hmore with ⟨x, hgapx, -⟩ | ⟨x, hmorex, hx⟩
  · exact (hnogap more rfl fun c hc => hgaps c (hgapx ▸ mem_append_left _ hc)).elim
  · cases x with
    | nil => exact (hnogap gap (by rw [hmorex, append_nil]) hgaps).elim
    | cons d y =>
      obtain ⟨rfl, rfl⟩ := List.cons.inj hx
      have hfield := numberAt_field hgap hgaps (cons_ne_nil '0' []) (by simp) (head_of_append hafter)
      rw [hmorex, ← append_assoc, show '0' :: y = ['0'] ++ y from rfl, ← append_assoc, hfield] at hnumber
      obtain ⟨rfl, rfl⟩ := Prod.mk.inj (Option.some.inj hnumber)
      refine ⟨rfl, ?_⟩
      rw [hmorex, ← append_assoc, ← length_append, getElem?_append_right (Nat.le_refl _),
        Nat.sub_self]
      rfl

/-- If the number is 0 no chunk is changed, however it is cut. -/
theorem sanitize_zero (hzero : file.digits = ['0']) (h : (l ++ c :: r).flatten = file.text)
    (hmid : file.NoLookAlike (l ++ c :: r)) : sanitizeTracerPid c = c := by
  rw [sanitizeTracerPid]
  split
  case h_1 => rfl
  case h_2 start len hfound =>
    obtain ⟨i, place, hstart, hnumber, rfl⟩ := found_match hfound
    have hplace := unique_match h hmid hstart hnumber
    have hi : i ≤ c.length := Nat.le_of_add_right_le (key_fits hnumber)
    have hrest : c.drop i ++ r.flatten = kKey ++ file.gap ++ ['0'] ++ file.after := by
      have hdrop := congrArg (List.drop file.before.length) (text_eq h)
      rw [StatusFile.text, append_assoc, drop_left, ← hplace, append_assoc,
        drop_length_add_append, drop_append_of_le_length hi, StatusFile.field, hzero] at hdrop
      exact hdrop.symm
    obtain ⟨hone, hdigit⟩ := numberAt_zero file.gap_ne file.gap_all file.ends hrest hnumber
    rw [getElem?_drop] at hdigit
    rw [if_pos ⟨hone, hdigit⟩]

theorem delivered_unchanged {slots : List Int} {fd : Int} (htracked : isTrackedFd slots fd = true)
    {chunks : List (List Char)} (h : ∀ c ∈ chunks, sanitizeTracerPid c = c) :
    delivered slots fd chunks = chunks.flatten := by
  rw [delivered, map_congr_left (g := id) fun c hc => (newRead_eq htracked c).trans (h c hc), map_id]

theorem delivered_append (slots : List Int) (fd : Int) (l r : List (List Char)) :
    delivered slots fd (l ++ r) = delivered slots fd l ++ delivered slots fd r := by
  rw [delivered, map_append, flatten_append, delivered, delivered]

theorem length_zeroed {n : Nat} (h : 0 < n) : (zeroed n).length = n := by
  rw [zeroed, length_cons, length_replicate, Nat.sub_add_cancel h]

theorem getElem?_middle {p m m' q : List Char} (hlen : m'.length = m.length)
    (hi : ¬ (p.length ≤ i ∧ i < p.length + m.length)) : (p ++ m' ++ q)[i]? = (p ++ m ++ q)[i]? := by
  rcases Nat.lt_or_ge i p.length with hlt | hge
  · rw [append_assoc, append_assoc, getElem?_append_left hlt, getElem?_append_left hlt]
  · have hend : (p ++ m).length ≤ i := by
      rw [length_append]
      exact Nat.not_lt.mp fun hlt => hi ⟨hge, hlt⟩
    have hend' : (p ++ m').length ≤ i := by rwa [length_append, hlen, ← length_append]
    rw [getElem?_append_right hend', getElem?_append_right hend, length_append,
      length_append, hlen]

theorem showsZero_zeroed (file : StatusFile) :
    file.ShowsZero (file.before ++ kKey ++ file.gap ++ zeroed file.digits.length ++ file.after) := by
  have hlen := length_zeroed (length_pos_iff.mpr file.digits_ne)
  have hstart : file.numberStart = (file.before ++ kKey ++ file.gap).length := by
    rw [StatusFile.numberStart, length_append, length_append]
  have htext : file.text = file.before ++ kKey ++ file.gap ++ file.digits ++ file.after := by
    simp only [StatusFile.text, StatusFile.field, append_assoc]
  refine ⟨?_, ?_, fun i hi => ?_⟩
  · simp only [htext, length_append, hlen]
  · rw [hstart, append_assoc _ (zeroed _), drop_left]
    exact take_left' hlen
  · rw [htext]
    rw [hstart] at hi
    exact getElem?_middle hlen hi

end TracerLemmas

open TracerLemmas

/-- If the number is 0 already or one read returns the whole field, and no read begins inside a line
with what looks like one, then 0 is shown and all else is as in the file. -/
theorem delivered_shows_zero (file : StatusFile) (slots : List Int) (fd : Int)
    (htracked : isTrackedFd slots fd = true) (chunks : List (List Char)) (hchunks : chunks.flatten =
      file.text)
    (hfield : file.digits = ['0'] ∨ file.HeldByOne chunks) (hmid : file.NoLookAlike chunks) :
    file.ShowsZero (delivered slots fd chunks) := by
  rcases hfield with hzero | ⟨l, b, a, r, rfl, hbefore, hafter⟩
  · have hsame : delivered slots fd chunks = chunks.flatten := by
      refine delivered_unchanged htracked fun c hc => ?_
      obtain ⟨l, r, rfl⟩ := append_of_mem hc
      exact sanitize_zero hzero hchunks hmid
    have htext : file.text = file.before ++ kKey ++ file.gap ++ zeroed file.digits.length ++ file.after := by
      rw [StatusFile.text, StatusFile.field, hzero, ← append_assoc, ← append_assoc]
      rfl
    rw [hsame, hchunks, htext]
    exact showsZero_zeroed file
  · have hbefore' : file.before.length = l.flatten.length + b.length := by rw [hbefore, length_append]
    have hleft : delivered slots fd l = l.flatten := by
      refine delivered_unchanged htracked fun c hc => ?_
      obtain ⟨l₁, l₂, rfl⟩ := append_of_mem hc
      rw [append_assoc, cons_append] at hchunks hmid
      refine sanitize_elsewhere hchunks hmid fun i hi hfit => ?_
      -- the field begins after this chunk
      simp only [flatten_append, flatten_cons, length_append] at hbefore'
      have hpos : 0 < kKey.length := by decide
      omega
    have hright : delivered slots fd r = r.flatten := by
      refine delivered_unchanged htracked fun c hc => ?_
      obtain ⟨r₁, r₂, rfl⟩ := append_of_mem hc
      rw [← cons_append, ← append_assoc] at hchunks hmid
      refine sanitize_elsewhere hchunks hmid fun i hi _ => ?_
      -- the field begins before this chunk
      simp only [flatten_append, flatten_cons, length_append, StatusFile.field] at hi
      have hpos : 0 < kKey.length := by decide
      omega
    have hhome := sanitize_home hchunks hmid hbefore hafter
    have hall : delivered slots fd (l ++ (b ++ file.field ++ a) :: r) =
        file.before ++ kKey ++ file.gap ++ zeroed file.digits.length ++ file.after := by
      rw [delivered_append, hleft, ← singleton_append, delivered_append, hright, delivered,
        map_singleton, flatten_singleton, newRead_eq htracked, hhome, hbefore, hafter]
      simp only [append_assoc]
    rw [hall]
    exact showsZero_zeroed file

/-- Only places where the key fits are to be looked at. -/
theorem only_of_bounded {text : List Char} {n : Nat}
    (h : ∀ i, i < text.length → lineStart text i = true → kKey <+: text.drop i → i = n) :
    ∀ i, lineStart text i = true → kKey <+: text.drop i → i = n := by
  intro i hstart hkey
  have hlen := hkey.length_le
  rw [length_drop] at hlen
  exact h i (Nat.lt_of_sub_pos (Nat.lt_of_lt_of_le (by decide) hlen)) hstart hkey

def tracedFile : StatusFile where
  before := "Name:\tsh\n".toList
  gap := ['\t']
  digits := "1234".toList
  after := "\nUid:\t0\n".toList
  starts := by decide
  gap_ne := by decide
  gap_all := all_eq_true.mp (by decide)
  digits_ne := by decide
  digits_all := all_eq_true.mp (by decide)
  ends := by decide
  only := only_of_bounded (by decide)

/-- Two reads, the first of which returns the line. -/
theorem delivered_shows_zero_lines :
    isTrackedFd (trackFd 7 noFds) 7 = true ∧
      tracedFile.ShowsZero (delivered (trackFd 7 noFds) 7
        ["Name:\tsh\nTracerPid:\t1234\n".toList, "Uid:\t0\n".toList]) := by
  refine ⟨by decide, delivered_shows_zero tracedFile _ 7 (by decide) _ (by decide) (.inr ?_) ?_⟩
  · exact ⟨[], "Name:\tsh\n".toList, ['\n'], ["Uid:\t0\n".toList], by decide, by decide, by decide⟩
  · rintro (_ | ⟨x, _ | ⟨y, l⟩⟩) c r h hinside
    · exact absurd hinside (by decide)
    · obtain ⟨rfl, -⟩ := List.cons.inj h
      exact absurd hinside (by decide)
    · exact absurd (congrArg List.length h) (by simp)

/-- A program may have this name. -/
def namedFile : StatusFile where
  before := "Name:\tTracerPid: 5\n".toList
  gap := ['\t']
  digits := "1234".toList
  after := "\n".toList
  starts := by decide
  gap_ne := by decide
  gap_all := all_eq_true.mp (by decide)
  digits_ne := by decide
  digits_all := all_eq_true.mp (by decide)
  ends := by decide
  only := only_of_bounded (by decide)

/-- Read by single bytes the file is delivered as it is; and a read that begins with the name
changes that instead of the number. -/
theorem cut_shows_tracer :
    ¬ (∀ chunks, chunks.flatten = tracedFile.text →
      tracedFile.ShowsZero (delivered (trackFd 7 noFds) 7 chunks)) ∧
    ¬ (∀ chunks, chunks.flatten = namedFile.text → namedFile.HeldByOne chunks →
      namedFile.ShowsZero (delivered (trackFd 7 noFds) 7 chunks)) := by
  constructor
  · intro h
    have hshown := (h (tracedFile.text.map fun c => [c]) (by decide)).zero
    exact absurd hshown (by decide)
  · intro h
    have hheld : namedFile.HeldByOne ["Name:\t".toList, "TracerPid: 5\nTracerPid:\t1234\n".toList] :=
      ⟨["Name:\t".toList], "TracerPid: 5\n".toList, ['\n'], [], by decide, by decide, by decide⟩
    exact absurd (h _ (by decide) hheld).zero (by decide)

end NyaZygisk.TracerPid
