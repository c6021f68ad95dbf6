import NyaZygisk.Fossil
import NyaZygisk.Lib.Decimal
import Mathlib

/-!
# Two parsers of `mountinfo`

The kernel writes a mount as one line: numbers, paths and options, any number of optional fields, a
field that is a single dash, and the type, source and options of the file system. `parse_mount_info`
of `unmount.cpp` cuts the line at single spaces and reads the numbers in place;
`parseMountInfoLine` of `fossil.cpp` skips white space of any kind.
-/

namespace NyaZygisk.MountInfoLines

open CStrings List NyaZygisk.Fossil

/-! ## `parse_mount_info` -/

/-- A `std::string_view`, and the bytes from its end up to the terminator of the string it is a part
of. -/
structure View where
  text : List UInt8
  beyond : List UInt8

/-- `data()` as a C string. -/
def View.data (v : View) : List UInt8 := v.text ++ v.beyond

def fastAtoi (str : List UInt8) : Int := Int.bmod (Decimal.read (2 ^ 32) 0 str).1 (2 ^ 32)

/-- The numbers before and after the colon. -/
def parseDevice (str : List UInt8) : Option (Nat × Nat) :=
  let maj := Decimal.read (2 ^ 32) 0 str
  match maj.2 with
  | 0x3A :: str => some (maj.1, (Decimal.read (2 ^ 32) 0 str).1)
  | _ => none

/-- The token, and the view after it. At the end the view is an empty string of its own. -/
def getNextToken (str : View) : View × View :=
  let token := str.text.takeWhile (· ≠ 0x20)
  let tail := str.text.dropWhile (· ≠ 0x20)
  let next := tail.dropWhile (· = 0x20)
  (⟨token, tail ++ str.beyond⟩, if next.isEmpty then ⟨[], []⟩ else ⟨next, str.beyond⟩)

/-- `makedev` of the C library. -/
def makedev (maj min : BitVec 32) : BitVec 64 :=
  let maj := maj.setWidth 64
  let min := min.setWidth 64
  (maj &&& 0xfffff000#64) <<< 32 ||| (maj &&& 0xfff#64) <<< 8 ||| (min &&& 0xffffff00#64) <<< 12 |||
    (min &&& 0xff#64)

/-- What mounts are selected by. -/
structure Mount (τ : Type) where
  id : Nat
  parent : Nat
  root : τ
  target : τ
  source : τ
deriving DecidableEq

structure MountInfo extends Mount (List UInt8) where
  device : BitVec 64
  vfsOptions : List UInt8
  type : List UInt8
  fsOptions : List UInt8
  rawInfo : List UInt8
deriving DecidableEq

/-- An `int` stored as `unsigned int`. -/
def toUnsigned (n : Int) : Nat := (n % 2 ^ 32).toNat

/-- The body of the loop of `parse_mount_info`. -/
def parseLine (line : List UInt8) : Option MountInfo :=
  match indexOf (ascii " - ") line with
  | none => none
  | some separatorPos =>
    let part1 : View := ⟨line.take separatorPos, line.drop separatorPos⟩
    let part2 : View := ⟨cString 0 (line.drop (separatorPos + 3)), []⟩
    let id := getNextToken part1
    let parent := getNextToken id.2
    let device := getNextToken parent.2
    let root := getNextToken device.2
    let target := getNextToken root.2
    match parseDevice device.1.data with
    | none => none
    | some (maj, min) =>
      let type := getNextToken part2
      let source := getNextToken type.2
      some
        { id := toUnsigned (fastAtoi id.1.data)
          parent := toUnsigned (fastAtoi parent.1.data)
          device := makedev (BitVec.ofNat 32 maj) (BitVec.ofNat 32 min)
          root := root.1.text
          target := target.1.text
          vfsOptions := target.2.text
          type := type.1.text
          source := source.1.text
          fsOptions := source.2.text
          rawInfo := line }

/-- `parse_mount_info`: the entries of the file, which may fail to open. -/
def parseMountInfo (file : Option (List UInt8)) : List MountInfo :=
  (Lines.split 0x0A (file.getD [])).filterMap parseLine

/-! ## What the kernel writes -/

/-- A field as the kernel escapes it. -/
structure Field where
  bytes : List UInt8
  ne_nil : bytes ≠ []
  no_space : ∀ b ∈ bytes, isSpace b = false
  no_nul : 0 ∉ bytes

def dash : List UInt8 := ascii "-"

structure MountEntry where
  id : Nat
  parent : Nat
  major : BitVec 32
  minor : BitVec 32
  root : Field
  target : Field
  vfsOptions : Field
  optional : List Field
  type : Field
  source : Field
  superOptions : Field
  id_lt : id < 2 ^ 31
  parent_lt : parent < 2 ^ 31
  /-- The field that ends the optional ones is the first that is a dash. -/
  ne_dash : ∀ f ∈ root :: target :: vfsOptions :: optional, f.bytes ≠ dash

def joined (words : List (List UInt8)) : List UInt8 := [0x20].intercalate words

namespace MountEntry

variable (e : MountEntry)

def device : List UInt8 := Decimal.numeral e.major.toNat ++ 0x3A :: Decimal.numeral e.minor.toNat

def before : List (List UInt8) :=
  Decimal.numeral e.id :: Decimal.numeral e.parent :: e.device :: e.root.bytes :: e.target.bytes ::
    (e.vfsOptions :: e.optional).map Field.bytes

def after : List (List UInt8) := [e.type.bytes, e.source.bytes, e.superOptions.bytes]

def render : List UInt8 := joined e.before ++ ascii " - " ++ joined e.after

/-- The mount as `parse_mount_info` should return it. -/
def info : MountInfo where
  id := e.id
  parent := e.parent
  device := makedev e.major e.minor
  root := e.root.bytes
  target := e.target.bytes
  vfsOptions := joined ((e.vfsOptions :: e.optional).map Field.bytes)
  type := e.type.bytes
  source := e.source.bytes
  fsOptions := e.superOptions.bytes
  rawInfo := e.render

end MountEntry

namespace MountInfoLinesLemmas

/-! ### Words -/

structure IsWord (w : List UInt8) : Prop where
  ne_nil : w ≠ []
  no_space : ∀ b ∈ w, isSpace b = false

variable {w : List UInt8}

theorem IsWord.no_blank (hw : IsWord w) {b : UInt8} (hb : b ∈ w) : b ≠ 0x20 := by
  rintro rfl
  exact absurd (hw.no_space _ hb) (by decide)

theorem Field.isWord (f : Field) : IsWord f.bytes := ⟨f.ne_nil, f.no_space⟩

theorem isSpace_of_isDigit {b : UInt8} (h : Decimal.isDigit b = true) : isSpace b = false := by
  rw [Decimal.isDigit, Bool.and_eq_true, decide_eq_true_iff, decide_eq_true_iff, UInt8.le_iff_toNat_le,
    UInt8.le_iff_toNat_le] at h
  rw [isSpace, Bool.or_eq_false_iff, Bool.and_eq_false_iff, decide_eq_false_iff_not, decide_eq_false_iff_not,
    decide_eq_false_iff_not, UInt8.le_iff_toNat_le, UInt8.le_iff_toNat_le, ← UInt8.toNat_inj]
  have h1 : (0x30 : UInt8).toNat = 48 := rfl
  have h2 : (13 : UInt8).toNat = 13 := rfl
  have h3 : (0x20 : UInt8).toNat = 32 := rfl
  omega

theorem isWord_numeral (n : Nat) : IsWord (Decimal.numeral n) :=
  ⟨Decimal.numeral_ne_nil n, fun _ hb => isSpace_of_isDigit (Decimal.isDigit_of_mem_numeral hb)⟩

theorem isWord_device (e : MountEntry) : IsWord e.device := by
  refine ⟨append_ne_nil_of_left_ne_nil (Decimal.numeral_ne_nil _) _, fun b hb => ?_⟩
  rcases mem_append.mp hb with hb | hb
  · exact (isWord_numeral _).no_space b hb
  · rcases mem_cons.mp hb with rfl | hb
    · rfl
    · exact (isWord_numeral _).no_space b hb

theorem joined_singleton (w : List UInt8) : joined [w] = w := intercalate_singleton

theorem joined_cons_cons (w w' : List UInt8) (words : List (List UInt8)) :
    joined (w :: w' :: words) = w ++ 0x20 :: joined (w' :: words) := by
  rw [joined, intercalate_cons_cons, append_assoc, singleton_append, joined]

theorem mem_joined {words : List (List UInt8)} {b : UInt8} (h : b ∈ joined words) :
    b = 0x20 ∨ ∃ w ∈ words, b ∈ w := by
  induction words with
  | nil => cases h
  | cons w words ih =>
    cases words with
    | nil =>
      rw [joined_singleton] at h
      exact .inr ⟨w, mem_singleton_self w, h⟩
    | cons w' words =>
      rw [joined_cons_cons, mem_append, mem_cons] at h
      rcases h with h | h | h
      · exact .inr ⟨w, mem_cons_self, h⟩
      · exact .inl h
      · exact (ih h).imp_right fun ⟨v, hv, hb⟩ => ⟨v, mem_cons_of_mem w hv, hb⟩

theorem joined_eq_cons (hw : IsWord w) (words : List (List UInt8)) :
    ∃ c text, joined (w :: words) = c :: text ∧ isSpace c = false := by
  obtain ⟨c, w', rfl⟩ := exists_cons_of_ne_nil hw.ne_nil
  have hc := hw.no_space c mem_cons_self
  cases words with
  | nil => exact ⟨c, w', joined_singleton _, hc⟩
  | cons v words => exact ⟨c, _, joined_cons_cons .., hc⟩

/-! ### The separator -/

theorem separator_eq : ascii " - " = [0x20, 0x2D, 0x20] := by decide

theorem indexOf_append (hw : ∀ b ∈ w, b ≠ 0x20) (text : List UInt8) :
    indexOf (ascii " - ") (w ++ text) = (indexOf (ascii " - ") text).map (· + w.length) := by
  induction w with
  | nil => exact (Option.map_id' ..).symm
  | cons c w ih =>
    have hc : (ascii " - ").isPrefixOf (c :: (w ++ text)) = false := by
      rw [separator_eq, isPrefixOf_cons_cons, Bool.and_eq_false_iff]
      exact .inl (beq_false_of_ne (hw c mem_cons_self).symm)
    rw [cons_append, indexOf, hc, if_neg Bool.false_ne_true, ih fun b hb => hw b (mem_cons_of_mem c hb),
      Option.map_map]
    rfl

theorem not_separator (hw : IsWord w) (hdash : w ≠ dash) (text : List UInt8) :
    (ascii " - ").isPrefixOf (0x20 :: (w ++ 0x20 :: text)) = false := by
  rw [Bool.eq_false_iff, Ne, isPrefixOf_iff_prefix]
  rintro ⟨rest, h⟩
  match w, hw, hdash with
  | [], hw, _ => exact hw.ne_nil rfl
  | [c], _, hdash =>
    obtain ⟨-, h⟩ := cons_eq_cons.mp h
    obtain ⟨hc, -⟩ := cons_eq_cons.mp h
    exact hdash (congrArg (fun c => [c]) hc.symm)
  | c :: d :: w, hw, _ =>
    obtain ⟨-, h⟩ := cons_eq_cons.mp h
    obtain ⟨-, h⟩ := cons_eq_cons.mp h
    obtain ⟨hd, -⟩ := cons_eq_cons.mp h
    exact hw.no_blank (mem_cons_of_mem c mem_cons_self) hd.symm

theorem exists_blank_after (w : List UInt8) (words : List (List UInt8)) (rest : List UInt8) :
    ∃ text, joined (w :: words) ++ (ascii " - " ++ rest) = w ++ 0x20 :: text := by
  cases words with
  | nil => exact ⟨0x2D :: 0x20 :: rest, by rw [joined_singleton]; rfl⟩
  | cons w' words =>
    refine ⟨joined (w' :: words) ++ (ascii " - " ++ rest), ?_⟩
    rw [joined_cons_cons, append_assoc, cons_append]

/-- The first dash that is a word of its own is the one that was written. -/
theorem indexOf_separator {words : List (List UInt8)} (hwords : ∀ v ∈ w :: words, IsWord v)
    (hdash : ∀ v ∈ words, v ≠ dash) (rest : List UInt8) :
    indexOf (ascii " - ") (joined (w :: words) ++ (ascii " - " ++ rest)) =
      some (joined (w :: words)).length := by
  have hw := fun b hb => (hwords w mem_cons_self).no_blank (b := b) hb
  induction words generalizing w with
  | nil =>
    have hhere : indexOf (ascii " - ") (ascii " - " ++ rest) = some 0 := by
      rw [separator_eq]
      rfl
    rw [joined_singleton, indexOf_append hw, hhere, Option.map_some, Nat.zero_add]
  | cons w' words ih =>
    have hrest := forall_mem_cons.mp hwords |>.2
    have hword' := hrest w' mem_cons_self
    have htail := ih hrest (fun v hv => hdash v (mem_cons_of_mem w' hv)) fun b hb => hword'.no_blank hb
    have hnext : indexOf (ascii " - ") (0x20 :: (joined (w' :: words) ++ (ascii " - " ++ rest))) =
        some ((joined (w' :: words)).length + 1) := by
      obtain ⟨text, htext⟩ := exists_blank_after w' words rest
      rw [indexOf, htext, not_separator hword' (hdash w' mem_cons_self), if_neg Bool.false_ne_true, ← htext,
        htail]
      rfl
    rw [joined_cons_cons, append_assoc, cons_append, indexOf_append hw, hnext, Option.map_some,
      length_append, length_cons, Nat.add_comm]

/-! ### The two tokenizers -/

theorem getNextToken_joined {w' : List UInt8} (hw : IsWord w) (hw' : IsWord w') (words : List (List UInt8))
    (beyond : List UInt8) :
    getNextToken ⟨joined (w :: w' :: words), beyond⟩ =
      (⟨w, 0x20 :: joined (w' :: words) ++ beyond⟩, ⟨joined (w' :: words), beyond⟩) := by
  have hblank : ∀ b ∈ w, decide (b ≠ 0x20) = true := fun b hb => decide_eq_true (hw.no_blank hb)
  obtain ⟨c, text, htext, hc⟩ := joined_eq_cons hw' words
  have hne : c ≠ 0x20 := by
    rintro rfl
    exact absurd hc (by decide)
  have htoken : (w ++ 0x20 :: c :: text).takeWhile (· ≠ 0x20) = w := by
    rw [takeWhile_append_of_pos hblank, takeWhile_cons_of_neg (by decide), append_nil]
  have htail : (w ++ 0x20 :: c :: text).dropWhile (· ≠ 0x20) = 0x20 :: c :: text := by
    rw [dropWhile_append_of_pos hblank, dropWhile_cons_of_neg (by decide)]
  have hnext : (0x20 :: c :: text).dropWhile (· = 0x20) = c :: text := by
    rw [dropWhile_cons_of_pos (by decide), dropWhile_cons_of_neg (by rwa [decide_eq_true_iff])]
  rw [getNextToken, joined_cons_cons, htext]
  simp only [htoken, htail, hnext]
  rfl

theorem nextToken_blank (s : List UInt8) : nextToken (0x20 :: s) = nextToken s := rfl

theorem nextToken_word {rest : List UInt8} (hw : IsWord w) (hrest : ∀ c ∈ rest.head?, isSpace c = true) :
    nextToken (w ++ rest) = (w, rest) := by
  have hword : ∀ b ∈ w, (!isSpace b) = true := fun b hb => by rw [hw.no_space b hb]; rfl
  have hstart : (w ++ rest).dropWhile isSpace = w ++ rest := by
    obtain ⟨c, w', rfl⟩ := exists_cons_of_ne_nil hw.ne_nil
    rw [cons_append, dropWhile_cons_of_neg]
    rw [hw.no_space c mem_cons_self]
    exact Bool.false_ne_true
  have hend : rest.takeWhile (!isSpace ·) = [] ∧ rest.dropWhile (!isSpace ·) = rest := by
    cases rest with
    | nil => exact ⟨rfl, rfl⟩
    | cons c rest =>
      have hc : ¬ (!isSpace c) = true := by rw [hrest c rfl]; decide
      exact ⟨takeWhile_cons_of_neg hc, dropWhile_cons_of_neg hc⟩
  unfold nextToken
  rw [hstart]
  dsimp only
  rw [takeWhile_append_of_pos hword, dropWhile_append_of_pos hword, hend.1, hend.2, append_nil]

theorem nextToken_joined (hw : IsWord w) (w' : List UInt8) (words : List (List UInt8)) :
    nextToken (joined (w :: w' :: words)) = (w, 0x20 :: joined (w' :: words)) := by
  rw [joined_cons_cons]
  exact nextToken_word hw fun c hc => by
    obtain rfl := Option.some_inj.mp hc
    rfl

/-! ### The numbers -/

theorem fastAtoi_numeral {n : Nat} (hn : n < 2 ^ 31) {rest : List UInt8}
    (hrest : ∀ c ∈ rest.head?, Decimal.isDigit c = false) : fastAtoi (Decimal.numeral n ++ rest) = n := by
  have hsmall : n % 2 ^ 32 = n := Nat.mod_eq_of_lt (by omega)
  unfold fastAtoi
  rw [Decimal.read_numeral _ _ rest hrest, hsmall, Int.bmod_eq_of_le (by omega) (by omega)]

theorem toUnsigned_fastAtoi {n : Nat} (hn : n < 2 ^ 31) (rest : List UInt8) :
    toUnsigned (fastAtoi (Decimal.numeral n ++ 0x20 :: rest)) = n := by
  have hblank : ∀ c ∈ (0x20 :: rest).head?, Decimal.isDigit c = false := fun c hc => by
    obtain rfl := Option.some_inj.mp hc
    rfl
  rw [fastAtoi_numeral hn hblank, toUnsigned]
  omega

theorem parseDevice_device (e : MountEntry) (rest : List UInt8) :
    parseDevice (e.device ++ 0x20 :: rest) = some (e.major.toNat, e.minor.toNat) := by
  have hmajor := Decimal.read_numeral_cons (2 ^ 32) e.major.toNat (c := 0x3A) rfl
    (Decimal.numeral e.minor.toNat ++ 0x20 :: rest)
  have hminor := Decimal.read_numeral_cons (2 ^ 32) e.minor.toNat (c := 0x20) rfl rest
  rw [MountEntry.device, append_assoc, cons_append]
  unfold parseDevice
  simp only [hmajor, hminor, Nat.mod_eq_of_lt e.major.isLt, Nat.mod_eq_of_lt e.minor.isLt]

/-! ### A whole line -/

section

variable (e : MountEntry)

theorem isWord_before : ∀ w ∈ e.before, IsWord w := by
  have hfields : ∀ w ∈ (e.vfsOptions :: e.optional).map Field.bytes, IsWord w :=
    forall_mem_map.mpr fun f _ => Field.isWord f
  simp only [MountEntry.before, forall_mem_cons]
  exact ⟨isWord_numeral _, isWord_numeral _, isWord_device e, Field.isWord _, Field.isWord _, hfields⟩

theorem numeral_ne_dash (n : Nat) : Decimal.numeral n ≠ dash := by
  intro h
  have hmem : (0x2D : UInt8) ∈ Decimal.numeral n := h ▸ (by decide)
  exact absurd (Decimal.isDigit_of_mem_numeral hmem) (by decide)

theorem device_ne_dash : e.device ≠ dash := by
  intro h
  have hmem : (0x3A : UInt8) ∈ e.device := mem_append_right _ mem_cons_self
  rw [h] at hmem
  exact absurd hmem (by decide)

theorem ne_dash_before : ∀ w ∈ e.before, w ≠ dash := by
  have hfields := e.ne_dash
  simp only [forall_mem_cons] at hfields
  simp only [MountEntry.before, map_cons, forall_mem_cons, forall_mem_map]
  exact ⟨numeral_ne_dash _, numeral_ne_dash _, device_ne_dash e, hfields⟩

theorem render_eq : e.render = joined e.before ++ (ascii " - " ++ joined e.after) := append_assoc ..

theorem indexOf_render : indexOf (ascii " - ") e.render = some (joined e.before).length := by
  rw [render_eq]
  exact indexOf_separator (isWord_before e) (fun w hw => ne_dash_before e w (mem_cons_of_mem _ hw)) _

theorem take_render : e.render.take (joined e.before).length = joined e.before := by
  rw [render_eq]
  exact take_left

theorem drop_render : e.render.drop (joined e.before).length = ascii " - " ++ joined e.after := by
  rw [render_eq]
  exact drop_left

theorem drop_render_separator : e.render.drop ((joined e.before).length + 3) = joined e.after := by
  rw [← drop_drop, drop_render, separator_eq]
  rfl

theorem cString_after : cString 0 (joined e.after) = joined e.after := by
  refine cString_eq_self fun hb => ?_
  have hafter : ∀ w ∈ e.after, 0 ∉ w := by
    simp only [MountEntry.after, forall_mem_cons]
    exact ⟨e.type.no_nul, e.source.no_nul, e.superOptions.no_nul, nofun⟩
  rcases mem_joined hb with hb | ⟨w, hw, hb⟩
  · exact absurd hb (by decide)
  · exact hafter w hw hb

theorem parseLine_render : parseLine e.render = some e.info := by
  unfold parseLine
  simp only [indexOf_render, take_render, drop_render, drop_render_separator, cString_after]
  simp only [MountEntry.before, MountEntry.after, map_cons,
    getNextToken_joined (isWord_numeral _) (isWord_numeral _), getNextToken_joined
      (isWord_numeral _) (isWord_device e),
    getNextToken_joined (isWord_device e) (Field.isWord _), getNextToken_joined (Field.isWord _)
      (Field.isWord _),
    View.data, cons_append, parseDevice_device, toUnsigned_fastAtoi e.id_lt, toUnsigned_fastAtoi e.parent_lt,
    BitVec.ofNat_toNat, BitVec.setWidth_eq, joined_singleton]
  rfl

theorem parseMountInfoLine_render :
    parseMountInfoLine e.render =
      { target := e.target.bytes, filesystemType := e.type.bytes, source := e.source.bytes,
        mountOptions := e.superOptions.bytes } := by
  have hoptions : (0x20 :: e.superOptions.bytes).dropWhile isSpace = e.superOptions.bytes := by
    obtain ⟨c, rest, h⟩ := exists_cons_of_ne_nil e.superOptions.ne_nil
    have hc : ¬ isSpace c = true := by
      rw [e.superOptions.no_space c (h ▸ mem_cons_self)]
      exact Bool.false_ne_true
    rw [h, dropWhile_cons_of_pos (by decide), dropWhile_cons_of_neg hc]
  unfold parseMountInfoLine
  simp only [indexOf_render, take_render, drop_render_separator]
  simp only [MountEntry.before, MountEntry.after, map_cons, nextToken_joined (isWord_numeral _),
    nextToken_joined (isWord_device e), nextToken_joined (Field.isWord _), nextToken_blank,
      joined_singleton, hoptions]

theorem newline_not_mem_joined {words : List (List UInt8)} (h : ∀ w ∈ words, IsWord w) :
    0x0A ∉ joined words := by
  intro hmem
  rcases mem_joined hmem with hblank | ⟨w, hw, hmem⟩
  · exact absurd hblank (by decide)
  · exact absurd ((h w hw).no_space _ hmem) (by decide)

theorem newline_not_mem_render : 0x0A ∉ e.render := by
  have hafter : ∀ w ∈ e.after, IsWord w := by
    simp only [MountEntry.after, forall_mem_cons]
    exact ⟨Field.isWord _, Field.isWord _, Field.isWord _, nofun⟩
  rw [render_eq, mem_append, mem_append]
  rintro (h | h | h)
  · exact newline_not_mem_joined (isWord_before e) h
  · exact absurd h (by decide)
  · exact newline_not_mem_joined hafter h

end

end MountInfoLinesLemmas

open MountInfoLinesLemmas

/-- `major` of the C library. -/
def major (dev : BitVec 64) :
    BitVec 32 := ((dev >>> 32 &&& 0xfffff000#64) ||| (dev >>> 8 &&& 0xfff#64)).setWidth 32

/-- `minor` of the C library. -/
def minor (dev : BitVec 64) : BitVec 32 := ((dev >>> 12 &&& 0xffffff00#64) ||| (dev &&& 0xff#64)).setWidth 32

/-- A device number holds both of its parts. -/
theorem major_minor_makedev (maj min : BitVec 32) :
    major (makedev maj min) = maj ∧ minor (makedev maj min) = min := by
  unfold major minor makedev
  constructor
  · refine BitVec.eq_of_getLsbD_eq fun i hi => ?_
    interval_cases i <;> simp
  · refine BitVec.eq_of_getLsbD_eq fun i hi => ?_
    interval_cases i <;> simp

/-- On the lines the kernel writes, `parse_mount_info` returns the mounts, and `parseMountInfoLine`
what it takes of each. -/
theorem parsers_invert (entries : List MountEntry) :
    parseMountInfo (some (Lines.render 0x0A (entries.map MountEntry.render))) = entries.map MountEntry.info ∧
    ∀ e ∈ entries,
      (major e.info.device = e.major ∧ minor e.info.device = e.minor) ∧
      parseMountInfoLine e.render =
        { target := e.target.bytes, filesystemType := e.type.bytes, source := e.source.bytes,
          mountOptions := e.superOptions.bytes } := by
  refine ⟨?_, fun e _ => ⟨major_minor_makedev e.major e.minor, parseMountInfoLine_render e⟩⟩
  have hlines : ∀ l ∈ entries.map MountEntry.render, 0x0A ∉ l :=
    forall_mem_map.mpr fun e _ => newline_not_mem_render e
  rw [parseMountInfo, Option.getD_some, Lines.split_render hlines, filterMap_map,
    show parseLine ∘ MountEntry.render = some ∘ MountEntry.info from funext parseLine_render, ← filterMap_map,
    filterMap_some]

-- a root that is a dash would be taken for the separator
example : (parseLine (ascii "1 2 0:3 - /t rw - ext4 s o")).map MountInfo.type =
    some (ascii "/t") := by decide +kernel

end NyaZygisk.MountInfoLines
