import NyaZygisk.Lib.Sleb128

/-!
# Packed relocations

`relocate.cpp`: the APS2 stream of `DT_ANDROID_REL` and `DT_ANDROID_RELA` holds
relocations as signed LEB128 numbers, in groups that share what their flags say.
The functions are for addresses of `w` bits. Of the bytes between `p` and `end` a
`Cursor` keeps those still to be read.
-/

namespace NyaZygisk

open List

open Sleb128

/-- What a shift by 64 bits or more gives, which C++ leaves undefined. -/
abbrev WideShift : Type := BitVec 64 → Nat → BitVec 64

def shiftLeft (wide : WideShift) (value : BitVec 64) (shift : Nat) : BitVec 64 :=
  if shift < 64 then value <<< shift else wide value shift

structure Cursor where
  rest : List (BitVec 8)
  /-- Every number that was read ended inside the buffer. -/
  complete : Bool
deriving DecidableEq

/-- The loop of `ReadSleb128`. -/
def readSlebFrom (wide : WideShift) (complete : Bool) :
    BitVec 64 → Nat → List (BitVec 8) → BitVec 64 × Cursor
  | value, _, [] => (value, ⟨[], false⟩)
  | value, shift, byte :: rest =>
    let value := value ||| shiftLeft wide ((byte &&& 0x7f).setWidth 64) shift
    let shift := shift + 7
    if byte &&& 0x80 ≠ 0 then readSlebFrom wide complete value shift rest
    else if shift < 64 ∧ byte &&& 0x40 ≠ 0 then (value ||| -((1 : BitVec 64) <<< shift), ⟨rest, complete⟩)
    else (value, ⟨rest, complete⟩)

def readSleb128 (wide : WideShift) (c : Cursor) : BitVec 64 × Cursor :=
  readSlebFrom wide c.complete 0 0 c.rest

def readIf (wide : WideShift) (cond : Bool) (value : BitVec 64) (c : Cursor) : BitVec 64 × Cursor :=
  if cond then readSleb128 wide c else (value, c)

/-- A relocation as `emit` is called with it. -/
structure Reloc (w : Nat) where
  offset : BitVec w
  info : BitVec 64
  addend : BitVec 64
deriving DecidableEq

def kGroupedByInfo : BitVec 64 := 1
def kGroupedByOffsetDelta : BitVec 64 := 2
def kGroupedByAddend : BitVec 64 := 4
def kGroupHasAddend : BitVec 64 := 8

section Flags

variable (flags : BitVec 64)

def groupedByInfo : Bool := flags &&& kGroupedByInfo != 0

def groupedByOffsetDelta : Bool := flags &&& kGroupedByOffsetDelta != 0

def hasAddend : Bool := flags &&& kGroupHasAddend != 0

/-- The addend is read once, for the whole group. -/
def sharesAddend : Bool := hasAddend flags && flags &&& kGroupedByAddend != 0

/-- An addend is read for each relocation. -/
def ownAddends : Bool := hasAddend flags && flags &&& kGroupedByAddend == 0

end Flags

variable {w : Nat}

/-- The body of the inner loop of `ForEachPackedReloc`. -/
def nextReloc (wide : WideShift) (flags : BitVec 64) (groupDelta : BitVec w) (r : Reloc w)
    (c : Cursor) : Reloc w × Cursor :=
  let (delta, c) := readIf wide (!groupedByOffsetDelta flags) (groupDelta.setWidth 64) c
  let (info, c) := readIf wide (!groupedByInfo flags) r.info c
  let (addend, c) := readIf wide (ownAddends flags) 0 c
  (⟨r.offset + delta.setWidth w, info, r.addend + addend⟩, c)

/-- The inner loop: the relocations it emits, and the accumulators after it. -/
def groupRelocs (wide : WideShift) (flags : BitVec 64) (groupDelta : BitVec w) :
    Nat → Reloc w → Cursor → List (Reloc w) × Reloc w × Cursor
  | 0, r, c => ([], r, c)
  | n + 1, r, c =>
    let (r, c) := nextReloc wide flags groupDelta r c
    let (emitted, r', c) := groupRelocs wide flags groupDelta n r c
    (r :: emitted, r', c)

/-- What a group says before its relocations: their distance, and the accumulators. -/
def groupHead (wide : WideShift) (flags : BitVec 64) (r : Reloc w) (c : Cursor) :
    BitVec w × Reloc w × Cursor :=
  let (groupDelta, c) := readIf wide (groupedByOffsetDelta flags) 0 c
  let (info, c) := readIf wide (groupedByInfo flags) r.info c
  let (addend, c) := readIf wide (sharesAddend flags) 0 c
  (groupDelta.setWidth w, ⟨r.offset, info, if hasAddend flags then r.addend + addend else 0⟩, c)

/-- The outer loop's body, after the group's size and flags. -/
def readGroup (wide : WideShift) (size flags : BitVec 64) (r : Reloc w) (c : Cursor) :
    List (Reloc w) × Reloc w × Cursor :=
  let (groupDelta, r, c) := groupHead wide flags r c
  groupRelocs wide flags groupDelta size.toInt.toNat r c

/-- The outer loop, of which `n` rounds are looked at: the relocations it emits. -/
def readGroups (wide : WideShift) (total : BitVec 64) :
    Nat → BitVec 64 → Reloc w → Cursor → Option (List (Reloc w) × Cursor)
  | 0, _, _, _ => none
  | n + 1, idx, r, c =>
    if idx.slt total then
      let (size, c) := readSleb128 wide c
      let (flags, c) := readSleb128 wide c
      let (emitted, r, c) := readGroup wide size flags r c
      (readGroups wide total n (idx + size) r c).map fun (more, c) => (emitted ++ more, c)
    else some ([], c)

/-- The relocations `ForEachPackedReloc` emits, and what it returns. -/
structure Decoded (w : Nat) where
  ok : Bool
  emitted : List (Reloc w)
  /-- The declared number of relocations, if it was read. -/
  total : Option Int
  /-- Every number that was used ended inside the buffer. -/
  complete : Bool
deriving DecidableEq

def aps2Magic : List (BitVec 8) := [0x41, 0x50, 0x53, 0x32]

/-- `ForEachPackedReloc`, with at most `n` groups. -/
def forEachPackedReloc (wide : WideShift) (n : Nat) (stream : List (BitVec 8)) : Option (Decoded w) :=
  if stream.take 4 ≠ aps2Magic then some ⟨false, [], none, true⟩
  else
    let (total, c) := readSleb128 wide ⟨stream.drop 4, true⟩
    let (offset, c) := readSleb128 wide c
    (readGroups wide total n 0 ⟨offset.setWidth w, 0, 0⟩ c).map fun (emitted, c) =>
      ⟨true, emitted, some total.toInt, c.complete⟩

/-! ## Encoded streams -/

/-- A number of a stream: one that is used as it is, or an offset that is used as
an address. -/
inductive Item (w : Nat)
  | exact (value : BitVec 64)
  | offset (value : BitVec w)

def Item.Holds : Item w → BitVec 64 → Prop
  | .exact value, v => v = value
  | .offset value, v => v.setWidth w = value

/-- The number that the reference encoder writes. -/
def Item.number : Item w → BitVec 64
  | .exact value => value
  | .offset value => value.signExtend 64

/-- The items are written at the start of the bytes, each as some complete number of
at most ten bytes. -/
inductive Writes : List (Item w) → List (BitVec 8) → Prop
  | nil {rest : List (BitVec 8)} : Writes [] rest
  | cons {item : Item w} {items : List (Item w)} {num rest : List (BitVec 8)} :
      IsNumber num → num.length ≤ 10 → item.Holds (BitVec.ofInt 64 (value num)) →
      Writes items rest → Writes (item :: items) (num ++ rest)

/-- A group of relocations, with what they share. -/
structure Group (w : Nat) where
  flags : BitVec 64
  delta : BitVec w
  info : BitVec 64
  addend : BitVec 64
  relocs : List (Reloc w)

/-- `r` may follow `prev` in a group. -/
structure Group.Follows (g : Group w) (prev r : Reloc w) : Prop where
  offset : groupedByOffsetDelta g.flags = true → r.offset = prev.offset + g.delta
  info : groupedByInfo g.flags = true → r.info = g.info
  noAddend : hasAddend g.flags = false → r.addend = 0
  addend : sharesAddend g.flags = true → r.addend = g.addend

/-- The accumulators before the first relocation of a group. -/
def Group.start (g : Group w) (prev : Reloc w) : Reloc w :=
  ⟨prev.offset, if groupedByInfo g.flags then g.info else prev.info,
    if hasAddend g.flags then if sharesAddend g.flags then g.addend else prev.addend else 0⟩

/-- The relocations are those that the flags allow in a group. -/
def Group.LegalFrom (g : Group w) : Reloc w → List (Reloc w) → Prop
  | _, [] => True
  | prev, r :: rs => g.Follows prev r ∧ g.LegalFrom r rs

/-- The relocation that the next group starts from. -/
def Group.last (g : Group w) (prev : Reloc w) : Reloc w := g.relocs.getLastD (g.start prev)

def Legal : Reloc w → List (Group w) → Prop
  | _, [] => True
  | prev, g :: gs => g.LegalFrom (g.start prev) g.relocs ∧ Legal (g.last prev) gs

def itemIf (cond : Bool) (item : Item w) : List (Item w) := if cond then [item] else []

def Group.relocItems (g : Group w) : Reloc w → List (Reloc w) → List (Item w)
  | _, [] => []
  | prev, r :: rs =>
    itemIf (!groupedByOffsetDelta g.flags) (.offset (r.offset - prev.offset)) ++
      (itemIf (!groupedByInfo g.flags) (.exact r.info) ++
        (itemIf (ownAddends g.flags) (.exact (r.addend - prev.addend)) ++ g.relocItems r rs))

def Group.items (g : Group w) (prev : Reloc w) : List (Item w) :=
  .exact (BitVec.ofNat 64 g.relocs.length) :: .exact g.flags ::
    (itemIf (groupedByOffsetDelta g.flags) (.offset g.delta) ++
      (itemIf (groupedByInfo g.flags) (.exact g.info) ++
        (itemIf (sharesAddend g.flags) (.exact (g.addend - prev.addend)) ++
          g.relocItems (g.start prev) g.relocs)))

def groupItems : Reloc w → List (Group w) → List (Item w)
  | _, [] => []
  | prev, g :: gs => g.items prev ++ groupItems (g.last prev) gs

def groupRelocList (groups : List (Group w)) : List (Reloc w) := groups.flatMap Group.relocs

def streamItems (first : BitVec w) (groups : List (Group w)) : List (Item w) :=
  .exact (BitVec.ofNat 64 (groupRelocList groups).length) :: .offset first ::
    groupItems ⟨first, 0, 0⟩ groups

/-- The stream that the reference encoder writes for groups, with any offset to
start from. -/
def encodeStream (first : BitVec w) (groups : List (Group w)) : List (BitVec 8) :=
  aps2Magic ++ (streamItems first groups).flatMap fun item => encode item.number

/-- The stream is one of those that stand for these groups. -/
def Encodes (first : BitVec w) (groups : List (Group w)) (stream : List (BitVec 8)) : Prop :=
  ∃ body, stream = aps2Magic ++ body ∧ Writes (streamItems first groups) body

/-! ## Streams that declare what they hold -/

/-- The bytes start with `k` complete numbers. -/
inductive Numbers : Nat → List (BitVec 8) → List (BitVec 8) → Prop
  | zero {rest : List (BitVec 8)} : Numbers 0 rest rest
  | succ {k : Nat} {num bytes rest : List (BitVec 8)} : IsNumber num → Numbers k bytes rest →
      Numbers (k + 1) (num ++ bytes) rest

/-- The bytes start with a complete number, which is read as `v`. -/
def Number (wide : WideShift) (v : BitVec 64) (bytes rest : List (BitVec 8)) : Prop :=
  ∃ num, IsNumber num ∧ bytes = num ++ rest ∧ v = (readSleb128 wide ⟨num, true⟩).1

/-- How many numbers a relocation takes in a group with these flags. -/
def relocNumbers (flags : BitVec 64) : Nat :=
  (!groupedByOffsetDelta flags).toNat + (!groupedByInfo flags).toNat + (ownAddends flags).toNat

def groupNumbers (size flags : BitVec 64) : Nat :=
  (groupedByOffsetDelta flags).toNat + (groupedByInfo flags).toNat + (sharesAddend flags).toNat +
    size.toInt.toNat * relocNumbers flags

/-- The bytes start with groups, of which the positive sizes add up to `left`, and
whose sizes, added to `idx` in 64-bit arithmetic, reach `total` at the last of them. -/
inductive GroupsFrom (wide : WideShift) (total : BitVec 64) :
    BitVec 64 → Nat → List (BitVec 8) → Prop
  | done {idx : BitVec 64} {rest : List (BitVec 8)} : idx.slt total = false →
      GroupsFrom wide total idx 0 rest
  | group {idx size flags : BitVec 64} {left : Nat} {bytes₀ bytes₁ bytes₂ bytes₃ : List (BitVec 8)} :
      idx.slt total = true → Number wide size bytes₀ bytes₁ → Number wide flags bytes₁ bytes₂ →
      Numbers (groupNumbers size flags) bytes₂ bytes₃ →
      GroupsFrom wide total (idx + size) left bytes₃ →
      GroupsFrom wide total idx (size.toInt.toNat + left) bytes₀

/-- The stream holds the relocations that it declares: all its numbers are complete,
and the sizes of its groups give the declared count. -/
def Conforms (wide : WideShift) (stream : List (BitVec 8)) : Prop :=
  ∃ total offset body bytes₁ bytes₂, stream = aps2Magic ++ body ∧ Number wide total body bytes₁ ∧
    Number wide offset bytes₁ bytes₂ ∧ 0 ≤ total.toInt ∧
    GroupsFrom wide total 0 total.toInt.toNat bytes₂

/-- Decoding the stream ends, emits no more than was declared, and returns true only
after it has used nothing but complete numbers and emitted what was declared. -/
def Survives (w : Nat) (wide : WideShift) (stream : List (BitVec 8)) : Prop :=
  ∃ n, ∃ d : Decoded w, forEachPackedReloc wide n stream = some d ∧
    (∀ total, d.total = some total → d.emitted.length ≤ total) ∧
    (d.ok = true → d.complete = true ∧ d.total = some (d.emitted.length : Int))


namespace PackedRelocsLemmas

/-! ## Reading numbers -/

theorem bits_eq (b : BitVec 8) : (b &&& 0x7f).setWidth 64 = BitVec.ofNat 64 (payload b).toNat :=
  (BitVec.ofNat_toNat 64 (payload b)).symm

variable {idx total : BitVec 64} {c : Cursor} {bytes num : List (BitVec 8)} {items : List (Item w)}
    {emitted : List (Reloc w)} {n shift : Nat} {prev r : Reloc w} {wide : WideShift}

theorem collect_lt {acc : BitVec 64} (hacc : acc.toNat < 2 ^ shift) (b : BitVec 8) :
    (acc + BitVec.ofNat 64 (payload b).toNat <<< shift).toNat < 2 ^ (shift + 7) := by
  have hbits := payload_lt b
  calc (acc + BitVec.ofNat 64 (payload b).toNat <<< shift).toNat
      ≤ acc.toNat + (payload b).toNat * 2 ^ shift := by
        rw [BitVec.toNat_add, BitVec.toNat_shiftLeft, BitVec.toNat_ofNat, Nat.shiftLeft_eq,
          Nat.mod_eq_of_lt (Nat.lt_trans hbits (by decide))]
        exact (Nat.mod_le _ _).trans (Nat.add_le_add_left (Nat.mod_le _ _) _)
    _ < 2 ^ shift + 127 * 2 ^ shift :=
        Nat.add_lt_add_of_lt_of_le hacc (Nat.mul_le_mul_right _ (Nat.le_of_lt_succ hbits))
    _ = 2 ^ (shift + 7) := by rw [pow_add]; ring

theorem last_value (b : BitVec 8) (shift : Nat) :
    BitVec.ofInt 64 (value [b]) <<< shift =
      BitVec.ofNat 64 (payload b).toNat <<< shift +
        if b &&& 0x40 = 0 then 0 else -((1 : BitVec 64) <<< (shift + 7)) := by
  rw [value]
  split
  · rw [Int.sub_zero, BitVec.ofInt_natCast, add_zero]
  · rw [← neg_one_shiftLeft, ← mul_shiftLeft_128, ← add_shiftLeft, ← BitVec.ofInt_natCast,
      Int.sub_eq_add_neg, BitVec.ofInt_add]
    rfl

theorem more_value (b : BitVec 8) {bs : List (BitVec 8)} (hbs : IsNumber bs) (shift : Nat) :
    BitVec.ofInt 64 (value (b :: bs)) <<< shift =
      BitVec.ofNat 64 (payload b).toNat <<< shift + BitVec.ofInt 64 (value bs) <<< (shift + 7) := by
  obtain ⟨c, cs, rfl⟩ : ∃ c cs, bs = c :: cs := by cases hbs <;> exact ⟨_, _, rfl⟩
  rw [value, ← mul_shiftLeft_128, ← add_shiftLeft, ← BitVec.ofInt_natCast, BitVec.ofInt_add,
    BitVec.ofInt_mul]
  · rfl
  · simp

theorem readSlebFrom_number (wide : WideShift) (complete : Bool)
    (h : IsNumber num) (rest : List (BitVec 8)) {acc : BitVec 64}
    (hacc : acc.toNat < 2 ^ shift) (hlen : 7 * num.length + shift ≤ 70) :
    readSlebFrom wide complete acc shift (num ++ rest) =
      (acc + BitVec.ofInt 64 (value num) <<< shift, ⟨rest, complete⟩) := by
  induction h generalizing acc shift with
  | @last b hb =>
    rw [length_singleton] at hlen
    simp only [cons_append, nil_append, readSlebFrom, shiftLeft, bits_eq,
      if_pos (show shift < 64 by omega), or_shiftLeft hacc, hb, ne_eq, not_true, if_false, last_value,
      ← BitVec.add_assoc]
    split
    · next hsign =>
      rw [if_neg hsign.2, ← neg_one_shiftLeft, or_shiftLeft (collect_lt hacc b)]
    · next hsign =>
      split
      · rw [add_zero]
      · next hbit =>
        -- from seven bits past the end of the word on, a sign is no longer added
        rw [BitVec.shiftLeft_eq_zero (Nat.le_of_not_lt fun hlt => hsign ⟨hlt, hbit⟩), BitVec.neg_zero,
          BitVec.add_zero]
  | @more b bs hb hbs ih =>
    rw [length_cons] at hlen
    simp only [cons_append, readSlebFrom, shiftLeft, bits_eq, if_pos (show shift < 64 by omega),
      or_shiftLeft hacc, if_pos hb]
    rw [ih (collect_lt hacc b) (by omega), more_value b hbs, BitVec.add_assoc]

/-- The reader decodes complete numbers of up to ten bytes. -/
theorem readSleb128_number (wide : WideShift) (h : IsNumber num)
    (hlen : num.length ≤ 10) (rest : List (BitVec 8)) (complete : Bool) :
    readSleb128 wide ⟨num ++ rest, complete⟩ = (BitVec.ofInt 64 (value num), ⟨rest, complete⟩) := by
  rw [readSleb128, readSlebFrom_number wide complete h rest (by decide) (by omega)]
  simp

/-! ## Decoding what was encoded -/

section Writes

variable (wide : WideShift) (complete : Bool)

theorem readSleb128_writes {item : Item w} (h : Writes (item :: items) bytes) :
    ∃ v rest, readSleb128 wide ⟨bytes, complete⟩ = (v, ⟨rest, complete⟩) ∧ item.Holds v ∧
      Writes items rest := by
  cases h with
  | cons hnum hlen hholds hrest =>
    exact ⟨_, _, readSleb128_number wide hnum hlen _ complete, hholds, hrest⟩

theorem readIf_writes {cond : Bool} {item : Item w} (h : Writes (itemIf cond item ++ items) bytes)
    (other : BitVec 64) :
    ∃ v rest, readIf wide cond other ⟨bytes, complete⟩ = (v, ⟨rest, complete⟩) ∧
      (if cond then item.Holds v else v = other) ∧ Writes items rest := by
  cases cond with
  | true => exact readSleb128_writes wide complete h
  | false => exact ⟨other, bytes, rfl, rfl, h⟩

variable (hw : w ≤ 64)

include hw

theorem setWidth_setWidth_64 (x : BitVec w) : (x.setWidth 64).setWidth w = x := by
  rw [BitVec.setWidth_setWidth_of_le x hw, BitVec.setWidth_eq]

theorem nextReloc_writes {g : Group w} {groupDelta : BitVec w}
    (hgroup : groupedByOffsetDelta g.flags = true → groupDelta = g.delta) (hfollows : g.Follows prev r)
    (h : Writes (itemIf (!groupedByOffsetDelta g.flags) (.offset (r.offset - prev.offset)) ++
      (itemIf (!groupedByInfo g.flags) (.exact r.info) ++
        (itemIf (ownAddends g.flags) (.exact (r.addend - prev.addend)) ++ items))) bytes)
    (hinfo : groupedByInfo g.flags = true → prev.info = g.info)
    (haddend : ownAddends g.flags = false → r.addend = prev.addend) :
    ∃ rest, nextReloc wide g.flags groupDelta prev ⟨bytes, complete⟩ = (r, ⟨rest, complete⟩) ∧
      Writes items rest := by
  obtain ⟨delta, bytes₁, hread₁, hdelta, h₁⟩ := readIf_writes wide complete h (groupDelta.setWidth 64)
  obtain ⟨info, bytes₂, hread₂, hinfo', h₂⟩ := readIf_writes wide complete h₁ prev.info
  obtain ⟨addend, bytes₃, hread₃, haddend', h₃⟩ := readIf_writes wide complete h₂ 0
  refine ⟨bytes₃, ?_, h₃⟩
  simp only [nextReloc, hread₁, hread₂, hread₃]
  have hoffset : prev.offset + delta.setWidth w = r.offset := by
    cases hgrouped : groupedByOffsetDelta g.flags with
    | true =>
      rw [hgrouped] at hdelta
      rw [show delta = groupDelta.setWidth 64 from hdelta, setWidth_setWidth_64 hw,
        hgroup hgrouped, hfollows.offset hgrouped]
    | false =>
      rw [hgrouped] at hdelta
      rw [show delta.setWidth w = r.offset - prev.offset from hdelta, add_sub_cancel]
  have hinfo'' : info = r.info := by
    cases hgrouped : groupedByInfo g.flags with
    | true =>
      rw [hgrouped] at hinfo'
      rw [show info = prev.info from hinfo', hinfo hgrouped, hfollows.info hgrouped]
    | false =>
      rw [hgrouped] at hinfo'
      exact hinfo'
  have haddend'' : prev.addend + addend = r.addend := by
    cases hown : ownAddends g.flags with
    | true =>
      rw [hown] at haddend'
      rw [show addend = r.addend - prev.addend from haddend', add_sub_cancel]
    | false =>
      rw [hown] at haddend'
      rw [show addend = 0 from haddend', add_zero, haddend hown]
  rw [hoffset, hinfo'', haddend'']

omit hw

/-- What the relocations of a group, and the accumulators before them, share. -/
structure Steady (g : Group w) (r : Reloc w) : Prop where
  info : groupedByInfo g.flags = true → r.info = g.info
  addend : ownAddends g.flags = false → r.addend = if hasAddend g.flags then g.addend else 0

theorem shares_of_not_own {flags : BitVec 64} (hown : ownAddends flags = false)
    (hhas : hasAddend flags = true) : sharesAddend flags = true := by
  rw [ownAddends, hhas, Bool.true_and, beq_eq_false_iff_ne] at hown
  rw [sharesAddend, hhas, Bool.true_and, bne_iff_ne]
  exact hown

theorem steady_start (g : Group w) (prev : Reloc w) : Steady g (g.start prev) := by
  refine ⟨fun hinfo => if_pos hinfo, fun hown => ?_⟩
  cases hhas : hasAddend g.flags with
  | false => simp [Group.start, hhas]
  | true => simp [Group.start, hhas, shares_of_not_own hown hhas]

theorem steady_of_follows {g : Group w} (h : g.Follows prev r) : Steady g r := by
  refine ⟨h.info, fun hown => ?_⟩
  cases hhas : hasAddend g.flags with
  | false => exact h.noAddend hhas
  | true => exact h.addend (shares_of_not_own hown hhas)

include hw

theorem groupRelocs_writes {g : Group w} {groupDelta : BitVec w}
    (hgroup : groupedByOffsetDelta g.flags = true → groupDelta = g.delta) {rs : List (Reloc w)}
      (hsteady : Steady g prev)
    (hlegal : g.LegalFrom prev rs) (h : Writes (g.relocItems prev rs ++ items) bytes) :
    ∃ rest, groupRelocs wide g.flags groupDelta rs.length prev ⟨bytes, complete⟩ =
      (rs, rs.getLastD prev, ⟨rest, complete⟩) ∧ Writes items rest := by
  induction rs generalizing prev bytes with
  | nil => exact ⟨bytes, rfl, h⟩
  | cons r rs ih =>
    obtain ⟨hfollows, hlegal⟩ := hlegal
    have hsteady' := steady_of_follows hfollows
    simp only [Group.relocItems, append_assoc] at h
    obtain ⟨bytes₁, hnext, h₁⟩ := nextReloc_writes wide complete hw hgroup hfollows h hsteady.info
      fun hown => (hsteady'.addend hown).trans (hsteady.addend hown).symm
    obtain ⟨rest, hrest, h₂⟩ := ih hsteady' hlegal h₁
    refine ⟨rest, ?_, h₂⟩
    simp only [length_cons, groupRelocs, hnext, hrest]
    cases rs <;> rfl

omit hw in
theorem toInt_ofNat_64 (h : n < 2 ^ 63) : (BitVec.ofNat 64 n).toInt = n := by
  have hnat : (BitVec.ofNat 64 n).toNat = n := by
    rw [BitVec.toNat_ofNat, Nat.mod_eq_of_lt (Nat.lt_trans h (by decide))]
  rw [BitVec.toInt_eq_toNat_of_lt, hnat]
  rw [hnat]
  exact Nat.mul_lt_mul_of_pos_left h Nat.two_pos

theorem readGroup_writes {g : Group w} (hsize : g.relocs.length < 2 ^ 63)
    (hlegal : g.LegalFrom (g.start prev) g.relocs) (h : Writes (g.items prev ++ items) bytes) :
    ∃ size flags bytes₁ bytes₂ rest,
      readSleb128 wide ⟨bytes, complete⟩ = (size, ⟨bytes₁, complete⟩) ∧
      readSleb128 wide ⟨bytes₁, complete⟩ = (flags, ⟨bytes₂, complete⟩) ∧
      size = BitVec.ofNat 64 g.relocs.length ∧
      readGroup wide size flags prev ⟨bytes₂, complete⟩ =
        (g.relocs, g.last prev, ⟨rest, complete⟩) ∧ Writes items rest := by
  simp only [Group.items, cons_append, append_assoc] at h
  obtain ⟨size, bytes₁, hread₁, rfl, h₁⟩ := readSleb128_writes wide complete h
  obtain ⟨flags, bytes₂, hread₂, rfl, h₂⟩ := readSleb128_writes wide complete h₁
  obtain ⟨delta, bytes₃, hread₃, hdelta, h₃⟩ := readIf_writes wide complete h₂ 0
  obtain ⟨info, bytes₄, hread₄, hinfo, h₄⟩ := readIf_writes wide complete h₃ prev.info
  obtain ⟨addend, bytes₅, hread₅, haddend, h₅⟩ := readIf_writes wide complete h₄ 0
  have hstart : (⟨prev.offset, info, if hasAddend g.flags then prev.addend + addend else 0⟩ :
      Reloc w) = g.start prev := by
    have hinfo' : info = if groupedByInfo g.flags then g.info else prev.info := by
      split at hinfo
      · next hgrouped => rw [if_pos hgrouped]; exact hinfo
      · next hgrouped => rw [if_neg hgrouped]; exact hinfo
    have haddend' : prev.addend + addend =
        if sharesAddend g.flags then g.addend else prev.addend := by
      split at haddend
      · next hshares =>
        rw [if_pos hshares, show addend = g.addend - prev.addend from haddend, add_sub_cancel]
      · next hshares => rw [if_neg hshares, haddend, add_zero]
    rw [Group.start, hinfo', haddend']
  have hgroup : groupedByOffsetDelta g.flags = true → delta.setWidth w = g.delta := by
    intro hgrouped
    rw [if_pos hgrouped] at hdelta
    exact hdelta
  obtain ⟨rest, hrest, h₆⟩ :=
    groupRelocs_writes wide complete hw hgroup (steady_start g prev) hlegal h₅
  refine ⟨_, _, bytes₁, bytes₂, rest, hread₁, hread₂, rfl, ?_, h₆⟩
  simp only [readGroup, groupHead, hread₃, hread₄, hread₅, hstart, toInt_ofNat_64 hsize, Int.toNat_natCast]
  exact hrest

/-- The groups are decoded in as many rounds, where `done` relocations precede them. -/
theorem readGroups_writes (done : Nat) {groups : List (Group w)}
    (hcount : done + (groupRelocList groups).length < 2 ^ 63) (hlegal : Legal prev groups)
    (h : Writes (groupItems prev groups) bytes) (hn : groups.length < n) :
    ∃ rest, readGroups wide (BitVec.ofNat 64 (done + (groupRelocList groups).length)) n
      (BitVec.ofNat 64 done) prev ⟨bytes, complete⟩ =
        some (groupRelocList groups, ⟨rest, complete⟩) := by
  induction groups generalizing prev bytes done n with
  | nil =>
    obtain ⟨n, rfl⟩ := Nat.exists_eq_add_one_of_ne_zero (Nat.ne_zero_of_lt hn)
    refine ⟨bytes, ?_⟩
    simp [readGroups, groupRelocList, BitVec.slt]
  | cons g groups ih =>
    obtain ⟨n, rfl⟩ := Nat.exists_eq_add_one_of_ne_zero (Nat.ne_zero_of_lt hn)
    obtain ⟨hlegal, hlegals⟩ := hlegal
    have hlist : groupRelocList (g :: groups) = g.relocs ++ groupRelocList groups := rfl
    rw [hlist, length_append] at hcount ⊢
    rw [readGroups]
    split
    · obtain ⟨size, flags, bytes₁, bytes₂, bytes₃, hread₁, hread₂, rfl, hgroup, h₁⟩ :=
        readGroup_writes wide complete hw (by omega) hlegal h
      obtain ⟨rest, hrest⟩ := ih (done + g.relocs.length) (by omega) hlegals h₁
        (Nat.lt_of_succ_lt_succ hn)
      rw [Nat.add_assoc] at hrest
      refine ⟨rest, ?_⟩
      simp only [hread₁, hread₂, hgroup]
      rw [← BitVec.ofNat_add, hrest]
      rfl
    · next hend =>
      -- The rounds end here only if the groups that are left are empty.
      have hempty : g.relocs.length + (groupRelocList groups).length = 0 := by
        rw [BitVec.slt, toInt_ofNat_64 (by omega), toInt_ofNat_64 (by omega), decide_eq_true_eq] at hend
        omega
      have hnil : g.relocs ++ groupRelocList groups = [] :=
        eq_nil_of_length_eq_zero (by rw [length_append, hempty])
      exact ⟨bytes, by rw [hnil]⟩

theorem forEachPackedReloc_encodes {first : BitVec w}
    {groups : List (Group w)} {stream : List (BitVec 8)}
    (hcount : (groupRelocList groups).length < 2 ^ 63) (hlegal : Legal ⟨first, 0, 0⟩ groups)
    (h : Encodes first groups stream) (hn : groups.length < n) :
    forEachPackedReloc wide n stream =
      some ⟨true, groupRelocList groups, some ((groupRelocList groups).length : Int), true⟩ := by
  obtain ⟨body, rfl, hbody⟩ := h
  obtain ⟨total, bytes₁, hread₁, rfl, h₁⟩ := readSleb128_writes wide true hbody
  obtain ⟨offset, bytes₂, hread₂, hoffset, h₂⟩ := readSleb128_writes wide true h₁
  obtain ⟨rest, hrest⟩ := readGroups_writes wide true hw 0 (by omega) hlegal h₂ hn
  rw [Nat.zero_add] at hrest
  have hmagic : (aps2Magic ++ body).take 4 = aps2Magic := rfl
  have hdrop : (aps2Magic ++ body).drop 4 = body := rfl
  simp only [forEachPackedReloc, hmagic, hdrop, ne_eq, not_true, if_false, hread₁, hread₂,
    show offset.setWidth w = first from hoffset, toInt_ofNat_64 hcount]
  exact congrArg (Option.map _) hrest

theorem writes_encode (items : List (Item w)) :
    Writes items (items.flatMap fun item => encode item.number) := by
  induction items with
  | nil => exact .nil
  | cons item items ih =>
    refine .cons (isNumber_encode _) (length_encode _) ?_ ih
    rw [value_encode, BitVec.ofInt_toInt]
    cases item with
    | exact value => rfl
    | offset value =>
      show (value.signExtend 64).setWidth w = value
      ext i hi
      simp [BitVec.getElem_signExtend, hi, Nat.lt_of_lt_of_le hi hw]

end Writes

/-! ## Streams as bytes -/

def skip (wide : WideShift) : Nat → Cursor → Cursor
  | 0, c => c
  | k + 1, c => skip wide k (readSleb128 wide c).2

theorem skip_add (wide : WideShift) (j k : Nat) (c : Cursor) :
    skip wide (j + k) c = skip wide k (skip wide j c) := by
  induction j generalizing c with
  | zero => rw [Nat.zero_add]; rfl
  | succ j ih => rw [Nat.succ_add]; exact ih _

theorem readIf_skip (wide : WideShift) (cond : Bool) (other : BitVec 64) (c : Cursor) :
    (readIf wide cond other c).2 = skip wide cond.toNat c := by
  cases cond <;> rfl

theorem nextReloc_skip (wide : WideShift) (flags : BitVec 64) (groupDelta : BitVec w) (r : Reloc w)
    (c : Cursor) :
    (nextReloc wide flags groupDelta r c).2 = skip wide (relocNumbers flags) c := by
  simp only [nextReloc, relocNumbers, readIf_skip, skip_add]

theorem groupRelocs_skip (wide : WideShift) (flags : BitVec 64) (groupDelta : BitVec w) (n : Nat)
    (r : Reloc w) (c : Cursor) :
    (groupRelocs wide flags groupDelta n r c).1.length = n ∧
      (groupRelocs wide flags groupDelta n r c).2.2 = skip wide (n * relocNumbers flags) c := by
  induction n generalizing r c with
  | zero => rw [Nat.zero_mul]; exact ⟨rfl, rfl⟩
  | succ n ih =>
    obtain ⟨hlen, hskip⟩ :=
      ih (nextReloc wide flags groupDelta r c).1 (nextReloc wide flags groupDelta r c).2
    refine ⟨congrArg (· + 1) hlen, ?_⟩
    rw [Nat.succ_mul, Nat.add_comm (n * _), skip_add, ← nextReloc_skip wide flags groupDelta r c]
    exact hskip

/-- A group emits as many relocations as it says, and reads as many numbers as its
flags and its size call for. -/
theorem readGroup_skip (wide : WideShift) (size flags : BitVec 64) (r : Reloc w) (c : Cursor) :
    (readGroup wide size flags r c).1.length = size.toInt.toNat ∧
      (readGroup wide size flags r c).2.2 = skip wide (groupNumbers size flags) c := by
  simp only [readGroup, groupHead, groupNumbers, skip_add, (groupRelocs_skip wide flags _ _ _ _).1,
    (groupRelocs_skip wide flags _ _ _ _).2, readIf_skip, and_self]

theorem readSlebFrom_complete {complete : Bool} {acc : BitVec 64}
    (h : (readSlebFrom wide complete acc shift bytes).2.complete = true) :
    complete = true ∧ ∃ num rest, IsNumber num ∧ bytes = num ++ rest := by
  induction bytes generalizing acc shift with
  | nil => cases h
  | cons byte bytes ih =>
    rw [readSlebFrom] at h
    split at h
    · next hmore =>
      obtain ⟨hcomplete, num, rest, hnum, rfl⟩ := ih h
      exact ⟨hcomplete, byte :: num, rest, .more hmore hnum, rfl⟩
    · next hlast =>
      have hcomplete : complete = true := by split at h <;> exact h
      exact ⟨hcomplete, [byte], bytes, .last (not_not.mp hlast), rfl⟩

theorem readSlebFrom_isNumber {complete : Bool}
    (h : IsNumber num) (acc : BitVec 64) (shift : Nat) (rest : List (BitVec 8)) :
    readSlebFrom wide complete acc shift (num ++ rest) =
      ((readSlebFrom wide complete acc shift num).1, ⟨rest, complete⟩) := by
  induction h generalizing acc shift with
  | @last b hb =>
    simp only [cons_append, nil_append, readSlebFrom, hb, ne_eq, not_true, if_false]
    split <;> rfl
  | @more b bs hb _ ih =>
    simp only [cons_append, readSlebFrom, if_pos hb]
    exact ih _ _

/-- A reader that has met only complete numbers has read the number at its start. -/
theorem readSleb128_complete_iff {v : BitVec 64} {rest : List (BitVec 8)} :
    readSleb128 wide ⟨bytes, true⟩ = (v, ⟨rest, true⟩) ↔ Number wide v bytes rest := by
  constructor
  · intro h
    obtain ⟨_, num, rest', hnum, rfl⟩ :=
      readSlebFrom_complete (show (readSleb128 wide ⟨bytes, true⟩).2.complete = true by rw [h])
    have heq := h.symm.trans (readSlebFrom_isNumber hnum 0 0 rest')
    simp only [Prod.mk.injEq, Cursor.mk.injEq, and_true] at heq
    obtain ⟨rfl, rfl⟩ := heq
    exact ⟨num, hnum, rfl, rfl⟩
  · rintro ⟨num, hnum, rfl, rfl⟩
    exact readSlebFrom_isNumber hnum 0 0 rest

theorem readSleb128_complete
    (h : (readSleb128 wide c).2.complete = true) : c.complete = true :=
  (readSlebFrom_complete h).1

theorem skip_complete {k : Nat}
    (h : (skip wide k c).complete = true) : c.complete = true := by
  induction k generalizing c with
  | zero => exact h
  | succ k ih => exact readSleb128_complete (ih h)

theorem cursor_eta (h : c.complete = true) : c = ⟨c.rest, true⟩ := by
  rw [← h]

theorem skip_complete_iff {k : Nat} {rest : List (BitVec 8)} :
    skip wide k ⟨bytes, true⟩ = ⟨rest, true⟩ ↔ Numbers k bytes rest := by
  constructor
  · intro h
    induction k generalizing bytes with
    | zero => cases h; exact .zero
    | succ k ih =>
      have hfirst : (readSleb128 wide ⟨bytes, true⟩).2.complete = true :=
        skip_complete (show (skip wide k _).complete = true by rw [show skip wide k _ = _ from h])
      have hread : readSleb128 wide ⟨bytes, true⟩ = ((readSleb128 wide ⟨bytes, true⟩).1,
          ⟨(readSleb128 wide ⟨bytes, true⟩).2.rest, true⟩) :=
        Prod.ext rfl (cursor_eta hfirst)
      obtain ⟨num, hnum, hbytes, _⟩ := readSleb128_complete_iff.mp hread
      rw [hbytes]
      refine .succ hnum (ih ?_)
      rw [← cursor_eta hfirst]
      exact h
  · intro h
    induction h with
    | zero => rfl
    | @succ k num bytes rest hnum _ ih =>
      rw [skip, readSleb128_complete_iff.mpr ⟨num, hnum, rfl, rfl⟩]
      exact ih

theorem readGroups_succ {c' : Cursor} (h : readGroups wide total (n + 1) idx r c = some (emitted, c'))
    (hlt : idx.slt total = true) :
    ∃ size c₁ flags c₂, ∃ (more : List (Reloc w)) (r' : Reloc w),
      readSleb128 wide c = (size, c₁) ∧ readSleb128 wide c₁ = (flags, c₂) ∧
      emitted.length = size.toInt.toNat + more.length ∧
      readGroups wide total n (idx + size) r' (skip wide (groupNumbers size flags) c₂) =
        some (more, c') := by
  simp only [readGroups, hlt, if_true, Option.map_eq_some_iff, Prod.mk.injEq, Prod.exists] at h
  obtain ⟨more, _, hmore, rfl, rfl⟩ := h
  obtain ⟨hlen, hskip⟩ := readGroup_skip wide (readSleb128 wide c).1
    (readSleb128 wide (readSleb128 wide c).2).1 r (readSleb128 wide (readSleb128 wide c).2).2
  rw [hskip] at hmore
  refine ⟨(readSleb128 wide c).1, _, _, _, more, _, rfl, rfl, ?_, hmore⟩
  rw [length_append, hlen]

/-- The rounds that end after complete numbers only are those over groups of that
many relocations. -/
theorem groupsFrom_of_readGroups {c' : Cursor}
    (h : readGroups wide total n idx r c = some (emitted, c')) (hc : c'.complete = true) :
    c.complete = true ∧ GroupsFrom wide total idx emitted.length c.rest := by
  induction n generalizing idx r c emitted with
  | zero => cases h
  | succ n ih =>
    cases hlt : idx.slt total with
    | false =>
      rw [readGroups, hlt] at h
      cases h
      exact ⟨hc, .done hlt⟩
    | true =>
      obtain ⟨size, c₁, flags, c₂, more, r', hsize, hflags, hlen, hmore⟩ := readGroups_succ h hlt
      -- No number is missing at the end, so none was on the way.
      obtain ⟨hc₃, hgroups⟩ := ih hmore
      have hc₂ := skip_complete hc₃
      have hc₁ : c₁.complete = true := readSleb128_complete (by rw [hflags]; exact hc₂)
      have hc₀ : c.complete = true := readSleb128_complete (by rw [hsize]; exact hc₁)
      rw [cursor_eta hc₀, cursor_eta hc₁] at hsize
      rw [cursor_eta hc₁, cursor_eta hc₂] at hflags
      rw [cursor_eta hc₂] at hc₃ hgroups
      rw [hlen]
      exact ⟨hc₀, .group hlt (readSleb128_complete_iff.mp hsize) (readSleb128_complete_iff.mp hflags)
        (skip_complete_iff.mp (cursor_eta hc₃)) hgroups⟩

theorem readGroups_of_groupsFrom {left : Nat} (h : GroupsFrom wide total idx left bytes) (r : Reloc w) :
    ∃ n emitted rest, readGroups wide total n idx r ⟨bytes, true⟩ = some (emitted, ⟨rest, true⟩) ∧
      emitted.length = left := by
  induction h generalizing r with
  | done hend => exact ⟨1, [], _, by rw [readGroups, hend]; rfl, rfl⟩
  | @group idx size flags left bytes₀ bytes₁ bytes₂ bytes₃ hlt hsize hflags hnumbers _ ih =>
    obtain ⟨hlen, hskip⟩ := readGroup_skip wide size flags r ⟨bytes₂, true⟩
    rw [skip_complete_iff.mpr hnumbers] at hskip
    obtain ⟨n, emitted, rest, hread, hleft⟩ := ih (readGroup wide size flags r ⟨bytes₂, true⟩).2.1
    refine ⟨n + 1, (readGroup wide size flags r ⟨bytes₂, true⟩).1 ++ emitted, rest, ?_, ?_⟩
    · simp only [readGroups, hlt, if_true, readSleb128_complete_iff.mpr hsize,
        readSleb128_complete_iff.mpr hflags, hskip, hread, Option.map_some]
    · rw [length_append, hlen, hleft]

end PackedRelocsLemmas

open PackedRelocsLemmas

/-- The reference encoding of any legal groups is decoded to their relocations, each
once and in order. -/
theorem packed_decodes_encoded (wide : WideShift) (hw : w ≤ 64) (first : BitVec w)
    (groups : List (Group w)) (hlegal : Legal ⟨first, 0, 0⟩ groups)
    (hcount : (groupRelocList groups).length < 2 ^ 63) :
    ∃ n, forEachPackedReloc wide n (encodeStream first groups) =
      some ⟨true, groupRelocList groups, some ((groupRelocList groups).length : Int), true⟩ :=
  ⟨groups.length + 1, forEachPackedReloc_encodes wide hw hcount hlegal
    ⟨_, rfl, writes_encode hw _⟩ (Nat.lt_succ_self _)⟩

/-- Two groups: one with a relocation of its own kind, and one that shares everything,
with the largest addend. -/
def mixedGroups : List (Group 64) :=
  [⟨8, 0, 0, 0, [⟨0x1000, 0x403, -5⟩]⟩,
    ⟨15, 8, 0x403, 0x7fffffffffffffff,
      [⟨0x1008, 0x403, 0x7fffffffffffffff⟩, ⟨0x1010, 0x403, 0x7fffffffffffffff⟩]⟩]

theorem packed_decodes_encoded_mixed :
    Legal ⟨0x1000, 0, 0⟩ mixedGroups ∧
      ∃ n, forEachPackedReloc (fun v _ => v) n (encodeStream 0x1000 mixedGroups) =
        some ⟨true, groupRelocList mixedGroups, some 3, true⟩ := by
  have hlegal : Legal ⟨0x1000, 0, 0⟩ mixedGroups := by
    refine ⟨⟨⟨?_, ?_, ?_, ?_⟩, trivial⟩, ⟨⟨?_, ?_, ?_, ?_⟩, ⟨?_, ?_, ?_, ?_⟩, trivial⟩, trivial⟩ <;> decide
  exact ⟨hlegal, packed_decodes_encoded _ le_rfl _ _ hlegal (by decide)⟩

theorem PackedRelocsLemmas.conforms_of_survives {wide : WideShift} {stream : List (BitVec 8)}
    (hmagic : stream.take 4 = aps2Magic) (h : Survives w wide stream) : Conforms wide stream := by
  obtain ⟨n, d, hrun, _, hok⟩ := h
  simp only [forEachPackedReloc, hmagic, ne_eq, not_true, if_false, Option.map_eq_some_iff,
    Prod.exists] at hrun
  obtain ⟨emitted, c, hread, rfl⟩ := hrun
  obtain ⟨hc, htotal⟩ := hok rfl
  cases hsize : readSleb128 wide ⟨stream.drop 4, true⟩ with
  | mk total c₁ =>
  cases hoffset : readSleb128 wide c₁ with
  | mk offset c₂ =>
  simp only [hsize, hoffset, Option.some.injEq] at hread htotal
  obtain ⟨hc₂, hgroups⟩ := groupsFrom_of_readGroups hread hc
  have hc₁ : c₁.complete = true := readSleb128_complete (by rw [hoffset]; exact hc₂)
  rw [cursor_eta hc₁] at hsize hoffset
  rw [cursor_eta hc₂] at hoffset
  refine ⟨total, offset, stream.drop 4, c₁.rest, c₂.rest, ?_, readSleb128_complete_iff.mp hsize,
    readSleb128_complete_iff.mp hoffset, by omega, ?_⟩
  · rw [← hmagic, take_append_drop]
  · rwa [htotal, Int.toNat_natCast]

theorem PackedRelocsLemmas.survives_of_conforms (w : Nat) {wide : WideShift}
    {stream : List (BitVec 8)} (h : Conforms wide stream) : Survives w wide stream := by
  obtain ⟨total, offset, body, bytes₁, bytes₂, rfl, hsize, hoffset, hpos, hgroups⟩ := h
  obtain ⟨n, emitted, rest, hread, hlen⟩ :=
    readGroups_of_groupsFrom hgroups (⟨offset.setWidth w, 0, 0⟩ : Reloc w)
  have htotal : total.toInt = emitted.length := by omega
  refine ⟨n, ⟨true, emitted, some total.toInt, true⟩, ?_, ?_, fun _ => ⟨rfl, by rw [htotal]⟩⟩
  · have hmagic : (aps2Magic ++ body).take 4 = aps2Magic := rfl
    have hdrop : (aps2Magic ++ body).drop 4 = body := rfl
    simp only [forEachPackedReloc, hmagic, hdrop, ne_eq, not_true, if_false,
      readSleb128_complete_iff.mpr hsize, readSleb128_complete_iff.mpr hoffset, hread, Option.map_some]
  · rintro _ ⟨⟩
    exact htotal.ge

/-- A stream is survived exactly when its magic is wrong or it holds what it declares. -/
theorem packed_survives_iff (w : Nat) (wide : WideShift) (stream : List (BitVec 8)) :
    Survives w wide stream ↔ stream.take 4 ≠ aps2Magic ∨ Conforms wide stream := by
  constructor
  · intro h
    rw [or_iff_not_imp_left, not_not]
    exact fun hmagic => conforms_of_survives hmagic h
  · rintro (hmagic | hconforms)
    · refine ⟨0, ⟨false, [], none, true⟩, if_pos hmagic, nofun, nofun⟩
    · exact survives_of_conforms w hconforms

/-- A stream that ends after a count of one and an offset. -/
def truncatedStream : List (BitVec 8) := aps2Magic ++ [1, 0]

/-- A stream with one group of two relocations, which declares one. -/
def crowdedStream : List (BitVec 8) := aps2Magic ++ [1, 0, 2, 3, 8, 0]

theorem PackedRelocsLemmas.readGroups_exhausted (wide : WideShift) (n : Nat) (r : Reloc w)
    (complete : Bool) : readGroups wide 1 n 0 r ⟨[], complete⟩ = none := by
  induction n generalizing r complete with
  | zero => rfl
  | succ n ih =>
    -- At the end of the buffer a group has size 0, so the next round is the same.
    have hround : readGroups wide 1 (n + 1) 0 r ⟨[], complete⟩ =
        (readGroups wide 1 n 0 (readGroup wide 0 0 r ⟨[], false⟩).2.1
          (readGroup wide 0 0 r ⟨[], false⟩).2.2).map
            fun x => ((readGroup wide 0 0 r ⟨[], false⟩).1 ++ x.1, x.2) := rfl
    rw [hround, show (readGroup wide 0 0 r ⟨[], false⟩).2.2 = ⟨[], false⟩ from rfl, ih]
    rfl

/-- The truncated stream is decoded forever, and the crowded one to more relocations
than it declares, with success. -/
theorem packed_not_survived :
    (∀ n, forEachPackedReloc (w := 64) (fun v _ => v) n truncatedStream = none) ∧
      ¬ Survives 64 (fun v _ => v) truncatedStream ∧
      (∃ d : Decoded 64, forEachPackedReloc (fun v _ => v) 2 crowdedStream = some d ∧ d.ok = true ∧
        d.total = some 1 ∧ d.emitted.length = 2) := by
  have hforever : ∀ n, forEachPackedReloc (w := 64) (fun v _ => v) n truncatedStream = none := by
    intro n
    show (readGroups (fun v _ => v) 1 n 0 (⟨0, 0, 0⟩ : Reloc 64) ⟨[], true⟩).map _ = none
    rw [readGroups_exhausted]
    rfl
  refine ⟨hforever, ?_, _, rfl, rfl, rfl, rfl⟩
  rintro ⟨n, d, hrun, _⟩
  rw [hforever n] at hrun
  cases hrun

end NyaZygisk
