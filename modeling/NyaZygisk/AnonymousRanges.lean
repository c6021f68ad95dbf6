import NyaZygisk.LoadedRanges

/-!
# Replacing mappings by anonymous ones

`anonymize_ranges` of `clean.cpp` replaces each range by an anonymous copy: it maps scratch memory,
makes the source readable if it is not, copies, takes the reading right back, gives the copy its
final protection and moves it over the source. Each of these calls may be refused, and what was done
before is then undone.
-/

namespace NyaZygisk.AnonymousRanges

open List LoadedRanges

/-! ## The address space -/

/-- A mapping that was there before, or one that was made for a range. -/
inductive Owner
  | original
  | copy (i : Nat)
deriving DecidableEq

structure Cell where
  byte : UInt8
  prot : BitVec 32
  owner : Owner
deriving DecidableEq

abbrev Space : Type := Nat → Option Cell

/-- The address space before the call: a byte and a protection at each mapped address. -/
def initial (mem : Nat → Option (UInt8 × BitVec 32)) :
    Space := fun x => (mem x).map fun m => ⟨m.1, m.2, .original⟩

def InRegion (addr size x : Nat) : Prop := addr ≤ x ∧ x < addr + size

instance (addr size x : Nat) : Decidable (InRegion addr size x) := by unfold InRegion; infer_instance

def onRegion (addr size : Nat) (f : Space) (space : Space) : Space := fun x =>
  if InRegion addr size x then f x else space x

def reprotect (prot : BitVec 32) (space : Space) :
    Space := fun x => (space x).map fun c => { c with prot := prot }

def has (prot flag : BitVec 32) : Bool := decide (prot &&& flag ≠ 0)

/-- The memory at all addresses of a region satisfies something. -/
def AllOf (addr size : Nat) (space : Space) (p : Option Cell → Bool) :
    Prop := ∀ i < size, p (space (addr + i)) = true

instance (addr size : Nat) (space : Space) (p : Option Cell → Bool) :
    Decidable (AllOf addr size space p) := by
  unfold AllOf; infer_instance

def allows (flag : BitVec 32) (cell : Option Cell) : Bool := cell.any fun c => has c.prot flag

/-! ## Calls -/

inductive Call
  | mmap (size : Nat) (prot : BitVec 32)
  | mprotect (addr size : Nat) (prot : BitVec 32)
  | memcpy (dst src size : Nat)
  | mremap (old size new : Nat)
  | munmap (addr size : Nat)
deriving DecidableEq

/-- A call, whether it succeeded, and the address space after it. -/
structure Event where
  call : Call
  ok : Bool
  space : Space

structure Run where
  space : Space
  events : List Event

def Run.record (s : Run) (call : Call) (ok : Bool) (space : Space) :
    Run := ⟨space, s.events ++ [⟨call, ok, space⟩]⟩

theorem Run.space_record (s : Run) (call : Call) (ok : Bool) (space : Space) :
    (s.record call ok space).space = space := rfl

/-- What the kernel decides: which of the calls succeed, and where new mappings are put. -/
structure Kernel where
  pageBits : Nat
  grants : Nat → Bool
  place : Nat → Nat

namespace Kernel

variable (k : Kernel)

def pageUp (size : Nat) : Nat := (size + 2 ^ k.pageBits - 1) / 2 ^ k.pageBits * 2 ^ k.pageBits

/-- A call that changes the address space to `after`, or is refused and changes nothing. -/
def attempt (call : Call) (feasible : Bool) (after : Space) (s : Run) : Bool × Run :=
  let ok := k.grants s.events.length && feasible
  (ok, s.record call ok (if ok then after else s.space))

/-- `mmap` of anonymous memory for the range `i`, at a free place. -/
def mmap (i size : Nat) (prot : BitVec 32) (s : Run) : Option Nat × Run :=
  let addr := k.place s.events.length
  let len := k.pageUp size
  let feasible := decide (2 ^ k.pageBits ∣ addr) && decide (AllOf addr len s.space Option.isNone)
  let r := k.attempt (.mmap size prot) feasible
    (onRegion addr len (fun _ => some ⟨0, prot, .copy i⟩) s.space) s
  (if r.1 then some addr else none, r.2)

def mprotect (addr size : Nat) (prot : BitVec 32) (s : Run) : Bool × Run :=
  let len := k.pageUp size
  let feasible := decide (2 ^ k.pageBits ∣ addr) && decide (AllOf addr len s.space Option.isSome)
  k.attempt (.mprotect addr size prot) feasible
    (onRegion addr len (reprotect prot s.space) s.space) s

/-- `mremap` to a fixed place, which replaces what is there. -/
def mremap (old size new : Nat) (s : Run) : Bool × Run :=
  let len := k.pageUp size
  let feasible := decide (2 ^ k.pageBits ∣ old) && decide (2 ^ k.pageBits ∣ new) &&
    decide (AllOf old len s.space Option.isSome) && decide (old + len ≤ new ∨ new + len ≤ old)
  k.attempt (.mremap old size new) feasible
    (onRegion old len (fun _ => none) (onRegion new len (fun x => s.space (old + (x - new))) s.space)) s

def munmap (addr size : Nat) (s : Run) : Run :=
  s.record (.munmap addr size) true (onRegion addr (k.pageUp size) (fun _ => none) s.space)

end Kernel

/-- `memcpy`, which faults where the source cannot be read or the copy not be written. -/
def memcpy (dst src size : Nat) (s : Run) : Option Run :=
  if AllOf src size s.space (allows protRead) ∧ AllOf dst size s.space (allows protWrite) then
    let byte := fun x => ((s.space (src + (x - dst))).map Cell.byte).getD 0
    some (s.record (.memcpy dst src size) true
      (onRegion dst size (fun x => (s.space x).map fun c => { c with byte := byte x }) s.space))
  else none

/-! ## `anonymize_ranges` -/

def finalProt (clearWritePermission : Bool) (prot : BitVec 32) : BitVec 32 :=
  let rwx := protRead ||| protWrite ||| protExec
  if clearWritePermission && decide (prot &&& rwx = rwx) then prot &&& ~~~protWrite else prot

def size (r : MapRange) : Nat := r.stop - r.start

/-- A change of the source that is made only if reading had to be added. -/
def mprotectIf (k : Kernel) (c : Bool) (addr size : Nat) (prot : BitVec 32) (s : Run) : Bool × Run :=
  if c then k.mprotect addr size prot s else (true, s)

/-- The part of a round that fills the copy and leaves the source as it was. -/
def fillCopy (k : Kernel) (r : MapRange) (copy : Nat) (s : Run) : Option (Bool × Run) :=
  let addedRead := !has r.prot protRead
  match mprotectIf k addedRead r.start (size r) (r.prot ||| protRead) s with
  | (false, s) => some (false, s)
  | (true, s) => (memcpy copy r.start (size r) s).map fun s =>
      mprotectIf k addedRead r.start (size r) r.prot s

/-- The part of a round that puts the copy in the place of the source. -/
def swapCopy (k : Kernel) (clearWritePermission : Bool) (r : MapRange) (copy : Nat) (s : Run) : Bool × Run :=
  match k.mprotect copy (size r) (finalProt clearWritePermission r.prot) s with
  | (false, s) => (false, s)
  | (true, s) => k.mremap copy (size r) r.start s

/-- A round of the loop: whether the range was replaced, unless a copy faults. -/
def anonymizeRange (k : Kernel) (clearWritePermission : Bool) (i : Nat) (r : MapRange) (s : Run) :
    Option (Bool × Run) :=
  if size r = 0 then some (false, s)
  else
    match k.mmap i (size r) (protRead ||| protWrite) s with
    | (none, s) => some (false, s)
    | (some copy, s) =>
      match fillCopy k r copy s with
      | none => none
      | some (false, s) => some (false, k.munmap copy (size r) s)
      | some (true, s) =>
        match swapCopy k clearWritePermission r copy s with
        | (false, s) => some (false, k.munmap copy (size r) s)
        | (true, s) => some (true, s)

def anonymizeFrom (k : Kernel) (clearWritePermission : Bool) :
    (i : Nat) → List MapRange → (done : Nat) → Run →
    Option (Nat × Run)
  | _, [], done, s => some (done, s)
  | i, r :: ranges, done, s =>
    match anonymizeRange k clearWritePermission i r s with
    | none => none
    | some (replaced, s) => anonymizeFrom k clearWritePermission (i + 1) ranges
        (if replaced then done + 1 else done) s

def anonymizeRanges (k : Kernel) (ranges : List MapRange) (clearWritePermission : Bool) (s : Run) :
    Option (Nat × Run) :=
  anonymizeFrom k clearWritePermission 0 ranges 0 s

/-! ## What is to hold -/

def WriteExec (prot : BitVec 32) : Prop := has prot protWrite = true ∧ has prot protExec = true

/-- Memory that can be written and executed could be both before, or is for a range that could be. -/
def Safe (ranges : List MapRange) (before space : Space) : Prop :=
  ∀ x c, space x = some c → WriteExec c.prot →
    match c.owner with
    | .original => ∃ c₀, before x = some c₀ ∧ WriteExec c₀.prot
    | .copy i => ∃ r, ranges[i]? = some r ∧ WriteExec r.prot

inductive Outcome
  | kept
  | readable
  | replaced
deriving DecidableEq

def Holds (clearWritePermission : Bool) (before : Space) (s : Run) (i : Nat) (r : MapRange) : Outcome → Prop
  | .kept => ∀ x, r.Covers x → s.space x = before x
  | .readable =>
    (∀ x, r.Covers x → s.space x = (before x).map fun c => { c with prot := c.prot ||| protRead }) ∧
      ∃ e ∈ s.events, e.call = .mprotect r.start (size r) r.prot ∧ e.ok = false
  | .replaced => r.start < r.stop ∧ ∀ x, r.Covers x → s.space x =
    (before x).map fun c => ⟨c.byte, finalProt clearWritePermission r.prot, .copy i⟩

/-- What the ranges, the rest of the memory, and the states on the way are. -/
structure Anonymizes (clearWritePermission : Bool) (ranges : List MapRange) (before : Space)
    (outcomes : List Outcome)
    (s : Run) : Prop where
  length : outcomes.length = ranges.length
  holds : ∀ i r o, ranges[i]? = some r → outcomes[i]? = some o → Holds clearWritePermission before s i r o
  elsewhere : ∀ x, (∀ r ∈ ranges, ¬r.Covers x) → s.space x = before x
  scratch : ∀ x c i, s.space x = some c → c.owner = .copy i → ∃ r, ranges[i]? = some r ∧ r.Covers x
  safe : ∀ e ∈ s.events, Safe ranges before e.space

namespace AnonymousRangesLemmas

/-! ### Protections -/

theorem writeExec_or_read {prot : BitVec 32} (h : WriteExec (prot ||| protRead)) : WriteExec prot := by
  have hflag (flag : BitVec 32) (hflag : protRead &&& flag = 0) :
    has (prot ||| protRead) flag = has prot flag := by
    unfold has
    rw [BitVec.and_or_distrib_right, hflag]
    exact congrArg (fun b : BitVec 32 => decide (b ≠ 0)) BitVec.or_zero
  unfold WriteExec at h
  rwa [hflag protWrite (by decide), hflag protExec (by decide)] at h

theorem writeExec_finalProt {clear : Bool} {prot : BitVec 32} (h : WriteExec (finalProt clear prot)) :
    WriteExec prot := by
  unfold finalProt at h
  dsimp only at h
  split at h
  · next hrwx =>
    -- all three rights were there before
    have hall : prot &&& (protRead ||| protWrite ||| protExec) = protRead ||| protWrite ||| protExec :=
      of_decide_eq_true (Bool.and_eq_true _ _ ▸ hrwx).2
    have hflag (flag : BitVec 32) (hne : flag ≠ 0)
        (hsub : (protRead ||| protWrite ||| protExec) &&& flag = flag) : has prot flag = true := by
      apply decide_eq_true
      rw [← hsub, ← BitVec.and_assoc, hall, hsub]
      exact hne
    exact ⟨hflag protWrite (by decide) (by decide), hflag protExec (by decide) (by decide)⟩
  · exact h

theorem not_writeExec_readWrite : ¬WriteExec (protRead ||| protWrite) := fun h => absurd h.2 (by decide)

theorem has_or_read (prot : BitVec 32) : has (prot ||| protRead) protRead = true := by
  apply decide_eq_true
  intro h
  rw [BitVec.and_or_distrib_right] at h
  exact absurd (BitVec.or_eq_zero_iff.mp h).2 (by decide)

/-! ### Calls -/

theorem pageUp_of_dvd {k : Kernel} {n : Nat} (h : 2 ^ k.pageBits ∣ n) : k.pageUp n = n := by
  obtain ⟨m, rfl⟩ := h
  have hpos : 0 < 2 ^ k.pageBits := Nat.two_pow_pos _
  have hlt : 2 ^ k.pageBits - 1 < 2 ^ k.pageBits := Nat.sub_lt hpos Nat.one_pos
  rw [Kernel.pageUp, Nat.add_sub_assoc hpos, Nat.mul_add_div hpos, Nat.div_eq_of_lt hlt,
    Nat.add_zero, Nat.mul_comm]

/-- A call succeeds, or it is refused and only recorded. -/
theorem attempt_cases (k : Kernel) (call : Call) (feasible : Bool) (after : Space) (s : Run) :
    k.attempt call feasible after s = (true, s.record call true after) ∧ feasible = true ∨
      k.attempt call feasible after s = (false, s.record call false s.space) := by
  unfold Kernel.attempt
  cases h : k.grants s.events.length && feasible with
  | true => exact .inl ⟨rfl, (Bool.and_eq_true _ _ ▸ h).2⟩
  | false => exact .inr rfl

/-- A later run: its calls leave only spaces that satisfy something. -/
structure Continues (P : Space → Prop) (s s' : Run) : Prop where
  last : P s'.space
  events : ∃ new, s'.events = s.events ++ new ∧ ∀ e ∈ new, P e.space

variable {P : Space → Prop}

theorem Continues.refl {s : Run} (h : P s.space) : Continues P s s :=
  ⟨h, [], (append_nil _).symm, fun _ he => absurd he not_mem_nil⟩

theorem Continues.trans {s₁ s₂ s₃ : Run} (h₁ : Continues P s₁ s₂) (h₂ : Continues P s₂ s₃) :
    Continues P s₁ s₃ := by
  obtain ⟨new₁, heq₁, hnew₁⟩ := h₁.events
  obtain ⟨new₂, heq₂, hnew₂⟩ := h₂.events
  refine ⟨h₂.last, new₁ ++ new₂, ?_, fun e he => ?_⟩
  · rw [heq₂, heq₁, append_assoc]
  · exact (mem_append.mp he).elim (hnew₁ e) (hnew₂ e)

theorem Continues.subset {s s' : Run} (h : Continues P s s') : s.events ⊆ s'.events := by
  obtain ⟨new, heq, -⟩ := h.events
  rw [heq]
  exact subset_append_left _ _

theorem continues_record (s : Run) (call : Call) (ok : Bool) {space : Space} (h : P space) :
    Continues P s (s.record call ok space) :=
  ⟨h, _, rfl, fun _ he => mem_singleton.mp he ▸ h⟩

/-! ### Between the calls of a round -/

/-- The address space while there is a copy: the protection of the source may differ, the copy is
where nothing was, and all else is as before the round. -/
def stage (base : Space) (r : MapRange) (copy : Nat) (prot : BitVec 32) (cell : Nat → Cell) : Space :=
  onRegion r.start (size r) (reprotect prot base)
    (onRegion copy (size r) (fun x => some (cell (x - copy))) base)

/-- The address space before a round, and where its copy is put. -/
structure Placed (k : Kernel) (base : Space) (r : MapRange) (copy : Nat) : Prop where
  pages : 2 ^ k.pageBits ∣ size r
  source : ∀ x, InRegion r.start (size r) x → ∃ c, base x = some c ∧ c.prot = r.prot
  free : ∀ x, InRegion copy (size r) x → base x = none

section

variable {k : Kernel} {base : Space} {r : MapRange} {copy : Nat} {prot : BitVec 32} {cell : Nat → Cell}

variable {copyProt : BitVec 32} {addr x : Nat} {s : Run}

theorem inRegion_add {n j : Nat} (h : j < n) : InRegion addr n (addr + j) :=
  ⟨Nat.le_add_right _ _, Nat.add_lt_add_left h _⟩

theorem sub_lt_of_inRegion {n : Nat} (h : InRegion addr n x) :
    x - addr < n := Nat.sub_lt_left_of_lt_add h.1 h.2

theorem onRegion_inside {n : Nat} (f space : Space) (h : InRegion addr n x) :
    onRegion addr n f space x = f x :=
  if_pos h

theorem onRegion_outside {n : Nat} (f space : Space) (h : ¬InRegion addr n x) :
    onRegion addr n f space x = space x := if_neg h

theorem Placed.disjoint (h : Placed k base r copy) (hx : InRegion copy (size r) x) :
    ¬InRegion r.start (size r) x := by
  intro hsource
  obtain ⟨c, hc, -⟩ := h.source x hsource
  rw [h.free x hx] at hc
  cases hc

theorem stage_source (hx : InRegion r.start (size r) x) :
    stage base r copy prot cell x = reprotect prot base x := if_pos hx

theorem stage_copy (h : Placed k base r copy) (hx : InRegion copy (size r) x) :
    stage base r copy prot cell x = some (cell (x - copy)) := by
  rw [stage, onRegion_outside _ _ (h.disjoint hx), onRegion_inside _ _ hx]

theorem stage_congr {cell' : Nat → Cell} (h : ∀ j < size r, cell j = cell' j) :
    stage base r copy prot cell = stage base r copy prot cell' := by
  refine congrArg (onRegion r.start (size r) _) (funext fun x => ?_)
  unfold onRegion
  split
  · next hx => exact congrArg some (h _ (sub_lt_of_inRegion hx))
  · rfl

/-- The protection of the source, put on it again, changes nothing. -/
theorem reprotect_source (h : Placed k base r copy) (hx : InRegion r.start (size r) x) :
    reprotect r.prot base x = base x := by
  obtain ⟨c, hc, hprot⟩ := h.source x hx
  rw [reprotect, hc, Option.map_some, ← hprot]

theorem onRegion_base (h : Placed k base r copy) (c : Cell) :
    onRegion copy (size r) (fun _ => some c) base = stage base r copy r.prot fun _ => c := by
  funext x
  simp only [onRegion, stage]
  grind [Placed.disjoint, reprotect_source]

theorem onRegion_source (prot' : BitVec 32) :
    onRegion r.start (size r) (reprotect prot' (stage base r copy prot cell))
      (stage base r copy prot cell) = stage base r copy prot' cell := by
  funext x
  by_cases hx : InRegion r.start (size r) x
  · rw [onRegion_inside _ _ hx, stage_source hx, reprotect, stage_source hx, reprotect, Option.map_map]
    rfl
  · rw [onRegion_outside _ _ hx, stage, stage, onRegion_outside _ _ hx, onRegion_outside _ _ hx]

theorem onRegion_copy (h : Placed k base r copy) (f : Nat → Cell → Cell) :
    onRegion copy (size r) (fun x => (stage base r copy prot cell x).map (f x))
      (stage base r copy prot cell) =
      stage base r copy prot fun j => f (copy + j) (cell j) := by
  funext x
  simp only [onRegion, stage]
  grind [Placed.disjoint, InRegion]

/-- Without the copy, only the protection of the source may differ. -/
theorem onRegion_none (h : Placed k base r copy) :
    onRegion copy (size r) (fun _ => none) (stage base r copy prot cell) =
      onRegion r.start (size r) (reprotect prot base) base := by
  funext x
  simp only [onRegion, stage]
  grind [Placed.disjoint, Placed.free]

theorem onRegion_moved (h : Placed k base r copy) :
    onRegion copy (size r) (fun _ => none) (onRegion r.start (size r)
        (fun x => stage base r copy prot cell (copy + (x - r.start))) (stage base r copy prot cell)) =
      onRegion r.start (size r) (fun x => some (cell (x - r.start))) base := by
  funext x
  simp only [onRegion, stage]
  grind [Placed.disjoint, Placed.free, inRegion_add, sub_lt_of_inRegion]

/-! ### A round -/

variable {ranges : List MapRange} {before : Space} {i : Nat}

/-- Memory that is from before the round, with no new right to write and execute, or is that of the
copy. -/
def Cells (base : Space) (r : MapRange) (i : Nat) (space : Space) : Prop :=
  ∀ x c, space x = some c →
    (∃ c₀, base x = some c₀ ∧ c₀.owner = c.owner ∧ (WriteExec c.prot → WriteExec c₀.prot)) ∨
      c.owner = .copy i ∧ (WriteExec c.prot → WriteExec r.prot)

theorem Cells.safe {space : Space} (h : Cells base r i space) (hbase : Safe ranges before base)
    (hr : ranges[i]? = some r) : Safe ranges before space := by
  intro x c hc hwx
  rcases h x c hc with ⟨c₀, hc₀, howner, hprot⟩ | ⟨howner, hprot⟩
  · rw [← howner]
    exact hbase x c₀ hc₀ (hprot hwx)
  · rw [howner]
    exact ⟨r, hr, hprot hwx⟩

theorem cells_base : Cells base r i base := fun _ c hc => .inl ⟨c, hc, rfl, id⟩

theorem Cells.reprotected {space : Space} (hspace : Cells base r i space) (h : Placed k base r copy)
    (hprot : WriteExec prot → WriteExec r.prot) :
    Cells base r i (onRegion r.start (size r) (reprotect prot base) space) := by
  intro x c hc
  unfold onRegion at hc
  split at hc
  · next hx =>
    obtain ⟨c₀, hc₀, hp⟩ := h.source x hx
    rw [reprotect, hc₀] at hc
    cases hc
    exact .inl ⟨c₀, hc₀, rfl, fun hwx => hp ▸ hprot hwx⟩
  · exact hspace x c hc

theorem Cells.copied {space : Space} (hspace : Cells base r i space) (byte : Nat → UInt8)
    (hcopy : WriteExec copyProt → WriteExec r.prot) (addr n : Nat) :
    Cells base r i (onRegion addr n (fun x => some ⟨byte (x - addr), copyProt, .copy i⟩) space) := by
  intro x c hc
  unfold onRegion at hc
  split at hc
  · cases hc
    exact .inr ⟨rfl, hcopy⟩
  · exact hspace x c hc

theorem safe_stage (h : Placed k base r copy) (hbase : Safe ranges before base) (hr : ranges[i]? = some r)
    (hprot : WriteExec prot → WriteExec r.prot) (byte : Nat → UInt8)
    (hcopy : WriteExec copyProt → WriteExec r.prot) :
    Safe ranges before (stage base r copy prot fun j => ⟨byte j, copyProt, .copy i⟩) :=
  ((cells_base.copied byte hcopy copy (size r)).reprotected h hprot).safe hbase hr

/-- A change of the protection of the source works, or is refused. -/
theorem mprotectIf_source (h : Placed k base r copy) (added : Bool) (prot' : BitVec 32)
    (hs : s.space = stage base r copy prot cell) :
    (∃ s', mprotectIf k added r.start (size r) prot' s = (true, s') ∧
        s'.space = stage base r copy (if added then prot' else prot) cell ∧
        ∀ P : Space → Prop, P s'.space → Continues P s s') ∨
      mprotectIf k added r.start (size r) prot' s =
        (false, s.record (.mprotect r.start (size r) prot') false s.space) ∧ added = true := by
  unfold mprotectIf
  cases added with
  | false => exact .inl ⟨s, rfl, hs, fun _ hP => .refl hP⟩
  | true =>
    rw [if_pos rfl, if_pos rfl, Kernel.mprotect, pageUp_of_dvd h.pages]
    rcases attempt_cases k (.mprotect r.start (size r) prot') _
      (onRegion r.start (size r) (reprotect prot' s.space) s.space) s with
      ⟨heq, -⟩ | heq
    · refine .inl ⟨_, heq, ?_, fun _ hP => continues_record s _ true hP⟩
      dsimp only [Run.record]
      rw [hs, onRegion_source]
    · exact .inr ⟨heq, rfl⟩

def bytesOf (base : Space) (r : MapRange) (j : Nat) : UInt8 := ((base (r.start + j)).map Cell.byte).getD 0

/-- The source is readable and the copy writable, so copying does not fault. -/
theorem memcpy_stage (h : Placed k base r copy) {byte : Nat → UInt8}
    (hs : s.space = stage base r copy prot fun j => ⟨byte j, copyProt, .copy i⟩)
    (hread : has prot protRead = true) (hwrite : has copyProt protWrite = true) :
    memcpy copy r.start (size r) s = some (s.record (.memcpy copy r.start (size r)) true
      (stage base r copy prot fun j => ⟨bytesOf base r j, copyProt, .copy i⟩)) := by
  have hsource : AllOf r.start (size r) s.space (allows protRead) := by
    intro j hj
    obtain ⟨c, hc, -⟩ := h.source _ (inRegion_add hj)
    rw [hs, stage_source (inRegion_add hj), reprotect, hc]
    exact hread
  have hcopy : AllOf copy (size r) s.space (allows protWrite) := by
    intro j hj
    rw [hs, stage_copy h (inRegion_add hj)]
    exact hwrite
  rw [memcpy, if_pos ⟨hsource, hcopy⟩]
  dsimp only
  rw [hs, onRegion_copy h fun x c => { c with
    byte := ((stage base r copy prot (fun j => ⟨byte j, copyProt, .copy i⟩)
      (r.start + (x - copy))).map Cell.byte).getD 0 }]
  refine congrArg (fun space => some (s.record _ true space)) (stage_congr fun j hj => ?_)
  rw [Nat.add_sub_cancel_left, stage_source (inRegion_add hj), reprotect, Option.map_map]
  rfl

def readableProt (r : MapRange) : BitVec 32 := if !has r.prot protRead then r.prot ||| protRead else r.prot

theorem has_readableProt (r : MapRange) : has (readableProt r) protRead = true := by
  unfold readableProt
  cases h : has r.prot protRead with
  | true => exact h
  | false => exact has_or_read _

theorem writeExec_readableProt (h : WriteExec (readableProt r)) : WriteExec r.prot := by
  unfold readableProt at h
  split at h
  · exact writeExec_or_read h
  · exact h

/-- What is left of the source after a round that failed. -/
def Undone (r : MapRange) (s : Run) (prot : BitVec 32) : Prop :=
  prot = r.prot ∨ prot = r.prot ||| protRead ∧
    ∃ e ∈ s.events, e.call = .mprotect r.start (size r) r.prot ∧ e.ok = false

/-- The second half of filling the copy, which takes reading back. -/
theorem restore_spec (h : Placed k base r copy) {P : Space → Prop}
    (hs : s.space = stage base r copy (readableProt r) cell) (hP : P (stage base r copy r.prot cell))
    (hP' : P (stage base r copy (readableProt r) cell)) :
    ∃ ok s' prot, mprotectIf k (!has r.prot protRead) r.start (size r) r.prot s = (ok, s') ∧
      Continues P s s' ∧
      s'.space = stage base r copy prot cell ∧ Undone r s' prot ∧ (ok = true → prot = r.prot) := by
  rcases mprotectIf_source h (!has r.prot protRead) r.prot hs with ⟨s', heq, hs', hc⟩ | ⟨heq, hadded⟩
  · have hprot : (if (!has r.prot protRead) then r.prot else readableProt r) = r.prot := by
      unfold readableProt
      split <;> rfl
    rw [hprot] at hs'
    exact ⟨true, s', r.prot, heq, hc P (hs' ▸ hP), hs', .inl rfl, fun _ => rfl⟩
  · refine ⟨false, _, readableProt r, heq, continues_record s _ false (hs ▸ hP'), hs,
      .inr ⟨if_pos hadded, ?_⟩,
      fun hok => Bool.noConfusion hok⟩
    exact ⟨_, mem_append_right _ (mem_singleton_self _), rfl, rfl⟩

/-- Filling the copy never faults, and fails with the source as it was or with reading added that
could not be taken back. -/
theorem fillCopy_spec (h : Placed k base r copy) (hbase : Safe ranges before base) (hr : ranges[i]? = some r)
    (hs : s.space = stage base r copy r.prot fun _ => ⟨0, protRead ||| protWrite, .copy i⟩) :
    ∃ ok s' prot byte, fillCopy k r copy s = some (ok, s') ∧ Continues (Safe ranges before) s s' ∧
      s'.space = stage base r copy prot (fun j => ⟨byte j, protRead ||| protWrite, .copy i⟩) ∧
        Undone r s' prot ∧
      (ok = true → prot = r.prot ∧ byte = bytesOf base r) := by
  have hsafe {prot : BitVec 32} (hprot : WriteExec prot → WriteExec r.prot) (byte : Nat → UInt8) :=
    safe_stage h hbase hr hprot byte fun hwx => absurd hwx not_writeExec_readWrite
  unfold fillCopy
  dsimp only
  rcases mprotectIf_source h (!has r.prot protRead) (r.prot ||| protRead) hs with ⟨s₁, heq₁, hs₁,
    hc₁⟩ | ⟨heq₁, -⟩
  · -- the source is readable now, so the copy is made
    have hcopy :=
      memcpy_stage h hs₁ (has_readableProt r) (show has (protRead ||| protWrite) protWrite = true by decide)
    have hc₂ := continues_record s₁ (.memcpy copy r.start (size r)) true
      (hsafe writeExec_readableProt (bytesOf base r))
    have hc := (hc₁ _ (hs₁ ▸ hsafe writeExec_readableProt _)).trans hc₂
    obtain ⟨ok, s', prot, heq, hc₃, hs', hundone, hok⟩ :=
      restore_spec h (Run.space_record s₁ (.memcpy copy r.start (size r)) true _) (hsafe id _) hc₂.last
    rw [heq₁]
    dsimp only
    rw [hcopy, Option.map_some]
    exact ⟨ok, s', prot, _, congrArg some heq, hc.trans hc₃, hs', hundone, fun h => ⟨hok h, rfl⟩⟩
  · -- reading was not granted
    rw [heq₁]
    exact ⟨false, _, r.prot, _, rfl, continues_record s _ false (hs ▸ hsafe id _), hs, .inl rfl,
      fun hok => Bool.noConfusion hok⟩

theorem mprotect_copy_cases (h : Placed k base r copy) (prot' : BitVec 32)
    (hs : s.space = stage base r copy prot cell) :
    k.mprotect copy (size r) prot' s = (true, s.record (.mprotect copy (size r) prot') true
        (stage base r copy prot fun j => { cell j with prot := prot' })) ∨
      k.mprotect copy (size r) prot' s = (false, s.record (.mprotect copy (size r) prot') false s.space) := by
  unfold Kernel.mprotect
  dsimp only
  unfold reprotect
  rw [pageUp_of_dvd h.pages, hs, onRegion_copy h fun _ c => { c with prot := prot' }, ← hs]
  exact (attempt_cases ..).imp And.left id

theorem mremap_cases (h : Placed k base r copy) (hs : s.space = stage base r copy prot cell) :
    k.mremap copy (size r) r.start s = (true, s.record (.mremap copy (size r) r.start) true
        (onRegion r.start (size r) (fun x => some (cell (x - r.start))) base)) ∨
      k.mremap copy (size r) r.start s = (false, s.record (.mremap copy (size r) r.start) false s.space) := by
  unfold Kernel.mremap
  dsimp only
  rw [pageUp_of_dvd h.pages, hs, onRegion_moved h, ← hs]
  exact (attempt_cases ..).imp And.left id

/-- The copy with its final protection is put in the place of the source, or the source is as it was. -/
theorem swapCopy_spec (h : Placed k base r copy) (hbase : Safe ranges before base) (hr : ranges[i]? = some r)
    (clear : Bool) {byte : Nat → UInt8}
    (hs : s.space = stage base r copy r.prot fun j => ⟨byte j, protRead ||| protWrite, .copy i⟩) :
    (∃ s', swapCopy k clear r copy s = (true, s') ∧ Continues (Safe ranges before) s s' ∧
        s'.space = onRegion r.start (size r)
          (fun x => some ⟨byte (x - r.start), finalProt clear r.prot, .copy i⟩) base) ∨
      ∃ s' cell, swapCopy k clear r copy s = (false, s') ∧ Continues (Safe ranges before) s s' ∧
        s'.space = stage base r copy r.prot cell := by
  have hsafe := safe_stage h hbase hr id byte fun hwx => absurd hwx not_writeExec_readWrite
  have hsafe' := safe_stage h hbase hr id byte (@writeExec_finalProt clear r.prot)
  unfold swapCopy
  rcases mprotect_copy_cases h (finalProt clear r.prot) hs with heq | heq
  · have hc := continues_record s (.mprotect copy (size r) (finalProt clear r.prot)) true hsafe'
    rw [heq]
    dsimp only
    rcases mremap_cases h (Run.space_record s _ true _) with heq' | heq'
    · exact .inl ⟨_, heq',
        hc.trans (continues_record _ _ true
          ((cells_base.copied byte writeExec_finalProt _ _).safe hbase hr)), rfl⟩
    · exact .inr ⟨_, fun j => ⟨byte j, finalProt clear r.prot, .copy i⟩, heq',
        hc.trans (continues_record _ _ false hsafe'), rfl⟩
  · rw [heq]
    exact .inr ⟨_, _, rfl, continues_record s _ false (hs ▸ hsafe), hs⟩

theorem munmap_stage (h : Placed k base r copy) (hs : s.space = stage base r copy prot cell) :
    k.munmap copy (size r) s = s.record (.munmap copy (size r)) true
      (onRegion r.start (size r) (reprotect prot base) base) := by
  rw [Kernel.munmap, pageUp_of_dvd h.pages, hs, onRegion_none h]

theorem mmap_cases (hpages : 2 ^ k.pageBits ∣ size r)
    (hsource : ∀ x, InRegion r.start (size r) x → ∃ c, base x = some c ∧ c.prot = r.prot) (prot : BitVec 32)
    (hs : s.space = base) :
    (∃ copy, Placed k base r copy ∧ k.mmap i (size r) prot s =
        (some copy, s.record (.mmap (size r) prot) true (stage base r copy r.prot fun _ =>
          ⟨0, prot, .copy i⟩))) ∨
      k.mmap i (size r) prot s = (none, s.record (.mmap (size r) prot) false s.space) := by
  unfold Kernel.mmap
  dsimp only
  rw [pageUp_of_dvd hpages]
  rcases attempt_cases k (.mmap (size r) prot) (decide (2 ^ k.pageBits ∣ k.place s.events.length) &&
    decide (AllOf (k.place s.events.length) (size r) s.space Option.isNone))
      (onRegion (k.place s.events.length) (size r)
    (fun _ => some ⟨0, prot, .copy i⟩) s.space) s with ⟨heq, hfeasible⟩ | heq
  · have hfree : AllOf (k.place s.events.length) (size r) s.space Option.isNone :=
      of_decide_eq_true (Bool.and_eq_true _ _ ▸ hfeasible).2
    have hplaced : Placed k base r (k.place s.events.length) := by
      refine ⟨hpages, hsource, fun x hx => ?_⟩
      have hx' := hfree (x - k.place s.events.length) (sub_lt_of_inRegion hx)
      rw [Nat.add_sub_cancel' hx.1, hs] at hx'
      exact Option.isNone_iff_eq_none.mp hx'
    refine .inl ⟨_, hplaced, ?_⟩
    rw [heq, hs, onRegion_base hplaced]
    rfl
  · rw [heq]
    exact .inr rfl

theorem inRegion_iff_covers (hle : r.start ≤ r.stop) (x : Nat) :
    InRegion r.start (size r) x ↔ r.Covers x := by
  unfold InRegion MapRange.Covers size
  rw [Nat.add_sub_cancel' hle]

/-- What one round leaves of the range, with nothing changed outside it. -/
def RoundEnds (clear : Bool) (P : Space → Prop) (i : Nat) (r : MapRange) (s : Run)
    (res : Option (Bool × Run)) : Prop :=
  ∃ o s', res = some (decide (o = .replaced), s') ∧ Continues P s s' ∧
    (∀ x, ¬r.Covers x → s'.space x = s.space x) ∧ Holds clear s.space s' i r o

/-- A round that failed after the copy was made removes the copy. -/
theorem roundEnds_munmap (clear : Bool) (hle : r.start ≤ r.stop) {s₁ : Run} (h : Placed k s.space r copy)
    (hsafe : Safe ranges before s.space) (hr : ranges[i]? = some r) (hc : Continues (Safe ranges before) s s₁)
    (hs₁ : s₁.space = stage s.space r copy prot cell) (hundone : Undone r s₁ prot) :
    RoundEnds clear (Safe ranges before) i r s (some (false, k.munmap copy (size r) s₁)) := by
  have hwx : WriteExec prot → WriteExec r.prot := by
    rcases hundone with rfl | ⟨rfl, -⟩
    · exact id
    · exact writeExec_or_read
  have hc' := hc.trans (continues_record s₁ (.munmap copy (size r)) true
    ((cells_base.reprotected h hwx).safe hsafe hr))
  have houtside (x : Nat) (hx : ¬r.Covers x) := onRegion_outside (reprotect prot s.space) s.space
    fun hin => hx ((inRegion_iff_covers hle x).mp hin)
  have hinside (x : Nat) (hx : r.Covers x) := onRegion_inside (reprotect prot s.space) s.space
    ((inRegion_iff_covers hle x).mpr hx)
  rw [munmap_stage h hs₁]
  rcases hundone with rfl | ⟨rfl, e, he, hrefused⟩
  · refine ⟨.kept, _, rfl, hc', houtside, fun x hx => ?_⟩
    rw [Run.space_record, hinside x hx, reprotect_source h ((inRegion_iff_covers hle x).mpr hx)]
  · refine ⟨.readable, _, rfl, hc', houtside, fun x hx => ?_, e, mem_append_left _ he, hrefused⟩
    obtain ⟨c, hcell, hprot⟩ := h.source x ((inRegion_iff_covers hle x).mpr hx)
    rw [Run.space_record, hinside x hx, reprotect, hcell, Option.map_some, Option.map_some, hprot]

/-- One round: nothing outside the range changes, and the range is kept or replaced. -/
theorem anonymizeRange_step (clear : Bool) (hle : r.start ≤ r.stop) (hpages : 2 ^ k.pageBits ∣ size r)
    (hsource : ∀ x, r.Covers x → ∃ c, s.space x = some c ∧ c.prot = r.prot)
      (hsafe : Safe ranges before s.space)
    (hr : ranges[i]? = some r) :
    RoundEnds clear (Safe ranges before) i r s (anonymizeRange k clear i r s) := by
  unfold anonymizeRange
  split
  · exact ⟨.kept, s, rfl, .refl hsafe, fun _ _ => rfl, fun _ _ => rfl⟩
  next hsize =>
  rcases mmap_cases hpages (fun x hx => hsource x ((inRegion_iff_covers hle x).mp hx))
    (protRead ||| protWrite) rfl with
    ⟨copy, h, heq⟩ | heq
  · rw [heq]
    dsimp only
    have hc₀ := continues_record s (.mmap (size r) (protRead ||| protWrite)) true
      (safe_stage h hsafe hr id (fun _ => 0) fun hwx => absurd hwx not_writeExec_readWrite)
    obtain ⟨ok, s₁, prot, byte, heq₁, hc₁, hs₁, hundone, hok⟩ :=
      fillCopy_spec h hsafe hr (Run.space_record s _ true _)
    rw [heq₁]
    cases ok with
    | false => exact roundEnds_munmap clear hle h hsafe hr (hc₀.trans hc₁) hs₁ hundone
    | true =>
      obtain ⟨rfl, rfl⟩ := hok rfl
      dsimp only
      rcases swapCopy_spec h hsafe hr clear hs₁ with ⟨s₂, heq₂, hc₂, hs₂⟩ | ⟨s₂, cell, heq₂, hc₂, hs₂⟩
      · rw [heq₂]
        refine ⟨.replaced, s₂, rfl, (hc₀.trans hc₁).trans hc₂, fun x hx => ?_,
          Nat.lt_of_sub_pos (Nat.pos_of_ne_zero hsize), fun x hx => ?_⟩
        · rw [hs₂, onRegion_outside _ _ fun hin => hx ((inRegion_iff_covers hle x).mp hin)]
        · obtain ⟨c, hcell, -⟩ := hsource x hx
          rw [hs₂, onRegion_inside _ _ ((inRegion_iff_covers hle x).mpr hx), bytesOf,
            Nat.add_sub_cancel' hx.1, hcell]
          rfl
      · rw [heq₂]
        exact roundEnds_munmap clear hle h hsafe hr ((hc₀.trans hc₁).trans hc₂) hs₂ (.inl rfl)
  · rw [heq]
    exact ⟨.kept, _, rfl, continues_record s _ false hsafe, fun _ _ => rfl, fun _ _ => rfl⟩

/-! ### All ranges -/

theorem not_covers_of_disjoint {q : MapRange} (h : r.stop ≤ q.start ∨ q.stop ≤ r.start) (hx : r.Covers x) :
    ¬q.Covers x := by
  intro hx'
  rcases h with h | h
  · exact absurd (hx.2.trans_le (h.trans hx'.1)) (lt_irrefl x)
  · exact absurd (hx'.2.trans_le (h.trans hx.1)) (lt_irrefl x)

theorem holds_mono {clear : Bool} {s' : Run} {o : Outcome} (hspace : ∀ x, r.Covers x → s'.space x = s.space x)
    (hevents : s.events ⊆ s'.events) (h : Holds clear before s i r o) : Holds clear before s' i r o := by
  cases o with
  | kept => exact fun x hx => (hspace x hx).trans (h x hx)
  | readable =>
    obtain ⟨hcells, e, he, hrefused⟩ := h
    exact ⟨fun x hx => (hspace x hx).trans (hcells x hx), e, hevents he, hrefused⟩
  | replaced => exact ⟨h.1, fun x hx => (hspace x hx).trans (h.2 x hx)⟩

/-- The round starts with the range as it was before all rounds. -/
theorem holds_before {clear : Bool} {s' : Run} {o : Outcome} (hsame : ∀ x, r.Covers x → s.space x = before x)
    (h : Holds clear s.space s' i r o) : Holds clear before s' i r o := by
  cases o with
  | kept => exact fun x hx => (h x hx).trans (hsame x hx)
  | readable => exact ⟨fun x hx => hsame x hx ▸ h.1 x hx, h.2⟩
  | replaced => exact ⟨h.1, fun x hx => hsame x hx ▸ h.2 x hx⟩

theorem anonymizeFrom_run (clear : Bool) {rs : List MapRange}
    (hpages : ∀ r ∈ rs, r.start ≤ r.stop ∧ 2 ^ k.pageBits ∣ size r)
    (hdisjoint : rs.Pairwise fun r q => r.stop ≤ q.start ∨ q.stop ≤ r.start)
    (hcurrent : ∀ r ∈ rs, ∀ x, r.Covers x → ∃ c, before x = some c ∧ c.prot = r.prot) (i : Nat)
    (hidx : ∀ j, ranges[i + j]? = rs[j]?) (done : Nat)
    (hsame : ∀ r ∈ rs, ∀ x, r.Covers x → s.space x = before x) (hsafe : Safe ranges before s.space) :
    ∃ (outcomes : List Outcome) (s' : Run), anonymizeFrom k clear i rs done s =
      some (done + outcomes.count .replaced, s') ∧
      Continues (Safe ranges before) s s' ∧ outcomes.length = rs.length ∧
      (∀ j r o, rs[j]? = some r → outcomes[j]? = some o → Holds clear before s' (i + j) r o) ∧
      ∀ x, (∀ r ∈ rs, ¬r.Covers x) → s'.space x = s.space x := by
  induction rs generalizing i done s with
  | nil => exact ⟨[], s, rfl, .refl hsafe, rfl, fun j r o hr => (by cases hr), fun _ _ => rfl⟩
  | cons r rs ih =>
    rw [pairwise_cons] at hdisjoint
    rw [forall_mem_cons] at hpages hcurrent hsame
    have hi : ranges[i]? = some r := hidx 0
    obtain ⟨o, s₁, heq, hc, houtside, hholds⟩ := anonymizeRange_step clear hpages.1.1 hpages.1.2
      (fun x hx => hsame.1 x hx ▸ hcurrent.1 x hx) hsafe hi
    -- the rest of the ranges is as before: the round changed only its own
    have hsame' : ∀ q ∈ rs, ∀ x, q.Covers x → s₁.space x = before x := by
      intro q hq x hx
      rw [houtside x (not_covers_of_disjoint (hdisjoint.1 q hq).symm hx), hsame.2 q hq x hx]
    obtain ⟨outcomes, s', heq', hc', hlength, hholds', helse⟩ := ih hpages.2 hdisjoint.2 hcurrent.2 (i + 1)
      (fun j => by rw [Nat.add_assoc, Nat.add_comm 1 j, hidx, getElem?_cons_succ])
      (if decide (o = .replaced) then done + 1 else done) hsame' hc.last
    refine ⟨o :: outcomes, s', ?_, hc.trans hc', by rw [length_cons, length_cons, hlength], ?_, ?_⟩
    · rw [anonymizeFrom, heq]
      dsimp only
      rw [heq', count_cons]
      cases o with
      | kept | readable => rfl
      | replaced =>
        refine congrArg (fun n => some (n, s')) ?_
        exact Nat.add_right_comm done 1 _
    · intro j q oq hq hoq
      cases j with
      | zero =>
        rw [getElem?_cons_zero, Option.some.injEq] at hq hoq
        subst hq hoq
        refine holds_mono (fun x hx => helse x fun q hq => ?_) hc'.subset (holds_before hsame.1 hholds)
        exact not_covers_of_disjoint (hdisjoint.1 q hq) hx
      | succ j =>
        rw [getElem?_cons_succ] at hq hoq
        rw [← Nat.add_assoc, Nat.add_right_comm]
        exact hholds' j q oq hq hoq
    · intro x hx
      rw [forall_mem_cons] at hx
      rw [helse x hx.2, houtside x hx.1]

theorem owner_initial {mem : Nat → Option (UInt8 × BitVec 32)} {c : Cell} (h : initial mem x = some c) :
    c.owner = .original := by
  obtain ⟨m, -, rfl⟩ := Option.map_eq_some_iff.mp h
  rfl

/-- Memory of a copy is where its range was. -/
theorem covers_of_copy {clear : Bool} {mem : Nat → Option (UInt8 × BitVec 32)} {o : Outcome} {j : Nat}
    {c : Cell} (h : Holds clear (initial mem) s i r o) (hx : r.Covers x) (hc : s.space x = some c)
    (howner : c.owner = .copy j) : i = j := by
  cases o with
  | kept =>
    rw [h x hx] at hc
    rw [owner_initial hc] at howner
    cases howner
  | readable =>
    rw [h.1 x hx] at hc
    obtain ⟨c₀, hc₀, rfl⟩ := Option.map_eq_some_iff.mp hc
    rw [owner_initial hc₀] at howner
    cases howner
  | replaced =>
    rw [h.2 x hx] at hc
    obtain ⟨c₀, -, rfl⟩ := Option.map_eq_some_iff.mp hc
    exact Owner.copy.inj howner

end

end AnonymousRangesLemmas

open AnonymousRangesLemmas in
/-- Whatever calls are refused: no copy faults, each range is kept, left readable because the kernel
did not take that back, or replaced by the same bytes with the final protection, and the result
counts the ranges that are replaced. -/
theorem anonymize_atomic (k : Kernel) (ranges : List MapRange) (clear : Bool)
    (mem : Nat → Option (UInt8 × BitVec 32))
    (hpages : ∀ r ∈ ranges, r.start ≤ r.stop ∧ 2 ^ k.pageBits ∣ r.start ∧ 2 ^ k.pageBits ∣ r.stop)
    (hdisjoint : ranges.Pairwise fun r q => r.stop ≤ q.start ∨ q.stop ≤ r.start)
    (hcurrent : ∀ r ∈ ranges, ∀ x, r.Covers x → ∃ byte, mem x = some (byte, r.prot)) :
    ∃ (outcomes : List Outcome) (s : Run), anonymizeRanges k ranges clear ⟨initial mem, []⟩ =
      some (outcomes.count .replaced, s) ∧
      Anonymizes clear ranges (initial mem) outcomes s := by
  have hcells : ∀ r ∈ ranges, ∀ x, r.Covers x → ∃ c, initial mem x = some c ∧ c.prot = r.prot := by
    intro r hr x hx
    obtain ⟨byte, hbyte⟩ := hcurrent r hr x hx
    exact ⟨⟨byte, r.prot, .original⟩, by rw [initial, hbyte, Option.map_some], rfl⟩
  have hsafe : Safe ranges (initial mem) (initial mem) := by
    intro x c hc hwx
    rw [owner_initial hc]
    exact ⟨c, hc, hwx⟩
  obtain ⟨outcomes, s, heq, hc, hlength, hholds, helse⟩ :=
    anonymizeFrom_run (k := k) (s := ⟨initial mem, []⟩) clear
    (fun r hr => ⟨(hpages r hr).1, Nat.dvd_sub (hpages r hr).2.2 (hpages r hr).2.1⟩) hdisjoint hcells 0
    (fun j => by rw [Nat.zero_add]) 0 (fun _ _ _ _ => rfl) hsafe
  refine ⟨outcomes, s, by rw [anonymizeRanges, heq, Nat.zero_add], hlength, fun i r o hr ho =>
    ?_, helse, ?_, ?_⟩
  · exact Nat.zero_add i ▸ hholds i r o hr ho
  · intro x c i hx howner
    by_cases hcover : ∃ r ∈ ranges, r.Covers x
    · obtain ⟨r, hr, hcovers⟩ := hcover
      obtain ⟨j, hj, hget⟩ := getElem_of_mem hr
      have hr' : ranges[j]? = some r := List.getElem?_eq_some_iff.mpr ⟨hj, hget⟩
      have ho := getElem?_eq_getElem (hlength ▸ hj)
      have hji := covers_of_copy (hholds j r _ hr' ho) hcovers hx howner
      rw [Nat.zero_add] at hji
      exact ⟨r, hji ▸ hr', hcovers⟩
    · rw [helse x fun r hr hcovers => hcover ⟨r, hr, hcovers⟩] at hx
      rw [owner_initial hx] at howner
      cases howner
  · obtain ⟨new, hnew, hall⟩ := hc.events
    rw [hnew]
    exact hall

/-- Pages of four bytes; the call 7, which takes reading back from the second range, is refused. -/
def refusing : Kernel := ⟨2, fun n => n != 7, fun n => 100 + 4 * n⟩

def refusedRanges : List MapRange := [⟨4, 8, protRead ||| protExec⟩, ⟨12, 16, protExec⟩]

def refusedMemory (x : Nat) : Option (UInt8 × BitVec 32) :=
  if 4 ≤ x ∧ x < 8 then some (7, protRead ||| protExec) else if 12 ≤ x ∧ x <
    16 then some (9, protExec) else none

theorem anonymize_atomic_refused :
    ((anonymizeRanges refusing refusedRanges false ⟨initial refusedMemory, []⟩).map fun (done, s) =>
        (done, s.space 5, s.space 13)) =
        some (1, some ⟨7, protRead ||| protExec, .copy 0⟩, some ⟨9, protExec ||| protRead, .original⟩) ∧
      ∃ (outcomes : List Outcome) (s : Run),
        anonymizeRanges refusing refusedRanges false ⟨initial refusedMemory, []⟩ =
            some (outcomes.count .replaced, s) ∧
          Anonymizes false refusedRanges (initial refusedMemory) outcomes s := by
  refine ⟨by decide, anonymize_atomic refusing refusedRanges false refusedMemory (by decide) (by decide) ?_⟩
  intro r hr x hx
  rcases mem_cons.mp hr with rfl | hr
  · exact ⟨7, if_pos hx⟩
  · rw [mem_singleton.mp hr] at hx ⊢
    exact ⟨9, (if_neg fun h => absurd (h.2.trans_le (le_trans (by decide) hx.1))
      (lt_irrefl x)).trans (if_pos hx)⟩

end NyaZygisk.AnonymousRanges
