import NyaZygisk.Mapping
import NyaZygisk.Lib.Intervals

/-!
# The ranges of a loaded object

`collect_loaded_object` of `clean.cpp` lists the page ranges of a library that the linker loaded,
with their protections; `normalize_loaded_ranges` sorts them, cuts what overlaps, joins what touches
with one protection, and writes the result over the list that it reads.
-/

namespace NyaZygisk.LoadedRanges

open Intervals List Pages

variable {w : Nat}

def protRead : BitVec 32 := 1

def protWrite : BitVec 32 := 2

def protExec : BitVec 32 := 4

structure MapRange where
  start : Nat
  stop : Nat
  prot : BitVec 32
deriving DecidableEq, Repr, Inhabited

/-! ## Collecting -/

/-- The array has 64 places, and nothing empty comes into it. -/
structure LoadedObjectScan (w : Nat) where
  address : BitVec w
  ranges : List MapRange
  length_le : ranges.length ≤ 64
  nonempty : ∀ r ∈ ranges, r.start < r.stop

def addLoadedRange (scan : LoadedObjectScan w) (start stop : BitVec w) (prot : BitVec 32) :
    LoadedObjectScan w :=
  if h : scan.ranges.length < 64 ∧ start < stop then
    { scan with
      ranges := scan.ranges ++ [⟨start.toNat, stop.toNat, prot⟩]
      length_le := by
        rw [length_append, length_singleton]
        exact h.1
      nonempty := by
        intro r hr
        rcases mem_append.mp hr with hr | hr
        · exact scan.nonempty r hr
        · exact mem_singleton.mp hr ▸ h.2 }
  else scan

/-- `start + size` does not run over the end of the address space. -/
def fits (start size : BitVec w) : Bool := decide (size ≤ BitVec.allOnes w - start)

def elfRuntimeAddress (bias value : BitVec w) : BitVec w := bias + value

def holds (bias address : BitVec w) (ph : Phdr w) : Bool :=
  let start := elfRuntimeAddress bias ph.vaddr
  decide (ph.type = .load) && fits start ph.memsz && decide (start ≤ address) && decide
    (address < start + ph.memsz)

/-- The pages of the bytes of a segment, unless rounding up runs over the end. -/
def segmentPages (pg : PageSize w) (bias : BitVec w) (ph : Phdr w) (size : BitVec w) :
    Option (BitVec w × BitVec w) :=
  let start := elfRuntimeAddress bias ph.vaddr
  if fits start size && decide (start + size ≤ BitVec.allOnes w - (pg.bytes - 1)) then
    some (floor pg.bytes start, ceil pg.bytes (start + size))
  else none

/-- The pages of the first usable `PT_GNU_RELRO`, or nothing. -/
def relroPages (pg : PageSize w) (bias : BitVec w) (phdrs : List (Phdr w)) : BitVec w × BitVec w :=
  (phdrs.findSome? fun ph => if ph.type = .gnuRelro then segmentPages pg bias ph ph.memsz else
    none).getD (0, 0)

def segmentProt (flags : BitVec 32) : BitVec 32 :=
  (if flags &&& 4 ≠ 0 then protRead else 0) ||| (if flags &&& 2 ≠ 0 then protWrite else 0) |||
    (if flags &&& 1 ≠ 0 then protExec else 0)

/-- The last loop of `collect_loaded_object`, for one header. -/
def collectSegment (pg : PageSize w) (bias : BitVec w) (relro : BitVec w × BitVec w)
    (scan : LoadedObjectScan w)
    (ph : Phdr w) : LoadedObjectScan w :=
  if ph.type ≠ .load ∨ ph.filesz = 0 then scan
  else match segmentPages pg bias ph ph.filesz with
    | none => scan
    | some (start, stop) =>
      let prot := segmentProt ph.flags
      let protectedStart := if start < relro.1 then relro.1 else start
      let protectedStop := if relro.2 < stop then relro.2 else stop
      if relro.2 ≤ relro.1 ∨ protectedStop ≤ protectedStart then addLoadedRange scan start stop prot
      else
        let scan := addLoadedRange scan start protectedStart prot
        let scan := addLoadedRange scan protectedStart protectedStop (prot &&& ~~~protWrite)
        addLoadedRange scan protectedStop stop prot

/-- `collect_loaded_object` for one object; the flag stops the iteration. -/
def collectLoadedObject (pg : PageSize w) (bias : BitVec w) (phdrs : List (Phdr w))
    (scan : LoadedObjectScan w) :
    Bool × LoadedObjectScan w :=
  if phdrs.any (holds bias scan.address) then
    (true, phdrs.foldl (collectSegment pg bias (relroPages pg bias phdrs)) scan)
  else (false, scan)

/-! ## Normalizing -/

/-- The comparison that `std::sort` gets. -/
def less (a b : MapRange) : Bool := a.start < b.start || (a.start = b.start && a.stop < b.stop)

/-- What `std::sort` may leave; ranges that compare equal come in any order. -/
structure IsSort (ranges sorted : List MapRange) : Prop where
  perm : sorted.Perm ranges
  ordered : sorted.Pairwise fun a b => less b a = false

/-- A round of the loop, with the array and the number of ranges put out. -/
def normalizeStep (st : List MapRange × Nat) (i : Nat) : List MapRange × Nat :=
  let range := st.1.getD i default
  let last := st.1.getD (st.2 - 1) default
  let range := if 0 < st.2 ∧ range.start < last.stop then { range with start := last.stop } else range
  if range.stop ≤ range.start then st
  else if 0 < st.2 ∧ last.stop = range.start ∧ last.prot = range.prot then
    (st.1.set (st.2 - 1) { last with stop := range.stop }, st.2)
  else (st.1.set st.2 range, st.2 + 1)

/-- `normalize_loaded_ranges` after the sort: the first ranges of the array, as many as it returns. -/
def normalizeLoadedRanges (sorted : List MapRange) : List MapRange :=
  let st := (List.range sorted.length).foldl normalizeStep (sorted, 0)
  st.1.take st.2

def MapRange.Covers (r : MapRange) (a : Nat) : Prop := r.start ≤ a ∧ a < r.stop

instance (r : MapRange) (a : Nat) : Decidable (r.Covers a) := by unfold MapRange.Covers; infer_instance

/-- The result is the mapping that the ranges describe, in normal form: where they overlap, the
first one in the order of the sort counts. -/
structure Normalizes (ranges sorted out : List MapRange) : Prop where
  ascending : out.Pairwise fun r s => r.start < s.start
  disjoint : out.Pairwise fun r s => r.stop ≤ s.start
  nonempty : ∀ r ∈ out, r.start < r.stop
  coverage : ∀ a, (∃ r ∈ out, r.Covers a) ↔ ∃ r ∈ ranges, r.Covers a
  protection : ∀ a, ∀ r ∈ out, r.Covers a → (sorted.find? (·.Covers a)).map MapRange.prot = some r.prot
  distinct : out.Pairwise fun r s => r.stop = s.start → r.prot ≠ s.prot

namespace LoadedRangesLemmas

def interval (r : MapRange) : Interval Nat (BitVec 32) := ⟨r.start, r.stop, r.prot⟩

/-! ### In place -/

theorem take_succ_set {l : List MapRange} {n : Nat} (h : n < l.length) (x : MapRange) :
    (l.set n x).take (n + 1) = l.take n ++ [x] := by
  have hn : (l.take n).length = n := length_take_of_le h.le
  rw [set_eq_take_append_cons_drop, if_pos h, take_append, hn, Nat.add_sub_cancel_left, take_succ_cons,
    take_zero, take_of_length_le (hn.le.trans (Nat.le_succ n))]

/-- After some rounds: the rest of the array is as it was, and the front is what pushing has made of
the ranges before it. -/
structure InPlace (sorted : List MapRange) (i : Nat) (st : List MapRange × Nat) : Prop where
  le : st.2 ≤ i
  length_eq : st.1.length = sorted.length
  rest : st.1.drop i = sorted.drop i
  front : (st.1.take st.2).map interval = (((sorted.take i).map interval).foldl push []).reverse

section

variable {sorted : List MapRange} {i : Nat} {st : List MapRange × Nat}

theorem InPlace.current (h : InPlace sorted i st) (hi : i < sorted.length) :
    st.1.getD i default = sorted[i] := by
  have hget : (st.1.drop i)[0]? = (sorted.drop i)[0]? := by rw [h.rest]
  rw [getElem?_drop, getElem?_drop, Nat.add_zero, getElem?_eq_getElem hi] at hget
  rw [getD_eq_getElem?_getD, hget, Option.getD_some]

theorem foldl_take_succ (hi : i < sorted.length) :
    ((sorted.take (i + 1)).map interval).foldl push [] =
      push (((sorted.take i).map interval).foldl push []) (interval sorted[i]) := by
  rw [take_succ_eq_append_getElem hi, map_append, map_singleton, foldl_concat]

theorem InPlace.rest_succ (h : InPlace sorted i st) : st.1.drop (i + 1) = sorted.drop (i + 1) := by
  rw [← drop_drop, h.rest, drop_drop]

/-- A round that writes in front of the place it reads. -/
theorem InPlace.set (h : InPlace sorted i st) {n : Nat} (hn : n ≤ i) (hi : i < sorted.length) {x : MapRange}
    (hfront : (st.1.take n ++ [x]).map interval =
      (((sorted.take (i + 1)).map interval).foldl push []).reverse) :
    InPlace sorted (i + 1) (st.1.set n x, n + 1) where
  le := Nat.succ_le_succ hn
  length_eq := (length_set ..).trans h.length_eq
  rest := (drop_set_of_lt (Nat.lt_succ_of_le hn)).trans h.rest_succ
  front := by
    have hlt : n < st.1.length := h.length_eq ▸ Nat.lt_of_le_of_lt hn hi
    rw [take_succ_set hlt]
    exact hfront

theorem normalizeStep_zero (ranges : List MapRange) (i : Nat) :
    normalizeStep (ranges, 0) i =
      if (ranges.getD i default).stop ≤ (ranges.getD i default).start then (ranges, 0)
      else (ranges.set 0 (ranges.getD i default), 1) := by
  simp only [normalizeStep, Nat.lt_irrefl, false_and, if_false, Nat.zero_add]

def trim (last r : MapRange) : MapRange := if r.start < last.stop then { r with start := last.stop } else r

theorem interval_trim (last r : MapRange) : interval (trim last r) = trimmed (interval last) (interval r) :=
  apply_ite interval ..

theorem normalizeStep_succ (ranges : List MapRange) (n i : Nat) :
    normalizeStep (ranges, n + 1) i =
      let last := ranges.getD n default
      let range := trim last (ranges.getD i default)
      if range.stop ≤ range.start then (ranges, n + 1)
      else if last.stop = range.start ∧ last.prot = range.prot then
        (ranges.set n { last with stop := range.stop }, n + 1)
      else (ranges.set (n + 1) range, n + 2) := by
  simp only [normalizeStep, Nat.succ_pos, true_and, Nat.add_sub_cancel, trim]
  rfl

theorem push_interval (last r : MapRange) (rest : List (Interval Nat (BitVec 32))) :
    push (interval last :: rest) (interval r) =
      if (trim last r).stop ≤ (trim last r).start then interval last :: rest
      else if last.stop = (trim last r).start ∧ last.prot = (trim last r).prot then
        interval { last with stop := (trim last r).stop } :: rest
      else interval (trim last r) :: interval last :: rest := by
  simp only [push, ← interval_trim]
  rfl

theorem normalizeStep_inPlace (h : InPlace sorted i st) (hi : i < sorted.length) :
    InPlace sorted (i + 1) (normalizeStep st i) := by
  obtain ⟨ranges, output⟩ := st
  have hfold := @foldl_take_succ sorted i hi
  have hkeep : push (((sorted.take i).map interval).foldl push []) (interval sorted[i]) =
      ((sorted.take i).map interval).foldl push [] → InPlace sorted (i + 1) (ranges, output) := fun hsame =>
    ⟨Nat.le_succ_of_le h.le, h.length_eq, h.rest_succ, by rw [hfold, hsame]; exact h.front⟩
  cases output with
  | zero =>
    have hout : ((sorted.take i).map interval).foldl push [] = [] := by
      have hfront := h.front
      rw [take_zero, map_nil] at hfront
      exact reverse_eq_nil_iff.mp hfront.symm
    rw [normalizeStep_zero, h.current hi]
    split
    · next hempty =>
      refine hkeep ?_
      rw [hout]
      exact if_pos hempty
    · next hne =>
      have hpush : push [] (interval sorted[i]) = [interval sorted[i]] := if_neg hne
      refine h.set (Nat.zero_le i) hi ?_
      rw [hfold, hout, hpush, take_zero]
      rfl
  | succ n =>
    have hn : n < ranges.length := Nat.lt_of_succ_le (h.le.trans (h.length_eq.symm ▸ hi.le))
    obtain ⟨last, hlast⟩ : ∃ last, ranges.getD n default = last := ⟨_, rfl⟩
    have hout : ((sorted.take i).map interval).foldl push [] =
      interval last :: ((ranges.take n).map interval).reverse := by
      have hget : ranges[n] = last := by rw [← hlast, getD_eq_getElem _ _ hn]
      have hfront := congrArg List.reverse h.front
      rw [reverse_reverse, take_succ_eq_append_getElem hn, map_append, reverse_append, hget] at hfront
      exact hfront.symm
    rw [normalizeStep_succ, h.current hi, hlast]
    rw [hout, push_interval] at hfold hkeep
    dsimp only
    split
    · next hempty =>
      exact hkeep (if_pos hempty)
    · next hne =>
      rw [if_neg hne] at hfold
      split
      · next htouch =>
        refine h.set (Nat.le_of_succ_le h.le) hi ?_
        rw [hfold, if_pos htouch, map_append, reverse_cons, reverse_reverse]
        rfl
      · next htouch =>
        refine h.set h.le hi ?_
        have hfront : (ranges.take (n + 1)).map interval = _ := h.front
        rw [hfold, if_neg htouch, map_append, hfront, hout]
        exact reverse_cons.symm

/-- The loop does what pushing the ranges one after the other does. -/
theorem inPlace_foldl (sorted : List MapRange) :
    InPlace sorted sorted.length ((List.range sorted.length).foldl normalizeStep (sorted, 0)) := by
  have hrounds : ∀ n ≤ sorted.length, InPlace sorted n ((List.range n).foldl normalizeStep (sorted, 0)) := by
    intro n hn
    induction n with
    | zero => exact ⟨Nat.le_refl 0, rfl, rfl, rfl⟩
    | succ n ih =>
      rw [range_succ, foldl_concat]
      exact normalizeStep_inPlace (ih (Nat.le_of_succ_le hn)) hn
  exact hrounds sorted.length le_rfl

theorem map_interval_normalize (sorted : List MapRange) :
    (normalizeLoadedRanges sorted).map interval = ((sorted.map interval).foldl push []).reverse := by
  have hfront := (inPlace_foldl sorted).front
  rwa [take_length] at hfront

end

section

variable {ranges sorted : List MapRange} (hsort : IsSort ranges sorted) (hne : ∀ r ∈ ranges, r.start < r.stop)

include hsort hne in
theorem reflects_normalize :
    Reflects (((normalizeLoadedRanges sorted).map interval).reverse) (sorted.map interval) := by
  rw [map_interval_normalize, reverse_reverse]
  refine reflects_foldl (forall_mem_map.mpr fun r hr => hne r (hsort.perm.mem_iff.mp hr)) ?_
  refine pairwise_map.mpr (hsort.ordered.imp fun {a b} h => ?_)
  rw [less, Bool.or_eq_false_iff, decide_eq_false_iff_not, not_lt] at h
  exact h.1

include hsort hne in
/-- An address has in the result the protection of the first range over it. -/
theorem prot_normalize (a : Nat) (prot : BitVec 32) :
    (∃ r ∈ normalizeLoadedRanges sorted, r.Covers a ∧ r.prot = prot) ↔
      (sorted.find? (·.Covers a)).map MapRange.prot = some prot := by
  have hlabels := (reflects_normalize hsort hne).labels a prot
  rw [find?_map] at hlabels
  simp only [mem_reverse, mem_map, exists_exists_and_eq_and, Option.map_eq_some_iff] at hlabels
  rw [Option.map_eq_some_iff]
  exact hlabels

include hsort hne in
theorem normalizes : Normalizes ranges sorted (normalizeLoadedRanges sorted) := by
  have hreflects := reflects_normalize hsort hne
  have hnonempty : ∀ r ∈ normalizeLoadedRanges sorted, r.start < r.stop := fun r hr =>
    hreflects.nonempty (interval r) (mem_reverse.mpr (mem_map_of_mem hr))
  have hbefore : (normalizeLoadedRanges sorted).Pairwise fun r s => Before (interval r) (interval s) :=
    pairwise_map.mp (pairwise_reverse.mp hreflects.ordered)
  refine ⟨?_, hbefore.imp Before.le, hnonempty, fun a => ?_, fun a r hr hcovers => ?_, ?_⟩
  · exact hbefore.imp_of_mem fun hr _ h => (hnonempty _ hr).trans_le h.le
  · constructor
    · rintro ⟨r, hr, hcovers⟩
      obtain ⟨s, hs, -⟩ :=
        Option.map_eq_some_iff.mp ((prot_normalize hsort hne a r.prot).mp ⟨r, hr, hcovers, rfl⟩)
      have hcovers' := find?_some hs
      exact ⟨s, hsort.perm.mem_iff.mp (mem_of_find?_eq_some hs), of_decide_eq_true hcovers'⟩
    · rintro ⟨r, hr, hcovers⟩
      have hsome : (sorted.find? (·.Covers a)).isSome = true :=
        find?_isSome.mpr ⟨r, hsort.perm.mem_iff.mpr hr, decide_eq_true hcovers⟩
      obtain ⟨s, hs⟩ := Option.isSome_iff_exists.mp hsome
      obtain ⟨t, ht, hcovers', -⟩ := (prot_normalize hsort hne a s.prot).mpr (by rw [hs]; rfl)
      exact ⟨t, ht, hcovers'⟩
  · exact (prot_normalize hsort hne a r.prot).mp ⟨r, hr, hcovers, rfl⟩
  · refine hbefore.imp fun {r s} h htouch => ?_
    rcases h with hlt | hother
    · exact absurd htouch hlt.ne
    · exact hother.2

end

end LoadedRangesLemmas

open LoadedRangesLemmas

/-- For every list of non-empty ranges, and every order in which the sort may leave it. -/
theorem normalize_exact {ranges sorted : List MapRange} (hsort : IsSort ranges sorted)
    (hne : ∀ r ∈ ranges, r.start < r.stop) : Normalizes ranges sorted (normalizeLoadedRanges sorted) :=
  normalizes hsort hne

/-- Three ranges out of order, of which the long one starts with another and runs into the third. -/
def scattered : List MapRange := [⟨4, 8, 1⟩, ⟨0, 6, 5⟩, ⟨0, 2, 1⟩]

theorem normalize_exact_scattered :
    Normalizes scattered [⟨0, 2, 1⟩, ⟨0, 6, 5⟩, ⟨4, 8, 1⟩]
      (normalizeLoadedRanges [⟨0, 2, 1⟩, ⟨0, 6, 5⟩, ⟨4, 8, 1⟩]) :=
  normalize_exact ⟨by decide, by decide⟩ (by decide)

example : normalizeLoadedRanges [⟨0, 2, 1⟩, ⟨0, 6, 5⟩, ⟨4, 8, 1⟩] =
    [⟨0, 2, 1⟩, ⟨2, 6, 5⟩, ⟨6, 8, 1⟩] := by decide

/-! ## Handing on -/

/-- `dl_iterate_phdr`: the objects one after the other, until the callback returns something else
than 0. -/
def iteratePhdr (pg : PageSize w) (scan : LoadedObjectScan w) :
    List (BitVec w × List (Phdr w)) → LoadedObjectScan w
  | [] => scan
  | (bias, phdrs) :: objects =>
    match collectLoadedObject pg bias phdrs scan with
    | (true, scan) => scan
    | (false, scan) => iteratePhdr pg scan objects

/-- What `spoof_loaded_object_maps` collects for an address. -/
def scanFor (pg : PageSize w) (address : BitVec w) (objects : List (BitVec w × List (Phdr w))) :
    LoadedObjectScan w :=
  iteratePhdr pg ⟨address, [], Nat.zero_le 64, nofun⟩ objects

/-- The range is of file pages of a segment, and has no access that the segment has not. -/
def InSegment (pg : PageSize w) (bias : BitVec w) (phdrs : List (Phdr w)) (r : MapRange) : Prop :=
  ∃ ph ∈ phdrs, ph.type = .load ∧ r.prot &&& ~~~segmentProt ph.flags = 0#32 ∧
    ∃ pages, segmentPages pg bias ph ph.filesz = some pages ∧ pages.1.toNat ≤ r.start ∧ r.stop ≤ pages.2.toNat

section

variable {pg : PageSize w} {scan : LoadedObjectScan w}

theorem addLoadedRange_all {P : MapRange → Prop} {start stop : BitVec w} {prot : BitVec 32}
    (h : ∀ r ∈ scan.ranges, P r) (hnew : P ⟨start.toNat, stop.toNat, prot⟩) :
    ∀ r ∈ (addLoadedRange scan start stop prot).ranges, P r := by
  unfold addLoadedRange
  split
  · exact forall_mem_append.mpr ⟨h, forall_mem_singleton.mpr hnew⟩
  · exact h

theorem collectSegment_all {bias : BitVec w} {relro : BitVec w × BitVec w} {phdrs : List (Phdr w)}
    {ph : Phdr w}
    (h : ∀ r ∈ scan.ranges, InSegment pg bias phdrs r) (hph : ph ∈ phdrs) :
    ∀ r ∈ (collectSegment pg bias relro scan ph).ranges, InSegment pg bias phdrs r := by
  unfold collectSegment
  split
  · exact h
  next hload =>
  split
  · exact h
  next start stop hpages =>
  have hin {a b : BitVec w} {prot : BitVec 32} (hprot : prot &&& ~~~segmentProt ph.flags = 0#32)
      (ha : start.toNat ≤ a.toNat) (hb : b.toNat ≤ stop.toNat) :
        InSegment pg bias phdrs ⟨a.toNat, b.toNat, prot⟩ :=
    ⟨ph, hph, not_not.mp (not_or.mp hload).1, hprot, _, hpages, ha, hb⟩
  have hsame := BitVec.and_not_self (segmentProt ph.flags)
  have hlow : start.toNat ≤ (if start < relro.1 then relro.1 else start).toNat := by split <;> bv_omega
  have hhigh : (if relro.2 < stop then relro.2 else stop).toNat ≤ stop.toNat := by split <;> bv_omega
  dsimp only
  generalize (if start < relro.1 then relro.1 else start) = low at hlow ⊢
  generalize (if relro.2 < stop then relro.2 else stop) = high at hhigh ⊢
  split
  · exact addLoadedRange_all h (hin hsame le_rfl le_rfl)
  · next hrelro =>
    have hlt : low.toNat ≤ high.toNat := Nat.le_of_not_le (not_or.mp hrelro).2
    have hless : segmentProt ph.flags &&& ~~~protWrite &&& ~~~segmentProt ph.flags = 0#32 := by
      rw [BitVec.and_assoc, BitVec.and_comm (~~~_), ← BitVec.and_assoc, hsame]
      exact BitVec.zero_and
    refine addLoadedRange_all (addLoadedRange_all (addLoadedRange_all h ?_) (hin hless hlow hhigh)) ?_
    · exact hin hsame le_rfl (hlt.trans hhigh)
    · exact hin hsame (hlow.trans hlt) le_rfl

theorem scanFor_all (address : BitVec w) (objects : List (BitVec w × List (Phdr w))) :
    ∀ r ∈ (scanFor pg address objects).ranges,
      ∃ o ∈ objects, o.2.any (holds o.1 address) = true ∧ InSegment pg o.1 o.2 r := by
  induction objects with
  | nil => exact nofun
  | cons o objects ih =>
    intro r hr
    simp only [scanFor, iteratePhdr, collectLoadedObject] at hr
    by_cases hholds : o.2.any (holds o.1 address) = true
    · rw [if_pos hholds] at hr
      refine ⟨o, .head _, hholds, List.foldlRecOn (motive := fun s : LoadedObjectScan w =>
        ∀ r ∈ s.ranges, InSegment pg o.1 o.2 r) o.2 (collectSegment pg o.1 _) ?_ (fun _ h _ =>
          collectSegment_all h) r hr⟩
      exact nofun
    · rw [if_neg hholds] at hr
      obtain ⟨o', ho', h⟩ := ih r hr
      exact ⟨o', .tail _ ho', h⟩

end

/-- `spoof_loaded_object_maps` hands on ranges one after the other, of file pages of segments of an
object that has the address, and none with an access that the segment of the page does not have. -/
theorem handed_on_in_segments (pg : PageSize w) (address : BitVec w)
    (objects : List (BitVec w × List (Phdr w)))
    {sorted : List MapRange} (hsort : IsSort (scanFor pg address objects).ranges sorted) :
    (normalizeLoadedRanges sorted).Pairwise (·.stop ≤ ·.start) ∧ ∀ r ∈ normalizeLoadedRanges sorted,
      ∀ a, r.Covers a →
      ∃ o ∈ objects, o.2.any (holds o.1 address) = true ∧ InSegment pg o.1 o.2 ⟨a, a + 1, r.prot⟩ := by
  have hnormal := normalizes hsort (scanFor pg address objects).nonempty
  refine ⟨hnormal.disjoint, fun r hr a hcovers => ?_⟩
  obtain ⟨s, hs, hprot⟩ := Option.map_eq_some_iff.mp (hnormal.protection a r hr hcovers)
  have hcovers' := find?_some hs
  obtain ⟨hstart, hstop⟩ := of_decide_eq_true hcovers'
  obtain ⟨o, ho, hholds, ph, hph, hload, hless, pages, hpages, hfrom, hto⟩ :=
    scanFor_all address objects s (hsort.perm.mem_iff.mp (mem_of_find?_eq_some hs))
  exact ⟨o, ho, hholds, ph, hph, hload, hprot ▸ hless, pages, hpages, hfrom.trans hstart, hstop.trans_le hto⟩

/-- Code, and data of which the first page is read-only after the relocation. -/
def relroObject : BitVec 64 × List (Phdr 64) :=
  (0x10000, [⟨.load, 5, 0, 0, 0x1800, 0x1800, 0x1000⟩, ⟨.load, 6, 0x2000, 0x2000, 0x1300, 0x1900, 0x1000⟩,
    ⟨.gnuRelro, 4, 0x2000, 0x2000, 0x1000, 0x1000, 1⟩])

theorem handed_on_in_segments_relro :
    (normalizeLoadedRanges (scanFor smallPages 0x11000 [relroObject]).ranges).Pairwise (·.stop ≤ ·.start) :=
  (handed_on_in_segments smallPages 0x11000 [relroObject] ⟨.refl _, by decide⟩).1

end NyaZygisk.LoadedRanges
