import NyaZygisk.ProgramHeaders
import NyaZygisk.Relocate

/-!
# The protections of a loaded image

`Image::Load` of `linker.cpp`, with `Image::ParseDynamic` as far as the relocations use it, and the
protections it leaves at the bytes of the segments. They are set for whole pages, first for every
segment and at last for the sealed ranges, by the headers that are found in the mapped image.
-/

namespace NyaZygisk

open List MappingLemmas Pages Words

variable {w : Nat}

/-! ## `Image::ParseDynamic` -/

/-- An entry of the dynamic section. -/
def RelocImage.addTag (img : RelocImage w) (tag value : BitVec w) : Except LoadError (RelocImage w) :=
  let address := img.loadBias + value
  let count size := value.toNat / (size * (w / 8))
  match tag.toNat with
  | 2 => .ok { img with pltRelSize := value.toNat }
  | 5 => .ok { img with strtab := address }
  | 6 => .ok { img with symtab := address }
  | 7 => .ok { img with rela := address }
  | 8 => .ok { img with relaCount := count (entryWords true) }
  | 17 => .ok { img with rel := address }
  | 18 => .ok { img with relCount := count (entryWords false) }
  | 20 => .ok { img with pltIsRela := value = 7 }
  | 22 => .error .unsupported
  | 23 => .ok { img with pltRel := address }
  | 30 => if value &&& 4 = 0 then .ok img else .error .unsupported
  | 35 | 0x6fffe001 => .ok { img with relrCount := count 1 }
  | 36 | 0x6fffe000 => .ok { img with relr := address }
  | 0x6000000f | 0x60000011 => .ok { img with androidRel := address }
  | 0x60000010 | 0x60000012 => .ok { img with androidRelSize := value.toNat }
  | _ => .ok img

/-- The loop from the entry at `d` to `DT_NULL`, of which `n` rounds are looked at. -/
def RelocImage.addTags (mem : Memory w) :
    Nat → BitVec w → RelocImage w → Option (Except LoadError (RelocImage w))
  | 0, _, _ => none
  | n + 1, d, img =>
    if readWord mem d = 0 then some (.ok img)
    else match img.addTag (readWord mem d) (readWord mem (d + wordSize w)) with
      | .error err => some (.error err)
      | .ok img => RelocImage.addTags mem n (d + 2 * wordSize w) img

def parseDynamic (n : Nat) (img : LinkerImage w) (table : List (Phdr w)) (mem : Memory w) :
    Option (Except LoadError (RelocImage w)) :=
  let dynamic := (table.reverse.find? fun ph => ph.type = .dynamic).elim 0 fun ph => img.loadBias + ph.vaddr
  if dynamic = 0 then some (.error .error)
  else
    (RelocImage.addTags mem n dynamic
      ⟨img.loadBias, img.mapStart, img.mapSize, 0, 0, 0, 0, 0, 0, 0, 0, 0, 0, 0, 0, false⟩).map fun r =>
        r.bind fun dyn => if dyn.strtab = 0 ∨ dyn.symtab = 0 then .error .error else .ok dyn

/-! ## `Image::Load` -/

def Space.memory (s : Space w) : Memory w := fun x => (s.byte x).getD 0

/-- The relocations write bytes and leave the protections. -/
def Space.withMemory (s : Space w) (mem : Memory w) : Space w :=
  { s with byte := fun x => (s.byte x).map fun _ => mem x }

section Load

variable (sys : System w) (file : ElfFile) (env : RelocEnv w) (aarch64 : Bool)
  (hasBti : Space w → BitVec w → BitVec w → Bool)

/-- `Load`, from the headers that were read to `ApplyRelro`, which is left out; `n` bounds the
entries of the dynamic section and the groups of the packed relocations. The space is the one in
which the segments are protected. -/
def loadUnsealed (n : Nat) (ehdr : Ehdr w) (phdrs : List (Phdr w)) (anonymous : Bool) (p : Process w) :
    Option (Except LoadError (LinkerImage w × Space w) × Process w) :=
  if ∃ ph, ph ∈ phdrs ∧ ph.type = .tls ∧ 0 < ph.memsz then some (.error .unsupported, p)
  else
    match mapSegments sys file hasBti ehdr phdrs anonymous p with
    | (none, p) => some (.error .error, p)
    | (some img, p) =>
      match parseDynamic n img (img.headers p.space) p.space.memory with
      | none => none
      | some (.error err) => some (.error err, p)
      | some (.ok dyn) =>
        match setSegmentProtections sys file aarch64 img (img.headers p.space) p with
        | (false, p) => some (.error .error, p)
        | (true, p') =>
          (dyn.relocate env n p'.space.memory .none).map fun r =>
            let p' := { p' with space := p'.space.withMemory r.mem }
            if r.ok then (.ok (img, p.space), p') else (.error r.err, p')

def load (n : Nat) (ehdr : Ehdr w) (phdrs : List (Phdr w)) (anonymous : Bool) (p : Process w) :
    Option (Except LoadError (LinkerImage w) × Process w) :=
  (loadUnsealed sys file env aarch64 hasBti n ehdr phdrs anonymous p).map fun
    | (.error err, p) => (.error err, p)
    | (.ok (img, _), p) => (.ok img, applyRelro sys file img (img.headers p.space) p)

end Load

/-! ## Access -/

/-- What a protection is about, apart from branch targets. -/
structure Access where
  read : Bool
  write : Bool
  exec : Bool
deriving DecidableEq

def Prot.access (prot : Prot) : Access := ⟨prot.read, prot.write, prot.exec⟩

def Phdr.access (ph : Phdr w) : Access := (toProt ph.flags).access

/-- The byte is in a range that is to be sealed. -/
def inRelro (phdrs : List (Phdr w)) (u : BitVec w) : Bool :=
  phdrs.any fun ph => ph.type = .gnuRelro ∧ (⟨ph.vaddr, ph.memsz⟩ : Arc w).Has u

/-- The access that the headers give a byte of a segment. -/
def headerAccess (phdrs : List (Phdr w)) (ph : Phdr w) (u : BitVec w) : Access :=
  { ph.access with write := ph.access.write && !inRelro phdrs u }

/-- Every byte of every segment has the access of its header. -/
def ProtectionsMatch (phdrs : List (Phdr w)) (bias : BitVec w) (s : Space w) : Prop :=
  ∀ ph ∈ phdrs, ph.type = .load → ∀ i, i < ph.memsz.toNat →
    (s.prot (bias + ph.vaddr + BitVec.ofNat w i)).map Prot.access =
      some (headerAccess phdrs ph (ph.vaddr + BitVec.ofNat w i))

section Layout

variable (pg : PageSize w) (phdrs : List (Phdr w))

/-- The segments come one after the other, and what is to be sealed is in writable ones. -/
structure Sealable : Prop where
  apart : (loads phdrs).Pairwise fun a c => a.vaddr.toNat + a.memsz.toNat ≤ c.vaddr.toNat
  inside : ∀ r ∈ phdrs, r.type = .gnuRelro → ∃ a, a ∈ loads phdrs ∧ a.access.write = true ∧
    a.vaddr.toNat ≤ r.vaddr.toNat ∧ r.vaddr.toNat + r.memsz.toNat ≤ a.vaddr.toNat + a.memsz.toNat

/-- The address is on a page of a range that is to be sealed. -/
def OnRelro (u : BitVec w) : Prop := ∃ r, r ∈ phdrs ∧ r.type = .gnuRelro ∧ (pageRange pg r).Has u

instance (u : BitVec w) : Decidable (OnRelro pg phdrs u) :=
  inferInstanceAs (Decidable (∃ r, r ∈ phdrs ∧ _))

/-- What shares a page has the same access. -/
structure PagesMatch : Prop where
  /-- A byte on a sealed page may be sealed. -/
  onSealed : ∀ a ∈ loads phdrs, ∀ i, i < a.memsz.toNat → OnRelro pg phdrs (a.vaddr + BitVec.ofNat w i) →
    a.access.read = true ∧ a.access.exec = false ∧
      (a.access.write = true → inRelro phdrs (a.vaddr + BitVec.ofNat w i) = true)
  /-- The last segment that begins on the last page of another has the access of that one. -/
  shared : ∀ pre a mid c post, loads phdrs = pre ++ a :: (mid ++ c :: post) → 0 < a.memsz.toNat →
    pageStart pg c.vaddr < a.vaddr + a.memsz → (∀ d ∈ post, a.vaddr + a.memsz ≤ pageStart pg d.vaddr) →
    ¬ OnRelro pg phdrs (pageStart pg c.vaddr) → a.access = c.access

end Layout

namespace ProtectionsLemmas

/-- The access that a segment gives the addresses of its pages. -/
def segmentAccess (pg : PageSize w) (ph : Phdr w) (u : BitVec w) : Option (Option Access) :=
  if (pageRange pg ph).Has u then some (some ph.access) else none

section Stages

variable {sys : System w} {file : ElfFile} {img : LinkerImage w} {aarch64 : Bool}

/-- What a call that protects does to the access of an address. -/
theorem makeCall_access (sys : System w) (file : ElfFile) (bias : BitVec w) (prot : Prot) (ph : Phdr w)
    (p : Process w) (u : BitVec w) :
    (((makeCall sys file (protectCall sys.page bias prot ph) p).2.space.prot (bias + u)).map Prot.access) =
      if (makeCall sys file (protectCall sys.page bias prot ph) p).1 ∧ (pageRange sys.page ph).Has u then
        some prot.access
      else (p.space.prot (bias + u)).map Prot.access := by
  rw [makeCall, protectCall_eq]
  split
  · simp only [Space.afterCalls, layers, foldl_cons, foldl_nil, MapCall.newProt, MapKind.newProt,
      Arc.shift_has, true_and]
    split <;> rfl
  · simp

variable {p p' : Process w}

theorem protectSegment_access {ph : Phdr w}
    (h : protectSegment sys file aarch64 img ph p = (true, p')) (u : BitVec w) :
    (p'.space.prot (img.loadBias + u)).map Prot.access =
      (if ph.type = .load then segmentAccess sys.page ph u else none).getD
        ((p.space.prot (img.loadBias + u)).map Prot.access) := by
  rw [protectSegment] at h
  split at h
  · next hload =>
    rw [if_pos hload, segmentAccess]
    have hfirst := makeCall_access sys file img.loadBias
      (segmentProt (aarch64 && img.wantsBti) ph) ph p u
    dsimp only at h
    revert h hfirst
    generalize makeCall sys file _ p = r
    obtain ⟨_ | _, p₁⟩ := r
    · intro h hfirst
      dsimp only at h
      split at h
      · have hsecond := makeCall_access sys file img.loadBias
          { segmentProt (aarch64 && img.wantsBti) ph with bti := false } ph p₁ u
        rw [h] at hsecond
        rw [hsecond, hfirst]
        simp only [Bool.false_eq_true, false_and, if_false, true_and]
        split <;> rfl
      · cases h
    · intro h hfirst
      cases h
      rw [hfirst]
      simp only [true_and]
      split <;> rfl
  · next hload =>
    cases h
    rw [if_neg hload]
    rfl

/-- The access that the segments of a table give, one after the other. -/
theorem setSegmentProtections_access {table : List (Phdr w)}
    (h : setSegmentProtections sys file aarch64 img table p = (true, p')) (u : BitVec w) :
    (p'.space.prot (img.loadBias + u)).map Prot.access =
      layers (segmentAccess sys.page) (loads table)
        (fun u => (p.space.prot (img.loadBias + u)).map Prot.access) u := by
  rw [setSegmentProtections] at h
  rw [layers_eq]
  induction table generalizing p with
  | nil =>
    cases h
    rfl
  | cons ph table ih =>
    rw [untilFailure_cons] at h
    split at h
    · next hok =>
      have hstep := protectSegment_access (Prod.ext hok rfl : _ = (true, _)) u
      rw [ih h, hstep, loads_cons]
      split
      · rw [reverse_cons, findSome?_append, findSome?_singleton]
        cases (loads table).reverse.findSome? (segmentAccess sys.page · u) <;> rfl
      · rfl
    · cases h

theorem applyRelro_access {table : List (Phdr w)}
    (haccepts : ∀ s r, r ∈ table → r.type = .gnuRelro →
      sys.accepts s (protectCall sys.page img.loadBias .readOnly r) = true) (p : Process w) (u : BitVec w) :
    ((applyRelro sys file img table p).space.prot (img.loadBias + u)).map Prot.access =
      if OnRelro sys.page table u then some Prot.readOnly.access
      else (p.space.prot (img.loadBias + u)).map Prot.access := by
  rw [applyRelro]
  induction table generalizing p with
  | nil => exact (if_neg nofun).symm
  | cons r table ih =>
    have hrest := ih fun s r' hr' => haccepts s r' (mem_cons_of_mem _ hr')
    have hcons : OnRelro sys.page (r :: table) u ↔
        (r.type = .gnuRelro ∧ (pageRange sys.page r).Has u) ∨ OnRelro sys.page table u := by
      simp only [OnRelro, mem_cons, or_and_right, exists_or, exists_eq_left]
    rw [filter_cons]
    split
    · next htype =>
      rw [decide_eq_true_eq] at htype
      have hok : (makeCall sys file (protectCall sys.page img.loadBias .readOnly r) p).1 = true := by
        rw [makeCall, if_pos ⟨haccepts _ r mem_cons_self htype, rfl⟩]
      rw [foldl_cons, hrest, makeCall_access, hok]
      simp only [hcons, htype, true_and]
      by_cases htable : OnRelro sys.page table u
      · rw [if_pos htable, if_pos (.inr htable)]
      · simp only [htable, or_false, if_false]
    · next htype =>
      rw [decide_eq_true_eq] at htype
      simp only [hrest, hcons, htype, false_and, false_or]

/-- The access that `Load` leaves, if both functions find the headers of the file. -/
theorem loaded_access {env : RelocEnv w} {hasBti : Space w → BitVec w → BitVec w → Bool} {n : Nat}
    {ehdr : Ehdr w} {phdrs : List (Phdr w)} {anonymous : Bool} {mapped : Space w}
    (hrun : loadUnsealed sys file env aarch64 hasBti n ehdr phdrs anonymous p = some (.ok (img, mapped), p'))
    (hmapped : img.headers mapped = phdrs) (hrelocated : img.headers p'.space = phdrs)
    (haccepts : ∀ s r, r ∈ phdrs → r.type = .gnuRelro →
      sys.accepts s (protectCall sys.page img.loadBias .readOnly r) = true) (u : BitVec w) :
    ((applyRelro sys file img (img.headers p'.space) p').space.prot (img.loadBias + u)).map Prot.access =
      if OnRelro sys.page phdrs u then some Prot.readOnly.access
      else layers (segmentAccess sys.page) (loads phdrs)
        (fun u => (mapped.prot (img.loadBias + u)).map Prot.access) u := by
  rw [hrelocated, applyRelro_access haccepts]
  congr 1
  rw [loadUnsealed] at hrun
  split at hrun
  · cases hrun
  split at hrun
  · cases hrun
  split at hrun
  · cases hrun
  · cases hrun
  split at hrun
  · cases hrun
  next guarded hguard =>
  obtain ⟨r, -, hr⟩ := Option.map_eq_some_iff.mp hrun
  dsimp only at hr
  split at hr
  · cases hr
    rw [hmapped] at hguard
    exact setSegmentProtections_access hguard u
  · cases hr

end Stages

/-! ## Pages -/

section Pages

variable {pg : PageSize w} {phdrs : List (Phdr w)} (hroom : Roomy pg phdrs) (hseal : Sealable phdrs)

omit hroom in
include hseal in
theorem after_of_split {pre mid post : List (Phdr w)} {a c : Phdr w}
    (hsplit : loads phdrs = pre ++ a :: (mid ++ c :: post)) :
    a.vaddr.toNat + a.memsz.toNat ≤ c.vaddr.toNat := by
  have hapart := hsplit ▸ hseal.apart
  exact (pairwise_cons.mp (pairwise_append.mp hapart).2.1).1 c
    (mem_append_right _ mem_cons_self)

omit hroom in
/-- An address before `v` on the page of `v`. -/
theorem pageStart_eq {u v : BitVec w} (hlow : pageStart pg v ≤ u) (hhigh : u < v) :
    pageStart pg u = pageStart pg (pageStart pg v) :=
  BitVec.le_antisymm (floor_le_floor (floor_mono (Nat.le_of_lt hhigh))) (floor_mono hlow)

include hroom

theorem toNat_byte {a : Phdr w} (ha : a ∈ loads phdrs) {i : Nat} (hi : i < a.memsz.toNat) :
    (a.vaddr + BitVec.ofNat w i).toNat = a.vaddr.toNat + i := by
  have hends := hroom.1 a ha
  have hpage := Nat.two_pow_pos pg.bits
  exact toNat_add_ofNat (by omega)

theorem segmentAccess_eq {c : Phdr w} (hc : c ∈ loads phdrs) (u : BitVec w) :
    segmentAccess pg c u =
      if pageStart pg c.vaddr ≤ u ∧ u < pageEnd pg (c.vaddr + c.memsz) then some (some c.access)
        else none := by
  simp only [segmentAccess, (ranges_of_roomy hroom hc u).1]

include hseal

/-- A range that is sealed is one of whole pages around it. -/
theorem relro_ranges {r : Phdr w} (hr : r ∈ phdrs) (htype : r.type = .gnuRelro) (u : BitVec w) :
    ((pageRange pg r).Has u ↔ pageStart pg r.vaddr ≤ u ∧ pageStart pg u < r.vaddr + r.memsz) ∧
      ((⟨r.vaddr, r.memsz⟩ : Arc w).Has u → (pageRange pg r).Has u) := by
  obtain ⟨a, ha, -, hlow, hhigh⟩ := hseal.inside r hr htype
  obtain ⟨hsum, hend, -⟩ := ends_of_roomy hroom ha
  rw [Room, hsum] at hend
  have hpage := Nat.two_pow_pos pg.bits
  have hrsum : (r.vaddr + r.memsz).toNat = r.vaddr.toNat + r.memsz.toNat := BitVec.toNat_add_of_lt (by omega)
  have hroomy : Room pg (r.vaddr + r.memsz) := by
    rw [Room, hrsum]
    omega
  have hstart : r.vaddr ≤ r.vaddr + r.memsz := by
    rw [BitVec.le_def, hrsum]
    exact Nat.le_add_right _ _
  have hpages : (pageRange pg r).Has u ↔ pageStart pg r.vaddr ≤ u ∧ u < pageEnd pg (r.vaddr + r.memsz) :=
    Arc.has_sub_iff (BitVec.le_trans (floor_le pg _) (BitVec.le_trans hstart (le_ceil hroomy))) u
  refine ⟨hpages.trans (and_congr_right fun _ => (floor_lt_iff hroomy).symm), fun h => hpages.mpr ?_⟩
  rw [← add_sub_cancel_left r.vaddr r.memsz, Arc.has_sub_iff hstart] at h
  exact ⟨BitVec.le_trans (floor_le pg _) h.1, Nat.lt_of_lt_of_le h.2 (le_ceil hroomy)⟩

theorem onRelro_of_inRelro {u : BitVec w} (h : inRelro phdrs u = true) : OnRelro pg phdrs u := by
  obtain ⟨r, hr, hin⟩ := any_eq_true.mp h
  obtain ⟨htype, hin⟩ := of_decide_eq_true hin
  exact ⟨r, hr, htype, (relro_ranges hroom hseal hr htype u).2 hin⟩

/-- A page is sealed as a whole. -/
theorem onRelro_page {u v : BitVec w} (h : pageStart pg u = pageStart pg v) :
    OnRelro pg phdrs u ↔ OnRelro pg phdrs v := by
  refine exists_congr fun r => and_congr_right fun hr => and_congr_right fun htype => ?_
  rw [(relro_ranges hroom hseal hr htype u).1, (relro_ranges hroom hseal hr htype v).1, h]
  refine and_congr_left fun _ => ?_
  have hle : ∀ x : BitVec w, pageStart pg r.vaddr ≤ x ↔ pageStart pg r.vaddr ≤ pageStart pg x :=
    fun x => ⟨floor_le_floor, fun h => BitVec.le_trans h (floor_le pg _)⟩
  rw [hle u, hle v, h]

theorem headerAccess_of_not_onRelro {u : BitVec w} (h : ¬ OnRelro pg phdrs u) (a : Phdr w) :
    headerAccess phdrs a u = a.access := by
  have hout : inRelro phdrs u = false := Bool.eq_false_iff.mpr fun hin =>
    h (onRelro_of_inRelro hroom hseal hin)
  rw [headerAccess, hout, Bool.not_false, Bool.and_true]

omit hseal in
/-- The last segment with an address on its pages decides. -/
theorem layers_last {pre post : List (Phdr w)} {c : Phdr w} (hsplit : loads phdrs = pre ++ c :: post)
    {base : BitVec w → Option Access} {u : BitVec w} (hlow : pageStart pg c.vaddr ≤ u)
    (hhigh : u.toNat < c.vaddr.toNat + c.memsz.toNat) (hpost : ∀ d ∈ post, ¬ pageStart pg d.vaddr ≤ u) :
    layers (segmentAccess pg) (loads phdrs) base u = some c.access := by
  have hc : c ∈ loads phdrs := hsplit ▸ mem_append_right _ mem_cons_self
  obtain ⟨hsum, hroomy, -⟩ := ends_of_roomy hroom hc
  have hend : u < pageEnd pg (c.vaddr + c.memsz) := Nat.lt_of_lt_of_le (hsum ▸ hhigh) (le_ceil hroomy)
  have hrest : ∀ d ∈ post, segmentAccess pg d u = none := fun d hd => by
    rw [segmentAccess_eq hroom (hsplit ▸ mem_append_right _ (mem_cons_of_mem _ hd)),
      if_neg fun h => hpost d hd h.1]
  rw [hsplit]
  exact layers_split (by rw [segmentAccess_eq hroom hc, if_pos ⟨hlow, hend⟩]) fun d hd => .inl (hrest d hd)

theorem access_iff (base : BitVec w → Option Access) :
    (∀ a ∈ loads phdrs, ∀ i < a.memsz.toNat,
        (if OnRelro pg phdrs (a.vaddr + BitVec.ofNat w i) then some Prot.readOnly.access
          else layers (segmentAccess pg) (loads phdrs) base (a.vaddr + BitVec.ofNat w i)) =
        some (headerAccess phdrs a (a.vaddr + BitVec.ofNat w i))) ↔
      PagesMatch pg phdrs := by
  constructor
  · intro h
    refine ⟨fun a ha i hi hrelro => ?_, fun pre a mid c post hsplit hpos hshare hlast hopen => ?_⟩
    · have haccess := h a ha i hi
      rw [if_pos hrelro, Option.some.injEq, headerAccess] at haccess
      injection haccess with hread hwrite hexec
      refine ⟨hread.symm, hexec.symm, fun hwritable => ?_⟩
      rw [hwritable] at hwrite
      simpa [Prot.access, Prot.readOnly] using hwrite.symm
    · -- the first byte of `a` on the page where `c` begins
      have ha : a ∈ loads phdrs := hsplit ▸ mem_append_right _ mem_cons_self
      obtain ⟨hsum, -⟩ := ends_of_roomy hroom ha
      have hshare' : (pageStart pg c.vaddr).toNat < (a.vaddr + a.memsz).toNat := hshare
      have hi : (pageStart pg c.vaddr).toNat - a.vaddr.toNat < a.memsz.toNat := by omega
      have hbyte := toNat_byte hroom ha hi
      have haccess := h a ha _ hi
      have hac := after_of_split hseal hsplit
      generalize a.vaddr + BitVec.ofNat w ((pageStart pg c.vaddr).toNat - a.vaddr.toNat) = u at hbyte haccess
      have hlow : pageStart pg c.vaddr ≤ u := BitVec.le_def.mpr (by omega)
      have hhigh : u < c.vaddr := BitVec.lt_def.mpr (by omega)
      have hopen' : ¬ OnRelro pg phdrs u := by
        rwa [onRelro_page hroom hseal (pageStart_eq hlow hhigh)]
      have hpost : ∀ d ∈ post, ¬ pageStart pg d.vaddr ≤ u := fun d hd hle => by
        have hend : (a.vaddr + a.memsz).toNat ≤ (pageStart pg d.vaddr).toNat := hlast d hd
        have hle' : (pageStart pg d.vaddr).toNat ≤ u.toNat := hle
        omega
      rw [← cons_append, ← append_assoc] at hsplit
      rw [if_neg hopen', headerAccess_of_not_onRelro hroom hseal hopen',
        layers_last hroom hsplit hlow (Nat.lt_of_lt_of_le hhigh (Nat.le_add_right _ _)) hpost] at haccess
      exact (Option.some.inj haccess).symm
  · intro h a ha i hi
    obtain ⟨pre, rest, hsplit⟩ := append_of_mem ha
    have hbyte := toNat_byte hroom ha hi
    have hsealed := h.onSealed a ha i hi
    generalize a.vaddr + BitVec.ofNat w i = u at hbyte hsealed ⊢
    by_cases hrelro : OnRelro pg phdrs u
    · obtain ⟨hread, hexec, hwrite⟩ := hsealed hrelro
      rw [if_pos hrelro, headerAccess, hread, hexec]
      cases hwritable : a.access.write with
      | false => rfl
      | true =>
        rw [hwrite hwritable]
        rfl
    rw [if_neg hrelro, headerAccess_of_not_onRelro hroom hseal hrelro]
    by_cases hshared : ∃ c ∈ rest, pageStart pg c.vaddr ≤ u
    · obtain ⟨mid, c, post, rfl, hlow, hpost⟩ := split_last hshared
      have hac := after_of_split hseal hsplit
      obtain ⟨hsum, -⟩ := ends_of_roomy hroom ha
      have hhigh : u < c.vaddr := BitVec.lt_def.mpr (by omega)
      have hstart : (pageStart pg c.vaddr).toNat ≤ u.toNat := hlow
      have hsame := h.shared pre a mid c post hsplit (by omega) (BitVec.lt_def.mpr (by omega))
        (fun d hd => BitVec.not_lt.mp fun hlt => hpost d hd ?_)
        (by rwa [← onRelro_page hroom hseal (pageStart_eq hlow hhigh)])
      · rw [← cons_append, ← append_assoc] at hsplit
        rw [layers_last hroom hsplit hlow (Nat.lt_of_lt_of_le hhigh (Nat.le_add_right _ _)) hpost, hsame]
      · -- it would begin on the page of `c`
        have hlt' : (pageStart pg d.vaddr).toNat < (a.vaddr + a.memsz).toNat := hlt
        have hle : pageStart pg d.vaddr ≤ c.vaddr := BitVec.le_def.mpr (by omega)
        exact BitVec.le_trans (floor_le_floor hle) hlow
    · have hstart : a.vaddr ≤ u := BitVec.le_def.mpr (by omega)
      exact layers_last hroom hsplit (BitVec.le_trans (floor_le pg _) hstart) (by omega)
        fun c hc hle => hshared ⟨c, hc, hle⟩

end Pages

end ProtectionsLemmas

open ProtectionsLemmas

/-- The sample headers, and a dynamic section with a symbol table. -/
def linkedTable : List (Phdr 64) := sampleTable ++ [⟨.dynamic, 6, 0x200, 0x200, 0x30, 0x30, 8⟩]

/-- The file has them at 64. -/
def linkedFile : ElfFile where
  size := 0x3300
  byte i :=
    match i with
    | 64 => 1 | 68 => 5 | 97 => 0x18 | 105 => 0x18 | 113 => 0x10
    | 120 => 1 | 124 => 6 | 129 => 0x20 | 137 => 0x20 | 153 => 0x13 | 161 => 0x19 | 169 => 0x10
    | 176 => 0x52 | 177 => 0xe5 | 178 => 0x74 | 179 => 0x64 | 180 => 4 | 185 => 0x20 | 193 => 0x20
    | 209 => 0x10 | 217 => 0x10 | 224 => 1
    | 232 => 2 | 236 => 6 | 241 => 2 | 249 => 2 | 264 => 0x30 | 272 => 0x30 | 280 => 8
    | 0x200 => 5 | 0x209 => 3 | 0x210 => 6 | 0x219 => 4
    | _ => 0

theorem linkedTable_pages : PagesMatch smallPages linkedTable := by
  have hloads : loads linkedTable = [sampleText, sampleData] := by decide
  have hsealed : ∀ u, OnRelro smallPages linkedTable u → (⟨0x2000, 0x1000⟩ : Arc 64).Has u := by
    rintro u ⟨r, hr, htype, hhas⟩
    have hr : r = sampleRelro :=
      (by decide : ∀ r ∈ linkedTable, r.type = .gnuRelro → r = sampleRelro) r hr htype
    rwa [hr, show pageRange smallPages sampleRelro = ⟨0x2000, 0x1000⟩ by decide] at hhas
  constructor
  · rw [hloads]
    refine forall_mem_cons.mpr ⟨fun i hi hrelro => ?_, forall_mem_singleton.mpr fun i hi hrelro => ?_⟩
    · have hhas : (⟨0x2000, 0x1000⟩ : Arc 64).Has (0 + BitVec.ofNat 64 i) := hsealed _ hrelro
      have hi : i < 0x1800 := hi
      unfold Arc.Has at hhas
      bv_omega
    · refine ⟨by decide, by decide, fun _ => any_eq_true.mpr ⟨sampleRelro, by decide, ?_⟩⟩
      exact decide_eq_true ⟨rfl, hsealed _ hrelro⟩
  · intro pre a mid c post hsplit hpos hshare
    rw [hloads] at hsplit
    have hlength := congrArg List.length hsplit
    simp only [length_append, length_cons, length_nil] at hlength
    obtain rfl : pre = [] := eq_nil_of_length_eq_zero (by omega)
    obtain rfl : mid = [] := eq_nil_of_length_eq_zero (by omega)
    cases hsplit
    exact absurd hshare (by decide)

end NyaZygisk
