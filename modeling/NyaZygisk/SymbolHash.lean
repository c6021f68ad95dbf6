import NyaZygisk.Relocate

/-!
# Symbols by hash

`LookupInImage` of `linker.cpp` and `findSymbolByGnuHash`, `findSymbolBySysvHash` of
`elf_parser.cpp`. A hash table is a list of 32-bit words; a lookup that reads outside it
gives `none`, and so does one that takes more than `k` rounds.
-/

namespace NyaZygisk

open List

variable {w : Nat}

/-- What a lookup looks at in an entry of the symbol table, with the text of its name. -/
structure NamedSym (w : Nat) where
  name : List (BitVec 8)
  /-- `st_shndx` is `SHN_UNDEF`. -/
  undef : Bool
  value : BitVec w
deriving DecidableEq

/-! ## Hashes -/

/-- `GnuHash` of `linker.cpp`. -/
def gnuHash (name : List (BitVec 8)) : BitVec 32 :=
  name.foldl (fun h c => h + ((h <<< 5) + c.setWidth 32)) 5381

/-- `SysvHash` of `linker.cpp`. -/
def sysvHash (name : List (BitVec 8)) : BitVec 32 :=
  name.foldl (fun h c =>
    let h := (h <<< 4) + c.setWidth 32
    let g := h &&& 0xf0000000
    let h := h ^^^ g
    h ^^^ (g >>> 24)) 0

def calculateGnuHash (name : List (BitVec 8)) : BitVec 32 :=
  name.foldl (fun h c => (h <<< 5) + h + c.setWidth 32) 5381

def calculateSysvHash (name : List (BitVec 8)) : BitVec 32 :=
  name.foldl (fun h c =>
    let h := (h <<< 4) + c.setWidth 32
    let g := h &&& 0xf0000000
    let h := if g ≠ 0 then h ^^^ (g >>> 24) else h
    h &&& ~~~g) 0

/-! ## Tables -/

/-- A `DT_GNU_HASH` table; `words` are those after its header: the bloom filter, the
buckets and the chains. -/
structure GnuHash where
  nbucket : BitVec 32
  symndx : BitVec 32
  maskwords : BitVec 32
  shift2 : BitVec 32
  words : List (BitVec 32)

/-- A `DT_HASH` table; `words` are the buckets and the chains. -/
structure SysvHash where
  nbucket : BitVec 32
  words : List (BitVec 32)

section Gnu

variable (t : GnuHash) (w : Nat)

/-- A word of the bloom filter, which has the size of an address. -/
def GnuHash.bloomWord (i : Nat) : Option (BitVec w) :=
  if w = 64 then
    (t.words[2 * i]?).bind fun low => (t.words[2 * i + 1]?).map fun high => (high ++ low).setWidth w
  else (t.words[i]?).map fun word => word.setWidth w

def GnuHash.bucketStart : Nat := t.maskwords.toNat * (w / 32)

def GnuHash.bucketAt (b : Nat) : Option (BitVec 32) := t.words[t.bucketStart w + b]?

/-- `gnu_chain_[n]` of `linker.cpp`, whose pointer is moved down by the first index. -/
def GnuHash.biasedChainAt (n : BitVec 32) : Option (BitVec 32) :=
  let i : Int := t.bucketStart w + t.nbucket.toNat - t.symndx.toNat + n.toNat
  if 0 ≤ i then t.words[i.toNat]? else none

/-- `gnu_chain_[n - gnu_symindx_]` of `elf_parser.cpp`. -/
def GnuHash.chainAt (n : BitVec 32) : Option (BitVec 32) :=
  t.words[t.bucketStart w + t.nbucket.toNat + (n - t.symndx).toNat]?

end Gnu

def SysvHash.bucketAt (t : SysvHash) (b : Nat) : Option (BitVec 32) := t.words[b]?

def SysvHash.chainAt (t : SysvHash) (n : BitVec 32) : Option (BitVec 32) :=
  t.words[t.nbucket.toNat + n.toNat]?

/-! ## Lookups -/

section Search

variable {α : Type}

/-- The loop along a GNU chain, whose last entry is odd. -/
def gnuLoop (chainAt : BitVec 32 → Option (BitVec 32))
    (visit : BitVec 32 → BitVec 32 → Option (Option α)) : Nat → BitVec 32 → Option (Option α)
  | 0, _ => none
  | k + 1, n =>
    (chainAt n).bind fun c =>
      (visit c n).bind fun
        | some found => some (some found)
        | none => if c &&& 1 = 0 then gnuLoop chainAt visit k (n + 1) else some none

/-- A lookup by GNU hash, with the mask for the bloom filter and the visit of a symbol. -/
def GnuHash.search (t : GnuHash) (hash : BitVec 32) (mask : BitVec w)
    (chainAt : BitVec 32 → Option (BitVec 32)) (visit : BitVec 32 → BitVec 32 → Option (Option α))
    (k : Nat) : Option (Option α) :=
  (t.bloomWord w (hash.toNat / w % t.maskwords.toNat)).bind fun word =>
    if word &&& mask ≠ mask then some none
    else
      (t.bucketAt w (hash.toNat % t.nbucket.toNat)).bind fun n =>
        if n < t.symndx then some none else gnuLoop chainAt visit k n

/-- The loop along a SysV chain, which ends at symbol 0. -/
def sysvLoop (chainAt : BitVec 32 → Option (BitVec 32)) (visit : BitVec 32 → Option (Option α)) :
    Nat → BitVec 32 → Option (Option α)
  | 0, _ => none
  | k + 1, n =>
    if n = 0 then some none
    else
      (visit n).bind fun
        | some found => some (some found)
        | none => (chainAt n).bind fun n => sysvLoop chainAt visit k n

def SysvHash.search (t : SysvHash) (hash : BitVec 32) (visit : BitVec 32 → Option (Option α))
    (k : Nat) : Option (Option α) :=
  (t.bucketAt (hash.toNat % t.nbucket.toNat)).bind fun n => sysvLoop t.chainAt visit k n

end Search

section Lookup

variable (syms : List (NamedSym w)) (name : List (BitVec 8))

/-- The symbol, if it is defined and has the name. -/
def exported (s : NamedSym w) : Option (NamedSym w) :=
  if s.undef = false ∧ s.name = name then some s else none

/-- The value of the symbol, if it has the name. -/
def namedValue (s : NamedSym w) : Option (BitVec w) := if s.name = name then some s.value else none

def symbolAt (n : BitVec 32) : Option (NamedSym w) := syms[n.toNat]?

def lookupMask (w : Nat) (t : GnuHash) (hash : BitVec 32) : BitVec w :=
  ((1 : BitVec w) <<< (hash.toNat % w)) ||| ((1 : BitVec w) <<< ((hash >>> t.shift2.toNat).toNat % w))

/-- `LookupInImage` with a GNU table. -/
def lookupGnu (t : GnuHash) (k : Nat) : Option (Option (NamedSym w)) :=
  let hash := gnuHash name
  t.search hash (lookupMask w t hash) (t.biasedChainAt w)
    (fun c n => if c ||| 1 = hash ||| 1 then (symbolAt syms n).map (exported name) else some none) k

/-- `LookupInImage` with a SysV table. -/
def lookupSysv (t : SysvHash) (k : Nat) : Option (Option (NamedSym w)) :=
  t.search (sysvHash name) (fun n => (symbolAt syms n).map (exported name)) k

def lookupInImage (gnu : Option GnuHash) (sysv : Option SysvHash) (k : Nat) :
    Option (Option (NamedSym w)) :=
  match gnu, sysv with
  | some t, _ => lookupGnu syms name t k
  | none, some t => lookupSysv syms name t k
  | none, none => some none

/-- The mask of `findSymbolByGnuHash`, made of `unsigned long long` numbers. -/
def bloomMask (w : Nat) (t : GnuHash) (hash : BitVec 32) : BitVec w :=
  (((1 : BitVec 64) <<< (hash.toNat % w)) |||
    ((1 : BitVec 64) <<< ((hash >>> t.shift2.toNat).toNat % w))).setWidth w

def findSymbolByGnuHash (t : GnuHash) (hash : BitVec 32) (k : Nat) : Option (BitVec w) :=
  (t.search hash (bloomMask w t hash) (t.chainAt w)
    (fun c n =>
      if (c ^^^ hash) >>> 1 = 0 then (symbolAt syms n).map (namedValue name) else some none) k).map
    fun found => found.getD 0

def findSymbolBySysvHash (t : SysvHash) (hash : BitVec 32) (k : Nat) : Option (BitVec w) :=
  (t.search hash (fun n => (symbolAt syms n).map (namedValue name)) k).map fun found => found.getD 0

def scan : Option (NamedSym w) := syms.find? fun s => !s.undef && s.name == name

end Lookup

/-! ## Well-formed tables -/

/-- The chain from `n` on is these symbols. -/
inductive GnuChain (chainAt : BitVec 32 → Option (BitVec 32)) : BitVec 32 → List (BitVec 32) → Prop
  | last {n c : BitVec 32} : chainAt n = some c → c &&& 1 ≠ 0 → GnuChain chainAt n [n]
  | more {n c : BitVec 32} {l : List (BitVec 32)} : chainAt n = some c → c &&& 1 = 0 →
      GnuChain chainAt (n + 1) l → GnuChain chainAt n (n :: l)

inductive SysvChain (chainAt : BitVec 32 → Option (BitVec 32)) : BitVec 32 → List (BitVec 32) → Prop
  | stop : SysvChain chainAt 0 []
  | link {n next : BitVec 32} {l : List (BitVec 32)} : n ≠ 0 → chainAt n = some next →
      SysvChain chainAt next l → SysvChain chainAt n (n :: l)

/-- The list holds the symbols from `first` on whose hash falls into bucket `b`. -/
def HoldsBucket (syms : List (NamedSym w)) (hash : List (BitVec 8) → BitVec 32) (first nbucket b : Nat)
    (l : List (BitVec 32)) : Prop :=
  ∀ i : Nat, (∃ n, n ∈ l ∧ n.toNat = i) ↔
    first ≤ i ∧ ∃ s, syms[i]? = some s ∧ (hash s.name).toNat % nbucket = b

structure GnuHash.WellFormed (t : GnuHash) (syms : List (NamedSym w)) : Prop where
  buckets : t.nbucket ≠ 0
  bloom : t.maskwords ≠ 0
  shift : t.shift2.toNat < 32
  /-- The bloom filter and the buckets are all there. -/
  room : t.bucketStart w + t.nbucket.toNat ≤ t.words.length
  /-- Both bits of each hashed symbol are set in its word of the filter. -/
  admits : ∀ i s, t.symndx.toNat ≤ i → syms[i]? = some s →
    ∃ word, t.bloomWord w ((gnuHash s.name).toNat / w % t.maskwords.toNat) = some word ∧
      word.getLsbD ((gnuHash s.name).toNat % w) = true ∧
      word.getLsbD ((gnuHash s.name >>> t.shift2.toNat).toNat % w) = true
  /-- The chain word of a symbol is its hash, up to the lowest bit. -/
  hashes : ∀ (n : BitVec 32) s, t.symndx ≤ n → symbolAt syms n = some s →
    ∃ c, t.chainAt w n = some c ∧ c ||| 1 = gnuHash s.name ||| 1
  /-- An empty bucket is below the first index; another one starts the chain of its symbols. -/
  chains : ∀ b n, b < t.nbucket.toNat → t.bucketAt w b = some n →
    if n < t.symndx then HoldsBucket syms gnuHash t.symndx.toNat t.nbucket.toNat b []
    else ∃ l, GnuChain (t.chainAt w) n l ∧
      HoldsBucket syms gnuHash t.symndx.toNat t.nbucket.toNat b l

structure SysvHash.WellFormed (t : SysvHash) (syms : List (NamedSym w)) : Prop where
  buckets : t.nbucket ≠ 0
  room : t.nbucket.toNat ≤ t.words.length
  chains : ∀ b n, b < t.nbucket.toNat → t.bucketAt b = some n →
    ∃ l, SysvChain t.chainAt n l ∧ HoldsBucket syms sysvHash 1 t.nbucket.toNat b l

namespace SymbolHashLemmas

/-! ## The two spellings -/

theorem calculateGnuHash_eq (name : List (BitVec 8)) : calculateGnuHash name = gnuHash name := by
  unfold calculateGnuHash gnuHash
  congr 1
  funext h c
  ring

theorem getElem_high (h : BitVec 32) {i : Nat} (hi : i < 32) :
    (h &&& (0xf0000000 : BitVec 32))[i] = (h[i] && decide (28 ≤ i)) := by
  have hmask : ∀ j : Fin 32, (0xf0000000 : BitVec 32).getLsbD j = decide (28 ≤ (j : Nat)) := by decide
  rw [BitVec.getElem_and, ← hmask ⟨i, hi⟩, BitVec.getLsbD_eq_getElem hi]

/-- Both ways to fold the highest four bits back clear them. -/
theorem foldBack (h : BitVec 32) {g : BitVec 32} (hg : g = h &&& (0xf0000000 : BitVec 32)) :
    (h ^^^ g) ^^^ (g >>> 24) = (h ^^^ (g >>> 24)) &&& ~~~g := by
  ext i hi
  have hbit : g[i] = (h[i] && decide (28 ≤ i)) := by rw [← getElem_high h hi, ← hg]
  simp only [BitVec.getElem_xor, BitVec.getElem_and, BitVec.getElem_not, BitVec.getElem_ushiftRight, hbit]
  rcases Nat.lt_or_ge i 28 with hlow | hhigh
  · simp [Nat.not_le.mpr hlow]
  · have hout : g.getLsbD (24 + i) = false := BitVec.getLsbD_of_ge g _ (by omega)
    simp [hhigh, hout]

theorem calculateSysvHash_eq (name : List (BitVec 8)) : calculateSysvHash name = sysvHash name := by
  unfold calculateSysvHash sysvHash
  congr 1
  funext h c
  simp only
  rw [foldBack _ rfl]
  split
  · rfl
  · next hzero =>
    rw [not_not.mp hzero]
    simp

theorem toNat_pos {x : BitVec 32} (h : x ≠ 0) : 0 < x.toNat :=
  Nat.pos_of_ne_zero fun hzero => h (BitVec.eq_of_toNat_eq hzero)

/-! ## Chains -/

section Chains

variable {α β γ : Type}

/-- Two searches that can find the same, and one thing only, find the same. -/
theorem findSome?_eq_of_unique {g : β → Option γ} {f : α → Option γ} {l : List β} {m : List α}
    (hsound : ∀ b ∈ l, ∀ c, g b = some c → ∃ a ∈ m, f a = some c)
    (hcomplete : ∀ a ∈ m, ∀ c, f a = some c → ∃ b ∈ l, g b = some c)
    (hunique : ∀ a a', a ∈ m → a' ∈ m → ∀ c c', f a = some c → f a' = some c' → c = c') :
    l.findSome? g = m.findSome? f := by
  cases hm : m.findSome? f with
  | none =>
    rw [findSome?_eq_none_iff] at hm ⊢
    intro b hb
    rw [Option.eq_none_iff_forall_ne_some]
    intro c hc
    obtain ⟨a, ha, hfa⟩ := hsound b hb c hc
    rw [hm a ha] at hfa
    cases hfa
  | some c =>
    obtain ⟨a, ha, hfa⟩ := exists_of_findSome?_eq_some hm
    obtain ⟨b, hb, hgb⟩ := hcomplete a ha c hfa
    cases hl : l.findSome? g with
    | none =>
      rw [findSome?_eq_none_iff] at hl
      rw [hl b hb] at hgb
      cases hgb
    | some c' =>
      obtain ⟨b', hb', hgb'⟩ := exists_of_findSome?_eq_some hl
      obtain ⟨a', ha', hfa'⟩ := hsound b' hb' c' hgb'
      rw [hunique a a' ha ha' c c' hfa hfa']

theorem gnuLoop_chain {chainAt : BitVec 32 → Option (BitVec 32)}
    {visit : BitVec 32 → BitVec 32 → Option (Option α)} {f : BitVec 32 → Option α} {n : BitVec 32}
    {l : List (BitVec 32)} (hl : GnuChain chainAt n l)
    (hvisit : ∀ n ∈ l, ∀ c, chainAt n = some c → visit c n = some (f n)) {k : Nat}
    (hk : l.length ≤ k) : gnuLoop chainAt visit k n = some (l.findSome? f) := by
  induction hl generalizing k with
  | @last n c hc hend =>
    obtain ⟨k, rfl⟩ := Nat.exists_eq_add_one_of_ne_zero (Nat.ne_zero_of_lt hk)
    simp only [gnuLoop, hc, Option.bind_some, hvisit n mem_cons_self c hc, if_neg hend,
      findSome?_cons, findSome?_nil]
    cases f n <;> rfl
  | @more n c l hc hmore _ ih =>
    obtain ⟨k, rfl⟩ := Nat.exists_eq_add_one_of_ne_zero (Nat.ne_zero_of_lt hk)
    have hrest := ih (fun n hn => hvisit n (mem_cons_of_mem _ hn)) (Nat.le_of_succ_le_succ hk)
    simp only [gnuLoop, hc, Option.bind_some, hvisit n mem_cons_self c hc, if_pos hmore, hrest,
      findSome?_cons]
    cases f n <;> rfl

theorem sysvLoop_chain {chainAt : BitVec 32 → Option (BitVec 32)}
    {visit : BitVec 32 → Option (Option α)} {f : BitVec 32 → Option α} {n : BitVec 32}
    {l : List (BitVec 32)} (hl : SysvChain chainAt n l)
    (hvisit : ∀ n ∈ l, visit n = some (f n)) {k : Nat} (hk : l.length < k) :
    sysvLoop chainAt visit k n = some (l.findSome? f) := by
  induction hl generalizing k with
  | stop =>
    obtain ⟨k, rfl⟩ := Nat.exists_eq_add_one_of_ne_zero (Nat.ne_zero_of_lt hk)
    rfl
  | @link n next l hne hnext _ ih =>
    obtain ⟨k, rfl⟩ := Nat.exists_eq_add_one_of_ne_zero (Nat.ne_zero_of_lt hk)
    have hrest := ih (fun n hn => hvisit n (mem_cons_of_mem _ hn)) (Nat.lt_of_succ_lt_succ hk)
    simp only [sysvLoop, if_neg hne, hvisit n mem_cons_self, Option.bind_some, hnext, hrest,
      findSome?_cons]
    cases f n <;> rfl

end Chains

/-! ## GNU tables -/

section Gnu

variable {t : GnuHash} {α : Type}

theorem biasedChainAt_eq (w : Nat) {n : BitVec 32} (hn : t.symndx ≤ n) :
    t.biasedChainAt w n = t.chainAt w n := by
  have hle : t.symndx.toNat ≤ n.toNat := hn
  have hindex : (t.bucketStart w + t.nbucket.toNat - t.symndx.toNat + n.toNat : Int) =
      (t.bucketStart w + t.nbucket.toNat + (n - t.symndx).toNat : Nat) := by
    rw [BitVec.toNat_sub_of_le hn]
    omega
  simp only [GnuHash.biasedChainAt, GnuHash.chainAt, hindex]
  rw [if_pos (Int.natCast_nonneg _), Int.toNat_natCast]

theorem getElem_one_shiftLeft (a : Nat) {i : Nat} (hi : i < w) :
    ((1 : BitVec w) <<< a)[i] = decide (i = a) := by
  rw [show ((1 : BitVec w) <<< a) = BitVec.twoPow w a from (BitVec.twoPow_eq w a).symm,
    BitVec.getElem_twoPow]

theorem bloomMask_eq (hw : w = 32 ∨ w = 64) (t : GnuHash) (hash : BitVec 32) :
    bloomMask w t hash = lookupMask w t hash := by
  unfold bloomMask lookupMask
  ext i hi
  have hi' : i < 64 := by rcases hw with rfl | rfl <;> omega
  rw [BitVec.getElem_setWidth, BitVec.getLsbD_eq_getElem hi']
  simp only [BitVec.getElem_or, getElem_one_shiftLeft]

/-- The filter lets a hash pass if both of its bits are set. -/
theorem mask_of_bits {word : BitVec w} {hash : BitVec 32} (h₁ : word.getLsbD (hash.toNat % w) = true)
    (h₂ : word.getLsbD ((hash >>> t.shift2.toNat).toNat % w) = true) :
    word &&& lookupMask w t hash = lookupMask w t hash := by
  unfold lookupMask
  ext i hi
  rw [BitVec.getElem_and, BitVec.getElem_or, getElem_one_shiftLeft _ hi, getElem_one_shiftLeft _ hi,
    ← BitVec.getLsbD_eq_getElem hi]
  by_cases ha : i = hash.toNat % w
  · rw [ha, h₁, Bool.true_and]
  · by_cases hb : i = (hash >>> t.shift2.toNat).toNat % w
    · rw [hb, h₂, Bool.true_and]
    · rw [decide_eq_false ha, decide_eq_false hb, Bool.or_self, Bool.and_false]

theorem fits_iff (c hash : BitVec 32) : (c ^^^ hash) >>> 1 = 0 ↔ c ||| 1 = hash ||| 1 := by
  constructor
  · intro h
    ext i hi
    cases i with
    | zero => simp
    | succ i =>
      have hbit : c.getLsbD (1 + i) = hash.getLsbD (1 + i) := by
        simpa using congrArg (fun v => v.getLsbD i) h
      rw [Nat.add_comm] at hbit
      simp [← BitVec.getLsbD_eq_getElem hi, hbit]
  · intro h
    ext i hi
    have hbit : c.getLsbD (i + 1) = hash.getLsbD (i + 1) := by
      simpa using congrArg (fun v => v.getLsbD (i + 1)) h
    simp [Nat.add_comm 1 i, hbit]

theorem bloomWord_of_room (hw : w = 32 ∨ w = 64) {i : Nat} (hi : i < t.maskwords.toNat)
    (hroom : t.bucketStart w ≤ t.words.length) : ∃ word, t.bloomWord w i = some word := by
  unfold GnuHash.bucketStart at hroom
  unfold GnuHash.bloomWord
  rcases hw with rfl | rfl
  · rw [if_neg (by decide), getElem?_eq_getElem (by omega)]
    exact ⟨_, rfl⟩
  · rw [if_pos rfl, getElem?_eq_getElem (by omega), getElem?_eq_getElem (by omega)]
    exact ⟨_, rfl⟩

variable {syms : List (NamedSym w)}

theorem mem_drop_iff {first : Nat} {s : NamedSym w} :
    s ∈ syms.drop first ↔ ∃ i, first ≤ i ∧ syms[i]? = some s := by
  rw [mem_iff_getElem?]
  simp only [getElem?_drop]
  constructor
  · rintro ⟨i, hi⟩
    exact ⟨first + i, Nat.le_add_right _ _, hi⟩
  · rintro ⟨i, hle, hi⟩
    exact ⟨i - first, by rwa [Nat.add_sub_cancel' hle]⟩

/-- A search along the symbols of the name's bucket gives what a scan gives. -/
theorem findSome?_bucket {hash : List (BitVec 8) → BitVec 32}
    {first nbucket : Nat} {name : List (BitVec 8)} {l : List (BitVec 32)}
    (hl : HoldsBucket syms hash first nbucket ((hash name).toNat % nbucket) l) {f : NamedSym w → Option α}
    (hname : ∀ s a, f s = some a → s.name = name)
    (hunique : ∀ s s', s ∈ syms → s' ∈ syms → s.name = s'.name → s = s') :
    l.findSome? (fun n => (symbolAt syms n).bind f) = (syms.drop first).findSome? f := by
  apply findSome?_eq_of_unique
  · intro n hn a ha
    obtain ⟨hfirst, s, hs, -⟩ := (hl n.toNat).mp ⟨n, hn, rfl⟩
    rw [symbolAt, hs] at ha
    exact ⟨s, mem_drop_iff.mpr ⟨n.toNat, hfirst, hs⟩, ha⟩
  · intro s hs a ha
    obtain ⟨i, hi, hsi⟩ := mem_drop_iff.mp hs
    obtain ⟨n, hn, rfl⟩ := (hl i).mpr ⟨hi, s, hsi, by rw [hname s a ha]⟩
    exact ⟨n, hn, by rw [symbolAt, hsi]; exact ha⟩
  · intro s s' hs hs' a a' ha ha'
    have heq : s = s' := hunique s s' (mem_of_mem_drop hs) (mem_of_mem_drop hs')
      ((hname s a ha).trans (hname s' a' ha').symm)
    rw [heq, ha'] at ha
    exact (Option.some.inj ha).symm

theorem gnuChain_congr {chainAt chainAt' : BitVec 32 → Option (BitVec 32)} {n : BitVec 32}
    {l : List (BitVec 32)} (h : GnuChain chainAt n l) (heq : ∀ n ∈ l, chainAt' n = chainAt n) :
    GnuChain chainAt' n l := by
  induction h with
  | last hc hend => exact .last ((heq _ mem_cons_self).trans hc) hend
  | more hc hmore _ ih =>
    exact .more ((heq _ mem_cons_self).trans hc) hmore
      (ih fun n hn => heq n (mem_cons_of_mem _ hn))

/-- A search that looks with `f` at the symbols whose chain words fit gives what a scan of
the hashed symbols with `f` gives. -/
theorem gnu_search_spec (hw : w = 32 ∨ w = 64) (ht : t.WellFormed syms)
    {name : List (BitVec 8)} {chainAt : BitVec 32 → Option (BitVec 32)}
    (hchain : ∀ n, t.symndx ≤ n → chainAt n = t.chainAt w n) {fits : BitVec 32 → Prop}
    [DecidablePred fits] (hfits : ∀ c, c ||| 1 = gnuHash name ||| 1 → fits c) {f : NamedSym w → Option α}
    (hname : ∀ s a, f s = some a → s.name = name)
    (hunique : ∀ s s', s ∈ syms → s' ∈ syms → s.name = s'.name → s = s') :
    ∃ K, ∀ k, K ≤ k → t.search (gnuHash name) (lookupMask w t (gnuHash name)) chainAt
      (fun c n => if fits c then (symbolAt syms n).map f else some none) k =
      some ((syms.drop t.symndx.toNat).findSome? f) := by
  have hbuckets : 0 < t.nbucket.toNat := toNat_pos ht.buckets
  have hbloom : 0 < t.maskwords.toNat := toNat_pos ht.bloom
  have hroom := ht.room
  obtain ⟨word, hword⟩ := bloomWord_of_room (t := t) hw (Nat.mod_lt ((gnuHash name).toNat / w) hbloom)
    (by omega)
  have hb := Nat.mod_lt (gnuHash name).toNat hbuckets
  obtain ⟨n, hn⟩ : ∃ n, t.bucketAt w ((gnuHash name).toNat % t.nbucket.toNat) = some n :=
    ⟨_, getElem?_eq_getElem (by omega)⟩
  have hchains := ht.chains _ n hb hn
  simp only [GnuHash.search, hword, hn, Option.bind_some]
  by_cases hmask : word &&& lookupMask w t (gnuHash name) = lookupMask w t (gnuHash name)
  · simp only [hmask, ne_eq, not_true, if_false]
    split at hchains
    · next hempty =>
      refine ⟨0, fun k _ => ?_⟩
      rw [if_pos hempty, ← findSome?_bucket hchains hname hunique]
      rfl
    · next hfirst =>
      obtain ⟨l, hl, hholds⟩ := hchains
      have hin : ∀ m ∈ l, t.symndx ≤ m ∧ ∃ s, symbolAt syms m = some s := by
        intro m hm
        obtain ⟨hle, s, hs, -⟩ := (hholds m.toNat).mp ⟨m, hm, rfl⟩
        exact ⟨hle, s, hs⟩
      refine ⟨l.length, fun k hk => ?_⟩
      rw [if_neg hfirst, ← findSome?_bucket hholds hname hunique]
      refine gnuLoop_chain (gnuChain_congr hl fun m hm => hchain m (hin m hm).1) ?_ hk
      intro m hm c hc
      obtain ⟨hle, s, hs⟩ := hin m hm
      obtain ⟨c', hc', hword⟩ := ht.hashes m s hle hs
      rw [hchain m hle, hc', Option.some.injEq] at hc
      rw [hs, Option.bind_some, Option.map_some]
      split
      · rfl
      · next hother =>
        -- A chain word that does not fit is that of another name.
        have hnone : f s = none := Option.eq_none_iff_forall_ne_some.mpr fun a ha =>
          hother (hfits c (hc ▸ hname s a ha ▸ hword))
        rw [hnone]
  · refine ⟨0, fun k _ => ?_⟩
    rw [if_pos hmask, Eq.comm, Option.some.injEq, findSome?_eq_none_iff]
    intro s hs
    rw [Option.eq_none_iff_forall_ne_some]
    intro a ha
    obtain ⟨i, hi, hsi⟩ := mem_drop_iff.mp hs
    obtain ⟨word', hword', h₁, h₂⟩ := ht.admits i s hi hsi
    rw [hname s a ha, hword, Option.some.injEq] at hword'
    rw [hname s a ha, ← hword'] at h₁ h₂
    exact hmask (mask_of_bits h₁ h₂)

end Gnu

/-! ## SysV tables -/

theorem sysv_search_spec {α : Type} {t : SysvHash} {syms : List (NamedSym w)} (ht : t.WellFormed syms)
    {name : List (BitVec 8)} {f : NamedSym w → Option α} (hname : ∀ s a, f s = some a → s.name = name)
    (hunique : ∀ s s', s ∈ syms → s' ∈ syms → s.name = s'.name → s = s') :
    ∃ K, ∀ k, K ≤ k → t.search (sysvHash name) (fun n => (symbolAt syms n).map f) k =
      some ((syms.drop 1).findSome? f) := by
  have hb := Nat.mod_lt (sysvHash name).toNat (toNat_pos ht.buckets)
  have hroom := ht.room
  obtain ⟨n, hn⟩ : ∃ n, t.bucketAt ((sysvHash name).toNat % t.nbucket.toNat) = some n :=
    ⟨_, getElem?_eq_getElem (by omega)⟩
  obtain ⟨l, hl, hholds⟩ := ht.chains _ n hb hn
  refine ⟨l.length + 1, fun k hk => ?_⟩
  rw [SysvHash.search, hn, Option.bind_some, ← findSome?_bucket hholds hname hunique]
  refine sysvLoop_chain hl (fun m hm => ?_) hk
  obtain ⟨-, s, hs, -⟩ := (hholds m.toNat).mp ⟨m, hm, rfl⟩
  rw [symbolAt, hs, Option.bind_some, Option.map_some]

/-! ## Scans -/

section Scan

variable {syms : List (NamedSym w)} {name : List (BitVec 8)}

theorem exported_name {s s' : NamedSym w} (h : exported name s = some s') : s.name = name := by
  unfold exported at h
  split at h
  · next hs => exact hs.2
  · cases h

theorem namedValue_name {s : NamedSym w} {value : BitVec w} (h : namedValue name s = some value) :
    s.name = name := by
  unfold namedValue at h
  split at h
  · next hs => exact hs
  · cases h

theorem findSome?_exported : syms.findSome? (exported name) = scan syms name := by
  unfold scan
  induction syms with
  | nil => rfl
  | cons s syms ih =>
    rw [findSome?_cons, find?_cons, ih, exported]
    by_cases hs : s.undef = false ∧ s.name = name
    · simp [hs]
    · have htest : (!s.undef && s.name == name) = false := by simpa using hs
      simp only [if_neg hs, htest]

section Distinct

variable (hw : w = 32 ∨ w = 64) {t : GnuHash} {t' : SysvHash} (ht : t.WellFormed syms)
  (ht' : t'.WellFormed syms) (hnames : syms.Pairwise fun s s' => s.name ≠ s'.name)
  (hundef : ∀ s ∈ syms, s.undef = true → s.value = 0)

include hnames

theorem name_inj (s s' : NamedSym w) (hs : s ∈ syms) (hs' : s' ∈ syms) (heq : s.name = s'.name) : s = s' :=
  inj_on_of_nodup_map (pairwise_map.mpr hnames) hs hs' heq

include hundef in
/-- A symbol that is not defined has the value that stands for no symbol. -/
theorem findSome?_namedValue :
    (syms.findSome? (namedValue name)).getD 0 = ((scan syms name).map NamedSym.value).getD 0 := by
  induction syms with
  | nil => rfl
  | cons s syms ih =>
    obtain ⟨hs, hnames⟩ := pairwise_cons.mp hnames
    rw [findSome?_cons, scan, find?_cons, namedValue]
    by_cases hname : s.name = name
    · cases hdef : s.undef with
      | false => simp [hname]
      | true =>
        -- No other symbol has the name.
        have hnone : (syms.find? fun s => !s.undef && s.name == name) = none := by
          rw [find?_eq_none]
          intro s' hs' hfound
          rw [Bool.and_eq_true, beq_iff_eq] at hfound
          exact hs s' hs' (hname.trans hfound.2.symm)
        simp [hname, hnone, hundef s mem_cons_self hdef]
    · have hrest := ih hnames fun s' hs' => hundef s' (mem_cons_of_mem _ hs')
      simp only [if_neg hname, hrest, scan, beq_eq_false_iff_ne.mpr hname, Bool.and_false]

/-! ## The lookups -/

include hw ht in
theorem lookupGnu_spec :
    ∃ K, ∀ k, K ≤ k → lookupGnu syms name t k = some (scan (syms.drop t.symndx.toNat) name) := by
  rw [← findSome?_exported]
  exact gnu_search_spec hw ht (fun n => biasedChainAt_eq w) (fun _ => id) (fun s _ => exported_name)
    (name_inj hnames)

include hw ht hundef in
theorem findSymbolByGnuHash_spec :
    ∃ K, ∀ k, K ≤ k → findSymbolByGnuHash syms name t (calculateGnuHash name) k =
      some (((scan (syms.drop t.symndx.toNat) name).map NamedSym.value).getD 0) := by
  rw [calculateGnuHash_eq, ← findSome?_namedValue (hnames.sublist (drop_sublist _ _))
    fun s hs => hundef s (mem_of_mem_drop hs)]
  obtain ⟨K, hK⟩ := gnu_search_spec hw ht (fun n _ => rfl) (fun c => (fits_iff c _).mpr)
    (fun s _ => namedValue_name) (name_inj hnames)
  refine ⟨K, fun k hk => ?_⟩
  rw [findSymbolByGnuHash, bloomMask_eq hw, hK k hk, Option.map_some]

include ht' in
theorem lookupSysv_spec :
    ∃ K, ∀ k, K ≤ k → lookupSysv syms name t' k = some (scan (syms.drop 1) name) := by
  rw [← findSome?_exported]
  exact sysv_search_spec ht' (fun s _ => exported_name) (name_inj hnames)

include ht' hundef in
theorem findSymbolBySysvHash_spec :
    ∃ K, ∀ k, K ≤ k → findSymbolBySysvHash syms name t' (calculateSysvHash name) k =
      some (((scan (syms.drop 1) name).map NamedSym.value).getD 0) := by
  rw [calculateSysvHash_eq, ← findSome?_namedValue (hnames.sublist (drop_sublist _ _))
    fun s hs => hundef s (mem_of_mem_drop hs)]
  obtain ⟨K, hK⟩ := sysv_search_spec ht' (f := namedValue name) (fun s _ => namedValue_name)
    (name_inj hnames)
  refine ⟨K, fun k hk => ?_⟩
  rw [findSymbolBySysvHash, hK k hk, Option.map_some]

end Distinct

end Scan

end SymbolHashLemmas

open SymbolHashLemmas

/-- In well-formed tables the lookups of both parsers find what a linear scan of the
hashed symbols finds. -/
theorem hash_lookup_is_scan (hw : w = 32 ∨ w = 64) {syms : List (NamedSym w)}
    (hnames : syms.Pairwise fun s s' => s.name ≠ s'.name)
    (hundef : ∀ s ∈ syms, s.undef = true → s.value = 0) (name : List (BitVec 8)) :
    (∀ t : GnuHash, t.WellFormed syms → ∃ K, ∀ k, K ≤ k →
      (∀ sysv, lookupInImage syms name (some t) sysv k =
        some (scan (syms.drop t.symndx.toNat) name)) ∧
      findSymbolByGnuHash syms name t (calculateGnuHash name) k =
        some (((scan (syms.drop t.symndx.toNat) name).map NamedSym.value).getD 0)) ∧
    (∀ t : SysvHash, t.WellFormed syms → ∃ K, ∀ k, K ≤ k →
      lookupInImage syms name none (some t) k = some (scan (syms.drop 1) name) ∧
      findSymbolBySysvHash syms name t (calculateSysvHash name) k =
        some (((scan (syms.drop 1) name).map NamedSym.value).getD 0)) := by
  constructor
  · intro t ht
    obtain ⟨K, hK⟩ := lookupGnu_spec hw ht hnames
    obtain ⟨K', hK'⟩ := findSymbolByGnuHash_spec hw ht hnames hundef
    exact ⟨max K K', fun k hk => ⟨fun _ => hK k (le_of_max_le_left hk), hK' k (le_of_max_le_right hk)⟩⟩
  · intro t ht
    obtain ⟨K, hK⟩ := lookupSysv_spec ht hnames
    obtain ⟨K', hK'⟩ := findSymbolBySysvHash_spec ht hnames hundef
    exact ⟨max K K', fun k hk => ⟨hK k (le_of_max_le_left hk), hK' k (le_of_max_le_right hk)⟩⟩

/-- The null symbol, an undefined symbol, and two defined ones. -/
def sampleSyms : List (NamedSym 64) :=
  [⟨[], true, 0⟩, ⟨[0x70], true, 0⟩, ⟨[0x61], false, 0x1000⟩, ⟨[0x62], false, 0x2000⟩]

/-- One bucket with the defined symbols, after a bloom filter that lets all pass. -/
def sampleGnu : GnuHash := ⟨1, 2, 1, 6, [0xffffffff, 0xffffffff, 2, 177670, 177671]⟩

/-- One bucket with all symbols but the first. -/
def sampleSysv : SysvHash := ⟨1, [1, 0, 2, 3, 0]⟩

namespace SymbolHashLemmas

theorem sampleSyms_cases {i : Nat} {s : NamedSym 64} (h : sampleSyms[i]? = some s) :
    i = 0 ∨ i = 1 ∨ i = 2 ∨ i = 3 := by
  have hlt : i < 4 := (List.getElem?_eq_some_iff.mp h).1
  interval_cases i <;> simp

theorem sampleGnu_wellFormed : sampleGnu.WellFormed sampleSyms where
  buckets := by decide
  bloom := by decide
  shift := by decide
  room := by decide
  admits := by
    intro i s hi hs
    have hi : 2 ≤ i := hi
    rcases sampleSyms_cases hs with rfl | rfl | rfl | rfl <;> cases hs
    · cases hi
    · omega
    all_goals exact ⟨0xffffffffffffffff, by decide, by decide, by decide⟩
  hashes := by
    intro n s hn hs
    have hn : 2 ≤ n.toNat := hn
    rcases sampleSyms_cases hs with h | h | h | h
    · omega
    · omega
    · obtain rfl : n = 2 := BitVec.eq_of_toNat_eq h
      cases hs
      exact ⟨177670, by decide, by decide⟩
    · obtain rfl : n = 3 := BitVec.eq_of_toNat_eq h
      cases hs
      exact ⟨177671, by decide, by decide⟩
  chains := by
    intro b n hb hn
    obtain rfl : b = 0 := Nat.lt_one_iff.mp hb
    obtain rfl : n = 2 := (Option.some.inj hn).symm
    refine ⟨[2, 3], .more rfl (by decide) (.last rfl (by decide)), fun i => ⟨?_, ?_⟩⟩
    · rintro ⟨n, hn, rfl⟩
      rcases mem_pair.mp hn with rfl | rfl <;> exact ⟨by decide, _, rfl, by decide⟩
    · rintro ⟨hi, s, hs, -⟩
      have hi : 2 ≤ i := hi
      rcases sampleSyms_cases hs with rfl | rfl | rfl | rfl
      · omega
      · omega
      · exact ⟨2, by decide, rfl⟩
      · exact ⟨3, by decide, rfl⟩

theorem sampleSysv_wellFormed : sampleSysv.WellFormed sampleSyms where
  buckets := by decide
  room := by decide
  chains := by
    intro b n hb hn
    obtain rfl : b = 0 := Nat.lt_one_iff.mp hb
    obtain rfl : n = 1 := (Option.some.inj hn).symm
    refine ⟨[1, 2, 3], .link (by decide) rfl (.link (by decide) rfl (.link (by decide) rfl .stop)),
      fun i => ⟨?_, ?_⟩⟩
    · rintro ⟨n, hn, rfl⟩
      simp only [mem_cons, not_mem_nil, or_false] at hn
      rcases hn with rfl | rfl | rfl <;> exact ⟨by decide, _, rfl, by decide⟩
    · rintro ⟨hi, s, hs, -⟩
      rcases sampleSyms_cases hs with rfl | rfl | rfl | rfl
      · omega
      · exact ⟨1, by decide, rfl⟩
      · exact ⟨2, by decide, rfl⟩
      · exact ⟨3, by decide, rfl⟩

end SymbolHashLemmas

/-- A defined symbol is found in both tables, an undefined one is not. -/
theorem hash_lookup_is_scan_sample :
    (∃ k, lookupInImage sampleSyms [0x62] (some sampleGnu) none k =
        some (some ⟨[0x62], false, 0x2000⟩) ∧
      findSymbolByGnuHash sampleSyms [0x62] sampleGnu (calculateGnuHash [0x62]) k = some 0x2000) ∧
    (∃ k, lookupInImage sampleSyms [0x70] none (some sampleSysv) k = some none ∧
      findSymbolBySysvHash sampleSyms [0x70] sampleSysv (calculateSysvHash [0x70]) k = some 0) := by
  have hundef : ∀ s ∈ sampleSyms, s.undef = true → s.value = 0 := by decide
  obtain ⟨hgnu, -⟩ := hash_lookup_is_scan (.inr rfl) (by decide) hundef [0x62]
  obtain ⟨-, hsysv⟩ := hash_lookup_is_scan (.inr rfl) (by decide) hundef [0x70]
  obtain ⟨k, hk⟩ := hgnu sampleGnu sampleGnu_wellFormed
  obtain ⟨k', hk'⟩ := hsysv sampleSysv sampleSysv_wellFormed
  exact ⟨⟨k, (hk k le_rfl).1 none, (hk k le_rfl).2⟩, ⟨k', (hk' k' le_rfl).1, (hk' k' le_rfl).2⟩⟩

end NyaZygisk
