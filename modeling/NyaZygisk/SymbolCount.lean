import NyaZygisk.SymbolHash

/-!
# The number of dynamic symbols

`ParseDynamic` of `linker.cpp` takes the number of symbols from the GNU hash table, if there is
no other: it goes to the bucket with the greatest index and along its chain to the end. With this
number `AddrToSym` looks for the symbol of an address.
-/

namespace NyaZygisk

open List

variable {w : Nat}

/-! ## The count -/

section Count

variable (t : GnuHash) (w : Nat) (outside : Int → BitVec 32)

/-- A word at a place that is counted from the first one after the header; `outside` is the
memory around the table. -/
def GnuHash.wordAt (i : Int) : BitVec 32 := if 0 ≤ i then t.words[i.toNat]?.getD (outside i) else outside i

/-- `gnu_bucket_[i]`. -/
def GnuHash.bucketWord (i : Nat) : BitVec 32 := t.wordAt outside (t.bucketStart w + i)

/-- `gnu_chain_[n]`. -/
def GnuHash.chainWord (n : BitVec 32) : BitVec 32 :=
  t.wordAt outside (t.bucketStart w + t.nbucket.toNat - t.symndx.toNat + n.toNat)

/-- The greatest of the buckets and the first index. -/
def GnuHash.maxIdx : BitVec 32 :=
  (List.range t.nbucket.toNat).foldl
    (fun m i => if m < t.bucketWord w outside i then t.bucketWord w outside i else m) t.symndx

/-- The loop along a chain, for at most `k` rounds: where it ends, and the entries it has read. -/
def GnuHash.chainLoop : Nat → BitVec 32 → List (BitVec 32) → Option (BitVec 32 × List (BitVec 32))
  | 0, _, _ => none
  | k + 1, idx, reads =>
    if t.chainWord w outside idx &&& 1 = 0 then GnuHash.chainLoop k (idx + 1) (reads ++ [idx])
    else some (idx, reads ++ [idx])

/-- `dynsym_count_` and the chain entries that were read for it; `nchain` is that of `DT_HASH`. -/
def dynsymCount (nchain : Option (BitVec 32)) (gnu : Option GnuHash) (k : Nat) :
    Option (Nat × List (BitVec 32)) :=
  match nchain, gnu with
  | some nchain, _ => some (nchain.toNat, [])
  | none, none => some (0, [])
  | none, some t =>
    if t.nbucket = 0 then some (0, [])
    else
      let maxIdx := t.maxIdx w outside
      if t.symndx ≤ maxIdx then
        (t.chainLoop w outside k maxIdx []).map fun r => ((r.1 + 1).toNat, r.2)
      else some (t.symndx.toNat, [])

end Count

/-! ## Symbols by address -/

/-- `ELF_ST_TYPE`. -/
inductive SymType
  | object
  | func
  | gnuIfunc
  | other
deriving DecidableEq

/-- An entry of the symbol table, with what `AddrToSym` looks at. -/
structure SymEntry (w : Nat) where
  sym : NamedSym w
  stName : BitVec 32
  type : SymType
deriving DecidableEq

def nearer (target : BitVec w) (best : Option (SymEntry w)) (s : SymEntry w) : Option (SymEntry w) :=
  if s.sym.undef = true ∨ s.stName = 0 then best
  else if s.type = .other then best
  else if target < s.sym.value then best
  else if best.any (fun b => s.sym.value < b.sym.value) then best
  else some s

/-- `AddrToSym`: the name and the address of the symbol. -/
def RelocImage.addrToSym (img : RelocImage w) (entryAt : Nat → SymEntry w) (count : Nat) (addr : BitVec w) :
    Option (List (BitVec 8) × BitVec w) :=
  if ¬ img.Inside addr ∨ count = 0 then none
  else
    (((List.range count).map entryAt).foldl (nearer (addr - img.loadBias)) none).map
      fun s => (s.sym.name, img.loadBias + s.sym.value)

/-- A defined function or object with a name, not above the address. -/
structure SymEntry.Before (target : BitVec w) (s : SymEntry w) : Prop where
  defined : s.sym.undef = false
  named : s.stName ≠ 0
  type : s.type ≠ .other
  below : s.sym.value ≤ target

/-- What a search for the symbol of an address should find. -/
def IsNearest (syms : List (SymEntry w)) (target : BitVec w) : Option (SymEntry w) → Prop
  | none => ∀ s ∈ syms, ¬ s.Before target
  | some s => s ∈ syms ∧ s.Before target ∧ ∀ s' ∈ syms, s'.Before target → s'.sym.value ≤ s.sym.value

/-- Entries of the table, and what is in the memory after them. -/
def entryAt (syms : List (SymEntry w)) (beyond : Nat → SymEntry w) (i : Nat) : SymEntry w :=
  syms[i]?.getD (beyond i)

def GnuHash.hashed (t : GnuHash) (syms : List (SymEntry w)) : Nat := syms.length - t.symndx.toNat

/-- Only chain entries of the table are read, the number is that of the symbols, and with it the
nearest symbol is found. -/
structure CountRight (t : GnuHash) (syms : List (SymEntry w)) (img : RelocImage w)
    (beyond : Nat → SymEntry w) (count : Nat) (reads : List (BitVec 32)) : Prop where
  inTable : ∀ n ∈ reads, t.symndx.toNat ≤ n.toNat ∧ n.toNat < t.symndx.toNat + t.hashed syms
  exact : count = t.symndx.toNat + t.hashed syms
  nearest : ∀ addr, img.Inside addr → ∃ found, IsNearest syms (addr - img.loadBias) found ∧
    img.addrToSym (entryAt syms beyond) count addr =
      found.map fun s => (s.sym.name, img.loadBias + s.sym.value)

namespace SymbolCountLemmas

/-! ## The nearest symbol -/

section Nearest

variable {target : BitVec w} {syms : List (SymEntry w)} {best : Option (SymEntry w)} {s : SymEntry w}

theorem nearer_of_not_before (h : ¬ s.Before target) : nearer target best s = best := by
  rw [nearer]
  split_ifs with hname htype hvalue
  · rfl
  · rfl
  · rfl
  · rfl
  · obtain ⟨hdefined, hnamed⟩ := not_or.mp hname
    exact absurd ⟨Bool.eq_false_iff.mpr hdefined, hnamed, htype, BitVec.not_lt.mp hvalue⟩ h

theorem nearer_of_before (h : s.Before target) :
    nearer target best s = if best.any (fun b => s.sym.value < b.sym.value) then best else some s := by
  have hname : ¬ (s.sym.undef = true ∨ s.stName = 0) := not_or.mpr ⟨Bool.eq_false_iff.mp h.defined, h.named⟩
  rw [nearer, if_neg hname, if_neg h.type, if_neg (BitVec.not_lt.mpr h.below)]

theorem nearest_snoc (h : IsNearest syms target best) :
    IsNearest (syms ++ [s]) target (nearer target best s) := by
  by_cases hbefore : s.Before target
  · rw [nearer_of_before hbefore]
    cases best with
    | none =>
      refine ⟨mem_append_right _ mem_cons_self, hbefore, forall_mem_append.mpr ⟨?_, ?_⟩⟩
      · exact fun s' hs' hbefore' => absurd hbefore' (h s' hs')
      · exact forall_mem_singleton.mpr fun _ => BitVec.le_refl _
    | some b =>
      obtain ⟨hmem, hb, hmax⟩ := h
      rw [Option.any_some]
      split
      · next hless =>
        have hlt : s.sym.value < b.sym.value := of_decide_eq_true hless
        refine ⟨mem_append_left _ hmem, hb, forall_mem_append.mpr ⟨hmax, ?_⟩⟩
        exact forall_mem_singleton.mpr fun _ => BitVec.le_of_lt hlt
      · next hless =>
        have hle : b.sym.value ≤ s.sym.value := BitVec.not_lt.mp fun hlt => hless (decide_eq_true hlt)
        refine ⟨mem_append_right _ mem_cons_self, hbefore, forall_mem_append.mpr ⟨?_, ?_⟩⟩
        · exact fun s' hs' hbefore' => BitVec.le_trans (hmax s' hs' hbefore') hle
        · exact forall_mem_singleton.mpr fun _ => BitVec.le_refl _
  · rw [nearer_of_not_before hbefore]
    cases best with
    | none => exact forall_mem_append.mpr ⟨h, forall_mem_singleton.mpr hbefore⟩
    | some b =>
      obtain ⟨hmem, hb, hmax⟩ := h
      refine ⟨mem_append_left _ hmem, hb, forall_mem_append.mpr ⟨hmax, ?_⟩⟩
      exact forall_mem_singleton.mpr fun hs => absurd hs hbefore

/-- The loop of `AddrToSym` finds the nearest symbol. -/
theorem nearest_foldl (l : List (SymEntry w)) (h : IsNearest syms target best) :
    IsNearest (syms ++ l) target (l.foldl (nearer target) best) := by
  induction l generalizing syms best with
  | nil => rwa [append_nil]
  | cons s l ih =>
    rw [foldl_cons, append_cons]
    exact ih (nearest_snoc h)

end Nearest

theorem map_entryAt (syms : List (SymEntry w)) (beyond : Nat → SymEntry w) :
    (List.range syms.length).map (entryAt syms beyond) = syms := by
  refine ext_getElem (by simp) fun i _ hi => ?_
  simp [entryAt, hi]

theorem addrToSym_nearest (img : RelocImage w) (syms : List (SymEntry w)) (beyond : Nat → SymEntry w)
    (hne : syms ≠ []) {addr : BitVec w} (hin : img.Inside addr) :
    ∃ found, IsNearest syms (addr - img.loadBias) found ∧
      img.addrToSym (entryAt syms beyond) syms.length addr =
        found.map fun s => (s.sym.name, img.loadBias + s.sym.value) := by
  have hnearest : IsNearest ([] ++ syms) (addr - img.loadBias)
      (syms.foldl (nearer (addr - img.loadBias)) none) := nearest_foldl syms nofun
  refine ⟨_, hnearest, ?_⟩
  have hcount : syms.length ≠ 0 := mt length_eq_zero_iff.mp hne
  rw [RelocImage.addrToSym, if_neg (not_or.mpr ⟨not_not.mpr hin, hcount⟩), map_entryAt]

/-! ## Chains -/

section Chains

variable {t : GnuHash} {outside : Int → BitVec 32}

theorem chainWord_eq {n c : BitVec 32} (hn : t.symndx ≤ n) (hc : t.chainAt w n = some c) :
    t.chainWord w outside n = c := by
  rw [← SymbolHashLemmas.biasedChainAt_eq w hn] at hc
  simp only [GnuHash.biasedChainAt] at hc
  split at hc
  · next hi => rw [GnuHash.chainWord, GnuHash.wordAt, if_pos hi, hc, Option.getD_some]
  · cases hc

theorem bucketWord_eq {i : Nat} {n : BitVec 32} (h : t.bucketAt w i = some n) :
    t.bucketWord w outside i = n := by
  rw [GnuHash.bucketAt] at h
  rw [GnuHash.bucketWord, GnuHash.wordAt, ← Int.natCast_add, if_pos (Int.natCast_nonneg _),
    Int.toNat_natCast, h, Option.getD_some]

theorem chainLoop_chain (outside : Int → BitVec 32) {n : BitVec 32} {l : List (BitVec 32)}
    (h : GnuChain (t.chainAt w) n l)
    (hfirst : ∀ m ∈ l, t.symndx ≤ m) {k : Nat} (hk : l.length ≤ k) (reads : List (BitVec 32)) :
    ∃ last, l.getLast? = some last ∧ t.chainLoop w outside k n reads = some (last, reads ++ l) := by
  induction h generalizing k reads with
  | @last n c hc hend =>
    obtain ⟨k, rfl⟩ := Nat.exists_eq_add_one_of_ne_zero (Nat.ne_zero_of_lt hk)
    refine ⟨n, rfl, ?_⟩
    rw [GnuHash.chainLoop, chainWord_eq (hfirst n mem_cons_self) hc, if_neg hend]
  | @more n c l hc hmore hrest ih =>
    obtain ⟨k, rfl⟩ := Nat.exists_eq_add_one_of_ne_zero (Nat.ne_zero_of_lt hk)
    obtain ⟨last, hlast, hloop⟩ := ih (fun m hm => hfirst m (mem_cons_of_mem _ hm))
      (Nat.le_of_succ_le_succ hk) (reads ++ [n])
    have hne : l ≠ [] := by rintro rfl; cases hlast
    refine ⟨last, ?_, ?_⟩
    · rw [getLast?_cons, hlast, Option.getD_some]
    · rw [GnuHash.chainLoop, chainWord_eq (hfirst n mem_cons_self) hc, if_pos hmore, hloop,
        append_assoc]
      rfl

theorem chain_range' {chainAt : BitVec 32 → Option (BitVec 32)} {n : BitVec 32} {l : List (BitVec 32)}
    (h : GnuChain chainAt n l) (hsmall : ∀ m ∈ l, m.toNat + 1 < 2 ^ 32) :
    l.map BitVec.toNat = List.range' n.toNat l.length := by
  induction h with
  | last => rfl
  | @more n c l _ _ _ ih =>
    have hnext : (n + 1).toNat = n.toNat + 1 := by
      rw [BitVec.toNat_add_of_lt]
      · rfl
      · exact hsmall n mem_cons_self
    rw [map_cons, ih fun m hm => hsmall m (mem_cons_of_mem _ hm), hnext]
    rfl

theorem foldl_max_spec (f : Nat → BitVec 32) (l : List Nat) (a : BitVec 32) :
    let m := l.foldl (fun m i => if m < f i then f i else m) a
    a ≤ m ∧ (∀ i ∈ l, f i ≤ m) ∧ (m = a ∨ ∃ i ∈ l, m = f i) := by
  induction l generalizing a with
  | nil => exact ⟨BitVec.le_refl a, nofun, .inl rfl⟩
  | cons i l ih =>
    obtain ⟨hfirst, hall, hone⟩ := ih (if a < f i then f i else a)
    rw [foldl_cons]
    have hstep : a ≤ (if a < f i then f i else a) ∧ f i ≤ (if a < f i then f i else a) := by
      split
      · next hlt => exact ⟨BitVec.le_of_lt hlt, BitVec.le_refl _⟩
      · next hlt => exact ⟨BitVec.le_refl _, BitVec.not_lt.mp hlt⟩
    refine ⟨BitVec.le_trans hstep.1 hfirst, forall_mem_cons.mpr ⟨BitVec.le_trans hstep.2 hfirst, hall⟩, ?_⟩
    rcases hone with hone | ⟨j, hj, hone⟩
    · rcases ite_eq_or_eq (a < f i) (f i) a with hvalue | hvalue
      · exact .inr ⟨i, mem_cons_self, hone.trans hvalue⟩
      · exact .inl (hone.trans hvalue)
    · exact .inr ⟨j, mem_cons_of_mem _ hj, hone⟩

theorem symndx_le_maxIdx (t : GnuHash) (w : Nat) (outside : Int → BitVec 32) :
    t.symndx ≤ t.maxIdx w outside := (foldl_max_spec _ _ _).1

section WellFormed

variable {syms : List (NamedSym w)} (ht : t.WellFormed syms) (hsmall : syms.length < 2 ^ 32)

include ht

theorem bucket_some {b : Nat} (hb : b < t.nbucket.toNat) : ∃ n, t.bucketAt w b = some n := by
  have hroom := ht.room
  exact ⟨_, getElem?_eq_getElem (by omega)⟩

/-- A symbol that is hashed is in its bucket, which has a start. -/
theorem bucket_of_symbol {i : Nat} {s : NamedSym w} (hi : syms[i]? = some s) (hfirst : t.symndx.toNat ≤ i) :
    ∃ n, t.bucketAt w ((gnuHash s.name).toNat % t.nbucket.toNat) = some n ∧ ¬ n < t.symndx := by
  have hb := Nat.mod_lt (gnuHash s.name).toNat (SymbolHashLemmas.toNat_pos ht.buckets)
  obtain ⟨n, hn⟩ := bucket_some ht hb
  refine ⟨n, hn, fun hlt => ?_⟩
  have hchains := ht.chains _ n hb hn
  rw [if_pos hlt] at hchains
  obtain ⟨m, hm, -⟩ := (hchains i).mpr ⟨hfirst, s, hi, rfl⟩
  cases hm

theorem maxIdx_bucket (outside : Int → BitVec 32) {b : Nat} {n : BitVec 32} (hb : b < t.nbucket.toNat)
    (hn : t.bucketAt w b = some n) (hfirst : ¬ n < t.symndx) :
    n ≤ t.maxIdx w outside ∧
      ∃ b', b' < t.nbucket.toNat ∧ t.bucketAt w b' = some (t.maxIdx w outside) := by
  obtain ⟨-, hall, hone⟩ := foldl_max_spec (t.bucketWord w outside) (List.range t.nbucket.toNat) t.symndx
  change ∀ i, _ → _ ≤ t.maxIdx w outside at hall
  change t.maxIdx w outside = _ ∨ ∃ i, _ ∧ t.maxIdx w outside = _ at hone
  have hle := hall b (mem_range.mpr hb)
  rw [bucketWord_eq hn] at hle
  refine ⟨hle, ?_⟩
  rcases hone with hone | ⟨i, hi, hone⟩
  · have heq : t.maxIdx w outside = n := BitVec.le_antisymm (hone ▸ BitVec.not_lt.mp hfirst) hle
    exact ⟨b, hb, heq ▸ hn⟩
  · obtain ⟨m, hm⟩ := bucket_some ht (mem_range.mp hi)
    rw [bucketWord_eq hm] at hone
    exact ⟨i, mem_range.mp hi, hone ▸ hm⟩

include hsmall

/-- The symbols of a bucket are a range of indices, from its start on. -/
theorem bucket_range {b : Nat} {n : BitVec 32} (hb : b < t.nbucket.toNat) (hn : t.bucketAt w b = some n)
    (hfirst : ¬ n < t.symndx) :
    ∃ l, GnuChain (t.chainAt w) n l ∧ l.map BitVec.toNat = List.range' n.toNat l.length ∧ 0 < l.length ∧
      ∀ i, n.toNat ≤ i ∧ i < n.toNat + l.length ↔
        t.symndx.toNat ≤ i ∧ ∃ s, syms[i]? = some s ∧ (gnuHash s.name).toNat % t.nbucket.toNat = b := by
  have hchains := ht.chains b n hb hn
  rw [if_neg hfirst] at hchains
  obtain ⟨l, hchain, hholds⟩ := hchains
  have hsmall' : ∀ m ∈ l, m.toNat + 1 < 2 ^ 32 := by
    intro m hm
    obtain ⟨-, s, hs, -⟩ := (hholds m.toNat).mp ⟨m, hm, rfl⟩
    have hlt := (List.getElem?_eq_some_iff.mp hs).1
    omega
  have hrange := chain_range' hchain hsmall'
  refine ⟨l, hchain, hrange, ?_, fun i => ?_⟩
  · cases hchain <;> exact Nat.succ_pos _
  · rw [← hholds i, ← mem_map, hrange, mem_range'_1]

/-- The chain from the greatest index on is that of the last symbols. -/
theorem chain_reaches_end (outside : Int → BitVec 32) (hsome : t.symndx.toNat < syms.length) :
    ∃ l, GnuChain (t.chainAt w) (t.maxIdx w outside) l ∧
      l.map BitVec.toNat = List.range' (t.maxIdx w outside).toNat l.length ∧
      (t.maxIdx w outside).toNat + l.length = syms.length := by
  have hindex : syms.length - 1 < syms.length := Nat.sub_one_lt_of_lt hsome
  have hlast := List.getElem?_eq_getElem hindex
  have hhashed : t.symndx.toNat ≤ syms.length - 1 := Nat.le_sub_one_of_lt hsome
  -- the bucket of the last symbol, and the one with the greatest index
  obtain ⟨n, hn, hfirst⟩ := bucket_of_symbol ht hlast hhashed
  have hb := Nat.mod_lt (gnuHash syms[syms.length - 1].name).toNat (SymbolHashLemmas.toNat_pos ht.buckets)
  obtain ⟨l, -, -, -, hl⟩ := bucket_range ht hsmall hb hn hfirst
  obtain ⟨hle, b', hb', hn'⟩ := maxIdx_bucket ht outside hb hn hfirst
  obtain ⟨l', hchain', hrange', hpos', hl'⟩ :=
    bucket_range ht hsmall hb' hn' (BitVec.not_lt.mpr (symndx_le_maxIdx t w outside))
  have hin := (hl _).mpr ⟨hhashed, _, hlast, rfl⟩
  obtain ⟨-, s, hs, hs'⟩ := (hl' _).mp ⟨Nat.le_refl _, Nat.lt_add_of_pos_right hpos'⟩
  have hmaxlt := (List.getElem?_eq_some_iff.mp hs).1
  -- its first symbol is one of the last bucket's, so they are the same bucket
  obtain ⟨-, s', hs'', hsame⟩ := (hl (t.maxIdx w outside).toNat).mp
    ⟨hle, (Nat.le_sub_one_of_lt hmaxlt).trans_lt hin.2⟩
  obtain rfl : s = s' := Option.some_inj.mp (hs.symm.trans hs'')
  have hin' := (hl' _).mpr ⟨hhashed, _, hlast, hsame.symm.trans hs'⟩
  -- and its last symbol is there
  obtain ⟨-, s₁, hs₁, -⟩ := (hl' ((t.maxIdx w outside).toNat + (l'.length - 1))).mp
    ⟨Nat.le_add_right _ _, Nat.add_lt_add_left (Nat.sub_one_lt_of_lt hpos') _⟩
  have hend := (List.getElem?_eq_some_iff.mp hs₁).1
  exact ⟨l', hchain', hrange', by omega⟩

/-- The loop from the greatest index on ends after the last symbol. -/
theorem chainLoop_count (outside : Int → BitVec 32) (hsome : t.symndx.toNat < syms.length) :
    ∃ l, (∀ m ∈ l, t.symndx.toNat ≤ m.toNat ∧ m.toNat < syms.length) ∧
      ∀ k, l.length ≤ k →
        ((t.chainLoop w outside k (t.maxIdx w outside) []).map fun r => ((r.1 + 1).toNat, r.2)) =
          some (syms.length, l) := by
  obtain ⟨l, hchain, hrange, hend⟩ := chain_reaches_end ht hsmall outside hsome
  have hfirst : t.symndx.toNat ≤ (t.maxIdx w outside).toNat := symndx_le_maxIdx t w outside
  have hmem : ∀ m ∈ l, t.symndx.toNat ≤ m.toNat ∧ m.toNat < syms.length := by
    intro m hm
    have hin := mem_map_of_mem (f := BitVec.toNat) hm
    rw [hrange, mem_range'_1] at hin
    omega
  refine ⟨l, hmem, fun k hk => ?_⟩
  obtain ⟨last, hlast, hloop⟩ := chainLoop_chain outside hchain (fun m hm => (hmem m hm).1) hk []
  have hrangeLast := congrArg List.getLast? hrange
  rw [getLast?_map, hlast, getLast?_range'] at hrangeLast
  have hlastNat : last.toNat + 1 = syms.length := by
    split at hrangeLast
    · cases hrangeLast
    · have heq := Option.some_inj.mp hrangeLast
      omega
  have hcount : (last + 1).toNat = syms.length := by
    rw [BitVec.toNat_add_of_lt]
    · exact hlastNat
    · exact hlastNat ▸ hsmall
  rw [hloop, Option.map_some, hcount, nil_append]

end WellFormed

end Chains

theorem mem_reads {t : GnuHash} {outside : Int → BitVec 32} {k : Nat} {n : BitVec 32}
    {reads : List (BitVec 32)} {r : BitVec 32 × List (BitVec 32)}
    (h : t.chainLoop w outside k n reads = some r) : (∀ m ∈ reads, m ∈ r.2) ∧ n ∈ r.2 := by
  induction k generalizing n reads with
  | zero => cases h
  | succ k ih =>
    rw [GnuHash.chainLoop] at h
    split at h
    · obtain ⟨hkeep, -⟩ := ih h
      exact ⟨fun m hm => hkeep m (mem_append_left _ hm),
        hkeep n (mem_append_right _ mem_cons_self)⟩
    · cases h
      exact ⟨fun m hm => mem_append_left _ hm, mem_append_right _ mem_cons_self⟩

theorem dynsymCount_gnu {t : GnuHash} (hbuckets : t.nbucket ≠ 0) (w : Nat) (outside : Int → BitVec 32)
    (k : Nat) :
    dynsymCount w outside none (some t) k =
      (t.chainLoop w outside k (t.maxIdx w outside) []).map fun r => ((r.1 + 1).toNat, r.2) := by
  rw [dynsymCount, if_neg hbuckets]
  exact if_pos (symndx_le_maxIdx t w outside)

end SymbolCountLemmas

open SymbolCountLemmas

/-- For an image with a well-formed GNU table and no other, the count is right if and only if a
symbol is hashed at all (and the number of symbols is one of 32 bits). -/
theorem symbol_count_right_iff (t : GnuHash) (syms : List (SymEntry w))
    (ht : t.WellFormed (syms.map SymEntry.sym)) (outside : Int → BitVec 32) (img : RelocImage w)
    (beyond : Nat → SymEntry w) :
    (∃ K count reads, (∀ k, K ≤ k → dynsymCount w outside none (some t) k = some (count, reads)) ∧
        CountRight t syms img beyond count reads) ↔
      t.hashed syms ≠ 0 ∧ t.symndx.toNat + t.hashed syms < 2 ^ 32 := by
  simp only [dynsymCount_gnu ht.buckets]
  constructor
  · rintro ⟨K, count, reads, hcount, hright⟩
    have hresult := hcount K (Nat.le_refl K)
    rw [Option.map_eq_some_iff] at hresult
    obtain ⟨r, hloop, hr⟩ := hresult
    obtain ⟨rfl, rfl⟩ := Prod.mk.inj hr
    constructor
    · -- the entry of the greatest index is read in any case
      have hread := hright.inTable _ (mem_reads hloop).2
      omega
    · rw [← hright.exact]
      exact BitVec.isLt _
  · rintro ⟨hsome, hsmall⟩
    have hlen : t.symndx.toNat + t.hashed syms = syms.length := by
      rw [GnuHash.hashed] at hsome ⊢
      omega
    have hlt : t.symndx.toNat < (syms.map SymEntry.sym).length := by
      rw [length_map]
      omega
    rw [hlen] at hsmall
    obtain ⟨l, hmem, hloop⟩ := chainLoop_count ht (by rwa [length_map]) outside hlt
    rw [length_map] at hmem hloop
    refine ⟨l.length, syms.length, l, hloop, ?_, hlen.symm, ?_⟩
    · rw [hlen]
      exact hmem
    · intro addr hin
      refine addrToSym_nearest img syms beyond ?_ hin
      rintro rfl
      exact Nat.not_lt_zero _ hlt

/-- The symbols of the sample table, as functions. -/
def sampleEntries : List (SymEntry 64) := sampleSyms.map fun s => ⟨s, 1, .func⟩

theorem symbol_count_right_iff_sample :
    ∃ K count reads,
      (∀ k, K ≤ k → dynsymCount 64 (fun _ => 0) none (some sampleGnu) k = some (count, reads)) ∧
        CountRight sampleGnu sampleEntries (smallImage 64) (fun _ => ⟨⟨[], true, 0⟩, 0, .other⟩)
          count reads := by
  have ht : sampleGnu.WellFormed (sampleEntries.map SymEntry.sym) := SymbolHashLemmas.sampleGnu_wellFormed
  exact (symbol_count_right_iff sampleGnu sampleEntries ht (fun _ => 0) (smallImage 64) _).mpr
    ⟨by decide, by decide⟩

/-- A table for a library that exports nothing: one empty bucket and no chain. -/
def emptyGnu : GnuHash := ⟨1, 1, 1, 6, [0, 0, 0]⟩

def noEntries : List (SymEntry 64) := [⟨⟨[], true, 0⟩, 0, .other⟩]

/-- The word after the table is taken for a chain entry, and a symbol is counted for it. -/
theorem symbol_count_of_empty_table :
    emptyGnu.WellFormed (noEntries.map SymEntry.sym) ∧ emptyGnu.hashed noEntries = 0 ∧
      dynsymCount 64 (fun _ => 1) none (some emptyGnu) 1 = some (2, [1]) := by
  have hout : ∀ i s, 1 ≤ i → (noEntries.map SymEntry.sym)[i]? ≠ some s := by
    intro i s hi hs
    have hlt : i < 1 := (List.getElem?_eq_some_iff.mp hs).1
    omega
  refine ⟨?_, rfl, rfl⟩
  constructor
  · decide
  · decide
  · decide
  · decide
  · exact fun i s hi hs => absurd hs (hout i s hi)
  · exact fun n s hn hs => absurd hs (hout n.toNat s hn)
  · intro b n hb hn
    have hb' : b < 1 := hb
    obtain rfl : b = 0 := by omega
    have hzero : some 0 = some n := hn
    obtain rfl := Option.some_inj.mp hzero
    rw [if_pos (by decide)]
    refine fun i => iff_of_false ?_ ?_
    · rintro ⟨n, hn, -⟩
      cases hn
    · rintro ⟨hi, s, hs, -⟩
      exact hout i s hi hs

end NyaZygisk
