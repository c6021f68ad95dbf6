import NyaZygisk.Lib.Probing

/-!
# The shared flag table

`zygiskd` keeps the flags of each uid it was asked about in a sealed memfd
(`ShmLayout` of `constants.rs`), and every injected process maps it and probes
it before it asks the daemon (`GetProcessFlags` of `daemon.cpp`). The writer is
Rust, the reader C++; both walk the same 8192 slots with circular linear
probing. This module has both loops as the two files write them, each atomic
access being an ordinary read or write; `FlagReads` interleaves them.
-/

namespace NyaZygisk

/-! ## Layout -/

def shmHashMapSize : Nat := 8192

instance : NeZero shmHashMapSize := ⟨by decide⟩

/-- `u32::MAX` and `UINT32_MAX`: the uid of a free slot. -/
def u32Max : UInt32 := 0xFFFFFFFF

structure ShmEntry where
  uid : UInt32
  flags : UInt32
deriving DecidableEq

structure ShmLayout where
  version : UInt32
  entries : Fin shmHashMapSize → ShmEntry

/-- `x & mask`, with `mask = SHM_HASH_MAP_SIZE - 1`. -/
def maskIndex (x : Nat) : Fin shmHashMapSize :=
  ⟨x &&& (shmHashMapSize - 1), Nat.lt_of_le_of_lt Nat.and_le_right (by decide)⟩

/-- The entries `initialize_shared_memory` and `invalidate_process_flag_cache`
store. -/
def freeEntries : Fin shmHashMapSize → ShmEntry := fun _ => ⟨u32Max, 0⟩

/-- The layout after `initialize_shared_memory`. -/
def initializeSharedMemory : ShmLayout := ⟨0, freeEntries⟩

/-! ## The writer: `zygiskd.rs` -/

/-- The loop of `cache_process_flags`: the entries it leaves and `inserted`, or
`none` if it has not ended within the fuel. -/
def cacheLoop (uid flags : UInt32) (entries : Fin shmHashMapSize → ShmEntry)
    (startIndex : Fin shmHashMapSize) :
    Nat → Fin shmHashMapSize → Option ((Fin shmHashMapSize → ShmEntry) × Bool)
  | 0, _ => none
  | fuel + 1, index =>
    let currentUid := (entries index).uid
    if currentUid = u32Max ∨ currentUid = uid then
      some (Function.update entries index ⟨uid, flags⟩, true)
    else
      let index := maskIndex (index.val + 1)
      if index = startIndex then some (entries, false)
      else cacheLoop uid flags entries startIndex fuel index

/-- `cache_process_flags`. The version steps to odd and on to the next even
value around the loop. -/
def cacheProcessFlags (layout : ShmLayout) (uid flags : UInt32) : ShmLayout :=
  let baseVersion := layout.version
  let index := maskIndex uid.toNat
  let entries := match cacheLoop uid flags layout.entries index shmHashMapSize index with
    | some (entries, _) => entries
    | none => layout.entries
  ⟨baseVersion + 2, entries⟩

def invalidateProcessFlagCache (layout : ShmLayout) : ShmLayout :=
  ⟨layout.version + 2, freeEntries⟩

/-! ## The reader: `daemon.cpp` -/

/-- The `do`-`while` loop of `GetProcessFlags`: the flags it found, if any, or
the outer `none` if it has not ended within the fuel. -/
def probeLoop (entries : Fin shmHashMapSize → ShmEntry) (uid : UInt32)
    (start : Fin shmHashMapSize) : Nat → Fin shmHashMapSize → Option (Option UInt32)
  | 0, _ => none
  | fuel + 1, index =>
    let currentUid := (entries index).uid
    if currentUid = uid then some (some (entries index).flags)
    else if currentUid = u32Max then some none
    else
      let index := maskIndex (index.val + 1)
      if index ≠ start then probeLoop entries uid start fuel index else some none

/-- The shared-memory half of `GetProcessFlags`, between writes: the cached
flags it returns, or `none` when it goes on to ask the daemon. -/
def readCachedFlags (layout : ShmLayout) (uid : UInt32) : Option (Option UInt32) :=
  let versionBefore := layout.version
  if versionBefore &&& 1 = 0 then
    let index := maskIndex uid.toNat
    match probeLoop layout.entries uid index shmHashMapSize index with
    | none => none
    | some none => some none
    | some (some cachedFlags) =>
      let versionAfter := layout.version
      if versionBefore = versionAfter then some (some cachedFlags) else some none
  else some none

/-! ## The layout as a probing table -/

/-- The slots as the library sees them: the sentinel uid is a free slot. -/
def view (entries : Fin shmHashMapSize → ShmEntry) : Probing.Table shmHashMapSize UInt32 UInt32 :=
  fun i => if (entries i).uid = u32Max then none else some ((entries i).uid, (entries i).flags)

def homeSlot (uid : UInt32) : Fin shmHashMapSize := maskIndex uid.toNat

namespace SharedFlagsLemmas

open Probing

theorem maskIndex_val (x : Nat) : (maskIndex x).val = x % shmHashMapSize :=
  Nat.and_two_pow_sub_one_eq_mod x 13

theorem maskIndex_succ (i : Fin shmHashMapSize) : maskIndex (i.val + 1) = i + 1 := by
  apply Fin.ext
  rw [maskIndex_val, Fin.val_add]
  rfl

variable {entries : Fin shmHashMapSize → ShmEntry} {uid : UInt32}

theorem view_eq_none {i : Fin shmHashMapSize} :
    view entries i = none ↔ (entries i).uid = u32Max := by
  unfold view
  split <;> simp_all

theorem stopsAt_view
    {i : Fin shmHashMapSize} :
    stopsAt (view entries) uid i = true ↔ (entries i).uid = u32Max ∨ (entries i).uid = uid := by
  unfold stopsAt view
  by_cases h : (entries i).uid = u32Max
  · simp [h]
  · simp [h]

theorem stopsAt_view_false
    {i : Fin shmHashMapSize} :
    stopsAt (view entries) uid i = false ↔ (entries i).uid ≠ u32Max ∧ (entries i).uid ≠ uid := by
  rw [← Bool.not_eq_true, stopsAt_view, not_or]

theorem view_update {flags : UInt32}
    (huid : uid ≠ u32Max) (i : Fin shmHashMapSize) :
    view (Function.update entries i ⟨uid, flags⟩) =
      Function.update (view entries) i (some (uid, flags)) := by
  funext j
  by_cases h : j = i
  · subst h; simp [view, huid]
  · simp [view, h]

theorem view_free : view freeEntries = fun _ => none := by
  funext i
  simp [view, freeEntries]

/-- The reader's loop is the library's walk, followed by a look at the slot it
ended on. -/
theorem probeLoop_eq_walk
    (start : Fin shmHashMapSize) (fuel : Nat) (i : Fin shmHashMapSize) :
    probeLoop entries uid start fuel i =
      (walk (stopsAt (view entries) uid) start fuel i).map
        (fun r => r.bind fun j => if (entries j).uid = uid then some (entries j).flags else none) := by
  induction fuel generalizing i with
  | zero => rfl
  | succ fuel ih =>
    unfold probeLoop walk
    by_cases hown : (entries i).uid = uid
    · simp [hown, stopsAt_view.mpr (.inr hown)]
    by_cases hfree : (entries i).uid = u32Max
    · have hother : u32Max ≠ uid := fun h => hown (hfree.trans h)
      simp [hfree, hother, stopsAt_view.mpr (.inl hfree)]
    · have hgo : stopsAt (view entries) uid i = false := stopsAt_view_false.mpr ⟨hfree, hown⟩
      simp only [hown, hfree, hgo, if_false, maskIndex_succ, Bool.false_eq_true]
      by_cases hback : i + 1 = start
      · simp [hback]
      · simp only [ne_eq, hback, not_false_eq_true, if_true, if_false]
        exact ih (i + 1)

/-- The writer's loop is the same walk, followed by a store to the slot it
ended on. -/
theorem cacheLoop_eq_walk {flags : UInt32}
    (start : Fin shmHashMapSize) (fuel : Nat) (i : Fin shmHashMapSize) :
    cacheLoop uid flags entries start fuel i =
      (walk (stopsAt (view entries) uid) start fuel i).map fun r => match r with
        | some j => (Function.update entries j ⟨uid, flags⟩, true)
        | none => (entries, false) := by
  induction fuel generalizing i with
  | zero => rfl
  | succ fuel ih =>
    unfold cacheLoop walk
    by_cases hstop : (entries i).uid = u32Max ∨ (entries i).uid = uid
    · simp [hstop, stopsAt_view.mpr hstop]
    · have hgo : stopsAt (view entries) uid i = false := by
        rw [← Bool.not_eq_true, stopsAt_view]; exact hstop
      simp only [hstop, hgo, if_false, maskIndex_succ, Bool.false_eq_true]
      by_cases hback : i + 1 = start
      · simp [hback]
      · simp only [hback, if_false]
        exact ih (i + 1)

/-- The reader's loop ends within one round of the table, whatever the uid. -/
theorem probeLoop_ends (entries : Fin shmHashMapSize → ShmEntry) (uid : UInt32)
    (start : Fin shmHashMapSize) :
    ∃ r, probeLoop entries uid start shmHashMapSize start = some r := by
  rw [probeLoop_eq_walk, walk_eq]
  exact ⟨_, rfl⟩

/-- For a uid other than the sentinel, what it finds is what the library's
lookup finds. -/
theorem probeLoop_eq
    (huid : uid ≠ u32Max) :
    probeLoop entries uid (homeSlot uid) shmHashMapSize (homeSlot uid) =
      some (lookup homeSlot (view entries) uid) := by
  rw [probeLoop_eq_walk, walk_eq]
  unfold lookup probe
  cases hfirst : firstStop (stopsAt (view entries) uid) (homeSlot uid) with
  | none => rfl
  | some d =>
    obtain ⟨_, hstop, _⟩ := firstStop_eq_some_iff.mp hfirst
    simp only [Option.map_some, Option.bind_some]
    rcases stopsAt_view.mp hstop with hfree | hown
    · rw [view_eq_none.mpr hfree, if_neg (fun h => huid (h.symm.trans hfree))]
      rfl
    · simp [view, hown, huid]

/-- The writer's loop ends within one round of the table. -/
theorem cacheLoop_eq (entries : Fin shmHashMapSize → ShmEntry) (uid flags : UInt32) :
    cacheLoop uid flags entries (homeSlot uid) shmHashMapSize (homeSlot uid) =
      some (match probe homeSlot (view entries) uid with
        | some d => (Function.update entries (slotAt (homeSlot uid) d) ⟨uid, flags⟩, true)
        | none => (entries, false)) := by
  rw [cacheLoop_eq_walk, walk_eq]
  unfold probe
  cases firstStop (stopsAt (view entries) uid) (homeSlot uid) <;> rfl

/-- `cache_process_flags` is a store. -/
theorem view_cache (layout : ShmLayout) (huid : uid ≠ u32Max) (flags : UInt32) :
    view (cacheProcessFlags layout uid flags).entries =
      store homeSlot (view layout.entries) uid flags := by
  have hloop := cacheLoop_eq layout.entries uid flags
  unfold cacheProcessFlags store
  simp only [homeSlot] at hloop ⊢
  rw [hloop]
  cases probe homeSlot (view layout.entries) uid with
  | none => rfl
  | some d => exact view_update huid _

/-- `invalidate_process_flag_cache` is a clear. -/
theorem view_invalidate (layout : ShmLayout) :
    view (invalidateProcessFlagCache layout).entries = fun _ => none := view_free

/-- Between writes the reader is a lookup. -/
theorem readCachedFlags_eq {layout : ShmLayout} (heven : layout.version &&& 1 = 0) (huid : uid ≠ u32Max) :
    readCachedFlags layout uid = some (lookup homeSlot (view layout.entries) uid) := by
  have hloop : probeLoop layout.entries uid _ _ _ = _ := probeLoop_eq huid
  unfold readCachedFlags
  simp only [homeSlot] at hloop
  simp only [heven, if_true, hloop]
  cases lookup homeSlot (view layout.entries) uid <;> rfl

/-- The two version stores of a write step over one odd value. -/
theorem even_add_two {v : UInt32} (h : v &&& 1 = 0) : (v + 2) &&& 1 = 0 := by
  rw [← UInt32.toNat_inj] at h ⊢
  simp only [UInt32.toNat_and, UInt32.toNat_add, UInt32.reduceToNat, Nat.and_one_is_mod] at h ⊢
  omega

end SharedFlagsLemmas

/-! ## Any sequence of writes -/

inductive FlagOp
  | cache (uid flags : UInt32)
  | invalidate
deriving DecidableEq

/-- One write, with the lock held throughout. -/
def FlagOp.apply (layout : ShmLayout) : FlagOp → ShmLayout
  | .cache uid flags => cacheProcessFlags layout uid flags
  | .invalidate => invalidateProcessFlagCache layout

/-- The table after a sequence of writes to the initialized one. -/
def runFlagOps (ops : List FlagOp) : ShmLayout := ops.foldl FlagOp.apply initializeSharedMemory

/-- `flags` is what `cache_process_flags` stored last for `uid`, with no
invalidation after it. -/
def LastCached (ops : List FlagOp) (uid flags : UInt32) : Prop :=
  ∃ pre post, ops = pre ++ .cache uid flags :: post ∧
    .invalidate ∉ post ∧ ∀ flags', .cache uid flags' ∉ post

def AllSlotsTaken (layout : ShmLayout) (uid : UInt32) : Prop :=
  ∀ i, (layout.entries i).uid ≠ u32Max ∧ (layout.entries i).uid ≠ uid

namespace SharedFlagsLemmas

open Probing

def toOp : FlagOp → Probing.Op UInt32 UInt32
  | .cache uid flags => .store uid flags
  | .invalidate => .clear

theorem toOp_inj {o o' : FlagOp} (h : toOp o = toOp o') : o = o' := by
  cases o <;> cases o' <;> simp_all [toOp]

theorem mem_of_toOp_mem {o : FlagOp} {ops : List FlagOp} (h : toOp o ∈ ops.map toOp) : o ∈ ops := by
  obtain ⟨o', ho', he⟩ := List.mem_map.mp h
  rwa [← toOp_inj he]

theorem runFlagOps_append_one (ops : List FlagOp) (o : FlagOp) :
    runFlagOps (ops ++ [o]) = FlagOp.apply (runFlagOps ops) o := by
  simp [runFlagOps]

theorem runFlagOps_even (ops : List FlagOp) : (runFlagOps ops).version &&& 1 = 0 := by
  induction ops using List.reverseRecOn with
  | nil => rfl
  | append_singleton ops o ih =>
    rw [runFlagOps_append_one]
    cases o with
    | cache uid flags | invalidate => exact even_add_two ih

/-- The layout refines the library's table along every sequence of writes. -/
theorem view_runFlagOps {ops : List FlagOp}
    (hops : ∀ uid flags, .cache uid flags ∈ ops → uid ≠ u32Max) :
    view (runFlagOps ops).entries = run homeSlot (ops.map toOp) := by
  induction ops using List.reverseRecOn with
  | nil => exact view_free
  | append_singleton ops o ih =>
    have ih' := ih fun uid flags h => hops uid flags (List.mem_append_left _ h)
    rw [runFlagOps_append_one, List.map_append, List.map_singleton, run_append_one, ← ih']
    cases o with
    | cache uid flags =>
      exact view_cache _ (hops uid flags (List.mem_append_right _ List.mem_cons_self)) flags
    | invalidate => exact view_invalidate _

theorem lastCached_of_isLastStore {ops : List FlagOp} {uid flags : UInt32}
    (h : IsLastStore (ops.map toOp) uid flags) : LastCached ops uid flags := by
  obtain ⟨pre, post, he, hclear, hstore⟩ := h
  obtain ⟨pre', rest, rfl, rfl, hrest⟩ := List.map_eq_append_iff.mp he
  obtain ⟨o, post', rfl, ho, rfl⟩ := List.map_eq_cons_iff.mp hrest
  have hcache : o = .cache uid flags := toOp_inj ho
  subst hcache
  refine ⟨pre', post', rfl, fun hm => hclear (List.mem_map_of_mem hm), fun w hm => ?_⟩
  exact hstore w (List.mem_map_of_mem hm)

theorem allSlotsTaken_of_full {layout : ShmLayout} {uid : UInt32}
    (h : Full (view layout.entries) uid) : AllSlotsTaken layout uid := by
  intro i
  exact stopsAt_view_false.mp (stopsAt_eq_false.mpr (h i))

theorem full_of_allSlotsTaken {layout : ShmLayout} {uid : UInt32}
    (h : AllSlotsTaken layout uid) : Full (view layout.entries) uid := by
  intro i
  exact stopsAt_eq_false.mp (stopsAt_view_false.mpr (h i))

/-- `cache_process_flags` stores its entry in one slot, or finds all taken and
stores nothing. -/
theorem cache_cases (layout : ShmLayout) (uid flags : UInt32) :
    (AllSlotsTaken layout uid ∧ (cacheProcessFlags layout uid flags).entries = layout.entries) ∨
    (¬ AllSlotsTaken layout uid ∧ ∃ i, (cacheProcessFlags layout uid flags).entries =
      Function.update layout.entries i ⟨uid, flags⟩) := by
  have hloop := cacheLoop_eq layout.entries uid flags
  unfold cacheProcessFlags
  simp only [homeSlot] at hloop ⊢
  rw [hloop]
  cases hprobe : probe homeSlot (view layout.entries) uid with
  | none => exact .inl ⟨allSlotsTaken_of_full (probe_eq_none_iff.mp hprobe), rfl⟩
  | some d =>
    refine .inr ⟨fun htaken => ?_, _, rfl⟩
    rw [probe_eq_none_iff.mpr (full_of_allSlotsTaken htaken)] at hprobe
    cases hprobe

end SharedFlagsLemmas

open SharedFlagsLemmas

/-- The shared table is a correct map. After every sequence of writes with uids
other than the sentinel, the reader's probe for any such uid ends; a hit carries
the flags cached last for that very uid since the last invalidation; and on a
miss, every attempt to cache the uid since then met a table whose slots were all
taken by other uids (there was none, if the uid was never cached). -/
theorem shared_flag_table_is_map (ops : List FlagOp)
    (hops : ∀ uid flags, .cache uid flags ∈ ops → uid ≠ u32Max)
    (uid : UInt32) (huid : uid ≠ u32Max) :
    ∃ r, readCachedFlags (runFlagOps ops) uid = some r ∧
      (∀ flags, r = some flags → LastCached ops uid flags) ∧
      (r = none → ∀ pre post flags, ops = pre ++ .cache uid flags :: post →
        .invalidate ∉ post → AllSlotsTaken (runFlagOps pre) uid) := by
  refine ⟨_, readCachedFlags_eq (runFlagOps_even ops) huid, ?_, ?_⟩
  · intro flags hhit
    rw [view_runFlagOps hops] at hhit
    exact lastCached_of_isLastStore (Probing.run_lookup_some hhit)
  · intro hmiss pre post flags he hinval
    rw [view_runFlagOps hops] at hmiss
    have hpre : ∀ u f, .cache u f ∈ pre → u ≠ u32Max := fun u f h =>
      hops u f (he ▸ List.mem_append_left _ h)
    apply allSlotsTaken_of_full
    rw [view_runFlagOps hpre]
    refine Probing.run_lookup_none hmiss (pre.map toOp) (post.map toOp) flags ?_ ?_
    · rw [he, List.map_append, List.map_cons]; rfl
    · exact fun hm => hinval (mem_of_toOp_mem (o := .invalidate) hm)

/-- The map at work on two uids with one home slot, the first cached twice. -/
theorem shared_flag_table_is_map_colliding :
    readCachedFlags (runFlagOps [.cache 10001 1, .cache 18193 2, .cache 10001 4]) 10001 =
        some (some 4) ∧
      LastCached [.cache 10001 1, .cache 18193 2, .cache 10001 4] 10001 4 := by
  have hread : readCachedFlags (runFlagOps [.cache 10001 1, .cache 18193 2, .cache 10001 4]) 10001 =
      some (some 4) := by decide
  obtain ⟨r, hr, hhit, _⟩ := shared_flag_table_is_map
    [.cache 10001 1, .cache 18193 2, .cache 10001 4]
    (by intro uid flags h; simp at h; rcases h with ⟨rfl, _⟩ | ⟨rfl, _⟩ | ⟨rfl, _⟩ <;> decide)
    10001 (by decide)
  rw [hread] at hr
  cases hr
  exact ⟨hread, hhit 4 rfl⟩

/-! ## Well-formed tables -/

/-- What every sequence of writes keeps: no write is open, no probe sequence has
a gap, and a free slot carries no flags. -/
structure TableOk (layout : ShmLayout) : Prop where
  even : layout.version &&& 1 = 0
  noGap : Probing.Inv homeSlot (view layout.entries)
  free : ∀ i, (layout.entries i).uid = u32Max → (layout.entries i).flags = 0

/-- The shared-memory half of `GetProcessFlags` returns these flags. -/
def Hit (layout : ShmLayout) (uid flags : UInt32) : Prop :=
  readCachedFlags layout uid = some (some flags)

instance (layout : ShmLayout) (uid flags : UInt32) : Decidable (Hit layout uid flags) :=
  inferInstanceAs (Decidable (_ = _))

namespace SharedFlagsLemmas

open Probing

theorem tableOk_init : TableOk initializeSharedMemory := by
  refine ⟨rfl, ?_, fun i _ => rfl⟩
  have hview : view initializeSharedMemory.entries = fun _ => none := view_free
  rw [hview]
  exact inv_empty

variable {layout : ShmLayout} {flags uid : UInt32}

theorem tableOk_cache (h : TableOk layout) (huid : uid ≠ u32Max)
    (flags : UInt32) : TableOk (cacheProcessFlags layout uid flags) := by
  refine ⟨even_add_two h.even, ?_, fun i hi => ?_⟩
  · rw [view_cache layout huid]
    exact inv_store h.noGap uid flags
  · rcases cache_cases layout uid flags with ⟨_, hsame⟩ | ⟨_, j, hupd⟩
    · rw [hsame] at hi ⊢
      exact h.free i hi
    · rw [hupd] at hi ⊢
      by_cases hij : i = j
      · subst hij
        rw [Function.update_self] at hi
        exact absurd hi huid
      · rw [Function.update_of_ne hij] at hi ⊢
        exact h.free i hi

theorem tableOk_invalidate (h : TableOk layout) :
    TableOk (invalidateProcessFlagCache layout) := by
  refine ⟨even_add_two h.even, ?_, fun i _ => rfl⟩
  rw [view_invalidate]
  exact inv_empty

theorem hit_iff (h : TableOk layout)
    (huid : uid ≠ u32Max) :
    Hit layout uid flags ↔ Probing.lookup homeSlot (view layout.entries) uid = some flags := by
  unfold Hit
  rw [readCachedFlags_eq h.even huid]
  exact ⟨Option.some.inj, congrArg some⟩

/-- The sentinel uid matches the first free slot, so it is told that no flag is
set. -/
theorem hit_sentinel (h : TableOk layout)
    (hhit : Hit layout u32Max flags) : flags = 0 := by
  simp only [Hit, readCachedFlags, h.even, if_true] at hhit
  rw [probeLoop_eq_walk, walk_eq] at hhit
  cases hstop : firstStop (stopsAt (view layout.entries) u32Max) (maskIndex u32Max.toNat) with
  | none => rw [hstop] at hhit; cases hhit
  | some d =>
    rw [hstop] at hhit
    simp only [Option.map_some, Option.bind_some] at hhit
    split at hhit
    · next hloop => cases hloop
    · next hloop => cases hhit
    · next hloop =>
      split at hloop
      · next hfree =>
        cases hhit
        rw [← Option.some.inj (Option.some.inj hloop)]
        exact h.free _ hfree
      · cases hloop

/-- A hit after `cache_process_flags` is the new entry, or a hit of before. -/
theorem hit_cache (h : TableOk layout) {uid' flags' : UInt32}
    (huid : uid ≠ u32Max) (huid' : uid' ≠ u32Max)
    (hhit : Hit (cacheProcessFlags layout uid flags) uid' flags') :
    (uid' = uid ∧ flags' = flags) ∨ (uid' ≠ uid ∧ Hit layout uid' flags') := by
  rw [hit_iff (tableOk_cache h huid flags) huid', view_cache layout huid] at hhit
  by_cases hsame : uid' = uid
  · subst hsame
    by_cases hfull : Full (view layout.entries) uid'
    · rw [store_of_full hfull, lookup_of_full hfull] at hhit
      cases hhit
    · rw [lookup_store_self h.noGap hfull] at hhit
      exact .inl ⟨rfl, (Option.some.inj hhit).symm⟩
  · rw [lookup_store_other h.noGap hsame] at hhit
    exact .inr ⟨hsame, (hit_iff h huid').mpr hhit⟩

/-- After an invalidation only the sentinel uid hits. -/
theorem hit_invalidate (h : TableOk layout)
    (hhit : Hit (invalidateProcessFlagCache layout) uid flags) : uid = u32Max := by
  by_contra huid
  rw [hit_iff (tableOk_invalidate h) huid, view_invalidate, lookup_empty] at hhit
  cases hhit

end SharedFlagsLemmas

end NyaZygisk
