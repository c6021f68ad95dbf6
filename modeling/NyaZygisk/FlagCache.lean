import NyaZygisk.Lib.Runs
import NyaZygisk.SharedFlags
import NyaZygisk.Exclude

/-!
# Handlers, the configuration and its watcher

The daemon answers each `GetProcessFlags` in a thread of its own: it computes
the flags, replies, and stores them in the shared table. One more thread, the
config watcher, flushes the table when `config.prop` has a new modification
time. No lock is held from the one step of a handler to the next, so the steps
of all threads and the rewrites of the files interleave freely.

Two fields of the state are only there to be reasoned about: `origin` names the
`config.prop` that the flags last cached under a uid were computed from, and
`flushedFor` the modification time the watcher last flushed for.
-/

namespace NyaZygisk

open List Runs SharedFlagsLemmas

/-! ## Process flags -/

namespace ProcessFlags

def grantedRoot : UInt32 := (1 : UInt32) <<< 0
def onDenylist : UInt32 := (1 : UInt32) <<< 1
def excluded : UInt32 := (1 : UInt32) <<< 26
def isManager : UInt32 := (1 : UInt32) <<< 27
def rootIsApatch : UInt32 := (1 : UInt32) <<< 28
def rootIsKsu : UInt32 := (1 : UInt32) <<< 29
def rootIsMagisk : UInt32 := (1 : UInt32) <<< 30

end ProcessFlags

inductive RootImpl
  | none
  | tooOld
  | multiple
  | aPatch
  | kernelSU
  | magisk
deriving DecidableEq

/-- What `root_impl` answers about one uid. -/
structure RootAnswers where
  rootImpl : RootImpl
  uidIsManager : Bool
  uidGrantedRoot : Bool
  uidShouldUmount : Bool
deriving DecidableEq

/-- The bit for the root solution in charge. -/
def RootImpl.flag : RootImpl → UInt32
  | .aPatch => ProcessFlags.rootIsApatch
  | .kernelSU => ProcessFlags.rootIsKsu
  | .magisk => ProcessFlags.rootIsMagisk
  | _ => 0

/-- The bits for an answer of `exclude::lookup`. -/
def excludeFlags : Option Bool → UInt32
  | none => 0
  | some unmount =>
    if unmount then ProcessFlags.excluded ||| ProcessFlags.onDenylist else ProcessFlags.excluded

/-- The flags `handle_get_process_flags` puts together. -/
def processFlags (root : RootAnswers) (exclude : Option Bool) : UInt32 :=
  (if root.uidIsManager then ProcessFlags.isManager
    else (if root.uidGrantedRoot then ProcessFlags.grantedRoot else 0) |||
      (if root.uidShouldUmount then ProcessFlags.onDenylist else 0) ||| excludeFlags exclude) |||
    root.rootImpl.flag

/-- `uid as i32` is not negative. -/
def nonnegative (uid : UInt32) : Bool := uid < 0x80000000

/-- The call of `exclude::lookup` in `handle_get_process_flags`, which a manager
and a negative uid do not get to: its answer, and `STATE` after it. -/
def askExclude (root : RootAnswers) (guard : Option Exclude.State) (files : Exclude.Files)
    (uid : UInt32) : Option Bool × Option Exclude.State :=
  if root.uidIsManager then (none, guard)
  else if nonnegative uid then Exclude.lookup guard files uid
  else (none, guard)

/-- That call reads the files. -/
def readsConfig (root : RootAnswers) (uid : UInt32) : Bool :=
  !root.uidIsManager && nonnegative uid && Exclude.isAppId (uid % Exclude.perUserRange)

/-! ## The threads -/

/-- Where a thread in `handle_get_process_flags` stands. `config` is the file its
flags were computed from, if they depend on it. -/
inductive HandlerPhase
  | idle
  /-- `exclude::lookup` has answered; the reply is next. -/
  | looked (uid flags : UInt32) (config : Option Exclude.FileState)
  /-- The reply is sent; `cache_process_flags` is next. -/
  | replied (uid flags : UInt32) (config : Option Exclude.FileState)
deriving DecidableEq

/-- Where the config watcher stands, with its `last`. -/
inductive WatcherPhase
  /-- `last` has not been read yet. -/
  | starting
  | sleeping (last : Option Nat)
  /-- The modification time differed; `exclude::refresh` is next. -/
  | noticed (last : Option Nat)
  /-- `invalidate_process_flag_cache` is next. -/
  | refreshed (last : Option Nat)
deriving DecidableEq

structure FlagSystem where
  files : Exclude.Files
  /-- The modification times each file has had, the current one included. -/
  configTimes : List (Option Nat)
  listTimes : List (Option Nat)
  /-- `STATE` of `exclude.rs`. -/
  exclude : Option Exclude.State
  layout : ShmLayout
  origin : UInt32 → Option Exclude.FileState
  handlers : Nat → HandlerPhase
  watcher : WatcherPhase
  flushedFor : Option (Option Nat)

/-- The daemon as it starts to listen, with the files as they are. -/
def FlagSystem.init (files : Exclude.Files) : FlagSystem where
  files := files
  configTimes := [files.config.mtime]
  listTimes := [files.list.mtime]
  exclude := none
  layout := initializeSharedMemory
  origin := fun _ => none
  handlers := fun _ => .idle
  watcher := .starting
  flushedFor := none

inductive FlagStep
  /-- Thread `id` takes a request of a root peer for `uid` and computes its flags. -/
  | lookup (id : Nat) (uid : UInt32) (root : RootAnswers)
  /-- Thread `id` writes its reply; on an error it ends there. -/
  | reply (id : Nat) (written : Bool)
  /-- Thread `id` stores the flags and ends. -/
  | cache (id : Nat)
  | rewriteConfig (mtime : Nat) (text : Option String)
  | rewriteList (mtime : Nat) (text : Option String)
  | watcherStart
  /-- The watcher wakes and compares the modification time. -/
  | watcherPoll
  | watcherRefresh
  | watcherInvalidate
deriving DecidableEq

def FlagSystem.setHandler (s : FlagSystem) (id : Nat) (phase : HandlerPhase) : FlagSystem :=
  { s with handlers := Function.update s.handlers id phase }

/-- `exclude::lookup` and the flags that follow from it. -/
def FlagSystem.lookup (s : FlagSystem) (id : Nat) (uid : UInt32) (root : RootAnswers) : FlagSystem :=
  let answer := askExclude root s.exclude s.files uid
  { s with exclude := answer.2 }.setHandler id
    (.looked uid (processFlags root answer.1) (if readsConfig root uid then some s.files.config else none))

/-- The end of a handler: a uid that is not negative is cached. -/
def FlagSystem.cache (s : FlagSystem) (id : Nat) (uid flags : UInt32)
    (config : Option Exclude.FileState) : FlagSystem :=
  if nonnegative uid then
    { s with layout := cacheProcessFlags s.layout uid flags,
             origin := Function.update s.origin uid config }.setHandler id .idle
  else s.setHandler id .idle

def FlagSystem.rewriteConfig (s : FlagSystem) (mtime : Nat) (text : Option String) : FlagSystem :=
  { s with files := { s.files with config := ⟨some mtime, text⟩ },
           configTimes := some mtime :: s.configTimes }

def FlagSystem.rewriteList (s : FlagSystem) (mtime : Nat) (text : Option String) : FlagSystem :=
  { s with files := { s.files with list := ⟨some mtime, text⟩ },
           listTimes := some mtime :: s.listTimes }

/-- The next step of a thread, or a rewrite of a file, which always gives it a
modification time it has not had before. -/
def FlagSystem.step (s : FlagSystem) : FlagStep → Option FlagSystem
  | .lookup id uid root =>
    match s.handlers id with
    | .idle => some (s.lookup id uid root)
    | _ => none
  | .reply id written =>
    match s.handlers id with
    | .looked uid flags config =>
      some (s.setHandler id (if written then .replied uid flags config else .idle))
    | _ => none
  | .cache id =>
    match s.handlers id with
    | .replied uid flags config => some (s.cache id uid flags config)
    | _ => none
  | .rewriteConfig mtime text =>
    if some mtime ∈ s.configTimes then none
    else some (s.rewriteConfig mtime text)
  | .rewriteList mtime text =>
    if some mtime ∈ s.listTimes then none
    else some (s.rewriteList mtime text)
  | .watcherStart =>
    match s.watcher with
    | .starting => some { s with watcher := .sleeping s.files.config.mtime }
    | _ => none
  | .watcherPoll =>
    match s.watcher with
    | .sleeping last =>
      let current := s.files.config.mtime
      some { s with watcher := if current ≠ last then .noticed current else .sleeping last }
    | _ => none
  | .watcherRefresh =>
    match s.watcher with
    | .noticed last =>
      some { s with exclude := Exclude.refresh s.exclude s.files, watcher := .refreshed last }
    | _ => none
  | .watcherInvalidate =>
    match s.watcher with
    | .refreshed last =>
      some { s with layout := invalidateProcessFlagCache s.layout, watcher := .sleeping last,
                    flushedFor := some last }
    | _ => none

def FlagSystem.Step (s : FlagSystem) (i : FlagStep) (t : FlagSystem) : Prop := s.step i = some t

/-- The watcher has finished the iteration that noticed the `config.prop` now in
place. -/
def FlagSystem.Flushed (s : FlagSystem) : Prop := s.flushedFor = some s.files.config.mtime

/-- No entry of the table carries bits computed from an earlier `config.prop`. -/
def NoStaleEntry (s : FlagSystem) : Prop :=
  ∀ i, (s.layout.entries i).uid ≠ u32Max → ∀ config,
    s.origin (s.layout.entries i).uid = some config → config = s.files.config

/-- The step does not store flags computed from an earlier `config.prop` in a
table flushed for the current one, unless all slots are taken. -/
def NotOutlasted (s : FlagSystem) : FlagStep → Prop
  | .cache id => ∀ uid flags config, s.handlers id = .replied uid flags (some config) →
    s.Flushed → config = s.files.config ∨ AllSlotsTaken s.layout uid
  | _ => True

instance (s : FlagSystem) : Decidable s.Flushed := inferInstanceAs (Decidable (_ = _))

instance (layout : ShmLayout) (uid : UInt32) : Decidable (AllSlotsTaken layout uid) :=
  inferInstanceAs (Decidable (∀ _, _))

instance (s : FlagSystem) (i : FlagStep) : Decidable (NotOutlasted s i) :=
  match i with
  | .cache id =>
    match h : s.handlers id with
    | .replied uid _ (some config) =>
      decidable_of_iff (s.Flushed → config = s.files.config ∨ AllSlotsTaken s.layout uid)
        ⟨fun hok _ _ _ hphase => by rw [h] at hphase; cases hphase; exact hok,
          fun hok => hok _ _ _ h⟩
    | .replied _ _ none => .isTrue fun _ _ _ hphase => by rw [h] at hphase; cases hphase
    | .idle => .isTrue fun _ _ _ hphase => by rw [h] at hphase; cases hphase
    | .looked _ _ _ => .isTrue fun _ _ _ hphase => by rw [h] at hphase; cases hphase
  | .lookup _ _ _ | .reply _ _ | .rewriteConfig _ _ | .rewriteList _ _ | .watcherStart
  | .watcherPoll | .watcherRefresh | .watcherInvalidate => .isTrue trivial

namespace FlagCacheLemmas

/-- The modification time the watcher compares with. -/
def lastSeen : WatcherPhase → Option (Option Nat)
  | .starting => none
  | .sleeping last | .noticed last | .refreshed last => some last

inductive StepCase (s : FlagSystem) : FlagStep → FlagSystem → Prop
  | lookup {id : Nat} {uid : UInt32} {root : RootAnswers} : s.handlers id = .idle →
      StepCase s (.lookup id uid root) (s.lookup id uid root)
  | reply {id : Nat} {written : Bool} {uid flags : UInt32} {config : Option Exclude.FileState} :
      s.handlers id = .looked uid flags config → StepCase s (.reply id written)
        (s.setHandler id (if written then .replied uid flags config else .idle))
  | cache {id : Nat} {uid flags : UInt32} {config : Option Exclude.FileState} :
      s.handlers id = .replied uid flags config →
      StepCase s (.cache id) (s.cache id uid flags config)
  | rewriteConfig {mtime : Nat} {text : Option String} : some mtime ∉ s.configTimes →
      StepCase s (.rewriteConfig mtime text) (s.rewriteConfig mtime text)
  | rewriteList {mtime : Nat} {text : Option String} : some mtime ∉ s.listTimes →
      StepCase s (.rewriteList mtime text) (s.rewriteList mtime text)
  | watch {i : FlagStep} {watcher : WatcherPhase} : i = .watcherStart ∨ i = .watcherPoll →
      lastSeen watcher = lastSeen s.watcher ∨ lastSeen watcher = some s.files.config.mtime →
      StepCase s i { s with watcher := watcher }
  | refresh {last : Option Nat} : s.watcher = .noticed last →
      StepCase s .watcherRefresh
        { s with exclude := Exclude.refresh s.exclude s.files, watcher := .refreshed last }
  | invalidate {last : Option Nat} : s.watcher = .refreshed last →
      StepCase s .watcherInvalidate
        { s with layout := invalidateProcessFlagCache s.layout, watcher := .sleeping last,
                 flushedFor := some last }

variable {i : FlagStep} {s t : FlagSystem} {uid : UInt32}

theorem step_cases (h : s.Step i t) : StepCase s i t := by
  unfold FlagSystem.Step FlagSystem.step at h
  cases i with
  | lookup id uid root =>
    simp only at h
    split at h <;> cases h
    next hphase => exact .lookup hphase
  | reply id written =>
    simp only at h
    split at h <;> cases h
    next hphase => exact .reply hphase
  | cache id =>
    simp only at h
    split at h <;> cases h
    next hphase => exact .cache hphase
  | rewriteConfig mtime text =>
    simp only at h
    split at h <;> cases h
    next hnew => exact .rewriteConfig hnew
  | rewriteList mtime text =>
    simp only at h
    split at h <;> cases h
    next hnew => exact .rewriteList hnew
  | watcherStart =>
    simp only at h
    split at h <;> cases h
    exact .watch (.inl rfl) (.inr rfl)
  | watcherPoll =>
    simp only at h
    split at h <;> cases h
    next hphase =>
    refine .watch (.inr rfl) ?_
    split
    · exact .inr rfl
    · rw [hphase]; exact .inl rfl
  | watcherRefresh =>
    simp only at h
    split at h <;> cases h
    next hphase => exact .refresh hphase
  | watcherInvalidate =>
    simp only at h
    split at h <;> cases h
    next hphase => exact .invalidate hphase

/-- The uid a thread works for, its flags, and the file they depend on. -/
def held : HandlerPhase → Option (UInt32 × UInt32 × Option Exclude.FileState)
  | .idle => none
  | .looked uid flags config | .replied uid flags config => some (uid, flags, config)

/-- What holds in every state reached: the modification times that were read are
among those the files have had, `STATE` and the table are well formed, and only
the flags of a uid that is not negative depend on `config.prop`. -/
structure Orderly (s : FlagSystem) : Prop where
  current : s.files.config.mtime ∈ s.configTimes
  currentList : s.files.list.mtime ∈ s.listTimes
  seen : ∀ last, lastSeen s.watcher = some last → last ∈ s.configTimes
  flushed : ∀ last, s.flushedFor = some last → last ∈ s.configTimes
  loaded : Exclude.LoadedAt s.exclude (· ∈ s.configTimes) (· ∈ s.listTimes)
  sound : Exclude.Sound s.exclude s.files
  table : TableOk s.layout
  depends : ∀ id uid flags config, held (s.handlers id) = some (uid, flags, some config) →
    nonnegative uid = true

theorem orderly_init (files : Exclude.Files) : Orderly (.init files) where
  current := mem_cons_self
  currentList := mem_cons_self
  seen := nofun
  flushed := nofun
  loaded := nofun
  sound := nofun
  table := tableOk_init
  depends := nofun

theorem nonnegative_ne_u32Max (h : nonnegative uid = true) : uid ≠ u32Max := by
  rintro rfl
  exact absurd h (by decide)

theorem setHandler_self (s : FlagSystem) (id : Nat) (phase : HandlerPhase) :
    (s.setHandler id phase).handlers id = phase := by
  simp [FlagSystem.setHandler]

theorem held_setHandler {id id' : Nat} {phase : HandlerPhase}
    {p : UInt32 × UInt32 × Option Exclude.FileState}
    (h : held ((s.setHandler id phase).handlers id') = some p) :
    held phase = some p ∨ held (s.handlers id') = some p := by
  by_cases hid : id' = id
  · subst hid
    simp only [FlagSystem.setHandler, Function.update_self] at h
    exact .inl h
  · simp only [FlagSystem.setHandler, Function.update_of_ne hid] at h
    exact .inr h

theorem orderly_setHandler (h : Orderly s) (id : Nat) (phase : HandlerPhase)
    (hphase : ∀ uid flags config, held phase = some (uid, flags, some config) →
      nonnegative uid = true) : Orderly (s.setHandler id phase) := by
  refine { h with depends := fun id' uid flags config hheld => ?_ }
  rcases held_setHandler hheld with hnew | hsame
  · exact hphase uid flags config hnew
  · exact h.depends id' uid flags config hsame

/-- The answer a handler works with is the one of the files as they are, and
`STATE` stays well formed. -/
theorem askExclude_spec (h : Orderly s) (root : RootAnswers) (uid : UInt32) :
    (askExclude root s.exclude s.files uid).1 =
        (if readsConfig root uid then Exclude.lookupOn s.files uid else none) ∧
      Orderly { s with exclude := (askExclude root s.exclude s.files uid).2 } := by
  obtain ⟨hanswer, hsound⟩ := Exclude.ExcludeLemmas.lookup_sound h.sound uid
  have hloaded := Exclude.ExcludeLemmas.loadedAt_lookup h.loaded h.current h.currentList uid
  unfold askExclude readsConfig
  cases root.uidIsManager with
  | true => exact ⟨rfl, h⟩
  | false =>
    cases nonnegative uid with
    | false => exact ⟨rfl, h⟩
    | true =>
      refine ⟨?_, { h with loaded := hloaded, sound := hsound }⟩
      simp only [Bool.false_eq_true, if_false, if_true, hanswer, Bool.not_false, Bool.true_and]
      split
      · rfl
      · next happ => rw [Exclude.lookupOn, Exclude.lookup, if_neg happ]

theorem orderly_step (h : Orderly s) (hstep : s.Step i t) :
    Orderly t := by
  cases step_cases hstep with
  | @lookup id uid root _ =>
    refine orderly_setHandler (askExclude_spec h root uid).2 id _ fun uid' flags config hheld => ?_
    simp only [held, Option.some.injEq, Prod.mk.injEq] at hheld
    obtain ⟨rfl, _, hconfig⟩ := hheld
    split at hconfig
    · next hreads =>
      simp only [readsConfig, Bool.and_eq_true] at hreads
      exact hreads.1.2
    · cases hconfig
  | @reply id written uid flags config hphase =>
    refine orderly_setHandler h id _ fun uid' flags' config' hheld => ?_
    cases written with
    | true => exact h.depends id uid' flags' config' (by rw [hphase]; exact hheld)
    | false => cases hheld
  | @cache id uid flags config hphase =>
    unfold FlagSystem.cache
    split
    · next huid =>
      have htable := tableOk_cache h.table (nonnegative_ne_u32Max huid) flags
      have hs : Orderly { s with layout := cacheProcessFlags s.layout uid flags,
                                 origin := Function.update s.origin uid config } :=
        { h with table := htable }
      exact orderly_setHandler hs id .idle nofun
    · exact orderly_setHandler h id .idle nofun
  | rewriteConfig hnew =>
    have hloaded : Exclude.LoadedAt s.exclude (· ∈ s.configTimes) (· ∈ s.listTimes) := h.loaded
    exact { h with
      current := mem_cons_self
      seen := fun last hl => mem_cons_of_mem _ (h.seen last hl)
      flushed := fun last hl => mem_cons_of_mem _ (h.flushed last hl)
      loaded := fun st hst hl => ⟨mem_cons_of_mem _ (hloaded st hst hl).1, (hloaded st hst hl).2⟩
      sound := Exclude.ExcludeLemmas.sound_rewrite hloaded (.inl hnew) }
  | rewriteList hnew =>
    have hloaded : Exclude.LoadedAt s.exclude (· ∈ s.configTimes) (· ∈ s.listTimes) := h.loaded
    exact { h with
      currentList := mem_cons_self
      loaded := fun st hst hl => ⟨(hloaded st hst hl).1, mem_cons_of_mem _ (hloaded st hst hl).2⟩
      sound := Exclude.ExcludeLemmas.sound_rewrite hloaded (.inr hnew) }
  | watch _ hseen =>
    refine { h with seen := fun last hl => ?_ }
    rcases hseen with hsame | hcurrent
    · exact h.seen last (hsame ▸ hl)
    · rw [hcurrent] at hl; cases hl; exact h.current
  | refresh hphase =>
    refine { h with
      seen := fun last hl => h.seen last ?_
      loaded := Exclude.ExcludeLemmas.loadedAt_refresh h.current h.currentList
      sound := Exclude.ExcludeLemmas.sound_refresh h.sound }
    rw [hphase]; exact hl
  | @invalidate last hphase =>
    have hseen : last ∈ s.configTimes := h.seen last (by rw [hphase]; rfl)
    refine { h with
      seen := fun last' hl => ?_
      flushed := fun last' hl => ?_
      table := tableOk_invalidate h.table } <;> cases hl <;> exact hseen

/-- A handler that caches flags of the current `config.prop`, or flags that do
not depend on it, or that finds no slot, leaves a table without stale entries
so. -/
theorem noStale_cache {id : Nat} {flags : UInt32}
    {config : Option Exclude.FileState} (h : NoStaleEntry s)
    (hok : ∀ c, config = some c → c = s.files.config ∨ AllSlotsTaken s.layout uid) :
    NoStaleEntry (s.cache id uid flags config) := by
  unfold FlagSystem.cache
  split
  · intro i hi c hc
    simp only [FlagSystem.setHandler] at hi hc ⊢
    rcases cache_cases s.layout uid flags with ⟨htaken, hsame⟩ | ⟨hroom, j, hupd⟩
    · -- nothing was stored, and no slot holds the uid
      rw [hsame] at hi hc
      rw [Function.update_of_ne (htaken i).2] at hc
      exact h i hi c hc
    · by_cases huid : ((cacheProcessFlags s.layout uid flags).entries i).uid = uid
      · rw [huid, Function.update_self] at hc
        exact (hok c hc).resolve_right hroom
      · rw [Function.update_of_ne huid] at hc
        have hij : i ≠ j := by
          rintro rfl
          rw [hupd, Function.update_self] at huid
          exact huid rfl
        rw [hupd, Function.update_of_ne hij] at hi hc
        exact h i hi c hc
  · exact h

/-- A handler that caches flags of an earlier `config.prop` in a free slot leaves
a stale entry. -/
theorem stale_cache {id : Nat} {flags : UInt32} {config : Exclude.FileState}
    (huid : nonnegative uid = true) (hold : config ≠ s.files.config)
    (hroom : ¬ AllSlotsTaken s.layout uid) : ¬ NoStaleEntry (s.cache id uid flags (some config)) := by
  intro h
  rw [FlagSystem.cache, if_pos huid] at h
  rcases cache_cases s.layout uid flags with ⟨htaken, _⟩ | ⟨_, j, hupd⟩
  · exact hroom htaken
  · have hj : (cacheProcessFlags s.layout uid flags).entries j = ⟨uid, flags⟩ := by
      rw [hupd, Function.update_self]
    have hstale := h j (by
      show ((cacheProcessFlags s.layout uid flags).entries j).uid ≠ u32Max
      rw [hj]
      exact nonnegative_ne_u32Max huid) config (by
      show Function.update s.origin uid (some config)
        ((cacheProcessFlags s.layout uid flags).entries j).uid = some config
      rw [hj, Function.update_self])
    exact hold hstale

/-- One step keeps a flushed table without stale entries exactly when no handler
outlasts the flush in it. -/
theorem noStale_step (hs : Orderly s)
    (h : s.Flushed → NoStaleEntry s) (hstep : s.Step i t) :
    (t.Flushed → NoStaleEntry t) ↔ NotOutlasted s i := by
  cases step_cases hstep with
  | lookup | reply | rewriteList | refresh => exact iff_of_true h trivial
  | watch hi _ => rcases hi with rfl | rfl <;> exact iff_of_true h trivial
  | @cache id uid flags config hphase =>
    have hfl : (s.cache id uid flags config).Flushed ↔ s.Flushed := by
      unfold FlagSystem.cache
      split <;> rfl
    rw [hfl]
    constructor
    · intro hkeep uid' flags' config' hphase' hflushed
      rw [hphase] at hphase'
      cases hphase'
      by_contra hbad
      rw [not_or] at hbad
      have huid : nonnegative uid = true := hs.depends id uid flags config' (by rw [hphase]; rfl)
      exact stale_cache huid hbad.1 hbad.2 (hkeep hflushed)
    · intro hok hflushed
      refine noStale_cache (h hflushed) fun c hc => ?_
      subst hc
      exact hok uid flags c hphase hflushed
  | rewriteConfig hnew =>
    -- the new modification time is none that was flushed for
    exact iff_of_true (fun hfl => absurd (hs.flushed _ hfl) hnew) trivial
  | invalidate _ =>
    -- a flushed table has no entries
    exact iff_of_true (fun _ i hi => absurd rfl hi) trivial

/-- These are flags for `uid` under some answers of `root_impl` and what
`exclude::lookup` says with this `config.prop` in place, if it is asked. -/
def ComputedFrom (list : Exclude.FileState) (uid flags : UInt32)
    (config : Option Exclude.FileState) : Prop :=
  ∃ root, flags = processFlags root (config.bind fun c => Exclude.lookupOn ⟨c, list⟩ uid)

/-- `origin` is true to its name, and so is what the threads hold. -/
structure Traced (list : Exclude.FileState) (s : FlagSystem) : Prop where
  sameList : s.files.list = list
  threads : ∀ id uid flags config, held (s.handlers id) = some (uid, flags, config) →
    ComputedFrom list uid flags config
  hits : ∀ uid flags, uid ≠ u32Max → Hit s.layout uid flags →
    ComputedFrom list uid flags (s.origin uid)

theorem traced_init (files : Exclude.Files) : Traced files.list (.init files) := by
  refine ⟨rfl, nofun, fun uid flags huid hhit => ?_⟩
  have hlookup := (hit_iff tableOk_init huid).mp hhit
  rw [show view initializeSharedMemory.entries = fun _ => none from view_free,
    Probing.lookup_empty] at hlookup
  cases hlookup

theorem traced_setHandler {list : Exclude.FileState} (h : Traced list s) (id : Nat)
    (phase : HandlerPhase) (hphase : ∀ uid flags config, held phase = some (uid, flags, config) →
      ComputedFrom list uid flags config) : Traced list (s.setHandler id phase) := by
  refine { h with threads := fun id' uid flags config hheld => ?_ }
  rcases held_setHandler hheld with hnew | hsame
  · exact hphase uid flags config hnew
  · exact h.threads id' uid flags config hsame

theorem traced_step {list : Exclude.FileState} (hs : Orderly s)
    (h : Traced list s) (hi : ∀ mtime text, i ≠ .rewriteList mtime text) (hstep : s.Step i t) :
    Traced list t := by
  cases step_cases hstep with
  | @lookup id uid root _ =>
    have hs' : Traced list { s with exclude := (askExclude root s.exclude s.files uid).2 } :=
      { h with }
    refine traced_setHandler hs' id _ fun uid' flags config hheld => ?_
    simp only [held, Option.some.injEq, Prod.mk.injEq] at hheld
    obtain ⟨rfl, rfl, rfl⟩ := hheld
    refine ⟨root, ?_⟩
    rw [(askExclude_spec hs root uid).1, ← h.sameList]
    split <;> rfl
  | @reply id written uid flags config hphase =>
    refine traced_setHandler h id _ fun uid' flags' config' hheld => ?_
    cases written with
    | true => exact h.threads id uid' flags' config' (by rw [hphase]; exact hheld)
    | false => cases hheld
  | @cache id uid flags config hphase =>
    unfold FlagSystem.cache
    split
    · next huid =>
      have hs' : Traced list { s with layout := cacheProcessFlags s.layout uid flags,
                                      origin := Function.update s.origin uid config } := by
        refine { h with hits := fun uid' flags' huid' hhit => ?_ }
        rcases hit_cache hs.table (nonnegative_ne_u32Max huid) huid' hhit with
          ⟨rfl, rfl⟩ | ⟨hne, hold⟩
        · simp only [Function.update_self]
          exact h.threads id _ _ config (by rw [hphase]; rfl)
        · simp only [Function.update_of_ne hne]
          exact h.hits uid' flags' huid' hold
      exact traced_setHandler hs' id .idle nofun
    · exact traced_setHandler h id .idle nofun
  | rewriteList => exact absurd rfl (hi _ _)
  | rewriteConfig | watch | refresh => exact { h with }
  | invalidate _ =>
    exact { h with hits := fun uid flags huid hhit => absurd (hit_invalidate hs.table hhit) huid }

end FlagCacheLemmas

open FlagCacheLemmas

/-- As long as `packages.list` stays, whatever the table answers a uid with was computed from the
`config.prop` that `origin` names. -/
theorem hit_origin (files : Exclude.Files) :
    Always (fun s i t => FlagSystem.Step s i t ∧ ∀ mtime text, i ≠ .rewriteList mtime text) (.init files)
      fun s => ∀ uid flags, uid ≠ u32Max → Hit s.layout uid flags →
        ComputedFrom files.list uid flags (s.origin uid) :=
  .of_invariant (fun s => Orderly s ∧ Traced files.list s) ⟨orderly_init files, traced_init files⟩
    (fun _ _ _ hs ⟨hstep, hi⟩ => ⟨orderly_step hs.1 hstep, traced_step hs.1 hs.2 hi hstep⟩)
    fun _ hs => hs.2.hits

/-- However threads and rewrites interleave, a request that is looked up answers from the files as they
are then, as if nothing had been read from them before. -/
theorem lookup_current (files : Exclude.Files) :
    Always FlagSystem.Step (.init files) fun s => ∀ root uid, (askExclude root s.exclude s.files uid).1 =
      if readsConfig root uid then Exclude.lookupOn s.files uid else none :=
  .of_invariant Orderly (orderly_init files) (fun _ _ _ => orderly_step)
    fun _ h root uid => (askExclude_spec h root uid).1

/-- In every run of handlers, rewrites and watcher, the table is free of stale
entries in all states in which the watcher has flushed for the current
`config.prop`, exactly when no handler stores flags of an earlier `config.prop`
in a slot of a table flushed for the current one. -/
theorem flush_leaves_no_stale_flags_iff {files : Exclude.Files} {t : FlagSystem}
    {tr : List (FlagSystem × FlagStep)} (h : Run FlagSystem.Step (.init files) tr t) :
    (∀ p ∈ tr, NotOutlasted p.1 p.2) ↔
      ∀ s ∈ visited tr t, s.Flushed → NoStaleEntry s :=
  h.forall_ok_iff Orderly (fun s => s.Flushed → NoStaleEntry s) NotOutlasted
    (fun _ _ _ hs hstep => orderly_step hs hstep)
    (fun _ _ _ hs hP hstep => noStale_step hs hP hstep) (orderly_init files)
    (fun hfl => nomatch hfl)

/-- A `packages.list` with one app, a `config.prop` that excludes it, and an
answer of `root_impl`. -/
def oneAppList : Exclude.FileState := ⟨some 1, some "org.nya 10001 0 /data/user/0/org.nya"⟩
def excludingConfig : Exclude.FileState := ⟨some 1, some "exclude_apps=org.nya\n"⟩
def plainRoot : RootAnswers := ⟨.magisk, false, false, false⟩

/-- The user takes the app off the list between two requests that each run to
their end. -/
def prompt : List FlagStep :=
  [.watcherStart, .lookup 0 10001 plainRoot, .reply 0 true, .cache 0,
    .rewriteConfig 2 (some "exclude_apps=\n"), .watcherPoll, .watcherRefresh, .watcherInvalidate,
    .lookup 1 10001 plainRoot, .reply 1 true, .cache 1]

theorem flush_leaves_no_stale_flags_iff_prompt :
    ∃ tr s, Run FlagSystem.Step (.init ⟨excludingConfig, oneAppList⟩) tr s ∧ s.Flushed ∧
      Hit s.layout 10001 ProcessFlags.rootIsMagisk ∧ NoStaleEntry s := by
  obtain ⟨hrun, _⟩ := run_exec_get (show (exec FlagSystem.step
    (.init ⟨excludingConfig, oneAppList⟩) prompt).isSome = true from rfl)
  refine ⟨_, _, hrun, rfl, by decide, ?_⟩
  exact (flush_leaves_no_stale_flags_iff hrun).mp (by decide) _ (mem_visited_end _ _) rfl

/-- A handler that is overtaken by the flush: it has looked up the old
`config.prop` and replied, the file is rewritten, and the watcher notices,
refreshes and flushes before the handler stores its flags. -/
def overtaken : List FlagStep :=
  [.watcherStart, .lookup 0 10001 plainRoot, .reply 0 true, .rewriteConfig 2 (some "exclude_apps=\n"),
    .watcherPoll, .watcherRefresh, .watcherInvalidate, .cache 0]

/-- A table flushed for the current `config.prop` still tells that the app is
excluded, as the earlier one said. -/
theorem stale_flags_after_flush :
    ∃ tr s, Run FlagSystem.Step (.init ⟨excludingConfig, oneAppList⟩) tr s ∧ s.Flushed ∧
      Hit s.layout 10001
        (ProcessFlags.excluded ||| ProcessFlags.onDenylist ||| ProcessFlags.rootIsMagisk) ∧
      Exclude.lookupOn s.files 10001 = none ∧ ¬ NoStaleEntry s := by
  obtain ⟨hrun, _⟩ := run_exec_get (show (exec FlagSystem.step
    (.init ⟨excludingConfig, oneAppList⟩) overtaken).isSome = true from rfl)
  refine ⟨_, _, hrun, rfl, by decide, by decide, fun h => ?_⟩
  exact absurd (h (homeSlot 10001) (by decide) excludingConfig rfl) (by decide)

end NyaZygisk
