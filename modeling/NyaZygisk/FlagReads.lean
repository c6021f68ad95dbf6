import NyaZygisk.Lib.Seqlock
import NyaZygisk.SharedFlags

/-!
# Reading the flag table while it is written

`SharedFlags` runs each access to the table undisturbed. Here every atomic load
and store is one step of its own: `cache_process_flags` and
`invalidate_process_flag_cache`, serialized by `write_lock`, and one process in
`GetProcessFlags`. Steps interleave in any order, each seeing all earlier ones.
-/

namespace NyaZygisk

open Runs

/-! ## The writer, access by access -/

/-- Where the holder of `write_lock` stands. From `probing` to `publish` it has
stored the odd version and not yet the next even one. -/
inductive WriterPhase
  | idle
  | locked (op : FlagOp)
  /-- `base_version` is loaded; the odd version is stored next. -/
  | loaded (op : FlagOp) (baseVersion : UInt32)
  /-- The loop of `cache_process_flags` loads `entries[index].uid` next. -/
  | probing (uid flags baseVersion : UInt32) (index : Fin shmHashMapSize)
  | storeUid (uid flags baseVersion : UInt32) (index : Fin shmHashMapSize)
  | storeFlags (flags baseVersion : UInt32) (index : Fin shmHashMapSize)
  | wipeUid (baseVersion : UInt32) (index : Fin shmHashMapSize)
  | wipeFlags (baseVersion : UInt32) (index : Fin shmHashMapSize)
  /-- The even version is stored next, and the lock released. -/
  | publish (baseVersion : UInt32)
deriving DecidableEq

/-- A write is in progress: the version is odd and the entries may change. -/
def WriterPhase.midUpdate : WriterPhase → Bool
  | .idle | .locked _ | .loaded _ _ => false
  | _ => true

def ShmLayout.setUid (layout : ShmLayout) (i : Fin shmHashMapSize) (uid : UInt32) : ShmLayout :=
  { layout with entries := Function.update layout.entries i { layout.entries i with uid := uid } }

def ShmLayout.setFlags (layout : ShmLayout) (i : Fin shmHashMapSize) (flags : UInt32) :
    ShmLayout :=
  { layout with entries := Function.update layout.entries i { layout.entries i with flags := flags } }

/-- The next access of the writer. -/
def writerStep (layout : ShmLayout) : WriterPhase → Option (ShmLayout × WriterPhase)
  | .idle => none
  | .locked op => some (layout, .loaded op layout.version)
  | .loaded (.cache uid flags) base =>
    some ({ layout with version := base + 1 }, .probing uid flags base (homeSlot uid))
  | .loaded .invalidate base => some ({ layout with version := base + 1 }, .wipeUid base 0)
  | .probing uid flags base index =>
    let currentUid := (layout.entries index).uid
    if currentUid = u32Max ∨ currentUid = uid then some (layout, .storeUid uid flags base index)
    else if maskIndex (index.val + 1) = homeSlot uid then some (layout, .publish base)
    else some (layout, .probing uid flags base (maskIndex (index.val + 1)))
  | .storeUid uid flags base index => some (layout.setUid index uid, .storeFlags flags base index)
  | .storeFlags flags base index => some (layout.setFlags index flags, .publish base)
  | .wipeUid base index => some (layout.setUid index u32Max, .wipeFlags base index)
  | .wipeFlags base index =>
    if h : index.val + 1 < shmHashMapSize then
      some (layout.setFlags index 0, .wipeUid base ⟨index.val + 1, h⟩)
    else some (layout.setFlags index 0, .publish base)
  | .publish base => some ({ layout with version := base + 2 }, .idle)

/-! ## The reader, access by access -/

/-- Where the process in `GetProcessFlags` stands. -/
inductive ReaderPhase
  | idle
  /-- The loop loads `entries[index].uid` next. -/
  | probing (uid versionBefore : UInt32) (index : Fin shmHashMapSize)
  | loadFlags (uid versionBefore : UInt32) (index : Fin shmHashMapSize)
  /-- The second version load is next. -/
  | validate (uid versionBefore cachedFlags : UInt32)
  /-- It returns these flags, or asks the daemon. -/
  | done (uid : UInt32) (result : Option UInt32)
deriving DecidableEq

/-- The first version load. -/
def beginRead (layout : ShmLayout) (uid : UInt32) : ReaderPhase :=
  if layout.version &&& 1 = 0 then .probing uid layout.version (homeSlot uid) else .done uid none

/-- The next access of the reader after the first version load. -/
def readerStep (layout : ShmLayout) : ReaderPhase → Option ReaderPhase
  | .idle => none
  | .probing uid versionBefore index =>
    let currentUid := (layout.entries index).uid
    if currentUid = uid then some (.loadFlags uid versionBefore index)
    else if currentUid = u32Max then some (.done uid none)
    else if maskIndex (index.val + 1) ≠ homeSlot uid then
      some (.probing uid versionBefore (maskIndex (index.val + 1)))
    else some (.done uid none)
  | .loadFlags uid versionBefore index =>
    some (.validate uid versionBefore (layout.entries index).flags)
  | .validate uid versionBefore cachedFlags =>
    some (.done uid (if versionBefore = layout.version then some cachedFlags else none))
  | .done _ _ => none

/-! ## Writers and a reader together -/

structure TableState where
  layout : ShmLayout
  writer : WriterPhase
  reader : ReaderPhase

def TableState.init : TableState := ⟨initializeSharedMemory, .idle, .idle⟩

inductive TableStep
  /-- A thread takes `write_lock` for this operation. -/
  | lock (op : FlagOp)
  /-- The holder of the lock makes its next access. -/
  | write
  /-- The reader makes its first version load for this uid. -/
  | beginRead (uid : UInt32)
  /-- The reader makes its next access. -/
  | read
deriving DecidableEq

def TableState.step (s : TableState) : TableStep → Option TableState
  | .lock op =>
    match s.writer with
    | .idle => some { s with writer := .locked op }
    | _ => none
  | .write => (writerStep s.layout s.writer).map fun p => { s with layout := p.1, writer := p.2 }
  | .beginRead uid =>
    match s.reader with
    | .idle | .done _ _ => some { s with reader := beginRead s.layout uid }
    | _ => none
  | .read => (readerStep s.layout s.reader).map fun r => { s with reader := r }

def TableState.Step (s : TableState) (i : TableStep) (t : TableState) : Prop := s.step i = some t

/-- A step is the even version store that ends a write. -/
def publishes (s : TableState) : TableStep → Bool
  | .write => match s.writer with
    | .publish _ => true
    | _ => false
  | _ => false

def writesFinished (tr : List (TableState × TableStep)) : Nat :=
  tr.countP fun p => publishes p.1 p.2

/-- Undisturbed, the reader's probe of these entries finds `flags` under `uid`. -/
def MapsTo (entries : Fin shmHashMapSize → ShmEntry) (uid flags : UInt32) : Prop :=
  probeLoop entries uid (homeSlot uid) shmHashMapSize (homeSlot uid) = some (some flags)

namespace FlagReadsLemmas

open SharedFlagsLemmas

/-- The base version the lock holder remembers is the current one, or one less
than the odd one it has stored. -/
def BaseOk (s : TableState) : Prop :=
  match s.writer with
  | .idle | .locked _ => True
  | .loaded _ base => s.layout.version = base
  | .probing _ _ base _ | .storeUid _ _ base _ | .storeFlags _ base _ | .wipeUid base _
  | .wipeFlags base _ | .publish base => s.layout.version = base + 1

variable {entries : Fin shmHashMapSize → ShmEntry} {s t : TableState} {i : TableStep} {uid : UInt32}

/-- What one step can be: the lock is taken, the reader moves, or the writer
makes one access. -/
theorem step_cases (h : s.Step i t) :
    (∃ op, i = .lock op ∧ s.writer = .idle ∧ t = { s with writer := .locked op }) ∨
    (i ≠ .write ∧ ∃ r, t = { s with reader := r }) ∨
    (i = .write ∧ ∃ l w, writerStep s.layout s.writer = some (l, w) ∧
      t = { s with layout := l, writer := w }) := by
  unfold TableState.Step at h
  cases i with
  | lock op =>
    simp only [TableState.step] at h
    split at h
    · next hw => cases h; exact .inl ⟨op, rfl, hw, rfl⟩
    · cases h
  | write =>
    simp only [TableState.step, Option.map_eq_some_iff] at h
    obtain ⟨⟨l, w⟩, hw, rfl⟩ := h
    exact .inr (.inr ⟨rfl, l, w, hw, rfl⟩)
  | beginRead uid =>
    simp only [TableState.step] at h
    split at h <;> cases h <;> exact .inr (.inl ⟨nofun, _, rfl⟩)
  | read =>
    simp only [TableState.step, Option.map_eq_some_iff] at h
    obtain ⟨r, _, rfl⟩ := h
    exact .inr (.inl ⟨nofun, r, rfl⟩)

/-- In the course of a read, the reader makes its next access, or another step leaves it alone. -/
theorem reader_cases (hi : ∀ u, i ≠ .beginRead u) (h : s.Step i t) :
    t.reader = s.reader ∨ readerStep s.layout s.reader = some t.reader := by
  unfold TableState.Step at h
  cases i with
  | beginRead u => exact absurd rfl (hi u)
  | lock op =>
    simp only [TableState.step] at h
    split at h <;> cases h
    exact .inl rfl
  | write =>
    simp only [TableState.step, Option.map_eq_some_iff] at h
    obtain ⟨_, _, rfl⟩ := h
    exact .inl rfl
  | read =>
    simp only [TableState.step, Option.map_eq_some_iff] at h
    obtain ⟨r, hr, rfl⟩ := h
    exact .inr hr

/-- What one access of the writer can be, by where it starts and ends. -/
theorem writerStep_cases {layout l : ShmLayout} {w w' : WriterPhase}
    (h : writerStep layout w = some (l, w')) :
    (w.midUpdate = false ∧ w'.midUpdate = false ∧ l = layout ∧
      ∃ op, w = .locked op ∧ w' = .loaded op layout.version) ∨
    (∃ op base, w = .loaded op base ∧ w'.midUpdate = true ∧ l = { layout with version := base + 1 } ∧
      ((∃ uid flags, w' = .probing uid flags base (homeSlot uid)) ∨ w' = .wipeUid base 0)) ∨
    (w.midUpdate = true ∧ w'.midUpdate = true ∧ l.version = layout.version ∧
      (∀ r, BaseOk ⟨layout, w, r⟩ → BaseOk ⟨l, w', r⟩) ∧ ∀ base, w ≠ .publish base) ∨
    (∃ base, w = .publish base ∧ w' = .idle ∧ l = { layout with version := base + 2 }) := by
  cases w with
  | idle => cases h
  | locked op => cases h; exact .inl ⟨rfl, rfl, rfl, op, rfl, rfl⟩
  | loaded op base =>
    cases op with
    | cache uid flags =>
      cases h
      exact .inr (.inl ⟨_, base, rfl, rfl, rfl, .inl ⟨uid, flags, rfl⟩⟩)
    | invalidate => cases h; exact .inr (.inl ⟨_, base, rfl, rfl, rfl, .inr rfl⟩)
  | probing uid flags base index =>
    simp only [writerStep] at h
    refine .inr (.inr (.inl ?_))
    split at h
    · cases h; exact ⟨rfl, rfl, rfl, fun r hb => hb, nofun⟩
    split at h <;> cases h <;> exact ⟨rfl, rfl, rfl, fun r hb => hb, nofun⟩
  | storeUid _ _ _ _ | storeFlags _ _ _ | wipeUid _ _ =>
    cases h
    exact .inr (.inr (.inl ⟨rfl, rfl, rfl, fun r hb => hb, nofun⟩))
  | wipeFlags base index =>
    simp only [writerStep] at h
    refine .inr (.inr (.inl ?_))
    split at h <;> cases h <;> exact ⟨rfl, rfl, rfl, fun r hb => hb, nofun⟩
  | publish base => cases h; exact .inr (.inr (.inr ⟨base, rfl, rfl, rfl⟩))

theorem baseOk_step (hb : BaseOk s) (h : s.Step i t) :
    BaseOk t := by
  rcases step_cases h with ⟨op, _, _, rfl⟩ | ⟨_, r, rfl⟩ | ⟨_, l, w, hw, rfl⟩
  · trivial
  · exact hb
  · rcases writerStep_cases hw with ⟨_, _, rfl, op, _, rfl⟩ | ⟨op, base, _, _, rfl, hw'⟩ |
      ⟨_, _, _, hkeep, _⟩ | ⟨base, _, rfl, rfl⟩
    · exact rfl
    · rcases hw' with ⟨uid, flags, rfl⟩ | rfl <;> exact rfl
    · exact hkeep s.reader hb
    · trivial

/-- The table with its writers is a sequence lock. -/
def protocol : Seqlock.Protocol TableState TableStep (Fin shmHashMapSize → ShmEntry) 32 where
  step s i t := BaseOk s ∧ s.Step i t
  version s := s.layout.version.toBitVec
  mem s := s.layout.entries
  mid s := s.writer.midUpdate
  publishes := publishes
  quiet := by
    rintro s i t ⟨_, h⟩ hs ht
    rcases step_cases h with ⟨op, rfl, _, rfl⟩ | ⟨hne, r, rfl⟩ | ⟨rfl, l, w, hw, rfl⟩
    · exact ⟨rfl, rfl, rfl⟩
    · refine ⟨?_, rfl, rfl⟩
      cases i <;> first | rfl | exact absurd rfl hne
    · rcases writerStep_cases hw with ⟨_, _, rfl, op, hop, _⟩ | ⟨_, _, _, hmid, _⟩ |
        ⟨hmid, _⟩ | ⟨base, hpub, _⟩
      · exact ⟨by simp [publishes, hop], rfl, rfl⟩
      · exact absurd (hmid.symm.trans ht) nofun
      · exact absurd (hmid.symm.trans hs) nofun
      · rw [hpub] at hs; cases hs
  enter := by
    rintro s i t ⟨hb, h⟩ hs ht
    rcases step_cases h with ⟨op, _, _, rfl⟩ | ⟨_, r, rfl⟩ | ⟨rfl, l, w, hw, rfl⟩
    · cases ht
    · exact absurd (ht.symm.trans hs) nofun
    · rcases writerStep_cases hw with ⟨_, hno, _⟩ | ⟨op, base, hload, _, rfl, _⟩ |
        ⟨hmid, _⟩ | ⟨_, _, rfl, _⟩
      · exact absurd (ht.symm.trans hno) nofun
      · simp only [BaseOk, hload] at hb
        exact ⟨by simp [publishes, hload], by simp [hb], rfl⟩
      · exact absurd (hmid.symm.trans hs) nofun
      · cases ht
  inside := by
    rintro s i t ⟨_, h⟩ hs ht
    rcases step_cases h with ⟨op, _, hidle, _⟩ | ⟨hne, r, rfl⟩ | ⟨rfl, l, w, hw, rfl⟩
    · rw [hidle] at hs; cases hs
    · refine ⟨?_, rfl⟩
      cases i <;> first | rfl | exact absurd rfl hne
    · rcases writerStep_cases hw with ⟨hno, _⟩ | ⟨_, _, hload, _⟩ | ⟨_, _, hver, _, hpub⟩ |
        ⟨_, _, rfl, _⟩
      · exact absurd (hs.symm.trans hno) nofun
      · rw [hload] at hs; cases hs
      · refine ⟨?_, congrArg UInt32.toBitVec hver⟩
        cases hs' : s.writer with
        | publish base => exact absurd hs' (hpub base)
        | _ => simp [publishes, hs']
      · cases ht
  leave := by
    rintro s i t ⟨hb, h⟩ hs ht
    rcases step_cases h with ⟨op, _, hidle, _⟩ | ⟨_, r, rfl⟩ | ⟨rfl, l, w, hw, rfl⟩
    · rw [hidle] at hs; cases hs
    · exact absurd (hs.symm.trans ht) nofun
    · rcases writerStep_cases hw with ⟨hno, _⟩ | ⟨_, _, hload, _⟩ | ⟨_, hmid, _⟩ |
        ⟨base, hpub, rfl, rfl⟩
      · exact absurd (hs.symm.trans hno) nofun
      · rw [hload] at hs; cases hs
      · exact absurd (hmid.symm.trans ht) nofun
      · simp only [BaseOk, hpub] at hb
        refine ⟨by simp [publishes, hpub], ?_⟩
        simp only [hb, UInt32.toBitVec_add]
        rw [BitVec.add_assoc]
        rfl

/-- Every run of the system from an orderly state is a run of the protocol. -/
theorem protocol_run {tr : List (TableState × TableStep)}
    (h : Run TableState.Step s tr t) (hb : BaseOk s) : Run protocol.step s tr t ∧ BaseOk t := by
  obtain ⟨ht, hall⟩ := h.invariant BaseOk (fun _ _ _ => baseOk_step) hb
  exact ⟨h.restrict (fun s _ => BaseOk s) hall, ht⟩

/-- The reader is in the read of `uid` that began with this version. -/
def InRead (uid versionBefore : UInt32) (s : TableState) : Prop :=
  match s.reader with
  | .idle => False
  | .probing u v _ | .loadFlags u v _ | .validate u v _ => u = uid ∧ v = versionBefore
  | .done u _ => u = uid

theorem inRead_step {v : UInt32} (hin : InRead uid v s)
    (hi : ∀ u, i ≠ .beginRead u) (h : s.Step i t) : InRead uid v t := by
  unfold InRead at hin ⊢
  rcases reader_cases hi h with hsame | hr
  · rw [hsame]
    exact hin
  generalize s.reader = r at hin hr
  generalize t.reader = r' at hr
  cases r with
  | idle => exact hin.elim
  | done u res => cases hr
  | loadFlags u v' index => cases hr; exact hin
  | validate u v' flags => cases hr; exact hin.1
  | probing u v' index =>
    simp only [readerStep] at hr
    split at hr
    · cases hr; exact hin
    split at hr
    · cases hr; exact hin.1
    split at hr
    · cases hr; exact hin
    · cases hr; exact hin.1

/-- What the reader holds so far is what the undisturbed probe of `entries`
finds or still has ahead of it. -/
def Follows (entries : Fin shmHashMapSize → ShmEntry) (uid : UInt32) (s : TableState) : Prop :=
  match s.reader with
  | .probing _ _ index =>
    ∃ fuel, probeLoop entries uid (homeSlot uid) shmHashMapSize (homeSlot uid) =
      probeLoop entries uid (homeSlot uid) fuel index
  | .loadFlags _ _ index => MapsTo entries uid (entries index).flags
  | .validate _ _ flags => MapsTo entries uid flags
  | .idle | .done _ _ => True

/-- One access of the reader follows the probe while the entries are the ones
the probe is about. The fuel left cannot be zero, since the probe ends. -/
theorem follows_step {v : UInt32} (hin : InRead uid v s) (hf : Follows entries uid s)
    (hent : s.layout.entries = entries) (hi : ∀ u, i ≠ .beginRead u) (h : s.Step i t) :
    Follows entries uid t := by
  unfold InRead at hin
  unfold Follows at hf ⊢
  rcases reader_cases hi h with hsame | hr
  · rw [hsame]
    exact hf
  rw [readerStep.eq_def, hent] at hr
  generalize s.reader = r at hin hf hr
  generalize t.reader = r' at hr
  cases r with
  | idle => exact hin.elim
  | done u res => cases hr
  | loadFlags u v' index => cases hr; exact hf
  | validate u v' flags => cases hr; trivial
  | probing u v' index =>
    obtain ⟨rfl, rfl⟩ := hin
    obtain ⟨fuel, hfuel⟩ := hf
    cases fuel with
    | zero =>
      obtain ⟨res, hres⟩ := probeLoop_ends entries u (homeSlot u)
      rw [hres] at hfuel
      cases hfuel
    | succ fuel =>
      simp only at hr
      simp only [probeLoop] at hfuel
      split at hr
      · next hown => rw [if_pos hown] at hfuel; cases hr; exact hfuel
      next hown =>
      rw [if_neg hown] at hfuel
      split at hr
      · cases hr; trivial
      next hfree =>
      rw [if_neg hfree] at hfuel
      split at hr
      · next hback => rw [if_pos hback] at hfuel; cases hr; exact ⟨fuel, hfuel⟩
      · cases hr; trivial

/-- The first version load starts a read of the entries as they are, unless it
saw an odd version. -/
theorem beginRead_spec (h : s.Step (.beginRead uid) t) :
    t.layout = s.layout ∧ t.writer = s.writer ∧
      (t.reader = .done uid none ∨ s.layout.version &&& 1 = 0 ∧
        t.reader = .probing uid s.layout.version (homeSlot uid)) := by
  have hreader : t = { s with reader := beginRead s.layout uid } := by
    simp only [TableState.Step, TableState.step] at h
    split at h <;> cases h <;> rfl
  subst hreader
  refine ⟨rfl, rfl, ?_⟩
  simp only [beginRead]
  split
  · next heven => exact .inr ⟨heven, rfl⟩
  · exact .inl rfl

/-- The reader returns cached flags only from a validation that saw the version
it began with. -/
theorem returned_spec {flags : UInt32} (h : s.Step .read t)
    (hdone : t.reader = .done uid (some flags)) :
    s.reader = .validate uid s.layout.version flags := by
  simp only [TableState.Step, TableState.step, Option.map_eq_some_iff] at h
  obtain ⟨r, hr, rfl⟩ := h
  simp only at hdone
  subst hdone
  generalize s.reader = r at hr
  cases r with
  | idle | done _ _ | loadFlags _ _ _ => cases hr
  | probing u v' index =>
    simp only [readerStep] at hr
    split at hr
    · cases hr
    split at hr
    · cases hr
    split at hr <;> cases hr
  | validate u v' f =>
    simp only [readerStep, Option.some.injEq, ReaderPhase.done.injEq] at hr
    obtain ⟨rfl, hres⟩ := hr
    split at hres
    · next hv => cases hres; rw [hv]
    · cases hres

/-- A read that has gone to ask the daemon does not come back. -/
theorem done_step
    (hdone : s.reader = .done uid none) (hi : ∀ u, i ≠ .beginRead u) (h : s.Step i t) :
    t.reader = .done uid none := by
  rcases reader_cases hi h with hsame | hr
  · exact hsame.trans hdone
  · rw [hdone] at hr
    cases hr

/-- After any run from the initialized table, an even version means that no
write is in progress. -/
theorem mid_of_even {tr : List (TableState × TableStep)}
    (h : Run protocol.step .init tr s) (heven : s.layout.version &&& 1 = 0) :
    s.writer.midUpdate = false := by
  have hparity := Seqlock.Protocol.mid_of_version (by decide) h rfl rfl
  have hzero : s.layout.version.toBitVec.toNat % 2 = 0 := by
    rw [← UInt32.toNat_inj] at heven
    simpa [Nat.and_one_is_mod] using heven
  change s.layout.version.toBitVec.toNat % 2 = s.writer.midUpdate.toNat at hparity
  rw [hzero] at hparity
  exact Bool.toNat_eq_zero.mp hparity.symm

theorem write_step {layout l : ShmLayout} {w w' : WriterPhase} (r : ReaderPhase)
    (h : writerStep layout w = some (l, w')) :
    TableState.Step ⟨layout, w, r⟩ .write ⟨l, w', r⟩ := by
  simp [TableState.Step, TableState.step, h]

theorem setUid_setFlags (layout : ShmLayout) (i : Fin shmHashMapSize) (uid flags : UInt32) :
    (layout.setUid i uid).setFlags i flags =
      { layout with entries := Function.update layout.entries i ⟨uid, flags⟩ } := by
  simp [ShmLayout.setUid, ShmLayout.setFlags]

/-- From inside its loop, `cache_process_flags` goes on to leave the entries
that `cacheLoop` says. -/
theorem cache_alone {flags base v : UInt32} {entries' : Fin shmHashMapSize → ShmEntry}
    {inserted : Bool} (r : ReaderPhase) :
    ∀ (fuel : Nat) (index : Fin shmHashMapSize),
      cacheLoop uid flags entries (homeSlot uid) fuel index = some (entries', inserted) →
      Reaches TableState.Step ⟨⟨v, entries⟩, .probing uid flags base index, r⟩
        ⟨⟨v, entries'⟩, .publish base, r⟩
  | 0, _, h => by cases h
  | fuel + 1, index, h => by
    simp only [cacheLoop] at h
    split at h
    · next hstop =>
      cases h
      have hboth := setUid_setFlags ⟨v, entries⟩ index uid flags
      have hload : TableState.Step ⟨⟨v, entries⟩, .probing uid flags base index, r⟩ .write
          ⟨⟨v, entries⟩, .storeUid uid flags base index, r⟩ :=
        write_step r (by simp [writerStep, hstop])
      refine .head hload (.head (write_step r rfl) ?_)
      simp only at hboth
      rw [← hboth]
      exact .single (write_step r rfl)
    next hgo =>
    split at h
    · next hback =>
      cases h
      exact .single (write_step r (by simp [writerStep, hgo, hback]))
    · next hon =>
      refine .head (write_step r ?_) (cache_alone r fuel (maskIndex (index.val + 1)) h)
      simp [writerStep, hgo, hon]

theorem wipe_last {index : Fin shmHashMapSize}
    (hfree : ∀ j : Fin shmHashMapSize, j.val < index.val → entries j = ⟨u32Max, 0⟩)
    (j : Fin shmHashMapSize) (hj : j.val < index.val + 1) :
    Function.update entries index ⟨u32Max, 0⟩ j = ⟨u32Max, 0⟩ := by
  by_cases he : j = index
  · subst he; simp
  · rw [Function.update_of_ne he]
    exact hfree j (by have := Fin.val_ne_of_ne he; omega)

/-- From inside its loop, `invalidate_process_flag_cache` goes on to free the
remaining entries. -/
theorem invalidate_alone {base v : UInt32} (r : ReaderPhase) :
    ∀ (left : Nat) (index : Fin shmHashMapSize) (entries : Fin shmHashMapSize → ShmEntry),
      index.val + left + 1 = shmHashMapSize →
      (∀ j : Fin shmHashMapSize, j.val < index.val → entries j = ⟨u32Max, 0⟩) →
      Reaches TableState.Step ⟨⟨v, entries⟩, .wipeUid base index, r⟩
        ⟨⟨v, freeEntries⟩, .publish base, r⟩
  | 0, index, entries, hlast, hfree => by
    have hend : ¬ index.val + 1 < shmHashMapSize := by omega
    have hall : Function.update entries index ⟨u32Max, 0⟩ = freeEntries := by
      funext j
      exact wipe_last hfree j (by have := j.isLt; omega)
    have hboth := setUid_setFlags ⟨v, entries⟩ index u32Max 0
    simp only [hall] at hboth
    refine .head (write_step r rfl) (.single (write_step r ?_))
    simp [writerStep, hend, hboth]
  | left + 1, index, entries, hlast, hfree => by
    have hmore : index.val + 1 < shmHashMapSize := by omega
    have hboth := setUid_setFlags ⟨v, entries⟩ index u32Max 0
    refine .head (write_step r rfl) (.head (write_step r ?_)
      (invalidate_alone r left ⟨index.val + 1, hmore⟩ (Function.update entries index ⟨u32Max, 0⟩)
        (by simp only; omega) (wipe_last hfree)))
    simp [writerStep, hmore, hboth]

end FlagReadsLemmas

open FlagReadsLemmas

/-- A write that nothing interrupts is the operation `SharedFlags` gives. -/
theorem writer_alone (op : FlagOp) (layout : ShmLayout) (r : ReaderPhase) :
    Reaches TableState.Step ⟨layout, .idle, r⟩ ⟨op.apply layout, .idle, r⟩ := by
  have hlock : TableState.Step ⟨layout, .idle, r⟩ (.lock op) ⟨layout, .locked op, r⟩ := rfl
  refine .head hlock (.head (write_step r rfl) ?_)
  cases op with
  | cache uid flags =>
    obtain ⟨⟨entries', inserted⟩, hloop⟩ : ∃ p,
        cacheLoop uid flags layout.entries (homeSlot uid) shmHashMapSize (homeSlot uid) = some p :=
      ⟨_, SharedFlagsLemmas.cacheLoop_eq layout.entries uid flags⟩
    have happly : FlagOp.apply layout (.cache uid flags) = ⟨layout.version + 2, entries'⟩ := by
      unfold homeSlot at hloop
      simp only [FlagOp.apply, cacheProcessFlags, hloop]
    rw [happly]
    exact .head (write_step r rfl)
      (.trans (cache_alone r shmHashMapSize (homeSlot uid) hloop) (.single (write_step r rfl)))
  | invalidate =>
    exact .head (write_step r rfl)
      (.trans (invalidate_alone r (shmHashMapSize - 1) 0 layout.entries (by decide)
        (fun j hj => absurd hj (Nat.not_lt_zero _))) (.single (write_step r rfl)))

/-- A read that comes to validate its flags began with an even version, and finds the same one. -/
theorem began_even {s₀ s₁ s₂ : TableState} {tr : List (TableState × TableStep)} {uid flags : UInt32}
    (hbegin : s₀.Step (.beginRead uid) s₁) (hread : Run TableState.Step s₁ tr s₂)
    (hone : ∀ p ∈ tr, ∀ u, p.2 ≠ .beginRead u)
    (hval : s₂.reader = .validate uid s₂.layout.version flags) :
    s₁.layout.version &&& 1 = 0 ∧ s₁.reader = .probing uid s₁.layout.version (homeSlot uid) ∧
      s₂.layout.version = s₁.layout.version ∧ ∀ p ∈ tr, InRead uid s₁.layout.version p.1 := by
  obtain ⟨hlayout, -, hphase⟩ := beginRead_spec hbegin
  have hread := hread.restrict (fun _ i => ∀ u, i ≠ .beginRead u) hone
  rcases hphase with hdone | ⟨heven, hprobe⟩
  · -- an odd first load sends the reader to the daemon, so it cannot have come this far
    obtain ⟨hstill, _⟩ := hread.invariant (fun s => s.reader = .done uid none)
      (fun _ _ _ hs hstep => done_step hs hstep.1 hstep.2) hdone
    rw [hstill] at hval
    cases hval
  rw [← hlayout] at heven hprobe
  have hin₁ : InRead uid s₁.layout.version s₁ := by
    unfold InRead
    rw [hprobe]
    exact ⟨rfl, rfl⟩
  obtain ⟨hin₂, hin⟩ := hread.invariant (InRead uid s₁.layout.version)
    (fun _ _ _ hs hstep => inRead_step hs hstep.1 hstep.2) hin₁
  refine ⟨heven, hprobe, ?_, hin⟩
  unfold InRead at hin₂
  rw [hval] at hin₂
  exact hin₂.2

/-- Between two loads of the same even version nothing was written, if not too many writes ended. -/
theorem unwritten_between {s₁ s₂ : TableState} {tr₁ tr : List (TableState × TableStep)}
    (hbefore : Run TableState.Step .init tr₁ s₁) (hread : Run TableState.Step s₁ tr s₂)
    (heven : s₁.layout.version &&& 1 = 0) (hver : s₂.layout.version = s₁.layout.version)
    (hfew : writesFinished tr < 2 ^ 31) :
    s₁.writer.midUpdate = false ∧ ∀ p ∈ tr, p.1.layout.entries = s₁.layout.entries := by
  obtain ⟨hprot₁, hb₁⟩ := protocol_run hbefore trivial
  obtain ⟨hprot₂, _⟩ := protocol_run (hbefore.append hread) trivial
  obtain ⟨hprot, _⟩ := protocol_run hread hb₁
  have hmid₁ : s₁.writer.midUpdate = false := mid_of_even hprot₁ heven
  have hmid₂ : s₂.writer.midUpdate = false := mid_of_even hprot₂ (by rw [hver]; exact heven)
  obtain ⟨_, hsame⟩ := Seqlock.Protocol.stable hprot hmid₁ hmid₂ (congrArg UInt32.toBitVec hver) hfew
  exact ⟨hmid₁, fun p hp => (hsame p hp).2⟩

/-- The seqlock never yields a torn answer. Take any run from the initialized
table, in which a read of `uid` makes its first version load (`s₀` to `s₁`),
goes on among any other steps (`s₁` to `s₂`) and returns cached flags at its
second version load (`s₂` to `s₃`), with fewer than `2 ^ 31` writes ending in
between. Then there is a state between the two loads in which no write was in
progress and the table mapped `uid` to exactly these flags. -/
theorem seqlock_never_torn {s₀ s₁ s₂ s₃ : TableState} {tr₀ tr : List (TableState × TableStep)}
    {uid flags : UInt32} (hbefore : Run TableState.Step .init tr₀ s₀)
    (hbegin : s₀.Step (.beginRead uid) s₁) (hread : Run TableState.Step s₁ tr s₂)
    (hone : ∀ p ∈ tr, ∀ u, p.2 ≠ .beginRead u)
    (hreturn : s₂.Step .read s₃) (hflags : s₃.reader = .done uid (some flags))
    (hfew : writesFinished tr < 2 ^ 31) :
    ∃ s, s ∈ s₁ :: tr.map Prod.fst ++ [s₂] ∧ s.writer.midUpdate = false ∧
      MapsTo s.layout.entries uid flags ∧
      (uid ≠ u32Max → Probing.lookup homeSlot (view s.layout.entries) uid = some flags) := by
  have hval := returned_spec hreturn hflags
  obtain ⟨heven, hprobe, hver, hin⟩ := began_even hbegin hread hone hval
  obtain ⟨hmid, hsame⟩ := unwritten_between (.snoc hbefore hbegin) hread heven hver hfew
  -- so the reader followed the undisturbed probe of the entries of `s₁`
  have hfollow₁ : Follows s₁.layout.entries uid s₁ := by
    unfold Follows
    rw [hprobe]
    exact ⟨shmHashMapSize, rfl⟩
  obtain ⟨hfollow₂, _⟩ := (hread.restrict (fun s i => InRead uid s₁.layout.version s ∧
      s.layout.entries = s₁.layout.entries ∧ ∀ u, i ≠ .beginRead u)
    fun p hp => ⟨hin p hp, hsame p hp, hone p hp⟩).invariant (Follows s₁.layout.entries uid)
    (fun _ _ _ hs ⟨hok, hstep⟩ => follows_step hok.1 hs hok.2.1 hok.2.2 hstep) hfollow₁
  have hmaps : MapsTo s₁.layout.entries uid flags := by
    unfold Follows at hfollow₂
    rw [hval] at hfollow₂
    exact hfollow₂
  refine ⟨s₁, List.mem_append_left _ List.mem_cons_self, hmid, hmaps, fun huid => ?_⟩
  rw [MapsTo, SharedFlagsLemmas.probeLoop_eq huid] at hmaps
  exact Option.some.inj hmaps

/-- A read while another write waits with the lock taken: the flags it returns
are those cached before. -/
theorem seqlock_never_torn_cached :
    ∃ s : TableState, s.writer.midUpdate = false ∧ MapsTo s.layout.entries 10001 5 := by
  have hbefore := run_of_exec (show exec TableState.step .init
    [.lock (.cache 10001 5), .write, .write, .write, .write, .write, .write] = some (_, _) from rfl)
  have hread := run_of_exec (show exec TableState.step
    ⟨{ (initializeSharedMemory.setUid (homeSlot 10001) 10001).setFlags (homeSlot 10001) 5 with
        version := 2 }, .idle, .probing 10001 2 (homeSlot 10001)⟩
    [.read, .lock .invalidate, .read] = some (_, _) from rfl)
  obtain ⟨s, _, hidle, hmaps, _⟩ := seqlock_never_torn hbefore.1 rfl hread.1 (by
    intro p hp u
    simp only [List.mem_cons, List.not_mem_nil, or_false] at hp
    rcases hp with rfl | rfl | rfl <;> exact nofun) rfl rfl (by decide)
  exact ⟨s, hidle, hmaps⟩

end NyaZygisk
