import NyaZygisk.FlagCache

/-!
# The fast path over sequential histories

`GetProcessFlags` of `daemon.cpp` answers from the shared table when it can (the
fast path) and asks the daemon when it cannot. Here calls, rewrites of the two
files and iterations of the config watcher happen one after the other; each is
a run of steps of `FlagCache` that nothing interrupts.

The watcher compares the modification time of `config.prop` only, while
`exclude::lookup` depends on `packages.list` as well. A rewrite that the watcher
does not notice is harmless only if it changes the exclusion of no uid that the
table answers.
-/

namespace NyaZygisk

open FlagCacheLemmas List Runs SharedFlagsLemmas

/-! ## Events -/

inductive FlagEvent
  /-- A client calls `GetProcessFlags`, with the table mapped or not. What
  `root_impl` answers about the uid, its manager aside, may differ each time. -/
  | getProcessFlags (uid : UInt32) (root : RootAnswers) (mapped : Bool)
  | rewriteConfig (mtime : Nat) (text : Option String)
  | rewriteList (mtime : Nat) (text : Option String)
  /-- The watcher reads its first `last`. -/
  | watcherStart
  | watcherIteration
deriving DecidableEq

def FlagEvent.isRewrite : FlagEvent → Bool
  | .rewriteConfig _ _ | .rewriteList _ _ => true
  | _ => false

def answeredFast (layout : ShmLayout) (uid : UInt32) : Bool :=
  match readCachedFlags layout uid with
  | some (some _) => true
  | _ => false

/-- The watcher's next comparison finds another modification time. -/
def FlagSystem.noticing (s : FlagSystem) : Bool :=
  match s.watcher with
  | .sleeping last => last ≠ s.files.config.mtime
  | _ => false

section Histories

-- which uids are the root manager's
variable (isManager : UInt32 → Bool)

/-- The steps of an event, by the state it meets. -/
def FlagEvent.steps (s : FlagSystem) : FlagEvent → List FlagStep
  | .getProcessFlags uid root mapped =>
    if mapped && answeredFast s.layout uid then []
    else [.lookup 0 uid { root with uidIsManager := isManager uid }, .reply 0 true, .cache 0]
  | .rewriteConfig mtime text => [.rewriteConfig mtime text]
  | .rewriteList mtime text => [.rewriteList mtime text]
  | .watcherStart => [.watcherStart]
  | .watcherIteration =>
    if s.noticing then [.watcherPoll, .watcherRefresh, .watcherInvalidate] else [.watcherPoll]

def FlagSystem.event (s : FlagSystem) (e : FlagEvent) : Option FlagSystem :=
  (exec FlagSystem.step s (e.steps isManager s)).map Prod.snd

def FlagSystem.Event (s : FlagSystem) (e : FlagEvent) (t : FlagSystem) : Prop :=
  s.event isManager e = some t

/-- What the fast path answers for a uid that is not the manager's has the
`PROCESS_EXCLUDED` bit that `exclude::lookup` gives on the current files. -/
def FastPathAgrees (s : FlagSystem) : Prop :=
  ∀ uid flags, Hit s.layout uid flags → isManager uid = false →
    (flags &&& ProcessFlags.excluded ≠ 0 ↔ (Exclude.lookupOn s.files uid).isSome = true)

/-- Between two states of the files, the exclusion of every uid that the table
answers is the same. -/
def SameExclusion (layout : ShmLayout) (files files' : Exclude.Files) : Prop :=
  ∀ uid flags, Hit layout uid flags → isManager uid = false →
    (Exclude.lookupOn files' uid).isSome = (Exclude.lookupOn files uid).isSome

/-- A rewrite is one the watcher will act on, or one that changes nothing for the
uids in the table. -/
def Harmless (s : FlagSystem) : FlagEvent → Prop
  | .rewriteConfig mtime text =>
    let t := s.rewriteConfig mtime text
    t.noticing = true ∨ SameExclusion isManager s.layout s.files t.files
  | .rewriteList mtime text =>
    let t := s.rewriteList mtime text
    t.noticing = true ∨ SameExclusion isManager s.layout s.files t.files
  | _ => True

end Histories

/-- A watcher iteration has run after the last rewrite. -/
def Settled (tr : List (FlagSystem × FlagEvent)) : Prop :=
  ∃ tr₁ s tr₂, tr = tr₁ ++ (s, .watcherIteration) :: tr₂ ∧
    ∀ p ∈ tr₂, p.2.isRewrite = false

namespace FlagHistoryLemmas

/-- The bit for excluded apps says what `exclude::lookup` answered. -/
theorem excluded_bit {root : RootAnswers} (hmanager : root.uidIsManager = false)
    (exclude : Option Bool) :
    processFlags root exclude &&& ProcessFlags.excluded ≠ 0 ↔ exclude.isSome = true := by
  obtain ⟨impl, manager, granted, umount⟩ := root
  cases hmanager
  rcases exclude with _ | _ | _ <;> cases impl <;> cases granted <;> cases umount <;> decide

structure Resting (s : FlagSystem) : Prop where
  orderly : Orderly s
  idle : s.handlers 0 = .idle
  sleeps : s.watcher = .starting ∨ ∃ last, s.watcher = .sleeping last

variable {isManager : UInt32 → Bool}

def askedLayout (s : FlagSystem) (uid : UInt32) (root : RootAnswers) : ShmLayout :=
  if nonnegative uid then
    cacheProcessFlags s.layout uid
      (processFlags root (if readsConfig root uid then Exclude.lookupOn s.files uid else none))
  else s.layout

inductive EventCase (isManager : UInt32 → Bool) (s : FlagSystem) : FlagEvent → FlagSystem → Prop
  | answered {uid : UInt32} {root : RootAnswers} {mapped : Bool} :
      EventCase isManager s (.getProcessFlags uid root mapped) s
  | asked {uid : UInt32} {root : RootAnswers} {mapped : Bool} {t : FlagSystem} :
      t.files = s.files → t.watcher = s.watcher → t.handlers 0 = .idle →
      t.layout = askedLayout s uid { root with uidIsManager := isManager uid } →
      EventCase isManager s (.getProcessFlags uid root mapped) t
  | rewriteConfig {mtime : Nat} {text : Option String} : some mtime ∉ s.configTimes →
      EventCase isManager s (.rewriteConfig mtime text) (s.rewriteConfig mtime text)
  | rewriteList {mtime : Nat} {text : Option String} : some mtime ∉ s.listTimes →
      EventCase isManager s (.rewriteList mtime text) (s.rewriteList mtime text)
  | start : s.watcher = .starting →
      EventCase isManager s .watcherStart { s with watcher := .sleeping s.files.config.mtime }
  | calm : s.watcher = .sleeping s.files.config.mtime → EventCase isManager s .watcherIteration s
  | flush {last : Option Nat} {t : FlagSystem} : s.watcher = .sleeping last →
      last ≠ s.files.config.mtime → t.files = s.files →
      t.watcher = .sleeping s.files.config.mtime → t.handlers = s.handlers →
      t.layout = invalidateProcessFlagCache s.layout → EventCase isManager s .watcherIteration t

variable {e : FlagEvent} {s t : FlagSystem} {tr : List (FlagSystem × FlagEvent)}

theorem noticing_iff :
    s.noticing = true ↔ ∃ last, s.watcher = .sleeping last ∧ last ≠ s.files.config.mtime := by
  unfold FlagSystem.noticing
  cases s.watcher <;> simp

theorem eq_of_not_noticing (h : ¬ s.noticing = true) {last : Option Nat} (hs : s.watcher = .sleeping last) :
    last = s.files.config.mtime := by
  by_contra hne
  exact h (noticing_iff.mpr ⟨last, hs, hne⟩)

theorem poll_of_caughtUp (h : s.watcher = .sleeping s.files.config.mtime) : s.step .watcherPoll = some s := by
  simp only [FlagSystem.step, h, ne_eq, not_true_eq_false, if_false]
  rw [← h]

theorem asked_spec (hs : Resting s) (uid : UInt32) (root : RootAnswers) :
    ∃ t, (exec FlagSystem.step s [.lookup 0 uid root, .reply 0 true, .cache 0]).map Prod.snd = some t ∧
      t.files = s.files ∧ t.watcher = s.watcher ∧ t.handlers 0 = .idle ∧
      t.layout = askedLayout s uid root := by
  let flags := processFlags root (askExclude root s.exclude s.files uid).1
  let config := if readsConfig root uid then some s.files.config else none
  let replied := (s.lookup 0 uid root).setHandler 0 (.replied uid flags config)
  have hlookup : s.step (.lookup 0 uid root) = some (s.lookup 0 uid root) := by
    simp only [FlagSystem.step, hs.idle]
  have hlooked : (s.lookup 0 uid root).handlers 0 = .looked uid flags config :=
    setHandler_self _ _ _
  have hreply : (s.lookup 0 uid root).step (.reply 0 true) = some replied := by
    simp only [FlagSystem.step, hlooked, if_true]
    rfl
  have hreplied : replied.handlers 0 = .replied uid flags config := setHandler_self _ _ _
  have hcache : replied.step (.cache 0) = some (replied.cache 0 uid flags config) := by
    simp only [FlagSystem.step, hreplied]
  refine ⟨replied.cache 0 uid flags config, ?_, ?_⟩
  · rw [exec_cons_end hlookup, exec_cons_end hreply, exec_cons_end hcache]
    rfl
  · unfold FlagSystem.cache askedLayout
    rw [← (askExclude_spec hs.orderly root uid).1]
    split <;> exact ⟨rfl, rfl, setHandler_self _ _ _, rfl⟩

theorem iteration_spec {last : Option Nat} (hs : s.watcher = .sleeping last)
    (hnew : last ≠ s.files.config.mtime) :
    ∃ t, (exec FlagSystem.step s [.watcherPoll, .watcherRefresh, .watcherInvalidate]).map Prod.snd =
        some t ∧ t.files = s.files ∧ t.watcher = .sleeping s.files.config.mtime ∧
      t.handlers = s.handlers ∧ t.layout = invalidateProcessFlagCache s.layout := by
  have hpoll : s.step .watcherPoll = some { s with watcher := .noticed s.files.config.mtime } := by
    simp only [FlagSystem.step, hs, ne_eq, hnew.symm, not_false_eq_true, if_true]
  refine ⟨{ s with exclude := Exclude.refresh s.exclude s.files
                   layout := invalidateProcessFlagCache s.layout
                   watcher := .sleeping s.files.config.mtime
                   flushedFor := some s.files.config.mtime }, ?_, rfl, rfl, rfl, rfl⟩
  rw [exec_cons_end hpoll]
  rfl

theorem event_cases (hs : Resting s)
    (h : s.Event isManager e t) : EventCase isManager s e t := by
  unfold FlagSystem.Event FlagSystem.event at h
  cases e with
  | getProcessFlags uid root mapped =>
    simp only [FlagEvent.steps] at h
    split at h
    · cases h; exact .answered
    · obtain ⟨u, hu, hfiles, hwatcher, hidle, hlayout⟩ :=
        asked_spec hs uid { root with uidIsManager := isManager uid }
      rw [hu] at h
      cases h
      exact .asked hfiles hwatcher hidle hlayout
  | rewriteConfig mtime text =>
    rw [FlagEvent.steps, exec_single] at h
    cases step_cases h with
    | rewriteConfig hnew => exact .rewriteConfig hnew
    | watch hi _ => rcases hi with hi | hi <;> cases hi
  | rewriteList mtime text =>
    rw [FlagEvent.steps, exec_single] at h
    cases step_cases h with
    | rewriteList hnew => exact .rewriteList hnew
    | watch hi _ => rcases hi with hi | hi <;> cases hi
  | watcherStart =>
    rw [FlagEvent.steps, exec_single] at h
    rcases hs.sleeps with hstart | ⟨last, hsleep⟩
    · simp only [FlagSystem.step, hstart] at h
      cases h
      exact .start hstart
    · simp [FlagSystem.step, hsleep] at h
  | watcherIteration =>
    simp only [FlagEvent.steps] at h
    split at h
    · next hnotice =>
      obtain ⟨last, hsleep, hnew⟩ := noticing_iff.mp hnotice
      obtain ⟨u, hu, hfiles, hwatcher, hhandlers, hlayout⟩ := iteration_spec hsleep hnew
      rw [hu] at h
      cases h
      exact .flush hsleep hnew hfiles hwatcher hhandlers hlayout
    · next hcalm =>
      rw [exec_single] at h
      rcases hs.sleeps with hstart | ⟨last, hsleep⟩
      · simp [FlagSystem.step, hstart] at h
      · have hsame := eq_of_not_noticing hcalm hsleep
        subst hsame
        rw [poll_of_caughtUp hsleep] at h
        cases h
        exact .calm hsleep

theorem resting_init (files : Exclude.Files) : Resting (.init files) :=
  ⟨orderly_init files, rfl, .inl rfl⟩

theorem resting_event (hs : Resting s)
    (h : s.Event isManager e t) : Resting t := by
  have horderly : Orderly t := by
    obtain ⟨⟨tr, u⟩, hexec, rfl⟩ := Option.map_eq_some_iff.mp h
    exact ((run_of_exec hexec).1.invariant Orderly (fun _ _ _ => orderly_step) hs.orderly).1
  refine ⟨horderly, ?_, ?_⟩
  · cases event_cases hs h with
    | asked _ _ hidle _ => exact hidle
    | flush _ _ _ _ hhandlers _ => rw [hhandlers]; exact hs.idle
    | _ => exact hs.idle
  · cases event_cases hs h with
    | asked _ hwatcher _ _ => rw [hwatcher]; exact hs.sleeps
    | flush _ _ _ hwatcher _ _ => exact .inr ⟨_, hwatcher⟩
    | start _ => exact .inr ⟨_, rfl⟩
    | _ => exact hs.sleeps

/-- The sentinel uid is no app's, and its answer has no bit set. -/
theorem sentinel_agrees {layout : ShmLayout} (h : TableOk layout) {flags : UInt32}
    (hhit : Hit layout u32Max flags) (files : Exclude.Files) :
    flags &&& ProcessFlags.excluded ≠ 0 ↔ (Exclude.lookupOn files u32Max).isSome = true := by
  rw [hit_sentinel h hhit, Exclude.lookupOn, Exclude.lookup, if_neg (by decide)]
  decide

/-- What the daemon stores for a uid that is not the manager's has the right bit. -/
theorem asked_bit {root : RootAnswers} {uid : UInt32} (hmanager : root.uidIsManager = false)
    (huid : nonnegative uid = true) (files : Exclude.Files) :
    processFlags root (if readsConfig root uid then Exclude.lookupOn files uid else none) &&&
        ProcessFlags.excluded ≠ 0 ↔ (Exclude.lookupOn files uid).isSome = true := by
  rw [excluded_bit hmanager, readsConfig, hmanager, huid]
  simp only [Bool.not_false, Bool.true_and]
  split
  · rfl
  · next happ => rw [Exclude.lookupOn, Exclude.lookup, if_neg happ]

theorem agrees_asked (hs : Resting s) (h : FastPathAgrees isManager s) (uid : UInt32)
    (root : RootAnswers) {flags' uid' : UInt32}
    (hhit : Hit (askedLayout s uid { root with uidIsManager := isManager uid }) uid' flags')
    (hmanager : isManager uid' = false) :
    flags' &&& ProcessFlags.excluded ≠ 0 ↔ (Exclude.lookupOn s.files uid').isSome = true := by
  unfold askedLayout at hhit
  split at hhit
  · next huid =>
    have hne := nonnegative_ne_u32Max huid
    by_cases hsentinel : uid' = u32Max
    · subst hsentinel
      exact sentinel_agrees (tableOk_cache hs.orderly.table hne _) hhit s.files
    · rcases hit_cache hs.orderly.table hne hsentinel hhit with ⟨rfl, rfl⟩ | ⟨_, hold⟩
      · exact asked_bit hmanager huid s.files
      · exact h uid' flags' hold hmanager
  · exact h uid' flags' hhit hmanager

/-- A rewrite keeps what is noticed or agrees exactly when it is harmless. -/
theorem rewrite_iff (hlayout : t.layout = s.layout)
    (hnotice : s.noticing = true → t.noticing = true)
    (h : s.noticing = true ∨ FastPathAgrees isManager s) :
    (t.noticing = true ∨ FastPathAgrees isManager t) ↔
      (t.noticing = true ∨ SameExclusion isManager s.layout s.files t.files) := by
  by_cases ht : t.noticing = true
  · exact iff_of_true (.inl ht) (.inl ht)
  have hs : FastPathAgrees isManager s := h.resolve_left fun hn => ht (hnotice hn)
  refine or_congr_right ?_
  unfold FastPathAgrees SameExclusion
  rw [hlayout]
  constructor
  · intro hagree uid flags hhit hmanager
    rw [Bool.eq_iff_iff, ← hagree uid flags hhit hmanager, ← hs uid flags hhit hmanager]
  · intro hsame uid flags hhit hmanager
    rw [hs uid flags hhit hmanager, hsame uid flags hhit hmanager]

theorem agrees_event (hs : Resting s)
    (h : s.noticing = true ∨ FastPathAgrees isManager s) (hevent : s.Event isManager e t) :
    (t.noticing = true ∨ FastPathAgrees isManager t) ↔ Harmless isManager s e := by
  have ht : Resting t := resting_event hs hevent
  cases event_cases hs hevent with
  | answered | calm _ => exact iff_of_true h trivial
  | @asked uid root _ _ hfiles hwatcher _ hlayout =>
    refine iff_of_true ?_ trivial
    rcases h with hn | hagree
    · refine .inl ?_
      unfold FlagSystem.noticing at hn ⊢
      rw [hwatcher, hfiles]
      exact hn
    · refine .inr fun uid' flags' hhit hmanager => ?_
      rw [hlayout] at hhit
      rw [hfiles]
      exact agrees_asked hs hagree uid root hhit hmanager
  | @rewriteConfig mtime text hnew =>
    refine rewrite_iff rfl (fun hn => ?_) h
    obtain ⟨last, hsleep, _⟩ := noticing_iff.mp hn
    refine noticing_iff.mpr ⟨last, hsleep, fun hsame => hnew ?_⟩
    have hseen := hs.orderly.seen last (by rw [hsleep]; rfl)
    rw [hsame] at hseen
    exact hseen
  | rewriteList _ => exact rewrite_iff rfl id h
  | start hstart =>
    refine iff_of_true (.inr (h.resolve_left fun hn => ?_)) trivial
    obtain ⟨last, hsleep, _⟩ := noticing_iff.mp hn
    rw [hstart] at hsleep
    cases hsleep
  | flush _ _ _ _ _ hlayout =>
    refine iff_of_true (.inr fun uid flags hhit _ => ?_) trivial
    have huid : uid = u32Max := hit_invalidate hs.orderly.table (hlayout ▸ hhit)
    subst huid
    exact sentinel_agrees ht.orderly.table hhit t.files

/-- A settled history that goes on is one that ends with an iteration, or one
that was settled and goes on without a rewrite. -/
theorem settled_snoc
    (h : Settled (tr ++ [(s, e)])) :
    e = .watcherIteration ∨ (Settled tr ∧ e.isRewrite = false) := by
  obtain ⟨tr₁, u, tr₂, heq, hquiet⟩ := h
  rcases eq_nil_or_concat tr₂ with rfl | ⟨tr₂, p, rfl⟩
  · cases (append_inj' heq rfl).2
    exact .inl rfl
  · rw [concat_eq_append] at heq hquiet
    have hsplit : tr ++ [(s, e)] = (tr₁ ++ (u, .watcherIteration) :: tr₂) ++ [p] := by
      rw [heq, append_assoc, cons_append]
    obtain ⟨rfl, hlast⟩ := append_inj' hsplit rfl
    cases hlast
    refine .inr ⟨⟨tr₁, u, tr₂, rfl, fun q hq => hquiet q (mem_append_left _ hq)⟩, ?_⟩
    exact hquiet (s, e) (mem_append_right _ mem_cons_self)

/-- Once an iteration has run, the watcher has seen the current `config.prop`
until the next rewrite. -/
theorem caughtUp_of_settled {files : Exclude.Files}
    (h : Run (FlagSystem.Event isManager) (.init files) tr t) (hs : Settled tr) :
    t.watcher = .sleeping t.files.config.mtime := by
  suffices Resting t ∧ (Settled tr → t.watcher = .sleeping t.files.config.mtime) from this.2 hs
  clear hs
  induction h with
  | refl => exact ⟨resting_init files, fun ⟨tr₁, _, _, heq, _⟩ => by simp at heq⟩
  | @snoc tr t u e _ hevent ih =>
    obtain ⟨ht, hcaught⟩ := ih
    refine ⟨resting_event ht hevent, fun hsettled => ?_⟩
    cases event_cases ht hevent with
    | calm hsleep => exact hsleep
    | flush _ _ hfiles hwatcher _ _ => rw [hfiles]; exact hwatcher
    | start hstart => rfl
    | answered =>
      exact hcaught ((settled_snoc hsettled).resolve_left nofun).1
    | asked hfiles hwatcher _ _ =>
      rw [hfiles, hwatcher]
      exact hcaught ((settled_snoc hsettled).resolve_left nofun).1
    | rewriteConfig _ | rewriteList _ => cases ((settled_snoc hsettled).resolve_left nofun).2

theorem not_noticing_of_caughtUp (h : s.watcher = .sleeping s.files.config.mtime) :
    ¬ s.noticing = true := by
  unfold FlagSystem.noticing
  rw [h]
  simp

theorem calm_event (h : s.watcher = .sleeping s.files.config.mtime) :
    s.Event isManager .watcherIteration s := by
  unfold FlagSystem.Event FlagSystem.event
  rw [FlagEvent.steps, if_neg (not_noticing_of_caughtUp h), exec_single, poll_of_caughtUp h]

theorem start_event (h : s.watcher = .starting) :
    ∃ t, s.Event isManager .watcherStart t ∧ t.watcher = .sleeping t.files.config.mtime ∧
      t.files = s.files ∧ t.layout = s.layout := by
  refine ⟨{ s with watcher := .sleeping s.files.config.mtime }, ?_, rfl, rfl, rfl⟩
  unfold FlagSystem.Event FlagSystem.event
  simp only [FlagEvent.steps, exec_single, FlagSystem.step, h]

theorem harmless_of_not_rewrite (h : e.isRewrite = false) :
    Harmless isManager s e := by
  cases e <;> trivial

/-- The events of a history are harmless exactly when, wherever it passes, the
watcher is about to flush or the fast path agrees. -/
theorem harmless_iff {files : Exclude.Files}
    (h : Run (FlagSystem.Event isManager) (.init files) tr t) :
    (∀ p ∈ tr, Harmless isManager p.1 p.2) ↔
      ∀ s ∈ visited tr t, s.noticing = true ∨ FastPathAgrees isManager s := by
  refine h.forall_ok_iff Resting _ _ (fun _ _ _ hs he => resting_event hs he)
    (fun _ _ _ hs hP he => agrees_event hs hP he) (resting_init files) (.inr ?_)
  intro uid flags hhit _
  by_cases huid : uid = u32Max
  · subst huid; exact sentinel_agrees tableOk_init hhit files
  · have hmiss := (hit_iff tableOk_init huid).mp hhit
    rw [show view initializeSharedMemory.entries = fun _ => none from view_free,
      Probing.lookup_empty] at hmiss
    cases hmiss

end FlagHistoryLemmas

open FlagHistoryLemmas

/-- For every sequential history: its rewrites are all noticed by the watcher or
harmless exactly when, in it and in every history that leaves it for calls and
watcher iterations only, the fast path agrees with `exclude::lookup` whenever a
watcher iteration has run after the last rewrite. -/
theorem fast_path_agrees_iff {isManager : UInt32 → Bool} {files : Exclude.Files}
    {tr : List (FlagSystem × FlagEvent)} {t : FlagSystem}
    (h : Run (FlagSystem.Event isManager) (.init files) tr t) :
    (∀ p ∈ tr, Harmless isManager p.1 p.2) ↔
      ∀ tr₁ tr₂ u, tr₁ <+: tr → (∀ p ∈ tr₂, p.2.isRewrite = false) →
        Run (FlagSystem.Event isManager) (.init files) (tr₁ ++ tr₂) u → Settled (tr₁ ++ tr₂) →
        FastPathAgrees isManager u := by
  constructor
  · intro hok tr₁ tr₂ u hpre hquiet hrun hsettled
    have hall : ∀ p ∈ tr₁ ++ tr₂, Harmless isManager p.1 p.2 := by
      intro p hp
      rcases mem_append.mp hp with hp | hp
      · exact hok p (hpre.subset hp)
      · exact harmless_of_not_rewrite (hquiet p hp)
    have hcaught := caughtUp_of_settled hrun hsettled
    exact ((harmless_iff hrun).mp hall u (mem_visited_end _ _)).resolve_left
      (not_noticing_of_caughtUp hcaught)
  · intro hall
    rw [harmless_iff h]
    intro s hs
    obtain ⟨tr₁, hpre, hrun⟩ := h.to_visited hs
    have hrest : Resting s := (hrun.invariant Resting (fun _ _ _ => resting_event)
      (resting_init files)).1
    by_cases hnotice : s.noticing = true
    · exact .inl hnotice
    refine .inr ?_
    -- let the watcher run its next iteration, which changes nothing here
    rcases hrest.sleeps with hstart | ⟨last, hsleep⟩
    · obtain ⟨u, hu, hcaught, hfiles, hlayout⟩ :
          ∃ u, s.Event isManager .watcherStart u ∧ _ := start_event hstart
      have hrun' := (hrun.snoc hu).snoc (calm_event hcaught)
      rw [append_assoc, cons_append, nil_append] at hrun'
      have hagree := hall tr₁ _ u hpre (by simp [FlagEvent.isRewrite]) hrun'
        ⟨tr₁ ++ [(s, .watcherStart)], u, [], by simp, fun p hp => absurd hp not_mem_nil⟩
      unfold FastPathAgrees at hagree ⊢
      rwa [hfiles, hlayout] at hagree
    · have hsame := eq_of_not_noticing hnotice hsleep
      subst hsame
      exact hall tr₁ _ s hpre (by simp [FlagEvent.isRewrite]) (hrun.snoc (calm_event hsleep))
        ⟨tr₁, s, [], rfl, fun p hp => absurd hp not_mem_nil⟩

/-- The watcher acts on the rewrite, if the event is one. -/
def willNotice (s : FlagSystem) : FlagEvent → Bool
  | .rewriteConfig mtime text => (s.rewriteConfig mtime text).noticing
  | .rewriteList mtime text => (s.rewriteList mtime text).noticing
  | _ => true

/-- Whether a history is settled shows in its events alone. -/
theorem FlagHistoryLemmas.settled_of_events {tr : List (FlagSystem × FlagEvent)}
    (es₁ es₂ : List FlagEvent) (h : tr.map Prod.snd = es₁ ++ .watcherIteration :: es₂)
    (hquiet : ∀ e ∈ es₂, e.isRewrite = false) : Settled tr := by
  obtain ⟨tr₁, rest, rfl, rfl, hrest⟩ := map_eq_append_iff.mp h
  obtain ⟨⟨s, e⟩, tr₂, rfl, he, rfl⟩ := map_eq_cons_iff.mp hrest
  cases he
  exact ⟨tr₁, s, tr₂, rfl, fun p hp => hquiet p.2 (mem_map_of_mem hp)⟩

theorem FlagHistoryLemmas.harmless_of_willNotice {isManager : UInt32 → Bool}
    {tr : List (FlagSystem × FlagEvent)} (h : (tr.all fun p => willNotice p.1 p.2) = true) :
    ∀ p ∈ tr, Harmless isManager p.1 p.2 := by
  rintro ⟨s, e⟩ hp
  have hnotice := all_eq_true.mp h (s, e) hp
  cases e <;> first | trivial | exact .inl hnotice

/-- An app is taken off the exclusion list after its flags were cached, and
asked about again. -/
def noticedHistory : List FlagEvent :=
  [.watcherStart, .getProcessFlags 10001 plainRoot true, .rewriteConfig 2 (some "exclude_apps=\n"),
    .watcherIteration, .getProcessFlags 10001 plainRoot true]

theorem fast_path_agrees_iff_noticed :
    ∃ tr s, Run (FlagSystem.Event fun _ => false) (.init ⟨excludingConfig, oneAppList⟩) tr s ∧
      Settled tr ∧ Hit s.layout 10001 ProcessFlags.rootIsMagisk ∧
      FastPathAgrees (fun _ => false) s := by
  obtain ⟨hrun, hevents⟩ := run_exec_get (show (exec (FlagSystem.event fun _ => false)
    (.init ⟨excludingConfig, oneAppList⟩) noticedHistory).isSome = true from rfl)
  have hsettled := settled_of_events (noticedHistory.take 3) (noticedHistory.drop 4) hevents
    (by decide)
  refine ⟨_, _, hrun, hsettled, by decide, ?_⟩
  exact (fast_path_agrees_iff hrun).mp (harmless_of_willNotice (by decide)) _ [] _ prefix_rfl
    (fun p hp => absurd hp not_mem_nil) (by rw [append_nil]; exact hrun)
    (by rw [append_nil]; exact hsettled)

/-- A second package that shares the uid of an excluded one is installed, so that
the app is no longer excluded; the watcher runs, and does not notice. -/
def unnoticedHistory : List FlagEvent :=
  [.watcherStart, .getProcessFlags 10001 plainRoot true,
    .rewriteList 2 (some
      "org.nya 10001 0 /data/user/0/org.nya\norg.nya.pack 10001 0 /data/user/0/org.nya.pack\n"),
    .watcherIteration]

theorem fast_path_disagrees :
    ∃ tr s, Run (FlagSystem.Event fun _ => false) (.init ⟨excludingConfig, oneAppList⟩) tr s ∧
      Settled tr ∧ Exclude.lookupOn s.files 10001 = none ∧ ¬ FastPathAgrees (fun _ => false) s := by
  obtain ⟨hrun, hevents⟩ := run_exec_get (show (exec (FlagSystem.event fun _ => false)
    (.init ⟨excludingConfig, oneAppList⟩) unnoticedHistory).isSome = true from rfl)
  have hsettled := settled_of_events (unnoticedHistory.take 3) (unnoticedHistory.drop 4) hevents
    (by decide)
  refine ⟨_, _, hrun, hsettled, by decide, fun h => ?_⟩
  have hbit := h 10001
    (ProcessFlags.excluded ||| ProcessFlags.onDenylist ||| ProcessFlags.rootIsMagisk) (by decide) rfl
  exact absurd (hbit.mp (by decide)) (by decide)

end NyaZygisk
