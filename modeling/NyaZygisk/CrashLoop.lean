import NyaZygisk.ChildEvents
import NyaZygisk.Lib.LastRun

/-!
# Crash loops of zygote

Each time the monitor sees a zygote start while it traces, it compares the time with that of the
last such start, and it stops tracing when five of them have followed each other closely.
-/

namespace NyaZygisk

open LastRun List Runs

namespace AppMonitor

/-! ## Specification -/

/-- The time of an event in which a zygote starts while the monitor traces. -/
def startsZygote (m : AppMonitor) : Event → Option Int
  | .child pid status env =>
    if m.isCandidate pid = true ∧ status = execStop ∧
        containsText env.program "stub_zygote" = false ∧ m.tracingState = .tracing ∧
          isHyosSpawner m.abi (cleanProg env.program) = false ∧
            cleanProg env.program = m.abi.programPath then
      some env.now
    else none
  | .message _ _ _ | .processes _ _ => none

def startTimes (tr : List (AppMonitor × Event)) : List Int :=
  tr.filterMap fun p => p.1.startsZygote p.2

def Follows (previous now : Int) : Prop := now - previous < crashLoopWindowSeconds

instance (previous now : Int) : Decidable (Follows previous now) :=
  inferInstanceAs (Decidable (_ < _))

/-- The monitor has stopped tracing because of a crash loop. -/
def CrashStopped (m : AppMonitor) : Prop :=
  m.tracingState = .stopping ∧ m.stopReason = "zygote crashed"

instance (m : AppMonitor) : Decidable m.CrashStopped := inferInstanceAs (Decidable (_ ∧ _))

namespace CrashLoopLemmas

variable {m : AppMonitor} {env : ChildEnv} {pid : Nat} {status : Status}

/-! ## The counter -/

theorem counter_checkAndPrepareInjection :
    (m.checkAndPrepareInjection env).2.counter = m.counter.started env.now := by
  unfold checkAndPrepareInjection
  simp only
  split
  · rfl
  · split <;> next h => exact congrArg (·.2.counter) h.symm

theorem counter_requestRearm (renv : Rearm.Env) (seizes : Bool) :
    (m.requestRearm renv seizes).counter = m.counter := by
  obtain ⟨s, ⟨_, rfl⟩ | ⟨_, rfl⟩, h | h⟩ := requestRearm_eq m renv seizes <;>
    exact congrArg (·.counter) h

/-- Where a zygote starts, the injection is prepared for it. -/
theorem core_of_startsZygote {now : Int} (h : m.startsZygote (.child pid status env) = some now) :
    now = env.now ∧ m.tracingState = .tracing ∧
      m.core env pid status = (m.checkAndPrepareInjection env).2 := by
  rw [startsZygote] at h
  split at h
  · next hstart =>
    obtain ⟨hcandidate, hexec, hstub, htracing, hhyos, hzygote⟩ := hstart
    obtain ⟨hparent, hdaemon, hprocess⟩ := isCandidate_iff.mp hcandidate
    refine ⟨(Option.some.inj h).symm, htracing, ?_⟩
    rw [core, if_neg (isParent_iff.not.mp (Bool.eq_false_iff.mp hparent)),
      if_neg (Bool.eq_false_iff.mp hdaemon), if_pos ⟨hprocess, hexec, hstub⟩, prepare,
      if_neg (by simp [htracing]), if_neg (Bool.eq_false_iff.mp hhyos), if_pos hzygote]
  · cases h

theorem counter_core_of_none (h : m.startsZygote (.child pid status env) = none) :
    (m.core env pid status).counter = m.counter := by
  unfold core
  split
  · split <;> rfl
  · next hparent =>
    split
    · rfl
    · next hdaemon =>
      split
      · next hexec =>
        have hcandidate : m.isCandidate pid = true :=
          isCandidate_iff.mpr ⟨Bool.eq_false_iff.mpr (isParent_iff.not.mpr hparent),
            Bool.eq_false_iff.mpr hdaemon, hexec.1⟩
        unfold prepare
        split
        · rfl
        · next htracing =>
          split
          · rfl
          · next hhyos =>
            split
            · next hzygote =>
              rw [ne_eq, not_not] at htracing
              rw [Bool.not_eq_true] at hhyos
              rw [startsZygote, if_pos ⟨hcandidate, hexec.2.1, hexec.2.2, htracing, hhyos, hzygote⟩] at h
              cases h
            · rfl
      · rfl

end CrashLoopLemmas

open CrashLoopLemmas in
/-- Only the start of a zygote changes the counter. -/
theorem counter_next (m : AppMonitor) (e : Event) :
    (m.next e).counter = ((m.startsZygote e).map m.counter.started).getD m.counter := by
  cases e with
  | child pid status env =>
    obtain ⟨process, stubs, handedOff, heq⟩ := handleChildEvent_core m env pid status
    have hcore : (m.next (.child pid status env)).counter = (m.core env pid status).counter :=
      congrArg (·.counter) heq
    rw [hcore]
    cases hstart : m.startsZygote (.child pid status env) with
    | none => exact counter_core_of_none hstart
    | some now =>
      obtain ⟨rfl, _, hcheck⟩ := core_of_startsZygote hstart
      rw [hcheck]
      exact counter_checkAndPrepareInjection
  | processes => rfl
  | message message renv seizes =>
    cases message with
    | rearm => exact counter_requestRearm renv seizes
    | start | stop | exit | zygoteInjected | daemonSetInfo | daemonSetErrorInfo
    | systemServerStarted => rfl

namespace CrashLoopLemmas

variable {m : AppMonitor}

/-- The counter is about the last run of the times. -/
structure Counts (times : List Int) (c : StartCounter) : Prop where
  last : ∀ now ∈ times.getLast?, c.lastStartTime = now
  run : ∃ run, IsLastRun Follows times run ∧ run.length = c.count

theorem counts_started {times : List Int} {c : StartCounter} (h : Counts times c) (now : Int) :
    Counts (times ++ [now]) (c.started now) := by
  obtain ⟨run, hrun, hcount⟩ := h.run
  refine ⟨fun last hlast => ?_, ?_⟩
  · rw [getLast?_concat] at hlast
    exact Option.some.inj hlast
  · unfold StartCounter.started
    cases hlast : times.getLast? with
    | none =>
      -- the first start: the time it is compared with is not one of a start
      rw [getLast?_eq_none_iff] at hlast
      subst hlast
      have hnil : run = [] := suffix_nil.mp hrun.isEnd
      subst hnil
      refine ⟨[now], isLastRun_nil.snoc (by simp), ?_⟩
      rw [← hcount]
      simp
    | some last =>
      rw [h.last last hlast]
      split
      · next hfollows =>
        refine ⟨run ++ [now], hrun.snoc fun a ha => ?_, ?_⟩
        · cases hlast.symm.trans ha
          exact hfollows
        · rw [length_append, hcount]
          rfl
      · next hfollows => exact ⟨[now], isLastRun_snoc_of_not hlast hfollows, rfl⟩

theorem startTimes_snoc (tr : List (AppMonitor × Event)) (e : Event) :
    startTimes (tr ++ [(m, e)]) = startTimes tr ++ (m.startsZygote e).toList := by
  rw [startTimes, filterMap_append]
  cases h : m.startsZygote e <;> simp [startTimes, h]

/-- In every run, the counter is about the starts of zygote so far. -/
theorem counts_startTimes {start t : AppMonitor} {tr : List (AppMonitor × Event)}
    (hrun : Steps start tr t) (hzero : start.counter.count = 0) : Counts (startTimes tr) t.counter := by
  induction hrun with
  | refl => exact ⟨fun now h => (by cases h), [], isLastRun_nil, hzero.symm⟩
  | @snoc tr m u e _ hstep ih =>
    subst hstep
    rw [startTimes_snoc, counter_next]
    cases m.startsZygote e with
    | none => simpa using ih
    | some now => exact counts_started ih now

theorem crashStopped_checkAndPrepareInjection {env : ChildEnv} (htracing : m.tracingState = .tracing) :
    (m.checkAndPrepareInjection env).2.CrashStopped ↔
      crashLoopRetryCount ≤ (m.counter.started env.now).count := by
  unfold checkAndPrepareInjection isInCrashLoop
  simp only [decide_eq_true_eq]
  split
  · next hcrash =>
    refine iff_of_true ⟨?_, ?_⟩ hcrash
    · simp [requestStop, Rearm.requestStop, htracing]
    · simp [requestStop, htracing]
  · next hcrash =>
    refine iff_of_false ?_ hcrash
    generalize hspawn : ({ m with
        counter := m.counter.started env.now
        status := { m.status with zygoteInjected := false } } : AppMonitor) = spawning
    have hstate : (spawning.ensureDaemonCreated env.daemonFork).2.tracingState = .tracing := by
      rw [tracingState_ensureDaemonCreated, ← hspawn]
      exact htracing
    generalize spawning.ensureDaemonCreated env.daemonFork = r at hstate
    obtain ⟨_ | _, t⟩ := r
    · simp only at hstate
      simp [CrashStopped, requestStop, hstate]
    · simp only at hstate
      simp [CrashStopped, hstate]

end CrashLoopLemmas

open CrashLoopLemmas in
/-- In every run, a zygote that starts while the monitor traces is refused for a crash loop exactly
when its start ends a run of at least five that follow each other within the window; and nothing
but such a start changes the counter. -/
theorem crash_loop_exact {lp64 : Bool} {moduleDir : String} {procs : List Rearm.Proc}
    {mapped : List Nat} {m : AppMonitor} {tr : List (AppMonitor × Event)}
    (hrun : Steps (started lp64 moduleDir procs mapped) tr m) :
    (∀ e now, m.startsZygote e = some now →
      ((m.next e).CrashStopped ↔
        ∃ run, IsLastRun Follows (startTimes tr ++ [now]) run ∧ crashLoopRetryCount ≤ run.length)) ∧
      ∀ e, m.startsZygote e = none → (m.next e).counter = m.counter := by
  constructor
  · intro e now hstart
    cases e with
    | message | processes => cases hstart
    | child pid status env =>
      obtain ⟨rfl, htracing, hcore⟩ := core_of_startsZygote hstart
      obtain ⟨process, stubs, handedOff, heq⟩ := handleChildEvent_core m env pid status
      obtain ⟨run, hlast, hcount⟩ := (counts_started (counts_startTimes hrun rfl) env.now).run
      have hstopped : (m.next (.child pid status env)).CrashStopped ↔
          (m.checkAndPrepareInjection env).2.CrashStopped := by
        rw [next, heq, ← hcore]
        exact Iff.rfl
      rw [hstopped, crashStopped_checkAndPrepareInjection htracing, ← hcount]
      constructor
      · exact fun hfive => ⟨run, hlast, hfive⟩
      · rintro ⟨other, hother, hfive⟩
        exact hfive.trans_eq (hother.length_eq hlast)
  · intro e hnone
    rw [counter_next, hnone]
    rfl

/-- A process is attached to and executes zygote at a time. -/
def zygoteStart (pid : Nat) (now : Int) : List Event :=
  [.child pid trapStop obliging,
    .child pid execStop { zygoteExec with now := now, waited := some (.exited 1) }]

/-- Four zygotes have started within the window, and another process is attached to. -/
def fourStarts : List Event :=
  ([10, 20, 30, 40] : List Int).flatMap (zygoteStart 42) ++ [.child 42 trapStop obliging]

theorem crash_loop_fifth :
    ∃ run, IsLastRun Follows (startTimes (path next idle fourStarts) ++ [69]) run ∧
      crashLoopRetryCount ≤ run.length := by
  have hstart : (List.foldl next idle fourStarts).startsZygote
      (.child 42 execStop { zygoteExec with now := 69 }) = some 69 := by decide +kernel
  exact ((crash_loop_exact (run_path next idle fourStarts)).1 _ 69 hstart).mp (by decide +kernel)

end AppMonitor

end NyaZygisk
