import NyaZygisk.AppMonitor

/-!
# Tracing init, and exiting

What the monitor says of its tracing is set by the requests, by the injection path and by the
handler of init's stops, and none of them waits for the answer of the ptrace call that goes with
it. After EXIT the socket handler still reads what is queued.
-/

namespace NyaZygisk

open Runs

namespace AppMonitor

/-! ## Specification -/

/-- What the monitor says of its tracing is true of init. -/
def TracesInit (m : AppMonitor) : Prop :=
  (m.tracingState = .tracing ∨ m.tracingState = .stopping → m.initSeized = true) ∧
    (m.tracingState = .stopped → m.initSeized = false)

instance (m : AppMonitor) : Decidable m.TracesInit := inferInstanceAs (Decidable (_ ∧ _))

/-- init is seized where a request starts the tracing again, and let go of where it has stopped. -/
def InitAnswers (m : AppMonitor) : Event → Prop
  | .message .start _ seizes | .message .rearm _ seizes => m.tracingState = .stopped → seizes = true
  | .message _ _ _ => True
  | .child pid status env =>
    pid = 1 ∧ status = trapStop ∧ m.tracingState = .stopping → env.succeeds (.detach 0) = true
  | .processes _ _ => True

instance (m : AppMonitor) : (e : Event) → Decidable (InitAnswers m e)
  | .message .start _ _ | .message .rearm _ _ => inferInstanceAs (Decidable (_ → _))
  | .message .stop _ _ | .message .exit _ _ | .message .zygoteInjected _ _
  | .message (.daemonSetInfo _) _ _ | .message (.daemonSetErrorInfo _) _ _
  | .message .systemServerStarted _ _ | .processes _ _ => inferInstanceAs (Decidable True)
  | .child _ _ _ => inferInstanceAs (Decidable (_ → _))

/-- Nothing has been started since `start`. -/
def StartsNothing (start m : AppMonitor) : Prop :=
  m.daemons = start.daemons ∧ m.launched = start.launched ∧ m.handedOff = start.handedOff

instance (start m : AppMonitor) : Decidable (StartsNothing start m) :=
  inferInstanceAs (Decidable (_ ∧ _))

/-- A rearm would find the daemon started, or not startable, and no process to inject into. -/
def NothingToStart (m : AppMonitor) : Event → Prop
  | .message .rearm env _ =>
    m.startsDaemon env.daemonFork = false ∧
      (∀ z ∈ m.zygotePids, ¬ Rearm.Attaches env m.toSys z) ∧
        ¬ Rearm.AttachesServer env m.toSys
  | _ => True

instance (m : AppMonitor) : (e : Event) → Decidable (NothingToStart m e)
  | .message .rearm _ _ => inferInstanceAs (Decidable (_ ∧ _))
  | .message .start _ _ | .message .stop _ _ | .message .exit _ _ | .message .zygoteInjected _ _
  | .message (.daemonSetInfo _) _ _ | .message (.daemonSetErrorInfo _) _ _
  | .message .systemServerStarted _ _ | .processes _ _ | .child _ _ _ =>
    inferInstanceAs (Decidable True)

namespace InitTracingLemmas

variable {m t start : AppMonitor} {env : ChildEnv} {pid : Nat} {status : Status}

/-! ## What leaves the tracing alone -/

def SameTracing (m t : AppMonitor) : Prop :=
  t.tracingState = m.tracingState ∧ t.initSeized = m.initSeized

theorem tracesInit_congr (h : SameTracing m t) : t.TracesInit ↔ m.TracesInit := by
  rw [TracesInit, TracesInit, h.1, h.2]

theorem tracesInit_requestStop (reason : String) :
    (m.requestStop reason).TracesInit ↔ m.TracesInit := by
  cases hstate : m.tracingState <;>
    simp [TracesInit, requestStop, Rearm.requestStop, hstate]

theorem sameTracing_ensureDaemonCreated (daemonFork : Option Nat) :
    SameTracing m (m.ensureDaemonCreated daemonFork).2 :=
  ⟨tracingState_ensureDaemonCreated m daemonFork, rfl⟩

theorem sameTracing_rearm (renv : Rearm.Env) : SameTracing m (m.rearm renv).2 := by
  obtain ⟨supported, injected, launched, _, h⟩ := Rearm.RearmLemmas.rearm_frame renv m.toSys
  have hensure : (Rearm.ensureDaemonCreated renv m.toSys).2.tracingState = m.tracingState := by
    unfold Rearm.ensureDaemonCreated
    split
    · split <;> rfl
    · rfl
  refine ⟨?_, rfl⟩
  show (Rearm.rearm renv m.toSys).2.tracingState = m.tracingState
  rw [h]
  exact hensure

theorem tracesInit_checkAndPrepareInjection :
    (m.checkAndPrepareInjection env).2.TracesInit ↔ m.TracesInit := by
  unfold checkAndPrepareInjection isInCrashLoop
  simp only
  split
  · exact tracesInit_requestStop _
  · generalize hspawn : ({ m with
        counter := m.counter.started env.now
        status := { m.status with zygoteInjected := false } } : AppMonitor) = spawning
    have hsame : SameTracing m spawning := hspawn ▸ ⟨rfl, rfl⟩
    have hensure := sameTracing_ensureDaemonCreated (m := spawning) env.daemonFork
    generalize spawning.ensureDaemonCreated env.daemonFork = r at hensure
    obtain ⟨_ | _, t⟩ := r
    · exact (tracesInit_requestStop _).trans
        ((tracesInit_congr hensure).trans (tracesInit_congr hsame))
    · exact (tracesInit_congr hensure).trans (tracesInit_congr hsame)

theorem tracesInit_prepare : (m.prepare env).2.TracesInit ↔ m.TracesInit := by
  unfold prepare
  split
  · rfl
  · split
    · exact tracesInit_congr (sameTracing_ensureDaemonCreated env.daemonFork)
    · split
      · exact tracesInit_checkAndPrepareInjection
      · rfl

/-! ## One event -/

theorem tracesInit_requestStart (h : m.TracesInit) (seizes : Bool) :
    (m.requestStart seizes).TracesInit ↔ (m.tracingState = .stopped → seizes = true) := by
  cases hstate : m.tracingState <;>
    simp_all [TracesInit, requestStart, Rearm.requestStart]

theorem tracesInit_requestRearm (h : m.TracesInit) (renv : Rearm.Env) (seizes : Bool) :
    (m.requestRearm renv seizes).TracesInit ↔ (m.tracingState = .stopped → seizes = true) := by
  obtain ⟨s, hs, hrearm⟩ := requestRearm_eq m renv seizes
  have hsame : (m.requestRearm renv seizes).TracesInit ↔ s.TracesInit := by
    rcases hrearm with hrearm | hrearm
    · rw [hrearm]
      exact tracesInit_congr (sameTracing_rearm renv)
    · rw [hrearm]
      exact (tracesInit_requestStop _).trans (tracesInit_congr (sameTracing_rearm renv))
  rw [hsame]
  rcases hs with ⟨htracing, rfl⟩ | ⟨_, rfl⟩
  · simp [h, htracing]
  · exact tracesInit_requestStart h seizes

theorem tracesInit_core (h : m.TracesInit) :
    (m.core env pid status).TracesInit ↔ InitAnswers m (.child pid status env) := by
  unfold core InitAnswers
  split
  · split
    · next hstop =>
      have hseized := h.1 (Or.inr hstop.2.2)
      simp [TracesInit, hseized, hstop]
    · next hstop => simp [h, hstop]
  · next hparent =>
    have hinit : pid ≠ 1 := fun hpid => hparent (Or.inl hpid)
    simp only [hinit, false_and, false_imp_iff, iff_true]
    split
    · exact h
    · split
      · exact tracesInit_prepare.mpr h
      · exact h

theorem tracesInit_next (h : m.TracesInit) (e : Event) :
    (m.next e).TracesInit ↔ InitAnswers m e := by
  cases e with
  | child pid status env =>
    obtain ⟨process, stubs, handedOff, heq⟩ := handleChildEvent_core m env pid status
    rw [next, heq]
    exact tracesInit_core h
  | processes => exact iff_of_true h trivial
  | message message renv seizes =>
    cases message with
    | start => exact tracesInit_requestStart h seizes
    | rearm => exact tracesInit_requestRearm h renv seizes
    | stop => exact iff_of_true ((tracesInit_requestStop _).mpr h) trivial
    | exit => exact iff_of_true ⟨by simp [next, handleMessage, requestExit], by
        simp [next, handleMessage, requestExit]⟩ trivial
    | zygoteInjected | daemonSetInfo | daemonSetErrorInfo | systemServerStarted =>
      exact iff_of_true h trivial

/-! ## After EXIT -/

theorem prepare_not_tracing (h : m.tracingState ≠ .tracing) : m.prepare env = (none, m) := by
  rw [prepare, if_pos h]

theorem handedOff_handleTraced (h : m.tracingState ≠ .tracing) :
    (m.handleTraced env pid status).2.handedOff = m.handedOff := by
  have htreated := handleTraced_treated m env pid status
  generalize m.handleTraced env pid status = r at htreated
  cases htreated with
  | stub | attached | other => rfl
  | ignored _ hprepare =>
    cases (prepare_not_tracing h).symm.trans hprepare
    rfl
  | handedOff _ hprepare | failed _ hprepare => cases (prepare_not_tracing h).symm.trans hprepare

theorem handedOff_handleChildEvent (h : m.tracingState ≠ .tracing) :
    (m.handleChildEvent env pid status).2.handedOff = m.handedOff := by
  unfold handleChildEvent
  split
  · rw [handleParentEvent_eq]
    split
    · rfl
    · split <;> rfl
  · split
    · rfl
    · split
      · exact handedOff_handleTraced h
      · rfl

theorem core_exiting (h : m.tracingState = .exiting) (env : ChildEnv) (pid : Nat)
    (status : Status) :
    (m.core env pid status).tracingState = .exiting ∧
      (m.core env pid status).daemons = m.daemons ∧
        (m.core env pid status).launched = m.launched := by
  unfold core
  split
  · rw [if_neg (by simp [h])]
    exact ⟨h, rfl, rfl⟩
  · split
    · exact ⟨h, rfl, rfl⟩
    · split
      · rw [prepare_not_tracing (by simp [h])]
        exact ⟨h, rfl, rfl⟩
      · exact ⟨h, rfl, rfl⟩

theorem requestStop_exiting (h : m.tracingState = .exiting) (reason : String) :
    m.requestStop reason = m := by
  simp [requestStop, Rearm.requestStop, h]

theorem requestStart_exiting (h : m.tracingState = .exiting) (seizes : Bool) :
    m.requestStart seizes = m := by
  simp [requestStart, Rearm.requestStart, h]

/-- The rearm itself is not stopped by anything. -/
theorem requestRearm_exiting (h : m.tracingState = .exiting) (renv : Rearm.Env) (seizes : Bool) :
    m.requestRearm renv seizes = (m.rearm renv).2 := by
  have hsame := sameTracing_rearm (m := m) renv
  unfold requestRearm
  rw [requestStart_exiting h, ite_self]
  simp only
  generalize m.rearm renv = r at hsame
  obtain ⟨_ | _, t⟩ := r
  · exact requestStop_exiting (hsame.1.trans h) _
  · rfl

theorem standalone_eq_nil_iff (renv : Rearm.Env) (mapped pids : List Nat) :
    Rearm.RearmLemmas.standalone renv mapped pids = [] ↔
      ∀ z ∈ pids, ¬ (z ∉ mapped ∧ renv.forks z = true) := by
  simp [Rearm.RearmLemmas.standalone, List.filter_eq_nil_iff]

theorem forServer_eq_nil_iff (renv : Rearm.Env) (s : Rearm.Sys) :
    Rearm.RearmLemmas.forServer renv s = [] ↔
      ¬ ((∃ z ∈ s.zygotePids, z ∉ s.mapped) ∧ ∃ pid ∈ s.systemServerPid, renv.forks pid = true) := by
  unfold Rearm.RearmLemmas.forServer
  cases s.systemServerPid with
  | none => simp
  | some pid =>
    cases hforks : renv.forks pid <;> simp [Option.filter, hforks]

theorem startedBy_eq_nil_iff (renv : Rearm.Env) (s : Rearm.Sys) :
    Rearm.RearmLemmas.startedBy renv s = [] ↔
      (∀ z ∈ s.zygotePids, ¬ Rearm.Attaches renv s z) ∧ ¬ Rearm.AttachesServer renv s := by
  unfold Rearm.RearmLemmas.startedBy Rearm.Attaches Rearm.AttachesServer
  cases Rearm.daemonReady renv s with
  | false => simp
  | true =>
    rw [if_pos rfl, List.append_eq_nil_iff, standalone_eq_nil_iff, forServer_eq_nil_iff]
    simp only [true_and]

theorem startsNothing_rearm (h : StartsNothing start m) (renv : Rearm.Env) :
    StartsNothing start (m.rearm renv).2 ↔
      m.startsDaemon renv.daemonFork = false ∧ Rearm.RearmLemmas.startedBy renv m.toSys = [] := by
  have hlaunched : (m.rearm renv).2.launched =
      m.launched ++ Rearm.RearmLemmas.startedBy renv m.toSys :=
    (Rearm.RearmLemmas.rearm_spec renv m.toSys).2
  have hdaemons : (m.rearm renv).2.daemons =
      m.daemons + (m.startsDaemon renv.daemonFork).toNat := rfl
  have hhanded : (m.rearm renv).2.handedOff = m.handedOff := rfl
  rw [StartsNothing, hlaunched, hdaemons, hhanded, h.1, h.2.1, h.2.2]
  simp

theorem next_exiting (h : m.tracingState = .exiting) (e : Event) :
    (m.next e).tracingState = .exiting := by
  cases e with
  | child pid status env =>
    obtain ⟨process, stubs, handedOff, heq⟩ := handleChildEvent_core m env pid status
    rw [next, heq]
    exact (core_exiting h env pid status).1
  | processes => exact h
  | message message renv seizes =>
    cases message with
    | start => exact (congrArg (·.tracingState) (requestStart_exiting h seizes)).trans h
    | stop => exact (congrArg (·.tracingState) (requestStop_exiting h _)).trans h
    | rearm =>
      have hsame := (sameTracing_rearm (m := m) renv).1
      exact (congrArg (·.tracingState) (requestRearm_exiting h renv seizes)).trans (hsame.trans h)
    | exit => rfl
    | zygoteInjected | daemonSetInfo | daemonSetErrorInfo | systemServerStarted => exact h

theorem startsNothing_next (h : m.tracingState = .exiting) (hnone : StartsNothing start m)
    (e : Event) : StartsNothing start (m.next e) ↔ NothingToStart m e := by
  cases e with
  | child pid status env =>
    obtain ⟨process, stubs, handedOff, heq⟩ := handleChildEvent_core m env pid status
    have hcore := core_exiting h env pid status
    refine iff_of_true ⟨?_, ?_, ?_⟩ trivial
    · rw [next, heq]
      exact hcore.2.1.trans hnone.1
    · rw [next, heq]
      exact hcore.2.2.trans hnone.2.1
    · rw [next, handedOff_handleChildEvent (by simp [h])]
      exact hnone.2.2
  | processes => exact iff_of_true hnone trivial
  | message message renv seizes =>
    cases message with
    | start =>
      rw [next, handleMessage, requestStart_exiting h]
      exact iff_of_true hnone trivial
    | stop =>
      rw [next, handleMessage, requestStop_exiting h]
      exact iff_of_true hnone trivial
    | rearm =>
      rw [next, handleMessage, requestRearm_exiting h, startsNothing_rearm hnone,
        startedBy_eq_nil_iff]
      rfl
    | exit | zygoteInjected | daemonSetInfo | daemonSetErrorInfo | systemServerStarted =>
      exact iff_of_true hnone trivial

end InitTracingLemmas

open InitTracingLemmas in
/-- From a successful start on, what the monitor says of its tracing is true of init exactly as long
as init can be seized where the monitor starts tracing it again, and detached from where it stops. -/
theorem traces_init_iff {lp64 : Bool} {moduleDir : String} {procs : List Rearm.Proc}
    {mapped : List Nat} {t : AppMonitor} {tr : List (AppMonitor × Event)}
    (hrun : Steps (started lp64 moduleDir procs mapped) tr t) :
    (∀ p ∈ tr, InitAnswers p.1 p.2) ↔ ∀ u ∈ visited tr t, u.TracesInit := by
  refine hrun.forall_ok_iff (fun _ => True) TracesInit InitAnswers ?_ ?_ trivial ?_
  · exact fun _ _ _ _ _ => trivial
  · rintro m e _ _ h rfl
    exact tracesInit_next h e
  · exact ⟨fun _ => rfl, fun h => by cases h⟩

/-- The monitor stops, lets go of init and is started again. -/
def restarted (seizes : Bool) : List Event :=
  [.message .stop ⟨none, fun _ => false⟩ false, .child 1 trapStop obliging,
    .message .start ⟨none, fun _ => false⟩ seizes]

theorem traces_init_restarted :
    (∀ p ∈ path next idle (restarted true), InitAnswers p.1 p.2) ∧
      ∀ u ∈ visited (path next idle (restarted true)) ((restarted true).foldl next idle),
        u.TracesInit := by
  have hanswers : ∀ p ∈ path next idle (restarted true), InitAnswers p.1 p.2 := by
    decide +kernel
  exact ⟨hanswers, (traces_init_iff (run_path next idle (restarted true))).mp hanswers⟩

/-- init cannot be seized again: the monitor says that it traces it. -/
theorem start_without_seizing :
    ∃ tr t, Steps idle tr t ∧ t.tracingState = .tracing ∧ t.initSeized = false :=
  ⟨_, _, run_path next idle (restarted false), by decide +kernel, by decide +kernel⟩

open InitTracingLemmas in
/-- Once EXIT has been processed, whatever is still read or reported, the monitor stays exiting and
starts no daemon and no injector, exactly when no rearm that is still read finds one to start. -/
theorem exit_final_iff {m t : AppMonitor} {tr : List (AppMonitor × Event)}
    (hrun : Steps m.requestExit tr t) :
    (∀ p ∈ tr, NothingToStart p.1 p.2) ↔
      ∀ u ∈ visited tr t, u.tracingState = .exiting ∧ StartsNothing m.requestExit u := by
  refine hrun.forall_ok_iff (·.tracingState = .exiting)
    (fun u => u.tracingState = .exiting ∧ StartsNothing m.requestExit u) NothingToStart ?_ ?_ rfl
    ⟨rfl, rfl, rfl, rfl⟩
  · rintro s e _ hexiting rfl
    exact next_exiting hexiting e
  · rintro s e _ hexiting ⟨_, hnone⟩ rfl
    exact (and_iff_right (next_exiting hexiting e)).trans (startsNothing_next hexiting hnone e)

theorem exit_final_start :
    (∀ p ∈ path next idle.requestExit (restarted true), NothingToStart p.1 p.2) ∧
      ∀ u ∈ visited (path next idle.requestExit (restarted true))
          ((restarted true).foldl next idle.requestExit),
        u.tracingState = .exiting ∧ StartsNothing idle.requestExit u := by
  have hnothing : ∀ p ∈ path next idle.requestExit (restarted true),
      NothingToStart p.1 p.2 := by decide +kernel
  exact ⟨hnothing, (exit_final_iff (run_path next idle.requestExit (restarted true))).mp hnothing⟩

/-- A rearm that is queued behind EXIT starts a daemon. -/
theorem rearm_after_exit :
    ∃ tr t, Steps idle.requestExit tr t ∧ idle.requestExit.daemons = 0 ∧ t.daemons = 1 :=
  ⟨_, _, run_path next idle.requestExit [.message .rearm ⟨some 77, fun _ => true⟩ true],
    by decide +kernel, by decide +kernel⟩

end AppMonitor

end NyaZygisk
