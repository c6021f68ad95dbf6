import NyaZygisk.AppMonitor

/-!
# Answering the stops of traced processes

A traced process that has stopped stands still until the monitor lets it go on or detaches from it,
and a signal it has stopped for reaches it only if the monitor passes it on. What the monitor does
depends on the role of the process: init and the stubs, a candidate, one it sees for the first time.
-/

namespace NyaZygisk

open Runs

/-! ## Specification -/

/-- The process goes on, or is let go, with the signal. -/
def Action.passes (signal : Nat) : Action → Bool
  | .cont passed | .detach passed _ => passed = signal
  | .waited _ => false

def Action.isWaited : Action → Bool
  | .waited _ => true
  | _ => false

def Action.isDetach : Action → Bool
  | .detach _ _ => true
  | _ => false

namespace AppMonitor

/-- Each stop is followed by one request that lets the process go on, and there are no other such
requests; `pending` says that a stop has been reported. -/
def answered : Bool → List Action → Bool
  | pending, [] => !pending
  | pending, .cont _ :: rest | pending, .detach _ _ :: rest => pending && answered false rest
  | pending, .waited status :: rest => !pending && answered (status.any Status.isStopped) rest

def isParent (m : AppMonitor) (pid : Nat) : Bool := pid = 1 || pid ∈ m.stubProcesses

def isCandidate (m : AppMonitor) (pid : Nat) : Bool :=
  !m.isParent pid && !m.isDaemon pid && pid ∈ m.process

section Roles

variable {m : AppMonitor} {pid : Nat}

theorem isParent_iff : m.isParent pid = true ↔ pid = 1 ∨ pid ∈ m.stubProcesses := by
  simp [isParent]

theorem isCandidate_iff :
    m.isCandidate pid = true ↔
      m.isParent pid = false ∧ m.isDaemon pid = false ∧ pid ∈ m.process := by
  simp [isCandidate, and_assoc]

variable (env : ChildEnv) (status : Status)

theorem handleChildEvent_parent (h : m.isParent pid = true) :
    m.handleChildEvent env pid status = m.handleParentEvent env pid status := by
  rw [handleChildEvent, if_pos (isParent_iff.mp h)]

theorem handleChildEvent_daemon (hparent : m.isParent pid = false) (hdaemon : m.isDaemon pid = true) :
    m.handleChildEvent env pid status = ([], m.handleDaemonExit env) := by
  rw [handleChildEvent, if_neg (isParent_iff.not.mp (Bool.eq_false_iff.mp hparent)), if_pos hdaemon]

theorem handleChildEvent_candidate (h : m.isCandidate pid = true) :
    m.handleChildEvent env pid status = m.handleTraced env pid status := by
  obtain ⟨hparent, hdaemon, hprocess⟩ := isCandidate_iff.mp h
  rw [handleChildEvent, if_neg (isParent_iff.not.mp (Bool.eq_false_iff.mp hparent)), hdaemon,
    if_pos hprocess]
  rfl

theorem handleChildEvent_new (hparent : m.isParent pid = false) (hdaemon : m.isDaemon pid = false)
    (hprocess : pid ∉ m.process) :
    m.handleChildEvent env pid status = m.handleNewProcess pid := by
  rw [handleChildEvent, if_neg (isParent_iff.not.mp (Bool.eq_false_iff.mp hparent)), hdaemon,
    if_neg hprocess]
  rfl

end Roles

/-- The signals that are kept from a process on purpose. -/
def withheld (m : AppMonitor) (pid signal : Nat) : Bool :=
  signal = sigstop || signal = sigtstp || signal = sigttin || signal = sigttou ||
    (pid ∈ m.stubProcesses && signal = sigchld)

/-- The status reports that the process is about to get a signal, which is to reach it. -/
def Delivers (m : AppMonitor) (pid : Nat) (status : Status) (signal : Nat) : Prop :=
  status = .stopped signal 0 ∧ signal ≠ 0 ∧ m.withheld pid signal = false

instance (m : AppMonitor) (pid : Nat) (status : Status) (signal : Nat) :
    Decidable (m.Delivers pid status signal) := inferInstanceAs (Decidable (_ ∧ _))

/-- Before the next status is waited for, the signal is passed on once. -/
def PassedOnce (signal : Nat) (actions : List Action) : Prop :=
  (actions.takeWhile (!·.isWaited)).countP (Action.passes signal) = 1

/-- A signal that is to reach the process does, and a candidate is let go only after its exec or
when it has died. -/
structure Transparent (m : AppMonitor) (env : ChildEnv) (pid : Nat) (status : Status) : Prop where
  reported : ∀ signal, m.Delivers pid status signal →
    PassedOnce signal (m.handleChildEvent env pid status).1
  waited : ∀ status' signal before rest,
    (m.handleChildEvent env pid status).1 = before ++ .waited (some status') :: rest →
      m.Delivers pid status' signal → PassedOnce signal rest
  kept : m.isCandidate pid = true → status ≠ execStop → status.isStopped = true →
    pid ∈ (m.handleChildEvent env pid status).2.process ∧
      ∀ a ∈ (m.handleChildEvent env pid status).1, a.isDetach = false

/-- A candidate stops for its attaching or its exec, and is not about to get a signal when it is
waited for at its hand-off; a process that is new has no signal to get. -/
def StopsAsExpected (m : AppMonitor) : Event → Prop
  | .child pid status env =>
    m.isParent pid = false →
      if pid ∈ m.process then
        (status.isStopped = true → status = execStop ∨ status = trapStop) ∧
          (status = execStop → containsText env.program "stub_zygote" = false →
            (m.prepare env).1.isSome = true →
              ∀ status' ∈ env.waited, ∀ signal, ¬ m.Delivers pid status' signal)
      else ∀ signal, ¬ m.Delivers pid status signal
  | _ => True

/-! ## What the monitor does to the process -/

def execActions (m : AppMonitor) (env : ChildEnv) : List Action :=
  if containsText env.program "stub_zygote" then [.cont 0]
  else if (m.prepare env).1.isNone then [.detach 0 (env.succeeds (.detach 0))]
  else
    .cont 0 :: .waited env.waited ::
      if env.waited = some (.stopped sigstop 0) then
        [.detach sigstop (env.succeeds (.detach sigstop))]
      else release env (env.waited.getD execStop)

def tracedActions (m : AppMonitor) (env : ChildEnv) (status : Status) : List Action :=
  if status = execStop then m.execActions env
  else if status = trapStop then [.cont 0]
  else release env status

def parentActions (m : AppMonitor) (env : ChildEnv) (pid : Nat) (status : Status) : List Action :=
  if pid = 1 ∧ status = trapStop ∧ m.tracingState = .stopping then
    [.detach 0 (env.succeeds (.detach 0))]
  else resumeParent pid status

def actions (m : AppMonitor) (env : ChildEnv) (pid : Nat) (status : Status) : List Action :=
  if m.isParent pid then m.parentActions env pid status
  else if m.isDaemon pid then []
  else if pid ∈ m.process then m.tracedActions env status
  else [.cont 0]

namespace ChildEventsLemmas

variable {m : AppMonitor} {env : ChildEnv} {pid signal : Nat} {status : Status}

theorem handleParentEvent_actions :
    (m.handleParentEvent env pid status).1 = m.parentActions env pid status := by
  rw [handleParentEvent_eq, parentActions]
  split <;> rfl

theorem handleTraced_actions :
    (m.handleTraced env pid status).1 = m.tracedActions env status := by
  unfold tracedActions execActions
  have htreated := handleTraced_treated m env pid status
  generalize m.handleTraced env pid status = r at htreated
  cases htreated with
  | stub hstub => rw [if_pos rfl, if_pos hstub]
  | ignored hstub hprepare =>
    rw [if_pos rfl, hstub, hprepare]
    rfl
  | handedOff hstub hprepare hwaited =>
    rw [if_pos rfl, hstub, hprepare, if_pos hwaited]
    rfl
  | failed hstub hprepare hwaited =>
    rw [if_pos rfl, hstub, hprepare, if_neg hwaited]
    rfl
  | attached => rfl
  | other hexec htrap => rw [if_neg hexec, if_neg htrap]

end ChildEventsLemmas

open ChildEventsLemmas in
theorem handleChildEvent_actions (m : AppMonitor) (env : ChildEnv) (pid : Nat) (status : Status) :
    (m.handleChildEvent env pid status).1 = m.actions env pid status := by
  unfold handleChildEvent actions
  simp only [isParent, Bool.or_eq_true, decide_eq_true_eq]
  split
  · exact handleParentEvent_actions
  · split
    · rfl
    · split
      · exact handleTraced_actions
      · rfl

namespace ChildEventsLemmas

variable {m : AppMonitor} {env : ChildEnv} {pid signal : Nat} {status : Status}

/-! ## Each stop is answered -/

theorem answered_release : answered status.isStopped (release env status) = true := by
  unfold release
  cases status.isStopped <;> rfl

theorem answered_parentActions : answered status.isStopped (m.parentActions env pid status) = true := by
  unfold parentActions
  split
  · next hstop => rw [hstop.2.1]; rfl
  · cases status with
    | stopped signal event =>
      rw [resumeParent]
      split <;> rfl
    | exited code | signaled signal => rfl

theorem answered_execActions (hwaited : env.waited ≠ none) :
    answered true (m.execActions env) = true := by
  unfold execActions
  split
  · rfl
  · split
    · rfl
    · obtain ⟨status, hstatus⟩ := Option.ne_none_iff_exists'.mp hwaited
      rw [hstatus]
      split
      · next hstop =>
        cases hstop
        rfl
      · simp only [answered, Option.any_some, Option.getD_some]
        exact answered_release

theorem answered_tracedActions (hwaited : env.waited ≠ none) :
    answered status.isStopped (m.tracedActions env status) = true := by
  unfold tracedActions
  split
  · next hexec =>
    rw [hexec]
    exact answered_execActions hwaited
  · split
    · next htrap => rw [htrap]; rfl
    · exact answered_release

end ChildEventsLemmas

open ChildEventsLemmas in
/-- In every state, a reported stop of a traced process (which the daemon is not) is answered by one
request that lets the process go on, and so is a stop that the hand-off waits for; the exit of a
stub or a candidate is not answered. -/
theorem every_stop_answered (m : AppMonitor) (env : ChildEnv) (pid : Nat) (status : Status)
    (htraced : status.isStopped = true → m.isDaemon pid = false)
    (hknown : status.isStopped = false →
      pid = 1 ∨ pid ∈ m.stubProcesses ∨ pid ∈ m.process)
    (hwaited : env.waited ≠ none) :
    answered status.isStopped (m.handleChildEvent env pid status).1 = true := by
  rw [handleChildEvent_actions, actions]
  by_cases hparent : m.isParent pid = true
  · rw [if_pos hparent]
    exact answered_parentActions
  rw [if_neg hparent]
  simp only [isParent, Bool.or_eq_true, decide_eq_true_eq, not_or] at hparent
  by_cases hprocess : pid ∈ m.process
  · rw [if_pos hprocess]
    split
    · next hdaemon =>
      cases hstop : status.isStopped with
      | false => rfl
      | true => rw [htraced hstop] at hdaemon; cases hdaemon
    · exact answered_tracedActions hwaited
  · cases hstop : status.isStopped with
    | false => exact absurd (((hknown hstop).resolve_left hparent.1).resolve_left hparent.2) hprocess
    | true =>
      rw [htraced hstop, if_neg hprocess]
      rfl

def attached : AppMonitor := idle.next (.child 42 trapStop obliging)

/-- The process has executed zygote, and stops for the hand-off. -/
def zygoteExec : ChildEnv :=
  { obliging with
    program := "/system/bin/app_process64", daemonFork := some 77,
    waited := some (.stopped sigstop 0) }

theorem hand_off_answered :
    attached.isCandidate 42 = true ∧
      answered true (attached.handleChildEvent zygoteExec 42 execStop).1 = true :=
  ⟨by decide +kernel,
    every_stop_answered attached zygoteExec 42 execStop (by decide +kernel) (by decide +kernel)
      (by decide +kernel)⟩

namespace ChildEventsLemmas

variable {m : AppMonitor} {env : ChildEnv} {pid signal : Nat} {status : Status}

/-! ## Signals -/

theorem not_passedOnce (hsignal : signal ≠ 0) (ok : Bool) :
    ¬ PassedOnce signal [.detach 0 ok] ∧ ¬ PassedOnce signal [.cont 0] := by
  have hne : ¬ 0 = signal := fun h => hsignal h.symm
  simp [PassedOnce, Action.isWaited, Action.passes, hne]

theorem suppressed_eq_withheld (hparent : m.isParent pid = true) (hwithheld : m.withheld pid signal = false) :
    suppressed pid signal = false := by
  simp only [isParent, withheld, suppressed, Bool.or_eq_true, Bool.or_eq_false_iff,
    Bool.and_eq_false_iff, decide_eq_true_eq, decide_eq_false_iff_not] at hparent hwithheld ⊢
  refine ⟨hwithheld.1, ?_⟩
  by_cases hinit : pid = 1
  · exact Or.inl (by simp [hinit])
  · exact Or.inr (hwithheld.2.resolve_left fun h => h (hparent.resolve_left hinit))

theorem parentActions_delivers (hparent : m.isParent pid = true)
    (h : m.Delivers pid status signal) : m.parentActions env pid status = [.cont signal] := by
  obtain ⟨rfl, _, hwithheld⟩ := h
  rw [parentActions, if_neg (by simp [ptraceEventStop]), resumeParent,
    suppressed_eq_withheld hparent hwithheld]
  rfl

theorem waited_not_mem_parentActions (status' : Option Status) :
    .waited status' ∉ m.parentActions env pid status := by
  unfold parentActions
  split
  · simp
  · cases status with
    | stopped signal event =>
      rw [resumeParent]
      split <;> simp
    | exited code | signaled signal => simp [resumeParent]

theorem waited_not_mem_release (status' : Option Status) : .waited status' ∉ release env status := by
  unfold release
  split <;> simp

theorem transparent_parent (hparent : m.isParent pid = true) : Transparent m env pid status := by
  have hactions : (m.handleChildEvent env pid status).1 = m.parentActions env pid status := by
    rw [handleChildEvent_actions, actions, if_pos hparent]
  refine ⟨?_, ?_, ?_⟩
  · intro signal h
    rw [hactions, parentActions_delivers hparent h]
    simp [PassedOnce, Action.isWaited, Action.passes]
  · intro status' signal before rest heq _
    have hmem : .waited (some status') ∈ m.parentActions env pid status := by
      rw [← hactions, heq]
      simp
    exact absurd hmem (waited_not_mem_parentActions _)
  · intro hcandidate
    simp [isCandidate, hparent] at hcandidate

/-- What a process that is not known, or not traced, is let go with. -/
theorem transparent_short {as : List Action}
    (hactions : (m.handleChildEvent env pid status).1 = as) (hcandidate : m.isCandidate pid = false)
    (hwaited : ∀ status', .waited status' ∉ as) :
    Transparent m env pid status ↔ ∀ signal, m.Delivers pid status signal → PassedOnce signal as := by
  subst hactions
  refine ⟨Transparent.reported, fun h => ⟨h, ?_, ?_⟩⟩
  · intro status' signal before rest heq _
    exact absurd (heq ▸ by simp) (hwaited (some status'))
  · intro htrue
    rw [hcandidate] at htrue
    cases htrue

theorem transparent_new_iff (hparent : m.isParent pid = false) (hdaemon : m.isDaemon pid = false)
    (hprocess : pid ∉ m.process) :
    Transparent m env pid status ↔ ∀ signal, ¬ m.Delivers pid status signal := by
  have hactions : (m.handleChildEvent env pid status).1 = [.cont 0] := by
    rw [handleChildEvent_actions, actions, hparent, hdaemon, if_neg hprocess]
    rfl
  rw [transparent_short hactions (by simp [isCandidate, hprocess]) (by simp)]
  refine forall_congr' fun signal => imp_congr_right fun h => ?_
  exact iff_false_intro (not_passedOnce h.2.1 true).2

/-- The daemon is not traced, so only its exit is reported. -/
theorem transparent_exit (hparent : m.isParent pid = false) (hdaemon : m.isDaemon pid = true)
    (hexit : status.isStopped = false) : Transparent m env pid status := by
  have hactions : (m.handleChildEvent env pid status).1 = [] := by
    rw [handleChildEvent_actions, actions, hparent, hdaemon]
    rfl
  refine (transparent_short hactions (by simp [isCandidate, hdaemon]) (by simp)).mpr ?_
  rintro signal ⟨rfl, _⟩
  cases hexit

/-- A candidate that stops for something else is let go. -/
theorem expected_of_transparent (hcandidate : m.isCandidate pid = true)
    (hactions : (m.handleChildEvent env pid status).1 = m.tracedActions env status)
    (h : Transparent m env pid status) (hstop : status.isStopped = true) :
    status = execStop ∨ status = trapStop := by
  by_contra hother
  rw [not_or] at hother
  have hdetach := (h.kept hcandidate hother.1 hstop).2 (.detach 0 (env.succeeds (.detach 0))) (by
    simp [hactions, tracedActions, hother, release, hstop])
  cases hdetach

/-- What the hand-off does once it has waited for a signal. -/
theorem tracedActions_target (hstub : containsText env.program "stub_zygote" = false)
    (hprepare : (m.prepare env).1.isSome = true) {status' : Status} (hwaited : env.waited = some status') :
    m.tracedActions env execStop = [.cont 0] ++ .waited (some status') ::
      if status' = .stopped sigstop 0 then [.detach sigstop (env.succeeds (.detach sigstop))]
      else release env status' := by
  rw [tracedActions, if_pos rfl, execActions, hstub, hwaited]
  simp only [Bool.false_eq_true, if_false, Option.isNone_iff_eq_none,
    Option.isSome_iff_ne_none.mp hprepare, Option.some.injEq, Option.getD_some, List.cons_append,
    List.nil_append]

theorem not_delivers_of_transparent
    (hactions : (m.handleChildEvent env pid execStop).1 = m.tracedActions env execStop)
    (h : Transparent m env pid execStop) (hstub : containsText env.program "stub_zygote" = false)
    (hprepare : (m.prepare env).1.isSome = true) {status' : Status}
    (hwaited : env.waited = some status') : ¬ m.Delivers pid status' signal := by
  intro hdelivers
  have hpassed := h.waited status' signal [.cont 0] _
    (hactions.trans (tracedActions_target hstub hprepare hwaited)) hdelivers
  obtain ⟨rfl, hsignal, hwithheld⟩ := hdelivers
  have hnostop : signal ≠ sigstop := by
    rintro rfl
    simp [withheld] at hwithheld
  rw [if_neg (by simp [hnostop])] at hpassed
  exact (not_passedOnce hsignal _).1 hpassed

/-- Where the monitor waits for a candidate, it has executed a target. -/
theorem target_of_waited {status' : Status} {before rest : List Action}
    (h : m.tracedActions env status = before ++ .waited (some status') :: rest) :
    status = execStop ∧ containsText env.program "stub_zygote" = false ∧
      (m.prepare env).1.isSome = true ∧ env.waited = some status' := by
  have hmem : .waited (some status') ∈ m.tracedActions env status := by
    rw [h]
    simp
  unfold tracedActions at hmem
  split at hmem
  · next hexec =>
    unfold execActions at hmem
    split at hmem
    · simp at hmem
    · next hstub =>
      split at hmem
      · simp at hmem
      · next hprepare =>
        refine ⟨hexec, Bool.eq_false_iff.mpr hstub,
          Option.isSome_iff_ne_none.mpr (by simpa using hprepare), ?_⟩
        rcases List.mem_cons.mp hmem with hcont | hmem
        · cases hcont
        · rcases List.mem_cons.mp hmem with heq | hmem
          · exact (Action.waited.inj heq).symm
          · split at hmem
            · simp at hmem
            · exact absurd hmem (waited_not_mem_release _)
  · split at hmem
    · simp at hmem
    · exact absurd hmem (waited_not_mem_release _)

theorem transparent_candidate_iff (hcandidate : m.isCandidate pid = true) :
    Transparent m env pid status ↔
      (status.isStopped = true → status = execStop ∨ status = trapStop) ∧
        (status = execStop → containsText env.program "stub_zygote" = false →
          (m.prepare env).1.isSome = true →
            ∀ status' ∈ env.waited, ∀ signal, ¬ m.Delivers pid status' signal) := by
  have hrole := hcandidate
  simp only [isCandidate, Bool.and_eq_true, Bool.not_eq_true', decide_eq_true_eq] at hrole
  obtain ⟨⟨hparent, hdaemon⟩, hprocess⟩ := hrole
  have hactions : (m.handleChildEvent env pid status).1 = m.tracedActions env status := by
    rw [handleChildEvent_actions, actions, hparent, hdaemon, if_pos hprocess]
    rfl
  constructor
  · intro h
    refine ⟨expected_of_transparent hcandidate hactions h, ?_⟩
    rintro rfl hstub hprepare status' hwaited signal
    exact not_delivers_of_transparent hactions h hstub hprepare hwaited
  · rintro ⟨hexpected, hwaited⟩
    refine ⟨?_, ?_, ?_⟩
    · rintro signal ⟨rfl, _⟩
      rcases hexpected rfl with h | h <;> cases h
    · intro status' signal before rest heq hdelivers
      obtain ⟨hexec, hstub, hprepare, hstatus⟩ := target_of_waited (hactions.symm.trans heq)
      exact absurd hdelivers (hwaited hexec hstub hprepare status' hstatus signal)
    · intro _ hexec hstop
      have htrap := (hexpected hstop).resolve_left hexec
      have hparent' : ¬ (pid = 1 ∨ pid ∈ m.stubProcesses) := by
        simpa [isParent] using hparent
      rw [handleChildEvent, if_neg hparent', hdaemon, if_pos hprocess, htrap]
      exact ⟨hprocess, by simp [handleTraced_trap, Action.isDetach]⟩

end ChildEventsLemmas

open ChildEventsLemmas in
/-- The monitor is transparent to the signals of a traced process, and keeps a candidate until its
exec or its death, exactly when the process stops as expected. -/
theorem signals_transparent_iff (m : AppMonitor) (env : ChildEnv) (pid : Nat) (status : Status)
    (htraced : status.isStopped = true → m.isDaemon pid = false) :
    StopsAsExpected m (.child pid status env) ↔ Transparent m env pid status := by
  rw [StopsAsExpected]
  cases hparent : m.isParent pid with
  | true => exact iff_of_true (by simp) (transparent_parent hparent)
  | false =>
    rw [forall_prop_of_true rfl]
    cases hdaemon : m.isDaemon pid with
    | false =>
      split
      · next hprocess =>
        exact (transparent_candidate_iff (by simp [isCandidate, hparent, hdaemon, hprocess])).symm
      · next hprocess => exact (transparent_new_iff hparent hdaemon hprocess).symm
    | true =>
      have hexit : status.isStopped = false := by
        cases hstop : status.isStopped with
        | false => rfl
        | true => exact hdaemon.symm.trans (htraced hstop)
      refine iff_of_true ?_ (transparent_exit hparent hdaemon hexit)
      cases status with
      | stopped signal event => cases hexit
      | exited code | signaled signal => split <;> simp [Status.isStopped, Delivers]

theorem signals_transparent_init :
    idle.Delivers 1 (.stopped 15 0) 15 ∧ Transparent idle obliging 1 (.stopped 15 0) :=
  ⟨by decide +kernel,
    (signals_transparent_iff idle obliging 1 (.stopped 15 0) (by decide +kernel)).mp
      fun hparent => absurd hparent (by decide +kernel)⟩

/-- SIGTERM for a candidate is dropped, and so is the candidate. -/
theorem candidate_signal_lost :
    attached.isCandidate 42 = true ∧ attached.Delivers 42 (.stopped 15 0) 15 ∧
      (attached.handleChildEvent obliging 42 (.stopped 15 0)).1 = [.detach 0 true] ∧
        42 ∉ (attached.handleChildEvent obliging 42 (.stopped 15 0)).2.process ∧
          ¬ Transparent attached obliging 42 (.stopped 15 0) := by
  have hdropped : 42 ∉ (attached.handleChildEvent obliging 42 (.stopped 15 0)).2.process := by
    decide +kernel
  refine ⟨by decide +kernel, by decide +kernel, by decide +kernel, hdropped, fun h => ?_⟩
  exact hdropped (h.kept (by decide +kernel) (by decide +kernel) rfl).1

end AppMonitor

end NyaZygisk
