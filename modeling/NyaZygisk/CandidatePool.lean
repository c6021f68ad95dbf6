import NyaZygisk.ChildEvents

/-!
# The pool of candidates

`process_` is to hold the processes that the monitor is attached to and that have not executed a
program yet, and `stub_processes_` the stub zygotes among those it is attached to. What is true of
a process follows from what is reported of it and from what the monitor does to it.
-/

namespace NyaZygisk

open Runs

/-- What a process is to the monitor: not traced, traced and still to execute a program, traced
after it has executed one, or a traced stub zygote. -/
inductive Role
  | gone | preExec | executed | stubZygote
deriving DecidableEq

namespace Role

/-- The process of which a status is reported. A process that was not traced has been attached to
by the kernel when it stops. -/
def report (role : Role) (program : String) : Status → Role
  | .exited _ | .signaled _ => .gone
  | .stopped signal event =>
    if signal = sigtrap ∧ event = ptraceEventExec then
      if containsText program "stub_zygote" then .stubZygote else .executed
    else if role = .gone then .preExec
    else role

def act (role : Role) : Action → Role
  | .detach _ ok => if ok then .gone else role
  | .waited (some status) => if status.isStopped then role else .gone
  | .waited none | .cont _ => role

end Role

structure Pool where
  m : AppMonitor
  role : Nat → Role

namespace Pool

open AppMonitor

/-- The event is one of a process of the pool: of another one than init and the daemon, which the
monitor started itself and does not trace. -/
def pooled (m : AppMonitor) (pid : Nat) : Bool :=
  pid ≠ 1 && (pid ∈ m.stubProcesses || !m.isDaemon pid)

def next (w : Pool) : Event → Pool
  | .child pid status env =>
    { m := (w.m.handleChildEvent env pid status).2
      role :=
        if pooled w.m pid then
          Function.update w.role pid
            ((w.m.handleChildEvent env pid status).1.foldl Role.act
              ((w.role pid).report env.program status))
        else w.role }
  | e => { w with m := w.m.next e }

abbrev Steps : Pool → List (Pool × Event) → Pool → Prop := Run fun w e w' => w.next e = w'

/-- A monitor that has just started traces nothing but init. -/
def started (lp64 : Bool) (moduleDir : String) (procs : List Rearm.Proc) (mapped : List Nat) : Pool :=
  ⟨AppMonitor.started lp64 moduleDir procs mapped, fun _ => .gone⟩

/-! ## Specification -/

structure Accurate (w : Pool) : Prop where
  process : ∀ pid, pid ∈ w.m.process ↔ w.role pid = .preExec
  stubProcesses : ∀ pid, pid ∈ w.m.stubProcesses ↔ w.role pid = .stubZygote

theorem Accurate.disjoint {w : Pool} (h : w.Accurate) :
    Disjoint w.m.process w.m.stubProcesses := by
  rw [Finset.disjoint_left]
  intro pid hprocess hstub
  have hpre := (h.process pid).mp hprocess
  rw [(h.stubProcesses pid).mp hstub] at hpre
  cases hpre

/-- A candidate that has executed a target, and is given to an injector. -/
def HandsOff (m : AppMonitor) (env : ChildEnv) (status : Status) : Prop :=
  status = execStop ∧ containsText env.program "stub_zygote" = false ∧
    (m.prepare env).1.isSome = true ∧ env.waited = some (.stopped sigstop 0)

instance (m : AppMonitor) (env : ChildEnv) (status : Status) : Decidable (HandsOff m env status) :=
  inferInstanceAs (Decidable (_ ∧ _))

/-- A stub that executes a program is a stub again; a candidate is not given to an injector, and is
detached from if it stops for anything but its attaching and its exec; of a process that is not
known, a stop is reported that is not its exec, and the monitor was not attached to it before. -/
def KeepsPool (w : Pool) : Event → Prop
  | .child pid status env =>
    if pid = 1 then True
    else if pid ∈ w.m.stubProcesses then
      status = execStop → containsText env.program "stub_zygote" = true
    else if w.m.isDaemon pid then True
    else if pid ∈ w.m.process then
      ¬ HandsOff w.m env status ∧
        (status.isStopped = true → status = execStop ∨ status = trapStop ∨
          env.succeeds (.detach 0) = true)
    else w.role pid = .gone ∧ status.isStopped = true ∧ status ≠ execStop
  | _ => True

instance (w : Pool) : (e : Event) → Decidable (KeepsPool w e)
  | .child pid status env => by unfold KeepsPool; infer_instance
  | .message _ _ _ | .processes _ _ => inferInstanceAs (Decidable True)

namespace CandidatePoolLemmas

variable {m : AppMonitor} {env : ChildEnv} {pid : Nat} {status : Status}

/-! ## The sets after an event -/

theorem sets_prepare (m : AppMonitor) (env : ChildEnv) :
    (m.prepare env).2.process = m.process ∧ (m.prepare env).2.stubProcesses = m.stubProcesses := by
  unfold prepare
  split
  · exact ⟨rfl, rfl⟩
  · split
    · exact ⟨rfl, rfl⟩
    · split
      · unfold checkAndPrepareInjection
        simp only
        split
        · exact ⟨rfl, rfl⟩
        · split <;> next h => exact ⟨congrArg (·.2.process) h.symm, congrArg (·.2.stubProcesses) h.symm⟩
      · exact ⟨rfl, rfl⟩

theorem process_handleTraced :
    (m.handleTraced env pid status).2.process =
      if HandsOff m env status ∨ status = trapStop then m.process else m.process.erase pid := by
  have hne : execStop ≠ trapStop := by decide
  have hsets := (sets_prepare m env).1
  have htreated := handleTraced_treated m env pid status
  generalize m.handleTraced env pid status = r at htreated
  cases htreated with
  | stub hstub =>
    rw [if_neg (by simp [HandsOff, hstub, hne])]
    rfl
  | ignored hstub hprepare =>
    rw [hprepare] at hsets
    rw [if_neg (by simp [HandsOff, hprepare, hne]), dropped, hsets]
  | handedOff hstub hprepare hwaited =>
    rw [hprepare] at hsets
    rw [if_pos (by simp [HandsOff, hstub, hprepare, hwaited]), injected]
    split <;> exact hsets
  | failed hstub hprepare hwaited =>
    rw [hprepare] at hsets
    rw [if_neg (by simp [HandsOff, hwaited, hne]), dropped, hsets]
  | attached => rw [if_pos (Or.inr rfl)]
  | other hexec htrap =>
    rw [if_neg (by simp [HandsOff, hexec, htrap])]
    rfl

theorem stubProcesses_handleTraced :
    (m.handleTraced env pid status).2.stubProcesses =
      if status = execStop ∧ containsText env.program "stub_zygote" = true then
        insert pid m.stubProcesses
      else m.stubProcesses := by
  have hsets := (sets_prepare m env).2
  have htreated := handleTraced_treated m env pid status
  generalize m.handleTraced env pid status = r at htreated
  cases htreated with
  | stub hstub => rw [if_pos ⟨rfl, hstub⟩]
  | ignored hstub hprepare | failed hstub hprepare =>
    rw [hprepare] at hsets
    rw [if_neg (by simp [hstub])]
    exact hsets
  | handedOff hstub hprepare =>
    rw [hprepare] at hsets
    rw [if_neg (by simp [hstub]), injected]
    split <;> exact hsets
  | attached => rw [if_neg (by simp [ptraceEventExec, ptraceEventStop])]
  | other hexec =>
    rw [if_neg (by simp [hexec])]
    rfl

theorem sets_handleParentEvent :
    (m.handleParentEvent env pid status).2.process = m.process ∧
      (m.handleParentEvent env pid status).2.stubProcesses =
        if pid ≠ 1 ∧ status.isStopped = false then m.stubProcesses.erase pid
        else m.stubProcesses := by
  rw [handleParentEvent_eq]
  split
  · next hstop =>
    rw [if_neg fun hexit => hexit.1 hstop.1]
    exact ⟨rfl, rfl⟩
  · split <;> exact ⟨rfl, rfl⟩

/-! ## The roles after an event -/

/-- What the monitor does to a process, it leaves it or lets it go. -/
theorem foldl_act (actions : List Action) (role : Role) :
    actions.foldl Role.act role = role ∨ actions.foldl Role.act role = .gone := by
  induction actions generalizing role with
  | nil => exact Or.inl rfl
  | cons a actions ih =>
    have hact : role.act a = role ∨ role.act a = .gone := by
      unfold Role.act
      split
      · split <;> simp
      · split <;> simp
      · exact Or.inl rfl
      · exact Or.inl rfl
    rw [List.foldl_cons]
    rcases hact with hact | hact
    · rw [hact]
      exact ih role
    · rw [hact]
      exact Or.inr ((ih .gone).elim id id)

/-! ## One event -/

def AccurateAt (m : AppMonitor) (pid : Nat) (role : Role) : Prop :=
  (pid ∈ m.process ↔ role = .preExec) ∧ (pid ∈ m.stubProcesses ↔ role = .stubZygote)

theorem accurate_iff {w : Pool} : w.Accurate ↔ ∀ pid, AccurateAt w.m pid (w.role pid) :=
  ⟨fun h pid => ⟨h.process pid, h.stubProcesses pid⟩, fun h => ⟨fun pid => (h pid).1, fun pid => (h pid).2⟩⟩

theorem mem_sets_of_ne {q : Nat} (hq : q ≠ pid) :
    (q ∈ (m.handleChildEvent env pid status).2.process ↔ q ∈ m.process) ∧
      (q ∈ (m.handleChildEvent env pid status).2.stubProcesses ↔ q ∈ m.stubProcesses) := by
  unfold handleChildEvent
  split
  · rw [sets_handleParentEvent.1, sets_handleParentEvent.2]
    split <;> simp [hq]
  · split
    · exact ⟨Iff.rfl, Iff.rfl⟩
    · split
      · rw [process_handleTraced, stubProcesses_handleTraced]
        constructor
        · split <;> simp [hq]
        · split <;> simp [hq]
      · exact ⟨by simp [handleNewProcess, hq], Iff.rfl⟩

variable {w : Pool}

/-- Whether the sets are right after an event is a question of its process. -/
theorem accurate_child_iff (h : w.Accurate) (hpooled : pooled w.m pid = true) :
    (w.next (.child pid status env)).Accurate ↔
      AccurateAt (w.m.handleChildEvent env pid status).2 pid
        ((w.m.handleChildEvent env pid status).1.foldl Role.act
          ((w.role pid).report env.program status)) := by
  rw [accurate_iff] at h ⊢
  simp only [next, hpooled, if_true]
  constructor
  · intro hall
    have hpid := hall pid
    rwa [Function.update_self] at hpid
  · intro hpid q
    rcases eq_or_ne q pid with rfl | hq
    · rwa [Function.update_self]
    · rw [Function.update_of_ne hq, AccurateAt, (mem_sets_of_ne hq).1, (mem_sets_of_ne hq).2]
      exact h q

theorem report_of_ne_exec {role : Role} {program : String} {signal event : Nat}
    (h : Status.stopped signal event ≠ execStop) :
    role.report program (.stopped signal event) = if role = .gone then .preExec else role := by
  rw [Role.report, if_neg fun ⟨hsignal, hevent⟩ => h (by rw [hsignal, hevent])]

theorem accurate_stub_iff (h : w.Accurate) (hinit : pid ≠ 1) (hstub : pid ∈ w.m.stubProcesses) :
    (w.next (.child pid status env)).Accurate ↔
      (status = execStop → containsText env.program "stub_zygote" = true) := by
  have hparent : w.m.isParent pid = true := isParent_iff.mpr (Or.inr hstub)
  have hrole := (h.stubProcesses pid).mp hstub
  have hprocess : pid ∉ w.m.process := fun hmem => by
    have hpre := (h.process pid).mp hmem
    rw [hrole] at hpre
    cases hpre
  rw [accurate_child_iff h (by simp [pooled, hinit, hstub]), handleChildEvent_parent env status hparent,
    AccurateAt, sets_handleParentEvent.1, sets_handleParentEvent.2,
    ChildEventsLemmas.handleParentEvent_actions, parentActions, if_neg fun hstop => hinit hstop.1, hrole]
  cases status with
  | exited code | signaled signal => simp [Status.isStopped, Role.report, resumeParent, hinit, hprocess]
  | stopped signal event =>
    have hfold : (resumeParent pid (.stopped signal event)).foldl Role.act
        (Role.stubZygote.report env.program (.stopped signal event)) =
          Role.stubZygote.report env.program (.stopped signal event) := by
      rw [resumeParent]
      split <;> rfl
    rw [hfold, if_neg (by simp [Status.isStopped])]
    rcases eq_or_ne (Status.stopped signal event) execStop with hexec | hexec
    · rw [hexec]
      cases hprogram : containsText env.program "stub_zygote" <;>
        simp [Role.report, hprogram, hprocess, hstub]
    · rw [report_of_ne_exec hexec]
      simp [hexec, hprocess, hstub]

theorem accurate_exec_iff {role : Role} (hrole : role = .executed ∨ role = .gone)
    (hprocess : pid ∈ m.process) (hstub : pid ∉ m.stubProcesses)
    (hprogram : containsText env.program "stub_zygote" = false) :
    AccurateAt (m.handleTraced env pid execStop).2 pid role ↔ ¬ HandsOff m env execStop := by
  have hpre : role ≠ .preExec ∧ role ≠ .stubZygote := by
    rcases hrole with rfl | rfl <;> decide
  have hstubs : (m.handleTraced env pid execStop).2.stubProcesses = m.stubProcesses :=
    stubProcesses_handleTraced.trans (if_neg (by simp [hprogram]))
  rw [AccurateAt, hstubs, process_handleTraced]
  simp only [hpre, hstub, iff_false, and_true]
  split
  · next hkept =>
    have hhands := hkept.resolve_right (by decide)
    simp [hprocess, hhands]
  · next hkept =>
    rw [not_or] at hkept
    simp [hkept.1]

theorem accurate_candidate_iff (h : w.Accurate) (hcandidate : w.m.isCandidate pid = true) :
    (w.next (.child pid status env)).Accurate ↔
      ¬ HandsOff w.m env status ∧
        (status.isStopped = true → status = execStop ∨ status = trapStop ∨
          env.succeeds (.detach 0) = true) := by
  obtain ⟨hparent, hdaemon, hprocess⟩ := isCandidate_iff.mp hcandidate
  have hnot := isParent_iff.not.mp (Bool.eq_false_iff.mp hparent)
  rw [not_or] at hnot
  have hrole := (h.process pid).mp hprocess
  rw [accurate_child_iff h (by simp [pooled, hnot, hdaemon]),
    handleChildEvent_candidate env status hcandidate, ChildEventsLemmas.handleTraced_actions, hrole]
  rcases eq_or_ne status execStop with rfl | hexec
  · simp only [Status.isStopped, true_or, implies_true, and_true]
    cases hprogram : containsText env.program "stub_zygote" with
    | true =>
      rw [AccurateAt, process_handleTraced, stubProcesses_handleTraced]
      simp [tracedActions, execActions, hprogram, HandsOff, Role.report, Role.act, ptraceEventExec,
        ptraceEventStop]
    | false =>
      refine accurate_exec_iff ?_ hprocess hnot.2 hprogram
      simpa [Role.report, hprogram] using foldl_act (w.m.tracedActions env execStop) .executed
  · have hhands : ¬ HandsOff w.m env status := fun hhands => hexec hhands.1
    have hstubs : (w.m.handleTraced env pid status).2.stubProcesses = w.m.stubProcesses :=
      stubProcesses_handleTraced.trans (if_neg fun hstub => hexec hstub.1)
    rw [AccurateAt, hstubs, process_handleTraced]
    simp only [hhands, not_false_eq_true, true_and, false_or, hexec, hnot.2, false_iff]
    rcases eq_or_ne status trapStop with rfl | htrap
    · simp [tracedActions, Role.report, Role.act, hprocess, ptraceEventExec, ptraceEventStop]
    · rw [if_neg htrap, tracedActions, if_neg hexec, if_neg htrap]
      cases status with
      | exited code | signaled signal => simp [release, Status.isStopped, Role.report]
      | stopped signal event =>
        rw [report_of_ne_exec hexec]
        cases hok : env.succeeds (.detach 0) <;>
          simp [release, Status.isStopped, Role.act, hok, htrap]

theorem accurate_new_iff (h : w.Accurate) (hparent : w.m.isParent pid = false)
    (hdaemon : w.m.isDaemon pid = false) (hprocess : pid ∉ w.m.process) :
    (w.next (.child pid status env)).Accurate ↔
      w.role pid = .gone ∧ status.isStopped = true ∧ status ≠ execStop := by
  have hnot := isParent_iff.not.mp (Bool.eq_false_iff.mp hparent)
  rw [not_or] at hnot
  have hpre : w.role pid ≠ .preExec := fun hrole => hprocess ((h.process pid).mpr hrole)
  have hstub : w.role pid ≠ .stubZygote := fun hrole => hnot.2 ((h.stubProcesses pid).mpr hrole)
  rw [accurate_child_iff h (by simp [pooled, hnot, hdaemon]),
    handleChildEvent_new env status hparent hdaemon hprocess]
  simp only [AccurateAt, handleNewProcess, Finset.mem_insert_self, true_iff, hnot.2, false_iff,
    List.foldl_cons, List.foldl_nil, Role.act]
  cases status with
  | exited code | signaled signal => simp [Role.report, Status.isStopped]
  | stopped signal event =>
    rcases eq_or_ne (Status.stopped signal event) execStop with hexec | hexec
    · rw [hexec]
      cases hprogram : containsText env.program "stub_zygote" <;> simp [Role.report, hprogram]
    · rw [report_of_ne_exec hexec]
      cases hrole : w.role pid <;> simp_all [Status.isStopped]

/-- Events of init and of the daemon leave the pool alone. -/
theorem accurate_unpooled (h : w.Accurate) (hpooled : pooled w.m pid = false) :
    (w.next (.child pid status env)).Accurate := by
  have hrole : (w.next (.child pid status env)).role = w.role := by
    simp [next, hpooled]
  have hsets : (w.m.handleChildEvent env pid status).2.process = w.m.process ∧
      (w.m.handleChildEvent env pid status).2.stubProcesses = w.m.stubProcesses := by
    unfold handleChildEvent
    split
    · next hparent =>
      have hinit : pid = 1 := by
        rcases hparent with hinit | hstub
        · exact hinit
        · simpa [pooled, hstub] using hpooled
      exact ⟨sets_handleParentEvent.1, sets_handleParentEvent.2.trans (if_neg fun hexit => hexit.1 hinit)⟩
    · next hparent =>
      rw [not_or] at hparent
      have hdaemon : w.m.isDaemon pid = true := by simpa [pooled, hparent] using hpooled
      rw [if_pos hdaemon]
      exact ⟨rfl, rfl⟩
  refine ⟨fun q => ?_, fun q => ?_⟩
  · rw [hrole, ← h.process q]
    exact iff_of_eq (congrArg (q ∈ ·) hsets.1)
  · rw [hrole, ← h.stubProcesses q]
    exact iff_of_eq (congrArg (q ∈ ·) hsets.2)

theorem accurate_child_keeps (h : w.Accurate) :
    (w.next (.child pid status env)).Accurate ↔ KeepsPool w (.child pid status env) := by
  rw [KeepsPool]
  split
  · next hinit => exact iff_of_true (accurate_unpooled h (by simp [pooled, hinit])) trivial
  · next hinit =>
    split
    · next hstub => exact accurate_stub_iff h hinit hstub
    · next hstub =>
      have hparent : w.m.isParent pid = false := by simp [isParent, hinit, hstub]
      split
      · next hdaemon =>
        exact iff_of_true (accurate_unpooled h (by simp [pooled, hstub, hdaemon])) trivial
      · next hdaemon =>
        rw [Bool.not_eq_true] at hdaemon
        split
        · next hprocess =>
          exact accurate_candidate_iff h (isCandidate_iff.mpr ⟨hparent, hdaemon, hprocess⟩)
        · next hprocess => exact accurate_new_iff h hparent hdaemon hprocess

theorem sets_requestRearm (renv : Rearm.Env) (seizes : Bool) :
    (m.requestRearm renv seizes).process = m.process ∧
      (m.requestRearm renv seizes).stubProcesses = m.stubProcesses := by
  obtain ⟨s, ⟨_, rfl⟩ | ⟨_, rfl⟩, h | h⟩ := requestRearm_eq m renv seizes <;>
    exact ⟨congrArg (·.process) h, congrArg (·.stubProcesses) h⟩

theorem sets_handleMessage (renv : Rearm.Env) (seizes : Bool) (message : Message) :
    (m.handleMessage renv seizes message).process = m.process ∧
      (m.handleMessage renv seizes message).stubProcesses = m.stubProcesses := by
  cases message with
  | rearm => exact sets_requestRearm renv seizes
  | start | stop | exit | zygoteInjected | daemonSetInfo | daemonSetErrorInfo
  | systemServerStarted => exact ⟨rfl, rfl⟩

theorem accurate_next_iff (h : w.Accurate) (e : Event) : (w.next e).Accurate ↔ KeepsPool w e := by
  cases e with
  | child pid status env => exact accurate_child_keeps h
  | processes => exact iff_of_true ⟨h.process, h.stubProcesses⟩ trivial
  | message message renv seizes =>
    obtain ⟨hprocess, hstubs⟩ := sets_handleMessage (m := w.m) renv seizes message
    refine iff_of_true ⟨fun q => ?_, fun q => ?_⟩ trivial
    · exact (iff_of_eq (congrArg (q ∈ ·) hprocess)).trans (h.process q)
    · exact (iff_of_eq (congrArg (q ∈ ·) hstubs)).trans (h.stubProcesses q)

end CandidatePoolLemmas

open CandidatePoolLemmas in
/-- After a start, `process_` is the set of the processes that the monitor is attached to and that
have not executed a program, `stub_processes_` that of the stub zygotes it is attached to, and the
two are disjoint, exactly as long as every event keeps the pool. -/
theorem pool_accurate_iff {lp64 : Bool} {moduleDir : String} {procs : List Rearm.Proc}
    {mapped : List Nat} {w : Pool} {tr : List (Pool × Event)}
    (hrun : Steps (started lp64 moduleDir procs mapped) tr w) :
    (∀ p ∈ tr, KeepsPool p.1 p.2) ↔
      ∀ u ∈ visited tr w, u.Accurate ∧ Disjoint u.m.process u.m.stubProcesses := by
  have hdisjoint : (∀ u ∈ visited tr w, u.Accurate ∧ Disjoint u.m.process u.m.stubProcesses) ↔
      ∀ u ∈ visited tr w, u.Accurate :=
    forall₂_congr fun u _ => and_iff_left_of_imp Accurate.disjoint
  rw [hdisjoint]
  refine hrun.forall_ok_iff (fun _ => True) Accurate KeepsPool ?_ ?_ trivial ?_
  · exact fun _ _ _ _ _ => trivial
  · rintro v e _ _ h rfl
    exact accurate_next_iff h e
  · exact ⟨fun _ => by simp [started, AppMonitor.started], fun _ => by
      simp [started, AppMonitor.started]⟩

def fresh : Pool := started true "/data/adb/modules/zygisk" [] []

/-- A process is attached to, executes a stub zygote and dies. -/
def stubLife : List Event :=
  [.child 42 trapStop obliging,
    .child 42 execStop { obliging with program := "/system/bin/stub_zygote64" },
    .child 42 (.exited 0) obliging]

theorem pool_accurate_stub :
    (∀ p ∈ path next fresh stubLife, KeepsPool p.1 p.2) ∧
      ∀ u ∈ visited (path next fresh stubLife) (stubLife.foldl next fresh),
        u.Accurate ∧ Disjoint u.m.process u.m.stubProcesses := by
  have hkeeps : ∀ p ∈ path next fresh stubLife, KeepsPool p.1 p.2 := by decide +kernel
  exact ⟨hkeeps, (pool_accurate_iff (run_path next fresh stubLife)).mp hkeeps⟩

/-- A zygote that was handed off stays among the candidates. -/
theorem handed_off_stays :
    ∃ tr w, Steps fresh tr w ∧ 42 ∈ w.m.process ∧ w.role 42 = .gone ∧ ¬ w.Accurate := by
  have hkept : 42 ∈ ([.child 42 trapStop obliging, .child 42 execStop zygoteExec].foldl next
      fresh).m.process := by decide +kernel
  have hgone : ([.child 42 trapStop obliging, .child 42 execStop zygoteExec].foldl next
      fresh).role 42 = .gone := by decide +kernel
  refine ⟨_, _, run_path next fresh [.child 42 trapStop obliging, .child 42 execStop zygoteExec],
    hkept, hgone, fun h => ?_⟩
  have hpre := (h.process 42).mp hkept
  rw [hgone] at hpre
  cases hpre

end Pool

end NyaZygisk
