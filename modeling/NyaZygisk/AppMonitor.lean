import Mathlib.Data.Finset.Basic
import Mathlib.Data.List.DropRight
import NyaZygisk.Rearm

/-!
# The init monitor

The state of `AppMonitor` with its `ZygoteAbiManager` and the two sets of `SigChldHandler`, and
what one control message or one reported child event does to it. What the kernel answers during an
event is an input of the event. The programs of the hand-off are run against the state: each of
their calls is answered once, so a function from calls to answers covers every run of them.
-/

namespace NyaZygisk

open Effects Runs

def ptraceEventFork : Nat := 1

def sigchld : Nat := 17
def sigtstp : Nat := 20
def sigttin : Nat := 21
def sigttou : Nat := 22

/-- The status of a process that has called `execve`. -/
abbrev execStop : Status := .stopped sigtrap ptraceEventExec

/-- The status of a process that the kernel has attached to, or that was interrupted. -/
abbrev trapStop : Status := .stopped sigtrap ptraceEventStop

def crashLoopRetryCount : Nat := 5
def crashLoopWindowSeconds : Int := 30

structure StartCounter where
  /-- The seconds of `last_start_time`. -/
  lastStartTime : Int
  count : Nat
deriving DecidableEq

def StartCounter.started (c : StartCounter) (now : Int) : StartCounter :=
  ⟨now, if now - c.lastStartTime < crashLoopWindowSeconds then c.count + 1 else 1⟩

/-- `AppMonitor`, with the parts it owns. -/
structure AppMonitor extends Rearm.Sys where
  lp64 : Bool
  tracerPath : String
  stopReason : String
  daemonInfo : List UInt8
  daemonErrorInfo : List UInt8
  counter : StartCounter
  process : Finset Nat
  stubProcesses : Finset Nat
  /-- The kernel has the monitor as the tracer of init. -/
  initSeized : Bool
  daemons : Nat
  /-- The processes for which an injector was executed at their hand-off. -/
  handedOff : List Nat
deriving DecidableEq

/-- What the kernel answers while a reported child event is handled. -/
structure ChildEnv where
  program : String
  /-- The seconds of `clock_gettime`. -/
  now : Int
  daemonFork : Option Nat
  succeeds : MonitorCall → Bool
  waited : Option Status
  /-- `parse_status` of the reported status. -/
  statusText : List UInt8

/-- What the monitor does to the process an event is about: it lets it go on with a signal or
detaches from it with one, and it may wait for it. -/
inductive Action
  | cont (signal : Nat)
  | detach (signal : Nat) (ok : Bool)
  | waited (status : Option Status)
deriving DecidableEq

namespace AppMonitor

variable (m : AppMonitor)

/-! ## ZygoteAbiManager -/

def abi : AbiManager := ⟨m.lp64, String.ofList m.programPath⟩

def notifyInjected : AppMonitor := { m with status := { m.status with zygoteInjected := true } }

def withoutTrailingNuls (text : List UInt8) : List UInt8 := text.rdropWhile (· = 0)

def setDaemonInfo (info : List UInt8) : AppMonitor :=
  { m with daemonInfo := withoutTrailingNuls info }

def setDaemonCrashed (error : List UInt8) : AppMonitor :=
  { m with
    status := { m.status with daemonRunning := false }
    daemonErrorInfo := withoutTrailingNuls error }

def isInCrashLoop (now : Int) : Bool × AppMonitor :=
  (crashLoopRetryCount ≤ (m.counter.started now).count,
    { m with counter := m.counter.started now })

def startsDaemon (daemonFork : Option Nat) : Bool :=
  m.status.daemonPid.isNone && daemonFork.isSome

def ensureDaemonCreated (daemonFork : Option Nat) : Bool × AppMonitor :=
  let (running, sys) := Rearm.ensureDaemonCreated ⟨daemonFork, fun _ => false⟩ m.toSys
  (running, { m with toSys := sys, daemons := m.daemons + (m.startsDaemon daemonFork).toNat })

def rearm (env : Rearm.Env) : Bool × AppMonitor :=
  let (done, sys) := Rearm.rearm env m.toSys
  (done, { m with toSys := sys, daemons := m.daemons + (m.startsDaemon env.daemonFork).toNat })

/-! ## Requests -/

/-- `request_start`; `seizes` is what `PTRACE_SEIZE` answers, which nothing looks at. -/
def requestStart (seizes : Bool) : AppMonitor :=
  { m with
    toSys := Rearm.requestStart m.toSys
    initSeized := m.initSeized || (m.tracingState = .stopped && seizes) }

/-- `request_stop`. What `PTRACE_INTERRUPT` answers is not looked at. -/
def requestStop (reason : String) : AppMonitor :=
  { m with
    toSys := Rearm.requestStop m.toSys
    stopReason := if m.tracingState = .tracing then reason else m.stopReason }

def requestExit : AppMonitor :=
  { m with tracingState := .exiting, stopReason := "user requested" }

def requestRearm (env : Rearm.Env) (seizes : Bool) : AppMonitor :=
  let m := if m.tracingState ≠ .tracing then m.requestStart seizes else m
  match m.rearm env with
  | (true, m) => m
  | (false, m) => m.requestStop "rearm failed"

def notifyInitDetached : AppMonitor := { m with tracingState := .stopped }

def checkAndPrepareInjection (env : ChildEnv) : Option String × AppMonitor :=
  let (crashed, m) := m.isInCrashLoop env.now
  if crashed then (none, m.requestStop "zygote crashed")
  else
    match { m with status := { m.status with zygoteInjected := false } }.ensureDaemonCreated
      env.daemonFork with
    | (false, m) => (none, m.requestStop "daemon not running")
    | (true, m) => (some m.tracerPath, m)

def prepareAuxInjection (env : ChildEnv) : Option String × AppMonitor :=
  let (running, m) := m.ensureDaemonCreated env.daemonFork
  (if running then some m.tracerPath else none, m)

/-! ## Control messages -/

/-- A control message; the two that carry a text have it without the NULs at its end. -/
inductive Message
  | start | stop | exit | zygoteInjected
  | daemonSetInfo (info : List UInt8)
  | daemonSetErrorInfo (error : List UInt8)
  | systemServerStarted
  | rearm
deriving DecidableEq

/-- The `switch` of `SocketHandler::HandleEvent`. -/
def handleMessage (env : Rearm.Env) (seizes : Bool) : Message → AppMonitor
  | .start => m.requestStart seizes
  | .stop => m.requestStop "user requested"
  | .exit => m.requestExit
  | .rearm => m.requestRearm env seizes
  | .zygoteInjected => m.notifyInjected
  | .daemonSetInfo info => m.setDaemonInfo info
  | .daemonSetErrorInfo error => m.setDaemonCrashed error
  | .systemServerStarted => m

/-! ## Child events -/

/-- `handle_daemon_exit_if_match`, where the pid matches. -/
def handleDaemonExit (env : ChildEnv) : AppMonitor :=
  { m with
    status := { m.status with daemonRunning := false, daemonPid := none }
    daemonErrorInfo := if m.daemonErrorInfo = [] then env.statusText else m.daemonErrorInfo }

def isDaemon (pid : Nat) : Bool := m.status.supported && m.status.daemonPid = some pid

/-- The signals that `handleParentEvent` does not pass on. -/
def suppressed (pid signal : Nat) : Bool :=
  signal = sigstop || signal = sigtstp || signal = sigttin || signal = sigttou ||
    (pid ≠ 1 && signal = sigchld)

/-- How `handleParentEvent` lets a stopped parent go on. -/
def resumeParent (pid : Nat) : Status → List Action
  | .stopped signal event =>
    if event = 0 && !suppressed pid signal then [.cont signal] else [.cont 0]
  | .exited _ | .signaled _ => []

/-- `handleParentEvent`. The message of a fork event is only logged. -/
def handleParentEvent (env : ChildEnv) (pid : Nat) (status : Status) : List Action × AppMonitor :=
  if stoppedWith status sigtrap ptraceEventFork then (resumeParent pid status, m)
  else if pid = 1 && status = trapStop && m.tracingState = .stopping then
    let ok := env.succeeds (.detach 0)
    ([.detach 0 ok], { m with initSeized := m.initSeized && !ok }.notifyInitDetached)
  else if pid ≠ 1 && !status.isStopped then
    ([], { m with stubProcesses := m.stubProcesses.erase pid })
  else (resumeParent pid status, m)

def handleNewProcess (pid : Nat) : List Action × AppMonitor :=
  ([.cont 0], { m with process := insert pid m.process })

/-- What a call of the programs for one process answers, and does to the monitor. -/
def call (env : ChildEnv) (pid : Nat) : (c : MonitorCall) → AppMonitor → c.Result × AppMonitor
  | .getProgram, m => (env.program, m)
  | .getTracingState, m => (m.tracingState, m)
  | .prepareAuxInjection, m => m.prepareAuxInjection env
  | .checkAndPrepareInjection, m => m.checkAndPrepareInjection env
  | .updateStatus, m | .waitChild, m => ((), m)
  | .insertStub, m => ((), { m with stubProcesses := insert pid m.stubProcesses })
  | .eraseProcess, m => ((), { m with process := m.process.erase pid })
  | .waitpid, m => (env.waited, m)
  | .setOptions options, m => (env.succeeds (.setOptions options), m)
  | .cont, m => (env.succeeds .cont, m)
  | .detach signal, m => (env.succeeds (.detach signal), m)
  | .kill signal, m => (env.succeeds (.kill signal), m)
  | .fork, m => (env.succeeds .fork, m)
  | .forkGrandchild, m => (env.succeeds .forkGrandchild, m)
  | .execl path args, m =>
    (env.succeeds (.execl path args),
      if env.succeeds (.execl path args) then { m with handedOff := m.handedOff ++ [pid] } else m)

end AppMonitor

def MonitorEvent.action : MonitorEvent → Option Action
  | ⟨.cont, _⟩ => some (.cont 0)
  | ⟨.detach signal, (ok : Bool)⟩ => some (.detach signal ok)
  | ⟨.waitpid, (status : Option Status)⟩ => some (.waited status)
  | _ => none

namespace AppMonitor

variable (m : AppMonitor)

/-- A program for one process, run against the monitor. -/
def run {α : Type} (env : ChildEnv) (pid : Nat) (p : Monitor α) : List Action × α × AppMonitor :=
  ((eval (call env pid) p m).1.filterMap MonitorEvent.action, (eval (call env pid) p m).2)

/-- `handleTracedProcess`, run against the monitor. -/
def handleTraced (env : ChildEnv) (pid : Nat) (status : Status) : List Action × AppMonitor :=
  let (actions, _, m) := m.run env pid (handleTracedProcess m.abi pid status)
  (actions, m)

def handleChildEvent (env : ChildEnv) (pid : Nat) (status : Status) : List Action × AppMonitor :=
  if pid = 1 ∨ pid ∈ m.stubProcesses then m.handleParentEvent env pid status
  else if m.isDaemon pid then ([], m.handleDaemonExit env)
  else if pid ∈ m.process then m.handleTraced env pid status
  else m.handleNewProcess pid

/-! ## Events -/

inductive Event
  /-- A control message; `seizes` is what `PTRACE_SEIZE` would answer. -/
  | message (message : Message) (env : Rearm.Env) (seizes : Bool)
  | child (pid : Nat) (status : Status) (env : ChildEnv)
  | processes (procs : List Rearm.Proc) (mapped : List Nat)

def next : Event → AppMonitor
  | .message message env seizes => m.handleMessage env seizes message
  | .child pid status env => (m.handleChildEvent env pid status).2
  | .processes procs mapped => { m with procs := procs, mapped := mapped }

def started (lp64 : Bool) (moduleDir : String) (procs : List Rearm.Proc) (mapped : List Nat) :
    AppMonitor where
  programPath :=
    (if lp64 then "/system/bin/app_process64" else "/system/bin/app_process32").toList
  procs := procs
  mapped := mapped
  status := ⟨false, false, false, none⟩
  tracingState := .tracing
  launched := []
  lp64 := lp64
  tracerPath := moduleDir ++ (if lp64 then "/bin/zygisk-ptrace64" else "/bin/zygisk-ptrace32")
  stopReason := ""
  daemonInfo := []
  daemonErrorInfo := []
  counter := ⟨0, 0⟩
  process := ∅
  stubProcesses := ∅
  initSeized := true
  daemons := 0
  handedOff := []

/-- The monitor of a 64-bit system on which nothing runs. -/
def idle : AppMonitor := started true "/data/adb/modules/zygisk" [] []

def obliging : ChildEnv where
  program := ""
  now := 0
  daemonFork := none
  succeeds := fun _ => true
  waited := none
  statusText := []

abbrev Steps : AppMonitor → List (AppMonitor × Event) → AppMonitor → Prop :=
  Run fun m e t => m.next e = t

/-! ## What becomes of a candidate -/

/-- The injector for the program that a process has executed, if it is to be given to one. -/
def prepare (env : ChildEnv) : Option String × AppMonitor :=
  if m.tracingState ≠ .tracing then (none, m)
  else if isHyosSpawner m.abi (cleanProg env.program) then m.prepareAuxInjection env
  else if cleanProg env.program = m.abi.programPath then m.checkAndPrepareInjection env
  else (none, m)

def dropped (pid : Nat) : AppMonitor := { m with process := m.process.erase pid }

def release (env : ChildEnv) (status : Status) : List Action :=
  if status.isStopped then [.detach 0 (env.succeeds (.detach 0))] else []

def injectorArgs (env : ChildEnv) (pid : Nat) (tracer : String) : List String :=
  if isHyosSpawner m.abi (cleanProg env.program) then [basename tracer, "trace", toString pid]
  else [basename tracer, "trace", toString pid, "--spawn"]

def injected (env : ChildEnv) (pid : Nat) (tracer : String) (args : List String) :
    AppMonitor :=
  if env.succeeds .fork && env.succeeds .forkGrandchild && env.succeeds (.execl tracer args) then
    { m with handedOff := m.handedOff ++ [pid] }
  else m

def forked (env : ChildEnv) : Forked :=
  if !env.succeeds .fork then .failed
  else if env.succeeds .forkGrandchild then .grandchild else .parentOnly

/-- What a child event does to all but the sets of processes and the hand-offs. -/
def core (env : ChildEnv) (pid : Nat) (status : Status) : AppMonitor :=
  if pid = 1 ∨ pid ∈ m.stubProcesses then
    if pid = 1 ∧ status = trapStop ∧ m.tracingState = .stopping then
      { m with
        tracingState := .stopped
        initSeized := m.initSeized && !env.succeeds (.detach 0) }
    else m
  else if m.isDaemon pid then m.handleDaemonExit env
  else if pid ∈ m.process ∧ status = execStop ∧ containsText env.program "stub_zygote" = false then
    (m.prepare env).2
  else m

/-! ## The programs of the hand-off -/

variable {m} {env : ChildEnv} {pid : Nat} {status : Status} {α β : Type}

theorem run_ask_bind (c : MonitorCall) (g : c.Result → Monitor α) :
    m.run env pid ((ask c).bind g) =
      ((MonitorEvent.action ⟨c, (call env pid c m).1⟩).toList ++
          ((call env pid c m).2.run env pid (g (call env pid c m).1)).1,
        ((call env pid c m).2.run env pid (g (call env pid c m).1)).2) := by
  unfold run ask
  simp only [eval_op_bind, List.filterMap_cons]
  cases MonitorEvent.action ⟨c, (call env pid c m).1⟩ <;> rfl

theorem run_silent (c : MonitorCall) (hsilent : ∀ r, MonitorEvent.action ⟨c, r⟩ = none)
    (g : c.Result → Monitor α) :
    m.run env pid ((ask c).bind g) =
      (call env pid c m).2.run env pid (g (call env pid c m).1) := by
  rw [run_ask_bind, hsilent]
  rfl

theorem run_bind (p : Monitor α) (g : α → Monitor β) :
    m.run env pid (p.bind g) =
      ((m.run env pid p).1 ++ ((m.run env pid p).2.2.run env pid (g (m.run env pid p).2.1)).1,
        ((m.run env pid p).2.2.run env pid (g (m.run env pid p).2.1)).2) := by
  simp [run, eval_bind]

theorem run_pos {c : Prop} [Decidable c] {p q : Monitor α} (h : c) :
    m.run env pid (if c then p else q) = m.run env pid p := by rw [if_pos h]

theorem run_neg {c : Prop} [Decidable c] {p q : Monitor α} (h : ¬ c) :
    m.run env pid (if c then p else q) = m.run env pid q := by rw [if_neg h]

theorem run_routeProcess_dropped :
    m.run env pid (routeProcess false status) = (release env status, (), m.dropped pid) := by
  unfold routeProcess release
  simp only [Bool.false_eq_true, if_false]
  split <;> rfl

theorem handleTraced_other (hexec : status ≠ execStop) (htrap : status ≠ trapStop) :
    m.handleTraced env pid status = (release env status, m.dropped pid) := by
  have hstop : handleStop m.abi pid status = .ret (false, status) := by
    simp [handleStop, stoppedWith, hexec, htrap]
  unfold handleTraced handleTracedProcess
  simp only [hstop, Prog.bind_eq, Prog.ret_bind, run_routeProcess_dropped]

theorem handleTraced_trap : m.handleTraced env pid trapStop = ([.cont 0], m) := rfl

theorem run_handleExecEvent :
    m.run env pid (handleExecEvent m.abi pid status) = m.run env pid (identify m.abi pid status) := by
  refine (run_bind (identify m.abi pid status) _).trans ?_
  exact Prod.ext (List.append_nil _) rfl

/-- What the monitor makes of an exec, from what `identify` makes of it. -/
theorem handleTraced_exec {actions : List Action} {keep : Bool} {t : AppMonitor}
    (h : m.run env pid (identify m.abi pid execStop) = (actions, (keep, status), t)) :
    m.handleTraced env pid execStop =
      if keep then (actions, if status = execStop then t.dropped pid else t)
      else (actions ++ release env status, t.dropped pid) := by
  have hexec : m.run env pid (handleStop m.abi pid execStop) = (actions, (keep, status), t) :=
    run_handleExecEvent.trans h
  unfold handleTraced handleTracedProcess
  simp only [Prog.bind_eq, run_bind, hexec]
  cases keep with
  | false => simp only [run_routeProcess_dropped, Bool.false_eq_true, if_false]
  | true =>
    simp only [routeProcess, stoppedWith, beq_iff_eq, if_true]
    split
    · exact Prod.ext (List.append_nil _) rfl
    · exact Prod.ext (List.append_nil _) rfl

theorem run_forkDontCare : m.run env pid forkDontCare = ([], forked env, m) := by
  refine (run_silent .fork (fun _ => rfl) _).trans ?_
  unfold forked
  cases hfork : env.succeeds .fork with
  | false =>
    simp only [call, hfork]
    rfl
  | true =>
    simp only [call, hfork]
    refine (run_silent .forkGrandchild (fun _ => rfl) _).trans ?_
    cases hagain : env.succeeds .forkGrandchild <;> simp only [call, hagain] <;> rfl

theorem run_startInjector (tracer : String) (args : List String) :
    m.run env pid (startInjector tracer args) = ([], (), m.injected env pid tracer args) := by
  unfold injected
  refine (run_bind forkDontCare _).trans ?_
  simp only [run_forkDontCare, forked]
  cases hfork : env.succeeds .fork with
  | false => rfl
  | true =>
    cases hagain : env.succeeds .forkGrandchild with
    | false => rfl
    | true =>
      refine (run_silent (.execl tracer args) (fun _ => rfl) _).trans ?_
      simp only [call, Bool.and_self, Bool.true_and]
      by_cases hexec : env.succeeds (.execl tracer args) = true
      · exact (run_pos hexec).trans (by rw [if_pos hexec]; rfl)
      · refine (run_neg hexec).trans ?_
        rw [if_neg hexec]
        rfl

theorem run_passToInjector (tracer : String) (args : List String) :
    m.run env pid (passToInjector tracer args status) =
      if status = .stopped sigstop 0 then
        ([.detach sigstop (env.succeeds (.detach sigstop))], (true, status),
          m.injected env pid tracer args)
      else ([], (false, status), m) := by
  unfold passToInjector
  simp only [stoppedWith, beq_iff_eq]
  split
  · refine (run_ask_bind (.detach sigstop) _).trans ?_
    simp only [Prog.bind_eq, run_bind, run_startInjector, call]
    rfl
  · rfl

theorem run_targetHandover (tracer : String) (args : List String) :
    m.run env pid (targetHandover tracer args status) =
      if env.waited.getD status = .stopped sigstop 0 then
        ([.cont 0, .waited env.waited, .detach sigstop (env.succeeds (.detach sigstop))],
          (true, env.waited.getD status), m.injected env pid tracer args)
      else ([.cont 0, .waited env.waited], (false, env.waited.getD status), m) := by
  have hwaited : m.run env pid (targetHandover tracer args status) =
      (.cont 0 :: .waited env.waited ::
          (m.run env pid (passToInjector tracer args (env.waited.getD status))).1,
        (m.run env pid (passToInjector tracer args (env.waited.getD status))).2) := rfl
  rw [hwaited, run_passToInjector]
  split <;> rfl

theorem run_identify_stub (hstub : containsText env.program "stub_zygote" = true) :
    m.run env pid (identify m.abi pid status) =
      ([.cont 0], (true, status), { m with stubProcesses := insert pid m.stubProcesses }) := by
  refine (run_silent .getProgram (fun _ => rfl) _).trans ?_
  simp only [call, hstub, if_true]
  rfl

theorem run_identify (hstub : containsText env.program "stub_zygote" = false) :
    m.run env pid (identify m.abi pid status) =
      match m.prepare env with
      | (none, t) => ([], (false, status), t)
      | (some tracer, t) =>
        t.run env pid (targetHandover tracer (m.injectorArgs env pid tracer) status) := by
  refine (run_silent .getProgram (fun _ => rfl) _).trans ?_
  simp only [call, hstub, Bool.false_eq_true, if_false]
  refine (run_silent .getTracingState (fun _ => rfl) _).trans ?_
  unfold prepare injectorArgs
  simp only [call]
  by_cases htracing : m.tracingState ≠ .tracing
  · refine (run_pos htracing).trans ?_
    rw [if_pos htracing]
    rfl
  refine (run_neg htracing).trans ?_
  rw [if_neg htracing]
  by_cases hhyos : isHyosSpawner m.abi (cleanProg env.program) = true
  · refine (run_pos hhyos).trans ((run_silent .prepareAuxInjection (fun _ => rfl) _).trans ?_)
    simp only [call, if_pos hhyos]
    rcases m.prepareAuxInjection env with ⟨_ | tracer, t⟩ <;> rfl
  refine (run_neg hhyos).trans ?_
  simp only [if_neg hhyos]
  by_cases hzygote : cleanProg env.program = m.abi.programPath
  · refine (run_pos hzygote).trans ((run_silent .checkAndPrepareInjection (fun _ => rfl) _).trans ?_)
    simp only [call, if_pos hzygote]
    rcases m.checkAndPrepareInjection env with ⟨_ | tracer, t⟩ <;> rfl
  · refine (run_neg hzygote).trans ?_
    rw [if_neg hzygote]
    rfl

/-! ## What the monitor does with a candidate -/

theorem handleTraced_stub (hstub : containsText env.program "stub_zygote" = true) :
    m.handleTraced env pid execStop =
      ([.cont 0], { m.dropped pid with stubProcesses := insert pid m.stubProcesses }) := by
  rw [handleTraced_exec (run_identify_stub hstub)]
  rfl

theorem handleTraced_ignored (hstub : containsText env.program "stub_zygote" = false)
    {t : AppMonitor} (hnone : m.prepare env = (none, t)) :
    m.handleTraced env pid execStop =
      ([.detach 0 (env.succeeds (.detach 0))], t.dropped pid) := by
  have hrun : m.run env pid (identify m.abi pid execStop) = _ := run_identify hstub
  rw [hnone] at hrun
  rw [handleTraced_exec hrun]
  rfl

theorem handleTraced_target (hstub : containsText env.program "stub_zygote" = false)
    {tracer : String} {t : AppMonitor} (hsome : m.prepare env = (some tracer, t)) :
    m.handleTraced env pid execStop =
      if env.waited = some (.stopped sigstop 0) then
        ([.cont 0, .waited env.waited, .detach sigstop (env.succeeds (.detach sigstop))],
          t.injected env pid tracer (m.injectorArgs env pid tracer))
      else
        (.cont 0 :: .waited env.waited :: release env (env.waited.getD execStop), t.dropped pid) := by
  have hrun : m.run env pid (identify m.abi pid execStop) = _ := run_identify hstub
  rw [hsome] at hrun
  have hwait : env.waited.getD execStop = .stopped sigstop 0 ↔
      env.waited = some (.stopped sigstop 0) := by
    cases env.waited with
    | none => simp [execStop, sigtrap, sigstop]
    | some status => simp
  simp only [run_targetHandover, hwait] at hrun
  split at hrun
  · next hstopped =>
    rw [handleTraced_exec hrun, if_pos hstopped]
    simp [hstopped, execStop, sigtrap, sigstop]
  · next hother =>
    rw [handleTraced_exec hrun, if_neg hother]
    rfl

/-- What becomes of a candidate, by the status that is reported of it. -/
inductive Treated (m : AppMonitor) (env : ChildEnv) (pid : Nat) :
    Status → List Action × AppMonitor → Prop
  | stub (hstub : containsText env.program "stub_zygote" = true) :
      Treated m env pid execStop
        ([.cont 0], { m.dropped pid with stubProcesses := insert pid m.stubProcesses })
  | ignored {t : AppMonitor} (hstub : containsText env.program "stub_zygote" = false)
      (hprepare : m.prepare env = (none, t)) :
      Treated m env pid execStop ([.detach 0 (env.succeeds (.detach 0))], t.dropped pid)
  | handedOff {t : AppMonitor} {tracer : String}
      (hstub : containsText env.program "stub_zygote" = false)
      (hprepare : m.prepare env = (some tracer, t))
      (hwaited : env.waited = some (.stopped sigstop 0)) :
      Treated m env pid execStop
        ([.cont 0, .waited env.waited, .detach sigstop (env.succeeds (.detach sigstop))],
          t.injected env pid tracer (m.injectorArgs env pid tracer))
  | failed {t : AppMonitor} {tracer : String}
      (hstub : containsText env.program "stub_zygote" = false)
      (hprepare : m.prepare env = (some tracer, t))
      (hwaited : env.waited ≠ some (.stopped sigstop 0)) :
      Treated m env pid execStop
        (.cont 0 :: .waited env.waited :: release env (env.waited.getD execStop), t.dropped pid)
  | attached : Treated m env pid trapStop ([.cont 0], m)
  | other {status : Status} (hexec : status ≠ execStop) (htrap : status ≠ trapStop) :
      Treated m env pid status (release env status, m.dropped pid)

theorem handleTraced_treated (m : AppMonitor) (env : ChildEnv) (pid : Nat) (status : Status) :
    Treated m env pid status (m.handleTraced env pid status) := by
  rcases eq_or_ne status execStop with rfl | hexec
  · cases hstub : containsText env.program "stub_zygote" with
    | true =>
      rw [handleTraced_stub hstub]
      exact .stub hstub
    | false =>
      rcases hprepare : m.prepare env with ⟨_ | tracer, t⟩
      · rw [handleTraced_ignored hstub hprepare]
        exact .ignored hstub hprepare
      · rw [handleTraced_target hstub hprepare]
        split
        · next hwaited => exact .handedOff hstub hprepare hwaited
        · next hwaited => exact .failed hstub hprepare hwaited
  · rcases eq_or_ne status trapStop with rfl | htrap
    · exact .attached
    · rw [handleTraced_other hexec htrap]
      exact .other hexec htrap

/-! ## What the monitor does with init and the stubs -/

/-- init is let go where it has stopped for that, a stub is forgotten when it exits, and any other
stop is resumed. -/
theorem handleParentEvent_eq (m : AppMonitor) (env : ChildEnv) (pid : Nat) (status : Status) :
    m.handleParentEvent env pid status =
      if pid = 1 ∧ status = trapStop ∧ m.tracingState = .stopping then
        ([.detach 0 (env.succeeds (.detach 0))],
          { m with
            tracingState := .stopped
            initSeized := m.initSeized && !env.succeeds (.detach 0) })
      else
        (resumeParent pid status,
          if pid ≠ 1 ∧ status.isStopped = false then
            { m with stubProcesses := m.stubProcesses.erase pid }
          else m) := by
  unfold handleParentEvent
  split
  · next hfork =>
    rw [stoppedWith, beq_iff_eq] at hfork
    rw [if_neg (by simp [hfork, ptraceEventFork, ptraceEventStop]),
      if_neg (by simp [hfork, Status.isStopped])]
  · split
    · next hstop =>
      simp only [Bool.and_eq_true, decide_eq_true_eq, and_assoc] at hstop
      rw [if_pos hstop]
      rfl
    · next hstop =>
      simp only [Bool.and_eq_true, decide_eq_true_eq, and_assoc] at hstop
      rw [if_neg hstop]
      split
      · next hexit =>
        simp only [Bool.and_eq_true, decide_eq_true_eq, Bool.not_eq_true'] at hexit
        rw [if_pos hexit]
        cases status with
        | stopped signal event => cases hexit.2
        | exited code | signaled signal => rfl
      · next hexit =>
        simp only [Bool.and_eq_true, decide_eq_true_eq, Bool.not_eq_true'] at hexit
        rw [if_neg hexit]

theorem requestRearm_eq (m : AppMonitor) (renv : Rearm.Env) (seizes : Bool) :
    ∃ s, (m.tracingState = .tracing ∧ s = m ∨
        m.tracingState ≠ .tracing ∧ s = m.requestStart seizes) ∧
      (m.requestRearm renv seizes = (s.rearm renv).2 ∨
        m.requestRearm renv seizes = (s.rearm renv).2.requestStop "rearm failed") := by
  refine ⟨if m.tracingState ≠ .tracing then m.requestStart seizes else m, ?_, ?_⟩
  · split
    · next h => exact Or.inr ⟨h, rfl⟩
    · next h => exact Or.inl ⟨not_not.mp h, rfl⟩
  · unfold requestRearm
    simp only
    generalize rearm (if m.tracingState ≠ .tracing then m.requestStart seizes else m) renv = r
    obtain ⟨_ | _, t⟩ := r
    · exact Or.inr rfl
    · exact Or.inl rfl

theorem ensureDaemonCreated_eq (m : AppMonitor) (daemonFork : Option Nat) :
    m.ensureDaemonCreated daemonFork =
      match m.status.daemonPid, daemonFork with
      | none, none => (false, m)
      | none, some pid =>
        (true, { m with
          status := { m.status with supported := true, daemonPid := some pid, daemonRunning := true }
          daemons := m.daemons + 1 })
      | some _, _ => (m.status.daemonRunning, m) := by
  unfold ensureDaemonCreated Rearm.ensureDaemonCreated startsDaemon
  cases m.status.daemonPid <;> cases daemonFork <;> rfl

theorem tracingState_ensureDaemonCreated (m : AppMonitor) (daemonFork : Option Nat) :
    (m.ensureDaemonCreated daemonFork).2.tracingState = m.tracingState := by
  rw [ensureDaemonCreated_eq]
  split <;> rfl

theorem handleParentEvent_core (hparent : pid = 1 ∨ pid ∈ m.stubProcesses) :
    ∃ stubs, (m.handleParentEvent env pid status).2 =
      { m.core env pid status with stubProcesses := stubs } := by
  rw [handleParentEvent_eq, core, if_pos hparent]
  split
  · exact ⟨_, rfl⟩
  · split <;> exact ⟨_, rfl⟩

theorem handleTraced_core (hprocess : pid ∈ m.process) (hparent : ¬ (pid = 1 ∨ pid ∈ m.stubProcesses))
    (hdaemon : m.isDaemon pid = false) :
    ∃ process stubs handedOff, (m.handleTraced env pid status).2 =
      { m.core env pid status with
        process := process, stubProcesses := stubs, handedOff := handedOff } := by
  unfold core
  rw [if_neg hparent, hdaemon]
  simp only [Bool.false_eq_true, if_false, hprocess, true_and]
  have htreated := handleTraced_treated m env pid status
  generalize m.handleTraced env pid status = r at htreated
  cases htreated with
  | stub hstub =>
    rw [if_neg (by simp [hstub])]
    exact ⟨_, _, _, rfl⟩
  | ignored hstub hprepare | failed hstub hprepare =>
    rw [if_pos ⟨rfl, hstub⟩, hprepare]
    exact ⟨_, _, _, rfl⟩
  | handedOff hstub hprepare =>
    rw [if_pos ⟨rfl, hstub⟩, hprepare, injected]
    split <;> exact ⟨_, _, _, rfl⟩
  | attached => exact ⟨_, _, _, rfl⟩
  | other hexec =>
    rw [if_neg fun h => hexec h.1]
    exact ⟨_, _, _, rfl⟩

/-- What an event does to the rest of the monitor is `core`. -/
theorem handleChildEvent_core (m : AppMonitor) (env : ChildEnv) (pid : Nat) (status : Status) :
    ∃ process stubs handedOff, (m.handleChildEvent env pid status).2 =
      { m.core env pid status with
        process := process, stubProcesses := stubs, handedOff := handedOff } := by
  unfold handleChildEvent
  split
  · next hparent =>
    obtain ⟨stubs, h⟩ := handleParentEvent_core hparent
    exact ⟨_, _, _, h⟩
  · next hparent =>
    split
    · next hdaemon =>
      rw [core, if_neg hparent, if_pos hdaemon]
      exact ⟨_, _, _, rfl⟩
    · next hdaemon =>
      split
      · next hprocess =>
        exact handleTraced_core hprocess hparent (Bool.eq_false_iff.mpr hdaemon)
      · next hprocess =>
        rw [core, if_neg hparent, if_neg hdaemon, if_neg fun h => hprocess h.1]
        exact ⟨_, _, _, rfl⟩

end AppMonitor

end NyaZygisk
