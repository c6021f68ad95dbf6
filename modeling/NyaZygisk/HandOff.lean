import NyaZygisk.Tracee

/-!
# The hand-off of a target to the injector

When a traced process has executed zygote (or the spawner), the monitor sends it
SIGSTOP, lets it run into the stop, detaches and starts an injector through a
double fork. `handleTracedProcess` detaches what `handleExecEvent` did not take.
The grandchild runs beside the monitor; its calls stand before the rest of the
monitor's, which makes no further call on a target that was handed off.
-/

namespace NyaZygisk

open Effects

def ptraceEventExec : Nat := 4

inductive TracingState
  | tracing | stopping | stopped | exiting
deriving DecidableEq

inductive TraceOption
  | traceFork | traceExec
deriving DecidableEq

/-- The calls of the monitor while it handles one process. -/
inductive MonitorCall
  | getProgram
  | getTracingState
  | prepareAuxInjection
  | checkAndPrepareInjection
  | updateStatus
  | insertStub
  | eraseProcess
  | setOptions (options : List TraceOption)
  /-- `PTRACE_CONT` with no signal. -/
  | cont
  | detach (signal : Nat)
  | kill (signal : Nat)
  | waitpid
  /-- The first `fork` of `fork_dont_care`. -/
  | fork
  /-- Its second, in the first child. -/
  | forkGrandchild
  /-- The monitor's `waitpid` for the first child. -/
  | waitChild
  | execl (path : String) (args : List String)

/-- What a call answers: a Boolean says whether it succeeded. A `waitpid` that
fails answers no status. -/
abbrev MonitorCall.Result : MonitorCall → Type
  | .getProgram => String
  | .getTracingState => TracingState
  | .prepareAuxInjection | .checkAndPrepareInjection => Option String
  | .updateStatus | .insertStub | .eraseProcess | .waitChild => Unit
  | .setOptions _ | .cont | .detach _ | .kill _ | .fork | .forkGrandchild | .execl _ _ => Bool
  | .waitpid => Option Status

abbrev Monitor (α : Type) : Type := Prog MonitorCall MonitorCall.Result α

abbrev MonitorEvent : Type := Sigma MonitorCall.Result

def ask (c : MonitorCall) : Monitor c.Result := .op c

def basename (path : String) : String :=
  String.ofList (path.toList.reverse.takeWhile (· ≠ '/')).reverse

/-- The program's path, without the mark of a deleted file. -/
def cleanProg (program : String) : String :=
  if endsWith program " (deleted)" then
    String.ofList (program.toList.take (program.toList.length - 10))
  else program

/-- The fields of `ZygoteAbiManager` that identify a target. -/
structure AbiManager where
  /-- The monitor is built with `__LP64__`. -/
  lp64 : Bool
  programPath : String

def isHyosSpawner (abi : AbiManager) (program : String) : Bool :=
  abi.lp64 && (program == "/system_ext/bin/hyos_spawner" || endsWith program "/hyos_spawner")

/-- Where `fork_dont_care` returns: nowhere but in the caller, with -1; in the caller
alone, when the first child could not fork; in the caller and in a grandchild. -/
inductive Forked
  | failed | parentOnly | grandchild
deriving DecidableEq

/-- `fork_dont_care`. Whether the first child could fork does not reach the caller:
it is given the child's pid in both cases. -/
def forkDontCare : Monitor Forked := do
  let forked : Bool ← ask .fork
  if !forked then return .failed
  else
    let again : Bool ← ask .forkGrandchild
    ask .waitChild
    return if again then .grandchild else .parentOnly

/-- What follows the fork for the injector, in the grandchild and in the monitor. -/
def startInjector (tracer : String) (args : List String) : Monitor Unit := do
  match ← forkDontCare with
  | .grandchild => do
    let started : Bool ← ask (.execl tracer args)
    if started then return ()
    else
      let _ ← ask (.kill sigcont)
      return ()
  | .failed => do
    let _ ← ask (.kill sigcont)
    return ()
  | .parentOnly => return ()

/-- What the hand-over does once it has waited for the process: whether the process
was handed off, and the status that was waited for. -/
def passToInjector (tracer : String) (args : List String) (status : Status) :
    Monitor (Bool × Status) := do
  if stoppedWith status sigstop 0 then
    let _ ← ask (.detach sigstop)
    startInjector tracer args
    return (true, status)
  else return (false, status)

/-- The hand-over sequence of `handleExecEvent`. A failed `waitpid` leaves the status
of the exec stop in place. -/
def targetHandover (tracer : String) (args : List String) (status : Status) :
    Monitor (Bool × Status) := do
  let _ ← ask (.kill sigstop)
  let _ ← ask .cont
  let waited : Option Status ← ask .waitpid
  passToInjector tracer args (waited.getD status)

/-- The `do` block of `handleExecEvent`. -/
def identify (abi : AbiManager) (pid : Nat) (status : Status) : Monitor (Bool × Status) := do
  let program : String ← ask .getProgram
  if containsText program "stub_zygote" then
    ask .insertStub
    let _ ← ask (.setOptions [.traceFork, .traceExec])
    let _ ← ask .cont
    return (true, status)
  else
    let state : TracingState ← ask .getTracingState
    if state ≠ .tracing then return (false, status)
    else if isHyosSpawner abi (cleanProg program) then
      let tracer : Option String ← ask .prepareAuxInjection
      match tracer with
      | none => return (false, status)
      | some tracer => targetHandover tracer [basename tracer, "trace", toString pid] status
    else if cleanProg program = abi.programPath then
      let tracer : Option String ← ask .checkAndPrepareInjection
      match tracer with
      | none => return (false, status)
      | some tracer =>
        targetHandover tracer [basename tracer, "trace", toString pid, "--spawn"] status
    else return (false, status)

/-- `AppMonitor::SigChldHandler::handleExecEvent`; `status` is passed by reference. -/
def handleExecEvent (abi : AbiManager) (pid : Nat) (status : Status) : Monitor (Bool × Status) := do
  let result ← identify abi pid status
  ask .updateStatus
  return result

/-- The handler that `handleTracedProcess` calls for a status. -/
def handleStop (abi : AbiManager) (pid : Nat) (status : Status) : Monitor (Bool × Status) :=
  if stoppedWith status sigtrap ptraceEventExec then handleExecEvent abi pid status
  else if stoppedWith status sigtrap ptraceEventStop then do
    let _ ← ask (.setOptions [.traceExec])
    let _ ← ask .cont
    return (true, status)
  else return (false, status)

/-- What `handleTracedProcess` does with a process after its handler. -/
def routeProcess (keepAttached : Bool) (status : Status) : Monitor Unit :=
  if keepAttached then
    if stoppedWith status sigtrap ptraceEventExec then ask .eraseProcess else return ()
  else do
    ask .eraseProcess
    if status.isStopped then
      let _ ← ask (.detach 0)
      return ()
    else return ()

/-- `AppMonitor::SigChldHandler::handleTracedProcess`. -/
def handleTracedProcess (abi : AbiManager) (pid : Nat) (status : Status) : Monitor Unit := do
  let (keepAttached, status) ← handleStop abi pid status
  routeProcess keepAttached status

/-! ## The target -/

/-- Where a SIGSTOP for a process is: nowhere, sent but not yet reported to the
tracer, reported to it and held back, or in force. -/
inductive StopSignal
  | absent | pending | reported | inForce
deriving DecidableEq

structure Tracked where
  alive : Bool
  attached : Bool
  candidate : Bool
  stub : Bool
  stop : StopSignal
  /-- The monitor has sent it SIGSTOP. -/
  sent : Bool
  /-- An injector has been executed for it. -/
  injector : Bool
deriving DecidableEq

namespace Tracked

/-- It goes on from its stop with a signal, or with none: a signal that was
reported is then suppressed. -/
def resume (p : Tracked) (signal : Nat) : Tracked :=
  if signal = sigstop then { p with stop := .inForce }
  else if p.stop = .reported then { p with stop := .absent }
  else p

/-- A SIGCONT reported after the SIGSTOP was sent has removed it. -/
def report (p : Tracked) : Status → Tracked
  | .stopped signal event =>
    if signal = sigstop ∧ event = 0 then { p with stop := .reported }
    else if signal = sigcont ∧ event = 0 then { p with stop := .absent }
    else p
  | .exited _ | .signaled _ => { p with alive := false }

def signal (p : Tracked) (signal : Nat) : Tracked :=
  if signal = sigstop then { p with stop := .pending, sent := true }
  else if signal = sigcont then { p with stop := .absent }
  else p

def after (p : Tracked) : (c : MonitorCall) → c.Result → Tracked
  | .kill signal, (ok : Bool) => if ok then p.signal signal else p
  | .cont, (ok : Bool) => if ok then p.resume 0 else p
  | .detach signal, (ok : Bool) => if ok then { p.resume signal with attached := false } else p
  | .waitpid, (status : Option Status) => status.elim p p.report
  | .execl _ _, (ok : Bool) => if ok then { p with injector := true } else p
  | .insertStub, _ => { p with stub := true }
  | .eraseProcess, _ => { p with candidate := false }
  | _, _ => p

/-- No one has stopped it for an injector yet. -/
def Fresh (p : Tracked) : Prop := p.sent = false ∧ p.injector = false

/-- It is stopped, or about to be, and no injector will come for it. -/
def Parked (p : Tracked) : Prop := p.injector = false ∧ p.stop ≠ .absent

instance (p : Tracked) : Decidable p.Parked := inferInstanceAs (Decidable (_ ∧ _))

end Tracked

/-- Every call may answer anything, and the process may die at every call. Nothing
but the monitor sends it SIGSTOP or, unreported, SIGCONT. -/
def monitorKernel : Kernel MonitorCall MonitorCall.Result Tracked :=
  fun c p r p' => p'.alive = false ∨ (p.alive = true ∧ p' = p.after c r)

/-- The answer of a call lets the target be served: its stop is reported as such, or
a SIGCONT that has removed it is; the first child can fork; a SIGCONT is sent. -/
def MonitorEvent.Serves : MonitorEvent → Prop
  | ⟨.waitpid, (status : Option Status)⟩ =>
    status = some (.stopped sigstop 0) ∨ status = some (.stopped sigcont 0)
  | ⟨.forkGrandchild, (ok : Bool)⟩ => ok = true
  | ⟨.kill signal, (ok : Bool)⟩ => signal = sigcont → ok = true
  | _ => True

def Served (tr : List MonitorEvent) : Prop := ∀ e ∈ tr, MonitorEvent.Serves e

namespace HandOffLemmas

open Tracked

/-! ## A target that stays alive -/

/-- The kernel of the runs after which the process is alive. -/
def survived : Kernel MonitorCall MonitorCall.Result Tracked :=
  fun c p r p' => p'.alive = true ∧ p' = p.after c r

variable {tr : List MonitorEvent} {p : Tracked}

theorem runs_survived {α : Type} {m : Monitor α} {q : Tracked} {a : α}
    (h : Runs monitorKernel m p tr a q) (halive : q.alive = true) : Runs survived m p tr a q := by
  refine (h.restrict (P := fun p => p.alive = true) ?_ halive).2
  rintro c p r p' (hdead | ⟨hp, hafter⟩) hp'
  · cases hdead.symm.trans hp'
  · exact ⟨hp, hp', hafter⟩

theorem served_snoc_iff (tr : List MonitorEvent) (e : MonitorEvent) :
    Served (tr ++ [e]) ↔ Served tr ∧ MonitorEvent.Serves e := by
  unfold Served
  rw [List.forall_mem_append, List.forall_mem_singleton]

theorem served_snoc (h : Served tr) (e : MonitorEvent) (he : MonitorEvent.Serves e) : Served (tr ++ [e]) :=
  (served_snoc_iff tr e).mpr ⟨h, he⟩

/-- What is known of a target once its fate is decided: if it was sent SIGSTOP, it
is not left parked exactly when its calls answered so. -/
def Settled (tr : List MonitorEvent) (p : Tracked) : Prop :=
  p.sent = true → (¬ p.Parked ↔ Served tr)

/-- The stop of a process that the handler did not take is not held back at the
monitor, so that detaching from it will not suppress it. -/
def Routable (handled : Bool) (p : Tracked) : Prop :=
  p.sent = true → handled = false → p.stop ≠ .reported

/-- A call that nothing depends on, and that leaves the process parked or not. -/
theorem settled_snoc {q : Tracked} {e : MonitorEvent}
    (h : Settled tr p) (he : MonitorEvent.Serves e) (hsent : q.sent = p.sent)
    (hparked : q.Parked ↔ p.Parked) : Settled (tr ++ [e]) q := by
  intro hq
  rw [served_snoc_iff, and_iff_left he, hparked]
  exact h (hsent.symm.trans hq)

theorem sent_resume (p : Tracked) (signal : Nat) : (p.resume signal).sent = p.sent := by
  unfold resume
  split
  · rfl
  · split <;> rfl

theorem sent_report (p : Tracked) : ∀ status, (p.report status).sent = p.sent
  | .exited _ | .signaled _ => rfl
  | .stopped signal event => by
    simp only [report]
    split
    · rfl
    · split <;> rfl

/-- Only the SIGSTOP of the hand-over marks the process as stopped by the monitor. -/
theorem sent_after (p : Tracked) : ∀ (c : MonitorCall) (r : c.Result), c ≠ .kill sigstop →
    (p.after c r).sent = p.sent
  | .kill signal, (ok : Bool), hc => by
    have hsignal : signal ≠ sigstop := fun h => hc (by rw [h])
    cases ok with
    | false => rfl
    | true =>
      simp only [after, Tracked.signal, if_pos, if_neg hsignal]
      split <;> rfl
  | .cont, (ok : Bool), _ => by cases ok; exacts [rfl, sent_resume p 0]
  | .detach signal, (ok : Bool), _ => by cases ok; exacts [rfl, sent_resume p signal]
  | .waitpid, none, _ => rfl
  | .waitpid, some status, _ => sent_report p status
  | .execl _ _, (ok : Bool), _ => by cases ok <;> rfl
  | .getProgram, _, _ | .getTracingState, _, _ | .prepareAuxInjection, _, _
  | .checkAndPrepareInjection, _, _ | .updateStatus, _, _ | .insertStub, _, _
  | .eraseProcess, _, _ | .setOptions _, _, _ | .fork, _, _ | .forkGrandchild, _, _
  | .waitChild, _, _ => rfl

/-! ## The double fork -/

/-- The target was stopped, and no injector runs yet. -/
structure Halted (p : Tracked) : Prop where
  sent : p.sent = true
  unowned : p.injector = false
  stopped : p.stop ≠ .absent

theorem Halted.settled (hp : Halted p) {e : MonitorEvent}
    (he : e ∈ tr) (hbad : ¬ MonitorEvent.Serves e) : Settled tr p := by
  intro _
  constructor
  · intro hfree
    exact absurd ⟨hp.unowned, hp.stopped⟩ hfree
  · intro hserved
    exact absurd (hserved e he) hbad

theorem settled_of_free (hfree : ¬ p.Parked)
    (hserved : Served tr) : Settled tr p :=
  fun _ => iff_of_true hfree hserved

theorem mem_snoc (tr : List MonitorEvent) (e : MonitorEvent) : e ∈ tr ++ [e] :=
  List.mem_append_right _ List.mem_cons_self

theorem sigcont_settles (hp : Halted p) (hserved : Served tr) :
    wp survived (fun _ => Settled) (do let _ ← ask (.kill sigcont); return ()) tr p := by
  rintro (ok : Bool) _ ⟨_, rfl⟩
  cases ok with
  | true =>
    exact settled_of_free (fun hparked => hparked.2 rfl)
      (served_snoc hserved _ fun _ => rfl)
  | false => exact hp.settled (mem_snoc _ _) fun hsent => Bool.noConfusion (hsent rfl)

variable (tracer : String) (args : List String)

theorem startInjector_settles (hp : Halted p) (hserved : Served tr) :
    wp survived (fun _ => Settled) (startInjector tracer args) tr p := by
  rintro (forked : Bool) _ ⟨_, rfl⟩
  have hfork := served_snoc hserved ⟨.fork, forked⟩ trivial
  cases forked with
  | false => exact sigcont_settles hp hfork
  | true =>
    rintro (again : Bool) _ ⟨_, rfl⟩ _ _ ⟨_, rfl⟩
    cases again with
    | false =>
      -- The monitor takes the child's pid for a success, so no one sends SIGCONT.
      exact hp.settled (List.mem_append_left _ (mem_snoc _ ⟨.forkGrandchild, false⟩)) Bool.noConfusion
    | true =>
      have hchild := served_snoc (served_snoc hfork ⟨.forkGrandchild, true⟩ rfl) ⟨.waitChild, ()⟩ trivial
      rintro (started : Bool) _ ⟨_, rfl⟩
      have hexec := served_snoc hchild ⟨.execl tracer args, started⟩ trivial
      cases started with
      | true => exact settled_of_free (fun hparked => absurd hparked.1 Bool.noConfusion) hexec
      | false => exact sigcont_settles hp hexec

/-! ## The hand-over -/

/-- The calls of a program that sends no SIGSTOP. -/
abbrev Unstopping {α : Type} (m : Monitor α) : Prop := m.Calls (· ≠ .kill sigstop)

theorem startInjector_unstopping : Unstopping (startInjector tracer args) := by
  refine ⟨nofun, fun (forked : Bool) => ?_⟩
  cases forked with
  | false => exact ⟨nofun, fun _ => trivial⟩
  | true =>
    refine ⟨nofun, fun (again : Bool) => ⟨nofun, fun _ => ?_⟩⟩
    cases again with
    | false => trivial
    | true =>
      refine ⟨nofun, fun (started : Bool) => ?_⟩
      cases started with
      | true => trivial
      | false => exact ⟨nofun, fun _ => trivial⟩

/-- A wait that reports anything but the SIGSTOP leaves it to come, unless a SIGCONT
has removed it. -/
theorem unreported_settles (hp : Halted p)
    (hpending : p.stop = .pending) (hserved : Served tr) :
    ∀ waited : Option Status, waited ≠ some (.stopped sigstop 0) →
      (p.after .waitpid waited).alive = true →
      Settled (tr ++ [⟨.waitpid, waited⟩]) (p.after .waitpid waited) ∧
        Routable false (p.after .waitpid waited)
  | none, _, _ => by
    refine ⟨hp.settled (mem_snoc _ _) ?_, fun _ _ => hpending ▸ nofun⟩
    rintro (h | h) <;> cases h
  | some (.exited _), _, halive => Bool.noConfusion halive
  | some (.signaled _), _, halive => Bool.noConfusion halive
  | some (.stopped signal event), hother, _ => by
    have hstop : ¬ (signal = sigstop ∧ event = 0) := by
      rintro ⟨rfl, rfl⟩
      exact hother rfl
    simp only [after, report, Option.elim, if_neg hstop]
    split
    · next hcont =>
      obtain ⟨rfl, rfl⟩ := hcont
      refine ⟨settled_of_free (fun hparked => hparked.2 rfl) ?_, fun _ _ => nofun⟩
      exact served_snoc hserved _ (.inr rfl)
    · next hcont =>
      refine ⟨hp.settled (mem_snoc _ _) ?_, fun _ _ => hpending ▸ nofun⟩
      rintro (h | h)
      · exact hother h
      · cases h
        exact hcont ⟨rfl, rfl⟩

/-- The fate of a process is decided, and what is left to do with it is routing. -/
def Decided (result : Bool × Status) (tr : List MonitorEvent) (p : Tracked) : Prop :=
  Settled tr p ∧ Routable result.1 p

theorem decided_of_unsent (result : Bool × Status) (tr : List MonitorEvent)
    (h : p.sent = false) : Decided result tr p :=
  have hnot : ¬ p.sent = true := ne_true_of_eq_false h
  ⟨fun hsent => absurd hsent hnot, fun hsent => absurd hsent hnot⟩

/-- A program that sends no SIGSTOP decides nothing about a process that was sent none. -/
theorem unstopping_decides {m : Monitor (Bool × Status)} (hm : Unstopping m)
    (hp : p.sent = false) (tr : List MonitorEvent) : wp survived Decided m tr p := by
  refine wp_mono (fun result tr _ h => decided_of_unsent result tr h)
    (wp_invariant (fun q : Tracked => q.sent = false) ?_ hm hp tr)
  rintro c p r q hc hp ⟨_, rfl⟩
  rw [sent_after p c r hc, hp]

/-- The part of the hand-over that follows its SIGSTOP. -/
theorem handover_unstopping (status : Status) :
    Unstopping (passToInjector tracer args status) := by
  unfold passToInjector
  split
  · exact ⟨nofun, fun _ => (startInjector_unstopping tracer args).bind fun _ => trivial⟩
  · trivial

/-- A target whose stop was reported is detached into its stop, and an injector is
started for it. -/
theorem reported_decides (hp : Halted p) (hserved : Served tr) :
    wp survived Decided (passToInjector tracer args (.stopped sigstop 0)) tr p := by
  rintro (ok : Bool) _ ⟨_, rfl⟩
  have hdetach := served_snoc hserved ⟨.detach sigstop, ok⟩ trivial
  have hhalted : Halted (p.after (.detach sigstop) ok) := by
    cases ok with
    | false => exact hp
    | true => exact ⟨hp.sent, hp.unowned, nofun⟩
  refine wp_seq (p := startInjector tracer args) (startInjector_settles tracer args hhalted hdetach) ?_
  intro _ tr q hsettled
  exact ⟨hsettled, fun _ hhandled => Bool.noConfusion hhandled⟩

/-- What the hand-over makes of a target, by what its calls answer. -/
theorem handover_decides {status : Status} (hstatus : status ≠ .stopped sigstop 0) (hp : p.Fresh)
    (hserved : Served tr) : wp survived Decided (targetHandover tracer args status) tr p := by
  rintro (sent : Bool) _ ⟨_, rfl⟩
  have hkill := served_snoc hserved ⟨.kill sigstop, sent⟩ fun h => by cases h
  cases sent with
  | false =>
    refine unstopping_decides ?_ hp.1 _
    exact ⟨nofun, fun _ => ⟨nofun, fun _ => handover_unstopping tracer args _⟩⟩
  | true =>
    rintro (ok : Bool) _ ⟨_, rfl⟩
    have hcont := served_snoc hkill ⟨.cont, ok⟩ trivial
    have hstate : (p.signal sigstop).after .cont ok = p.signal sigstop := by cases ok <;> rfl
    have hhalted : Halted (p.signal sigstop) := ⟨rfl, hp.2, nofun⟩
    rintro (waited : Option Status) _ ⟨halive, rfl⟩
    rw [show (p.after (.kill sigstop) true).after .cont ok = p.signal sigstop from hstate] at halive ⊢
    rcases eq_or_ne waited (some (.stopped sigstop 0)) with rfl | hother
    · exact reported_decides tracer args ⟨rfl, hp.2, nofun⟩ (served_snoc hcont _ (.inl rfl))
    · have hunstopped : stoppedWith (waited.getD status) sigstop 0 = false := by
        cases waited with
        | none => exact beq_false_of_ne hstatus
        | some answer => exact beq_false_of_ne fun h => hother (congrArg some h)
      change wp survived Decided (passToInjector tracer args (waited.getD status)) _ _
      rw [passToInjector, hunstopped]
      exact unreported_settles hhalted rfl hcont waited hother halive

variable (abi : AbiManager) (pid : Nat)

theorem identify_decides {status : Status}
    (hstatus : status ≠ .stopped sigstop 0) (hp : p.Fresh) :
    wp survived Decided (identify abi pid status) [] p := by
  rintro (program : String) _ ⟨_, rfl⟩
  change wp survived Decided (if _ then _ else _) _ _
  split
  · refine unstopping_decides ?_ hp.1 _
    exact ⟨nofun, fun _ => ⟨nofun, fun _ => ⟨nofun, fun _ => trivial⟩⟩⟩
  · rintro (state : TracingState) _ ⟨_, rfl⟩
    have hserved : Served [⟨.getProgram, program⟩, ⟨.getTracingState, state⟩] := by
      simp [Served, MonitorEvent.Serves]
    change wp survived Decided (if _ then _ else _) _ _
    split
    · exact decided_of_unsent _ _ hp.1
    split
    · rintro (_ | tracer) _ ⟨_, rfl⟩
      · exact decided_of_unsent _ _ hp.1
      · exact handover_decides tracer _ hstatus hp (served_snoc hserved _ trivial)
    split
    · rintro (_ | tracer) _ ⟨_, rfl⟩
      · exact decided_of_unsent _ _ hp.1
      · exact handover_decides tracer _ hstatus hp (served_snoc hserved _ trivial)
    · exact decided_of_unsent _ _ hp.1

theorem handleExecEvent_decides {status : Status}
    (hstatus : status ≠ .stopped sigstop 0) (hp : p.Fresh) :
    wp survived Decided (handleExecEvent abi pid status) [] p := by
  refine wp_seq (identify_decides abi pid hstatus hp) ?_
  rintro result tr q hdecided _ _ ⟨_, rfl⟩
  exact ⟨settled_snoc hdecided.1 trivial rfl Iff.rfl, hdecided.2⟩

theorem handleStop_decides (status : Status) (hp : p.Fresh) :
    wp survived Decided (handleStop abi pid status) [] p := by
  unfold handleStop
  split
  · next hexec =>
    refine handleExecEvent_decides abi pid ?_ hp
    rintro rfl
    cases hexec
  split
  · refine unstopping_decides ?_ hp.1 _
    exact ⟨nofun, fun _ => ⟨nofun, fun _ => trivial⟩⟩
  · exact decided_of_unsent _ _ hp.1

/-- Detaching with no signal leaves a stop that is still to come. -/
theorem parked_detach (hstop : p.stop ≠ .reported) (ok : Bool) :
    (p.after (.detach 0) ok).Parked ↔ p.Parked := by
  cases ok with
  | false => rfl
  | true => simp [after, resume, hstop, Parked, sigstop]

/-- Routing does not change what was decided. -/
theorem routeProcess_settles (handled : Bool) (status : Status) (h : Decided (handled, status) tr p) :
    wp survived (fun _ => Settled) (routeProcess handled status) tr p := by
  obtain ⟨hsettled, hroutable⟩ := h
  cases handled with
  | true =>
    rw [routeProcess, if_pos rfl]
    split
    · rintro _ _ ⟨_, rfl⟩
      exact settled_snoc hsettled trivial rfl Iff.rfl
    · exact hsettled
  | false =>
    rintro (erased : Unit) _ ⟨_, rfl⟩
    have herased : Settled (tr ++ [⟨.eraseProcess, erased⟩]) (p.after .eraseProcess erased) :=
      settled_snoc hsettled trivial rfl Iff.rfl
    change wp survived _ (if _ then _ else _) _ _
    split
    · rintro (ok : Bool) _ ⟨_, rfl⟩ hsent
      have hunchanged := sent_after (p.after .eraseProcess erased) (.detach 0) ok nofun
      have hdetach := parked_detach (p := p.after .eraseProcess erased)
        (hroutable (hunchanged.symm.trans hsent) rfl) ok
      exact settled_snoc herased trivial hunchanged hdetach hsent
    · exact herased

theorem handleTracedProcess_settles (status : Status) (hp : p.Fresh) :
    wp survived (fun _ => Settled) (handleTracedProcess abi pid status) [] p := by
  refine wp_seq (handleStop_decides abi pid status hp) ?_
  rintro ⟨handled, status⟩ tr q hdecided
  exact routeProcess_settles handled status hdecided

end HandOffLemmas

open HandOffLemmas

/-- A process that the monitor sent SIGSTOP to and that is alive when it has been
handled is not left parked exactly when its calls let it be served. -/
theorem target_not_parked_iff (abi : AbiManager) (pid : Nat) (status : Status) {p q : Tracked}
    {tr : List MonitorEvent} (hp : p.Fresh)
    (h : Runs monitorKernel (handleTracedProcess abi pid status) p tr () q)
    (hsent : q.sent = true) (halive : q.alive = true) : ¬ q.Parked ↔ Served tr := by
  have hsettled := wp_sound (handleTracedProcess_settles abi pid status hp) (runs_survived h halive)
  exact hsettled hsent

/-! ## Two hand-offs -/

def zygoteAbi : AbiManager := ⟨true, "/system/bin/app_process64"⟩

def executed : Tracked := ⟨true, true, true, false, .absent, false, false⟩

/-- Answers for a process that has executed zygote: the wait for it answers `waited`,
the second fork answers `again`, and every other call succeeds. -/
def zygoteAnswer (waited : Option Status) (again : Bool) : (c : MonitorCall) → c.Result
  | .getProgram => "/system/bin/app_process64"
  | .getTracingState => .tracing
  | .prepareAuxInjection | .checkAndPrepareInjection => some "/bin/zygisk-ptrace64"
  | .updateStatus | .insertStub | .eraseProcess | .waitChild => ()
  | .setOptions _ | .cont | .detach _ | .kill _ | .fork | .execl _ _ => true
  | .waitpid => waited
  | .forkGrandchild => again

def zygoteAnswers (waited : Option Status) (again : Bool) (c : MonitorCall) (p : Tracked) :
    Option (c.Result × Tracked) :=
  if p.alive then some (zygoteAnswer waited again c, p.after c (zygoteAnswer waited again c)) else none

theorem zygoteAnswers_kernel (waited : Option Status) (again : Bool) (c : MonitorCall) (p : Tracked)
    (r : c.Result) (q : Tracked) (h : zygoteAnswers waited again c p = some (r, q)) :
    monitorKernel c p r q := by
  unfold zygoteAnswers at h
  split at h
  · next halive =>
    cases h
    exact .inr ⟨halive, rfl⟩
  · cases h

/-- What the monitor does for zygote, with these answers. -/
def zygoteRun (waited : Option Status) (again : Bool) : Option (List MonitorEvent × Unit × Tracked) :=
  drive (zygoteAnswers waited again)
    (handleTracedProcess zygoteAbi 1234 (.stopped sigtrap ptraceEventExec)) executed

/-- The injector is executed: the target is not left parked. -/
theorem target_not_parked_iff_injector :
    ∃ tr q, Runs monitorKernel
        (handleTracedProcess zygoteAbi 1234 (.stopped sigtrap ptraceEventExec)) executed tr () q ∧
      executed.Fresh ∧ q.sent = true ∧ q.alive = true ∧ Served tr ∧ ¬ q.Parked := by
  have hrun := runs_drive_get (zygoteAnswers_kernel (some (.stopped sigstop 0)) true)
    (show (zygoteRun (some (.stopped sigstop 0)) true).isSome = true from rfl)
  have hfree := target_not_parked_iff zygoteAbi 1234 _ ⟨rfl, rfl⟩ hrun rfl rfl
  exact ⟨_, _, hrun, ⟨rfl, rfl⟩, rfl, rfl, hfree.mp (by decide), by decide⟩

/-- The first child cannot fork: the target stays stopped, and no SIGCONT was sent
to it. So it does when the wait reports a SIGCHLD of the target before the SIGSTOP. -/
theorem target_left_parked :
    executed.Fresh ∧
      (∃ tr q, Runs monitorKernel
          (handleTracedProcess zygoteAbi 1234 (.stopped sigtrap ptraceEventExec)) executed tr () q ∧
        ⟨.forkGrandchild, false⟩ ∈ tr ∧ q.alive = true ∧ q.sent = true ∧ q.stop = .inForce ∧
        q.Parked) ∧
      ∃ tr q, Runs monitorKernel
          (handleTracedProcess zygoteAbi 1234 (.stopped sigtrap ptraceEventExec)) executed tr () q ∧
        ⟨.waitpid, some (.stopped 17 0)⟩ ∈ tr ∧ q.alive = true ∧ q.sent = true ∧
        q.attached = false ∧ q.Parked := by
  have hfork := runs_drive_get (zygoteAnswers_kernel (some (.stopped sigstop 0)) false)
    (show (zygoteRun (some (.stopped sigstop 0)) false).isSome = true from rfl)
  have hwait := runs_drive_get (zygoteAnswers_kernel (some (.stopped 17 0)) true)
    (show (zygoteRun (some (.stopped 17 0)) true).isSome = true from rfl)
  exact ⟨⟨rfl, rfl⟩,
    ⟨_, _, hfork, List.mem_of_getElem? (i := 8) rfl, rfl, rfl, rfl, by decide⟩,
    ⟨_, _, hwait, List.mem_of_getElem? (i := 5) rfl, rfl, rfl, rfl, by decide⟩⟩

end NyaZygisk
