import NyaZygisk.ChildEvents

/-!
# The status of the daemon

The monitor keeps one record of the daemon for all the instances it starts one after the other. The
datagrams that set it do not say which instance has sent them, and one may be read when its sender
has been replaced.
-/

namespace NyaZygisk

open Runs AppMonitor

namespace DaemonStatus

/-- An instance of the daemon that has not exited. -/
structure Instance where
  /-- The last error that it has reported and that was read. -/
  reported : Option (List UInt8)
deriving DecidableEq

/-- One that has. -/
structure Ended extends Instance where
  /-- `parse_status` of its exit. -/
  exit : List UInt8
deriving DecidableEq

/-- What it has failed with: what it has reported, or how it has exited if that is nothing. -/
def Ended.error (e : Ended) : List UInt8 :=
  if e.reported.getD [] = [] then e.exit else e.reported.getD []

/-- The monitor with all instances: those that have exited, in order, and the one that has not. -/
structure Daemons where
  m : AppMonitor
  past : List Ended
  current : Option Instance

inductive Sender
  | current
  | past (index : Nat)
deriving DecidableEq

inductive Input
  /-- A DAEMON_SET_INFO of an instance is read. -/
  | info (sender : Sender) (text : List UInt8)
  /-- A DAEMON_SET_ERROR_INFO of an instance is read. -/
  | error (sender : Sender) (text : List UInt8)
  | event (e : Event)

namespace Daemons

def knows (w : Daemons) : Sender → Bool
  | .current => w.current.isSome
  | .past index => index < w.past.length

def reports (w : Daemons) (text : List UInt8) : Sender → Daemons
  | .current => { w with current := some ⟨some text⟩ }
  | .past index => { w with past := w.past.modify index ({ · with reported := some text }) }

/-- How the daemon has exited, if that is what the event reports. -/
def exits (m : AppMonitor) : Event → Option (List UInt8)
  | .child pid _ env => if !m.isParent pid && m.isDaemon pid then some env.statusText else none
  | .message _ _ _ | .processes _ _ => none

def ends (w : Daemons) (exit : List UInt8) : Daemons :=
  { w with past := w.past ++ (w.current.map (⟨·, exit⟩)).toList, current := none }

/-- The instances after an event: one may have exited, and one may have been started. -/
def happens (w : Daemons) (e : Event) : Daemons :=
  let w' := (exits w.m e).elim w w.ends
  { w' with
    m := w.m.next e
    current := if (w.m.next e).daemons = w.m.daemons then w'.current else some ⟨none⟩ }

/-- The two messages with a text have a sender. -/
def hasSender : Event → Bool
  | .message (.daemonSetInfo _) _ _ | .message (.daemonSetErrorInfo _) _ _ => true
  | _ => false

/-- `parse_status` answers no empty text. -/
def step (w : Daemons) : Input → Option Daemons
  | .info sender text =>
    if w.knows sender then some { w with m := w.m.setDaemonInfo text } else none
  | .error sender text =>
    if w.knows sender then
      some { w.reports (withoutTrailingNuls text) sender with m := w.m.setDaemonCrashed text }
    else none
  | .event e =>
    if hasSender e || exits w.m e = some [] then none else some (w.happens e)

abbrev Steps : Daemons → List (Daemons × Input) → Daemons → Prop :=
  Run fun w i w' => w.step i = some w'

def started (lp64 : Bool) (moduleDir : String) (procs : List Rearm.Proc) (mapped : List Nat) :
    Daemons :=
  ⟨AppMonitor.started lp64 moduleDir procs mapped, [], none⟩

/-! ## Specification -/

/-- An instance has neither exited nor reported an error. -/
def Running (w : Daemons) : Prop := ∃ i ∈ w.current, i.reported = none

/-- The error of the last instance that has failed. -/
def lastError (w : Daemons) : Option (List UInt8) :=
  match w.current with
  | some ⟨some text⟩ => some text
  | some ⟨none⟩ | none => w.past.getLast?.map Ended.error

def shown (m : AppMonitor) : Bool :=
  m.status.supported && !m.status.daemonRunning && m.daemonErrorInfo ≠ []

structure Described (w : Daemons) : Prop where
  running : w.m.status.daemonRunning = true ↔ w.Running
  error : shown w.m = true → w.lastError = some w.m.daemonErrorInfo

/-- An error that is read was reported by the latest instance, or that one has failed and the text
is empty or its own; where the daemon exits, the error on record is the one that it has reported
itself, and none if it has reported none (or happens to be the same as its exit status). -/
def InStep (w : Daemons) : Input → Prop
  | .error .current _ | .info _ _ => True
  | .error (.past index) text =>
    w.current = none ∧ index + 1 = w.past.length ∨
      ¬ w.Running ∧
        (withoutTrailingNuls text = [] ∨ w.lastError = some (withoutTrailingNuls text))
  | .event e =>
    ∀ exit ∈ exits w.m e, ∀ i ∈ w.current,
      w.m.daemonErrorInfo = i.reported.getD [] ∨
        w.m.daemonErrorInfo = [] ∧ i.reported.getD [] = exit ∨
          i.reported.getD [] = [] ∧ w.m.daemonErrorInfo = exit

instance (w : Daemons) : Decidable w.Running := inferInstanceAs (Decidable (∃ i ∈ w.current, _))

instance (w : Daemons) : (i : Input) → Decidable (InStep w i)
  | .error .current _ | .info _ _ => inferInstanceAs (Decidable True)
  | .error (.past _) _ => inferInstanceAs (Decidable (_ ∨ _))
  | .event e => inferInstanceAs (Decidable (∀ exit ∈ exits w.m e, ∀ i ∈ w.current, _))

namespace DaemonStatusLemmas

variable {m s t : AppMonitor} {w : Daemons}

/-! ## What an event does to the record -/

structure Kept (m t : AppMonitor) : Prop where
  running : t.status.daemonRunning = m.status.daemonRunning
  pid : t.status.daemonPid = m.status.daemonPid
  errorInfo : t.daemonErrorInfo = m.daemonErrorInfo
  daemons : t.daemons = m.daemons
  supported : m.status.supported = true → t.status.supported = true

structure Begun (m t : AppMonitor) : Prop where
  vacant : m.status.daemonPid = none
  pid : t.status.daemonPid.isSome = true
  running : t.status.daemonRunning = true
  errorInfo : t.daemonErrorInfo = m.daemonErrorInfo
  daemons : t.daemons = m.daemons + 1
  supported : t.status.supported = true

/-- At most an instance has been started. -/
def Changes (m t : AppMonitor) : Prop := Kept m t ∨ Begun m t

theorem Kept.refl (m : AppMonitor) : Kept m m := ⟨rfl, rfl, rfl, rfl, id⟩

theorem Kept.trans (h : Kept m s) (h' : Kept s t) : Kept m t :=
  ⟨h'.running.trans h.running, h'.pid.trans h.pid, h'.errorInfo.trans h.errorInfo,
    h'.daemons.trans h.daemons, h'.supported ∘ h.supported⟩

theorem Changes.after (h : Changes s t) (hkept : Kept m s) : Changes m t := by
  rcases h with h | h
  · exact Or.inl (hkept.trans h)
  · exact Or.inr ⟨hkept.pid.symm.trans h.vacant, h.pid, h.running, h.errorInfo.trans hkept.errorInfo,
      h.daemons.trans (congrArg (· + 1) hkept.daemons), h.supported⟩

theorem Changes.before (h : Changes m s) (hkept : Kept s t) : Changes m t := by
  rcases h with h | h
  · exact Or.inl (h.trans hkept)
  · exact Or.inr ⟨h.vacant, hkept.pid ▸ h.pid, hkept.running.trans h.running,
      hkept.errorInfo.trans h.errorInfo, hkept.daemons.trans h.daemons, hkept.supported h.supported⟩

theorem kept_requestStart (m : AppMonitor) (seizes : Bool) : Kept m (m.requestStart seizes) := by
  unfold requestStart Rearm.requestStart
  split <;> exact ⟨rfl, rfl, rfl, rfl, id⟩

theorem kept_requestStop (m : AppMonitor) (reason : String) : Kept m (m.requestStop reason) := by
  unfold requestStop Rearm.requestStop
  split <;> exact ⟨rfl, rfl, rfl, rfl, id⟩

theorem changes_ensureDaemonCreated (m : AppMonitor) (daemonFork : Option Nat) :
    Changes m (m.ensureDaemonCreated daemonFork).2 := by
  rw [ensureDaemonCreated_eq]
  cases hpid : m.status.daemonPid with
  | some pid => exact Or.inl (Kept.refl m)
  | none =>
    cases daemonFork with
    | none => exact Or.inl (Kept.refl m)
    | some pid => exact Or.inr ⟨hpid, rfl, rfl, rfl, rfl, rfl⟩

theorem changes_rearm (m : AppMonitor) (renv : Rearm.Env) : Changes m (m.rearm renv).2 := by
  obtain ⟨supported, injected, launched, hsupported, h⟩ :=
    Rearm.RearmLemmas.rearm_frame renv m.toSys
  refine (changes_ensureDaemonCreated m renv.daemonFork).before ⟨?_, ?_, rfl, rfl, ?_⟩
  · exact congrArg (·.status.daemonRunning) h
  · exact congrArg (·.status.daemonPid) h
  · intro hbefore
    refine (congrArg (·.status.supported) h).trans ?_
    rcases hsupported with hsupported | hsupported
    · exact hsupported.trans hbefore
    · exact hsupported

theorem changes_requestRearm (m : AppMonitor) (renv : Rearm.Env) (seizes : Bool) :
    Changes m (m.requestRearm renv seizes) := by
  obtain ⟨s, hs, h⟩ := requestRearm_eq m renv seizes
  have hkept : Kept m s := by
    rcases hs with ⟨_, rfl⟩ | ⟨_, rfl⟩
    · exact Kept.refl s
    · exact kept_requestStart m seizes
  have hrearm := (changes_rearm s renv).after hkept
  rcases h with h | h
  · rw [h]
    exact hrearm
  · rw [h]
    exact hrearm.before (kept_requestStop _ _)

theorem changes_checkAndPrepareInjection (m : AppMonitor) (env : ChildEnv) :
    Changes m (m.checkAndPrepareInjection env).2 := by
  unfold checkAndPrepareInjection isInCrashLoop
  simp only
  split
  · have hkept : Kept m { m with counter := m.counter.started env.now } := ⟨rfl, rfl, rfl, rfl, id⟩
    exact Or.inl (hkept.trans (kept_requestStop _ _))
  · generalize hspawn : ({ m with
        counter := m.counter.started env.now
        status := { m.status with zygoteInjected := false } } : AppMonitor) = spawning
    have hkept : Kept m spawning := hspawn ▸ ⟨rfl, rfl, rfl, rfl, id⟩
    have hensure := (changes_ensureDaemonCreated spawning env.daemonFork).after hkept
    generalize spawning.ensureDaemonCreated env.daemonFork = r at hensure
    obtain ⟨_ | _, t⟩ := r
    · exact hensure.before (kept_requestStop _ _)
    · exact hensure

theorem changes_prepare (m : AppMonitor) (env : ChildEnv) : Changes m (m.prepare env).2 := by
  unfold prepare
  split
  · exact Or.inl (Kept.refl m)
  · split
    · exact changes_ensureDaemonCreated m env.daemonFork
    · split
      · exact changes_checkAndPrepareInjection m env
      · exact Or.inl (Kept.refl m)

/-- The sets of processes are no part of the record. -/
theorem kept_next_core (m : AppMonitor) (env : ChildEnv) (pid : Nat) (status : Status) :
    Kept (m.core env pid status) (m.next (.child pid status env)) := by
  obtain ⟨process, stubs, handedOff, heq⟩ := handleChildEvent_core m env pid status
  rw [next, heq]
  exact ⟨rfl, rfl, rfl, rfl, id⟩

theorem changes_core (m : AppMonitor) (env : ChildEnv) (pid : Nat) (status : Status)
    (hexit : exits m (.child pid status env) = none) : Changes m (m.core env pid status) := by
  unfold core
  split
  · split <;> exact Or.inl ⟨rfl, rfl, rfl, rfl, id⟩
  · next hparent =>
    split
    · next hdaemon =>
      have hparent' : m.isParent pid = false := Bool.eq_false_iff.mpr (isParent_iff.not.mpr hparent)
      simp [exits, hparent', hdaemon] at hexit
    · split
      · exact changes_prepare m env
      · exact Or.inl (Kept.refl m)

end DaemonStatusLemmas

open DaemonStatusLemmas in
/-- An event that is not the exit of the daemon, and no report of its, keeps the record or starts an
instance. -/
theorem daemon_next (m : AppMonitor) (e : Event) (hexit : exits m e = none)
    (hsender : hasSender e = false) : Changes m (m.next e) := by
  cases e with
  | child pid status env =>
    exact (changes_core m env pid status hexit).before (kept_next_core m env pid status)
  | processes => exact Or.inl ⟨rfl, rfl, rfl, rfl, id⟩
  | message message renv seizes =>
    cases message with
    | rearm => exact changes_requestRearm m renv seizes
    | start => exact Or.inl (kept_requestStart m seizes)
    | stop => exact Or.inl (kept_requestStop m _)
    | exit | zygoteInjected | systemServerStarted => exact Or.inl ⟨rfl, rfl, rfl, rfl, id⟩
    | daemonSetInfo | daemonSetErrorInfo => cases hsender

namespace DaemonStatusLemmas

variable {m : AppMonitor} {w : Daemons}

variable {e : Event}

theorem next_of_exits {exit : List UInt8} (h : exits m e = some exit) :
    m.status.daemonPid.isSome = true ∧ (m.next e).status.daemonPid = none ∧
      (m.next e).status.daemonRunning = false ∧ (m.next e).daemons = m.daemons ∧
        (m.next e).status.supported = m.status.supported ∧
          (m.next e).daemonErrorInfo =
            if m.daemonErrorInfo = [] then exit else m.daemonErrorInfo := by
  cases e with
  | message | processes => cases h
  | child pid status env =>
    rw [exits] at h
    split at h
    · next hdaemon =>
      cases h
      simp only [Bool.and_eq_true, Bool.not_eq_true'] at hdaemon
      rw [next, handleChildEvent_daemon env status hdaemon.1 hdaemon.2]
      have hpid := hdaemon.2
      simp only [isDaemon, Bool.and_eq_true, decide_eq_true_eq] at hpid
      exact ⟨by simp [hpid.2], rfl, rfl, rfl, rfl, rfl⟩
    · cases h

/-! ## The instances -/

structure Lawful (w : Daemons) : Prop where
  pid : w.m.status.daemonPid.isSome = w.current.isSome
  supported : w.past ≠ [] ∨ w.current.isSome = true → w.m.status.supported = true
  blank : w.past = [] → w.current = none → w.m.daemonErrorInfo = []

theorem getLast?_modify {α : Type} (l : List α) (index : Nat) (f : α → α) :
    (l.modify index f).getLast? = if index + 1 = l.length then l.getLast?.map f else l.getLast? := by
  rw [List.getLast?_eq_getElem?, List.getLast?_eq_getElem?, List.length_modify, List.getElem?_modify]
  cases l with
  | nil => simp
  | cons a l =>
    simp only [List.length_cons, Nat.add_sub_cancel, Nat.add_right_cancel_iff]
    split <;> simp

/-- An older instance's report says nothing about the last failure, unless it is the last one. -/
theorem lastError_reports {index : Nat} {text : List UInt8} (hrunning : ¬ w.Running) :
    (w.reports text (.past index)).lastError =
      if w.current = none ∧ index + 1 = w.past.length then
        w.past.getLast?.map fun e => if text = [] then e.exit else text
      else w.lastError := by
  unfold Running at hrunning
  unfold lastError reports
  rcases hcurrent : w.current with _ | ⟨_ | reported⟩
  · simp only [true_and, getLast?_modify]
    split
    · rw [Option.map_map]
      rfl
    · rfl
  · simp [hcurrent] at hrunning
  · simp

theorem described_error_iff (hlawful : Lawful w) {index : Nat} (hindex : index < w.past.length)
    (text : List UInt8) :
    Described { w.reports (withoutTrailingNuls text) (.past index) with
      m := w.m.setDaemonCrashed text } ↔ InStep w (.error (.past index) text) := by
  have hsupported : w.m.status.supported = true :=
    hlawful.supported (Or.inl (List.ne_nil_of_length_pos (Nat.zero_lt_of_lt hindex)))
  rw [InStep]
  generalize htext : withoutTrailingNuls text = said
  have hiff : Described { w.reports said (.past index) with m := w.m.setDaemonCrashed text } ↔
      ¬ w.Running ∧ (said ≠ [] → (w.reports said (.past index)).lastError = some said) := by
    subst htext
    constructor
    · rintro ⟨hrunning, herror⟩
      exact ⟨fun h => absurd (hrunning.mpr h) (by simp [setDaemonCrashed]), fun hne => herror (by
        simpa [shown, setDaemonCrashed, hsupported] using hne)⟩
    · rintro ⟨hrunning, herror⟩
      refine ⟨iff_of_false (by simp [setDaemonCrashed]) hrunning, fun hshown => herror ?_⟩
      simpa [shown, setDaemonCrashed, hsupported] using hshown
  rw [hiff]
  by_cases hlatest : w.current = none ∧ index + 1 = w.past.length
  · -- the last instance to fail is the sender
    have hrunning : ¬ w.Running := by simp [Running, hlatest.1]
    refine iff_of_true ⟨hrunning, fun hne => ?_⟩ (Or.inl hlatest)
    rw [lastError_reports hrunning, if_pos hlatest]
    simp only [hne, if_false]
    cases hlast : w.past.getLast? with
    | none =>
      rw [List.getLast?_eq_none_iff] at hlast
      simp [hlast] at hindex
    | some e => rfl
  · rw [or_iff_right hlatest]
    refine and_congr_right fun hrunning => ?_
    rw [lastError_reports hrunning, if_neg hlatest, ← or_iff_not_imp_left]

/-- The instance that has not exited does. -/
theorem happens_of_exits (hlawful : Lawful w) {exit : List UInt8}
    (hexit : exits w.m e = some exit) :
    ∃ i, w.current = some i ∧ w.happens e = ⟨w.m.next e, w.past ++ [⟨i, exit⟩], none⟩ := by
  obtain ⟨hpid, _, _, hdaemons, _⟩ := next_of_exits hexit
  rw [hlawful.pid] at hpid
  obtain ⟨i, hcurrent⟩ := Option.isSome_iff_exists.mp hpid
  exact ⟨i, hcurrent, by simp [happens, hexit, ends, hdaemons, hcurrent]⟩

theorem happens_of_kept (hexit : exits w.m e = none) (hkept : Kept w.m (w.m.next e)) :
    w.happens e = { w with m := w.m.next e } := by
  simp [happens, hexit, hkept.daemons]

theorem happens_of_begun (hexit : exits w.m e = none) (hbegun : Begun w.m (w.m.next e)) :
    w.happens e = ⟨w.m.next e, w.past, some ⟨none⟩⟩ := by
  simp [happens, hexit, hbegun.daemons]

theorem described_exit_iff (hlawful : Lawful w) {exit : List UInt8}
    (hexit : exits w.m e = some exit) (hne : exit ≠ []) :
    Described (w.happens e) ↔ InStep w (.event e) := by
  obtain ⟨_, _, hrunning, _, hsupported, herror⟩ := next_of_exits hexit
  obtain ⟨i, hcurrent, hw⟩ := happens_of_exits hlawful hexit
  have hshown : shown (w.m.next e) = true := by
    simp only [shown, hsupported, hlawful.supported (Or.inr (by simp [hcurrent])), hrunning, herror]
    split
    · simp [hne]
    · next hinfo => simp [hinfo]
  have hiff : Described (w.happens e) ↔ Ended.error ⟨i, exit⟩ = (w.m.next e).daemonErrorInfo := by
    rw [hw]
    constructor
    · intro h
      have hlast := h.error hshown
      simpa [lastError] using hlast
    · intro h
      exact ⟨by simp [hrunning, Running], fun _ => by simp [lastError, h]⟩
  rw [hiff, InStep, hexit, hcurrent, herror, Ended.error]
  simp only [Option.mem_some_iff, forall_eq']
  generalize i.reported.getD [] = own
  generalize w.m.daemonErrorInfo = recorded
  split
  · next hown =>
    rw [hown]
    split
    · next hrecorded => simp [hrecorded]
    · next hrecorded => simp [hrecorded, eq_comm]
  · next hown =>
    split
    · next hrecorded =>
      rw [hrecorded]
      simp [hown, Ne.symm hown]
    · next hrecorded => simp [hrecorded, hown, eq_comm]

/-- An event that is neither an exit of the daemon nor a report of its leaves the record right. -/
theorem described_event (hlawful : Lawful w) (h : w.Described)
    (hexit : exits w.m e = none) (hsender : hasSender e = false) :
    Described (w.happens e) := by
  rcases daemon_next w.m e hexit hsender with hkept | hbegun
  · rw [happens_of_kept hexit hkept]
    refine ⟨?_, fun hshown => ?_⟩
    · rw [hkept.running]
      exact h.running
    · simp only [shown, hkept.running, hkept.errorInfo, Bool.and_eq_true, Bool.not_eq_true',
        decide_eq_true_eq] at hshown
      rw [hkept.errorInfo]
      refine h.error ?_
      -- there is an error on record, so an instance has been started
      have hsupported : w.m.status.supported = true := by
        refine hlawful.supported ?_
        rcases hcurrent : w.current with _ | i
        · exact Or.inl fun hpast => hshown.2 (hlawful.blank hpast hcurrent)
        · exact Or.inr rfl
      simp [shown, hsupported, hshown]
  · rw [happens_of_begun hexit hbegun]
    exact ⟨by simp [hbegun.running, Running], fun hshown => by simp [shown, hbegun.running] at hshown⟩

inductive Stepped (w : Daemons) : Input → Daemons → Prop
  | info (sender : Sender) (text : List UInt8) :
    Stepped w (.info sender text) { w with m := w.m.setDaemonInfo text }
  | current (text : List UInt8) (hcurrent : w.current.isSome = true) :
    Stepped w (.error .current text)
      { w.reports (withoutTrailingNuls text) .current with m := w.m.setDaemonCrashed text }
  | past (text : List UInt8) {index : Nat} (hindex : index < w.past.length) :
    Stepped w (.error (.past index) text)
      { w.reports (withoutTrailingNuls text) (.past index) with m := w.m.setDaemonCrashed text }
  | exited {e : Event} {exit : List UInt8} (hexit : exits w.m e = some exit) (hne : exit ≠ []) :
    Stepped w (.event e) (w.happens e)
  | quiet {e : Event} (hexit : exits w.m e = none) (hsender : hasSender e = false) :
    Stepped w (.event e) (w.happens e)

theorem stepped_of_step {i : Input} {w' : Daemons} (hstep : w.step i = some w') :
    Stepped w i w' := by
  cases i with
  | info sender text =>
    obtain ⟨_, hw'⟩ := Option.ite_none_right_eq_some.mp hstep
    cases hw'
    exact .info sender text
  | error sender text =>
    obtain ⟨hknown, hw'⟩ := Option.ite_none_right_eq_some.mp hstep
    cases hw'
    cases sender with
    | current => exact .current text hknown
    | past index => exact .past text (by simpa [knows] using hknown)
  | event e =>
    obtain ⟨hok, hw'⟩ := Option.ite_none_left_eq_some.mp hstep
    cases hw'
    simp only [Bool.or_eq_true, decide_eq_true_eq, not_or, Bool.not_eq_true] at hok
    cases hexit : exits w.m e with
    | none => exact .quiet hexit hok.1
    | some exit => exact .exited hexit fun hnil => hok.2 (hexit.trans (congrArg some hnil))

theorem described_step_iff (hlawful : Lawful w) (h : w.Described) {i : Input} {w' : Daemons}
    (hstep : w.step i = some w') : w'.Described ↔ InStep w i := by
  cases stepped_of_step hstep with
  | info sender text => exact iff_of_true ⟨h.running, h.error⟩ trivial
  | current text _ =>
    refine iff_of_true ⟨?_, fun _ => rfl⟩ trivial
    simp [setDaemonCrashed, Running, reports]
  | past text hindex => exact described_error_iff hlawful hindex text
  | exited hexit hne => exact described_exit_iff hlawful hexit hne
  | quiet hexit hsender =>
    refine iff_of_true (described_event hlawful h hexit hsender) ?_
    simp [InStep, hexit]

theorem lawful_step (hlawful : Lawful w) {i : Input} {w' : Daemons} (hstep : w.step i = some w') :
    Lawful w' := by
  cases stepped_of_step hstep with
  | info sender text => exact ⟨hlawful.pid, hlawful.supported, hlawful.blank⟩
  | current text hcurrent =>
    refine ⟨?_, fun _ => hlawful.supported (Or.inr hcurrent), fun _ hnone => by cases hnone⟩
    exact hlawful.pid.trans hcurrent
  | past text hindex =>
    have hpast : w.past ≠ [] := List.ne_nil_of_length_pos (Nat.zero_lt_of_lt hindex)
    refine ⟨hlawful.pid, fun _ => hlawful.supported (Or.inl hpast), fun hnil _ => ?_⟩
    exact absurd (by simpa [reports, List.modify_eq_nil_iff] using hnil) hpast
  | exited hexit _ =>
    obtain ⟨_, hgone, _, _, hsupported, _⟩ := next_of_exits hexit
    obtain ⟨i, hcurrent, hw⟩ := happens_of_exits hlawful hexit
    have hbefore := hlawful.supported (Or.inr (by simp [hcurrent]))
    rw [hw]
    exact ⟨by simp [hgone], fun _ => hsupported.trans hbefore, fun hnil _ => by simp at hnil⟩
  | quiet hexit hsender =>
    rcases daemon_next w.m _ hexit hsender with hkept | hbegun
    · rw [happens_of_kept hexit hkept]
      exact ⟨hkept.pid ▸ hlawful.pid, fun hsome => hkept.supported (hlawful.supported hsome),
        fun hnil hnone => hkept.errorInfo.trans (hlawful.blank hnil hnone)⟩
    · rw [happens_of_begun hexit hbegun]
      exact ⟨hbegun.pid, fun _ => hbegun.supported, fun _ hnone => by cases hnone⟩

end DaemonStatusLemmas

open DaemonStatusLemmas in
/-- After a start, `daemon_running` is true exactly while an instance has neither exited nor reported
an error, and an error that is shown is that of the last instance that has failed, as long as the
reports and exits are in step. -/
theorem daemon_described_iff {lp64 : Bool} {moduleDir : String} {procs : List Rearm.Proc}
    {mapped : List Nat} {w : Daemons} {tr : List (Daemons × Input)}
    (hrun : Steps (started lp64 moduleDir procs mapped) tr w) :
    (∀ p ∈ tr, InStep p.1 p.2) ↔ ∀ u ∈ visited tr w, u.Described := by
  refine hrun.forall_ok_iff Lawful Described InStep ?_ ?_ ?_ ?_
  · exact fun _ _ _ hlawful hstep => lawful_step hlawful hstep
  · exact fun _ _ _ hlawful h hstep => described_step_iff hlawful h hstep
  · exact ⟨rfl, fun h => by simp [started] at h, fun _ _ => rfl⟩
  · exact ⟨by simp [started, AppMonitor.started, Running], fun h => by
      simp [started, AppMonitor.started, shown] at h⟩

open DaemonStatusLemmas in
/-- At any time a pid is on record exactly if there is an instance, and as long as there is one, no
event but its exit starts another or takes it from the record. -/
theorem one_daemon (lp64 : Bool) (moduleDir : String) (procs : List Rearm.Proc) (mapped : List Nat) :
    Always (fun w i w' => w.step i = some w') (started lp64 moduleDir procs mapped) fun w =>
      w.m.status.daemonPid.isSome = w.current.isSome ∧
        ∀ e, hasSender e = false → exits w.m e = none → w.current.isSome = true →
          (w.happens e).current = w.current ∧ (w.m.next e).status.daemonPid = w.m.status.daemonPid := by
  refine .of_invariant Lawful ⟨rfl, fun h => by simp [started] at h, fun _ _ => rfl⟩
    (fun _ _ _ hw => lawful_step hw) fun w hw => ⟨hw.pid, fun e hsender hexit hcurrent => ?_⟩
  rcases daemon_next w.m e hexit hsender with hkept | hbegun
  · rw [happens_of_kept hexit hkept]
    exact ⟨rfl, hkept.pid⟩
  · have hpid := hw.pid.trans hcurrent
    rw [hbegun.vacant] at hpid
    cases hpid

def fresh : Daemons := started true "/data/adb/modules/zygisk" [] []

def starts (pid : Nat) : Input := .event (.message .rearm ⟨some pid, fun _ => true⟩ true)

def exited (pid : Nat) : Input :=
  .event (.child pid (.signaled 9) { obliging with statusText := "0x9 signaled with KILL(9)".toUTF8.toList })

/-- An instance reports an error and exits, and another one is started. -/
def restart : List Input := [starts 77, .error .current [98, 97, 100, 0], exited 77, starts 78]

theorem daemon_described_restart :
    ∃ tr w, Steps fresh tr w ∧ (∀ u ∈ visited tr w, u.Described) ∧
      w.m.daemonErrorInfo = [98, 97, 100] ∧ w.m.status.daemonPid = some 78 := by
  obtain ⟨hrun, _⟩ := run_exec_get (show (exec step fresh restart).isSome = true by decide +kernel)
  exact ⟨_, _, hrun, (daemon_described_iff hrun).mp (by decide +kernel), by decide +kernel,
    by decide +kernel⟩

/-- The report of an instance is read after it was replaced: the daemon that runs is said to have
crashed. -/
theorem late_report :
    ∃ tr w, Steps fresh tr w ∧ w.Running ∧ w.m.status.daemonRunning = false ∧ ¬ w.Described := by
  obtain ⟨hrun, _⟩ := run_exec_get
    (show (exec step fresh [starts 77, exited 77, starts 78, .error (.past 0) [98]]).isSome = true by
      decide +kernel)
  refine ⟨_, _, hrun, by decide +kernel, by decide +kernel, fun h => ?_⟩
  exact absurd (h.running.mpr (by decide +kernel)) (by decide +kernel)

end Daemons

end DaemonStatus

end NyaZygisk
