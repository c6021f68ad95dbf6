import NyaZygisk.HandOff
import NyaZygisk.Lib.Runs

/-!
# Rearming a running system

`ZygoteAbiManager::rearm` of `zygote_abi.cpp` looks for the zygotes that run without the library
and starts an injector for each of them, and for system_server. All that it knows of earlier
requests is which zygotes have the library by now.
-/

namespace NyaZygisk.Rearm

open List Runs

/-- What `/proc` shows of a process. -/
structure Proc where
  pid : Nat
  exe : List Char
  /-- `get_ppid`, which is -1 if the parent could not be read. -/
  ppid : Int
  comm : List Char
  cmdline : List Char
deriving DecidableEq

def readCmdline (cmdline : List Char) : List (List Char) :=
  (cmdline.splitOn '\x00').filter (· ≠ [])

def isZygoteCmdline : List (List Char) → Bool
  | [] => false
  | name :: args =>
    "zygote".toList.isPrefixOf (name.reverse.takeWhile (· ≠ '/')).reverse ||
      (name :: args).contains "--zygote".toList

/-- The `mode_flag` of an injector. -/
inductive Mode
  | standalone | systemServer
deriving DecidableEq

structure Injector where
  pid : Nat
  mode : Mode
deriving DecidableEq

structure Status where
  supported : Bool
  zygoteInjected : Bool
  daemonRunning : Bool
  daemonPid : Option Nat
deriving DecidableEq

/-- The monitor and the processes it looks at. -/
structure Sys where
  programPath : List Char
  procs : List Proc
  /-- The processes that have `libzygisk.so` mapped. -/
  mapped : List Nat
  status : Status
  tracingState : TracingState
  launched : List Injector
deriving DecidableEq

/-- What the kernel answers during a request. -/
structure Env where
  /-- The daemon, if one is needed and can be started. -/
  daemonFork : Option Nat
  /-- The injector for a process can be started. -/
  forks : Nat → Bool

def ensureDaemonCreated (env : Env) (s : Sys) : Bool × Sys :=
  match s.status.daemonPid with
  | none =>
    match env.daemonFork with
    | none => (false, s)
    | some pid =>
      (true, { s with status :=
        { s.status with supported := true, daemonPid := some pid, daemonRunning := true } })
  | some _ => (s.status.daemonRunning, s)

def attachRunning (env : Env) (pid : Nat) (mode : Mode) (s : Sys) : Sys :=
  if env.forks pid then { s with launched := s.launched ++ [⟨pid, mode⟩] } else s

def Sys.found (s : Sys) : List Proc := s.procs.filter (·.exe = s.programPath)

def Proc.isZygote (p : Proc) : Bool := p.ppid = 1 && isZygoteCmdline (readCmdline p.cmdline)

def Proc.isSystemServer (p : Proc) : Bool := p.ppid ≠ 1 && p.comm = "system_server".toList

def Sys.zygotePids (s : Sys) : List Nat := (s.found.filter Proc.isZygote).map Proc.pid

/-- The last one found counts. -/
def Sys.systemServerPid (s : Sys) : Option Nat :=
  (s.found.filter Proc.isSystemServer).getLast?.map Proc.pid

/-- One zygote of the loop in `rearm`, with `any_zygote_was_bare`. -/
def rearmZygote (env : Env) (acc : Bool × Sys) (pid : Nat) : Bool × Sys :=
  if pid ∈ acc.2.mapped then
    (acc.1, { acc.2 with status := { acc.2.status with zygoteInjected := true } })
  else (true, attachRunning env pid .standalone acc.2)

/-- The end of `rearm`, from the loop on. -/
def attachAll (env : Env) (s : Sys) : Sys :=
  let (anyZygoteWasBare, s) := s.zygotePids.foldl (rearmZygote env) (false, s)
  match s.systemServerPid with
  | none => s
  | some pid => if !anyZygoteWasBare then s else attachRunning env pid .systemServer s

/-- `ZygoteAbiManager::rearm`. Each zygote is looked at once, so a library that appears in it during
the call counts as mapped before the call, or after it. -/
def rearm (env : Env) (s : Sys) : Bool × Sys :=
  let (running, s) := ensureDaemonCreated env s
  if !running then (false, s)
  else if s.zygotePids = [] then (true, s)
  else (true, attachAll env { s with status := { s.status with supported := true } })

def requestStart (s : Sys) : Sys :=
  match s.tracingState with
  | .stopping | .stopped => { s with tracingState := .tracing }
  | .tracing | .exiting => s

def requestStop (s : Sys) : Sys :=
  match s.tracingState with
  | .tracing => { s with tracingState := .stopping }
  | .stopping | .stopped | .exiting => s

/-- `AppMonitor::request_rearm`. -/
def requestRearm (env : Env) (s : Sys) : Sys :=
  let s := if s.tracingState ≠ .tracing then requestStart s else s
  match rearm env s with
  | (true, s) => s
  | (false, s) => requestStop s

inductive Event
  | rearm (env : Env)
  /-- An injector maps the library into its target. -/
  | maps (pid : Nat)

def Sys.step (s : Sys) : Event → Option Sys
  | .rearm env => some (requestRearm env s)
  | .maps pid =>
    if pid ∈ s.launched.map Injector.pid then some { s with mapped := pid :: s.mapped } else none

abbrev Steps : Sys → List (Sys × Event) → Sys → Prop := Run fun s e t => s.step e = some t

/-! ## Specification -/

def Sys.launches (s : Sys) (pid : Nat) : Nat := (s.launched.map Injector.pid).count pid

def Sys.serverLaunches (s : Sys) : Nat := (s.launched.map Injector.mode).count .systemServer

/-- At most one injector for each zygote and none for those that had the library at the start; at
most one for system_server, and none if a zygote had the library at the start. -/
def InjectsOnce (start s : Sys) : Prop :=
  (∀ z ∈ start.zygotePids, s.launches z ≤ 1 ∧ (z ∈ start.mapped → s.launches z = 0)) ∧
    s.serverLaunches ≤ 1 ∧
    (s.serverLaunches ≠ 0 → ∀ z ∈ start.zygotePids, z ∉ start.mapped)

/-- `ensure_daemon_created` succeeds. -/
def daemonReady (env : Env) (s : Sys) : Bool :=
  match s.status.daemonPid with
  | none => env.daemonFork.isSome
  | some _ => s.status.daemonRunning

def Attaches (env : Env) (s : Sys) (z : Nat) : Prop :=
  daemonReady env s = true ∧ z ∉ s.mapped ∧ env.forks z = true

def AttachesServer (env : Env) (s : Sys) : Prop :=
  daemonReady env s = true ∧ (∃ z ∈ s.zygotePids, z ∉ s.mapped) ∧
    ∃ pid ∈ s.systemServerPid, env.forks pid = true

instance (env : Env) (s : Sys) (z : Nat) : Decidable (Attaches env s z) :=
  inferInstanceAs (Decidable (_ ∧ _))

instance (env : Env) (s : Sys) : Decidable (AttachesServer env s) :=
  inferInstanceAs (Decidable (_ ∧ _))

/-- No zygote without the library has an injector under way, and where system_server would get one,
it had none before and the zygotes with the library have it from an injector. -/
def Safe (s : Sys) : Event → Prop
  | .rearm env =>
    (∀ z ∈ s.zygotePids, Attaches env s z → s.launches z = 0) ∧
      (AttachesServer env s →
        s.serverLaunches = 0 ∧ ∀ z ∈ s.zygotePids, z ∈ s.mapped → s.launches z ≠ 0)
  | .maps _ => True

instance (s : Sys) : (e : Event) → Decidable (Safe s e)
  | .rearm _ => inferInstanceAs (Decidable (_ ∧ _))
  | .maps _ => inferInstanceAs (Decidable True)

namespace RearmLemmas

variable {env : Env} {s t : Sys}

structure Same (s t : Sys) : Prop where
  programPath : t.programPath = s.programPath
  procs : t.procs = s.procs
  mapped : t.mapped = s.mapped

theorem Same.refl (s : Sys) : Same s s := ⟨rfl, rfl, rfl⟩

theorem Same.trans {u : Sys} (h : Same s t) (h' : Same t u) : Same s u :=
  ⟨h'.programPath.trans h.programPath, h'.procs.trans h.procs, h'.mapped.trans h.mapped⟩

theorem Same.found (h : Same s t) : t.found = s.found := by
  rw [Sys.found, Sys.found, h.programPath, h.procs]

theorem Same.zygotePids (h : Same s t) : t.zygotePids = s.zygotePids := by
  rw [Sys.zygotePids, Sys.zygotePids, h.found]

theorem Same.systemServerPid (h : Same s t) : t.systemServerPid = s.systemServerPid := by
  rw [Sys.systemServerPid, Sys.systemServerPid, h.found]

/-! ## One request -/

/-- The injectors that the loop over these zygotes starts. -/
def standalone (env : Env) (mapped pids : List Nat) : List Injector :=
  (pids.filter fun z => decide (z ∉ mapped) && env.forks z).map (⟨·, .standalone⟩)

def forServer (env : Env) (s : Sys) : List Injector :=
  if s.zygotePids.any (decide <| · ∉ s.mapped) then
    ((s.systemServerPid.filter env.forks).map (⟨·, .systemServer⟩)).toList
  else []

def startedBy (env : Env) (s : Sys) : List Injector :=
  if daemonReady env s then standalone env s.mapped s.zygotePids ++ forServer env s else []

theorem Same.forServer (h : Same s t) : forServer env t = forServer env s := by
  rw [RearmLemmas.forServer, RearmLemmas.forServer, h.zygotePids, h.systemServerPid, h.mapped]

theorem same_attachRunning (pid : Nat) (mode : Mode) : Same s (attachRunning env pid mode s) := by
  unfold attachRunning
  split <;> exact ⟨rfl, rfl, rfl⟩

theorem launched_attachRunning (pid : Nat) (mode : Mode) :
    (attachRunning env pid mode s).launched =
      s.launched ++ if env.forks pid then [⟨pid, mode⟩] else [] := by
  unfold attachRunning
  split <;> simp

theorem foldl_rearmZygote (env : Env) (pids : List Nat) (bare : Bool) (s : Sys) :
    Same s (pids.foldl (rearmZygote env) (bare, s)).2 ∧
      (pids.foldl (rearmZygote env) (bare, s)).2.launched =
        s.launched ++ standalone env s.mapped pids ∧
      (pids.foldl (rearmZygote env) (bare, s)).1 = (bare || pids.any (decide <| · ∉ s.mapped)) := by
  induction pids generalizing bare s with
  | nil => exact ⟨.refl s, by simp [standalone], by simp⟩
  | cons pid pids ih =>
    rw [foldl_cons, rearmZygote]
    split
    · next hmapped =>
      obtain ⟨hsame, hlaunched, hbare⟩ :=
        ih bare { s with status := { s.status with zygoteInjected := true } }
      refine ⟨⟨hsame.programPath, hsame.procs, hsame.mapped⟩, ?_, ?_⟩
      · rw [hlaunched]
        simp [standalone, hmapped]
      · rw [hbare]
        simp [hmapped]
    · next hbare =>
      have hattach : Same s (attachRunning env pid .standalone s) := same_attachRunning pid .standalone
      obtain ⟨hsame, hlaunched, hany⟩ := ih true (attachRunning env pid .standalone s)
      refine ⟨hattach.trans hsame, ?_, ?_⟩
      · rw [hlaunched, launched_attachRunning, hattach.mapped, append_assoc]
        cases hforks : env.forks pid <;> simp [standalone, hbare, hforks]
      · rw [hany]
        simp [hbare]

theorem ensureDaemonCreated_spec (env : Env) (s : Sys) :
    (ensureDaemonCreated env s).1 = daemonReady env s ∧ Same s (ensureDaemonCreated env s).2 ∧
      (ensureDaemonCreated env s).2.launched = s.launched := by
  unfold ensureDaemonCreated daemonReady
  split
  · split
    · next hfork => exact ⟨by rw [hfork]; rfl, .refl s, rfl⟩
    · next hfork => exact ⟨by rw [hfork]; rfl, ⟨rfl, rfl, rfl⟩, rfl⟩
  · exact ⟨rfl, .refl s, rfl⟩

theorem attachAll_spec (env : Env) (s : Sys) :
    Same s (attachAll env s) ∧
      (attachAll env s).launched =
        s.launched ++ (standalone env s.mapped s.zygotePids ++ forServer env s) := by
  obtain ⟨hsame, hlaunched, hbare⟩ := foldl_rearmZygote env s.zygotePids false s
  rw [Bool.false_or] at hbare
  unfold attachAll forServer
  generalize s.zygotePids.foldl (rearmZygote env) (false, s) = r at hsame hlaunched hbare
  obtain ⟨bare, t⟩ := r
  simp only at hsame hlaunched hbare
  simp only [hsame.systemServerPid, ← hbare, ← append_assoc, ← hlaunched]
  cases s.systemServerPid with
  | none => exact ⟨hsame, by simp⟩
  | some pid =>
    cases bare with
    | false => exact ⟨hsame, by simp⟩
    | true =>
      refine ⟨hsame.trans (same_attachRunning pid .systemServer), ?_⟩
      simp only [Bool.not_true, Bool.false_eq_true, if_false, if_true, launched_attachRunning]
      cases hforks : env.forks pid <;> simp [Option.filter, hforks]

theorem startedBy_nil (h : s.zygotePids = []) : startedBy env s = [] := by
  simp [startedBy, standalone, forServer, h]

theorem rearm_spec (env : Env) (s : Sys) :
    Same s (rearm env s).2 ∧ (rearm env s).2.launched = s.launched ++ startedBy env s := by
  obtain ⟨hready, hsame, hlaunched⟩ := ensureDaemonCreated_spec env s
  unfold rearm
  generalize ensureDaemonCreated env s = r at hready hsame hlaunched
  obtain ⟨running, t⟩ := r
  simp only at hready hsame hlaunched ⊢
  subst hready
  split
  · next hdown =>
    rw [Bool.not_eq_true'] at hdown
    exact ⟨hsame, by simp [startedBy, hdown, hlaunched]⟩
  · next hup =>
    rw [Bool.not_eq_true', Bool.not_eq_false] at hup
    split
    · next hnone =>
      rw [hsame.zygotePids] at hnone
      exact ⟨hsame, by rw [hlaunched, startedBy_nil hnone, append_nil]⟩
    · obtain ⟨hattach, hstarted⟩ :=
        attachAll_spec env { t with status := { t.status with supported := true } }
      refine ⟨hsame.trans ⟨hattach.programPath, hattach.procs, hattach.mapped⟩, ?_⟩
      have hsupported : Same s { t with status := { t.status with supported := true } } :=
        ⟨hsame.programPath, hsame.procs, hsame.mapped⟩
      rw [hstarted, startedBy, if_pos hup, hsupported.zygotePids, hsupported.forServer,
        hsupported.mapped]
      exact congrArg (· ++ _) hlaunched

/-- Besides what the loop over the zygotes starts, it changes nothing but `zygote_injected`. -/
theorem foldl_rearmZygote_frame (env : Env) (pids : List Nat) (bare : Bool) (s : Sys) :
    ∃ injected launched, (pids.foldl (rearmZygote env) (bare, s)).2 =
      { s with status := { s.status with zygoteInjected := injected }, launched := launched } := by
  induction pids generalizing bare s with
  | nil => exact ⟨_, _, rfl⟩
  | cons pid pids ih =>
    rw [foldl_cons, rearmZygote]
    split
    · exact ih bare _
    · obtain ⟨injected, launched, h⟩ := ih true (attachRunning env pid .standalone s)
      rw [h, attachRunning]
      split <;> exact ⟨_, _, rfl⟩

theorem attachAll_frame (env : Env) (s : Sys) :
    ∃ injected launched, attachAll env s =
      { s with status := { s.status with zygoteInjected := injected }, launched := launched } := by
  obtain ⟨injected, launched, h⟩ := foldl_rearmZygote_frame env s.zygotePids false s
  unfold attachAll
  generalize s.zygotePids.foldl (rearmZygote env) (false, s) = r at h
  obtain ⟨bare, t⟩ := r
  simp only at h
  subst h
  simp only
  split
  · exact ⟨_, _, rfl⟩
  · split
    · exact ⟨_, _, rfl⟩
    · rw [attachRunning]
      split <;> exact ⟨_, _, rfl⟩

/-- Of the daemon, a rearm changes only what `ensure_daemon_created` does. -/
theorem rearm_frame (env : Env) (s : Sys) :
    ∃ supported injected launched,
      (supported = (ensureDaemonCreated env s).2.status.supported ∨ supported = true) ∧
        (rearm env s).2 =
          { (ensureDaemonCreated env s).2 with
            status := { (ensureDaemonCreated env s).2.status with
              supported := supported, zygoteInjected := injected }
            launched := launched } := by
  unfold rearm
  generalize ensureDaemonCreated env s = r
  obtain ⟨running, t⟩ := r
  simp only
  split
  · exact ⟨_, _, _, Or.inl rfl, rfl⟩
  · split
    · exact ⟨_, _, _, Or.inl rfl, rfl⟩
    · obtain ⟨injected, launched, h⟩ :=
        attachAll_frame env { t with status := { t.status with supported := true } }
      exact ⟨true, injected, launched, Or.inr rfl, h⟩

theorem requestStart_eq (s : Sys) : ∃ state, requestStart s = { s with tracingState := state } := by
  unfold requestStart
  split <;> exact ⟨_, rfl⟩

theorem requestStop_eq (s : Sys) : ∃ state, requestStop s = { s with tracingState := state } := by
  unfold requestStop
  split <;> exact ⟨_, rfl⟩

theorem requestRearm_spec (env : Env) (s : Sys) :
    Same s (requestRearm env s) ∧ (requestRearm env s).launched = s.launched ++ startedBy env s := by
  obtain ⟨state, hstate⟩ : ∃ state,
      (if s.tracingState ≠ .tracing then requestStart s else s) = { s with tracingState := state } := by
    split
    · exact requestStart_eq s
    · exact ⟨_, rfl⟩
  obtain ⟨hsame, hlaunched⟩ := rearm_spec env { s with tracingState := state }
  unfold requestRearm
  simp only [hstate]
  generalize rearm env { s with tracingState := state } = r at hsame hlaunched
  obtain ⟨done, t⟩ := r
  cases done with
  | true => exact ⟨⟨hsame.programPath, hsame.procs, hsame.mapped⟩, hlaunched⟩
  | false =>
    obtain ⟨state', hstate'⟩ := requestStop_eq t
    simp only [hstate']
    exact ⟨⟨hsame.programPath, hsame.procs, hsame.mapped⟩, hlaunched⟩

/-! ## What is started once -/

theorem systemServerPid_ne (hpids : (s.procs.map Proc.pid).Nodup) {z pid : Nat}
    (hz : z ∈ s.zygotePids) (hpid : s.systemServerPid = some pid) : pid ≠ z := by
  obtain ⟨p, hp, rfl⟩ := mem_map.mp hz
  obtain ⟨q, hq, rfl⟩ := Option.map_eq_some_iff.mp hpid
  obtain ⟨hpfound, hpzygote⟩ := mem_filter.mp hp
  obtain ⟨hqfound, hqserver⟩ := mem_filter.mp (mem_of_getLast? hq)
  intro hsame
  have hqp : q = p := inj_on_of_nodup_map hpids (mem_filter.mp hqfound).1
    (mem_filter.mp hpfound).1 hsame
  rw [hqp, Proc.isSystemServer, Bool.and_eq_true, decide_eq_true_eq] at hqserver
  rw [Proc.isZygote, Bool.and_eq_true, decide_eq_true_eq] at hpzygote
  exact hqserver.1 hpzygote.1

theorem nodup_zygotePids (hpids : (s.procs.map Proc.pid).Nodup) : s.zygotePids.Nodup :=
  hpids.sublist ((filter_sublist.trans filter_sublist).map Proc.pid)

theorem count_startedBy (hpids : (s.procs.map Proc.pid).Nodup) {z : Nat} (hz : z ∈ s.zygotePids) :
    ((startedBy env s).map Injector.pid).count z = if Attaches env s z then 1 else 0 := by
  have hserver : ((forServer env s).map Injector.pid).count z = 0 := by
    rw [count_eq_zero]
    intro hmem
    obtain ⟨i, hi, rfl⟩ := mem_map.mp hmem
    unfold forServer at hi
    split at hi
    · obtain ⟨pid, hpid, rfl⟩ := Option.map_eq_some_iff.mp (Option.mem_toList.mp hi)
      exact systemServerPid_ne hpids hz (Option.filter_eq_some_iff.mp hpid).1 rfl
    · cases hi
  have hzygote : ((standalone env s.mapped s.zygotePids).map Injector.pid).count z =
      if z ∉ s.mapped ∧ env.forks z = true then 1 else 0 := by
    have hmap : (standalone env s.mapped s.zygotePids).map Injector.pid =
        s.zygotePids.filter fun z => decide (z ∉ s.mapped) && env.forks z := by
      simp [standalone, Function.comp_def]
    rw [hmap]
    split
    · next hattaches =>
      rw [count_filter (by simpa using hattaches)]
      exact count_eq_one_of_mem (nodup_zygotePids hpids) hz
    · next hnot =>
      rw [count_eq_zero, mem_filter]
      exact fun hmem => hnot (by simpa using hmem.2)
  unfold startedBy Attaches
  split
  · next hready =>
    rw [map_append, count_append, hserver, hzygote, Nat.add_zero]
    simp [hready]
  · next hready => simp [hready]

theorem serverCount_startedBy :
    ((startedBy env s).map Injector.mode).count .systemServer =
      if AttachesServer env s then 1 else 0 := by
  have hzygote : ((standalone env s.mapped s.zygotePids).map Injector.mode).count
      .systemServer = 0 := by
    rw [count_eq_zero]
    simp [standalone]
  have hserver : ((forServer env s).map Injector.mode).count .systemServer =
      if (∃ z ∈ s.zygotePids, z ∉ s.mapped) ∧ ∃ pid ∈ s.systemServerPid, env.forks pid = true
        then 1 else 0 := by
    unfold forServer
    cases s.systemServerPid with
    | none => simp
    | some pid =>
      cases hforks : env.forks pid with
      | false => simp [Option.filter, hforks]
      | true =>
        simp only [Option.filter, hforks, any_eq_true, decide_eq_true_eq, Option.mem_def,
          Option.some.injEq, exists_eq_left', if_true, and_true]
        split <;> rfl
  unfold startedBy AttachesServer
  split
  · next hready =>
    rw [map_append, count_append, hserver, hzygote, Nat.zero_add]
    simp [hready]
  · next hready => simp [hready]

/-! ## Invariant -/

/-- The processes of the start, with the library where it was or where an injector has mapped it. -/
structure Inv (start s : Sys) : Prop where
  zygotePids : s.zygotePids = start.zygotePids
  pids_nodup : (s.procs.map Proc.pid).Nodup
  kept : ∀ z ∈ start.mapped, z ∈ s.mapped
  injected : ∀ z ∈ s.mapped, z ∈ start.mapped ∨ s.launches z ≠ 0

theorem launches_requestRearm (env : Env) (s : Sys) (z : Nat) :
    (requestRearm env s).launches z =
      s.launches z + ((startedBy env s).map Injector.pid).count z := by
  rw [Sys.launches, (requestRearm_spec env s).2, map_append, count_append]
  rfl

theorem serverLaunches_requestRearm (env : Env) (s : Sys) :
    (requestRearm env s).serverLaunches =
      s.serverLaunches + if AttachesServer env s then 1 else 0 := by
  rw [Sys.serverLaunches, (requestRearm_spec env s).2, map_append, count_append,
    serverCount_startedBy]
  rfl

theorem inv_step {start : Sys} {e : Event} (hinv : Inv start s) (hstep : s.step e = some t) :
    Inv start t := by
  cases e with
  | rearm env =>
    cases hstep
    have hsame := (requestRearm_spec env s).1
    refine ⟨hsame.zygotePids.trans hinv.zygotePids, hsame.procs ▸ hinv.pids_nodup, ?_, ?_⟩
    · exact fun z hz => hsame.mapped ▸ hinv.kept z hz
    · intro z hz
      rw [hsame.mapped] at hz
      refine (hinv.injected z hz).imp_right fun hne => ?_
      rw [launches_requestRearm]
      exact Nat.ne_of_gt (Nat.add_pos_left (Nat.pos_of_ne_zero hne) _)
  | maps pid =>
    obtain ⟨hpid, ht⟩ := Option.ite_none_right_eq_some.mp hstep
    cases ht
    refine ⟨hinv.zygotePids, hinv.pids_nodup, ?_, ?_⟩
    · exact fun z hz => mem_cons_of_mem pid (hinv.kept z hz)
    · intro z hz
      rcases mem_cons.mp hz with rfl | hz
      · exact .inr (count_pos_iff.mpr hpid).ne'
      · exact hinv.injected z hz

/-- A request starts nothing twice exactly if it comes at a safe time. -/
theorem injectsOnce_rearm_iff {start : Sys} (env : Env) (hinv : Inv start s)
    (honce : InjectsOnce start s) :
    InjectsOnce start (requestRearm env s) ↔ Safe s (.rearm env) := by
  obtain ⟨hzygotes, hserver, hstart⟩ := honce
  unfold InjectsOnce Safe
  rw [serverLaunches_requestRearm, hinv.zygotePids]
  refine and_congr (forall₂_congr fun z hz => ?_) ?_
  · obtain ⟨hle, hzero⟩ := hzygotes z hz
    rw [launches_requestRearm, count_startedBy hinv.pids_nodup (hinv.zygotePids ▸ hz)]
    split
    · next hattaches =>
      -- an injector is started, so the zygote has no library yet
      have hbare : z ∉ start.mapped := fun hmem => hattaches.2.1 (hinv.kept z hmem)
      simp [hattaches, hbare]
    · next hnot => exact iff_of_true ⟨hle, hzero⟩ fun hattaches => absurd hattaches hnot
  · split
    · next hattaches =>
      have hbare : ∀ z ∈ start.zygotePids,
          (z ∉ start.mapped ↔ (z ∈ s.mapped → s.launches z ≠ 0)) := by
        refine fun z hz => ⟨fun hnot hmem => (hinv.injected z hmem).resolve_left hnot, ?_⟩
        exact fun hlaunched hmem => hlaunched (hinv.kept z hmem) ((hzygotes z hz).2 hmem)
      simp only [hattaches, true_implies, forall₂_congr hbare]
      simp
    · next hnot => exact iff_of_true ⟨hserver, hstart⟩ fun hattaches => absurd hattaches hnot

theorem injectsOnce_step_iff {start : Sys} {e : Event} (hinv : Inv start s)
    (honce : InjectsOnce start s) (hstep : s.step e = some t) : InjectsOnce start t ↔ Safe s e := by
  cases e with
  | rearm env =>
    cases hstep
    exact injectsOnce_rearm_iff env hinv honce
  | maps pid =>
    obtain ⟨-, ht⟩ := Option.ite_none_right_eq_some.mp hstep
    cases ht
    exact iff_true_intro honce

end RearmLemmas

open RearmLemmas

/-- From any processes, requests inject everything at most once exactly if each of them comes at a
safe time. -/
theorem rearm_once_iff {start s : Sys} (hlaunched : start.launched = [])
    (hpids : (start.procs.map Proc.pid).Nodup) {tr : List (Sys × Event)} (hrun : Steps start tr s) :
    (∀ p ∈ tr, Safe p.1 p.2) ↔ ∀ u ∈ visited tr s, InjectsOnce start u := by
  refine hrun.forall_ok_iff (Inv start) (InjectsOnce start) Safe ?_ ?_ ?_ ?_
  · exact fun s e t hinv hstep => inv_step hinv hstep
  · exact fun s e t hinv honce hstep => injectsOnce_step_iff hinv honce hstep
  · exact ⟨rfl, hpids, fun z hz => hz, fun z hz => .inl hz⟩
  · simp [InjectsOnce, Sys.launches, Sys.serverLaunches, hlaunched]

def appProcess (pid : Nat) (ppid : Int) (comm cmdline : String) : Proc :=
  ⟨pid, "/system/bin/app_process64".toList, ppid, comm.toList, cmdline.toList⟩

/-- A zygote and its system_server, with the daemon running. -/
def running (zygotes : List Proc) (mapped : List Nat) : Sys where
  programPath := "/system/bin/app_process64".toList
  procs := zygotes ++ [appProcess 900 500 "system_server" "system_server"]
  mapped := mapped
  status := ⟨true, false, true, some 77⟩
  tracingState := .tracing
  launched := []

def zygote64 : Proc := appProcess 500 1 "main" "zygote64"

def forking : Env := ⟨none, fun _ => true⟩

/-- A second request after the injectors have done their work. -/
theorem rearm_once_iff_later :
    ∃ tr s, Steps (running [zygote64] []) tr s ∧
      tr.map Prod.snd = [.rearm forking, .maps 500, .maps 900, .rearm forking] ∧
      s.launched = [⟨500, .standalone⟩, ⟨900, .systemServer⟩] ∧
      ∀ u ∈ visited tr s, InjectsOnce (running [zygote64] []) u := by
  obtain ⟨hrun, hlabels⟩ := run_exec_get (show (exec Sys.step (running [zygote64] [])
    [.rearm forking, .maps 500, .maps 900, .rearm forking]).isSome = true from rfl)
  refine ⟨_, _, hrun, hlabels, rfl, (rearm_once_iff rfl (by decide) hrun).mp ?_⟩
  decide

/-- A second zygote, of the same program. -/
def zygoteSecondary : Proc := appProcess 501 1 "main" "zygote_secondary"

/-- A request that follows too early starts a second injector for the zygote and for system_server;
and system_server gets one although one of the zygotes was injected before. -/
theorem rearm_injects_twice :
    (∃ tr s, Steps (running [zygote64] []) tr s ∧
      tr.map Prod.snd = [.rearm forking, .rearm forking] ∧
      s.launches 500 = 2 ∧ s.serverLaunches = 2) ∧
    ∃ tr s, Steps (running [zygote64, zygoteSecondary] [500]) tr s ∧
      tr.map Prod.snd = [.rearm forking] ∧ 500 ∈ s.zygotePids ∧ s.serverLaunches = 1 := by
  constructor
  · obtain ⟨hrun, hlabels⟩ := run_exec_get (show (exec Sys.step (running [zygote64] [])
      [.rearm forking, .rearm forking]).isSome = true from rfl)
    exact ⟨_, _, hrun, hlabels, by decide, by decide⟩
  · obtain ⟨hrun, hlabels⟩ := run_exec_get (show (exec Sys.step
      (running [zygote64, zygoteSecondary] [500]) [.rearm forking]).isSome = true from rfl)
    exact ⟨_, _, hrun, hlabels, by decide, by decide⟩

end NyaZygisk.Rearm
