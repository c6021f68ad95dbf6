import NyaZygisk.Injection

/-!
# Attaching to a target

`trace_target` of `ptracer.cpp`: it seizes the target and injects it, and falls back on a plain
attach when it then finds `EIO` in `errno`. Every call may leave any value there.
-/

namespace NyaZygisk

open Effects List

/-! ## Calls with `errno` -/

def eio : Nat := 5

inductive TargetCall
  /-- A call that the injection makes as well. -/
  | trace (c : TraceCall)
  | seize (exitKill : Bool)
  | interrupt
  | attach
  | setOptions (exitKill traceSeccomp : Bool)
  | syscall
  | kernelKeepsPtraceMessage
  | injecting
  | errno

/-- What a call answers; a seize that fails, with its error. -/
def TargetCall.Result : TargetCall → Type
  | .trace c => c.Result
  | .seize _ => Option Nat
  | .interrupt | .attach | .setOptions .. | .syscall | .kernelKeepsPtraceMessage => Bool
  | .injecting => Unit
  | .errno => Nat

def TargetCall.isRequest : TargetCall → Bool
  | .seize _ | .attach => true
  | _ => false

def TargetCall.isInjecting : TargetCall → Bool
  | .injecting => true
  | _ => false

/-- The calls by what they ask for; those of the injection are not told apart. -/
inductive CallKind
  | trace
  | seize
  | interrupt
  | attach
  | setOptions
  | syscall
  | kernelKeepsPtraceMessage
  | internal
deriving DecidableEq

def TargetCall.kind : TargetCall → CallKind
  | .trace _ => .trace
  | .seize _ => .seize
  | .interrupt => .interrupt
  | .attach => .attach
  | .setOptions .. => .setOptions
  | .syscall => .syscall
  | .kernelKeepsPtraceMessage => .kernelKeepsPtraceMessage
  | .injecting | .errno => .internal

abbrev TargetTracer (α : Type) : Type := Prog TargetCall TargetCall.Result α

abbrev TargetEvent : Type := Sigma TargetCall.Result

/-- What calls may answer, with the `errno` before and after them. A request that fails leaves its
error. -/
def errnoKernel (answers : Kernel TargetCall TargetCall.Result Nat) :
    Kernel TargetCall TargetCall.Result Nat
  | .errno, e, (r : Nat), e' => r = e ∧ e' = e
  | .injecting, e, _, e' => e' = e
  | .seize exitKill, e, (r : Option Nat), e' =>
    answers (.seize exitKill) e r e' ∧ ∀ err, r = some err → e' = err
  | c, e, r, e' => answers c e r e'

/-- Any call answers anything and leaves any error, but those that leave `EIO` are of certain kinds,
or a request to seize that fails with it. -/
def eioOnlyFrom (brings : CallKind → Prop) : Kernel TargetCall TargetCall.Result Nat :=
  fun c e r e' => e' = eio → e = eio ∨ brings c.kind ∨
    ∃ exitKill, (⟨c, r⟩ : TargetEvent) = ⟨.seize exitKill, some eio⟩

/-! ## Both ways to attach -/

def TraceMode.processStarted : TraceMode → Bool
  | .standalone | .systemServer => true
  | .unknown | .spawn => false

namespace TraceTarget

def call (c : TargetCall) : TargetTracer c.Result := .op c

def trace (c : TraceCall) : TargetTracer c.Result := call (.trace c)

def onTarget {α : Type} (p : Tracer α) : TargetTracer α := p.via TargetCall.trace fun _ r => r

def waitForProcess : TargetTracer (Option Status) := do
  let waited : Waited ← trace .waitpid
  match waited with
  | .status status => return some status
  | .interrupted | .failed => return none

def performInjection (n : Nat) (mode : TraceMode) : TargetTracer Bool := do
  let _ ← call .injecting
  let tmpPath : String ← trace .getTmpPath
  let libPath := tmpPath ++ "/lib64/libzygisk.so"
  if mode.processStarted then onTarget (injectAfterStart .aarch64 n libPath mode)
  else onTarget (injectBeforeStart n libPath mode)

def armSeccompEvents (exitKill : Bool) : TargetTracer Unit := do
  let keeps : Bool ← call .kernelKeepsPtraceMessage
  if keeps then
    let _ ← call (.setOptions exitKill true)
    return ()
  else return ()

def detachWithGkiWorkaround (signal : Nat) : TargetTracer Bool := do
  let ok : Bool ← call .syscall
  if !ok then
    let _ ← trace (.detach signal)
    return false
  else
    match ← waitForProcess with
    | none =>
      let _ ← trace (.detach signal)
      return false
    | some _ => trace (.detach signal)

def bailAndDetach : TargetTracer Bool := do
  let _ ← trace (.detach 0)
  return false

/-- `trace_with_seize` after the target was told to go on: up to the delivery of `SIGCONT`. -/
def awaitSigcont : TargetTracer Bool := do
  match ← waitForProcess with
  | none => return false
  | some status =>
    if stoppedWith status sigtrap ptraceEventStop then
      let ok : Bool ← trace .cont
      if !ok then bailAndDetach
      else
        match ← waitForProcess with
        | none => return false
        | some status =>
          if stoppedWith status sigcont 0 then detachWithGkiWorkaround sigcont else bailAndDetach
    else if stoppedWith status sigcont 0 then detachWithGkiWorkaround sigcont
    else bailAndDetach

/-- `trace_with_seize` after the injection. -/
def resumeSeized (mode : TraceMode) : TargetTracer Bool := do
  if mode.processStarted then
    let _ ← trace (.detach 0)
    return true
  else
    let sent : Bool ← trace (.kill sigcont)
    if !sent then bailAndDetach
    else
      let ok : Bool ← trace .cont
      if !ok then bailAndDetach else awaitSigcont

/-- The stop that a target is found in after it was seized. -/
def validStop (mode : TraceMode) (status : Status) : Bool :=
  if mode.processStarted then stoppedWith status sigtrap ptraceEventStop
  else stoppedWith status sigstop ptraceEventStop || stoppedWith status sigstop 0

/-- `trace_with_seize` from the first stop on. -/
def injectSeized (n : Nat) (mode : TraceMode) : TargetTracer Bool := do
  match ← waitForProcess with
  | none => return false
  | some status =>
    if validStop mode status then
      armSeccompEvents (!mode.processStarted)
      let injected ← performInjection n mode
      if !injected then bailAndDetach else resumeSeized mode
    else bailAndDetach

/-- `trace_with_seize` once the target is seized. -/
def afterSeize (n : Nat) (mode : TraceMode) : TargetTracer Bool := do
  if mode.processStarted then
    let ok : Bool ← call .interrupt
    if !ok then bailAndDetach else injectSeized n mode
  else injectSeized n mode

def traceWithSeize (n : Nat) (mode : TraceMode) : TargetTracer Bool := do
  let failure : Option Nat ← call (.seize (!mode.processStarted))
  match failure with
  | some _ => return false
  | none => afterSeize n mode

/-- `trace_with_attach` from the first stop on. -/
def injectAttached (n : Nat) (mode : TraceMode) : TargetTracer Bool := do
  if mode = .spawn then
    let _ ← call (.setOptions true false)
    armSeccompEvents true
  else armSeccompEvents false
  let injected ← performInjection n mode
  if !injected then bailAndDetach else detachWithGkiWorkaround sigcont

def traceWithAttach (n : Nat) (mode : TraceMode) : TargetTracer Bool := do
  let ok : Bool ← call .attach
  if !ok then return false
  else
    match ← waitForProcess with
    | none => bailAndDetach
    | some (.stopped signal _) => if signal = sigstop then injectAttached n mode else bailAndDetach
    | some _ => bailAndDetach

def traceTarget (n : Nat) (mode : TraceMode) : TargetTracer Bool := do
  let done ← traceWithSeize n mode
  if done then return true
  else
    let errno : Nat ← call .errno
    if errno = eio then traceWithAttach n mode else return false

/-! ## Requests and injections -/

/-- The calls that `trace_with_seize` makes of a seized target are not counted, the injection aside. -/
structure Uncounted (Q : TargetCall → Bool) (started : Bool) : Prop where
  trace : ∀ c, Q (.trace c) = false
  message : Q .kernelKeepsPtraceMessage = false
  options : ∀ exitKill traceSeccomp, Q (.setOptions exitKill traceSeccomp) = false
  interrupt : started = true → Q .interrupt = false
  syscall : started = false → Q .syscall = false

section

variable {Q : TargetCall → Bool}

theorem performInjection_atMost (htrace : ∀ c, Q (.trace c) = false) {m : Nat}
    (hm : Q .injecting = true → 0 < m) (n : Nat) (mode : TraceMode) :
    (performInjection n mode).AtMost Q m := by
  refine .call hm fun _ => ⟨htrace _, fun tmpPath => ?_⟩
  show Prog.Calls (Q · = false) (ite _ _ _)
  split
  · exact Prog.calls_via htrace _
  · exact Prog.calls_via htrace _

section

variable (htrace : ∀ c, Q (.trace c) = false)

include htrace

theorem waitForProcess_calls : waitForProcess.Calls (Q · = false) := by
  refine ⟨htrace _, fun (waited : Waited) => ?_⟩
  cases waited <;> trivial

theorem bailAndDetach_calls : bailAndDetach.Calls (Q · = false) := ⟨htrace _, fun _ => trivial⟩

variable (hsyscall : Q .syscall = false)

include hsyscall

theorem detachWithGkiWorkaround_calls (signal : Nat) :
    (detachWithGkiWorkaround signal).Calls (Q · = false) := by
  refine ⟨hsyscall, fun (ok : Bool) => ?_⟩
  cases ok with
  | false => exact ⟨htrace _, fun _ => trivial⟩
  | true =>
    refine (waitForProcess_calls htrace).bind fun waited => ?_
    cases waited with
    | none | some status => exact ⟨htrace _, fun _ => trivial⟩

theorem awaitSigcont_calls : awaitSigcont.Calls (Q · = false) := by
  refine (waitForProcess_calls htrace).bind fun waited => ?_
  cases waited with
  | none => trivial
  | some status =>
    show Prog.Calls (Q · = false) (ite _ _ _)
    split
    · refine ⟨htrace _, fun (ok : Bool) => ?_⟩
      cases ok with
      | false => exact bailAndDetach_calls htrace
      | true =>
        refine (waitForProcess_calls htrace).bind fun waited => ?_
        cases waited with
        | none => trivial
        | some status =>
          show Prog.Calls (Q · = false) (ite _ _ _)
          split
          · exact detachWithGkiWorkaround_calls htrace hsyscall sigcont
          · exact bailAndDetach_calls htrace
    · split
      · exact detachWithGkiWorkaround_calls htrace hsyscall sigcont
      · exact bailAndDetach_calls htrace

end

section

variable {mode : TraceMode} (hQ : Uncounted Q mode.processStarted)

include hQ

theorem armSeccompEvents_calls (exitKill : Bool) : (armSeccompEvents exitKill).Calls (Q · = false) := by
  refine ⟨hQ.message, fun (keeps : Bool) => ?_⟩
  cases keeps with
  | false => trivial
  | true => exact ⟨hQ.options _ _, fun _ => trivial⟩

theorem resumeSeized_calls : (resumeSeized mode).Calls (Q · = false) := by
  unfold resumeSeized
  split
  · exact ⟨hQ.trace _, fun _ => trivial⟩
  · next hstarted =>
    refine ⟨hQ.trace _, fun (sent : Bool) => ?_⟩
    cases sent with
    | false => exact bailAndDetach_calls hQ.trace
    | true =>
      refine ⟨hQ.trace _, fun (ok : Bool) => ?_⟩
      cases ok with
      | false => exact bailAndDetach_calls hQ.trace
      | true => exact awaitSigcont_calls hQ.trace (hQ.syscall (Bool.eq_false_iff.mpr hstarted))

variable {m : Nat} (hm : Q .injecting = true → 0 < m)

include hm

theorem injectSeized_atMost (n : Nat) : (injectSeized n mode).AtMost Q m := by
  refine .after_calls (waitForProcess_calls hQ.trace) fun waited => ?_
  cases waited with
  | none => trivial
  | some status =>
    show Prog.AtMost Q (ite _ _ _) m
    split
    · refine .after_calls (armSeccompEvents_calls hQ _) fun _ => ?_
      refine .bind_calls (performInjection_atMost hQ.trace hm n mode) fun injected => ?_
      cases injected with
      | false => exact bailAndDetach_calls hQ.trace
      | true => exact resumeSeized_calls hQ
    · exact .of_calls (bailAndDetach_calls hQ.trace) m

theorem afterSeize_atMost (n : Nat) : (afterSeize n mode).AtMost Q m := by
  unfold afterSeize
  split
  · next hstarted =>
    refine .after_calls (p := call .interrupt) ⟨hQ.interrupt hstarted, fun _ => trivial⟩
      fun (ok : Bool) => ?_
    cases ok with
    | false => exact .of_calls (bailAndDetach_calls hQ.trace) m
    | true => exact injectSeized_atMost hQ hm n
  · exact injectSeized_atMost hQ hm n

theorem traceWithSeize_atMost (hseize : ∀ exitKill, Q (.seize exitKill) = false) (n : Nat) :
    (traceWithSeize n mode).AtMost Q m := by
  refine .after_calls (p := call (.seize _)) ⟨hseize _, fun _ => trivial⟩
    fun (failure : Option Nat) => ?_
  cases failure with
  | some err => trivial
  | none => exact afterSeize_atMost hQ hm n

theorem injectAttached_atMost (hsyscall : Q .syscall = false) (n : Nat) :
    (injectAttached n mode).AtMost Q m := by
  have hrest : ((performInjection n mode).bind fun injected =>
      if !injected then bailAndDetach else detachWithGkiWorkaround sigcont).AtMost Q m := by
    refine .bind_calls (performInjection_atMost hQ.trace hm n mode) fun injected => ?_
    cases injected with
    | false => exact bailAndDetach_calls hQ.trace
    | true => exact detachWithGkiWorkaround_calls hQ.trace hsyscall sigcont
  unfold injectAttached
  split
  · refine .after_calls (p := call (.setOptions true false)) ⟨hQ.options _ _, fun _ => trivial⟩
      fun _ => ?_
    exact .after_calls (armSeccompEvents_calls hQ true) fun _ => hrest
  · exact .after_calls (armSeccompEvents_calls hQ false) fun _ => hrest

end

end

/-! ## At most one injection -/

theorem isInjecting_uncounted (started : Bool) : Uncounted TargetCall.isInjecting started :=
  ⟨fun _ => rfl, rfl, fun _ _ => rfl, fun _ => rfl, fun _ => rfl⟩

theorem isRequest_uncounted (started : Bool) : Uncounted TargetCall.isRequest started :=
  ⟨fun _ => rfl, rfl, fun _ _ => rfl, fun _ => rfl, fun _ => rfl⟩

theorem traceWithAttach_atMost (n : Nat) (mode : TraceMode) :
    (traceWithAttach n mode).AtMost TargetCall.isInjecting 1 := by
  have hbail : bailAndDetach.AtMost TargetCall.isInjecting 1 :=
    .of_calls (bailAndDetach_calls fun _ => rfl) 1
  refine .after_calls (p := call .attach) ⟨rfl, fun _ => trivial⟩ fun (ok : Bool) => ?_
  cases ok with
  | false => trivial
  | true =>
    refine .after_calls (waitForProcess_calls fun _ => rfl) fun waited => ?_
    match waited with
    | none | some (.exited _) | some (.signaled _) => exact hbail
    | some (.stopped signal event) =>
      show Prog.AtMost TargetCall.isInjecting (ite _ _ _) 1
      split
      · exact injectAttached_atMost (isInjecting_uncounted _) (fun _ => Nat.one_pos) rfl n
      · exact hbail

/-- The request to seize the target failed with `EIO`. -/
def SeizeRefused (tr : List TargetEvent) : Prop := ∃ exitKill, ⟨.seize exitKill, some eio⟩ ∈ tr

theorem SeizeRefused.append {tr : List TargetEvent} (h : SeizeRefused tr) (tr' : List TargetEvent) :
    SeizeRefused (tr ++ tr') :=
  h.imp fun _ hmem => mem_append_left tr' hmem

/-- The target is attached to only after it could not be seized, and it is injected at most once. -/
structure InjectedOnce (tr : List TargetEvent) : Prop where
  attach : (∃ ev, ev ∈ tr ∧ ev.1 = .attach) → SeizeRefused tr
  injected : tr.countP (fun ev => ev.1.isInjecting) ≤ 1

variable {K : Kernel TargetCall TargetCall.Result Nat} {n : Nat} {mode : TraceMode} {e : Nat}
  {tr : List TargetEvent}

/-- The request is the first call of `trace_with_seize`, no other follows it, and nothing at all does
if it fails. -/
theorem seize_first (h : Begins K (traceWithSeize n mode) e tr) :
    tr = [] ∨ ∃ exitKill failure rest, tr = ⟨.seize exitKill, failure⟩ :: rest ∧
      (∀ ev ∈ rest, ev.1.isRequest = false) ∧ (failure ≠ none → rest = []) := by
  cases h with
  | stop => exact .inl rfl
  | @call _ _ _ _ failure rest _ hrest =>
    refine .inr ⟨_, failure, rest, rfl, ?_⟩
    cases failure with
    | some err =>
      cases hrest
      exact ⟨nofun, fun _ => rfl⟩
    | none =>
      have hatMost : (afterSeize n mode).AtMost TargetCall.isRequest 0 :=
        afterSeize_atMost (isRequest_uncounted _) nofun n
      refine ⟨fun ev hev => ?_, fun h => absurd rfl h⟩
      have hnone := countP_eq_zero.mp (Nat.le_zero.mp (hrest.count_le hatMost)) ev hev
      exact Bool.eq_false_iff.mpr hnone

theorem attach_not_seized (h : Begins K (traceWithSeize n mode) e tr) :
    ∀ ev ∈ tr, ev.1 ≠ .attach := by
  rcases seize_first h with rfl | ⟨exitKill, failure, rest, rfl, hrest, _⟩
  · exact nofun
  · refine forall_mem_cons.mpr ⟨nofun, fun ev hev hattach => ?_⟩
    have hrequest := hrest ev hev
    rw [hattach] at hrequest
    cases hrequest

/-- A target that could not be seized is not injected. -/
theorem refused_not_injected (h : Begins K (traceWithSeize n mode) e tr) (hrefused : SeizeRefused tr) :
    tr.countP (fun ev => ev.1.isInjecting) = 0 := by
  rcases seize_first h with rfl | ⟨exitKill, failure, rest, rfl, hrest, hfailed⟩
  · rfl
  · obtain ⟨exitKill', hmem⟩ := hrefused
    rcases mem_cons.mp hmem with heq | hmem
    · cases heq
      rw [hfailed nofun]
      rfl
    · exact absurd (hrest _ hmem) nofun

section

variable {answers : Kernel TargetCall TargetCall.Result Nat}

theorem begins_errno {α : Type} {next : Nat → TargetTracer α}
    (h : Begins (errnoKernel answers) ((call .errno).bind next) e tr) :
    tr = [] ∨ ∃ rest, tr = ⟨.errno, e⟩ :: rest ∧ Begins (errnoKernel answers) (next e) e rest := by
  cases h with
  | stop => exact .inl rfl
  | call hcall hrest =>
    obtain ⟨rfl, rfl⟩ := hcall
    exact .inr ⟨_, rfl, hrest⟩

/-- What `trace_target` does after `trace_with_seize`. -/
theorem begins_attach {done : Bool}
    (h : Begins (errnoKernel answers) (if done then return true else do
      let errno : Nat ← call .errno
      if errno = eio then traceWithAttach n mode else return false) e tr) :
    (∀ ev ∈ tr, ev.1 = .errno) ∨
      done = false ∧ e = eio ∧ ∃ rest, tr = ⟨.errno, e⟩ :: rest ∧
        Begins (errnoKernel answers) (traceWithAttach n mode) e rest := by
  cases done with
  | true =>
    cases h
    exact .inl nofun
  | false =>
    rcases begins_errno h with rfl | ⟨rest, rfl, hrest⟩
    · exact .inl nofun
    · split at hrest
      · next heio => exact .inr ⟨rfl, heio, rest, rfl, hrest⟩
      · cases hrest
        exact .inl (forall_mem_singleton.mpr rfl)

end

theorem InjectedOnce.of_seize (h : Begins K (traceWithSeize n mode) e tr) : InjectedOnce tr where
  attach := fun ⟨ev, hev, hattach⟩ => absurd hattach (attach_not_seized h ev hev)
  injected := h.count_le
    (traceWithSeize_atMost (isInjecting_uncounted _) (fun _ => Nat.one_pos) (fun _ => rfl) n)

/-- A target is attached to only after it could not be seized, and injected at most once, if
`trace_with_seize` does not leave `EIO` when it fails for another reason. -/
theorem InjectedOnce.of_refused {answers : Kernel TargetCall TargetCall.Result Nat}
    (hrefused : ∀ tr, Runs (errnoKernel answers) (traceWithSeize n mode) e tr false eio → SeizeRefused tr)
    (h : Begins (errnoKernel answers) (traceTarget n mode) e tr) : InjectedOnce tr := by
  rcases h.bind_inv with hfirst | ⟨tr₁, done, t, tr₂, hruns, hrest, rfl⟩
  · exact .of_seize hfirst
  · have hfirst := InjectedOnce.of_seize hruns.begins
    rcases begins_attach hrest with herrno | ⟨rfl, rfl, rest, rfl, hattached⟩
    · refine ⟨?_, ?_⟩
      · rintro ⟨ev, hev, hattached⟩
        rcases mem_append.mp hev with hev | hev
        · exact (hfirst.attach ⟨ev, hev, hattached⟩).append tr₂
        · exact nomatch (herrno ev hev).symm.trans hattached
      · have hnone : tr₂.countP (fun ev => ev.1.isInjecting) = 0 :=
          countP_eq_zero.mpr fun ev hev => by
            rw [herrno ev hev]
            exact Bool.false_ne_true
        rw [countP_append, hnone]
        exact hfirst.injected
    · have hrefused := hrefused tr₁ hruns
      refine ⟨fun _ => hrefused.append _, ?_⟩
      rw [countP_append, refused_not_injected hruns.begins hrefused, Nat.zero_add,
        countP_cons_of_neg Bool.false_ne_true]
      exact hattached.count_le (traceWithAttach_atMost n mode)

/-! ## Calls that leave `EIO` -/

/-- The kinds of calls that `trace_with_seize` makes. -/
def seizeKinds (mode : TraceMode) : List CallKind :=
  [.seize, .trace, .kernelKeepsPtraceMessage, .setOptions,
    if mode.processStarted then .interrupt else .syscall]

/-- The call is of no kind that `trace_with_seize` is said to make. -/
def strange (mode : TraceMode) (c : TargetCall) : Bool :=
  c.kind ≠ .internal && c.kind ∉ seizeKinds mode

theorem strange_uncounted (mode : TraceMode) : Uncounted (strange mode) mode.processStarted := by
  cases mode <;> exact ⟨fun _ => rfl, rfl, fun _ _ => rfl, by decide, by decide⟩

theorem kind_mem (h : Begins K (traceWithSeize n mode) e tr) {ev : TargetEvent} (hev : ev ∈ tr)
    (hkind : ev.1.kind ≠ .internal) : ev.1.kind ∈ seizeKinds mode := by
  have hatMost : (traceWithSeize n mode).AtMost (strange mode) 0 :=
    traceWithSeize_atMost (strange_uncounted mode) nofun (fun _ => rfl) n
  have hnone := countP_eq_zero.mp (Nat.le_zero.mp (h.count_le hatMost)) ev hev
  simpa [strange, hkind] using hnone

variable {brings : CallKind → Prop}

/-- Where no such call leaves `EIO`, a run that ends with it had its request refused. -/
theorem refused_of_eio (he : e ≠ eio) (hbrings : ∀ kind ∈ seizeKinds mode, ¬ brings kind) {done : Bool}
    (hruns : Runs (errnoKernel (eioOnlyFrom brings)) (traceWithSeize n mode) e tr done eio) :
    SeizeRefused tr := by
  have hentered := Runs.entered (P := (· = eio))
    (E := fun ev => ev.1.kind ≠ .internal ∧ brings ev.1.kind ∨
      ∃ exitKill, ev = ⟨.seize exitKill, some eio⟩)
    (fun c e r e' hcall heio => ?_) hruns rfl
  · obtain ⟨ev, hev, ⟨hkind, hfrom⟩ | ⟨exitKill, rfl⟩⟩ := hentered.resolve_left he
    · exact absurd hfrom (hbrings _ (kind_mem hruns.begins hev hkind))
    · exact ⟨exitKill, hev⟩
  · cases c with
    | errno => exact .inl (hcall.2.symm.trans heio)
    | injecting => exact .inl (hcall.symm.trans heio)
    | seize exitKill => exact (hcall.1 heio).imp_right (.imp_left fun h => ⟨nofun, h⟩)
    | _ => exact (hcall heio).imp_right (.imp_left fun h => ⟨nofun, h⟩)

/-- The mapping that the called functions return to: its first address is the one where a hijacked
process traps as well. -/
def trapMap : MapInfo := ⟨breakAddr 16, 0, false, 1, 1, "/system/lib64/libc.so"⟩

def trapRegs : Regs := { x := .replicate 31 1, sp := 0x1000, pc := breakAddr 16, pstate := 0 }

/-- The `errno` after a call, when those of the kind leave `EIO`. It says how far a process is that is
to reach the system call: stopped at first, running up to its trap, or told to go on. -/
def errnoLeft (kind : CallKind) (c : TargetCall) (e : Nat) : Nat :=
  if c.kind = kind then eio
  else match kind, c with
    | .syscall, .trace .waitpid => if e = 0 then 1 else e
    | .syscall, .trace (.kill _) => 2
    | _, _ => e

/-- The answers of a seized target. Its registers can be read only if it is to reach the system call,
which fails. -/
def seizedAnswer (mode : TraceMode) (kind : CallKind) (e : Nat) : (c : TargetCall) → Option c.Result
  | .trace .waitpid =>
    some (.status (if e = 1 then .stopped sigsegv 0 else if e = 2 then .stopped sigcont 0
      else if mode.processStarted then .stopped sigtrap ptraceEventStop else .stopped sigstop 0))
  | .trace .getRegs => some (if kind = .syscall then some trapRegs else none)
  | .trace (.setRegs _) | .trace .cont | .trace (.detach _) | .trace (.kill _) => some true
  | .trace (.readProc _ len) => some (if len = 16 then wordBytes atEntry ++ wordBytes 16 else [])
  | .trace (.writeProc _ bytes) => some (Int.ofNat bytes.length)
  | .trace .scanMaps => some [trapMap]
  | .trace (.findFuncAddr _ _) => some (1 : BitVec 64)
  | .trace .getTmpPath => some "/debug_ramdisk"
  | .interrupt | .setOptions .. | .kernelKeepsPtraceMessage => some true
  | .syscall => some false
  | .injecting => some ()
  | _ => none

def seizedAnswers (mode : TraceMode) (kind : CallKind) (c : TargetCall) (e : Nat) :
    Option (c.Result × Nat) :=
  (seizedAnswer mode kind e c).map fun r => (r, errnoLeft kind c e)

theorem errnoLeft_eq_eio {kind : CallKind} {c : TargetCall} (h : errnoLeft kind c e = eio) :
    e = eio ∨ c.kind = kind := by
  unfold errnoLeft at h
  split at h
  · next hkind => exact .inr hkind
  · split at h
    · split at h
      · cases h
      · exact .inl h
    · cases h
    · exact .inl h

theorem seizedAnswers_kernel {kind : CallKind} (hmem : kind ∈ seizeKinds mode)
    (hkind : kind = .seize ∨ brings kind) (c : TargetCall) (e : Nat) (r : c.Result) (e' : Nat)
    (h : seizedAnswers mode kind c e = some (r, e')) : errnoKernel (eioOnlyFrom brings) c e r e' := by
  obtain ⟨r', hanswer, heq⟩ := Option.map_eq_some_iff.mp h
  cases heq
  have hleft (hc : c.kind ≠ .seize) (heio : errnoLeft kind c e = eio) : e = eio ∨ brings c.kind := by
    refine (errnoLeft_eq_eio heio).imp_right fun h => ?_
    rw [h] at hc ⊢
    exact hkind.resolve_left hc
  cases c with
  | errno | attach | seize _ => cases hanswer
  | injecting =>
    show errnoLeft kind .injecting e = e
    revert hmem
    cases mode <;> cases kind <;> first | exact fun _ => rfl | exact fun h => absurd h (by decide)
  | _ => exact fun heio => (hleft nofun heio).imp_right .inl

/-- In each mode, a call of each of the kinds is made before `trace_with_seize` fails. -/
theorem seizedAnswers_fails {kind : CallKind} (hmem : kind ∈ seizeKinds mode) :
    (drive (seizedAnswers mode kind) (afterSeize 2 mode) (if kind = .seize then eio else 0)).map (·.2) =
      some (false, eio) := by
  revert kind
  cases mode <;> decide +kernel

theorem refused_of_once (h : ∀ n tr, Begins (errnoKernel (eioOnlyFrom brings)) (traceTarget n mode) e tr →
      InjectedOnce tr)
    (hruns : Runs (errnoKernel (eioOnlyFrom brings)) (traceWithSeize n mode) e tr false eio) :
    SeizeRefused tr := by
  have hbegins : Begins (errnoKernel (eioOnlyFrom brings)) (traceTarget n mode) e
      (tr ++ [⟨.errno, eio⟩, ⟨.attach, true⟩]) :=
    hruns.begins_bind (.call ⟨rfl, rfl⟩ (.call (u := 0) (fun h => absurd h (by decide)) .stop))
  obtain ⟨exitKill, hmem⟩ := (h n _ hbegins).attach ⟨⟨.attach, true⟩, by simp, rfl⟩
  refine ⟨exitKill, (mem_append.mp hmem).resolve_right ?_⟩
  rintro (_ | ⟨_, _ | ⟨_, hnil⟩⟩)
  exact nomatch hnil

/-- A call of the kind may leave `EIO` behind a request that succeeded. -/
theorem fails_with_eio {kind : CallKind} (hmem : kind ∈ seizeKinds mode) (hkind : kind = .seize ∨ brings kind)
    (hseize : kind = .seize → e = eio ∨ brings .seize) :
    ∃ tr, Runs (errnoKernel (eioOnlyFrom brings)) (traceWithSeize 2 mode) e tr false eio ∧
      ¬ SeizeRefused tr := by
  obtain ⟨⟨tr, done, e'⟩, hdrive, heq⟩ := Option.map_eq_some_iff.mp (seizedAnswers_fails hmem)
  cases heq
  have hruns := drive_runs (seizedAnswers_kernel hmem hkind) hdrive
  have hfirst : Runs (errnoKernel (eioOnlyFrom brings)) (traceWithSeize 2 mode) e
      (⟨.seize (!mode.processStarted), none⟩ :: tr) false eio := by
    refine .call ⟨fun heio => ?_, nofun⟩ hruns
    split at heio
    · next h => exact (hseize h).imp_right .inl
    · cases heio
  refine ⟨_, hfirst, fun ⟨exitKill, hrefused⟩ => ?_⟩
  rcases mem_cons.mp hrefused with heq | hrefused
  · cases heq
  · have hatMost : (afterSeize 2 mode).AtMost TargetCall.isRequest 0 :=
      afterSeize_atMost (isRequest_uncounted _) nofun 2
    exact countP_eq_zero.mp (Nat.le_zero.mp (hruns.begins.count_le hatMost)) _ hrefused rfl

end TraceTarget

open TraceTarget

/-- A target is attached to only after it could not be seized, and injected at most once, exactly if
`errno` does not hold `EIO` before and no call that `trace_with_seize` makes leaves it, a refused
request aside. -/
theorem injected_once_iff (brings : CallKind → Prop) (mode : TraceMode) (e : Nat) :
    (∀ n tr, Begins (errnoKernel (eioOnlyFrom brings)) (traceTarget n mode) e tr → InjectedOnce tr) ↔
      e ≠ eio ∧ ∀ kind ∈ seizeKinds mode, ¬ brings kind := by
  constructor
  · intro honce
    have hnone (kind : CallKind) (hmem : kind ∈ seizeKinds mode) (hkind : kind = .seize ∨ brings kind)
        (hseize : kind = .seize → e = eio ∨ brings .seize) : False := by
      obtain ⟨tr, hruns, hnot⟩ := fails_with_eio hmem hkind hseize
      exact hnot (refused_of_once honce hruns)
    refine ⟨fun he => hnone .seize mem_cons_self (.inl rfl) fun _ => .inl he, ?_⟩
    exact fun kind hmem hbrings => hnone kind hmem (.inr hbrings) fun h => .inr (h ▸ hbrings)
  · rintro ⟨he, hbrings⟩ n tr hbegins
    exact .of_refused (fun _ hruns => refused_of_eio he hbrings hruns) hbegins

/-! ## A target that is injected twice -/

/-- A live process is seized and interrupted. Its registers cannot be read, with `EIO`, and it is
then attached to. -/
def unreadableAnswers : (c : TargetCall) → Nat → Option (c.Result × Nat)
  | .trace .waitpid, e =>
    some (.status (if e = eio then .stopped sigstop 0 else .stopped sigtrap ptraceEventStop), e)
  | .trace .getRegs, _ => some (none, eio)
  | .trace .getTmpPath, e => some ("/debug_ramdisk", e)
  | .trace (.detach _), e | .interrupt, e | .attach, e => some (true, e)
  | .seize _, e => some (none, e)
  | .kernelKeepsPtraceMessage, e => some (false, e)
  | .injecting, e => some ((), e)
  | .errno, e => some (e, e)
  | _, _ => none

theorem unreadableAnswers_kernel (c : TargetCall) (e : Nat) (r : c.Result) (e' : Nat)
    (h : unreadableAnswers c e = some (r, e')) : errnoKernel (fun _ _ _ _ => True) c e r e' := by
  cases c with
  | errno =>
    cases h
    exact ⟨rfl, rfl⟩
  | injecting =>
    cases h
    rfl
  | seize exitKill =>
    cases h
    exact ⟨trivial, nofun⟩
  | _ => trivial

/-- The event is no request that failed. -/
def seizeAnswered : TargetEvent → Bool
  | ⟨.seize _, (failure : Option Nat)⟩ => failure.isNone
  | _ => true

/-- The request succeeds, and the target is attached to and injected again. -/
theorem injected_twice :
    ∃ tr, Runs (errnoKernel fun _ _ _ _ => True) (traceTarget 8 .standalone) 0 tr false eio ∧
      ⟨.seize false, none⟩ ∈ tr ∧ ¬ SeizeRefused tr ∧ ⟨.attach, true⟩ ∈ tr ∧
      tr.countP (fun ev => ev.1.isInjecting) = 2 := by
  have hrun := runs_drive_get unreadableAnswers_kernel
    (show (drive unreadableAnswers (traceTarget 8 .standalone) 0).isSome = true from rfl)
  refine ⟨_, hrun, mem_of_getElem? (i := 0) rfl, ?_, mem_of_getElem? (i := 9) rfl, rfl⟩
  rintro ⟨exitKill, hmem⟩
  exact Bool.noConfusion (all_eq_true.mp (show List.all _ seizeAnswered = true from rfl) _ hmem)

end NyaZygisk
