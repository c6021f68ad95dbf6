import NyaZygisk.FlagCache
import NyaZygisk.ZygiskModules

/-!
# Forking an app

`nativeForkAndSpecialize_pre` and `app_specialize_pre` of `module.cpp`: zygote may look for
mounts to detach before it forks, and the child asks the daemon for its flags. What the
daemon, the file system and `check_zygote_traces` answer is given.
-/

namespace NyaZygisk

/-- What `abort_zygote_unmount` and the detaching look at in a `mount_info`. -/
structure MountTrace where
  id : Nat
  target : List Char
deriving DecidableEq

/-- The history of zygote, in `HookContext`. -/
structure Zygote where
  unmountedTimes : Nat
  traces : List MountTrace
deriving DecidableEq

/-- The arguments of the fork request that are looked at. -/
structure AppArgs where
  uid : UInt32
  /-- `app_data_dir`, if it is given and its characters are available. -/
  appDataDir : Option (List Char)
  niceName : List Char
deriving DecidableEq

structure ForkEnv where
  getProcessFlags : UInt32 → UInt32
  /-- `zygiskd::Connect(1)` succeeds. -/
  connects : Bool
  checkZygoteTraces : UInt32 → Nat → List MountTrace
  /-- `umount2` of the target succeeds. -/
  umount2 : List Char → Bool
  /-- The owner that `stat` gives. -/
  stat : List Char → Option UInt32

/-- The fields of `ZygiskContext` that the child goes on with. -/
structure ForkContext where
  flags : BitVec 32
  infoFlags : UInt32
  /-- `run_modules_pre` was called. -/
  runsModules : Bool
deriving DecidableEq

def appForkAndSpecialize : BitVec 32 := 2
def doRevertUnmount : BitVec 32 := 16

def unmountMask : UInt32 := ProcessFlags.onDenylist

def abortZygoteUnmount (traces : List MountTrace) (infoFlags : UInt32) : Bool :=
  let isMagisk := infoFlags &&& ProcessFlags.rootIsMagisk != 0
  traces.isEmpty ||
    traces.any (fun trace => decide ("/font".toList <:+: trace.target)) ||
    traces.any fun trace =>
      if ¬ "/product".toList <+: trace.target then false
      else if "/product/bin".toList <+: trace.target then false
      else !(!isMagisk && trace.target != "/product".toList)

def isIsolatedAid (uid : UInt32) : Bool := 90000 ≤ uid && uid ≤ 99999

/-- The uid that `app_specialize_pre` asks the daemon about. -/
def correctedUid (env : ForkEnv) (args : AppArgs) : UInt32 :=
  if isIsolatedAid args.uid then
    match args.appDataDir with
    | none => args.uid
    | some dir => (env.stat dir).getD args.uid
  else args.uid

def appSpecializePre (env : ForkEnv) (args : AppArgs) (ctx : ForkContext) : ForkContext :=
  let uid := correctedUid env args
  let skipZygiskd := isIsolatedAid args.uid && !env.connects
  let infoFlags :=
    if !skipZygiskd && ctx.infoFlags == 0 then env.getProcessFlags uid else ctx.infoFlags
  let flags := if infoFlags &&& unmountMask = unmountMask then ctx.flags ||| doRevertUnmount else ctx.flags
  let flags := if args.niceName = "webview_zygote".toList then flags ||| doRevertUnmount else flags
  let excluded := infoFlags &&& ProcessFlags.excluded == ProcessFlags.excluded
  ⟨flags ||| appSpecialize, infoFlags, !skipZygiskd && !excluded⟩

/-- `nativeForkAndSpecialize_pre`: the context of the child, and zygote after it. -/
def nativeForkAndSpecializePre (env : ForkEnv) (args : AppArgs) (z : Zygote) : ForkContext × Zygote :=
  if z.unmountedTimes < 5 ∧ z.traces = [] then
    let infoFlags := env.getProcessFlags args.uid
    let traces := env.checkZygoteTraces infoFlags z.unmountedTimes
    let child := appSpecializePre env args ⟨appForkAndSpecialize, infoFlags, false⟩
    if abortZygoteUnmount traces infoFlags then (child, { z with traces := traces })
    else (child, ⟨z.unmountedTimes + 1, traces.filter fun trace => !env.umount2 trace.target⟩)
  else (appSpecializePre env args ⟨appForkAndSpecialize, 0, false⟩, z)

def childContext (env : ForkEnv) (args : AppArgs) (z : Zygote) : ForkContext :=
  (nativeForkAndSpecializePre env args z).1

namespace SpecializeLemmas

variable {env : ForkEnv}

/-- The child before `app_specialize_pre`, by zygote's history. -/
theorem childContext_eq (env : ForkEnv) (args : AppArgs) (z : Zygote) :
    childContext env args z = appSpecializePre env args ⟨appForkAndSpecialize,
      if z.unmountedTimes < 5 ∧ z.traces = [] then env.getProcessFlags args.uid else 0, false⟩ := by
  unfold childContext nativeForkAndSpecializePre
  split
  · simp only
    split <;> rfl
  · rfl

/-- Flags that zygote has asked for are kept, unless there are none. -/
theorem appSpecializePre_infoFlags (hconnects : env.connects = true) (args : AppArgs) (ctx : ForkContext) :
    (appSpecializePre env args ctx).infoFlags =
      if ctx.infoFlags = 0 then env.getProcessFlags (correctedUid env args) else ctx.infoFlags := by
  change (if (!(isIsolatedAid args.uid && !env.connects) && ctx.infoFlags == 0) = true then _ else _) = _
  simp only [hconnects, Bool.not_true, Bool.and_false, Bool.not_false, Bool.true_and, beq_iff_eq]

/-- The flags of the child, by what zygote did before the fork. -/
theorem child_infoFlags (hconnects : env.connects = true) (args : AppArgs) (z : Zygote) :
    (childContext env args z).infoFlags =
      if z.unmountedTimes < 5 ∧ z.traces = [] ∧ env.getProcessFlags args.uid ≠ 0 then
        env.getProcessFlags args.uid
      else env.getProcessFlags (correctedUid env args) := by
  rw [childContext_eq, appSpecializePre_infoFlags hconnects]
  by_cases hlooks : z.unmountedTimes < 5 ∧ z.traces = []
  · rw [if_pos hlooks]
    by_cases hzero : env.getProcessFlags args.uid = 0
    · rw [if_pos hzero, if_neg fun h => h.2.2 hzero]
    · rw [if_neg hzero, if_pos ⟨hlooks.1, hlooks.2, hzero⟩]
  · rw [if_neg hlooks, if_pos rfl, if_neg fun h => hlooks ⟨h.1, h.2.1⟩]

theorem appSpecializePre_congr (hconnects : env.connects = true) (args : AppArgs) {ctx ctx' : ForkContext}
    (hflags : ctx.flags = ctx'.flags)
    (hinfo : (appSpecializePre env args ctx).infoFlags = (appSpecializePre env args ctx').infoFlags) :
    appSpecializePre env args ctx = appSpecializePre env args ctx' := by
  rw [appSpecializePre_infoFlags hconnects, appSpecializePre_infoFlags hconnects] at hinfo
  simp only [appSpecializePre, hconnects, hflags, Bool.not_true, Bool.and_false, Bool.not_false,
    Bool.true_and, beq_iff_eq, hinfo]

end SpecializeLemmas

open SpecializeLemmas

/-- Zygote's past does not show in a child exactly when the daemon has no flags for the
uid of the request, or the same as for the uid that owns the app's data. -/
theorem treatment_history_independent_iff (env : ForkEnv) (hconnects : env.connects = true)
    (args : AppArgs) :
    (∀ z z', childContext env args z = childContext env args z' ∧
        (childContext env args z).infoFlags = env.getProcessFlags (correctedUid env args)) ↔
      env.getProcessFlags args.uid = 0 ∨
        env.getProcessFlags args.uid = env.getProcessFlags (correctedUid env args) := by
  constructor
  · intro h
    -- A zygote that has not looked for mounts yet asks about the uid of the request.
    have hfresh := (h ⟨0, []⟩ ⟨0, []⟩).2
    rw [child_infoFlags hconnects] at hfresh
    by_cases hzero : env.getProcessFlags args.uid = 0
    · exact .inl hzero
    · rw [if_pos ⟨by decide, rfl, hzero⟩] at hfresh
      exact .inr hfresh
  · intro h
    have hinfo : ∀ z, (childContext env args z).infoFlags = env.getProcessFlags (correctedUid env args) := by
      intro z
      rw [child_infoFlags hconnects]
      split
      · next hasked => exact h.resolve_left hasked.2.2
      · rfl
    intro z z'
    refine ⟨?_, hinfo z⟩
    have hsame := (hinfo z).trans (hinfo z').symm
    rw [childContext_eq, childContext_eq] at hsame ⊢
    exact appSpecializePre_congr hconnects args rfl hsame

/-- KernelSU, one app on the denylist with uid 10001, and its data in `/data/app`. -/
def denylistEnv : ForkEnv where
  getProcessFlags := fun uid => processFlags ⟨.kernelSU, false, false, uid == 10001⟩ none
  connects := true
  checkZygoteTraces := fun _ _ => []
  umount2 := fun _ => true
  stat := fun _ => some 10001

/-- The app itself is treated alike after every history. -/
theorem treatment_history_independent_iff_app :
    denylistEnv.connects = true ∧
      ∀ z z', childContext denylistEnv ⟨10001, none, []⟩ z = childContext denylistEnv ⟨10001, none, []⟩ z' ∧
        (childContext denylistEnv ⟨10001, none, []⟩ z).infoFlags =
          denylistEnv.getProcessFlags (correctedUid denylistEnv ⟨10001, none, []⟩) :=
  ⟨rfl, (treatment_history_independent_iff denylistEnv rfl ⟨10001, none, []⟩).mpr (.inr (by decide))⟩

/-- An isolated process of the app is on the denylist or not, by how often zygote has
looked for mounts. -/
theorem treatment_depends_on_history :
    (childContext denylistEnv ⟨90001, some "/data/app".toList, []⟩ ⟨0, []⟩).infoFlags =
        ProcessFlags.rootIsKsu ∧
      (childContext denylistEnv ⟨90001, some "/data/app".toList, []⟩ ⟨5, []⟩).infoFlags =
        ProcessFlags.rootIsKsu ||| ProcessFlags.onDenylist ∧
      childContext denylistEnv ⟨90001, some "/data/app".toList, []⟩ ⟨0, []⟩ ≠
        childContext denylistEnv ⟨90001, some "/data/app".toList, []⟩ ⟨5, []⟩ := by
  decide

end NyaZygisk
