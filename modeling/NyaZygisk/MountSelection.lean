import NyaZygisk.MountInfoLines
import NyaZygisk.Specialize

/-!
# Which mounts are taken for traces

`check_zygote_traces` of `unmount.cpp` and `clean_mount_namespace` of `mount.rs` choose from one
mount table what a root implementation has mounted. Both look for the loop device that holds the
modules of KernelSU, in different ways.
-/

namespace NyaZygisk

open List

abbrev MountInfo : Type := MountInfoLines.Mount (List Char)

def MountInfo.trace (m : MountInfo) : MountTrace := ⟨m.id, m.target⟩

def modulesTarget : List Char := "/data/adb/modules".toList

/-- A mount of the directory `/data/adb/modules` of some file system, or on it. -/
def MountInfo.ofModules (m : MountInfo) : Bool :=
  "/adb/modules".toList.isPrefixOf m.root || modulesTarget.isPrefixOf m.target

def MountInfo.isLoop (m : MountInfo) : Bool := "/dev/block/loop".toList.isPrefixOf m.source

/-- The order in which both detach: descending mount ids. Ids are unique, so it does not matter that
`std::sort` is not stable. -/
def sortById (mounts : List MountInfo) : List MountInfo :=
  mounts.mergeSort fun a b => decide (b.id ≤ a.id)

/-! ## The injector -/

/-- The root implementation that `check_zygote_traces` takes from the flags. -/
def rootOfFlags (infoFlags : UInt32) : Option RootImpl :=
  if infoFlags &&& ProcessFlags.rootIsApatch ≠ 0 then some .aPatch
  else if infoFlags &&& ProcessFlags.rootIsKsu ≠ 0 then some .kernelSU
  else if infoFlags &&& ProcessFlags.rootIsMagisk ≠ 0 then some .magisk
  else none

def mountSourceName : RootImpl → List Char
  | .aPatch => "APatch".toList
  | .kernelSU => "KSU".toList
  | .magisk => "magisk".toList
  | _ => []

/-- `kernel_su_module_source`, empty if there is none: the first loop device on the target. -/
def kernelSuModuleSource (root : RootImpl) (table : List MountInfo) : List Char :=
  if root = .kernelSU then
    match table.find? fun m => decide (m.target = modulesTarget) && m.isLoop with
    | some m => m.source
    | none => []
  else []

/-- The loop of `check_zygote_traces` chooses the mount. -/
def isTrace (root : RootImpl) (table : List MountInfo) (m : MountInfo) : Bool :=
  m.ofModules || m.source == mountSourceName root ||
    (!(kernelSuModuleSource root table).isEmpty && m.source == kernelSuModuleSource root table)

def checkZygoteTraces (table : List MountInfo) (infoFlags : UInt32) : List MountInfo :=
  match rootOfFlags infoFlags with
  | none => []
  | some root => sortById (table.filter (isTrace root table))

/-! ## The daemon -/

/-- `MountInfo::mount_source` of the daemon, which has no source for `none`. -/
def MountInfo.mountSource (m : MountInfo) : Option (List Char) :=
  if m.source = "none".toList then none else some m.source

def rootSources : List (List Char) :=
  ["magisk".toList, "KSU".toList, "APatch".toList, "kpatch".toList]

/-- `ksu_module_source`: the source of the first mount on the target, if it is a loop device. -/
def ksuModuleSource (root : RootImpl) (table : List MountInfo) : Option (List Char) :=
  if root = .kernelSU then
    ((table.find? fun m => decide (m.target = modulesTarget)).bind MountInfo.mountSource).filter
      ("/dev/block/loop".toList.isPrefixOf ·)
  else none

/-- The loop of `clean_mount_namespace` chooses the mount. -/
def isUnmountTarget (root : RootImpl) (table : List MountInfo) (m : MountInfo) : Bool :=
  m.ofModules || m.mountSource.any (rootSources.contains ·) ||
    ((ksuModuleSource root table).isSome && m.mountSource == ksuModuleSource root table)

/-- The mounts that `clean_mount_namespace` detaches, in its order. -/
def unmountTargets (table : List MountInfo) (root : RootImpl) : List MountInfo :=
  sortById (table.filter (isUnmountTarget root table))

/-! ## Comparison -/

/-- The loop device is on the first mount of the target, or not on any. -/
def LoopFirst (table : List MountInfo) : Prop :=
  ∀ m, (table.find? fun m => decide (m.target = modulesTarget)) = some m → m.isLoop = true

/-- Everything on the loop device of the modules is chosen without it. -/
def LoopChosen (table : List MountInfo) : Prop :=
  ∀ loop, (table.find? fun m => decide (m.target = modulesTarget) && m.isLoop) = some loop →
    ∀ m ∈ table, m.source = loop.source → m.ofModules = true

namespace MountSelectionLemmas

variable {table : List MountInfo} {first m : MountInfo} {root : RootImpl}

theorem mem_sortById {mounts : List MountInfo} :
    m ∈ sortById mounts ↔ m ∈ mounts := mem_mergeSort

theorem pairwise_sortById (mounts : List MountInfo) :
    (sortById mounts).Pairwise fun a b => b.id ≤ a.id := by
  have htrans : ∀ a b c : MountInfo, decide (b.id ≤ a.id) = true → decide (c.id ≤ b.id) = true →
      decide (c.id ≤ a.id) = true := fun a b c hab hbc =>
    decide_eq_true (Nat.le_trans (of_decide_eq_true hbc) (of_decide_eq_true hab))
  have htotal : ∀ a b : MountInfo, (decide (b.id ≤ a.id) || decide (a.id ≤ b.id)) = true := by
    intro a b
    rw [Bool.or_eq_true, decide_eq_true_eq, decide_eq_true_eq]
    exact Nat.le_total b.id a.id
  exact (pairwise_mergeSort htrans htotal mounts).imp of_decide_eq_true

theorem mem_checkZygoteTraces {infoFlags : UInt32}
    (hroot : rootOfFlags infoFlags = some root) :
    m ∈ checkZygoteTraces table infoFlags ↔ m ∈ table ∧ isTrace root table m = true := by
  simp only [checkZygoteTraces, hroot, mem_sortById, mem_filter]

theorem mem_unmountTargets :
    m ∈ unmountTargets table root ↔ m ∈ table ∧ isUnmountTarget root table m = true := by
  simp only [unmountTargets, mem_sortById, mem_filter]

theorem find?_and {α : Type} {p q : α → Bool} {l : List α} {a : α} (h : l.find? p = some a)
    (hq : q a = true) : (l.find? fun x => p x && q x) = some a := by
  induction l with
  | nil => cases h
  | cons b l ih =>
    rw [find?_cons] at h ⊢
    split at h
    · next hb =>
      cases h
      rw [hb, hq]
      rfl
    · next hb =>
      rw [hb]
      exact ih h

/-- No root implementation mounts a loop device by its own name, or nothing. -/
theorem loop_names {source : List Char} (h : "/dev/block/loop".toList.isPrefixOf source = true) :
    source ≠ [] ∧ source ≠ "none".toList ∧ rootSources.contains source = false := by
  obtain ⟨rest, rfl⟩ := isPrefixOf_iff_prefix.mp h
  exact ⟨nofun, nofun, rfl⟩

theorem mountSource_of_loop (h : m.isLoop = true) : m.mountSource = some m.source :=
  if_neg (loop_names h).2.1

/-- A loop device on the first mount is found by both. -/
theorem ksuModuleSource_first
    (hfirst : (table.find? fun m => decide (m.target = modulesTarget)) = some first)
    (hloop : first.isLoop = true) : ksuModuleSource .kernelSU table = some first.source := by
  rw [ksuModuleSource, if_pos rfl, hfirst, Option.bind_some, mountSource_of_loop hloop]
  exact Option.filter_some_pos hloop

/-- With anything else there, the daemon finds none. -/
theorem ksuModuleSource_other
    (hfirst : (table.find? fun m => decide (m.target = modulesTarget)) = some first)
    (hloop : first.isLoop = false) : ksuModuleSource .kernelSU table = none := by
  rw [ksuModuleSource, if_pos rfl, hfirst, Option.bind_some, MountInfo.mountSource]
  split
  · rfl
  · exact Option.filter_some_neg hloop

theorem isTrace_iff :
    isTrace root table m = true ↔
      m.ofModules = true ∨ m.source = mountSourceName root ∨
        root = .kernelSU ∧
          ∃ loop, (table.find? fun m => decide (m.target = modulesTarget) && m.isLoop) = some loop ∧
            m.source = loop.source := by
  have hsource : (!(kernelSuModuleSource root table).isEmpty &&
        m.source == kernelSuModuleSource root table) = true ↔
      root = .kernelSU ∧
        ∃ loop, (table.find? fun m => decide (m.target = modulesTarget) && m.isLoop) = some loop ∧
          m.source = loop.source := by
    unfold kernelSuModuleSource
    split
    · next hroot =>
      split
      · next loop hfound =>
        have hloop := find?_some hfound
        rw [Bool.and_eq_true] at hloop
        have hne := (loop_names hloop.2).1
        simp [hroot, hne, hfound]
      · next hnone => simp [hnone]
    · next hroot => simp [hroot]
  rw [isTrace, Bool.or_eq_true, Bool.or_eq_true, hsource, beq_iff_eq, or_assoc]

/-- What the root implementation mounts under its own name is chosen by the daemon. -/
theorem isUnmountTarget_of_name {infoFlags : UInt32}
    (hroot : rootOfFlags infoFlags = some root) (table : List MountInfo)
    (h : m.source = mountSourceName root) : isUnmountTarget root table m = true := by
  have hname : (m.mountSource.any (rootSources.contains ·)) = true := by
    rw [MountInfo.mountSource, h]
    unfold rootOfFlags at hroot
    split at hroot
    · cases hroot; rfl
    · split at hroot
      · cases hroot; rfl
      · split at hroot
        · cases hroot; rfl
        · cases hroot
  rw [isUnmountTarget, hname, Bool.or_true, Bool.true_or]

theorem isUnmountTarget_of_loop
    (hfirst : (table.find? fun m => decide (m.target = modulesTarget)) = some first)
    (hloop : first.isLoop = true) (h : m.source = first.source) :
    isUnmountTarget .kernelSU table m = true := by
  have hm : m.isLoop = true := by
    rw [MountInfo.isLoop, h]
    exact hloop
  rw [isUnmountTarget, ksuModuleSource_first hfirst hloop, mountSource_of_loop hm, h]
  simp

/-- Without a device of its own, the daemon chooses a mount of a loop device by its places only. -/
theorem ofModules_of_isUnmountTarget
    (hksu : ksuModuleSource .kernelSU table = none)
    (hm : "/dev/block/loop".toList.isPrefixOf m.source = true)
    (h : isUnmountTarget .kernelSU table m = true) : m.ofModules = true := by
  have hname : (m.mountSource.any (rootSources.contains ·)) = false := by
    rw [mountSource_of_loop hm]
    exact (loop_names hm).2.2
  rw [isUnmountTarget, hksu, hname] at h
  simpa using h

/-- A mount of the modules' loop device is itself one of a loop device. -/
theorem isLoop_of_source {loop : MountInfo}
    (hloop : (table.find? fun m => decide (m.target = modulesTarget) && m.isLoop) = some loop)
    (hsource : m.source = loop.source) : m.isLoop = true := by
  have hdevice := find?_some hloop
  rw [Bool.and_eq_true] at hdevice
  rw [MountInfo.isLoop, hsource]
  exact hdevice.2

/-- If the first mount on the target is a loop device, it is the one that the injector finds. -/
theorem find?_of_loopFirst (hfirst : LoopFirst table) {loop : MountInfo}
    (hloop : (table.find? fun m => decide (m.target = modulesTarget) && m.isLoop) = some loop) :
    (table.find? fun m => decide (m.target = modulesTarget)) = some loop := by
  have hdevice := find?_some hloop
  rw [Bool.and_eq_true] at hdevice
  have hsome : (table.find? fun m => decide (m.target = modulesTarget)).isSome = true :=
    find?_isSome.mpr ⟨loop, mem_of_find?_eq_some hloop, hdevice.1⟩
  obtain ⟨first, hfound⟩ := Option.isSome_iff_exists.mp hsome
  have hsame := find?_and hfound (hfirst first hfound)
  rw [hloop] at hsame
  rw [hfound, hsame]

/-- Where the first mount on the target is something else, the daemon has no device. -/
theorem ksuModuleSource_of_not_loopFirst (h : ¬ LoopFirst table) :
    ksuModuleSource .kernelSU table = none := by
  obtain ⟨first, hfirst, hother⟩ : ∃ first,
      (table.find? fun m => decide (m.target = modulesTarget)) = some first ∧ first.isLoop = false := by
    simpa [LoopFirst] using h
  exact ksuModuleSource_other hfirst hother

end MountSelectionLemmas

open MountSelectionLemmas

/-- The daemon chooses every mount that the injector chooses, and both go by descending ids, exactly
if under KernelSU the first mount on `/data/adb/modules` is the loop device with the modules, or
everything on that device is chosen for its root or target. -/
theorem clean_covers_traces_iff (table : List MountInfo) {infoFlags : UInt32} {root : RootImpl}
    (hroot : rootOfFlags infoFlags = some root) :
    ((∀ m ∈ checkZygoteTraces table infoFlags, m ∈ unmountTargets table root) ∧
      (checkZygoteTraces table infoFlags).Pairwise (fun a b => b.id ≤ a.id) ∧
      (unmountTargets table root).Pairwise fun a b => b.id ≤ a.id) ↔
    (root = .kernelSU → LoopFirst table ∨ LoopChosen table) := by
  have hsorted : (checkZygoteTraces table infoFlags).Pairwise fun a b => b.id ≤ a.id := by
    rw [checkZygoteTraces, hroot]
    exact pairwise_sortById _
  have hsorted' : (unmountTargets table root).Pairwise fun a b => b.id ≤ a.id := pairwise_sortById _
  simp only [mem_checkZygoteTraces hroot, mem_unmountTargets, isTrace_iff]
  constructor
  · rintro ⟨hcover, -, -⟩ rfl
    by_cases hloopFirst : LoopFirst table
    · exact .inl hloopFirst
    · right
      intro loop hloop m hm hsource
      exact ofModules_of_isUnmountTarget (ksuModuleSource_of_not_loopFirst hloopFirst)
        (isLoop_of_source hloop hsource) (hcover m ⟨hm, .inr (.inr ⟨rfl, loop, hloop, hsource⟩)⟩).2
  · refine fun hcond => ⟨?_, hsorted, hsorted'⟩
    rintro m ⟨hm, hmodules | hname | ⟨rfl, loop, hloop, hsource⟩⟩
    · exact ⟨hm, by rw [isUnmountTarget, hmodules, Bool.true_or, Bool.true_or]⟩
    · exact ⟨hm, isUnmountTarget_of_name hroot table hname⟩
    · refine ⟨hm, ?_⟩
      rcases hcond rfl with hfirst | hchosen
      · have hfound := find?_of_loopFirst hfirst hloop
        exact isUnmountTarget_of_loop hfound (hfirst loop hfound) hsource
      · rw [isUnmountTarget, hchosen loop hloop m hm hsource, Bool.true_or, Bool.true_or]

/-- KernelSU with its modules on a loop device, and one of them mounted over the system. -/
def loopTable : List MountInfo :=
  [⟨20, 1, "/".toList, modulesTarget, "/dev/block/loop7".toList⟩,
    ⟨30, 1, "/m/system".toList, "/system/etc".toList, "/dev/block/loop7".toList⟩]

theorem clean_covers_traces_iff_loop :
    rootOfFlags ProcessFlags.rootIsKsu = some .kernelSU ∧
      ∀ m ∈ checkZygoteTraces loopTable ProcessFlags.rootIsKsu, m ∈ unmountTargets loopTable .kernelSU := by
  have hroot : rootOfFlags ProcessFlags.rootIsKsu = some .kernelSU := by decide
  refine ⟨hroot, ((clean_covers_traces_iff loopTable hroot).mpr fun _ => .inl ?_).1⟩
  intro m hm
  cases hm
  rfl

/-- The same with another mount on the target before the loop device. -/
def coveredTable : List MountInfo :=
  ⟨10, 1, "/".toList, modulesTarget, "tmpfs".toList⟩ :: loopTable

/-- The daemon leaves the mount over the system. -/
theorem clean_misses_trace :
    rootOfFlags ProcessFlags.rootIsKsu = some .kernelSU ∧
      ∃ m, m ∈ checkZygoteTraces coveredTable ProcessFlags.rootIsKsu ∧
        m ∉ unmountTargets coveredTable .kernelSU := by
  have hroot : rootOfFlags ProcessFlags.rootIsKsu = some .kernelSU := by decide
  refine ⟨hroot, ⟨30, 1, "/m/system".toList, "/system/etc".toList, "/dev/block/loop7".toList⟩, ?_, ?_⟩
  · exact (mem_checkZygoteTraces hroot).mpr ⟨by decide, by decide⟩
  · exact fun h => absurd (mem_unmountTargets.mp h).2 (by decide)

end NyaZygisk
