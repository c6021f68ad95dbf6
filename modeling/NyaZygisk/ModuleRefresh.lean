import NyaZygisk.DaemonPeers

/-!
# A refresh is all or nothing

`refresh_modules` is documented to leave the daemon serving the previous set of modules if the scan
fails, "rather than an empty or partial one". The scan fails as a whole when the directory cannot be
opened; an entry that cannot be read and a library that cannot be copied are left out of it.
-/

namespace NyaZygisk

open List

/-- What `fs::read_dir` comes upon: each entry with whether it can be read. -/
inductive Listing
  | entries (entries : List (DirEntry × Bool))
  | notFound
  | failed

/-- `dir.flatten()`. -/
def Listing.flatten : Listing → ReadDir
  | .entries found => .entries (found.filterMap fun entry => if entry.2 then some entry.1 else none)
  | .notFound => .notFound
  | .failed => .failed

/-- What there is in the module directory. -/
def Listing.all : Listing → List (DirEntry × Bool)
  | .entries found => found
  | .notFound | .failed => []

structure Rescan where
  os : Os
  listing : Listing

namespace Rescan

variable (r : Rescan)

def answers : Os :=
  { r.os with
    readDir := fun path => if path = pathModulesDir then r.listing.flatten else r.os.readDir path }

def libraryPath (arch : String) (entry : DirEntry) : PathBuf :=
  entry.path.join ⟨false, ["zygisk", arch ++ ".so"]⟩

/-- A module that is not disabled and has a library for this architecture. -/
def isInstalled (arch : String) (entry : DirEntry × Bool) : Bool :=
  r.os.pathExists (libraryPath arch entry.1) &&
    !r.os.pathExists (entry.1.path.join ⟨false, ["disable"]⟩)

def installed (arch : String) : List (DirEntry × Bool) := r.listing.all.filter (r.isInstalled arch)

/-- The entry can be read, and its library opened and copied into a memfd. -/
def loads (arch : String) (entry : DirEntry × Bool) : Bool :=
  entry.2 && (r.os.openFile (libraryPath arch entry.1)).isSome &&
    r.os.copyToMemfd (libraryPath arch entry.1)

/-- A module is published under its name with its library. -/
def Serves (arch : String) (entry : DirEntry × Bool) (served : String × Option (List UInt8)) : Prop :=
  ∃ content, r.os.openFile (libraryPath arch entry.1) = some content ∧
    served = (entry.1.fileName.getD "", some content)

/-- Each installed module has a place of its own in a snapshot. -/
def Contains (snapshot : List (String × Option (List UInt8))) : Prop :=
  ∃ arch, getArch r.os.toScanOs = some arch ∧
    ∃ part, part.Sublist snapshot ∧ List.Forall₂ (r.Serves arch) (r.installed arch) part

/-- The daemon is as it was and an error was returned, or every installed module is published. -/
def AllOrNothing (d : Daemon) : Prop :=
  d.refreshModules r.answers = (false, d) ∨ r.Contains (d.refreshModules r.answers).2.published

/-- The scan fails outright: the architecture is none that is known, or the directory cannot be
opened. -/
def ScanFails : Prop := getArch r.os.toScanOs = none ∨ r.listing = .failed

/-- Nothing goes wrong with an installed module. -/
def InstalledLoad : Prop :=
  ∀ arch, getArch r.os.toScanOs = some arch → ∀ entry ∈ r.installed arch,
    r.loads arch entry = true

end Rescan

namespace ModuleRefreshLemmas

variable {r : Rescan} {arch : String}

/-- The part of the scan that one entry of the directory has. -/
def scanned (r : Rescan) (arch : String) (entry : DirEntry × Bool) : Option (String × MemFile) :=
  if entry.2 then loadModule r.os.toScanOs arch entry.1 else none

theorem filterMap_flatten (entries : List (DirEntry × Bool)) :
    (entries.filterMap fun entry => if entry.2 then some entry.1 else none).filterMap
        (loadModule r.os.toScanOs arch) = entries.filterMap (scanned r arch) := by
  rw [filterMap_filterMap]
  congr 1
  funext ⟨entry, readable⟩
  cases readable <;> rfl

theorem loadModules_scanFails (h : r.ScanFails) : loadModules r.answers.toScanOs = none := by
  rw [loadModules, show getArch r.answers.toScanOs = getArch r.os.toScanOs from rfl]
  rcases h with harch | hfailed
  · rw [harch]
  · cases getArch r.os.toScanOs with
    | none => rfl
    | some arch => simp [Rescan.answers, hfailed, Listing.flatten]

theorem loadModules_scanned (harch : getArch r.os.toScanOs = some arch)
    (hlisting : r.listing ≠ .failed) :
    loadModules r.answers.toScanOs = some (r.listing.all.filterMap (scanned r arch)) := by
  have hdir : r.answers.readDir pathModulesDir = r.listing.flatten := by
    simp only [Rescan.answers, if_true]
  rw [loadModules, show getArch r.answers.toScanOs = getArch r.os.toScanOs from rfl, harch]
  simp only [hdir]
  cases hcases : r.listing with
  | entries found => exact congrArg some (filterMap_flatten found)
  | notFound => rfl
  | failed => exact absurd hcases hlisting

theorem content_createLibraryFd {os : ScanOs} {soPath : PathBuf} {file : MemFile}
    (h : createLibraryFd os soPath = some file) : os.openFile soPath = some file.content := by
  unfold createLibraryFd at h
  cases hopen : os.openFile soPath with
  | none => rw [hopen] at h; cases h
  | some content =>
    rw [hopen] at h
    simp only [Option.ite_none_right_eq_some, Option.some.injEq] at h
    rw [← h.2]

theorem loadModule_eq (entry : DirEntry × Bool) :
    loadModule r.os.toScanOs arch entry.1 =
      if r.isInstalled arch entry then
        (createLibraryFd r.os.toScanOs (Rescan.libraryPath arch entry.1)).map
          fun libFd => (entry.1.fileName.getD "", libFd)
      else none := by
  have hskipped : (!r.os.pathExists (Rescan.libraryPath arch entry.1) ||
      r.os.pathExists (entry.1.path.join ⟨false, ["disable"]⟩)) = !r.isInstalled arch entry := by
    rw [Rescan.isInstalled, Bool.not_and, Bool.not_not]
  cases hinstalled : r.isInstalled arch entry with
  | false =>
    rw [hinstalled] at hskipped
    exact if_pos hskipped
  | true =>
    rw [hinstalled] at hskipped
    exact if_neg (Bool.not_eq_true _ ▸ hskipped)

theorem scanned_eq (entry : DirEntry × Bool) :
    scanned r arch entry =
      if entry.2 && r.isInstalled arch entry then
        (createLibraryFd r.os.toScanOs (Rescan.libraryPath arch entry.1)).map
          fun libFd => (entry.1.fileName.getD "", libFd)
      else none := by
  rw [scanned, loadModule_eq]
  cases entry.2 <;> rfl

/-- An entry is loaded exactly when it is that of an installed module and nothing goes wrong. -/
theorem isSome_scanned (entry : DirEntry × Bool) :
    (scanned r arch entry).isSome = (r.isInstalled arch entry && r.loads arch entry) := by
  rw [scanned_eq, Rescan.loads, Bool.and_assoc entry.2, ← isSome_createLibraryFd,
    ← Bool.and_assoc, Bool.and_comm _ entry.2]
  cases entry.2 && r.isInstalled arch entry
  · rfl
  · exact Option.isSome_map

theorem serves_scanned {entry : DirEntry × Bool} {loaded : String × MemFile}
    (h : scanned r arch entry = some loaded) :
    r.Serves arch entry (loaded.1, some loaded.2.content) := by
  rw [scanned_eq, Option.ite_none_right_eq_some] at h
  obtain ⟨file, hfile, rfl⟩ := Option.map_eq_some_iff.mp h.2
  exact ⟨file.content, content_createLibraryFd hfile, rfl⟩

/-! ## The list that a scan publishes -/

/-- What is published for what was loaded. -/
def served (loaded : List (String × MemFile)) : List (String × Option (List UInt8)) :=
  loaded.map fun x => (x.1, some x.2.content)

theorem published_refreshModules {d : Daemon} {os : Os} {loaded : List (String × MemFile)}
    (h : loadModules os.toScanOs = some loaded) :
    (d.refreshModules os).1 = true ∧ (d.refreshModules os).2.published = served loaded := by
  rw [Daemon.refreshModules, h]
  exact ⟨rfl, (DaemonPeersLemmas.numberModules_spec d.memfds loaded).1⟩

/-- Where everything installed is loaded, the places of the modules follow the directory. -/
theorem forall₂_scanned {entries : List (DirEntry × Bool)}
    (h : ∀ entry ∈ entries.filter (r.isInstalled arch), r.loads arch entry = true) :
    List.Forall₂ (r.Serves arch) (entries.filter (r.isInstalled arch))
      (served (entries.filterMap (scanned r arch))) := by
  induction entries with
  | nil => exact .nil
  | cons entry rest ih =>
    have hsome : (scanned r arch entry).isSome = (r.isInstalled arch entry && r.loads arch entry) :=
      isSome_scanned entry
    cases hinstalled : r.isInstalled arch entry with
    | false =>
      rw [hinstalled, Bool.false_and, Option.isSome_eq_false_iff, Option.isNone_iff_eq_none] at hsome
      rw [filter_cons_of_neg (by simp [hinstalled])] at h ⊢
      rw [filterMap_cons_none hsome]
      exact ih h
    | true =>
      rw [filter_cons_of_pos hinstalled] at h ⊢
      rw [hinstalled, h entry mem_cons_self] at hsome
      obtain ⟨loaded, hloaded⟩ := Option.isSome_iff_exists.mp hsome
      rw [filterMap_cons_some hloaded]
      exact .cons (serves_scanned hloaded) (ih fun e he => h e (mem_cons_of_mem _ he))

/-- Fewer are loaded than are installed as soon as one of them is not. -/
theorem loads_of_length_le {entries : List (DirEntry × Bool)}
    (h : (entries.filter (r.isInstalled arch)).length ≤
      (entries.filterMap (scanned r arch)).length) :
    ∀ entry ∈ entries.filter (r.isInstalled arch), r.loads arch entry = true := by
  have hsub : (entries.filter fun entry => (scanned r arch entry).isSome).Sublist
      (entries.filter (r.isInstalled arch)) := by
    refine monotone_filter_right entries fun entry hentry => ?_
    rw [isSome_scanned, Bool.and_eq_true] at hentry
    exact hentry.1
  have hlength : (entries.filterMap (scanned r arch)).length =
      (entries.filter fun entry => (scanned r arch entry).isSome).length := by
    rw [length_filterMap_eq_countP, countP_eq_length_filter]
  have heq := hsub.eq_of_length_le (hlength ▸ h)
  intro entry hentry
  rw [← heq] at hentry
  have hloaded := (mem_filter.mp hentry).2
  rw [isSome_scanned, Bool.and_eq_true] at hloaded
  exact hloaded.2

end ModuleRefreshLemmas

open ModuleRefreshLemmas

/-- Whatever the directory holds and whatever goes wrong, a refresh publishes no partial set of
modules exactly when it fails outright or nothing that an installed module needs fails. -/
theorem refresh_all_or_nothing_iff (r : Rescan) (d : Daemon) :
    r.AllOrNothing d ↔ r.ScanFails ∨ r.InstalledLoad := by
  by_cases hfails : r.ScanFails
  · have hsame : d.refreshModules r.answers = (false, d) := by
      rw [Daemon.refreshModules, loadModules_scanFails hfails]
    exact iff_of_true (.inl hsame) (.inl hfails)
  · obtain ⟨harch, hlisting⟩ := not_or.mp hfails
    obtain ⟨arch, harch⟩ := Option.ne_none_iff_exists'.mp harch
    obtain ⟨hok, hpublished⟩ := published_refreshModules (d := d) (loadModules_scanned harch hlisting)
    constructor
    · rintro (hsame | ⟨arch', harch', part, hpart, hserves⟩)
      · rw [hsame] at hok
        cases hok
      · cases harch.symm.trans harch'
        refine .inr fun arch' harch' => ?_
        cases harch.symm.trans harch'
        apply loads_of_length_le
        rw [hpublished] at hpart
        have hle := hpart.length_le
        rwa [← hserves.length_eq, served, length_map] at hle
    · rintro (h | hload)
      · exact absurd h hfails
      · refine .inr ⟨arch, harch, _, ?_, forall₂_scanned (hload arch harch)⟩
        rw [hpublished]

/-- Two modules, and the entry of the second cannot be read. -/
def unreadableEntry : Rescan where
  os :=
    { quietOs (some 0) with
      pathExists := fun path => path.components.getLast? = some "arm64-v8a.so"
      openFile := fun _ => some []
      copyToMemfd := fun _ => true }
  listing := .entries
    [(⟨⟨true, ["data", "adb", "modules", "a"]⟩, some "a"⟩, true),
      (⟨⟨true, ["data", "adb", "modules", "b"]⟩, some "b"⟩, false)]

/-- The refresh succeeds with one module of the two. -/
theorem unreadable_entry_dropped :
    (freshDaemon.refreshModules unreadableEntry.answers).1 = true ∧
      (freshDaemon.refreshModules unreadableEntry.answers).2.published = [("a", some [])] ∧
      ¬ unreadableEntry.AllOrNothing freshDaemon := by
  have hok : (freshDaemon.refreshModules unreadableEntry.answers).1 = true := by decide +kernel
  have hpublished : (freshDaemon.refreshModules unreadableEntry.answers).2.published =
      [("a", some [])] := by decide +kernel
  refine ⟨hok, hpublished, ?_⟩
  rintro (hsame | ⟨arch, harch, part, hpart, hserves⟩)
  · rw [hsame] at hok
    cases hok
  · have harm : getArch unreadableEntry.os.toScanOs = some "arm64-v8a" := by decide +kernel
    cases harm.symm.trans harch
    have hinstalled : (unreadableEntry.installed "arm64-v8a").length = 2 := by decide +kernel
    have hle := hpart.length_le
    rw [hpublished, ← hserves.length_eq, hinstalled] at hle
    exact absurd hle (by decide)

end NyaZygisk
