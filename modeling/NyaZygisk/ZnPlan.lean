import NyaZygisk.ModuleScan
import NyaZygisk.Lib.Firsts

/-!
# Two readers of `zn_modules.txt`

A Zygisk Next module declares its libraries in `zn_modules.txt`, a line for each: the process, then
options, then the library. `scan_zn_modules_for_target` reads the file to make the plan of a
process; `send_startup_info` reads it again, on its own, for the list that is shown to the user.
-/

namespace NyaZygisk.ZnPlan

open List NyaZygisk Text

/-! ## What a line means -/

/-- The names under which every zygote is meant. -/
def zygoteNames : List (List Char) := ["zygote", "zygote64", "zygote32"].map String.toList

/-- The first word of a line names the process. -/
def Names (first : List Char) (processName processPath : String) : Prop :=
  (∃ target, first = "name=".toList ++ target ∧
    if target ∈ zygoteNames then
      containsText processName "zygote" = true ∨ containsText processName "app_process" = true
    else processName.toList = target) ∨
  first = "path=".toList ++ processPath.toList

/-- The words of a line: the process, the options and the library. -/
def HasWords (line first : List Char) (options : List (List Char)) (last : List Char) : Prop :=
  splitWhitespace line = first :: (options ++ [last])

/-- Strictly below a directory. -/
def StrictlyInside (path dir : PathBuf) : Prop :=
  path.absolute = dir.absolute ∧ ∃ below, below ≠ [] ∧ path.components = dir.components ++ below

/-- A file with the magic number and the class of the daemon. -/
def IsElf (os : ScanOs) (path : PathBuf) : Prop :=
  ∃ rest, os.openFile path = some (0x7F :: 0x45 :: 0x4C :: 0x46 :: (if os.is64 then 2 else 1) :: rest)

/-- The line declares the library for the process, with or without a companion. -/
def Declares (os : ScanOs) (processName processPath : String) (modDir : PathBuf) (line : List Char)
    (lib : PathBuf) (companion : Bool) : Prop :=
  ∃ first options last, HasWords line first options last ∧ Names first processName processPath ∧
    (companion = true ↔ "companion".toList ∈ options) ∧
    ∃ dir, os.canonicalize modDir.toString = some dir ∧
      os.canonicalize (joinText modDir.toString (String.ofList last)) = some lib ∧
      StrictlyInside lib dir ∧ IsElf os lib

/-! ## The files that are read -/

/-- A module takes part if it has the file and neither of the two flags. -/
def Enabled (os : ScanOs) (modDir : PathBuf) : Bool :=
  os.pathExists (modDir.join ⟨false, ["zn_modules.txt"]⟩) &&
    !os.pathExists (modDir.join ⟨false, ["disable"]⟩) && !os.pathExists (modDir.join ⟨false, ["remove"]⟩)

/-- The lines of a module, with its directory. -/
def entryLines (os : ScanOs) (entry : DirEntry) : List (PathBuf × List Char) :=
  if Enabled os entry.path then
    match os.readToString (entry.path.join ⟨false, ["zn_modules.txt"]⟩) with
    | some content => (lines content.toList).map fun line => (entry.path, line)
    | none => []
  else []

def moduleEntries (os : ScanOs) : List DirEntry :=
  match os.readDir pathModulesDir with
  | .entries entries => entries
  | _ => []

/-- The lines of all enabled modules in the order of the scan. -/
def scanLines (os : ScanOs) : List (PathBuf × List Char) := (moduleEntries os).flatMap (entryLines os)

/-! ## The list that is shown -/

/-- What `send_startup_info` collects of one module. -/
structure ZnReport where
  targets : List (List Char)
  hasCompanion : Bool
deriving DecidableEq

/-- The body of the loop over the lines in `send_startup_info`. -/
def reportLine (report : ZnReport) (line : List Char) : ZnReport :=
  let parts := splitWhitespace line
  if 2 ≤ parts.length then
    ⟨report.targets ++ [parts.headD []], report.hasCompanion || parts.any (· == "companion".toList)⟩
  else report

def znReport (content : List Char) : ZnReport := (lines content).foldl reportLine ⟨[], false⟩

/-- A line that the plan of some process uses. -/
def CanMatch (line : List Char) : Prop :=
  ∃ first options last, HasWords line first options last ∧
    ∃ processName processPath, Names first processName processPath

/-- The two kinds of first words the plan knows. -/
def IsTarget (first : List Char) : Prop := "name=".toList <+: first ∨ "path=".toList <+: first

/-- A line that declares a companion to the plan. -/
def DeclaresCompanion (line : List Char) : Prop :=
  ∃ first options last, HasWords line first options last ∧ IsTarget first ∧ "companion".toList ∈ options

/-- The shown module agrees with what its file means to the plan. -/
structure Agrees (content : List Char) : Prop where
  companion : (znReport content).hasCompanion = true ↔ ∃ line ∈ lines content, DeclaresCompanion line
  targets : ∀ target, target ∈ (znReport content).targets ↔
    ∃ line ∈ lines content, CanMatch line ∧ (splitWhitespace line).head? = some target

namespace ZnPlanLemmas

/-! ### Words -/

theorem two_le_length_iff {tokens : List (List Char)} :
    2 ≤ tokens.length ↔ ∃ first options last, tokens = first :: (options ++ [last]) := by
  constructor
  · intro h
    match tokens, h with
    | first :: second :: rest, _ =>
      obtain ⟨options, last, hrest⟩ := eq_nil_or_concat (second :: rest) |>.resolve_left (cons_ne_nil _ _)
      exact ⟨first, options, last, by rw [hrest, concat_eq_append]⟩
  · rintro ⟨first, options, last, rfl⟩
    rw [length_cons, length_append, length_singleton]
    exact Nat.le_add_left 2 _

theorem stripPrefix_eq_some {pre text rest : List Char} :
    stripPrefix pre text = some rest ↔ text = pre ++ rest := by
  induction pre generalizing text with
  | nil => exact Option.some_inj
  | cons p pre ih =>
    cases text with
    | nil => exact iff_of_false nofun nofun
    | cons c text =>
      rw [stripPrefix, cons_append, cons_eq_cons, ← ih]
      split
      · next h => exact ⟨fun hrest => ⟨h.symm, hrest⟩, And.right⟩
      · next h => exact iff_of_false nofun fun hrest => h hrest.1.symm

theorem stripPrefix_eq_none {pre text : List Char} : stripPrefix pre text = none ↔ ¬ pre <+: text := by
  rw [Option.eq_none_iff_forall_ne_some]
  constructor
  · rintro h ⟨rest, rfl⟩
    exact h rest (stripPrefix_eq_some.mpr rfl)
  · exact fun h rest hrest => h ⟨rest, (stripPrefix_eq_some.mp hrest).symm⟩

theorem not_name_of_path {rest : List Char} : ¬ "name=".toList <+: "path=".toList ++ rest := by
  rintro ⟨target, h⟩
  exact absurd (head_eq_of_cons_eq h) (by decide)

theorem mem_zygoteNames (target : List Char) :
    (decide (target = "zygote".toList) || decide (target = "zygote64".toList) ||
      decide (target = "zygote32".toList)) = decide (target ∈ zygoteNames) := by
  rw [Bool.eq_iff_iff]
  simp only [zygoteNames, Bool.or_eq_true, decide_eq_true_eq, map_cons, map_nil, mem_cons,
    not_mem_nil, or_false, or_assoc]

variable {processName processPath : String}

theorem targetMatches_iff {first : List Char} :
    targetMatches first processName processPath = true ↔ Names first processName processPath := by
  unfold targetMatches Names
  split
  · next target hname =>
    rw [stripPrefix_eq_some] at hname
    subst hname
    rw [mem_zygoteNames]
    constructor
    · intro h
      refine .inl ⟨target, rfl, ?_⟩
      split at h
      · next hz => rwa [if_pos (of_decide_eq_true hz), ← Bool.or_eq_true]
      · next hz => exact (if_neg (mt decide_eq_true hz)).mpr (of_decide_eq_true h)
    · rintro (⟨target', heq, h⟩ | hpath)
      · obtain rfl := append_cancel_left heq
        split at h
        · next hz => rwa [if_pos (decide_eq_true hz), Bool.or_eq_true]
        · next hz => rwa [if_neg (mt of_decide_eq_true hz), decide_eq_true_iff]
      · exact absurd (hpath ▸ prefix_append _ _) not_name_of_path
  · next hname =>
    rw [stripPrefix_eq_none] at hname
    rw [or_iff_right fun ⟨target, h, _⟩ => hname (h ▸ prefix_append _ _)]
    split
    · next path hpath =>
      rw [stripPrefix_eq_some] at hpath
      rw [decide_eq_true_iff, hpath, append_cancel_left_eq, eq_comm]
    · next hpath =>
      rw [stripPrefix_eq_none] at hpath
      exact iff_of_false nofun fun h => hpath (h ▸ prefix_append _ _)

/-! ### One line of the scan -/

theorem startsWith_strict_iff {path dir : PathBuf} :
    (!path.startsWith dir || path == dir) = false ↔ StrictlyInside path dir := by
  rw [Bool.or_eq_false_iff, Bool.not_eq_false', PathBuf.startsWith, Bool.and_eq_true, beq_iff_eq,
    isPrefixOf_iff_prefix, beq_eq_false_iff_ne, StrictlyInside, and_assoc]
  refine and_congr_right fun habs => ?_
  constructor
  · rintro ⟨⟨below, hbelow⟩, hne⟩
    refine ⟨below, ?_, hbelow.symm⟩
    rintro rfl
    rw [append_nil] at hbelow
    cases path
    cases dir
    exact hne (PathBuf.mk.injEq .. ▸ ⟨habs, hbelow.symm⟩)
  · rintro ⟨below, hne, hbelow⟩
    refine ⟨⟨below, hbelow.symm⟩, ?_⟩
    rintro rfl
    exact hne (append_right_eq_self.mp hbelow.symm)

theorem isElfMatchingArch_iff {os : ScanOs} {path : PathBuf} :
    isElfMatchingArch os path = true ↔ IsElf os path := by
  unfold isElfMatchingArch IsElf
  split
  · next b0 b1 b2 b3 b4 rest hopen =>
    rw [hopen, Bool.and_eq_true, beq_iff_eq, beq_iff_eq]
    simp only [List.cons.injEq, Option.some.injEq, exists_and_left, exists_eq', and_true, and_assoc]
  · next hopen =>
    refine iff_of_false nofun ?_
    rintro ⟨rest, h⟩
    exact hopen _ _ _ _ _ _ h

section

variable {os : ScanOs} {modDir : PathBuf} {processName processPath : String} {line : List Char}
    {lib : PathBuf}
  {companion : Bool}

theorem lineLibrary_of_words {first : List Char} {options : List (List Char)} {last : List Char}
    (h : HasWords line first options last) :
    lineLibrary os modDir processName processPath line = some (lib, companion) ↔
      targetMatches first processName processPath = true ∧ options.contains "companion".toList = companion ∧
      ∃ dir, os.canonicalize modDir.toString = some dir ∧
        os.canonicalize (joinText modDir.toString (String.ofList last)) = some lib ∧
        (!lib.startsWith dir || lib == dir) = false ∧ isElfMatchingArch os lib = true := by
  have hlast : (first :: (options ++ [last])).getLastD [] = last := by
    rw [getLastD_cons, getLastD_concat]
  unfold lineLibrary
  rw [h, if_neg (Nat.not_lt.mpr (two_le_length_iff.mpr ⟨first, options, last, rfl⟩)), headD_cons,
    drop_succ_cons, drop_zero, dropLast_concat, hlast]
  cases targetMatches first processName processPath with
  | false => exact iff_of_false nofun fun h => Bool.false_ne_true h.1
  | true =>
    rw [if_neg (by decide)]
    dsimp only
    split
    · next dir found hdir hfound =>
      rw [hdir, hfound, Option.ite_none_left_eq_some, Option.ite_none_left_eq_some, Option.some_inj,
        Prod.mk.injEq,
        Bool.not_eq_true, Bool.not_eq_true, Bool.not_eq_false']
      constructor
      · rintro ⟨hinside, helf, rfl, rfl⟩
        exact ⟨rfl, rfl, dir, rfl, rfl, hinside, helf⟩
      · rintro ⟨-, rfl, dir', hdir', hlib, hinside, helf⟩
        obtain rfl := Option.some_inj.mp hdir'
        obtain rfl := Option.some_inj.mp hlib
        exact ⟨hinside, helf, rfl, rfl⟩
    · next hnone =>
      refine iff_of_false nofun ?_
      rintro ⟨-, -, dir, hdir, hlib, -⟩
      exact hnone dir lib hdir hlib

/-- `lineLibrary` reads a line as `Declares` says. -/
theorem lineLibrary_iff :
    lineLibrary os modDir processName processPath line = some (lib, companion) ↔
      Declares os processName processPath modDir line lib companion := by
  constructor
  · intro h
    have hwords : 2 ≤ (splitWhitespace line).length := by
      refine Nat.le_of_not_lt fun hshort => ?_
      rw [lineLibrary, if_pos hshort] at h
      cases h
    obtain ⟨first, options, last, htokens⟩ := two_le_length_iff.mp hwords
    obtain ⟨hmatches, rfl, dir, hdir, hlib, hinside, helf⟩ := (lineLibrary_of_words htokens).mp h
    exact ⟨first, options, last, htokens, targetMatches_iff.mp hmatches, contains_iff_mem, dir, hdir, hlib,
      startsWith_strict_iff.mp hinside, isElfMatchingArch_iff.mp helf⟩
  · rintro ⟨first, options, last, htokens, hnames, hcompanion, dir, hdir, hlib, hinside, helf⟩
    refine (lineLibrary_of_words htokens).mpr ⟨targetMatches_iff.mpr hnames, ?_, dir, hdir, hlib,
      startsWith_strict_iff.mpr hinside, isElfMatchingArch_iff.mpr helf⟩
    rw [Bool.eq_iff_iff, contains_iff_mem, hcompanion]

end

/-! ### The whole scan -/

/-- What `seen_libs` goes by. -/
def libKey (found : PathBuf × Bool) : String := found.1.toString

/-- The libraries the lines declare, in the order of the scan. -/
def declared (os : ScanOs) (processName processPath : String) (scanned : List (PathBuf × List Char)) :
    List (PathBuf × Bool) :=
  scanned.filterMap fun l => lineLibrary os l.1 processName processPath l.2

/-- The scan has come to these libraries. -/
structure Reflects (scan : ZnScan) (kept : List (PathBuf × Bool)) : Prop where
  results : scan.results.map (fun m => (m.libPath, m.companion)) = kept.map fun d => (libKey d, d.2)
  seen : ∀ path, path ∈ scan.seenLibs ↔ path ∈ kept.map libKey

section

variable {os : ScanOs} {processName processPath : String}
  (hcopy : ∀ path, (os.openFile path).isSome = true → os.copyToMemfd path = true)

include hcopy in
theorem isSome_createLibraryFd_of_declared {modDir : PathBuf} {line : List Char} {lib : PathBuf}
    {companion : Bool}
    (h : lineLibrary os modDir processName processPath line = some (lib, companion)) :
    (createLibraryFd os lib).isSome = true := by
  obtain ⟨_, _, _, _, _, _, _, _, _, _, rest, hopen⟩ := lineLibrary_iff.mp h
  have hsome : (os.openFile lib).isSome = true := hopen ▸ rfl
  rw [isSome_createLibraryFd, hsome, hcopy lib hsome]
  rfl

theorem scanZnLine_of_none {l : PathBuf × List Char}
    (hline : lineLibrary os l.1 processName processPath l.2 = none)
    (scan : ZnScan) : scanZnLine os l.1 processName processPath scan l.2 = scan := by
  rw [scanZnLine, hline]

include hcopy in
theorem scanZnLine_reflects {scan : ZnScan} {kept : List (PathBuf × Bool)} (h : Reflects scan kept)
    {l : PathBuf × List Char} {found : PathBuf × Bool}
    (hline : lineLibrary os l.1 processName processPath l.2 = some found) :
    Reflects (scanZnLine os l.1 processName processPath scan l.2) (Firsts.add libKey kept found) := by
  obtain ⟨lib, companion⟩ := found
  obtain ⟨libFd, hfd⟩ := Option.isSome_iff_exists.mp (isSome_createLibraryFd_of_declared hcopy hline)
  have hseen : scan.seenLibs.contains lib.toString = true ↔ libKey (lib, companion) ∈ kept.map libKey := by
    rw [contains_iff_mem, h.seen, libKey]
  unfold scanZnLine
  rw [hline]
  by_cases hold : libKey (lib, companion) ∈ kept.map libKey
  · simp only [if_pos (hseen.mpr hold), Firsts.add, if_pos hold]
    exact h
  · simp only [if_neg (mt hseen.mp hold), Firsts.add, if_neg hold, hfd]
    constructor
    · rw [map_append, map_append, h.results]
      rfl
    · intro path
      rw [mem_cons, map_append, mem_append, h.seen, or_comm, map_singleton,
        mem_singleton]
      rfl

theorem scanZnEntry_eq (scan : ZnScan) (entry : DirEntry) :
    scanZnEntry os processName processPath scan entry =
      (entryLines os entry).foldl (fun scan l => scanZnLine os l.1 processName processPath scan l.2)
        scan := by
  have hskip : (!os.pathExists (entry.path.join ⟨false, ["zn_modules.txt"]⟩) ||
      os.pathExists (entry.path.join ⟨false, ["disable"]⟩) ||
      os.pathExists (entry.path.join ⟨false, ["remove"]⟩)) = !Enabled os entry.path := by
    rw [Enabled, Bool.not_and, Bool.not_and, Bool.not_not, Bool.not_not]
  unfold scanZnEntry entryLines
  simp only [hskip]
  cases Enabled os entry.path with
  | false => rfl
  | true =>
    rw [if_neg (by decide), if_pos rfl]
    cases os.readToString (entry.path.join ⟨false, ["zn_modules.txt"]⟩) with
    | none => rfl
    | some content =>
      dsimp only
      rw [foldl_map]

include hcopy in
/-- The plan keeps the first of the declarations of each library. -/
theorem plan_eq :
    (scanZnModulesForTarget os processName processPath).map (fun m => (m.libPath, m.companion)) =
      (Firsts.firsts libKey (declared os processName processPath (scanLines os))).map fun d =>
        (libKey d, d.2) := by
  have hscan : scanZnModulesForTarget os processName processPath =
      ((moduleEntries os).foldl (scanZnEntry os processName processPath) ⟨[], []⟩).results := by
    unfold scanZnModulesForTarget moduleEntries
    cases os.readDir pathModulesDir <;> rfl
  have hrel : Reflects
    ((scanLines os).foldl (fun scan l => scanZnLine os l.1 processName processPath scan l.2) ⟨[], []⟩)
      (Firsts.firsts libKey (declared os processName processPath (scanLines os))) := by
    rw [Firsts.firsts, declared, foldl_filterMap]
    refine foldl_rel ⟨rfl, fun _ => Iff.rfl⟩ fun l _ scan kept h => ?_
    cases hline : lineLibrary os l.1 processName processPath l.2 with
    | none => exact (scanZnLine_of_none hline scan).symm ▸ h
    | some found => exact scanZnLine_reflects hcopy h hline
  rw [hscan, funext₂ scanZnEntry_eq, ← foldl_flatMap]
  exact hrel.results

end

theorem mem_declared {os : ScanOs} {scanned : List (PathBuf × List Char)}
    {found : PathBuf × Bool} :
    found ∈ declared os processName processPath scanned ↔
      ∃ l ∈ scanned, Declares os processName processPath l.1 l.2 found.1 found.2 := by
  rw [declared, mem_filterMap]
  exact exists_congr fun l => and_congr_right fun _ => lineLibrary_iff

theorem declared_split {os : ScanOs} {scanned : List (PathBuf × List Char)}
    {before after : List (PathBuf × Bool)} {found : PathBuf × Bool}
    (h : declared os processName processPath scanned = before ++ found :: after) :
    ∃ earlier l later, scanned = earlier ++ l :: later ∧
      Declares os processName processPath l.1 l.2 found.1 found.2 ∧
      declared os processName processPath earlier = before := by
  obtain ⟨lines₁, lines₂, rfl, h₁, h₂⟩ := filterMap_eq_append_iff.mp h
  obtain ⟨skipped, l, later, rfl, hskipped, hl, -⟩ := filterMap_eq_cons_iff.mp h₂
  refine ⟨lines₁ ++ skipped, l, later, (append_assoc ..).symm, lineLibrary_iff.mp hl, ?_⟩
  rw [declared, filterMap_append, h₁, filterMap_eq_nil_iff.mpr hskipped, append_nil]

end ZnPlanLemmas

open ZnPlanLemmas

/-- With every copy succeeding, the paths of the plan are distinct and are those of the libraries
that some line of an enabled module declares for the process, and each has the companion option of
the first line that declares it. -/
theorem plan_exact (os : ScanOs) (processName processPath : String)
    (hcopy : ∀ path, (os.openFile path).isSome = true → os.copyToMemfd path = true) :
    ((scanZnModulesForTarget os processName processPath).map (·.libPath)).Nodup ∧
    (∀ path, path ∈ (scanZnModulesForTarget os processName processPath).map (·.libPath) ↔
      ∃ modDir line lib companion, (modDir, line) ∈ scanLines os ∧
        Declares os processName processPath modDir line lib companion ∧ lib.toString = path) ∧
    ∀ m ∈ scanZnModulesForTarget os processName processPath, ∃ before modDir line after lib,
      scanLines os = before ++ (modDir, line) :: after ∧ lib.toString = m.libPath ∧
        Declares os processName processPath modDir line lib m.companion ∧
        ∀ l ∈ before, ∀ lib' companion, Declares os processName processPath l.1 l.2 lib' companion →
          lib'.toString ≠ m.libPath := by
  have hplan := @plan_eq os processName processPath hcopy
  have hpaths : (scanZnModulesForTarget os processName processPath).map (·.libPath) =
      (Firsts.firsts libKey (declared os processName processPath (scanLines os))).map libKey := by
    have hfst := congrArg (List.map Prod.fst) hplan
    rwa [map_map, map_map] at hfst
  refine ⟨hpaths ▸ Firsts.nodup_map_firsts _, fun path => ?_, fun m hm => ?_⟩
  · rw [hpaths, Firsts.mem_map_firsts, mem_map]
    constructor
    · rintro ⟨⟨lib, companion⟩, hfound, hpath⟩
      obtain ⟨l, hl, hdeclares⟩ := mem_declared.mp hfound
      exact ⟨l.1, l.2, lib, companion, hl, hdeclares, hpath⟩
    · rintro ⟨modDir, line, lib, companion, hl, hdeclares, hpath⟩
      exact ⟨(lib, companion), mem_declared.mpr ⟨(modDir, line), hl, hdeclares⟩, hpath⟩
  · have hmem := hplan ▸ mem_map_of_mem hm
    obtain ⟨found, hfound, heq⟩ := mem_map.mp hmem
    obtain ⟨hpath, hcompanion⟩ := Prod.mk.injEq .. ▸ heq
    obtain ⟨before, after, hsplit, hnew⟩ := Firsts.mem_firsts_iff.mp hfound
    obtain ⟨earlier, l, later, hlines, hdeclares, rfl⟩ := declared_split hsplit
    refine ⟨earlier, l.1, l.2, later, found.1, hlines, hpath, hcompanion ▸ hdeclares, ?_⟩
    intro l' hl' lib' companion' hdeclares' hpath'
    refine hnew (mem_map.mpr ⟨(lib', companion'), mem_declared.mpr ⟨l', hl', hdeclares'⟩, ?_⟩)
    exact hpath'.trans hpath.symm

/-- A module whose file names one library as a directory, by its name, and through `..`. -/
def linkedModule : ScanOs :=
  let modDir : PathBuf := ⟨true, ["data", "adb", "modules", "m"]⟩
  let lib : PathBuf := ⟨true, ["data", "adb", "modules", "m", "x.so"]⟩
  { is64 := true
    abi := "arm64-v8a"
    readDir := fun _ => .entries [⟨modDir, some "m"⟩]
    pathExists := fun path => path == modDir.join ⟨false, ["zn_modules.txt"]⟩
    readToString := fun _ =>
      some "name=app companion x.so/\nname=app x.so\nname=app companion lib/../x.so\n"
    canonicalize := fun path =>
      if path = "/data/adb/modules/m" then some modDir
      else if path = "/data/adb/modules/m/x.so" ∨ path = "/data/adb/modules/m/lib/../x.so" then some lib
      else none
    openFile := fun path => if path == lib then some [0x7F, 0x45, 0x4C, 0x46, 2, 1] else none
    copyToMemfd := fun _ => true
    addSeals := fun _ => true }

theorem plan_exact_linked :
    ((scanZnModulesForTarget linkedModule "app" "/system/bin/app").map (·.libPath)).Nodup ∧
      (scanZnModulesForTarget linkedModule "app" "/system/bin/app").map (fun m => (m.libPath, m.companion)) =
        [("/data/adb/modules/m/x.so", false)] :=
  ⟨(plan_exact linkedModule "app" "/system/bin/app" fun _ _ => rfl).1, by decide +kernel⟩

/-! ## The list agrees -/

namespace ZnPlanLemmas

variable {first line : List Char}

theorem exists_names_iff :
    (∃ processName processPath, Names first processName processPath) ↔ IsTarget first := by
  constructor
  · rintro ⟨_, _, ⟨target, rfl, -⟩ | rfl⟩
    · exact .inl (prefix_append ..)
    · exact .inr (prefix_append ..)
  · rintro (⟨target, rfl⟩ | ⟨path, rfl⟩)
    · have hzygote : ∀ target ∈ zygoteNames, containsText (String.ofList target) "zygote" = true := by decide
      refine ⟨String.ofList target, "", .inl ⟨target, rfl, ?_⟩⟩
      split
      · next hz => exact .inl (hzygote target hz)
      · exact String.toList_ofList
    · exact ⟨"", String.ofList path, .inr (congrArg ("path=".toList ++ ·) String.toList_ofList.symm)⟩

theorem hasWords_inj {first' last last' : List Char} {options options' : List (List Char)}
    (h : HasWords line first options last) (h' : HasWords line first' options' last') :
    first = first' ∧ options = options' ∧ last = last' := by
  obtain ⟨hfirst, hrest⟩ := cons_eq_cons.mp (h.symm.trans h')
  obtain ⟨hoptions, hlast⟩ := append_inj' hrest rfl
  exact ⟨hfirst, hoptions, singleton_inj.mp hlast⟩

theorem reportLine_of_words {last : List Char} {options : List (List Char)}
    (h : HasWords line first options last) (report : ZnReport) :
    reportLine report line =
      ⟨report.targets ++ [first], report.hasCompanion || (first :: (options ++ [last])).contains
        "companion".toList⟩ := by
  rw [reportLine, h, if_pos (two_le_length_iff.mpr ⟨first, options, last, rfl⟩), headD_cons, any_beq']

theorem reportLine_of_short (h : ¬ ∃ first options last, HasWords line first options last)
    (report : ZnReport) : reportLine report line = report := by
  rw [reportLine, if_neg (mt two_le_length_iff.mp h)]

/-- What the loop has collected after these lines. -/
structure Collected (scanned : List (List Char)) (report : ZnReport) : Prop where
  targets : ∀ target, target ∈ report.targets ↔ ∃ line ∈ scanned, ∃ options last,
    HasWords line target options last
  companion : report.hasCompanion = true ↔ ∃ line ∈ scanned, ∃ first options last,
    HasWords line first options last ∧
    "companion".toList ∈ first :: (options ++ [last])

theorem exists_mem_concat {scanned : List (List Char)} {P : List Char → Prop} :
    (∃ l ∈ scanned ++ [line], P l) ↔ (∃ l ∈ scanned, P l) ∨ P line := by
  simp only [mem_append, mem_singleton, or_and_right, exists_or, exists_eq_left]

theorem reportLine_collected {scanned : List (List Char)} {report : ZnReport} (h : Collected scanned report)
    (line : List Char) : Collected (scanned ++ [line]) (reportLine report line) := by
  by_cases hwords : ∃ first options last, HasWords line first options last
  · obtain ⟨first, options, last, hwords⟩ := hwords
    rw [reportLine_of_words hwords]
    constructor
    · intro target
      rw [mem_append, h.targets, mem_singleton, exists_mem_concat]
      refine or_congr_right ⟨?_, ?_⟩
      · rintro rfl
        exact ⟨options, last, hwords⟩
      · rintro ⟨options', last', hwords'⟩
        exact (hasWords_inj hwords' hwords).1
    · rw [Bool.or_eq_true, h.companion, contains_iff_mem, exists_mem_concat]
      refine or_congr_right ⟨fun hmem => ⟨first, options, last, hwords, hmem⟩, ?_⟩
      rintro ⟨first', options', last', hwords', hmem⟩
      obtain ⟨rfl, rfl, rfl⟩ := hasWords_inj hwords' hwords
      exact hmem
  · rw [reportLine_of_short hwords]
    constructor
    · intro target
      rw [h.targets, exists_mem_concat, or_iff_left fun ⟨options, last, h⟩ =>
        hwords ⟨target, options, last, h⟩]
    · rw [h.companion, exists_mem_concat,
        or_iff_left fun ⟨first, options, last, h, _⟩ => hwords ⟨first, options, last, h⟩]

theorem collected_znReport (content : List Char) : Collected (lines content) (znReport content) := by
  unfold znReport
  induction lines content using List.reverseRecOn with
  | nil => exact ⟨fun _ => iff_of_false not_mem_nil nofun, iff_of_false Bool.false_ne_true nofun⟩
  | append_singleton scanned line ih =>
    rw [foldl_concat]
    exact reportLine_collected ih line

theorem companion_not_isTarget : ¬ IsTarget "companion".toList := by
  rintro (⟨rest, h⟩ | ⟨rest, h⟩) <;> exact absurd (head_eq_of_cons_eq h) (by decide)

end ZnPlanLemmas

/-- The shown module agrees with the plan exactly if every line of two or more words starts with
`name=` or `path=`, and a line that ends in the word `companion` is there only if some line has the
word among its options. -/
theorem report_agrees_iff (content : List Char) :
    Agrees content ↔
      (∀ line ∈ lines content, ∀ first options last, HasWords line first options last → IsTarget first) ∧
      ((∃ line ∈ lines content, ∃ first options, HasWords line first options "companion".toList) →
        ∃ line ∈ lines content, ∃ first options last, HasWords line first options last ∧
          "companion".toList ∈ options) := by
  have hreport := collected_znReport content
  constructor
  · intro h
    have htargets : ∀ line ∈ lines content, ∀ first options last, HasWords line first options last →
        IsTarget first := by
      intro line hline first options last hwords
      obtain ⟨line', -, ⟨first', options', last', hwords', hnames⟩, hhead⟩ :=
        (h.targets first).mp ((hreport.targets first).mpr ⟨line, hline, options, last, hwords⟩)
      rw [hwords', head?_cons, Option.some_inj] at hhead
      exact hhead ▸ exists_names_iff.mp hnames
    refine ⟨htargets, ?_⟩
    rintro ⟨line, hline, first, options, hwords⟩
    have hshown :
      (znReport content).hasCompanion = true := hreport.companion.mpr ⟨line, hline, first, options, _, hwords,
      mem_cons_of_mem _ (mem_append_right _ (mem_singleton_self _))⟩
    obtain ⟨line', hline', first', options', last', hwords', -, hmem⟩ := h.companion.mp hshown
    exact ⟨line', hline', first', options', last', hwords', hmem⟩
  · rintro ⟨htargets, hlast⟩
    constructor
    · rw [hreport.companion]
      constructor
      · rintro ⟨line, hline, first, options, last, hwords, hmem⟩
        have hoption : ∃ line ∈ lines content, ∃ first options last, HasWords line first options last ∧
            "companion".toList ∈ options := by
          rcases mem_cons.mp hmem with rfl | hmem
          · exact absurd (htargets line hline _ options last hwords) companion_not_isTarget
          · rcases mem_append.mp hmem with hmem | hmem
            · exact ⟨line, hline, first, options, last, hwords, hmem⟩
            · exact hlast ⟨line, hline, first, options, (mem_singleton.mp hmem) ▸ hwords⟩
        obtain ⟨line, hline, first, options, last, hwords, hmem⟩ := hoption
        exact ⟨line, hline, first, options, last, hwords, htargets line hline first options last hwords, hmem⟩
      · rintro ⟨line, hline, first, options, last, hwords, -, hmem⟩
        exact ⟨line, hline, first, options, last, hwords,
          mem_cons_of_mem _ (mem_append_left _ hmem)⟩
    · intro target
      rw [hreport.targets]
      refine exists_congr fun line => and_congr_right fun hline => ?_
      constructor
      · rintro ⟨options, last, hwords⟩
        refine ⟨⟨target, options, last, hwords, exists_names_iff.mpr
          (htargets line hline target options last hwords)⟩, ?_⟩
        rw [hwords, head?_cons]
      · rintro ⟨⟨first, options, last, hwords, -⟩, hhead⟩
        rw [hwords, head?_cons, Option.some_inj] at hhead
        exact ⟨options, last, hhead ▸ hwords⟩

/-- A comment is shown as a target, and its words as an option. -/
theorem comment_is_shown :
    znReport "# companion lib.so".toList = ⟨["#".toList], true⟩ ∧ ¬ Agrees "# companion lib.so".toList := by
  have hshown : znReport "# companion lib.so".toList = ⟨["#".toList], true⟩ := by decide +kernel
  have hline : lines "# companion lib.so".toList = ["# companion lib.so".toList] := by decide +kernel
  have hwords : HasWords "# companion lib.so".toList "#".toList ["companion".toList] "lib.so".toList := by
    unfold HasWords
    decide +kernel
  refine ⟨hshown, fun h => ?_⟩
  obtain ⟨line, hmem, first, options, last, hwords', htarget, -⟩ :=
    h.companion.mp (congrArg ZnReport.hasCompanion hshown)
  rw [hline, mem_singleton] at hmem
  subst hmem
  obtain ⟨rfl, -, -⟩ := hasWords_inj hwords' hwords
  rcases htarget with ⟨rest, h⟩ | ⟨rest, h⟩ <;> exact absurd (head_eq_of_cons_eq h) (by decide)

end NyaZygisk.ZnPlan
