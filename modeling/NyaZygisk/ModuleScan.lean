import NyaZygisk.Text

/-!
# Scanning the module directory

The three scans of `/data/adb/modules` that answer requests: `load_modules` for
the Zygisk modules, `scan_zn_modules_for_target` for the Zygisk Next libraries a
process is to load, and `create_library_fd`, which copies one library into a
sealed memfd. What the file system and the kernel answer is a parameter
(`ScanOs`), the same throughout one scan.
-/

namespace NyaZygisk

open Text

/-! ## Paths -/

/-- A `PathBuf` up to the equality Rust gives it: its components, without empty
ones and without `.` except at the front of a relative path. -/
structure PathBuf where
  absolute : Bool
  components : List String
deriving DecidableEq

/-- `PathBuf::from`. -/
def PathBuf.ofString (path : String) : PathBuf :=
  let parts := (split '/' path.toList).map String.ofList
  let absolute := path.toList.head? == some '/'
  let curDir := if absolute then [] else (parts.take 1).filter (· = ".")
  ⟨absolute, curDir ++ parts.filter fun p => p ≠ "" && p ≠ "."⟩

/-- `Path::join`. -/
def PathBuf.join (base path : PathBuf) : PathBuf :=
  if path.absolute then path
  else ⟨base.absolute, base.components ++ path.components.filter (· ≠ ".")⟩

/-- `Path::starts_with`, by whole components. -/
def PathBuf.startsWith (path base : PathBuf) : Bool :=
  path.absolute == base.absolute && base.components.isPrefixOf path.components

/-- The path as the kernel and `fs::canonicalize` write it: `Path::display` of one that they gave. -/
def PathBuf.toString (path : PathBuf) : String :=
  (if path.absolute then "/" else "") ++ "/".intercalate path.components

/-- `Path::join`, of paths as they are written. -/
def joinText (base path : String) : String :=
  if path.toList.head? = some '/' then path
  else if base.toList.getLast?.all (· = '/') then base ++ path
  else base ++ "/" ++ path

def pathModulesDir : PathBuf := ⟨true, ["data", "adb", "modules"]⟩

/-! ## What the system answers -/

/-- An entry of a directory; `fileName` is `none` when it is not UTF-8. -/
structure DirEntry where
  path : PathBuf
  fileName : Option String
deriving DecidableEq

/-- `fs::read_dir`, with the entries that could be read. -/
inductive ReadDir
  | entries (entries : List DirEntry)
  | notFound
  | failed
deriving DecidableEq

/-- What the file system and the kernel answer during one scan; `none` and
`false` stand for errors. -/
structure ScanOs where
  /-- `target_pointer_width = "64"`. -/
  is64 : Bool
  /-- The property `ro.product.cpu.abi`. -/
  abi : String
  readDir : PathBuf → ReadDir
  pathExists : PathBuf → Bool
  readToString : PathBuf → Option String
  /-- For a path as it is written: with a final `/`, a file is not found. -/
  canonicalize : String → Option PathBuf
  /-- The content of a file that can be opened. -/
  openFile : PathBuf → Option (List UInt8)
  /-- A memfd can be created for a copy of this file, and the copy succeeds. -/
  copyToMemfd : PathBuf → Bool
  /-- The seals of that memfd can be set. -/
  addSeals : PathBuf → Bool

/-- `memfd::FileSeal`. -/
inductive FileSeal
  | sealShrink
  | sealGrow
  | sealWrite
  | sealSeal
deriving DecidableEq

structure MemFile where
  content : List UInt8
  seals : List FileSeal
deriving DecidableEq

/-- `create_library_fd`. A memfd whose seals cannot be set is used without
them. -/
def createLibraryFd (os : ScanOs) (soPath : PathBuf) : Option MemFile :=
  match os.openFile soPath with
  | some content =>
    if os.copyToMemfd soPath then
      let seals := [.sealShrink, .sealGrow, .sealWrite, .sealSeal]
      some ⟨content, if os.addSeals soPath then seals else []⟩
    else none
  | none => none

theorem isSome_createLibraryFd (os : ScanOs) (soPath : PathBuf) :
    (createLibraryFd os soPath).isSome = ((os.openFile soPath).isSome && os.copyToMemfd soPath) := by
  unfold createLibraryFd
  cases os.openFile soPath with
  | none => rfl
  | some content => cases hcopy : os.copyToMemfd soPath <;> rfl

/-! ## Zygisk modules -/

/-- `str::contains`. -/
def containsText (text part : String) : Bool := decide (part.toList <:+: text.toList)

def getArch (os : ScanOs) : Option String :=
  if containsText os.abi "arm" then some (if os.is64 then "arm64-v8a" else "armeabi-v7a")
  else if containsText os.abi "x86" then some (if os.is64 then "x86_64" else "x86")
  else if containsText os.abi "riscv64" then some "riscv64"
  else none

/-- The body of the loop of `load_modules`. -/
def loadModule (os : ScanOs) (arch : String) (entry : DirEntry) : Option (String × MemFile) :=
  let name := entry.fileName.getD ""
  let soPath := entry.path.join ⟨false, ["zygisk", arch ++ ".so"]⟩
  let disabledFlag := entry.path.join ⟨false, ["disable"]⟩
  if !os.pathExists soPath || os.pathExists disabledFlag then none
  else (createLibraryFd os soPath).map fun libFd => (name, libFd)

/-- `load_modules`: the name and library of each module, or `none` for an error. -/
def loadModules (os : ScanOs) : Option (List (String × MemFile)) :=
  match getArch os with
  | none => none
  | some arch =>
    match os.readDir pathModulesDir with
    | .notFound => some []
    | .failed => none
    | .entries entries => some (entries.filterMap (loadModule os arch))

/-! ## Zygisk Next modules -/

structure ZnPlanModule where
  libPath : String
  companion : Bool
  libFd : MemFile
deriving DecidableEq

def isElfMatchingArch (os : ScanOs) (path : PathBuf) : Bool :=
  match os.openFile path with
  | some (b0 :: b1 :: b2 :: b3 :: b4 :: _) =>
    [b0, b1, b2, b3] == [0x7F, 0x45, 0x4C, 0x46] && b4 == (if os.is64 then 2 else 1)
  | _ => false

/-- The first token of a line names this process. -/
def targetMatches (first : List Char) (processName processPath : String) : Bool :=
  match stripPrefix "name=".toList first with
  | some targetName =>
    if targetName = "zygote".toList || targetName = "zygote64".toList ||
        targetName = "zygote32".toList then
      containsText processName "zygote" || containsText processName "app_process"
    else decide (processName.toList = targetName)
  | none =>
    match stripPrefix "path=".toList first with
    | some targetPath => decide (processPath.toList = targetPath)
    | none => false

/-- The libraries found so far, and the paths in `seen_libs`. -/
structure ZnScan where
  results : List ZnPlanModule
  seenLibs : List String

/-- The library a line asks for, if the line is for this process and the library
is one of the right class inside the module directory: its canonical path and
its companion token. -/
def lineLibrary (os : ScanOs) (modDir : PathBuf) (processName processPath : String)
    (line : List Char) : Option (PathBuf × Bool) :=
  let tokens := splitWhitespace line
  if tokens.length < 2 then none
  else if !targetMatches (tokens.headD []) processName processPath then none
  else
    let companion := ((tokens.drop 1).dropLast).contains "companion".toList
    let libSubpath := tokens.getLastD []
    -- an absolute sub-path replaces the module directory in the join
    let candidate := joinText modDir.toString (String.ofList libSubpath)
    match os.canonicalize modDir.toString, os.canonicalize candidate with
    | some canonicalMod, some canonicalLib =>
      if !canonicalLib.startsWith canonicalMod || canonicalLib == canonicalMod then none
      else if !isElfMatchingArch os canonicalLib then none
      else some (canonicalLib, companion)
    | _, _ => none

/-- The body of the loop over the lines of `zn_modules.txt`. -/
def scanZnLine (os : ScanOs) (modDir : PathBuf) (processName processPath : String) (scan : ZnScan)
    (line : List Char) : ZnScan :=
  match lineLibrary os modDir processName processPath line with
  | none => scan
  | some (canonicalLib, companion) =>
    let libPath := canonicalLib.toString
    if scan.seenLibs.contains libPath then scan
    else match createLibraryFd os canonicalLib with
      | some libFd => ⟨scan.results ++ [⟨libPath, companion, libFd⟩], libPath :: scan.seenLibs⟩
      | none => scan

/-- The body of the loop over the entries of the module directory. -/
def scanZnEntry (os : ScanOs) (processName processPath : String) (scan : ZnScan) (entry : DirEntry) :
    ZnScan :=
  let modDir := entry.path
  let disabled := modDir.join ⟨false, ["disable"]⟩
  let remove := modDir.join ⟨false, ["remove"]⟩
  let znFile := modDir.join ⟨false, ["zn_modules.txt"]⟩
  if !os.pathExists znFile || os.pathExists disabled || os.pathExists remove then scan
  else match os.readToString znFile with
    | none => scan
    | some content =>
      (lines content.toList).foldl (scanZnLine os modDir processName processPath) scan

def scanZnModulesForTarget (os : ScanOs) (processName processPath : String) : List ZnPlanModule :=
  match os.readDir pathModulesDir with
  | .entries entries =>
    (entries.foldl (scanZnEntry os processName processPath) ⟨[], []⟩).results
  | _ => []

end NyaZygisk
