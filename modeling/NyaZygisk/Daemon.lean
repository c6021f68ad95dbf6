import NyaZygisk.FlagCache
import NyaZygisk.ModuleScan

/-!
# The daemon

`zygiskd.rs`: every connection to the daemon's socket carries one request, and
`handle_connection` answers it. This module has the daemon's state and each of
its handlers; a request is taken after its payload was read, since no handler
has an effect before it has read all of it.

The reply is the sequence of values and descriptors written to the connection.
Descriptors are named by what they refer to, and `Daemon.readable` says what
can be read through one.
-/

namespace NyaZygisk

/-! ## State -/

inductive MountNamespace
  | clean
  | root
deriving DecidableEq

/-- `MountNamespace::try_from`. -/
def MountNamespace.tryFrom (value : UInt8) : Option MountNamespace :=
  if value = 0 then some .clean else if value = 1 then some .root else none

/-- A loaded module: its name, the memfd that holds its library, and the socket
of its companion process. -/
structure Module where
  name : String
  libFd : Nat
  companion : Option Nat
deriving DecidableEq

def Module.dropCompanion (m : Module) : Module := { m with companion := none }

/-- A companion process that was started: for a module's library, or for the
library at a path. -/
inductive CompanionFor
  | module (name : String)
  | znLibrary (libPath : String)
deriving DecidableEq

/-- An entry of `zn_states`: its key, as paths are compared and as it was first written, and the
counters. -/
structure ZnState where
  key : PathBuf
  written : String
  injected : UInt32
  failed : UInt32
deriving DecidableEq

/-- The daemon: `AppContext`, the shared table, and what `root_impl` and
`exclude` answer from. -/
structure Daemon where
  modules : List Module
  /-- The content of the memfds, by the numbers that name them. -/
  memfds : List MemFile
  cleanMntNs : Option Nat
  rootMntNs : Option Nat
  znCompanions : List (PathBuf × Nat)
  znStates : List ZnState
  /-- The content of `zn_modules_state`. -/
  znStateFile : Option String
  pendingCompanions : List Nat
  /-- The companion processes started so far, the latest first. -/
  started : List CompanionFor
  sharedMemory : Option ShmLayout
  rootAnswers : UInt32 → RootAnswers
  excludeFiles : Exclude.Files
  excludeState : Option Exclude.State

/-! ## Requests and replies -/

/-- What a child process of the daemon makes of its setup. -/
inductive Spawn
  /-- The socket pair or the process could not be made. -/
  | notStarted
  /-- The process runs, and its setup failed or broke off. -/
  | setupFailed (child : Nat)
  /-- The process runs, and answered 0: the library has no entry point. -/
  | noEntry (child : Nat)
  /-- The process runs, and answered 1 on this socket. -/
  | ready (child : Nat) (socket : Nat)
deriving DecidableEq

/-- What the system answers while one request is handled. -/
structure Os extends ScanOs where
  /-- `SO_PEERCRED` of the connection. -/
  peerUid : Option UInt32
  /-- The number of writes to the connection that succeed before one fails. -/
  writes : Nat
  isSocketAlive : Nat → Bool
  /-- The connection can be sent over this companion's socket. -/
  sendFd : Nat → Bool
  spawn : Spawn
  /-- `try_wait` reports that the child still runs. -/
  stillRuns : Nat → Bool
  /-- The namespace that `save_mount_namespace` gets hold of. -/
  saveNamespace : UInt32 → MountNamespace → Option Nat
  openDir : PathBuf → Bool
  /-- The staging file can be written and renamed. -/
  writeStateFile : Bool

/-- A request, by its `DaemonSocketAction`; `malformed` stands for an invalid
action code and a payload that ends early or is no UTF-8. -/
inductive Request
  | pingHeartbeat
  | getProcessFlags (uid : UInt32)
  | cacheMountNamespace (pid : UInt32)
  | updateMountNamespace (namespaceType : UInt8)
  | readModules
  | requestCompanionSocket (index : Nat)
  | getModuleDir (index : Nat)
  | zygoteRestart
  | systemServerStarted
  | getSharedMemoryFd
  | requestZnCompanionSocket (libPath : String)
  | getZnPlan (processName processPath : String)
  | reportZnModule (libPath : String) (injected : UInt8)
  | refreshModules
  | malformed
deriving DecidableEq

inductive Descriptor
  | sharedMemory
  | memfd (id : Nat)
  | directory (path : PathBuf)
  | mountNamespace (id : Nat)
deriving DecidableEq

inductive Sent
  | u8 (value : UInt8)
  | u32 (value : UInt32)
  | usize (value : Nat)
  | string (value : String)
  | fd (descriptor : Descriptor)
  /-- The connection itself goes to the companion with this socket, which
  answers from there on. -/
  | handedTo (socket : Nat)
deriving DecidableEq

/-- What can be read through a descriptor. -/
inductive Content
  | table (layout : ShmLayout)
  | bytes (content : List UInt8)
  | directory (path : PathBuf)
  | mountNamespace (id : Nat)
  | nothing

def Daemon.readable (d : Daemon) : Descriptor → Content
  | .sharedMemory => match d.sharedMemory with
    | some layout => .table layout
    | none => .nothing
  | .memfd id => match d.memfds[id]? with
    | some file => .bytes file.content
    | none => .nothing
  | .directory path => .directory path
  | .mountNamespace id => .mountNamespace id

/-! ## Modules and companions -/

def Daemon.reapCompanions (d : Daemon) (os : Os) : Daemon :=
  { d with pendingCompanions := d.pendingCompanions.filter os.stillRuns }

/-- The modules of a scan, with the memfds of their libraries numbered from
`firstFd`. -/
def numberModules (firstFd : Nat) : List (String × MemFile) → List Module
  | [] => []
  | (name, _) :: rest => ⟨name, firstFd, none⟩ :: numberModules (firstFd + 1) rest

/-- `refresh_modules`: whether the scan succeeded, and the daemon after it. -/
def Daemon.refreshModules (d : Daemon) (os : Os) : Bool × Daemon :=
  match loadModules os.toScanOs with
  | none => (false, d)
  | some loaded =>
    (true, { d with modules := numberModules d.memfds.length loaded,
                    memfds := d.memfds ++ loaded.map Prod.snd }.reapCompanions os)

/-- `spawn_companion` and `spawn_zn_companion`: the socket of a companion that is
ready, and the daemon after the call. -/
def Daemon.spawn (d : Daemon) (os : Os) (companion : CompanionFor) : Option Nat × Daemon :=
  match os.spawn with
  | .notStarted => (none, d)
  | .setupFailed child | .noEntry child =>
    (none, { d with pendingCompanions := d.pendingCompanions ++ [child],
                    started := companion :: d.started })
  | .ready child socket =>
    (some socket, { d with pendingCompanions := d.pendingCompanions ++ [child],
                           started := companion :: d.started })

/-- `write_zn_state_file`: the text it writes. -/
def znStateText (states : List ZnState) : String :=
  let lines := states.map fun state =>
    (if 0 < state.failed then "failed" else if 0 < state.injected then "injected" else "unknown") ++
      " " ++ state.written
  "\n".intercalate (lines.mergeSort fun a b => decide (a ≤ b)) ++ "\n"

def Daemon.writeZnStateFile (d : Daemon) (os : Os) : Daemon :=
  if os.writeStateFile then { d with znStateFile := some (znStateText d.znStates) } else d

/-! ## Handlers -/

section Handlers

variable (os : Os) (d : Daemon)

/-- `handle_get_process_flags`. The flags are cached after the reply was
written. -/
def handleGetProcessFlags (uid : UInt32) : List Sent × Daemon :=
  if os.peerUid ≠ some 0 then ([.u32 0], d)
  else
    let root := d.rootAnswers uid
    let (answer, state) := askExclude root d.excludeState d.excludeFiles uid
    let flags := processFlags root answer
    let d := { d with excludeState := state }
    ([.u32 flags],
      if 1 ≤ os.writes ∧ nonnegative uid = true then
        { d with sharedMemory := d.sharedMemory.map fun layout => cacheProcessFlags layout uid flags }
      else d)

/-- `get_namespace_fd`. -/
def Daemon.namespaceFd : MountNamespace → Option Nat
  | .clean => d.cleanMntNs
  | .root => d.rootMntNs

def handleUpdateMountNamespace (namespaceType : UInt8) : List Sent × Daemon :=
  match MountNamespace.tryFrom namespaceType with
  | none => ([], d)
  | some namespaceType =>
    if os.peerUid ≠ some 0 then ([.u8 0], d)
    else match d.namespaceFd namespaceType with
      | some fd => ([.u8 1, .fd (.mountNamespace fd)], d)
      | none => ([.u8 0], d)

def handleReadModules : List Sent × Daemon :=
  let d := d.reapCompanions os
  (.usize d.modules.length :: d.modules.flatMap fun m => [.string m.name, .fd (.memfd m.libFd)], d)

def moduleAt (modules : List Module) (index : Nat) : Option Module := modules[index]?

def handleRequestCompanionSocket (index : Nat) : List Sent × Daemon :=
  match moduleAt d.modules index with
  | none => ([.u8 0], d)
  | some module =>
    let alive := module.companion.filter os.isSocketAlive
    let (companion, d) := match alive with
      | some socket => (some socket, d)
      | none => d.spawn os (.module module.name)
    let d := { d with modules := d.modules.set index { module with companion } }
    match companion with
    | some socket => if os.sendFd socket then ([.handedTo socket], d) else ([.u8 0], d)
    | none => ([.u8 0], d)

def handleGetModuleDir (index : Nat) : List Sent × Daemon :=
  match moduleAt d.modules index with
  | none => ([], d)
  | some module =>
    let dirPath := PathBuf.ofString (pathModulesDir.toString ++ "/" ++ module.name)
    if os.openDir dirPath then ([.fd (.directory dirPath)], d) else ([], d)

def Daemon.removeZnCompanion (key : PathBuf) : Daemon :=
  { d with znCompanions := d.znCompanions.filter fun entry => entry.1 ≠ key }

def handleRequestZnCompanionSocket (libPath : String) : List Sent × Daemon :=
  let key := PathBuf.ofString libPath
  let alive := (d.znCompanions.lookup key).filter os.isSocketAlive
  match alive with
  | some socket => if os.sendFd socket then ([.handedTo socket], d) else ([.u8 0], d)
  | none =>
    match (d.removeZnCompanion key).spawn os (.znLibrary libPath) with
    | (some socket, d) =>
      let d := { d with znCompanions := (key, socket) :: d.znCompanions }
      if os.sendFd socket then ([.handedTo socket], d) else ([.u8 0], d)
    | (none, d) => ([.u8 0], d)

/-- The descriptors of a plan, whose memfds are numbered from `firstFd`. -/
def sendPlan (firstFd : Nat) : List ZnPlanModule → List Sent
  | [] => []
  | m :: rest =>
    .string m.libPath :: .u8 (if m.companion then 1 else 0) :: .fd (.memfd firstFd) ::
      sendPlan (firstFd + 1) rest

def handleGetZnPlan (processName processPath : String) : List Sent × Daemon :=
  let matching := scanZnModulesForTarget os.toScanOs processName processPath
  (.usize matching.length :: sendPlan d.memfds.length matching,
    { d with memfds := d.memfds ++ matching.map ZnPlanModule.libFd })

/-- The counters of a library after one more report. -/
def countReport (states : List ZnState) (libPath : String) (injected : Bool) : List ZnState :=
  let key := PathBuf.ofString libPath
  let state := (states.find? fun state => state.key = key).getD ⟨key, libPath, 0, 0⟩
  let counted := if injected then { state with injected := state.injected + 1 }
    else { state with failed := state.failed + 1 }
  counted :: states.filter fun state => state.key ≠ key

def Daemon.report (libPath : String) (injected : Bool) : Daemon :=
  { d with znStates := countReport d.znStates libPath injected }

def handleReportZnModule (libPath : String) (injected : UInt8) : List Sent × Daemon :=
  match os.canonicalize pathModulesDir.toString with
  | none => ([], d)
  | some modulesDir =>
    ([.u8 1],
      if (PathBuf.ofString libPath).startsWith modulesDir then
        (d.report libPath (injected ≠ 0)).writeZnStateFile os
      else d)

def handleGetSharedMemoryFd : List Sent × Daemon :=
  match d.sharedMemory with
  | some _ => ([.u8 1, .fd .sharedMemory], d)
  | none => ([.u8 0], d)

/-- `save_mount_namespace`: whether it succeeded, and the daemon after it. -/
def Daemon.saveMountNamespace (pid : UInt32) (namespaceType : MountNamespace) : Bool × Daemon :=
  match d.namespaceFd namespaceType with
  | some _ => (true, d)
  | none =>
    match os.saveNamespace pid namespaceType with
    | none => (false, d)
    | some fd => (true, match namespaceType with
      | .clean => { d with cleanMntNs := some fd }
      | .root => { d with rootMntNs := some fd })

/-- The arm of `handle_connection` for `CacheMountNamespace`. -/
def handleCacheMountNamespace (pid : UInt32) : List Sent × Daemon :=
  if os.peerUid = some 0 ∨ os.peerUid = some 1000 then
    match d.saveMountNamespace os pid .clean with
    | (true, d) => ([], (d.saveMountNamespace os pid .root).2)
    | (false, d) => ([], d)
  else ([], d)

/-- The companions and the ZN states of a zygote that is gone. -/
def Daemon.dropCompanions : Daemon :=
  { d with modules := d.modules.map Module.dropCompanion, znCompanions := [], znStates := [] }

/-- The arm of `handle_connection` for `ZygoteRestart`. -/
def handleZygoteRestart : List Sent × Daemon :=
  ([], ((d.dropCompanions.writeZnStateFile os).refreshModules os).2)

/-- The arm of `handle_connection` for `RefreshModules`. -/
def handleRefreshModules : List Sent × Daemon :=
  match d.refreshModules os with
  | (ok, d) => ([.u8 (if ok then 1 else 0)], d)

/-- `handle_connection` and `handle_threaded_action`. What
`PingHeartbeat` and `SystemServerStarted` send goes to the monitor. -/
def handleConnection : Request → List Sent × Daemon
  | .pingHeartbeat | .systemServerStarted | .malformed => ([], d)
  | .getProcessFlags uid => handleGetProcessFlags os d uid
  | .cacheMountNamespace pid => handleCacheMountNamespace os d pid
  | .updateMountNamespace namespaceType => handleUpdateMountNamespace os d namespaceType
  | .readModules => handleReadModules os d
  | .requestCompanionSocket index => handleRequestCompanionSocket os d index
  | .getModuleDir index => handleGetModuleDir os d index
  | .zygoteRestart => handleZygoteRestart os d
  | .getSharedMemoryFd => handleGetSharedMemoryFd d
  | .requestZnCompanionSocket libPath => handleRequestZnCompanionSocket os d libPath
  | .getZnPlan processName processPath => handleGetZnPlan os d processName processPath
  | .reportZnModule libPath injected => handleReportZnModule os d libPath injected
  | .refreshModules => handleRefreshModules os d

end Handlers

/-- What reaches the peer of a reply: a write that fails ends it. -/
def delivered (os : Os) (sent : List Sent) : List Sent := sent.take os.writes

end NyaZygisk
