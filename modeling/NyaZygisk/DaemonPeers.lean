import NyaZygisk.Daemon

/-!
# What a peer of the daemon can learn and change

The daemon's socket is open to every process; what protects it are the checks
that single actions make on the peer's uid, and the seals of the memfds whose
descriptors it hands out.
-/

namespace NyaZygisk

open List Runs

/-! ## What a peer learns -/

/-- What the daemon knows of single uids: the answers of `root_impl`, the
exclusion list, and the table of flags that were asked for. -/
structure Policy where
  rootAnswers : UInt32 → RootAnswers
  excludeFiles : Exclude.Files
  excludeState : Option Exclude.State
  table : ShmLayout

/-- The same daemon with other knowledge of uids. -/
def Daemon.withPolicy (d : Daemon) (p : Policy) : Daemon :=
  { d with rootAnswers := p.rootAnswers, excludeFiles := p.excludeFiles,
           excludeState := p.excludeState, sharedMemory := some p.table }

/-- A written value, with what can be read through it if it is a descriptor. -/
def Daemon.observe (d : Daemon) : Sent → Sent × Option Content
  | .fd descriptor => (.fd descriptor, some (d.readable descriptor))
  | sent => (sent, none)

/-- The replies to a sequence of requests, as their peers see them. -/
def replies : Daemon → List (Os × Request) → List (List (Sent × Option Content))
  | _, [] => []
  | d, (os, request) :: rest =>
    let (sent, d) := handleConnection os d request
    (delivered os sent).map d.observe :: replies d rest

namespace DaemonPeersLemmas

section Policy

variable (os : Os) (d : Daemon) (p : Policy)

theorem refreshModules_withPolicy : (d.withPolicy p).refreshModules os =
    ((d.refreshModules os).1, (d.refreshModules os).2.withPolicy p) := by
  unfold Daemon.refreshModules
  cases loadModules os.toScanOs <;> rfl

theorem spawn_withPolicy (companion : CompanionFor) : (d.withPolicy p).spawn os companion =
    ((d.spawn os companion).1, (d.spawn os companion).2.withPolicy p) := by
  unfold Daemon.spawn
  cases os.spawn <;> rfl

theorem writeZnStateFile_withPolicy :
    (d.withPolicy p).writeZnStateFile os = (d.writeZnStateFile os).withPolicy p := by
  unfold Daemon.writeZnStateFile
  split <;> rfl

theorem saveMountNamespace_withPolicy (pid : UInt32) (namespaceType : MountNamespace) :
    (d.withPolicy p).saveMountNamespace os pid namespaceType =
      ((d.saveMountNamespace os pid namespaceType).1,
        (d.saveMountNamespace os pid namespaceType).2.withPolicy p) := by
  unfold Daemon.saveMountNamespace
  have hfd : (d.withPolicy p).namespaceFd namespaceType = d.namespaceFd namespaceType := by
    cases namespaceType <;> rfl
  rw [hfd]
  cases d.namespaceFd namespaceType with
  | some fd => rfl
  | none =>
    cases os.saveNamespace pid namespaceType with
    | none => rfl
    | some fd => cases namespaceType <;> rfl

variable {os d}

theorem cacheMountNamespace_withPolicy (pid : UInt32) :
    handleCacheMountNamespace os (d.withPolicy p) pid =
      ((handleCacheMountNamespace os d pid).1, (handleCacheMountNamespace os d pid).2.withPolicy p) := by
  simp only [handleCacheMountNamespace]
  split
  · rw [saveMountNamespace_withPolicy]
    cases hsave : d.saveMountNamespace os pid .clean with
    | mk ok d' =>
      cases ok with
      | true => simp only [saveMountNamespace_withPolicy]
      | false => rfl
  · rfl

theorem requestCompanionSocket_withPolicy (index : Nat) :
    handleRequestCompanionSocket os (d.withPolicy p) index =
      ((handleRequestCompanionSocket os d index).1,
        (handleRequestCompanionSocket os d index).2.withPolicy p) := by
  simp only [handleRequestCompanionSocket]
  have hmodules : (d.withPolicy p).modules = d.modules := rfl
  rw [hmodules]
  cases moduleAt d.modules index with
  | none => rfl
  | some module =>
    simp only [spawn_withPolicy]
    cases module.companion.filter os.isSocketAlive with
    | some socket => simp only; split <;> rfl
    | none =>
      simp only
      cases (d.spawn os (.module module.name)).1 with
      | none => rfl
      | some socket => simp only; split <;> rfl

theorem requestZnCompanionSocket_withPolicy (libPath : String) :
    handleRequestZnCompanionSocket os (d.withPolicy p) libPath =
      ((handleRequestZnCompanionSocket os d libPath).1,
        (handleRequestZnCompanionSocket os d libPath).2.withPolicy p) := by
  have htable : (d.withPolicy p).znCompanions = d.znCompanions := rfl
  have hremove : ∀ key, (d.withPolicy p).removeZnCompanion key =
      (d.removeZnCompanion key).withPolicy p := fun _ => rfl
  simp only [handleRequestZnCompanionSocket, htable, hremove, spawn_withPolicy]
  cases (d.znCompanions.lookup (.ofString libPath)).filter os.isSocketAlive with
  | some socket => simp only; split <;> rfl
  | none =>
    simp only
    cases (d.removeZnCompanion (.ofString libPath)).spawn os (.znLibrary libPath) with
    | mk companion d' =>
      cases companion with
      | none => rfl
      | some socket => simp only; split <;> rfl

/-- To a peer that is not root, a request is handled without regard to what is
known of uids, and leaves that as it was. -/
theorem policy_blind (hpeer : os.peerUid ≠ some 0) (hshm : d.sharedMemory.isSome = true)
    (request : Request) :
    handleConnection os (d.withPolicy p) request =
      ((handleConnection os d request).1, (handleConnection os d request).2.withPolicy p) := by
  cases request with
  | getProcessFlags uid =>
    simp only [handleConnection, handleGetProcessFlags, if_pos hpeer]
  | updateMountNamespace namespaceType =>
    simp only [handleConnection, handleUpdateMountNamespace, if_pos hpeer]
    cases MountNamespace.tryFrom namespaceType <;> rfl
  | cacheMountNamespace pid => exact cacheMountNamespace_withPolicy p pid
  | requestCompanionSocket index => exact requestCompanionSocket_withPolicy p index
  | getModuleDir index =>
    simp only [handleConnection, handleGetModuleDir]
    have hmodules : (d.withPolicy p).modules = d.modules := rfl
    rw [hmodules]
    cases moduleAt d.modules index with
    | none => rfl
    | some module => simp only; split <;> rfl
  | zygoteRestart =>
    have hdrop : (d.withPolicy p).dropCompanions = d.dropCompanions.withPolicy p := rfl
    simp only [handleConnection, handleZygoteRestart, hdrop, writeZnStateFile_withPolicy,
      refreshModules_withPolicy]
  | getSharedMemoryFd =>
    simp only [handleConnection, handleGetSharedMemoryFd]
    cases hd : d.sharedMemory with
    | none => rw [hd] at hshm; cases hshm
    | some layout => rfl
  | requestZnCompanionSocket libPath => exact requestZnCompanionSocket_withPolicy p libPath
  | reportZnModule libPath injected =>
    have hreport : ∀ path injected, (d.withPolicy p).report path injected =
        (d.report path injected).withPolicy p := fun _ _ => rfl
    simp only [handleConnection, handleReportZnModule, hreport, writeZnStateFile_withPolicy]
    cases os.canonicalize pathModulesDir.toString with
    | none => rfl
    | some modulesDir => simp only; split <;> rfl
  | refreshModules =>
    simp only [handleConnection, handleRefreshModules, refreshModules_withPolicy]
  | pingHeartbeat | systemServerStarted | malformed | readModules | getZnPlan _ _ => rfl

end Policy

theorem sharedMemory_not_mem_sendPlan (firstFd : Nat) (plan : List ZnPlanModule) :
    Sent.fd .sharedMemory ∉ sendPlan firstFd plan := by
  induction plan generalizing firstFd with
  | nil => exact not_mem_nil
  | cons m rest ih => simp [sendPlan, ih]

/-- Only `GetSharedMemoryFd` passes the descriptor of the shared table. -/
theorem sharedMemory_not_sent {os : Os} {d : Daemon} {request : Request}
    (h : request ≠ .getSharedMemoryFd) :
    Sent.fd .sharedMemory ∉ (handleConnection os d request).1 := by
  cases request with
  | getSharedMemoryFd => exact absurd rfl h
  | getZnPlan processName processPath =>
    simp [handleConnection, handleGetZnPlan, sharedMemory_not_mem_sendPlan]
  | readModules | refreshModules | zygoteRestart | pingHeartbeat | systemServerStarted | malformed =>
    simp [handleConnection, handleReadModules, handleRefreshModules, handleZygoteRestart]
  | getProcessFlags _ | cacheMountNamespace _ | updateMountNamespace _ | requestCompanionSocket _
  | getModuleDir _ | requestZnCompanionSocket _ | reportZnModule _ _ =>
    simp only [handleConnection, handleGetProcessFlags, handleCacheMountNamespace,
      handleUpdateMountNamespace, handleRequestCompanionSocket, handleGetModuleDir,
      handleRequestZnCompanionSocket, handleReportZnModule]
    -- no branch of these handlers passes it
    repeat' split
    all_goals simp

/-- When the descriptor of the shared table reaches the peer. -/
theorem sharedMemory_delivered_iff {os : Os} {d : Daemon} (hshm : d.sharedMemory.isSome = true)
    (request : Request) :
    Sent.fd .sharedMemory ∈ delivered os (handleConnection os d request).1 ↔
      request = .getSharedMemoryFd ∧ 2 ≤ os.writes := by
  by_cases hrequest : request = .getSharedMemoryFd
  · subst hrequest
    obtain ⟨layout, hlayout⟩ := Option.isSome_iff_exists.mp hshm
    simp only [delivered, handleConnection, handleGetSharedMemoryFd, hlayout, true_and]
    rcases os.writes with _ | _ | n <;> simp
  · refine iff_of_false (fun h => ?_) (fun h => hrequest h.1)
    exact sharedMemory_not_sent hrequest (mem_of_mem_take h)

/-- Two daemons that differ in what they know of uids look the same through
every descriptor but that of the shared table. -/
theorem observe_withPolicy (d : Daemon) (p q : Policy) (sent : Sent) :
    (d.withPolicy p).observe sent = (d.withPolicy q).observe sent ↔
      (sent = .fd .sharedMemory → p.table = q.table) := by
  cases sent with
  | fd descriptor =>
    cases descriptor with
    | sharedMemory =>
      simp [Daemon.observe, Daemon.readable, Daemon.withPolicy]
    | memfd _ | directory _ | mountNamespace _ => exact iff_of_true rfl nofun
  | _ => exact iff_of_true rfl nofun

end DaemonPeersLemmas

open DaemonPeersLemmas

/-- For all two daemons that differ only in what they know of uids, and every
sequence of requests by peers that are not root: the replies are the same
exactly when the two shared tables are, or no reply hands out the descriptor of
the table. -/
theorem nonroot_replies_iff (d : Daemon) (p q : Policy) (requests : List (Os × Request))
    (hpeers : ∀ x ∈ requests, x.1.peerUid ≠ some 0) :
    replies (d.withPolicy p) requests = replies (d.withPolicy q) requests ↔
      p.table = q.table ∨ ∀ x ∈ requests, x.2 = .getSharedMemoryFd → x.1.writes < 2 := by
  induction requests generalizing d with
  | nil => exact iff_of_true rfl (.inr fun x hx => absurd hx not_mem_nil)
  | cons x rest ih =>
    obtain ⟨os, request⟩ := x
    rw [forall_mem_cons] at hpeers ⊢
    obtain ⟨hfirst, hrest⟩ := hpeers
    have hpeer : os.peerUid ≠ some 0 := hfirst
    obtain ⟨sent, d', hq, hp⟩ : ∃ (sent : List Sent) (d' : Daemon),
        handleConnection os (d.withPolicy q) request = (sent, d'.withPolicy q) ∧
        handleConnection os (d.withPolicy p) request = (sent, d'.withPolicy p) :=
      ⟨_, _, policy_blind q hpeer (d := d.withPolicy q) rfl request,
        policy_blind p hpeer (d := d.withPolicy q) rfl request⟩
    have hhanded : Sent.fd .sharedMemory ∈ delivered os _ ↔ _ :=
      sharedMemory_delivered_iff (d := d.withPolicy q) rfl request
    rw [hq] at hhanded
    have hhead : (delivered os sent).map (d'.withPolicy p).observe =
        (delivered os sent).map (d'.withPolicy q).observe ↔
        (request = .getSharedMemoryFd ∧ 2 ≤ os.writes → p.table = q.table) := by
      simp only [map_inj_left, observe_withPolicy, ← hhanded]
      exact ⟨fun h hm => h _ hm rfl, fun h x hx he => h (he ▸ hx)⟩
    simp only [replies, hp, hq, List.cons.injEq, hhead, ih d' hrest]
    constructor
    · rintro ⟨hsame, hlater⟩
      rcases hlater with htable | hlater
      · exact .inl htable
      · by_cases htable : p.table = q.table
        · exact .inl htable
        · refine .inr ⟨fun hrequest => ?_, hlater⟩
          exact Nat.lt_of_not_le fun hwrites => htable (hsame ⟨hrequest, hwrites⟩)
    · rintro (htable | ⟨hnow, hlater⟩)
      · exact ⟨fun _ => htable, .inl htable⟩
      · exact ⟨fun h => absurd (hnow h.1) (Nat.not_lt.mpr h.2), .inr hlater⟩

/-- A system without a module directory, in which nothing fails for lack of the
peer's attention. -/
def quietOs (peerUid : Option UInt32) : Os where
  is64 := true
  abi := "arm64-v8a"
  readDir := fun _ => .notFound
  pathExists := fun _ => false
  readToString := fun _ => none
  canonicalize := fun _ => none
  openFile := fun _ => none
  copyToMemfd := fun _ => false
  addSeals := fun _ => false
  peerUid := peerUid
  writes := 16
  isSocketAlive := fun _ => true
  sendFd := fun _ => true
  spawn := .notStarted
  stillRuns := fun _ => true
  saveNamespace := fun _ _ => none
  openDir := fun _ => false
  writeStateFile := true

def freshDaemon : Daemon where
  modules := []
  memfds := []
  cleanMntNs := none
  rootMntNs := none
  znCompanions := []
  znStates := []
  znStateFile := none
  pendingCompanions := []
  started := []
  sharedMemory := some initializeSharedMemory
  rootAnswers := fun _ => plainRoot
  excludeFiles := ⟨excludingConfig, oneAppList⟩
  excludeState := none

/-- Uid 10001 has been granted root, or not; nobody was asked about yet. -/
def grantPolicy (granted : Bool) : Policy where
  rootAnswers := fun uid => ⟨.magisk, false, granted && uid = 10001, false⟩
  excludeFiles := ⟨⟨none, none⟩, oneAppList⟩
  excludeState := none
  table := initializeSharedMemory

/-- An app that asks about another app, and for the modules. -/
theorem nonroot_replies_iff_asking :
    replies (freshDaemon.withPolicy (grantPolicy true))
        [(quietOs (some 10002), .getProcessFlags 10001), (quietOs (some 10002), .readModules)] =
      replies (freshDaemon.withPolicy (grantPolicy false))
        [(quietOs (some 10002), .getProcessFlags 10001), (quietOs (some 10002), .readModules)] := by
  refine (nonroot_replies_iff freshDaemon _ _ _ ?_).mpr (.inl rfl)
  intro x hx
  simp only [mem_cons, not_mem_nil, or_false] at hx
  rcases hx with rfl | rfl <;> exact nofun

/-- The daemon after the zygote has asked about uid 10001. -/
def askedDaemon (granted : Bool) : Daemon :=
  (handleConnection (quietOs (some 0)) (freshDaemon.withPolicy (grantPolicy granted))
    (.getProcessFlags 10001)).2

/-- The flags of uid 10001 that can be read through a passed descriptor. -/
def flagsSeen : Sent × Option Content → Option UInt32
  | (_, some (.table layout)) => some (layout.entries (homeSlot 10001)).flags
  | _ => none

/-- An app that asks for the shared table reads in it whether another app has
been granted root. -/
theorem nonroot_reply_tells_root_grant :
    (∀ granted, ∃ p, askedDaemon granted = freshDaemon.withPolicy p) ∧
      replies (askedDaemon true) [(quietOs (some 10002), .getSharedMemoryFd)] ≠
        replies (askedDaemon false) [(quietOs (some 10002), .getSharedMemoryFd)] := by
  refine ⟨fun granted => ⟨⟨_, _, _, _⟩, rfl⟩, fun h => ?_⟩
  have hflags := congrArg (fun seen => seen.flatten.filterMap flagsSeen) h
  exact absurd hflags (by decide)

/-! ## What a peer changes -/

/-- The modules as a client of `ReadModules` is told them: their names, and what
their libraries hold. -/
def Daemon.published (d : Daemon) : List (String × Option (List UInt8)) :=
  d.modules.map fun m => (m.name, d.memfds[m.libFd]?.map MemFile.content)

/-- What zygote is told. -/
structure Told where
  modules : List (String × Option (List UInt8))
  cleanMntNs : Option Nat
  rootMntNs : Option Nat
  table : Option ShmLayout

def Daemon.told (d : Daemon) : Told := ⟨d.published, d.cleanMntNs, d.rootMntNs, d.sharedMemory⟩

/-- Every module's library is in a memfd. -/
def Daemon.LibrariesHeld (d : Daemon) : Prop := ∀ m ∈ d.modules, m.libFd < d.memfds.length

def Os.untrusted (os : Os) : Bool := os.peerUid ≠ some 0 && os.peerUid ≠ some 1000

namespace DaemonPeersLemmas

/-- Nothing that zygote is told has changed; there may be more memfds. -/
structure Keeps (d d' : Daemon) : Prop where
  modules : d'.modules.map (fun m => (m.name, m.libFd)) = d.modules.map fun m => (m.name, m.libFd)
  memfds : ∃ more, d'.memfds = d.memfds ++ more
  cleanMntNs : d'.cleanMntNs = d.cleanMntNs
  rootMntNs : d'.rootMntNs = d.rootMntNs
  table : d'.sharedMemory = d.sharedMemory

/-- The snapshot was replaced by what a scan found. -/
structure Replaced (loaded : List (String × MemFile)) (d d' : Daemon) : Prop where
  modules : d'.modules = numberModules d.memfds.length loaded
  memfds : d'.memfds = d.memfds ++ loaded.map Prod.snd
  cleanMntNs : d'.cleanMntNs = d.cleanMntNs
  rootMntNs : d'.rootMntNs = d.rootMntNs
  table : d'.sharedMemory = d.sharedMemory

theorem Keeps.refl (d : Daemon) : Keeps d d := ⟨rfl, ⟨[], by simp⟩, rfl, rfl, rfl⟩

theorem keeps_spawn (d : Daemon) (os : Os) (companion : CompanionFor) :
    (d.spawn os companion).2.modules = d.modules ∧ Keeps d (d.spawn os companion).2 := by
  unfold Daemon.spawn
  cases os.spawn <;> exact ⟨rfl, rfl, ⟨[], by simp⟩, rfl, rfl, rfl⟩

theorem keeps_writeZnStateFile (d : Daemon) (os : Os) : Keeps d (d.writeZnStateFile os) := by
  unfold Daemon.writeZnStateFile
  split
  · exact ⟨rfl, ⟨[], by simp⟩, rfl, rfl, rfl⟩
  · exact .refl d

theorem keeps_dropCompanions (d : Daemon) (os : Os) :
    (d.dropCompanions.writeZnStateFile os).memfds = d.memfds ∧
      Keeps d (d.dropCompanions.writeZnStateFile os) := by
  have hnames : d.dropCompanions.modules.map (fun m => (m.name, m.libFd)) =
      d.modules.map fun m => (m.name, m.libFd) := by
    simp [Daemon.dropCompanions, Module.dropCompanion, Function.comp_def]
  unfold Daemon.writeZnStateFile
  split <;> exact ⟨rfl, hnames, ⟨[], by simp [Daemon.dropCompanions]⟩, rfl, rfl, rfl⟩

theorem map_set_companion {modules : List Module} {index : Nat} {module : Module}
    (h : moduleAt modules index = some module) (companion : Option Nat) :
    (modules.set index { module with companion }).map (fun m => (m.name, m.libFd)) =
      modules.map fun m => (m.name, m.libFd) := by
  unfold moduleAt at h
  rw [map_set]
  apply ext_getElem?
  intro k
  rw [getElem?_set]
  split
  · next hk =>
    subst hk
    obtain ⟨hlt, hget⟩ := List.getElem?_eq_some_iff.mp h
    simp [hlt, hget]
  · rfl

theorem refreshModules_cases (d : Daemon) (os : Os) :
    (d.refreshModules os = (false, d) ∧ loadModules os.toScanOs = none) ∨
      ∃ loaded, loadModules os.toScanOs = some loaded ∧
        Replaced loaded d (d.refreshModules os).2 := by
  unfold Daemon.refreshModules
  cases loadModules os.toScanOs with
  | none => exact .inl ⟨rfl, rfl⟩
  | some loaded => exact .inr ⟨loaded, rfl, rfl, rfl, rfl, rfl, rfl⟩

theorem keeps_requestCompanionSocket (os : Os) (d : Daemon) (index : Nat) :
    Keeps d (handleRequestCompanionSocket os d index).2 := by
  unfold handleRequestCompanionSocket
  cases hmodule : moduleAt d.modules index with
  | none => exact .refl d
  | some module =>
    simp only
    cases module.companion.filter os.isSocketAlive with
    | some socket =>
      have hset := map_set_companion hmodule (some socket)
      simp only
      split <;> exact ⟨hset, ⟨[], (append_nil _).symm⟩, rfl, rfl, rfl⟩
    | none =>
      obtain ⟨hmodules, hspawn⟩ := keeps_spawn d os (.module module.name)
      cases hd : d.spawn os (.module module.name) with
      | mk companion d' =>
        rw [hd] at hmodules hspawn
        have hset := map_set_companion hmodule companion
        simp only at hmodules ⊢
        rw [hmodules]
        have hkeeps : Keeps d { d' with
            modules := d.modules.set index { module with companion } } :=
          ⟨hset, hspawn.memfds, hspawn.cleanMntNs, hspawn.rootMntNs, hspawn.table⟩
        cases companion with
        | none => exact hkeeps
        | some socket => simp only; split <;> exact hkeeps

theorem keeps_requestZnCompanionSocket (os : Os) (d : Daemon) (libPath : String) :
    Keeps d (handleRequestZnCompanionSocket os d libPath).2 := by
  have hspawn := (keeps_spawn (d.removeZnCompanion (.ofString libPath)) os (.znLibrary libPath)).2
  simp only [handleRequestZnCompanionSocket]
  split
  · split <;> exact .refl d
  split
  · next socket d' hd =>
    rw [hd] at hspawn
    split <;> exact ⟨hspawn.modules, hspawn.memfds, hspawn.cleanMntNs, hspawn.rootMntNs, hspawn.table⟩
  · next d' hd =>
    rw [hd] at hspawn
    exact ⟨hspawn.modules, hspawn.memfds, hspawn.cleanMntNs, hspawn.rootMntNs, hspawn.table⟩

theorem keeps_reportZnModule (os : Os) (d : Daemon) (libPath : String) (injected : UInt8) :
    Keeps d (handleReportZnModule os d libPath injected).2 := by
  simp only [handleReportZnModule]
  split
  · exact .refl d
  split
  · have hwrite := keeps_writeZnStateFile (d.report libPath (injected ≠ 0)) os
    exact ⟨hwrite.modules, hwrite.memfds, hwrite.cleanMntNs, hwrite.rootMntNs, hwrite.table⟩
  · exact .refl d

/-- What a request of an untrusted peer can do to what zygote is told: nothing,
or a scan that it asked for has replaced the snapshot. -/
theorem untrusted_cases {os : Os} (hpeer : os.untrusted = true) (d : Daemon) (request : Request) :
    (Keeps d (handleConnection os d request).2 ∧
      (request = .refreshModules ∨ request = .zygoteRestart → loadModules os.toScanOs = none)) ∨
    ((request = .refreshModules ∨ request = .zygoteRestart) ∧
      ∃ loaded, loadModules os.toScanOs = some loaded ∧
        Replaced loaded d (handleConnection os d request).2) := by
  simp only [Os.untrusted, Bool.and_eq_true, decide_eq_true_eq, ne_eq] at hpeer
  obtain ⟨hroot, hsystem⟩ := hpeer
  cases request with
  | refreshModules =>
    rcases refreshModules_cases d os with ⟨hsame, hnone⟩ | ⟨loaded, hloaded, hreplaced⟩
    · refine .inl ⟨?_, fun _ => hnone⟩
      show Keeps d (d.refreshModules os).2
      rw [hsame]
      exact .refl d
    · exact .inr ⟨.inl rfl, loaded, hloaded, hreplaced⟩
  | zygoteRestart =>
    obtain ⟨hmemfds, hkeeps⟩ := keeps_dropCompanions d os
    rcases refreshModules_cases (d.dropCompanions.writeZnStateFile os) os with
      ⟨hsame, hnone⟩ | ⟨loaded, hloaded, hreplaced⟩
    · refine .inl ⟨?_, fun _ => hnone⟩
      show Keeps d ((d.dropCompanions.writeZnStateFile os).refreshModules os).2
      rw [hsame]
      exact hkeeps
    · refine .inr ⟨.inr rfl, loaded, hloaded, ?_⟩
      exact ⟨hreplaced.modules.trans (by rw [hmemfds]), hreplaced.memfds.trans (by rw [hmemfds]),
        hreplaced.cleanMntNs.trans hkeeps.cleanMntNs, hreplaced.rootMntNs.trans hkeeps.rootMntNs,
        hreplaced.table.trans hkeeps.table⟩
  | getProcessFlags uid =>
    refine .inl ⟨?_, by simp⟩
    simp only [handleConnection, handleGetProcessFlags, if_pos hroot]
    exact .refl d
  | cacheMountNamespace pid =>
    refine .inl ⟨?_, by simp⟩
    simp only [handleConnection, handleCacheMountNamespace, hroot, hsystem, or_self, if_false]
    exact .refl d
  | updateMountNamespace namespaceType =>
    refine .inl ⟨?_, by simp⟩
    simp only [handleConnection, handleUpdateMountNamespace, if_pos hroot]
    split <;> exact .refl d
  | readModules =>
    exact .inl ⟨⟨rfl, ⟨[], (append_nil _).symm⟩, rfl, rfl, rfl⟩, by simp⟩
  | requestCompanionSocket index => exact .inl ⟨keeps_requestCompanionSocket os d index, by simp⟩
  | getModuleDir index =>
    refine .inl ⟨?_, by simp⟩
    simp only [handleConnection, handleGetModuleDir]
    split
    · exact .refl d
    split <;> exact .refl d
  | requestZnCompanionSocket libPath =>
    exact .inl ⟨keeps_requestZnCompanionSocket os d libPath, by simp⟩
  | getZnPlan processName processPath =>
    exact .inl ⟨⟨rfl, ⟨_, rfl⟩, rfl, rfl, rfl⟩, by simp⟩
  | reportZnModule libPath injected => exact .inl ⟨keeps_reportZnModule os d libPath injected, by simp⟩
  | getSharedMemoryFd =>
    refine .inl ⟨?_, by simp⟩
    simp only [handleConnection, handleGetSharedMemoryFd]
    split <;> exact .refl d
  | pingHeartbeat | systemServerStarted | malformed => exact .inl ⟨.refl d, by simp⟩

theorem published_eq (d : Daemon) : d.published =
    (d.modules.map fun m => (m.name, m.libFd)).map
      fun x => (x.1, d.memfds[x.2]?.map MemFile.content) := by
  simp [Daemon.published, Function.comp_def]

theorem told_of_keeps {d d' : Daemon} (hd : d.LibrariesHeld) (h : Keeps d d') :
    d'.told = d.told ∧ d'.LibrariesHeld := by
  obtain ⟨more, hmore⟩ := h.memfds
  have hheld (d : Daemon) : d.LibrariesHeld ↔
      ∀ x ∈ d.modules.map (fun m => (m.name, m.libFd)), x.2 < d.memfds.length := by
    simp [Daemon.LibrariesHeld]
  rw [hheld] at hd ⊢
  constructor
  · have hpublished : d'.published = d.published := by
      rw [published_eq, published_eq, h.modules, hmore]
      refine map_congr_left fun x hx => ?_
      rw [getElem?_append_left (hd x hx)]
    unfold Daemon.told
    rw [hpublished, h.cleanMntNs, h.rootMntNs, h.table]
  · intro x hx
    rw [h.modules] at hx
    rw [hmore, length_append]
    exact Nat.lt_add_right _ (hd x hx)

theorem numberModules_spec (before : List MemFile) (loaded : List (String × MemFile)) :
    ((numberModules before.length loaded).map fun m =>
        (m.name, (before ++ loaded.map Prod.snd)[m.libFd]?.map MemFile.content)) =
      loaded.map (fun x => (x.1, some x.2.content)) ∧
    ∀ m ∈ numberModules before.length loaded,
      m.libFd < (before ++ loaded.map Prod.snd).length := by
  induction loaded generalizing before with
  | nil => exact ⟨rfl, fun m hm => absurd hm not_mem_nil⟩
  | cons x rest ih =>
    obtain ⟨name, file⟩ := x
    obtain ⟨hmap, hheld⟩ := ih (before ++ [file])
    rw [length_append, length_singleton, append_assoc] at hmap hheld
    rw [numberModules, map_cons, map_cons, map_cons]
    simp only [singleton_append] at hmap hheld
    refine ⟨by rw [hmap]; simp, forall_mem_cons.mpr ⟨by simp, hheld⟩⟩

theorem told_of_replaced {d d' : Daemon} {loaded : List (String × MemFile)}
    (h : Replaced loaded d d') :
    d'.told = ⟨loaded.map fun x => (x.1, some x.2.content), d.cleanMntNs, d.rootMntNs,
      d.sharedMemory⟩ ∧ d'.LibrariesHeld := by
  obtain ⟨hmap, hheld⟩ := numberModules_spec d.memfds loaded
  constructor
  · unfold Daemon.told Daemon.published
    rw [h.modules, h.memfds, h.cleanMntNs, h.rootMntNs, h.table, hmap]
  · unfold Daemon.LibrariesHeld
    rw [h.modules, h.memfds]
    exact hheld

theorem librariesHeld_untrusted {os : Os} (hpeer : os.untrusted = true) {d : Daemon}
    (hd : d.LibrariesHeld) (request : Request) :
    (handleConnection os d request).2.LibrariesHeld := by
  rcases untrusted_cases hpeer d request with ⟨hkeeps, _⟩ | ⟨_, loaded, _, hreplaced⟩
  · exact (told_of_keeps hd hkeeps).2
  · exact (told_of_replaced hreplaced).2

end DaemonPeersLemmas

/-- The seals `initialize_shared_memory` sets on the shared table. -/
def sharedMemorySeals : List FileSeal := [.sealShrink, .sealGrow, .sealSeal]

/-- The daemon with the descriptors that untrusted peers hold. -/
structure PeerSystem where
  daemon : Daemon
  passed : List Descriptor
  librariesHeld : daemon.LibrariesHeld

inductive PeerEvent
  | request (os : Os) (request : Request)
  /-- A peer writes to the shared table, which then has this content. -/
  | writeTable (layout : ShmLayout)
  /-- A peer writes to a memfd, which then has this content. -/
  | writeMemfd (id : Nat) (content : List UInt8)

def descriptors (sent : List Sent) : List Descriptor :=
  sent.filterMap fun s => match s with
    | .fd descriptor => some descriptor
    | _ => none

def Daemon.writeTable (d : Daemon) (layout : ShmLayout) : Daemon :=
  { d with sharedMemory := d.sharedMemory.map fun _ => layout }

def Daemon.writeMemfd (d : Daemon) (id : Nat) (content : List UInt8) : Daemon :=
  { d with memfds := d.memfds.modify id fun file => { file with content } }

/-- What an untrusted peer can do: make requests, and write through the
descriptors it was passed as far as their seals allow. All memfds are opened for
reading and writing. -/
def PeerSystem.step (s : PeerSystem) : PeerEvent → Option PeerSystem
  | .request os request =>
    if hpeer : os.untrusted = true then
      let reply := handleConnection os s.daemon request
      some ⟨reply.2, s.passed ++ descriptors (delivered os reply.1),
        librariesHeld_untrusted hpeer s.librariesHeld request⟩
    else none
  | .writeTable layout =>
    if .sharedMemory ∈ s.passed ∧ .sealWrite ∉ sharedMemorySeals then
      some ⟨s.daemon.writeTable layout, s.passed, s.librariesHeld⟩
    else none
  | .writeMemfd id content =>
    match s.daemon.memfds[id]? with
    | some file =>
      if .memfd id ∈ s.passed ∧ .sealWrite ∉ file.seals then
        some ⟨s.daemon.writeMemfd id content, s.passed, by
          have h := s.librariesHeld
          unfold Daemon.LibrariesHeld Daemon.writeMemfd at *
          simpa using h⟩
      else none
    | none => none

def PeerSystem.Step (s : PeerSystem) (e : PeerEvent) (t : PeerSystem) : Prop := s.step e = some t

/-- The event changes nothing that zygote is told: a scan that a peer asks for
fails or finds what is published, and a write stores what is there. -/
def ChangesNothing (s : PeerSystem) : PeerEvent → Prop
  | .request os request => request = .refreshModules ∨ request = .zygoteRestart →
    ∀ loaded, loadModules os.toScanOs = some loaded →
      loaded.map (fun x => (x.1, some x.2.content)) = s.daemon.published
  | .writeTable layout => ∀ current, s.daemon.sharedMemory = some current → layout = current
  | .writeMemfd id content => ∀ m ∈ s.daemon.modules, m.libFd = id →
    ∀ file, s.daemon.memfds[id]? = some file → content = file.content

namespace DaemonPeersLemmas

theorem writeTable_told_iff (d : Daemon) (layout : ShmLayout) :
    (d.writeTable layout).told = d.told ↔
      ∀ current, d.sharedMemory = some current → layout = current := by
  have htable : (d.writeTable layout).told = d.told ↔
      d.sharedMemory.map (fun _ => layout) = d.sharedMemory := by
    refine ⟨congrArg Told.table, fun h => ?_⟩
    show Told.mk d.published d.cleanMntNs d.rootMntNs (d.sharedMemory.map fun _ => layout) = d.told
    rw [h]
    rfl
  rw [htable]
  cases d.sharedMemory <;> simp

theorem writeMemfd_told_iff (d : Daemon) (id : Nat) (content : List UInt8) :
    (d.writeMemfd id content).told = d.told ↔
      ∀ m ∈ d.modules, m.libFd = id →
        ∀ file, d.memfds[id]? = some file → content = file.content := by
  have hmodules : (d.writeMemfd id content).told = d.told ↔
      (d.writeMemfd id content).published = d.published := by
    refine ⟨congrArg Told.modules, fun h => ?_⟩
    unfold Daemon.told
    rw [h]
    rfl
  rw [hmodules]
  unfold Daemon.published Daemon.writeMemfd
  simp only [map_inj_left, getElem?_modify, Prod.mk.injEq, true_and]
  refine forall₂_congr fun m _ => ?_
  by_cases hid : id = m.libFd
  · subst hid
    cases d.memfds[m.libFd]? <;> simp
  · simp [hid, Ne.symm hid]

/-- One event leaves what zygote is told as it was exactly when it meets the
condition. -/
theorem step_told_iff {s t : PeerSystem} {e : PeerEvent} (h : s.Step e t) :
    t.daemon.told = s.daemon.told ↔ ChangesNothing s e := by
  unfold PeerSystem.Step at h
  cases e with
  | request os request =>
    simp only [PeerSystem.step] at h
    split at h
    · next hpeer =>
      cases h
      rcases untrusted_cases hpeer s.daemon request with
        ⟨hkeeps, hnone⟩ | ⟨hscan, loaded, hloaded, hreplaced⟩
      · refine iff_of_true (told_of_keeps s.librariesHeld hkeeps).1 fun hscan loaded hloaded => ?_
        rw [hnone hscan] at hloaded
        cases hloaded
      · simp only [(told_of_replaced hreplaced).1]
        constructor
        · intro htold _ loaded' hloaded'
          rw [hloaded] at hloaded'
          cases hloaded'
          exact congrArg Told.modules htold
        · intro hsame
          unfold Daemon.told
          rw [hsame hscan loaded hloaded]
    · cases h
  | writeTable layout =>
    simp only [PeerSystem.step] at h
    split at h
    · cases h; exact writeTable_told_iff s.daemon layout
    · cases h
  | writeMemfd id content =>
    simp only [PeerSystem.step] at h
    split at h
    · next file hfile =>
      split at h
      · cases h; exact writeMemfd_told_iff s.daemon id content
      · cases h
    · cases h

end DaemonPeersLemmas

/-- For every daemon and every run of requests and writes by peers other than
root and system: what zygote is told is the same in all states as it was before
exactly when every scan that these peers asked for failed or found what was
published, and every write through a passed descriptor stored what was there. -/
theorem untrusted_peers_change_nothing_iff {s t : PeerSystem} {tr : List (PeerSystem × PeerEvent)}
    (h : Run PeerSystem.Step s tr t) :
    (∀ p ∈ tr, ChangesNothing p.1 p.2) ↔
      ∀ u ∈ visited tr t, u.daemon.told = s.daemon.told :=
  h.forall_ok_iff (fun _ => True) (fun u => u.daemon.told = s.daemon.told) ChangesNothing
    (fun _ _ _ _ _ => trivial)
    (fun u e v _ hu hstep => by rw [← hu]; exact step_told_iff hstep) trivial rfl

def freshSystem : PeerSystem := ⟨freshDaemon, [], nofun⟩

/-- An app claims that zygote restarted, while there are no modules. -/
theorem untrusted_peers_change_nothing_iff_restart :
    ∃ t, freshSystem.Step (.request (quietOs (some 10002)) .zygoteRestart) t ∧
      t.daemon.told = freshDaemon.told := by
  have hstep : freshSystem.Step (.request (quietOs (some 10002)) .zygoteRestart) _ := rfl
  refine ⟨_, hstep, (untrusted_peers_change_nothing_iff (.single hstep)).mp ?_ _
    (mem_visited_end _ _)⟩
  intro p hp
  rw [mem_singleton] at hp
  subst hp
  intro _ loaded hloaded
  have hnone : loadModules (quietOs (some 10002)).toScanOs = some [] := by decide
  rw [hnone] at hloaded
  cases hloaded
  rfl

/-- The flags an app would like zygote to see for its own uid. -/
def forgedTable : ShmLayout := cacheProcessFlags initializeSharedMemory 10002 ProcessFlags.isManager

/-- An app asks for the shared table and writes to it: zygote is then told that
the app is the root manager. -/
theorem untrusted_peer_forges_flags :
    ∃ tr t, Run PeerSystem.Step freshSystem tr t ∧
      t.daemon.sharedMemory.map (fun layout => (layout.entries (homeSlot 10002)).flags) =
        some ProcessFlags.isManager ∧
      t.daemon.told ≠ freshSystem.daemon.told := by
  obtain ⟨hrun, _⟩ := run_exec_get (show (exec PeerSystem.step freshSystem
    [.request (quietOs (some 10002)) .getSharedMemoryFd, .writeTable forgedTable]).isSome = true
    from rfl)
  refine ⟨_, _, hrun, rfl, fun h => ?_⟩
  have hflags := congrArg (fun told => told.table.map fun layout =>
    (layout.entries (homeSlot 10002)).flags) h
  exact absurd hflags (by decide)

end NyaZygisk
