import NyaZygisk.DaemonPeers

/-!
# Which libraries become root companions

A process that loaded a Zygisk Next library may ask for its companion: the
daemon starts a process as root that loads the library named in the request. The
request names it by a path that the daemon takes as it is; the libraries it hands
out itself are those of `scan_zn_modules_for_target`.
-/

namespace NyaZygisk

open List Runs

/-- The daemon would hand out this library, with its companion set, to some
process. -/
def HandedOut (os : ScanOs) (libPath : String) : Prop :=
  ∃ processName processPath, ∃ m, m ∈ scanZnModulesForTarget os processName processPath ∧
    m.companion = true ∧ PathBuf.ofString m.libPath = PathBuf.ofString libPath

/-- One request to the daemon. -/
def Daemon.Step (d : Daemon) (x : Os × Request) (d' : Daemon) : Prop :=
  d' = (handleConnection x.1 d x.2).2

/-- In this step a companion process is started for the library at this path. -/
def StartsCompanion (d : Daemon) (x : Os × Request) (libPath : String) : Prop :=
  (handleConnection x.1 d x.2).2.started = .znLibrary libPath :: d.started

/-- The rule for one step: a companion is started only for a library that is
handed out, and a request for any other library is answered with status 0. -/
def OnlyHandedOut (d : Daemon) (x : Os × Request) : Prop :=
  (∀ libPath, StartsCompanion d x libPath → HandedOut x.1.toScanOs libPath) ∧
    ∀ libPath, x.2 = .requestZnCompanionSocket libPath → ¬ HandedOut x.1.toScanOs libPath →
      (handleConnection x.1 d x.2).1 = [.u8 0]

/-- No companion of a library was started, and there is none in the table. -/
def Daemon.NoZnCompanions (d : Daemon) : Prop :=
  (∀ libPath, .znLibrary libPath ∉ d.started) ∧ d.znCompanions = []

/-- The rule for a run that ends in `t`: every step follows it, and the companions
that were started and those in the table are of libraries that were handed out at
the time. -/
structure OnlyHandedOutIn (tr : List (Daemon × Os × Request)) (t : Daemon) : Prop where
  steps : ∀ p ∈ tr, OnlyHandedOut p.1 p.2
  started : ∀ libPath, .znLibrary libPath ∈ t.started →
    ∃ p, p ∈ tr ∧ HandedOut p.2.1.toScanOs libPath
  table : ∀ entry ∈ t.znCompanions,
    ∃ p, p ∈ tr ∧ ∃ libPath, HandedOut p.2.1.toScanOs libPath ∧ entry.1 = PathBuf.ofString libPath

/-- A request for a companion of this library comes to nothing: the companion that
the daemon has and that is alive cannot be sent the connection, or there is none
and no process can be started. -/
def Daemon.CannotServe (d : Daemon) (os : Os) (libPath : String) : Prop :=
  match (d.znCompanions.lookup (PathBuf.ofString libPath)).filter os.isSocketAlive with
  | some socket => os.sendFd socket = false
  | none => os.spawn = .notStarted

/-- A request for a companion names a library that is handed out, unless it comes
to nothing anyway. -/
def NamesHandedOut (d : Daemon) (x : Os × Request) : Prop :=
  ∀ libPath, x.2 = .requestZnCompanionSocket libPath →
    HandedOut x.1.toScanOs libPath ∨ d.CannotServe x.1 libPath

namespace ZnCompanionsLemmas

open DaemonPeersLemmas

theorem spawn_started (d : Daemon) (os : Os) (companion : CompanionFor) :
    (os.spawn = .notStarted ∧ d.spawn os companion = (none, d)) ∨
      (os.spawn ≠ .notStarted ∧ (d.spawn os companion).2.started = companion :: d.started ∧
        (d.spawn os companion).2.znCompanions = d.znCompanions) := by
  unfold Daemon.spawn
  cases os.spawn with
  | notStarted => exact .inl ⟨rfl, rfl⟩
  | setupFailed _ | noEntry _ | ready _ _ => exact .inr ⟨nofun, rfl, rfl⟩

/-- What a request for a companion does: nothing, or it is handed to the
companion that is alive, or a process is started. -/
theorem zn_request_cases (d : Daemon) (os : Os) (libPath : String) :
    let reply := handleConnection os d (.requestZnCompanionSocket libPath)
    (d.CannotServe os libPath ∧ reply.1 = [.u8 0] ∧ reply.2.started = d.started ∧
        reply.2.znCompanions ⊆ d.znCompanions) ∨
      (¬ d.CannotServe os libPath ∧
        ((∃ socket, reply = ([.handedTo socket], d)) ∨
          (reply.2.started = .znLibrary libPath :: d.started ∧
            ∀ entry ∈ reply.2.znCompanions,
              entry ∈ d.znCompanions ∨ entry.1 = PathBuf.ofString libPath))) := by
  have hremoved : (d.removeZnCompanion (.ofString libPath)).znCompanions ⊆ d.znCompanions :=
    filter_subset_self _
  simp only [handleConnection, handleRequestZnCompanionSocket, Daemon.CannotServe]
  cases (d.znCompanions.lookup (.ofString libPath)).filter os.isSocketAlive with
  | some socket =>
    simp only
    split
    · next hsend => exact .inr ⟨by simp [hsend], .inl ⟨socket, rfl⟩⟩
    · next hsend =>
      exact .inl ⟨Bool.eq_false_of_not_eq_true hsend, rfl, rfl, List.Subset.refl _⟩
  | none =>
    simp only
    rcases spawn_started (d.removeZnCompanion (.ofString libPath)) os (.znLibrary libPath) with
      ⟨hnot, hspawn⟩ | ⟨hstarts, hspawn, htable⟩
    · rw [hspawn]
      exact .inl ⟨hnot, rfl, rfl, hremoved⟩
    · refine .inr ⟨hstarts, .inr ?_⟩
      split
      · next socket d' hd =>
        rw [hd] at hspawn htable
        have hentries : ∀ entry ∈ (PathBuf.ofString libPath, socket) :: d'.znCompanions,
            entry ∈ d.znCompanions ∨ entry.1 = PathBuf.ofString libPath := by
          intro entry hentry
          rcases mem_cons.mp hentry with rfl | hold
          · exact .inr rfl
          · exact .inl (hremoved (htable ▸ hold))
        split <;> exact ⟨hspawn, hentries⟩
      · next d' hd =>
        rw [hd] at hspawn htable
        exact ⟨hspawn, fun entry hentry => .inl (hremoved (htable ▸ hentry))⟩

/-- What a request leaves of the companions, if it is not about one of a
library. -/
structure SparesZn (d d' : Daemon) : Prop where
  started : d'.started = d.started ∨ ∃ name, d'.started = .module name :: d.started
  companions : d'.znCompanions ⊆ d.znCompanions

theorem SparesZn.of_eq {d d' : Daemon} (hstarted : d'.started = d.started)
    (hcompanions : d'.znCompanions = d.znCompanions) : SparesZn d d' :=
  ⟨.inl hstarted, hcompanions ▸ List.Subset.refl _⟩

theorem refreshModules_spares (d : Daemon) (os : Os) : SparesZn d (d.refreshModules os).2 := by
  unfold Daemon.refreshModules
  split <;> exact .of_eq rfl rfl

theorem zygoteRestart_spares (d : Daemon) (os : Os) : SparesZn d (handleZygoteRestart os d).2 := by
  have hwrite : (d.dropCompanions.writeZnStateFile os).started = d.started ∧
      (d.dropCompanions.writeZnStateFile os).znCompanions = [] := by
    unfold Daemon.writeZnStateFile
    split <;> exact ⟨rfl, rfl⟩
  obtain ⟨hstarted, hcompanions⟩ := refreshModules_spares (d.dropCompanions.writeZnStateFile os) os
  rw [hwrite.1] at hstarted
  rw [hwrite.2] at hcompanions
  exact ⟨hstarted, List.Subset.trans hcompanions (nil_subset _)⟩

theorem saveMountNamespace_keeps (d : Daemon) (os : Os) (pid : UInt32)
    (namespaceType : MountNamespace) :
    (d.saveMountNamespace os pid namespaceType).2.started = d.started ∧
      (d.saveMountNamespace os pid namespaceType).2.znCompanions = d.znCompanions := by
  unfold Daemon.saveMountNamespace
  split
  · exact ⟨rfl, rfl⟩
  split
  · exact ⟨rfl, rfl⟩
  · cases namespaceType <;> exact ⟨rfl, rfl⟩

theorem cacheMountNamespace_spares (d : Daemon) (os : Os) (pid : UInt32) :
    SparesZn d (handleCacheMountNamespace os d pid).2 := by
  have hclean := saveMountNamespace_keeps d os pid .clean
  unfold handleCacheMountNamespace
  split
  · split
    · next d' hd =>
      rw [hd] at hclean
      have hroot := saveMountNamespace_keeps d' os pid .root
      exact .of_eq (hroot.1.trans hclean.1) (hroot.2.trans hclean.2)
    · next d' hd =>
      rw [hd] at hclean
      exact .of_eq hclean.1 hclean.2
  · exact .of_eq rfl rfl

theorem requestCompanionSocket_spares (d : Daemon) (os : Os) (index : Nat) :
    SparesZn d (handleRequestCompanionSocket os d index).2 := by
  unfold handleRequestCompanionSocket
  split
  · exact .of_eq rfl rfl
  next module _ =>
  cases module.companion.filter os.isSocketAlive with
  | some socket =>
    simp only
    split <;> exact .of_eq rfl rfl
  | none =>
    rcases spawn_started d os (.module module.name) with ⟨_, hspawn⟩ | ⟨_, hspawn, hcompanions⟩
    · rw [hspawn]
      exact .of_eq rfl rfl
    · have htable : (d.spawn os (.module module.name)).2.znCompanions ⊆ d.znCompanions := by
        rw [hcompanions]
        exact List.Subset.refl _
      simp only
      split
      · split <;> exact ⟨.inr ⟨_, hspawn⟩, htable⟩
      · exact ⟨.inr ⟨_, hspawn⟩, htable⟩

/-- A request that is not for the companion of a library starts at most the
companion of a module, and puts none into the table. -/
theorem request_cases (d : Daemon) (os : Os) (request : Request) :
    (∃ libPath, request = .requestZnCompanionSocket libPath) ∨
      SparesZn d (handleConnection os d request).2 := by
  cases request with
  | requestZnCompanionSocket libPath => exact .inl ⟨libPath, rfl⟩
  | requestCompanionSocket index => exact .inr (requestCompanionSocket_spares d os index)
  | cacheMountNamespace pid => exact .inr (cacheMountNamespace_spares d os pid)
  | zygoteRestart => exact .inr (zygoteRestart_spares d os)
  | refreshModules => exact .inr (refreshModules_spares d os)
  | getProcessFlags _ | updateMountNamespace _ | getModuleDir _ | reportZnModule _ _ | getSharedMemoryFd =>
    refine .inr ?_
    simp only [handleConnection, handleGetProcessFlags, handleUpdateMountNamespace, handleGetModuleDir,
      handleReportZnModule, Daemon.writeZnStateFile, handleGetSharedMemoryFd]
    -- no branch of these handlers touches a companion
    repeat' split
    all_goals exact .of_eq rfl rfl
  | readModules | getZnPlan _ _ | pingHeartbeat | systemServerStarted | malformed =>
    exact .inr (.of_eq rfl rfl)

/-- A companion for a library is started only by a request for it that comes to
something. -/
theorem starts_cases {d : Daemon} {x : Os × Request} {libPath : String}
    (h : StartsCompanion d x libPath) :
    x.2 = .requestZnCompanionSocket libPath ∧ ¬ d.CannotServe x.1 libPath := by
  obtain ⟨os, request⟩ := x
  have hkeeps : (handleConnection os d request).2.started ≠ d.started := by
    intro hsame
    exact cons_ne_self _ _ (h.symm.trans hsame)
  rcases request_cases d os request with ⟨path, rfl⟩ | ⟨hsame | ⟨name, hname⟩, _⟩
  · rcases zn_request_cases d os path with
      ⟨_, _, hsame, _⟩ | ⟨hserves, ⟨_, hreply⟩ | ⟨hstarted, _⟩⟩
    · exact absurd hsame hkeeps
    · exact absurd (congrArg (fun reply => reply.2.started) hreply) hkeeps
    · cases hstarted.symm.trans h
      exact ⟨rfl, hserves⟩
  · exact absurd hsame hkeeps
  · cases hname.symm.trans h

/-- What is new after a step was started in it. -/
theorem step_new {d d' : Daemon} {x : Os × Request} (hstep : Daemon.Step d x d') :
    (∀ libPath, .znLibrary libPath ∈ d'.started →
      .znLibrary libPath ∈ d.started ∨ StartsCompanion d x libPath) ∧
    ∀ entry ∈ d'.znCompanions, entry ∈ d.znCompanions ∨
      ∃ libPath, StartsCompanion d x libPath ∧ entry.1 = PathBuf.ofString libPath := by
  obtain ⟨os, request⟩ := x
  rw [hstep]
  rcases request_cases d os request with ⟨path, rfl⟩ | ⟨hstarted, htable⟩
  · rcases zn_request_cases d os path with
      ⟨_, _, hsame, htable⟩ | ⟨_, ⟨_, hreply⟩ | ⟨hstarted, htable⟩⟩
    · exact ⟨fun libPath h => .inl (hsame ▸ h), fun entry h => .inl (htable h)⟩
    · simp only [hreply]
      exact ⟨fun libPath h => .inl h, fun entry h => .inl h⟩
    · refine ⟨fun libPath h => ?_, fun entry h => ?_⟩
      · rw [hstarted] at h
        rcases mem_cons.mp h with heq | hold
        · cases heq
          exact .inr hstarted
        · exact .inl hold
      · exact (htable entry h).imp id fun hkey => ⟨path, hstarted, hkey⟩
  · refine ⟨fun libPath h => .inl ?_, fun entry h => .inl (htable h)⟩
    rcases hstarted with hsame | ⟨name, hname⟩
    · exact hsame ▸ h
    · rw [hname] at h
      exact (mem_cons.mp h).resolve_left nofun

/-- One step follows the rule exactly when its request meets the condition. -/
theorem onlyHandedOut_iff (d : Daemon) (x : Os × Request) :
    OnlyHandedOut d x ↔ NamesHandedOut d x := by
  obtain ⟨os, request⟩ := x
  constructor
  · rintro ⟨hstarts, hrefuses⟩ libPath rfl
    rcases zn_request_cases d os libPath with ⟨hcannot, _⟩ | ⟨_, ⟨_, hreply⟩ | ⟨hstarted, _⟩⟩
    · exact .inr hcannot
    · refine .inl (by_contra fun hout => ?_)
      have hrefused := hrefuses libPath rfl hout
      simp only [hreply] at hrefused
      cases hrefused
    · exact .inl (hstarts libPath hstarted)
  · intro hnames
    refine ⟨fun libPath hstarts => ?_, ?_⟩
    · obtain ⟨hrequest, hserves⟩ := starts_cases hstarts
      exact (hnames libPath hrequest).resolve_right hserves
    · rintro libPath rfl hout
      have hcannot := (hnames libPath rfl).resolve_left hout
      rcases zn_request_cases d os libPath with ⟨_, hreply, _⟩ | ⟨hserves, _⟩
      · exact hreply
      · exact absurd hcannot hserves

/-- The companions of a daemon that began with none were all started in its
run, those in the table for the library at their key. -/
theorem run_new {d t : Daemon} {tr : List (Daemon × Os × Request)}
    (hrun : Run Daemon.Step d tr t) (hnone : d.NoZnCompanions) :
    (∀ libPath, .znLibrary libPath ∈ t.started →
      ∃ p ∈ tr, StartsCompanion p.1 p.2 libPath) ∧
    ∀ entry ∈ t.znCompanions,
      ∃ p ∈ tr, ∃ libPath, StartsCompanion p.1 p.2 libPath ∧
        entry.1 = PathBuf.ofString libPath := by
  induction hrun with
  | refl =>
    exact ⟨fun libPath h => absurd h (hnone.1 libPath), fun entry h => absurd h (by simp [hnone.2])⟩
  | @snoc tr t u x _ hstep ih =>
    obtain ⟨hstarted, htable⟩ := step_new hstep
    have hlast : (t, x) ∈ tr ++ [(t, x)] := mem_append_right _ mem_cons_self
    refine ⟨fun libPath h => ?_, fun entry h => ?_⟩
    · rcases hstarted libPath h with hold | hnew
      · obtain ⟨p, hp, hstarts⟩ := ih.1 libPath hold
        exact ⟨p, mem_append_left _ hp, hstarts⟩
      · exact ⟨_, hlast, hnew⟩
    · rcases htable entry h with hold | hnew
      · obtain ⟨p, hp, hstarts⟩ := ih.2 entry hold
        exact ⟨p, mem_append_left _ hp, hstarts⟩
      · exact ⟨_, hlast, hnew⟩

end ZnCompanionsLemmas

open ZnCompanionsLemmas

/-- In a run of the daemon only libraries that it hands out become companions, and
requests for others are refused, exactly when no request for another library
meets a companion that answers or a process that starts. -/
theorem zn_companions_handed_out_iff {d t : Daemon} {tr : List (Daemon × Os × Request)}
    (hrun : Run Daemon.Step d tr t) (hnone : d.NoZnCompanions) :
    OnlyHandedOutIn tr t ↔ ∀ p ∈ tr, NamesHandedOut p.1 p.2 := by
  constructor
  · intro honly p hp
    exact (onlyHandedOut_iff p.1 p.2).mp (honly.steps p hp)
  · intro hnames
    have hsteps : ∀ p ∈ tr, OnlyHandedOut p.1 p.2 := fun p hp =>
      (onlyHandedOut_iff p.1 p.2).mpr (hnames p hp)
    obtain ⟨hstarted, htable⟩ := run_new hrun hnone
    refine ⟨hsteps, fun libPath h => ?_, fun entry h => ?_⟩
    · obtain ⟨p, hp, hstarts⟩ := hstarted libPath h
      exact ⟨p, hp, (hsteps p hp).1 libPath hstarts⟩
    · obtain ⟨p, hp, libPath, hstarts, hkey⟩ := htable entry h
      exact ⟨p, hp, libPath, (hsteps p hp).1 libPath hstarts, hkey⟩

/-- A system with one module, whose `zn_modules.txt` has one line for the zygote
and whose companions start. -/
def oneLibraryOs (peerUid : Option UInt32) : Os :=
  { quietOs peerUid with
    readDir := fun _ => .entries [⟨⟨true, ["data", "adb", "modules", "nya"]⟩, some "nya"⟩]
    pathExists := fun path => path.components.getLast? = some "zn_modules.txt"
    readToString := fun _ => some "name=zygote companion lib/nya.so\n"
    canonicalize := fun path =>
      if path = "/data/adb/modules/nya" then some ⟨true, ["data", "adb", "modules", "nya"]⟩
      else some ⟨true, ["data", "adb", "modules", "nya", "lib", "nya.so"]⟩
    openFile := fun _ => some [0x7F, 0x45, 0x4C, 0x46, 2]
    copyToMemfd := fun _ => true
    spawn := .ready 7 3 }

/-- The zygote that got the library asks for its companion, which is started. -/
theorem zn_companions_handed_out_iff_zygote :
    ∃ tr t, Run Daemon.Step freshDaemon tr t ∧
      t.started = [.znLibrary "/data/adb/modules/nya/lib/nya.so"] ∧ OnlyHandedOutIn tr t := by
  have hrun : Run Daemon.Step freshDaemon _ _ :=
    .single (i := (oneLibraryOs (some 0),
      .requestZnCompanionSocket "/data/adb/modules/nya/lib/nya.so")) rfl
  refine ⟨_, _, hrun, by decide, (zn_companions_handed_out_iff hrun ⟨fun _ => nofun, rfl⟩).mpr ?_⟩
  intro p hp
  rw [mem_singleton] at hp
  subst hp
  rintro libPath ⟨⟩
  exact .inl ⟨"zygote64", "", _, mem_of_mem_head? (by rfl), by decide, by decide⟩

/-- An app gets a file of its own loaded by a root process: the daemon starts a
companion for a path that it never handed out. -/
theorem zn_companion_of_foreign_library :
    ∃ tr t, Run Daemon.Step freshDaemon tr t ∧
      tr.map Prod.snd =
        [({ quietOs (some 10002) with spawn := .ready 7 3 },
          .requestZnCompanionSocket "/data/local/tmp/evil.so")] ∧
      t.started = [.znLibrary "/data/local/tmp/evil.so"] ∧ ¬ OnlyHandedOutIn tr t := by
  refine ⟨_, _, .single rfl, rfl, by decide, fun honly => ?_⟩
  obtain ⟨_, _, _, hm, _⟩ := (honly.steps _ mem_cons_self).1 _ rfl
  exact absurd hm not_mem_nil

end NyaZygisk
