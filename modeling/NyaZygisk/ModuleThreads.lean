import NyaZygisk.DaemonPeers

/-!
# The daemon's threads and its module snapshots

A process reads the module list once (`ReadModules`) and from then on names a
module by its index in that reply. The daemon resolves the index against the
snapshot that is live when the request arrives, and `RefreshModules` and
`ZygoteRestart` replace the snapshot.

Here the connections are threads: each takes a reference to the live snapshot in
one step and answers from it in a later one, while the main loop drops
companions, rescans and publishes. Snapshots are never freed, as a thread may
still hold a retired one; a companion is known by the socket the daemon keeps for
it.
-/

namespace NyaZygisk

open List Runs

/-! ## Threads and the main loop -/

/-- What a client asks for with a module index. -/
inductive Wants
  | companion
  | moduleDir
deriving DecidableEq

def Wants.request : Wants → Nat → Request
  | .companion, index => .requestCompanionSocket index
  | .moduleDir, index => .getModuleDir index

/-- A thread of `handle_threaded_action`, and the snapshot that its call of
`modules()` gave it. A client asks with an index that it took from an entry of
a reply; the name it read there is kept beside the index. -/
inductive Thread
  | reading (snapshot : Option Nat)
  | asking (wants : Wants) (index : Nat) (name : String) (snapshot : Option Nat)
  | done
deriving DecidableEq

def Thread.snapshot : Thread → Option Nat
  | .reading snapshot | .asking _ _ _ snapshot => snapshot
  | .done => none

/-- Where the main loop is. The companions of a snapshot are dropped one after
the other. -/
inductive MainLoop
  | accepting
  | dropping (snapshot next : Nat)
  | rescanning
deriving DecidableEq

structure IndexSystem where
  /-- The daemon, its modules aside. -/
  daemon : Daemon
  /-- Every snapshot published so far, the live one last. -/
  snapshots : List (List Module)
  mainLoop : MainLoop
  threads : List Thread
  /-- The replies that clients hold, by the names of their entries. -/
  held : List (List String)
  /-- The companions started so far, each as its socket and the name of the
  module whose library it was given. -/
  sockets : List (Nat × String)

inductive IndexEvent
  /-- A connection with `ReadModules` is accepted. -/
  | readModules
  /-- A connection that carries an index from an entry of a reply is accepted. -/
  | ask (reply index : Nat) (wants : Wants)
  | takeSnapshot (thread : Nat)
  | reply (thread : Nat) (os : Os)
  | answer (thread : Nat) (os : Os)
  | refreshModules
  | zygoteRestart
  | dropCompanion
  /-- The rest of `ZygoteRestart` before its rescan. -/
  | forgetZn (os : Os)
  /-- The scan of `refresh_modules` ends, and its result is published. -/
  | rescan (os : Os)

/-- The names in the complete entries of a `ReadModules` reply. -/
def entryNames : List Sent → List String
  | .string name :: .fd _ :: rest => name :: entryNames rest
  | _ => []

def replyNames : List Sent → List String
  | .usize _ :: rest => entryNames rest
  | _ => []

/-- The companion that a request started and got a socket for. -/
def newCompanion (os : Os) (d d' : Daemon) : Option (Nat × String) :=
  match os.spawn, d'.started with
  | .ready _ socket, .module name :: rest => if rest = d.started then some (socket, name) else none
  | _, _ => none

/-- A socket of a new companion is none of those of the companions so far. -/
def FreshSpawn (sockets : List (Nat × String)) (os : Os) : Bool :=
  match os.spawn with
  | .ready _ socket => (sockets.lookup socket).isNone
  | _ => true

namespace IndexSystem

variable (s : IndexSystem)

def current : Nat := s.snapshots.length - 1

def modulesOf (snapshot : Nat) : List Module := s.snapshots.getD snapshot []

def namesOf (snapshot : Nat) : List String := (s.modulesOf snapshot).map Module.name

/-- The daemon as a thread sees it that holds this snapshot. -/
def daemonOn (snapshot : Nat) : Daemon := { s.daemon with modules := s.modulesOf snapshot }

def setSnapshot (snapshot : Nat) (modules : List Module) : IndexSystem :=
  { s with snapshots := s.snapshots.set snapshot modules }

/-- A handler that held this snapshot has returned. -/
def returned (snapshot : Nat) (d : Daemon) : IndexSystem :=
  { s.setSnapshot snapshot d.modules with daemon := d }

def connect (thread : Thread) : IndexSystem := { s with threads := s.threads ++ [thread] }

def setThread (k : Nat) (thread : Thread) : IndexSystem :=
  { s with threads := s.threads.set k thread }

/-- `handle_read_modules` after its call of `modules()`. -/
def replied (k snapshot : Nat) (os : Os) : IndexSystem :=
  let (sent, d) := handleReadModules os (s.daemonOn snapshot)
  { (s.returned snapshot d).setThread k .done with
    held := s.held ++ [replyNames (delivered os sent)] }

/-- The reply to a request with an index, and the daemon after it. -/
def answer (wants : Wants) (index snapshot : Nat) (os : Os) : List Sent × Daemon :=
  handleConnection os (s.daemonOn snapshot) (wants.request index)

/-- The companions once a handler has returned this daemon. -/
def socketsAfter (os : Os) (d : Daemon) : List (Nat × String) :=
  (newCompanion os s.daemon d).toList ++ s.sockets

def answered (k : Nat) (wants : Wants) (index snapshot : Nat) (os : Os) : IndexSystem :=
  let d := (s.answer wants index snapshot os).2
  { (s.returned snapshot d).setThread k .done with sockets := s.socketsAfter os d }

/-- One turn of the loop of `ZygoteRestart` over the modules. -/
def dropAt (snapshot next : Nat) : IndexSystem :=
  { s.setSnapshot snapshot ((s.modulesOf snapshot).modify next Module.dropCompanion) with
    mainLoop := .dropping snapshot (next + 1) }

def publish (d : Daemon) : IndexSystem :=
  { s with daemon := d, snapshots := s.snapshots ++ [d.modules], mainLoop := .accepting }

/-- `refresh_modules`, once the scan is done. -/
def rescanned (os : Os) : IndexSystem :=
  match s.daemon.refreshModules os with
  | (true, d) => s.publish d
  | (false, d) => { s with daemon := d, mainLoop := .accepting }

def step : IndexEvent → Option IndexSystem
  | .readModules => if s.mainLoop = .accepting then some (s.connect (.reading none)) else none
  | .ask reply index wants =>
    match s.held[reply]?.bind (·[index]?) with
    | some name =>
      if s.mainLoop = .accepting then some (s.connect (.asking wants index name none)) else none
    | none => none
  | .takeSnapshot k =>
    match s.threads[k]? with
    | some (.reading none) => some (s.setThread k (.reading (some s.current)))
    | some (.asking wants index name none) =>
      some (s.setThread k (.asking wants index name (some s.current)))
    | _ => none
  | .reply k os =>
    match s.threads[k]? with
    | some (.reading (some snapshot)) => some (s.replied k snapshot os)
    | _ => none
  | .answer k os =>
    match s.threads[k]? with
    | some (.asking wants index _ (some snapshot)) =>
      if FreshSpawn s.sockets os then some (s.answered k wants index snapshot os) else none
    | _ => none
  | .refreshModules =>
    if s.mainLoop = .accepting then some { s with mainLoop := .rescanning } else none
  | .zygoteRestart =>
    if s.mainLoop = .accepting then some { s with mainLoop := .dropping s.current 0 } else none
  | .dropCompanion =>
    match s.mainLoop with
    | .dropping snapshot next =>
      if next < (s.modulesOf snapshot).length then some (s.dropAt snapshot next) else none
    | _ => none
  | .forgetZn os =>
    match s.mainLoop with
    | .dropping snapshot next =>
      if next < (s.modulesOf snapshot).length then none
      else some { s with
        daemon := { s.daemon with znCompanions := [], znStates := [] }.writeZnStateFile os
        mainLoop := .rescanning }
    | _ => none
  | .rescan os => if s.mainLoop = .rescanning then some (s.rescanned os) else none

def Step (s : IndexSystem) (e : IndexEvent) (t : IndexSystem) : Prop := s.step e = some t

/-- The daemon has started with these modules, and nobody has connected. -/
def start (d : Daemon) : IndexSystem := ⟨d, [d.modules], .accepting, [], [], []⟩

end IndexSystem

/-! ## Answers -/

/-- `PATH_MODULES_DIR/name`. -/
def moduleDirPath (name : String) : PathBuf :=
  PathBuf.ofString (pathModulesDir.toString ++ "/" ++ name)

/-- A reply is a refusal, or it is the companion or the directory of the module
with this name. -/
def AnsweredFor (sockets : List (Nat × String)) (name : String) : List Sent → Prop
  | [.handedTo socket] => sockets.lookup socket = some name
  | [.fd (.directory path)] => path = moduleDirPath name
  | sent => sent = [.u8 0] ∨ sent = []

/-- The event publishes no snapshot. -/
def IndexEvent.Quiet : IndexEvent → Prop
  | .rescan os => loadModules os.toScanOs = none
  | _ => True

namespace ModuleThreadsLemmas

/-! ## What a request with an index does -/

/-- The companion in a module's slot, if any, is the module's. -/
def OwnCompanion (sockets : List (Nat × String)) (m : Module) : Prop :=
  ∀ socket, m.companion = some socket → sockets.lookup socket = some m.name

variable {d : Daemon} {s t : IndexSystem} {sockets : List (Nat × String)} {modules : List Module}
    {index : Nat}
    {os : Os} {thread : Thread}

theorem newCompanion_same (os : Os) {d' : Daemon} (h : d'.started = d.started) :
    newCompanion os d d' = none := by
  unfold newCompanion
  split
  · next hstarted =>
    refine if_neg fun hrest => ?_
    rw [h, ← hrest] at hstarted
    exact cons_ne_self _ _ hstarted.symm
  · rfl

theorem newCompanion_notReady (h : ∀ child socket, os.spawn ≠ .ready child socket)
    (d d' : Daemon) : newCompanion os d d' = none := by
  unfold newCompanion
  split
  · next hspawn _ => exact absurd hspawn (h _ _)
  · rfl

/-- What a request for a companion does: the index is out of range, or its
module's companion is alive, or there is none afterwards, or a new one is
started. -/
inductive CompanionCase (os : Os) (d : Daemon) (index : Nat) : List Sent × Daemon → Prop
  | outOfRange : d.modules[index]? = none → CompanionCase os d index ([.u8 0], d)
  | alive {m : Module} {socket : Nat} {sent : List Sent} {d' : Daemon} :
      d.modules[index]? = some m → m.companion = some socket →
      sent = (if os.sendFd socket then [.handedTo socket] else [.u8 0]) →
      d'.modules = d.modules.set index m → newCompanion os d d' = none →
      CompanionCase os d index (sent, d')
  | noCompanion {m : Module} {d' : Daemon} :
      d.modules[index]? = some m → d'.modules = d.modules.set index m.dropCompanion →
      newCompanion os d d' = none → CompanionCase os d index ([.u8 0], d')
  | started {m : Module} {child socket : Nat} {sent : List Sent} {d' : Daemon} :
      d.modules[index]? = some m → os.spawn = .ready child socket →
      sent = (if os.sendFd socket then [.handedTo socket] else [.u8 0]) →
      d'.modules = d.modules.set index { m with companion := some socket } →
      newCompanion os d d' = some (socket, m.name) → CompanionCase os d index (sent, d')

theorem companion_cases (os : Os) (d : Daemon) (index : Nat) :
    CompanionCase os d index (handleRequestCompanionSocket os d index) := by
  unfold handleRequestCompanionSocket moduleAt
  cases hm : d.modules[index]? with
  | none => exact .outOfRange hm
  | some m =>
    simp only
    cases halive : m.companion.filter os.isSocketAlive with
    | some socket =>
      have hslot : m.companion = some socket := (Option.filter_eq_some_iff.mp halive).1
      have hm' : { m with companion := some socket } = m := by rw [← hslot]
      simp only [hm']
      split
      · next hsend => exact .alive hm hslot (if_pos hsend).symm rfl (newCompanion_same os rfl)
      · next hsend => exact .alive hm hslot (if_neg hsend).symm rfl (newCompanion_same os rfl)
    | none =>
      simp only [Daemon.spawn]
      cases hspawn : os.spawn with
      | notStarted => exact .noCompanion hm rfl (newCompanion_same os rfl)
      | setupFailed _ | noEntry _ =>
        exact .noCompanion hm rfl (newCompanion_notReady (by simp [hspawn]) _ _)
      | ready child socket =>
        have hnew : ∀ modules, newCompanion os d { d with
            modules := modules
            pendingCompanions := d.pendingCompanions ++ [child]
            started := .module m.name :: d.started } = some (socket, m.name) := by
          intro modules
          simp only [newCompanion, hspawn, if_true]
        simp only
        split
        · next hsend => exact .started hm hspawn (if_pos hsend).symm rfl (hnew _)
        · next hsend => exact .started hm hspawn (if_neg hsend).symm rfl (hnew _)

theorem set_names {m m' : Module}
    (h : modules[index]? = some m) (hname : m'.name = m.name) :
    (modules.set index m').map Module.name = modules.map Module.name := by
  obtain ⟨hi, rfl⟩ := List.getElem?_eq_some_iff.mp h
  have hi' : index < (modules.map Module.name).length := by rwa [length_map]
  rw [map_set, hname, ← getElem_map Module.name (h := hi'), set_getElem_self]

/-- The companions of the modules stay their own when one slot is set to one
that is. -/
theorem own_set {sockets' : List (Nat × String)}
    {m' : Module} (hgrows : ∀ socket name, sockets.lookup socket = some name →
      sockets'.lookup socket = some name)
    (hown : ∀ m ∈ modules, OwnCompanion sockets m) (hm' : OwnCompanion sockets' m') :
    ∀ m ∈ modules.set index m', OwnCompanion sockets' m := by
  intro m hm
  rcases mem_or_eq_of_mem_set hm with hold | rfl
  · exact fun socket hslot => hgrows socket m.name (hown m hold socket hslot)
  · exact hm'

theorem lookup_fresh {socket : Nat} {name : String}
    (hfresh : sockets.lookup socket = none) {socket' : Nat} {name' : String}
    (h : sockets.lookup socket' = some name') :
    ((socket, name) :: sockets).lookup socket' = some name' := by
  have hne : socket' ≠ socket := by
    rintro rfl
    cases hfresh.symm.trans h
  rw [lookup_cons, beq_false_of_ne hne]
  exact h

/-- What an answer to a request with an index does: companions stay with their
modules, the names do not change, and the answer is for the module at the
index. -/
structure Serves (sockets : List (Nat × String)) (d : Daemon) (index : Nat)
    (sockets' : List (Nat × String)) (reply : List Sent × Daemon) : Prop where
  grows : ∀ socket name, sockets.lookup socket = some name → sockets'.lookup socket = some name
  own : ∀ m ∈ reply.2.modules, OwnCompanion sockets' m
  names : reply.2.modules.map Module.name = d.modules.map Module.name
  right : ∀ name, (∀ m, d.modules[index]? = some m → m.name = name) →
    AnsweredFor sockets' name reply.1

theorem serves_set {sockets' : List (Nat × String)} {reply : List Sent × Daemon} {m m' : Module}
    (hm : d.modules[index]? = some m) (hmodules : reply.2.modules = d.modules.set index m')
    (hname : m'.name = m.name)
    (hgrows : ∀ socket name, sockets.lookup socket = some name → sockets'.lookup socket = some name)
    (hown : ∀ m ∈ d.modules, OwnCompanion sockets m) (hm' : OwnCompanion sockets' m')
    (hright : AnsweredFor sockets' m.name reply.1) : Serves sockets d index sockets' reply where
  grows := hgrows
  own := hmodules ▸ own_set hgrows hown hm'
  names := by rw [hmodules, set_names hm hname]
  right name hname := hname m hm ▸ hright

theorem companion_serves
    (hown : ∀ m ∈ d.modules, OwnCompanion sockets m) (hfresh : FreshSpawn sockets os = true)
    {reply : List Sent × Daemon} (h : CompanionCase os d index reply) :
    Serves sockets d index ((newCompanion os d reply.2).toList ++ sockets) reply := by
  cases h with
  | outOfRange =>
    rw [newCompanion_same os rfl]
    exact ⟨fun _ _ h => h, hown, rfl, fun _ _ => .inl rfl⟩
  | @alive m socket sent d' hm hslot hsent hmodules hnew =>
    rw [hnew]
    have hmine := hown m (mem_of_getElem? hm)
    refine serves_set hm hmodules rfl (fun _ _ h => h) hown hmine ?_
    rw [hsent]
    split
    · exact hmine socket hslot
    · exact .inl rfl
  | @noCompanion m d' hm hmodules hnew =>
    rw [hnew]
    exact serves_set hm hmodules rfl (fun _ _ h => h) hown nofun (.inl rfl)
  | @started m child socket sent d' hm hspawn hsent hmodules hnew =>
    rw [hnew]
    have hnone : sockets.lookup socket = none := by
      simpa [FreshSpawn, hspawn] using hfresh
    have hself : ((socket, m.name) :: sockets).lookup socket = some m.name := by
      rw [lookup_cons, beq_self_eq_true]
    refine serves_set hm hmodules rfl (fun _ _ h => lookup_fresh hnone h) hown ?_ ?_
    · rintro socket' ⟨⟩
      exact hself
    · rw [hsent]
      split
      · exact hself
      · exact .inl rfl

theorem moduleDir_serves
    (hown : ∀ m ∈ d.modules, OwnCompanion sockets m) :
    Serves sockets d index ((newCompanion os d (handleGetModuleDir os d index).2).toList ++ sockets)
      (handleGetModuleDir os d index) := by
  unfold handleGetModuleDir moduleAt
  cases hm : d.modules[index]? with
  | none =>
    rw [newCompanion_same os rfl]
    exact ⟨fun _ _ h => h, hown, rfl, fun _ _ => .inr rfl⟩
  | some m =>
    simp only
    split
    · rw [newCompanion_same os rfl]
      refine ⟨fun _ _ h => h, hown, rfl, fun name hname => ?_⟩
      rw [← hname m hm]
      rfl
    · rw [newCompanion_same os rfl]
      exact ⟨fun _ _ h => h, hown, rfl, fun _ _ => .inr rfl⟩

/-- An answer is for the module at the index in the thread's snapshot, and companions stay with
their module. -/
theorem answer_spec
    (hown : ∀ m ∈ d.modules, OwnCompanion sockets m) (hfresh : FreshSpawn sockets os = true)
    (wants : Wants) (index : Nat) :
    let reply := handleConnection os d (wants.request index)
    Serves sockets d index ((newCompanion os d reply.2).toList ++ sockets) reply := by
  cases wants with
  | companion => exact companion_serves hown hfresh (companion_cases os d index)
  | moduleDir => exact moduleDir_serves hown

/-! ## Steps -/

inductive StepCase (s : IndexSystem) : IndexEvent → IndexSystem → Prop
  | readModules : StepCase s .readModules (s.connect (.reading none))
  | ask {reply index : Nat} {wants : Wants} {names : List String} {name : String} :
      names ∈ s.held → names[index]? = some name →
      StepCase s (.ask reply index wants) (s.connect (.asking wants index name none))
  | takeReading {k : Nat} : s.threads[k]? = some (.reading none) →
      StepCase s (.takeSnapshot k) (s.setThread k (.reading (some s.current)))
  | takeAsking {k index : Nat} {wants : Wants} {name : String} :
      s.threads[k]? = some (.asking wants index name none) →
      StepCase s (.takeSnapshot k) (s.setThread k (.asking wants index name (some s.current)))
  | reply {k snapshot : Nat} {os : Os} : s.threads[k]? = some (.reading (some snapshot)) →
      StepCase s (.reply k os) (s.replied k snapshot os)
  | answer {k index snapshot : Nat} {wants : Wants} {name : String} {os : Os} :
      s.threads[k]? = some (.asking wants index name (some snapshot)) →
      FreshSpawn s.sockets os = true →
      StepCase s (.answer k os) (s.answered k wants index snapshot os)
  | dropCompanion {snapshot next : Nat} : StepCase s .dropCompanion (s.dropAt snapshot next)
  | publish {os : Os} {loaded : List (String × MemFile)} {d : Daemon} :
      loadModules os.toScanOs = some loaded →
      d.modules = numberModules s.daemon.memfds.length loaded →
      StepCase s (.rescan os) (s.publish d)
  | mainLoop {e : IndexEvent} {d : Daemon} {mainLoop : MainLoop} :
      e.Quiet → (∀ k os, e ≠ .answer k os) →
      StepCase s e { s with daemon := d, mainLoop := mainLoop }

theorem step_cases {e : IndexEvent} (h : s.Step e t) : StepCase s e t := by
  unfold IndexSystem.Step IndexSystem.step at h
  cases e with
  | readModules =>
    simp only at h
    split at h <;> cases h
    exact .readModules
  | ask reply index wants =>
    simp only at h
    split at h
    · next name hname =>
      split at h <;> cases h
      obtain ⟨names, hnames, hentry⟩ := Option.bind_eq_some_iff.mp hname
      exact .ask (mem_of_getElem? hnames) hentry
    · cases h
  | takeSnapshot k =>
    simp only at h
    split at h
    · next hk => cases h; exact .takeReading hk
    · next hk => cases h; exact .takeAsking hk
    · cases h
  | reply k os =>
    simp only at h
    split at h
    · next hk => cases h; exact .reply hk
    · cases h
  | answer k os =>
    simp only at h
    split at h
    · next hk =>
      split at h <;> cases h
      next hfresh => exact .answer hk hfresh
    · cases h
  | refreshModules | zygoteRestart =>
    simp only at h
    split at h <;> cases h
    exact .mainLoop trivial nofun
  | dropCompanion =>
    simp only at h
    split at h
    · split at h <;> cases h
      exact .dropCompanion
    · cases h
  | forgetZn os =>
    simp only at h
    split at h
    · split at h <;> cases h
      exact .mainLoop trivial nofun
    · cases h
  | rescan os =>
    simp only at h
    split at h <;> cases h
    unfold IndexSystem.rescanned Daemon.refreshModules
    cases hload : loadModules os.toScanOs with
    | none => exact .mainLoop hload nofun
    | some loaded => exact .publish hload rfl

/-! ## Names -/

theorem modulesOf_setSnapshot (s : IndexSystem) (snapshot : Nat) (modules : List Module) (k : Nat) :
    (s.setSnapshot snapshot modules).modulesOf k = s.modulesOf k ∨
      k = snapshot ∧ (s.setSnapshot snapshot modules).modulesOf k = modules := by
  unfold IndexSystem.modulesOf IndexSystem.setSnapshot
  simp only [getD_eq_getElem?_getD, getElem?_set]
  split
  · next hk =>
    split
    · exact .inr ⟨hk.symm, rfl⟩
    · next hlen =>
      rw [← hk, getElem?_eq_none (Nat.le_of_not_lt hlen)]
      exact .inl rfl
  · exact .inl rfl

theorem namesOf_setSnapshot {snapshot : Nat}
    (h : modules.map Module.name = s.namesOf snapshot) (k : Nat) :
    (s.setSnapshot snapshot modules).namesOf k = s.namesOf k := by
  unfold IndexSystem.namesOf
  rcases modulesOf_setSnapshot s snapshot modules k with hsame | ⟨rfl, hnew⟩
  · rw [hsame]
  · rw [hnew, h]
    rfl

theorem names_drop (modules : List Module) (next : Nat) :
    (modules.modify next Module.dropCompanion).map Module.name = modules.map Module.name := by
  refine ext_getElem? fun i => ?_
  rw [getElem?_map, getElem?_map, getElem?_modify]
  split <;> cases modules[i]? <;> rfl

theorem names_numberModules (firstFd : Nat) (loaded : List (String × MemFile)) :
    (numberModules firstFd loaded).map Module.name = loaded.map Prod.fst := by
  induction loaded generalizing firstFd with
  | nil => rfl
  | cons m rest ih => rw [numberModules, map_cons, ih, map_cons]

theorem noCompanion_numberModules (firstFd : Nat) (loaded : List (String × MemFile)) :
    ∀ m ∈ numberModules firstFd loaded, m.companion = none := by
  induction loaded generalizing firstFd with
  | nil => exact nofun
  | cons entry rest ih => exact forall_mem_cons.mpr ⟨rfl, ih _⟩

theorem modulesOf_publish {k : Nat} (d : Daemon) (h : k < s.snapshots.length) :
    (s.publish d).modulesOf k = s.modulesOf k := by
  unfold IndexSystem.modulesOf IndexSystem.publish
  rw [getD_eq_getElem?_getD, getElem?_append_left h, getD_eq_getElem?_getD]

theorem modulesOf_publish_current (s : IndexSystem) (d : Daemon) :
    (s.publish d).modulesOf (s.publish d).current = d.modules := by
  unfold IndexSystem.modulesOf IndexSystem.current IndexSystem.publish
  simp

theorem mem_publish {k : Nat} {m : Module}
    (h : m ∈ (s.publish d).modulesOf k) : m ∈ s.modulesOf k ∨ m ∈ d.modules := by
  unfold IndexSystem.modulesOf IndexSystem.publish at *
  rw [getD_eq_getElem?_getD, getElem?_append] at h
  split at h
  · rw [getD_eq_getElem?_getD]
    exact .inl h
  · refine .inr ?_
    cases hk : [d.modules][k - s.snapshots.length]? with
    | none => rw [hk] at h; cases h
    | some modules =>
      rw [hk] at h
      rw [mem_singleton.mp (mem_of_getElem? hk)] at h
      exact h

theorem entryNames_take (modules : List Module) (n : Nat) :
    entryNames ((modules.flatMap fun m => [.string m.name, .fd (.memfd m.libFd)]).take n) <+:
      modules.map Module.name := by
  induction modules generalizing n with
  | nil => rw [flatMap_nil, take_nil]; exact nil_prefix
  | cons m rest ih =>
    match n with
    | 0 => exact nil_prefix
    | 1 => exact nil_prefix
    | n + 2 => exact cons_prefix_cons.mpr ⟨rfl, ih n⟩

theorem replyNames_prefix (os : Os) (d : Daemon) :
    replyNames (delivered os (handleReadModules os d).1) <+: d.modules.map Module.name := by
  unfold delivered handleReadModules
  cases os.writes with
  | zero => exact nil_prefix
  | succ n => exact entryNames_take d.modules n

theorem entryNames_all (modules : List Module) :
    entryNames (modules.flatMap fun m => [.string m.name, .fd (.memfd m.libFd)]) =
      modules.map Module.name := by
  induction modules with
  | nil => rfl
  | cons m rest ih => exact congrArg (m.name :: ·) ih

/-! ## Invariants -/

/-- A thread holds a snapshot that exists, and an index that comes from a reply. -/
structure GoodThread (s : IndexSystem) (thread : Thread) : Prop where
  exists_snapshot : ∀ snapshot, thread.snapshot = some snapshot → snapshot < s.snapshots.length
  from_reply : ∀ wants index name snapshot, thread = .asking wants index name snapshot →
    ∃ names, names ∈ s.held ∧ names[index]? = some name

structure Sound (s : IndexSystem) : Prop where
  live : 0 < s.snapshots.length
  own : ∀ k m, m ∈ s.modulesOf k → OwnCompanion s.sockets m
  threads : ∀ thread ∈ s.threads, GoodThread s thread

theorem GoodThread.mono (h : GoodThread s thread)
    (hlen : s.snapshots.length ≤ t.snapshots.length) (hheld : ∀ names ∈ s.held, names ∈ t.held) :
    GoodThread t thread := by
  refine ⟨fun snapshot hs => ?_, fun wants index name snapshot ht => ?_⟩
  · exact Nat.lt_of_lt_of_le (h.exists_snapshot snapshot hs) hlen
  · obtain ⟨names, hnames, hentry⟩ := h.from_reply wants index name snapshot ht
    exact ⟨names, hheld names hnames, hentry⟩

theorem goodThread_done (s : IndexSystem) : GoodThread s .done := ⟨nofun, nofun⟩

theorem Sound.current_lt (h : Sound s) : s.current < s.snapshots.length :=
  Nat.sub_lt h.live Nat.one_pos

/-- The threads after one was added or changed are good if that one is. -/
theorem Sound.threads_of (h : Sound s)
    (hlen : s.snapshots.length ≤ t.snapshots.length) (hheld : ∀ names ∈ s.held, names ∈ t.held)
      (hthreads : ∀ other ∈ t.threads, other ∈ s.threads ∨ other = thread)
    (hgood : GoodThread t thread) : ∀ other ∈ t.threads, GoodThread t other := by
  intro other hother
  rcases hthreads other hother with hold | rfl
  · exact (h.threads other hold).mono hlen hheld
  · exact hgood

theorem mem_connect {other : Thread} (h : other ∈ (s.connect thread).threads) :
    other ∈ s.threads ∨ other = thread := (mem_append.mp h).imp_right mem_singleton.mp

theorem mem_setThread {k : Nat} {other : Thread}
    (h : other ∈ (s.setThread k thread).threads) : other ∈ s.threads ∨ other = thread :=
  mem_or_eq_of_mem_set h

theorem own_setSnapshot {snapshot : Nat} (hold : ∀ k m, m ∈ s.modulesOf k → OwnCompanion sockets m)
    (hnew : ∀ m ∈ modules, OwnCompanion sockets m) (k : Nat) (m : Module)
    (hm : m ∈ (s.setSnapshot snapshot modules).modulesOf k) : OwnCompanion sockets m := by
  rcases modulesOf_setSnapshot s snapshot modules k with hsame | ⟨_, hset⟩
  · exact hold k m (hsame ▸ hm)
  · exact hnew m (hset ▸ hm)

theorem own_drop
    (h : ∀ m ∈ modules, OwnCompanion sockets m) (next : Nat) :
    ∀ m ∈ modules.modify next Module.dropCompanion, OwnCompanion sockets m := by
  intro m hm
  obtain ⟨i, hi⟩ := mem_iff_getElem?.mp hm
  rw [getElem?_modify] at hi
  obtain ⟨m', hm', heq⟩ := Option.map_eq_some_iff.mp hi
  have hmem := h m' (mem_of_getElem? hm')
  split at heq
  · subst heq; exact nofun
  · subst heq; exact hmem

theorem sound_start (h : ∀ m ∈ d.modules, m.companion = none) :
    Sound (.start d) := by
  refine ⟨Nat.one_pos, fun k m hm socket hslot => ?_, nofun⟩
  match k with
  | 0 => cases (h m hm).symm.trans hslot
  | _ + 1 => cases hm

theorem answer_serves (h : Sound s)
    (hfresh : FreshSpawn s.sockets os = true) (wants : Wants) (index snapshot : Nat) :
    Serves s.sockets (s.daemonOn snapshot) index
      (s.socketsAfter os (s.answer wants index snapshot os).2) (s.answer wants index snapshot os) :=
  answer_spec (d := s.daemonOn snapshot) (h.own snapshot) hfresh wants index

/-- In every snapshot, retired or live, a module's companion is its own. -/
theorem sound_step {e : IndexEvent} (h : Sound s) (hstep : s.Step e t) :
    Sound t := by
  have hcurrent := h.current_lt
  cases step_cases hstep with
  | readModules =>
    exact ⟨h.live, h.own, h.threads_of le_rfl (fun _ => id) (fun _ => mem_connect) ⟨nofun, nofun⟩⟩
  | ask hnames hentry =>
    refine ⟨h.live, h.own, h.threads_of le_rfl (fun _ => id) (fun _ => mem_connect) ⟨nofun, ?_⟩⟩
    rintro _ _ _ _ ⟨⟩
    exact ⟨_, hnames, hentry⟩
  | takeReading hk =>
    refine ⟨h.live, h.own, h.threads_of le_rfl (fun _ => id) (fun _ => mem_setThread) ⟨?_, nofun⟩⟩
    rintro _ ⟨⟩
    exact hcurrent
  | takeAsking hk =>
    refine ⟨h.live, h.own, h.threads_of le_rfl (fun _ => id) (fun _ => mem_setThread) ⟨?_, ?_⟩⟩
    · rintro _ ⟨⟩
      exact hcurrent
    · rintro _ _ _ _ ⟨⟩
      exact (h.threads _ (mem_of_getElem? hk)).from_reply _ _ _ _ rfl
  | @reply k snapshot os hk =>
    have hlen : (s.replied k snapshot os).snapshots.length = s.snapshots.length := length_set
    refine ⟨hlen ▸ h.live, own_setSnapshot h.own (h.own snapshot), ?_⟩
    exact h.threads_of hlen.ge (fun _ => mem_append_left _) (fun _ => mem_or_eq_of_mem_set)
      (goodThread_done _)
  | @answer k index snapshot wants name os hk hfresh =>
    obtain ⟨hgrows, hown, _, _⟩ := answer_serves h hfresh wants index snapshot
    have hlen : (s.answered k wants index snapshot os).snapshots.length = s.snapshots.length :=
      length_set
    refine ⟨hlen ▸ h.live, own_setSnapshot (fun j m hm socket hslot => ?_) hown, ?_⟩
    · exact hgrows socket m.name (h.own j m hm socket hslot)
    · exact h.threads_of hlen.ge (fun _ => id) (fun _ => mem_or_eq_of_mem_set) (goodThread_done _)
  | @dropCompanion snapshot next =>
    have hlen : (s.dropAt snapshot next).snapshots.length = s.snapshots.length := length_set
    refine ⟨hlen ▸ h.live, own_setSnapshot h.own (own_drop (h.own snapshot) next), ?_⟩
    exact h.threads_of hlen.ge (fun _ => id) (fun _ => .inl) (goodThread_done _)
  | @publish os loaded d _ hmodules =>
    have hlen : s.snapshots.length ≤ (s.publish d).snapshots.length := by
      unfold IndexSystem.publish
      rw [length_append]
      exact Nat.le_add_right _ _
    refine ⟨Nat.lt_of_lt_of_le h.live hlen, fun k m hm socket hslot => ?_, ?_⟩
    · rcases mem_publish hm with hold | hnew
      · exact h.own k m hold socket hslot
      · rw [hmodules] at hnew
        cases (noCompanion_numberModules _ _ m hnew).symm.trans hslot
    · exact h.threads_of hlen (fun _ => id) (fun _ => .inl) (goodThread_done _)
  | mainLoop => exact ⟨h.live, h.own, h.threads_of le_rfl (fun _ => id) (fun _ => .inl) (goodThread_done _)⟩

end ModuleThreadsLemmas

open ModuleThreadsLemmas in
/-- At any time, a request with an index is refused, or answered for the module that has the index in the
snapshot it is answered from, retired or live. -/
theorem answered_from_snapshot (d : Daemon) (firstFd : Nat) (loaded : List (String × MemFile)) :
    Always IndexSystem.Step (.start { d with modules := numberModules firstFd loaded }) fun s =>
      ∀ wants index snapshot os, FreshSpawn s.sockets os = true → ∀ name,
        (∀ m, (s.modulesOf snapshot)[index]? = some m → m.name = name) →
          let (sent, d') := s.answer wants index snapshot os
          AnsweredFor (s.socketsAfter os d') name sent :=
  .of_invariant Sound (sound_start (noCompanion_numberModules firstFd loaded)) (fun _ _ _ => sound_step)
    fun _ h wants index snapshot _ hfresh name => (answer_serves h hfresh wants index snapshot).right name

end NyaZygisk
