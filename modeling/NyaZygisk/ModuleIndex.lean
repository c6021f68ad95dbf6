import NyaZygisk.ModuleThreads

/-!
# What a module index means

A client's index is right as long as every snapshot that is published has, at the
indices of the replies in use, the modules with the names in them. Nothing in
the daemon ensures that: a module that is removed from the disk moves those
behind it up by one.
-/

namespace NyaZygisk

open List ModuleThreadsLemmas Runs

/-! ## Meaning -/

/-- If the event answers a request with an index, the answer is for the module
that had the index in the client's reply. -/
def RightAnswer (s : IndexSystem) : IndexEvent → Prop
  | .answer k os => ∀ wants index name snapshot,
      s.threads[k]? = some (.asking wants index name (some snapshot)) →
      let (sent, d) := s.answer wants index snapshot os
      AnsweredFor (s.socketsAfter os d) name sent
  | _ => True

/-- Two lists have the same name wherever both have one. -/
def SameNames (names names' : List String) : Prop :=
  ∀ (i : Nat) name name', names[i]? = some name → names'[i]? = some name' → name = name'

/-- A reply that clients hold, or one that is on its way. -/
inductive IndexSystem.InUse (s : IndexSystem) : List String → Prop
  | held {names : List String} : names ∈ s.held → s.InUse names
  | reading {snapshot : Nat} : .reading (some snapshot) ∈ s.threads → s.InUse (s.namesOf snapshot)

/-- If the event publishes a snapshot, it has the names of every reply in use. -/
def KeepsMeaning (s : IndexSystem) : IndexEvent → Prop
  | .rescan os => ∀ loaded, loadModules os.toScanOs = some loaded →
      ∀ names, s.InUse names → SameNames names (loaded.map Prod.fst)
  | _ => True

namespace ModuleIndexLemmas

/-! ## Agreement -/

/-- The live snapshot has the names of every reply in use. -/
def Agrees (s : IndexSystem) : Prop :=
  ∀ names, s.InUse names → SameNames names (s.namesOf s.current)

/-- A request that holds a snapshot has the module it expects at its index
there. -/
def RequestsRight (s : IndexSystem) : Prop :=
  ∀ wants index name snapshot, .asking wants index name (some snapshot) ∈ s.threads →
    ∀ name', (s.namesOf snapshot)[index]? = some name' → name = name'

theorem sameNames_refl (names : List String) : SameNames names names := by
  intro i name name' h h'
  exact Option.some.inj (h.symm.trans h')

variable {e : IndexEvent} {s t : IndexSystem} {tr : List (IndexSystem × IndexEvent)} {names : List String}
    {snapshot : Nat}

theorem sameNames_of_prefix {names' live : List String} (hpre : names <+: names')
    (h : SameNames names' live) : SameNames names live := by
  intro i name name' hname hname'
  obtain ⟨rest, rfl⟩ := hpre
  have hi := (List.getElem?_eq_some_iff.mp hname).1
  exact h i name name' ((List.getElem?_append_left hi).trans hname) hname'

/-- A step that publishes nothing keeps the agreement if every reply in use after
it is the beginning of one that was in use before, or of the live names. -/
theorem Agrees.of (h : Agrees s)
    (hlive : t.namesOf t.current = s.namesOf s.current)
    (huse : ∀ names, t.InUse names →
      ∃ names', (s.InUse names' ∨ names' = s.namesOf s.current) ∧ names <+: names') : Agrees t := by
  intro names hnames
  rw [hlive]
  obtain ⟨names', hold | rfl, hpre⟩ := huse names hnames
  · exact sameNames_of_prefix hpre (h names' hold)
  · exact sameNames_of_prefix hpre (sameNames_refl _)

/-- The replies in use after a step that leaves the replies and the names as they
are, and adds or changes one thread. -/
theorem inUse_thread (hheld : t.held = s.held)
    (hnames : ∀ k, t.namesOf k = s.namesOf k) {thread : Thread}
    (hthreads : ∀ other ∈ t.threads, other ∈ s.threads ∨ other = thread) (h : t.InUse names) :
    s.InUse names ∨ ∃ snapshot, thread = .reading (some snapshot) ∧ names = s.namesOf snapshot := by
  cases h with
  | held hmem => exact .inl (.held (hheld ▸ hmem))
  | @reading snapshot hmem =>
    rw [hnames]
    rcases hthreads _ hmem with hold | hnew
    · exact .inl (.reading hold)
    · exact .inr ⟨snapshot, hnew.symm, rfl⟩

theorem namesOf_answered (h : Sound s) {os : Os}
    (hfresh : FreshSpawn s.sockets os = true) (k : Nat) (wants : Wants) (index snapshot j : Nat) :
    (s.answered k wants index snapshot os).namesOf j = s.namesOf j :=
  namesOf_setSnapshot (answer_serves h hfresh wants index snapshot).names j

theorem namesOf_replied (s : IndexSystem) (k snapshot : Nat) (os : Os) (j : Nat) :
    (s.replied k snapshot os).namesOf j = s.namesOf j :=
  namesOf_setSnapshot (s := s) rfl j

theorem namesOf_dropAt (s : IndexSystem) (snapshot next j : Nat) :
    (s.dropAt snapshot next).namesOf j = s.namesOf j :=
  namesOf_setSnapshot (s := s) (names_drop _ _) j

theorem keepsMeaning_of_quiet (h : e.Quiet) : KeepsMeaning s e := by
  cases e with
  | rescan os =>
    intro loaded hload
    cases (show loadModules os.toScanOs = none from h).symm.trans hload
  | _ => trivial

/-- The replies in use are not touched when a snapshot is published. -/
theorem inUse_publish (h : Sound s) (d : Daemon) (names : List String) :
    (s.publish d).InUse names ↔ s.InUse names := by
  have hnames : ∀ snapshot, .reading (some snapshot) ∈ s.threads →
      (s.publish d).namesOf snapshot = s.namesOf snapshot := by
    intro snapshot hmem
    have hlt := (h.threads _ hmem).exists_snapshot snapshot rfl
    unfold IndexSystem.namesOf
    rw [modulesOf_publish d hlt]
  constructor
  · intro huse
    cases huse with
    | held hmem => exact .held hmem
    | reading hmem => rw [hnames _ hmem]; exact .reading hmem
  · intro huse
    cases huse with
    | held hmem => exact .held hmem
    | reading hmem => rw [← hnames _ hmem]; exact .reading hmem

theorem agrees_publish (h : Sound s) (d : Daemon) :
    Agrees (s.publish d) ↔
      ∀ names, s.InUse names → SameNames names (d.modules.map Module.name) := by
  unfold Agrees IndexSystem.namesOf
  rw [modulesOf_publish_current]
  exact forall_congr' fun names => by rw [inUse_publish h]

/-- Steps of a thread that leave the snapshots and the replies as they are. -/
theorem agrees_of_quiet (hagrees : Agrees s) (thread : Thread)
    (hheld : t.held = s.held) (hnames : ∀ k, t.namesOf k = s.namesOf k)
    (hlen : t.snapshots.length = s.snapshots.length)
    (hthreads : ∀ other ∈ t.threads, other ∈ s.threads ∨ other = thread)
    (hthread : ∀ snapshot, thread = .reading (some snapshot) → snapshot = s.current) : Agrees t := by
  refine hagrees.of ?_ fun names huse => ⟨names, ?_, prefix_rfl⟩
  · unfold IndexSystem.current
    rw [hnames, hlen]
  · rcases inUse_thread hheld hnames hthreads huse with hold | ⟨snapshot, hnew, rfl⟩
    · exact .inl hold
    · exact .inr (by rw [hthread snapshot hnew])

/-- A reply hands out names that its thread had in use. -/
theorem agrees_replied (hagrees : Agrees s) {k : Nat} (os : Os)
    (hk : s.threads[k]? = some (.reading (some snapshot))) : Agrees (s.replied k snapshot os) := by
  refine hagrees.of ?_ fun names huse => ?_
  · unfold IndexSystem.current
    rw [namesOf_replied]
    exact congrArg (fun n => s.namesOf (n - 1)) length_set
  · cases huse with
    | held hmem =>
      rcases mem_append.mp hmem with hold | hnew
      · exact ⟨names, .inl (.held hold), prefix_rfl⟩
      · rw [mem_singleton] at hnew
        subst hnew
        exact ⟨_, .inl (.reading (mem_of_getElem? hk)), replyNames_prefix os _⟩
    | reading hmem =>
      rw [namesOf_replied]
      exact ⟨_, .inl (.reading ((mem_or_eq_of_mem_set hmem).resolve_right nofun)),
        prefix_rfl⟩

theorem agrees_step (h : Sound s) (hagrees : Agrees s)
    (hstep : s.Step e t) : Agrees t ↔ KeepsMeaning s e := by
  have hquiet := @agrees_of_quiet s t hagrees
  cases step_cases hstep with
  | readModules | ask =>
    exact iff_of_true (hquiet _ rfl (fun _ => rfl) rfl (fun _ => mem_connect) nofun) trivial
  | takeReading =>
    refine iff_of_true (hquiet _ rfl (fun _ => rfl) rfl (fun _ => mem_setThread) ?_) trivial
    rintro _ ⟨⟩
    rfl
  | takeAsking =>
    exact iff_of_true (hquiet _ rfl (fun _ => rfl) rfl (fun _ => mem_setThread) nofun) trivial
  | reply hk => exact iff_of_true (agrees_replied hagrees _ hk) trivial
  | answer hk hfresh =>
    exact iff_of_true (hquiet _ rfl (namesOf_answered h hfresh _ _ _ _) length_set
      (fun _ => mem_or_eq_of_mem_set) nofun) trivial
  | dropCompanion =>
    exact iff_of_true (hquiet .done rfl (namesOf_dropAt s _ _) length_set
      (fun _ => .inl) nofun) trivial
  | mainLoop hq =>
    exact iff_of_true (hquiet .done rfl (fun _ => rfl) rfl (fun _ => .inl) nofun)
      (keepsMeaning_of_quiet hq)
  | @publish os loaded d hload hmodules =>
    rw [agrees_publish h, hmodules, names_numberModules]
    constructor
    · intro hall loaded' hload' names huse
      cases hload.symm.trans hload'
      exact hall names huse
    · intro hkeeps
      exact hkeeps loaded hload

/-- A request keeps the right snapshot: the one it takes agrees with the reply
its index is from. -/
theorem requestsRight_step (h : Sound s) (hagrees : Agrees s)
    (hright : RequestsRight s) (hstep : s.Step e t) : RequestsRight t := by
  -- for the steps that give no request a snapshot
  have hkeep : (∀ wants index name snapshot, .asking wants index name (some snapshot) ∈ t.threads →
        .asking wants index name (some snapshot) ∈ s.threads) →
      (∀ k, k < s.snapshots.length → t.namesOf k = s.namesOf k) → RequestsRight t := by
    intro hthreads hnames wants index name snapshot hmem name' hname'
    have hold := hthreads wants index name snapshot hmem
    rw [hnames snapshot ((h.threads _ hold).exists_snapshot snapshot rfl)] at hname'
    exact hright wants index name snapshot hold name' hname'
  cases step_cases hstep with
  | readModules | ask =>
    exact hkeep (fun _ _ _ _ hmem => (mem_connect hmem).resolve_right nofun) fun _ _ => rfl
  | takeReading =>
    exact hkeep (fun _ _ _ _ hmem => (mem_setThread hmem).resolve_right nofun) fun _ _ => rfl
  | takeAsking hk =>
    intro wants index name snapshot hmem name' hname'
    rcases mem_setThread hmem with hold | hnew
    · exact hright wants index name snapshot hold name' hname'
    · cases hnew
      obtain ⟨names, hnames, hentry⟩ :=
        (h.threads _ (mem_of_getElem? hk)).from_reply _ _ _ _ rfl
      exact hagrees names (.held hnames) _ _ name' hentry hname'
  | reply =>
    exact hkeep (fun _ _ _ _ hmem => (mem_or_eq_of_mem_set hmem).resolve_right nofun)
      fun k _ => namesOf_replied s _ _ _ k
  | answer _ hfresh =>
    exact hkeep (fun _ _ _ _ hmem => (mem_or_eq_of_mem_set hmem).resolve_right nofun)
      fun k _ => namesOf_answered h hfresh _ _ _ _ k
  | dropCompanion => exact hkeep (fun _ _ _ _ => id) fun k _ => namesOf_dropAt s _ _ k
  | publish =>
    refine hkeep (fun _ _ _ _ => id) fun k hk => ?_
    unfold IndexSystem.namesOf
    rw [modulesOf_publish _ hk]
  | mainLoop => exact hkeep (fun _ _ _ _ => id) fun _ _ => rfl

theorem rightAnswer_of (h : Sound s) (hright : RequestsRight s)
    (hstep : s.Step e t) : RightAnswer s e := by
  cases step_cases hstep with
  | answer hk hfresh =>
    intro wants index name snapshot hk'
    refine (answer_serves h hfresh wants index snapshot).right name fun m hm => ?_
    have hname : (s.namesOf snapshot)[index]? = some m.name := by
      rw [IndexSystem.namesOf, getElem?_map, show (s.modulesOf snapshot)[index]? = some m from hm]
      rfl
    exact (hright wants index name snapshot (mem_of_getElem? hk') m.name hname).symm
  | @mainLoop e _ _ _ hno =>
    cases e with
    | answer k os => exact absurd rfl (hno k os)
    | _ => trivial
  | _ => trivial

/-! ## A disagreement shows -/

/-- Steps from `s` to `t` that publish nothing. -/
def QuietRun (s : IndexSystem) (tr : List (IndexSystem × IndexEvent)) (t : IndexSystem) : Prop :=
  Run IndexSystem.Step s tr t ∧ ∀ p ∈ tr, p.2.Quiet

theorem QuietRun.append {u : IndexSystem} {tr' : List (IndexSystem × IndexEvent)}
    (h : QuietRun s tr t) (h' : QuietRun t tr' u) : QuietRun s (tr ++ tr') u :=
  ⟨h.1.append h'.1, fun p hp => (mem_append.mp hp).elim (h.2 p) (h'.2 p)⟩

theorem QuietRun.single (h : s.Step e t) (hq : e.Quiet) :
    QuietRun s [(s, e)] t :=
  ⟨.single h, fun p hp => by rw [mem_singleton.mp hp]; exact hq⟩

/-- What clients and threads see of a state. -/
structure SameForClients (s t : IndexSystem) : Prop where
  held : t.held = s.held
  threads : t.threads = s.threads
  names : ∀ k, t.namesOf k = s.namesOf k
  current : t.current = s.current

theorem SameForClients.trans {u : IndexSystem} (h : SameForClients s t) (h' : SameForClients t u) :
    SameForClients s u :=
  ⟨h'.held.trans h.held, h'.threads.trans h.threads, fun k => (h'.names k).trans (h.names k),
    h'.current.trans h.current⟩

/-- A scan that fails: the property with the ABI is empty. -/
def failingOs : Os := { quietOs none with abi := "" }

theorem settle_rescanning (h : s.mainLoop = .rescanning) :
    ∃ tr t, QuietRun s tr t ∧ t.mainLoop = .accepting ∧ SameForClients s t := by
  have hstep : s.Step (.rescan failingOs) { s with mainLoop := .accepting } := by
    unfold IndexSystem.Step IndexSystem.step
    rw [h]
    rfl
  exact ⟨_, _, .single hstep rfl, rfl, ⟨rfl, rfl, fun _ => rfl, rfl⟩⟩

theorem settle_dropping {next : Nat} (n : Nat)
    (hn : (s.namesOf snapshot).length - next = n) (h : s.mainLoop = .dropping snapshot next) :
    ∃ tr t, QuietRun s tr t ∧ t.mainLoop = .accepting ∧ SameForClients s t := by
  have hlen : (s.namesOf snapshot).length = (s.modulesOf snapshot).length := length_map _
  induction n generalizing s next with
  | zero =>
    obtain ⟨t, hstep, hloop, hsame⟩ : ∃ t, s.Step (.forgetZn failingOs) t ∧
        t.mainLoop = .rescanning ∧ SameForClients s t := by
      let d := { s.daemon with znCompanions := [], znStates := [] }.writeZnStateFile failingOs
      refine ⟨{ s with daemon := d, mainLoop := .rescanning }, ?_, rfl, ⟨rfl, rfl, fun _ => rfl, rfl⟩⟩
      unfold IndexSystem.Step IndexSystem.step
      rw [h]
      exact if_neg (by omega)
    obtain ⟨tr, u, hrun, haccepting, hsame'⟩ := settle_rescanning hloop
    exact ⟨_, u, (QuietRun.single hstep trivial).append hrun, haccepting, hsame.trans hsame'⟩
  | succ n ih =>
    have hstep : s.Step .dropCompanion (s.dropAt snapshot next) := by
      unfold IndexSystem.Step IndexSystem.step
      rw [h]
      exact if_pos (by omega)
    have hnames := namesOf_dropAt s snapshot next
    have hsame : SameForClients s (s.dropAt snapshot next) :=
      ⟨rfl, rfl, hnames, congrArg (· - 1) length_set⟩
    obtain ⟨tr, u, hrun, haccepting, hsame'⟩ := @ih (s.dropAt snapshot next) (next + 1)
      (by rw [hnames]; omega) rfl (length_map _)
    exact ⟨_, u, (QuietRun.single hstep trivial).append hrun, haccepting, hsame.trans hsame'⟩

/-- Whatever the main loop is at, it can come back to accept connections with the
live snapshot as it is. -/
theorem settle (s : IndexSystem) :
    ∃ tr t, QuietRun s tr t ∧ t.mainLoop = .accepting ∧ SameForClients s t := by
  cases h : s.mainLoop with
  | accepting =>
    exact ⟨[], s, ⟨.refl, fun p hp => absurd hp not_mem_nil⟩, h, ⟨rfl, rfl, fun _ => rfl, rfl⟩⟩
  | dropping snapshot next => exact settle_dropping _ rfl h
  | rescanning => exact settle_rescanning h

theorem exists_fresh (sockets : List (Nat × String)) : ∃ socket, sockets.lookup socket = none := by
  obtain ⟨socket, hsocket⟩ := Infinite.exists_notMem_finset (sockets.map Prod.fst).toFinset
  refine ⟨socket, lookup_eq_none_iff.mpr fun entry hentry => ?_⟩
  rw [bne_iff_ne]
  rintro rfl
  exact hsocket (mem_toFinset.mpr (mem_map_of_mem hentry))

/-- A system in which no companion is alive, and one can be started. -/
def startingOs (socket : Nat) : Os :=
  { quietOs none with isSocketAlive := fun _ => false, spawn := .ready 0 socket }

/-- The answer that shows which module a snapshot has at an index. -/
theorem answer_tells {index socket : Nat} {name name' : String}
    (hname' : (s.namesOf snapshot)[index]? = some name')
    (h : AnsweredFor (s.socketsAfter (startingOs socket)
        (s.answer .companion index snapshot (startingOs socket)).2) name
      (s.answer .companion index snapshot (startingOs socket)).1) : name = name' := by
  rw [IndexSystem.namesOf, getElem?_map] at hname'
  obtain ⟨m, hm, rfl⟩ := Option.map_eq_some_iff.mp hname'
  have hnone : m.companion.filter (startingOs socket).isSocketAlive = none := by
    cases m.companion <;> rfl
  have hsent : (s.answer .companion index snapshot (startingOs socket)).1 = [.handedTo socket] := by
    unfold IndexSystem.answer handleConnection Wants.request handleRequestCompanionSocket moduleAt
    simp only [show (s.daemonOn snapshot).modules[index]? = some m from hm, hnone]
    rfl
  have hsockets : s.socketsAfter (startingOs socket)
      (s.answer .companion index snapshot (startingOs socket)).2 = (socket, m.name) :: s.sockets := by
    unfold IndexSystem.answer handleConnection Wants.request handleRequestCompanionSocket moduleAt
    simp only [show (s.daemonOn snapshot).modules[index]? = some m from hm, hnone]
    simp [IndexSystem.socketsAfter, newCompanion, startingOs, Daemon.spawn, IndexSystem.daemonOn, quietOs]
  rw [hsent, hsockets] at h
  have hself : ((socket, m.name) :: s.sockets).lookup socket = some m.name := by
    rw [lookup_cons, beq_self_eq_true]
  exact Option.some.inj ((show _ = some name from h).symm.trans hself)

/-- A request with an index of a held reply can be accepted and answered from the
live snapshot. -/
theorem request_tells (haccepting : s.mainLoop = .accepting)
    (hheld : names ∈ s.held) {index : Nat} {name name' : String} (hname : names[index]? = some name)
    (hname' : (s.namesOf s.current)[index]? = some name')
    (h : ∀ tr t, QuietRun s tr t → ∀ p ∈ tr, RightAnswer p.1 p.2) : name = name' := by
  obtain ⟨reply, hreply⟩ := mem_iff_getElem?.mp hheld
  obtain ⟨socket, hfresh⟩ := exists_fresh s.sockets
  let asked := s.connect (.asking .companion index name none)
  let holding := asked.setThread s.threads.length (.asking .companion index name (some s.current))
  have hask : s.Step (.ask reply index .companion) asked := by
    unfold IndexSystem.Step IndexSystem.step
    simp only [hreply, Option.bind_some, hname, haccepting, if_true]
    rfl
  have hlast : asked.threads[s.threads.length]? = some (.asking .companion index name none) :=
    getElem?_concat_length
  have htake : asked.Step (.takeSnapshot s.threads.length) holding := by
    unfold IndexSystem.Step IndexSystem.step
    simp only [hlast]
    rfl
  have hholding : holding.threads[s.threads.length]? =
      some (.asking .companion index name (some s.current)) := by
    have hlt := (List.getElem?_eq_some_iff.mp hlast).1
    exact (getElem?_set_self hlt)
  have hanswer : holding.Step (.answer s.threads.length (startingOs socket))
      (holding.answered s.threads.length .companion index s.current (startingOs socket)) := by
    unfold IndexSystem.Step IndexSystem.step
    simp only [hholding]
    exact if_pos (by simp [FreshSpawn, startingOs, show holding.sockets = s.sockets from rfl, hfresh])
  have hrun := ((QuietRun.single hask trivial).append (.single htake trivial)).append
    (.single hanswer trivial)
  have hright := h _ _ hrun _ (mem_append_right _ mem_cons_self)
  exact answer_tells (s := holding) hname' (hright .companion index name s.current hholding)

theorem deliver (h : .reading (some snapshot) ∈ s.threads) :
    ∃ e t, s.Step e t ∧ e.Quiet ∧ s.namesOf snapshot ∈ t.held ∧ t.mainLoop = s.mainLoop ∧
      t.namesOf t.current = s.namesOf s.current := by
  obtain ⟨k, hk⟩ := mem_iff_getElem?.mp h
  let sent := (handleReadModules (quietOs none) (s.daemonOn snapshot)).1
  let os : Os := { quietOs none with writes := sent.length }
  have hstep : s.Step (.reply k os) (s.replied k snapshot os) := by
    unfold IndexSystem.Step IndexSystem.step
    simp only [hk]
  refine ⟨_, _, hstep, trivial, ?_, rfl, ?_⟩
  · refine mem_append_right _ (mem_singleton.mpr ?_)
    have hall : delivered os sent = sent := take_length
    exact (entryNames_all (s.modulesOf snapshot)).symm.trans (congrArg replyNames hall).symm
  · rw [namesOf_replied]
    exact congrArg (fun n => s.namesOf (n - 1)) length_set

/-- If no continuation that publishes nothing gives a wrong answer, the live
snapshot agrees with the replies in use. -/
theorem agrees_of_continuations
    (h : ∀ tr t, QuietRun s tr t → ∀ p ∈ tr, RightAnswer p.1 p.2) : Agrees s := by
  obtain ⟨tr, t, hrun, haccepting, hsame⟩ := settle s
  have ht : ∀ tr' u, QuietRun t tr' u → ∀ p ∈ tr', RightAnswer p.1 p.2 := by
    intro tr' u hrun' p hp
    exact h _ u (hrun.append hrun') p (mem_append_right _ hp)
  have hlive : t.namesOf t.current = s.namesOf s.current := by rw [hsame.names, hsame.current]
  intro names huse index name name' hname hname'
  rw [← hlive] at hname'
  cases huse with
  | held hmem => exact request_tells haccepting (hsame.held ▸ hmem) hname hname' ht
  | reading hmem =>
    obtain ⟨e, u, hstep, hq, hheld, hloop, hcurrent⟩ := deliver (hsame.threads ▸ hmem)
    rw [← hcurrent] at hname'
    refine request_tells (hloop.trans haccepting) hheld ?_ hname' fun tr' v hrun' p hp => ?_
    · rw [hsame.names]
      exact hname
    · exact ht _ v ((QuietRun.single hstep hq).append hrun') p (mem_append_right _ hp)

theorem agrees_start (d : Daemon) : Agrees (.start d) := by
  rintro names (hmem | hmem) <;> cases hmem

/-- The published snapshots keep the meaning of indices exactly when, wherever the
run passes, the live snapshot agrees with the replies in use. -/
theorem keepsMeaning_iff {d : Daemon} (hd : ∀ m ∈ d.modules, m.companion = none)
    (h : Run IndexSystem.Step (.start d) tr t) :
    (∀ p ∈ tr, KeepsMeaning p.1 p.2) ↔ ∀ s ∈ visited tr t, Agrees s :=
  h.forall_ok_iff Sound Agrees KeepsMeaning (fun _ _ _ hs hstep => sound_step hs hstep)
    (fun _ _ _ hs hagrees hstep => agrees_step hs hagrees hstep) (sound_start hd) (agrees_start d)

theorem answers_right {d : Daemon} (hd : ∀ m ∈ d.modules, m.companion = none)
    (h : Run IndexSystem.Step (.start d) tr t) (hkeeps : ∀ p ∈ tr, KeepsMeaning p.1 p.2) :
    ∀ p ∈ tr, RightAnswer p.1 p.2 := by
  have hagrees : ∀ p ∈ tr, Agrees p.1 := by
    intro p hp
    exact (keepsMeaning_iff hd h).mp hkeeps p.1 (mem_append_left _ (mem_map_of_mem hp))
  refine ((h.restrict (fun s _ => Agrees s) hagrees).forall_steps (fun s =>
    Sound s ∧ RequestsRight s) RightAnswer
    ?_ ?_ ⟨sound_start hd, nofun⟩).2
  · rintro s e t ⟨hs, hright⟩ ⟨hag, hstep⟩
    exact ⟨sound_step hs hstep, requestsRight_step hs hag hright hstep⟩
  · rintro s e t ⟨hs, hright⟩ ⟨_, hstep⟩
    exact rightAnswer_of hs hright hstep

end ModuleIndexLemmas

open ModuleIndexLemmas

/-- For every run of the daemon: the snapshots it publishes have the names of the
replies in use exactly when, in it and in every run that leaves it for steps that
publish nothing, each request with an index is answered for the module that had
this index in the client's reply, or is refused. -/
theorem index_keeps_meaning_iff {d : Daemon} (hd : ∀ m ∈ d.modules, m.companion = none)
    {tr : List (IndexSystem × IndexEvent)} {t : IndexSystem}
    (h : Run IndexSystem.Step (.start d) tr t) :
    (∀ p ∈ tr, KeepsMeaning p.1 p.2) ↔
      ∀ tr₁ tr₂ u, tr₁ <+: tr → (∀ p ∈ tr₂, p.2.Quiet) →
        Run IndexSystem.Step (.start d) (tr₁ ++ tr₂) u →
        ∀ p ∈ tr₁ ++ tr₂, RightAnswer p.1 p.2 := by
  constructor
  · intro hkeeps tr₁ tr₂ u hpre hquiet hrun
    refine answers_right hd hrun fun p hp => ?_
    rcases mem_append.mp hp with hp | hp
    · exact hkeeps p (hpre.subset hp)
    · exact keepsMeaning_of_quiet (hquiet p hp)
  · intro hall
    rw [keepsMeaning_iff hd h]
    intro s hs
    obtain ⟨tr₁, hpre, hrun⟩ := h.to_visited hs
    refine agrees_of_continuations fun tr₂ u hquiet p hp => ?_
    exact hall tr₁ tr₂ u hpre hquiet.2 (hrun.append hquiet.1) p (mem_append_right _ hp)

/-- A system whose module directory has modules with these names. -/
def installedOs (names : List String) : Os :=
  { quietOs (some 0) with
    readDir := fun _ =>
      .entries (names.map fun name => ⟨⟨true, ["data", "adb", "modules", name]⟩, some name⟩)
    pathExists := fun path => path.components.getLast? = some "arm64-v8a.so"
    openFile := fun _ => some []
    copyToMemfd := fun _ => true
    spawn := .ready 7 3 }

/-- The daemon after start-up with two modules. -/
def twoModules : Daemon :=
  { freshDaemon with modules := [⟨"alpha", 0, none⟩, ⟨"beta", 1, none⟩] }

/-- A process reads the modules, the modules found on disk then are published,
and the process asks for the companion of the module it read first. -/
def refreshedHistory (names : List String) : List IndexEvent :=
  [.readModules, .takeSnapshot 0, .reply 0 (installedOs names), .refreshModules,
    .rescan (installedOs names), .ask 0 0 .companion, .takeSnapshot 1, .answer 1 (installedOs names)]

/-- If the event publishes a snapshot, no reply is on its way and those that are
held are beginnings of it. -/
def appends (s : IndexSystem) : IndexEvent → Bool
  | .rescan os => s.threads.all (fun thread => thread.snapshot.isNone) &&
      ((loadModules os.toScanOs).all fun loaded =>
        s.held.all fun names => decide (names <+: loaded.map Prod.fst))
  | _ => true

theorem ModuleIndexLemmas.keepsMeaning_of_appends {tr : List (IndexSystem × IndexEvent)}
    (h : (tr.all fun p => appends p.1 p.2) = true) : ∀ p ∈ tr, KeepsMeaning p.1 p.2 := by
  rintro ⟨s, e⟩ hp
  have happends := all_eq_true.mp h (s, e) hp
  cases e with
  | rescan os =>
    simp only [appends, Bool.and_eq_true, all_eq_true, Option.all_eq_true] at happends
    intro loaded hload names huse
    cases huse with
    | held hmem =>
      have hpre := of_decide_eq_true (happends.2 loaded hload names hmem)
      exact sameNames_of_prefix hpre (sameNames_refl _)
    | reading hmem => cases happends.1 _ hmem
  | _ => trivial

theorem twoModules_noCompanion : ∀ m ∈ twoModules.modules, m.companion = none := by decide

/-- A module that is installed behind the others changes no index. -/
theorem index_keeps_meaning_iff_installed :
    ∃ tr t, Run IndexSystem.Step (.start twoModules) tr t ∧
      tr.map Prod.snd = refreshedHistory ["alpha", "beta", "gamma"] ∧
      t.sockets = [(3, "alpha")] ∧ ∀ p ∈ tr, RightAnswer p.1 p.2 := by
  obtain ⟨hrun, hevents⟩ := run_exec_get (show (exec IndexSystem.step (.start twoModules)
    (refreshedHistory ["alpha", "beta", "gamma"])).isSome = true from rfl)
  refine ⟨_, _, hrun, hevents, by decide, fun p hp => ?_⟩
  have hright := (index_keeps_meaning_iff twoModules_noCompanion hrun).mp
    (keepsMeaning_of_appends (by decide))
  exact hright _ [] _ prefix_rfl (fun p hp => absurd hp not_mem_nil)
    (by rw [append_nil]; exact hrun) p (mem_append_left _ hp)

/-- A module that was removed from the disk leaves its index to the next one: the
process asks for the companion of the one and gets that of the other. -/
theorem index_answered_for_other_module :
    ∃ tr t, Run IndexSystem.Step (.start twoModules) tr t ∧
      tr.map Prod.snd = refreshedHistory ["beta"] ∧ t.held = [["alpha", "beta"]] ∧
      t.sockets = [(3, "beta")] ∧ ¬ ∀ p ∈ tr, RightAnswer p.1 p.2 := by
  obtain ⟨hrun, hevents⟩ := run_exec_get (show (exec IndexSystem.step (.start twoModules)
    (refreshedHistory ["beta"])).isSome = true from rfl)
  refine ⟨_, _, hrun, hevents, by decide, by decide, fun hall => ?_⟩
  have hright := hall _ (mem_of_getElem? (i := 7) rfl)
  have hlookup : List.lookup 3 [(3, "beta")] = some "alpha" := hright .companion 0 "alpha" 1 rfl
  exact absurd hlookup (by decide)

end NyaZygisk
