import Mathlib

/-!
# Zygisk modules and their callbacks

`ZygiskModule` and the loops `run_modules_pre` and `run_modules_post` of `module.cpp`. What a
library's `zygisk_module_entry` does is a list of actions on tables of its own; the callbacks
themselves are code of the libraries, and only the calls are looked at.
-/

namespace NyaZygisk

open List

/-- The specialize callbacks of a module. -/
inductive Callback
  | preAppSpecialize
  | postAppSpecialize
  | preServerSpecialize
  | postServerSpecialize
deriving DecidableEq

/-- `module_abi_v1`; 0 is the null pointer. -/
structure ModuleAbi where
  apiVersion : Int
  impl : Nat
  preAppSpecialize : Nat
  postAppSpecialize : Nat
  preServerSpecialize : Nat
  postServerSpecialize : Nat
deriving DecidableEq

def ModuleAbi.callback (abi : ModuleAbi) : Callback → Nat
  | .preAppSpecialize => abi.preAppSpecialize
  | .postAppSpecialize => abi.postAppSpecialize
  | .preServerSpecialize => abi.preServerSpecialize
  | .postServerSpecialize => abi.postServerSpecialize

def zygiskApiVersion : Int := 5

/-- What the code of a library does with the API in its entry. -/
inductive EntryAction
  /-- It fills one of its tables. -/
  | fill (table : Nat) (abi : ModuleAbi)
  /-- It calls `registerModule`; `none` is a null pointer. -/
  | register (api : Bool) (table : Option Nat)

/-- A module that was opened, with the tables of its library. -/
structure ZygiskModule where
  id : Nat
  entry : List EntryAction
  tables : Nat → ModuleAbi
  /-- The table that was registered, if any. -/
  mod : Option Nat

/-- A library of `ReadModules`; one that cannot be opened or lacks the entry has none. -/
structure Library where
  entry : Option (List EntryAction)
  tables : Nat → ModuleAbi

namespace ZygiskModule

variable (m : ZygiskModule)

/-- `RegisterModuleImpl`, with what it returns. -/
def registerModuleImpl (api : Bool) (table : Option Nat) : ZygiskModule × Bool :=
  if api = false then (m, false)
  else
    match table with
    | none => (m, false)
    | some p =>
      if (m.tables p).apiVersion > zygiskApiVersion then (m, false) else ({ m with mod := some p }, true)

def act : EntryAction → ZygiskModule
  | .fill table abi => { m with tables := Function.update m.tables table abi }
  | .register api table => (m.registerModuleImpl api table).1

def onLoad : ZygiskModule := m.entry.foldl act m

def valid : Bool :=
  match m.mod with
  | none => false
  | some p =>
    let abi := m.tables p
    if 1 ≤ abi.apiVersion ∧ abi.apiVersion ≤ 5 then
      abi.impl != 0 && abi.preAppSpecialize != 0 && abi.postAppSpecialize != 0 &&
        abi.preServerSpecialize != 0 && abi.postServerSpecialize != 0
    else false

end ZygiskModule

/-! ## Runs -/

inductive SpecializeArgs
  | appV1
  | appV5
  | server
deriving DecidableEq

inductive ModuleEvent
  | load (id : Nat)
  /-- `mod` is dereferenced. -/
  | read (id : Nat)
  | call (id : Nat) (callback : Callback) (impl : Nat) (args : SpecializeArgs)
deriving DecidableEq

/-- What was done, and whether it ended at a null pointer. -/
structure Outcome where
  trace : List ModuleEvent
  crashed : Bool
deriving DecidableEq

namespace Outcome

def done : Outcome := ⟨[], false⟩

/-- Nothing follows a crash. -/
def andThen (a b : Outcome) : Outcome := if a.crashed then a else ⟨a.trace ++ b.trace, b.crashed⟩

end Outcome

def appSpecialize : BitVec 32 := 4
def serverForkAndSpecialize : BitVec 32 := 8
def postSpecialize : BitVec 32 := 1

namespace ZygiskModule

variable (m : ZygiskModule)

def invoke (abi : ModuleAbi) (cb : Callback) (args : SpecializeArgs) : Outcome :=
  ⟨[.read m.id, .call m.id cb abi.impl args], abi.callback cb == 0⟩

/-- The macro `call_app`. -/
def callApp (cb : Callback) : Outcome :=
  match m.mod with
  | none => ⟨[.read m.id], true⟩
  | some p =>
    let abi := m.tables p
    if abi.apiVersion = 1 ∨ abi.apiVersion = 2 then m.invoke abi cb .appV1
    else if abi.apiVersion = 3 ∨ abi.apiVersion = 4 ∨ abi.apiVersion = 5 then m.invoke abi cb .appV5
    else ⟨[.read m.id], false⟩

/-- `preServerSpecialize` and `postServerSpecialize`. -/
def callServer (cb : Callback) : Outcome :=
  match m.mod with
  | none => ⟨[.read m.id], true⟩
  | some p => m.invoke (m.tables p) cb .server

/-- The callback that the flags ask for. -/
def specialize (flags : BitVec 32) (app server : Callback) : Outcome :=
  if flags &&& appSpecialize ≠ 0 then m.callApp app
  else if flags &&& serverForkAndSpecialize ≠ 0 then m.callServer server
  else .done

end ZygiskModule

/-- The modules that `run_modules_pre` opens; `i` is the index of the first library. -/
def openModules : Nat → List Library → List ZygiskModule
  | _, [] => []
  | i, lib :: libs =>
    match lib.entry with
    | none => openModules (i + 1) libs
    | some entry => ⟨i, entry, lib.tables, none⟩ :: openModules (i + 1) libs

/-- The second loop of `run_modules_pre`. -/
def runModulesPre (flags : BitVec 32) : List ZygiskModule → Outcome
  | [] => .done
  | m :: ms =>
    (Outcome.andThen ⟨[.load m.id], false⟩
      (m.onLoad.specialize flags .preAppSpecialize .preServerSpecialize)).andThen (runModulesPre flags ms)

/-- The first loop of `run_modules_post`. -/
def runModulesPost (flags : BitVec 32) : List ZygiskModule → Outcome
  | [] => .done
  | m :: ms =>
    (m.specialize (flags ||| postSpecialize) .postAppSpecialize .postServerSpecialize).andThen
      (runModulesPost flags ms)

/-- `run_modules_pre`, then `run_modules_post`. -/
def runModules (flags : BitVec 32) (libs : List Library) : Outcome :=
  (runModulesPre flags (openModules 0 libs)).andThen
    (runModulesPost flags ((openModules 0 libs).map ZygiskModule.onLoad))

/-! ## What the modules should see -/

/-- The modules as they are after `onLoad`. -/
def loadedModules (libs : List Library) : List ZygiskModule :=
  (openModules 0 libs).map ZygiskModule.onLoad

def ModuleEvent.isCall : ModuleEvent → Bool
  | .call .. => true
  | _ => false

/-- The event is about the module itself, not only about its library. -/
def ModuleEvent.touches : ModuleEvent → Option Nat
  | .load _ => none
  | .read id => some id
  | .call id .. => some id

/-- The call that a round of callbacks owes a valid module. -/
def ZygiskModule.owed (m : ZygiskModule) (flags : BitVec 32) (app server : Callback) : List ModuleEvent :=
  match m.mod with
  | none => []
  | some p =>
    let abi := m.tables p
    if flags &&& appSpecialize ≠ 0 then
      [.call m.id app abi.impl (if abi.apiVersion ≤ 2 then .appV1 else .appV5)]
    else if flags &&& serverForkAndSpecialize ≠ 0 then [.call m.id server abi.impl .server]
    else []

def owedCalls (flags : BitVec 32) (app server : Callback) (ms : List ZygiskModule) : List ModuleEvent :=
  (ms.filter ZygiskModule.valid).flatMap fun m => m.owed flags app server

/-- Only valid modules are touched, the others are skipped, and the valid ones get
their callbacks in order. -/
structure CallbacksOnlyValid (flags : BitVec 32) (libs : List Library) : Prop where
  touched : ∀ e ∈ (runModules flags libs).trace, ∀ id, e.touches = some id →
    ∃ m, m ∈ loadedModules libs ∧ m.id = id ∧ m.valid = true
  skipped : (runModules flags libs).crashed = false
  called : (runModules flags libs).trace.filter ModuleEvent.isCall =
    owedCalls flags .preAppSpecialize .preServerSpecialize (loadedModules libs) ++
      owedCalls flags .postAppSpecialize .postServerSpecialize (loadedModules libs)

/-- The flags ask for no callbacks. -/
def NoCallbacks (flags : BitVec 32) : Prop :=
  flags &&& appSpecialize = 0 ∧ flags &&& serverForkAndSpecialize = 0

instance (flags : BitVec 32) : Decidable (NoCallbacks flags) := inferInstanceAs (Decidable (_ ∧ _))

namespace ZygiskModulesLemmas

/-! ## Single modules -/

variable {flags : BitVec 32} {ms : List ZygiskModule} {m : ZygiskModule}

theorem valid_parts (h : m.valid = true) :
    ∃ p, m.mod = some p ∧ 1 ≤ (m.tables p).apiVersion ∧ (m.tables p).apiVersion ≤ 5 ∧
      ∀ cb, ((m.tables p).callback cb == 0) = false := by
  unfold ZygiskModule.valid at h
  split at h
  · cases h
  · next p hp =>
    simp only at h
    split at h
    · next hversion =>
      simp only [Bool.and_eq_true, bne_iff_ne] at h
      refine ⟨p, hp, hversion.1, hversion.2, fun cb => beq_eq_false_iff_ne.mpr ?_⟩
      cases cb
      · exact h.1.1.1.2
      · exact h.1.1.2
      · exact h.1.2
      · exact h.2
    · cases h

/-- What a round of callbacks does with a module that is valid. -/
def visit (flags : BitVec 32) (app server : Callback) (m : ZygiskModule) : List ModuleEvent :=
  if NoCallbacks flags then [] else .read m.id :: m.owed flags app server

theorem callApp_valid (h : m.valid = true) (cb : Callback) :
    ∃ p, m.mod = some p ∧ m.callApp cb =
      ⟨[.read m.id, .call m.id cb (m.tables p).impl
        (if (m.tables p).apiVersion ≤ 2 then .appV1 else .appV5)], false⟩ := by
  obtain ⟨p, hp, hlow, hhigh, hcb⟩ := valid_parts h
  refine ⟨p, hp, ?_⟩
  simp only [ZygiskModule.callApp, hp, ZygiskModule.invoke, hcb]
  by_cases hold : (m.tables p).apiVersion ≤ 2
  · rw [if_pos (by omega), if_pos hold]
  · rw [if_neg (by omega), if_pos (by omega), if_neg hold]

theorem callServer_valid (h : m.valid = true) (cb : Callback) :
    ∃ p, m.mod = some p ∧ m.callServer cb =
      ⟨[.read m.id, .call m.id cb (m.tables p).impl .server], false⟩ := by
  obtain ⟨p, hp, -, -, hcb⟩ := valid_parts h
  exact ⟨p, hp, by simp only [ZygiskModule.callServer, hp, ZygiskModule.invoke, hcb]⟩

theorem specialize_visit (h : NoCallbacks flags ∨ m.valid = true)
    (app server : Callback) : m.specialize flags app server = ⟨visit flags app server m, false⟩ := by
  unfold ZygiskModule.specialize visit
  by_cases hnone : NoCallbacks flags
  · rw [if_pos hnone, if_neg (not_not.mpr hnone.1), if_neg (not_not.mpr hnone.2)]
    rfl
  · have hvalid := h.resolve_left hnone
    rw [if_neg hnone]
    by_cases happ : flags &&& appSpecialize ≠ 0
    · obtain ⟨p, hp, hcall⟩ := callApp_valid hvalid app
      rw [if_pos happ, hcall]
      simp only [ZygiskModule.owed, hp, if_pos happ]
    · have hserver : flags &&& serverForkAndSpecialize ≠ 0 := fun hzero =>
        hnone ⟨not_not.mp happ, hzero⟩
      obtain ⟨p, hp, hcall⟩ := callServer_valid hvalid server
      rw [if_neg happ, if_pos hserver, hcall]
      simp only [ZygiskModule.owed, hp, if_neg happ, if_pos hserver]

/-- A round of callbacks dereferences `mod` of every module that it comes to. -/
theorem read_mem_specialize (hsome : ¬ NoCallbacks flags) (m : ZygiskModule)
    (app server : Callback) : .read m.id ∈ (m.specialize flags app server).trace := by
  unfold ZygiskModule.specialize
  split
  · unfold ZygiskModule.callApp
    split
    · exact mem_cons_self
    · simp only
      split_ifs <;> exact mem_cons_self
  · next happ =>
    rw [if_pos fun hzero => hsome ⟨not_not.mp happ, hzero⟩]
    unfold ZygiskModule.callServer
    split <;> exact mem_cons_self

/-! ## Rounds of callbacks -/

theorem andThen_crashed {a b : Outcome} (h : (a.andThen b).crashed = false) :
    a.crashed = false ∧ b.crashed = false ∧ (a.andThen b).trace = a.trace ++ b.trace := by
  unfold Outcome.andThen at h ⊢
  split
  · next ha =>
    rw [if_pos ha, ha] at h
    cases h
  · next ha =>
    rw [if_neg ha] at h
    exact ⟨Bool.eq_false_iff.mpr ha, h, rfl⟩

theorem runModulesPre_visits
    (h : ∀ m ∈ ms, NoCallbacks flags ∨ m.onLoad.valid = true) :
    runModulesPre flags ms =
      ⟨ms.flatMap fun m => .load m.id :: visit flags .preAppSpecialize .preServerSpecialize m.onLoad,
        false⟩ := by
  induction ms with
  | nil => rfl
  | cons m ms ih =>
    rw [runModulesPre, specialize_visit (h m mem_cons_self),
      ih fun m' hm' => h m' (mem_cons_of_mem _ hm')]
    rfl

theorem post_and (flags : BitVec 32) {bit : BitVec 32} (h : postSpecialize &&& bit = 0) :
    (flags ||| postSpecialize) &&& bit = flags &&& bit := by
  rw [BitVec.and_or_distrib_right, h]
  exact BitVec.or_zero

/-- The flag that `run_modules_post` sets does not ask for callbacks. -/
theorem specialize_post (flags : BitVec 32) (m : ZygiskModule) (app server : Callback) :
    m.specialize (flags ||| postSpecialize) app server = m.specialize flags app server := by
  simp only [ZygiskModule.specialize, post_and flags (by decide : postSpecialize &&& appSpecialize = 0),
    post_and flags (by decide : postSpecialize &&& serverForkAndSpecialize = 0)]

theorem runModulesPost_visits
    (h : ∀ m ∈ ms, NoCallbacks flags ∨ m.valid = true) :
    runModulesPost flags ms =
      ⟨ms.flatMap (visit flags .postAppSpecialize .postServerSpecialize), false⟩ := by
  induction ms with
  | nil => rfl
  | cons m ms ih =>
    rw [runModulesPost, specialize_post, specialize_visit (h m mem_cons_self),
      ih fun m' hm' => h m' (mem_cons_of_mem _ hm')]
    rfl

theorem read_mem_runModulesPre (hsome : ¬ NoCallbacks flags) (h : (runModulesPre flags ms).crashed = false)
    (hm : m ∈ ms) : .read m.onLoad.id ∈ (runModulesPre flags ms).trace := by
  induction ms with
  | nil => cases hm
  | cons m' ms ih =>
    rw [runModulesPre] at h ⊢
    obtain ⟨-, hrest, htrace⟩ := andThen_crashed h
    rw [htrace, mem_append]
    rcases mem_cons.mp hm with rfl | hm
    · exact .inl (mem_cons_of_mem _ (read_mem_specialize hsome _ _ _))
    · exact .inr (ih hrest hm)

/-! ## Modules of a list of libraries -/

theorem onLoad_id (m : ZygiskModule) : m.onLoad.id = m.id := by
  have hact : ∀ (actions : List EntryAction) (m' : ZygiskModule),
      (actions.foldl ZygiskModule.act m').id = m'.id := by
    intro actions
    induction actions with
    | nil => intro m'; rfl
    | cons action actions ih =>
      intro m'
      rw [foldl_cons, ih]
      cases action with
      | fill table abi => rfl
      | register api table =>
        simp only [ZygiskModule.act, ZygiskModule.registerModuleImpl]
        repeat' split
        all_goals rfl
  exact hact m.entry m

theorem openModules_ids (i : Nat) (libs : List Library) :
    (∀ m ∈ openModules i libs, i ≤ m.id) ∧ (openModules i libs).Pairwise fun m m' => m.id < m'.id := by
  induction libs generalizing i with
  | nil => exact ⟨nofun, .nil⟩
  | cons lib libs ih =>
    obtain ⟨hids, hsorted⟩ := ih (i + 1)
    rw [openModules]
    split
    · exact ⟨fun m hm => Nat.le_of_succ_le (hids m hm), hsorted⟩
    · refine ⟨fun m hm => ?_, .cons hids hsorted⟩
      rcases mem_cons.mp hm with rfl | hm
      · exact le_rfl
      · exact Nat.le_of_succ_le (hids m hm)

theorem loadedModules_inj {libs : List Library} {m' : ZygiskModule} (hm : m ∈ loadedModules libs)
    (hm' : m' ∈ loadedModules libs) (h : m.id = m'.id) : m = m' := by
  obtain ⟨n, hn, rfl⟩ := mem_map.mp hm
  obtain ⟨n', hn', rfl⟩ := mem_map.mp hm'
  rw [onLoad_id, onLoad_id] at h
  have hnodup : ((openModules 0 libs).map ZygiskModule.id).Nodup :=
    pairwise_map.mpr ((openModules_ids 0 libs).2.imp Nat.ne_of_lt)
  rw [inj_on_of_nodup_map hnodup hn hn' h]

theorem owed_event {app server : Callback} {e : ModuleEvent}
    (he : e ∈ m.owed flags app server) : e.touches = some m.id ∧ e.isCall = true := by
  unfold ZygiskModule.owed at he
  split at he
  · cases he
  · split at he
    · rw [mem_singleton.mp he]
      exact ⟨rfl, rfl⟩
    · split at he
      · rw [mem_singleton.mp he]
        exact ⟨rfl, rfl⟩
      · cases he

theorem touches_visit {app server : Callback} {e : ModuleEvent}
    (he : e ∈ visit flags app server m) : ¬ NoCallbacks flags ∧ e.touches = some m.id := by
  unfold visit at he
  split at he
  · cases he
  · next hsome =>
    rcases mem_cons.mp he with rfl | he
    · exact ⟨hsome, rfl⟩
    · exact ⟨hsome, (owed_event he).1⟩

theorem owed_of_noCallbacks (h : NoCallbacks flags) (m : ZygiskModule)
    (app server : Callback) : m.owed flags app server = [] := by
  unfold ZygiskModule.owed
  split
  · rfl
  · simp only [h.1, h.2, ne_eq, not_true, if_false]

theorem filter_visit (flags : BitVec 32) (app server : Callback) (m : ZygiskModule) :
    (visit flags app server m).filter ModuleEvent.isCall = m.owed flags app server := by
  unfold visit
  split
  · next hnone => rw [owed_of_noCallbacks hnone]; rfl
  · rw [filter_cons_of_neg (by nofun), filter_eq_self]
    exact fun e he => (owed_event he).2

theorem owedCalls_eq
    (h : ∀ m ∈ ms, NoCallbacks flags ∨ m.valid = true) (app server : Callback) :
    owedCalls flags app server ms = ms.flatMap fun m => m.owed flags app server := by
  unfold owedCalls
  induction ms with
  | nil => rfl
  | cons m ms ih =>
    have hrest := ih fun m' hm' => h m' (mem_cons_of_mem _ hm')
    rw [filter_cons, flatMap_cons, ← hrest]
    split
    · rfl
    · next hinvalid =>
      rw [owed_of_noCallbacks ((h m mem_cons_self).resolve_right hinvalid), nil_append]

end ZygiskModulesLemmas

open ZygiskModulesLemmas

/-- Only valid modules are touched exactly when no callbacks are asked for or every
module that was opened is valid. -/
theorem callbacks_only_valid_iff (flags : BitVec 32) (libs : List Library) :
    CallbacksOnlyValid flags libs ↔
      NoCallbacks flags ∨ ∀ m ∈ loadedModules libs, m.valid = true := by
  constructor
  · intro h
    by_cases hnone : NoCallbacks flags
    · exact .inl hnone
    · refine .inr fun m hm => ?_
      obtain ⟨n, hn, rfl⟩ := mem_map.mp hm
      have hskipped := h.skipped
      rw [runModules] at hskipped
      obtain ⟨hpre, -, htrace⟩ := andThen_crashed hskipped
      have hread : .read n.onLoad.id ∈ (runModules flags libs).trace := by
        rw [runModules, htrace]
        exact mem_append_left _ (read_mem_runModulesPre hnone hpre hn)
      obtain ⟨m', hm', hid, hvalid⟩ := h.touched _ hread _ rfl
      rwa [← loadedModules_inj hm' hm hid]
  · intro h
    have hloaded : ∀ m ∈ loadedModules libs, NoCallbacks flags ∨ m.valid = true := by
      intro m hm
      exact h.imp_right fun hvalid => hvalid m hm
    have hrun : runModules flags libs =
        ⟨((openModules 0 libs).flatMap fun m =>
            .load m.id :: visit flags .preAppSpecialize .preServerSpecialize m.onLoad) ++
          (loadedModules libs).flatMap (visit flags .postAppSpecialize .postServerSpecialize), false⟩ := by
      rw [runModules, runModulesPre_visits fun m hm => hloaded _ (mem_map_of_mem hm),
        ← loadedModules, runModulesPost_visits hloaded]
      rfl
    refine ⟨fun e he id hid => ?_, by rw [hrun], ?_⟩
    · obtain ⟨app, server, m, hm, hvisit⟩ : ∃ app server m, m ∈ loadedModules libs ∧
          e ∈ visit flags app server m := by
        rw [hrun, mem_append, mem_flatMap, mem_flatMap] at he
        rcases he with ⟨m, hm, he⟩ | ⟨m, hm, he⟩
        · rcases mem_cons.mp he with rfl | he
          · cases hid
          · exact ⟨_, _, m.onLoad, mem_map_of_mem hm, he⟩
        · exact ⟨_, _, m, hm, he⟩
      obtain ⟨hsome, htouches⟩ := touches_visit hvisit
      rw [htouches, Option.some.injEq] at hid
      exact ⟨m, hm, hid, (hloaded m hm).resolve_left hsome⟩
    · rw [hrun, filter_append, owedCalls_eq hloaded, owedCalls_eq hloaded]
      have hload : ∀ (id : Nat) (l : List ModuleEvent),
          (ModuleEvent.load id :: l).filter ModuleEvent.isCall = l.filter ModuleEvent.isCall :=
        fun _ _ => rfl
      simp only [filter_flatMap, hload, filter_visit, loadedModules, flatMap_map]

/-- A proper table. -/
def properAbi : ModuleAbi := ⟨5, 1, 1, 1, 1, 1⟩

/-- A library that registers its first table. -/
def registering (abi : ModuleAbi) : Library := ⟨some [.register true (some 0)], fun _ => abi⟩

/-- A library whose entry does not register anything. -/
def silentLibrary : Library := ⟨some [], fun _ => properAbi⟩

/-- A library that never registers ends an app's run at once, so that the one after it
gets no callback; in system_server the callbacks of a table with version 0 are called. -/
theorem callbacks_reach_invalid :
    runModules appSpecialize [silentLibrary, registering properAbi] = ⟨[.load 0, .read 0], true⟩ ∧
      ¬ CallbacksOnlyValid appSpecialize [silentLibrary, registering properAbi] ∧
      runModules serverForkAndSpecialize [registering { properAbi with apiVersion := 0 }] =
        ⟨[.load 0, .read 0, .call 0 .preServerSpecialize 1 .server, .read 0,
          .call 0 .postServerSpecialize 1 .server], false⟩ ∧
      ¬ CallbacksOnlyValid serverForkAndSpecialize [registering { properAbi with apiVersion := 0 }] := by
  refine ⟨by decide, fun h => absurd h.skipped (by decide), by decide, fun h => ?_⟩
  obtain ⟨m, hm, -, hvalid⟩ := h.touched (.read 0) (by decide) 0 rfl
  rw [mem_singleton.mp hm] at hvalid
  cases hvalid

end NyaZygisk
