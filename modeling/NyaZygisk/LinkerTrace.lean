import Mathlib.Data.List.Infix
import Mathlib.Data.List.Perm.Subperm
import Mathlib.Data.List.Sort
import Mathlib.Data.List.Count
import Mathlib.Order.Basic

/-!
# What loading leaves in the system linker

Modules that the system linker loads from a memfd are in its list of libraries and in its counters.
`run_modules_post` of `module.cpp` and `loadAllModules` of `zn_loader.cpp` take them out again with
`clean_linker_trace`: the records by their name, and from the counters the number of modules that
they know of.
-/

namespace NyaZygisk.LinkerTrace

open List

/-! ## The system linker -/

structure Record where
  address : Nat
  path : List Char
  size : Nat
  size_pos : 0 < size
deriving DecidableEq

structure LinkerState where
  solist : List Record
  loadCounter : Nat
  unloadCounter : Nat

def LinkerState.load (r : Record) (st : LinkerState) : LinkerState :=
  { st with solist := st.solist ++ [r], loadCounter := st.loadCounter + 1 }

/-- `dlclose` and `soinfo_unload`. -/
def LinkerState.unload (r : Record) (st : LinkerState) : LinkerState :=
  { st with solist := st.solist.erase r, unloadCounter := st.unloadCounter + 1 }

/-- `soinfo_free`. -/
def LinkerState.free (r : Record) (st : LinkerState) : LinkerState := { st with solist := st.solist.erase r }

/-! ## `solist.cpp` and `clean_linker_trace` -/

/-- `strstr`. -/
def contains (needle text : List Char) : Bool := text.tails.any needle.isPrefixOf

/-- Whether the list is found, and the two counters. -/
structure Symbols where
  initialized : Bool
  counters : Bool
deriving DecidableEq

/-- One target of `dropSoPath`. -/
def LinkerState.drop (unload : Bool) (st : LinkerState) (target : Record) : LinkerState :=
  if target ∈ st.solist then if unload then st.unload target else st.free target else st

def dropSoPath (symbols : Symbols) (targetPath : List Char) (unload : Bool) (st : LinkerState) :
    LinkerState :=
  if symbols.initialized then
    let targets := st.solist.filter fun r => contains targetPath r.path && 0 < r.size
    (targets.insertionSort fun a b => b.address ≤ a.address).foldl (LinkerState.drop unload) st
  else st

def resetCounters (symbols : Symbols) (load unload : Nat) (st : LinkerState) : LinkerState :=
  if symbols.initialized && symbols.counters then
    { st with
      loadCounter := if load ≤ st.loadCounter then st.loadCounter - load else st.loadCounter
      unloadCounter := if unload ≤ st.unloadCounter then st.unloadCounter - unload else st.unloadCounter }
  else st

def cleanLinkerTrace (symbols : Symbols) (path : List Char) (loadedModules unloadedModules : Nat)
    (unloadSoinfo : Bool) (st : LinkerState) : LinkerState :=
  let st := dropSoPath symbols path unloadSoinfo st
  if unloadSoinfo then resetCounters symbols loadedModules loadedModules st
  else resetCounters symbols loadedModules unloadedModules st

/-! ## Loading -/

inductive Loading
  | failed
  | custom
  | system (address size : Nat) (size_pos : 0 < size)

def Loading.isSystem : Loading → Bool
  | .system .. => true
  | _ => false

def memfdPath (name : List Char) : List Char := "/memfd:".toList ++ name ++ " (deleted)".toList

/-- A handle: the record, or `none` for a module of the custom linker. -/
abbrev Handle : Type := Option Record

def dlopen (name : List Char) (st : LinkerState) : Loading → Option Handle × LinkerState
  | .failed => (none, st)
  | .custom => (some none, st)
  | .system address size size_pos =>
    let r : Record := ⟨address, memfdPath name, size, size_pos⟩
    (some (some r), st.load r)

def dlclose (st : LinkerState) : Handle → LinkerState
  | none => st
  | some r => st.unload r

/-! ## Zygisk modules -/

/-- What becomes of a module: whether it has an entry, asks to be unloaded, and can be. -/
structure ModuleOutcome where
  loading : Loading
  hasEntry : Bool
  unload : Bool
  closes : Bool

structure ZygiskModule where
  handle : Handle
  unload : Bool
  closes : Bool

def ZygiskModule.loadedBySystem (m : ZygiskModule) : Bool := m.handle.isSome

def moduleName : List Char := "zygisk-module".toList

def runModulesPre : List ModuleOutcome → LinkerState → List ZygiskModule × LinkerState
  | [], st => ([], st)
  | m :: ms, st =>
    match dlopen moduleName st m.loading with
    | (none, st) => runModulesPre ms st
    | (some handle, st) =>
      let rest := runModulesPre ms st
      if m.hasEntry then (⟨handle, m.unload, m.closes⟩ :: rest.1, rest.2) else rest

def ZygiskModule.tryUnload (m : ZygiskModule) (st : LinkerState) : Bool × LinkerState :=
  if m.unload && m.closes then (true, dlclose st m.handle) else (false, st)

/-- The loop that unloads: the number of system modules among them, and the state. -/
def unloadModules : List ZygiskModule → Nat × LinkerState → Nat × LinkerState
  | [], acc => acc
  | m :: ms, (systemUnloaded, st) =>
    let r := m.tryUnload st
    unloadModules ms (if r.1 && m.loadedBySystem then systemUnloaded + 1 else systemUnloaded, r.2)

/-- `hooked` tells whether there is a `HookContext`. -/
def runModulesPost (symbols : Symbols) (hooked : Bool) (modules : List ZygiskModule) (st : LinkerState) :
    LinkerState :=
  let systemLoaded := modules.countP ZygiskModule.loadedBySystem
  let r := unloadModules modules.reverse (0, st)
  if modules ≠ [] ∧ hooked then
    if 0 < systemLoaded then cleanLinkerTrace symbols moduleName systemLoaded r.1 true r.2 else r.2
  else r.2

def runModules (symbols : Symbols) (hooked : Bool) (ms : List ModuleOutcome) (st : LinkerState) :
    LinkerState :=
  let r := runModulesPre ms st
  runModulesPost symbols hooked r.1 r.2

/-! ## ZN modules -/

structure ZnOutcome where
  libFd : Int
  loading : Loading
  exportsModule : Bool
  apiSupported : Bool
  /-- It closes its own library when it is called. -/
  closesItself : Bool

def znName : List Char := "zn-module".toList

def loadEntry (entry : ZnOutcome) (st : LinkerState) : Bool × LinkerState :=
  match dlopen znName st entry.loading with
  | (none, st) => (false, st)
  | (some handle, st) =>
    if !entry.exportsModule then (false, st)
    else if !entry.apiSupported then (false, st)
    else (true, if entry.closesItself then dlclose st handle else st)

/-- The loop over the plan: the number of system modules that were loaded, and the state. -/
def loadPlan : List ZnOutcome → Nat × LinkerState → Nat × LinkerState
  | [], acc => acc
  | entry :: plan, (systemLoaded, st) =>
    if entry.libFd < 0 then loadPlan plan (systemLoaded, st)
    else
      let r := loadEntry entry st
      loadPlan plan (if r.1 && entry.loading.isSystem then systemLoaded + 1 else systemLoaded, r.2)

def loadAllModules (symbols : Symbols) (anonymousMemory : Bool) (plan : List ZnOutcome) (st : LinkerState) :
    LinkerState :=
  let r := loadPlan plan (0, st)
  if 0 < r.1 ∧ anonymousMemory then cleanLinkerTrace symbols znName r.1 r.1 true r.2 else r.2

/-! ## What is to hold -/

def Record.named (name : List Char) (r : Record) : Bool := contains name r.path

/-- The counters are as before, and no record of the name is left. -/
structure Baseline (name : List Char) (before after : LinkerState) : Prop where
  loads : after.loadCounter = before.loadCounter
  unloads : after.unloadCounter = before.unloadCounter
  gone : ∀ r ∈ after.solist, r.named name = false

/-- Every module that the system linker loads has its entry. -/
def EntriesFound (ms : List ModuleOutcome) : Prop := ∀ m ∈ ms, m.loading.isSystem = true → m.hasEntry = true

/-- Every entry that the system linker loads is a module that is supported. -/
def PlanSupported (plan : List ZnOutcome) : Prop :=
  ∀ entry ∈ plan, ¬ entry.libFd < 0 → entry.loading.isSystem = true →
    entry.exportsModule = true ∧ entry.apiSupported = true

/-- There is no record of the name to begin with. -/
def NoneNamed (name : List Char) (st : LinkerState) : Prop := ∀ r ∈ st.solist, r.named name = false

def LinkerState.count (name : List Char) (st : LinkerState) : Nat := st.solist.countP (Record.named name)

/-- What `loaded` loads under the name and some unloads of these lead to. -/
structure Accounted (name : List Char) (before after : LinkerState) (loaded : Nat) : Prop where
  loads : after.loadCounter = before.loadCounter + loaded
  unloads : after.unloadCounter + after.count name = before.unloadCounter + before.count name + loaded
  mono : before.unloadCounter ≤ after.unloadCounter

namespace TraceLemmas

variable {name : List Char} {st st' : LinkerState} {loaded : Nat}

theorem contains_append (start needle rest : List Char) :
    contains needle (start ++ needle ++ rest) = true := by
  refine any_eq_true.mpr ⟨needle ++ rest, ?_, ?_⟩
  · rw [mem_tails, append_assoc]
    exact suffix_append _ _
  · exact isPrefixOf_iff_prefix.mpr (prefix_append _ _)

theorem noneNamed_iff : NoneNamed name st ↔ st.count name = 0 := by
  rw [LinkerState.count, countP_eq_zero]
  exact forall₂_congr fun r _ => by rw [Bool.not_eq_true]

theorem accounted_refl (name : List Char) (st : LinkerState) :
    Accounted name st st 0 := ⟨rfl, rfl, Nat.le_refl _⟩

theorem accounted_load (h : Accounted name st st' loaded) {r : Record} (hr : r.named name = true) :
    Accounted name st (st'.load r) (loaded + 1) := by
  refine ⟨congrArg (· + 1) h.loads, ?_, h.mono⟩
  have hcount : (st'.load r).count name = st'.count name + 1 := by
    rw [LinkerState.count, LinkerState.load, countP_append, countP_singleton, if_pos hr,
      LinkerState.count]
  rw [hcount, ← Nat.add_assoc, ← Nat.add_assoc]
  exact congrArg (· + 1) h.unloads

theorem count_unload {r : Record} (hmem : r ∈ st.solist) (hr : r.named name = true) :
    (st.unload r).count name + 1 = st.count name := by
  have hpos : 0 < st.count name := countP_pos_iff.mpr ⟨r, hmem, hr⟩
  rw [LinkerState.count, LinkerState.unload, countP_erase, if_pos ⟨hmem, hr⟩]
  exact Nat.sub_add_cancel hpos

theorem accounted_unload (h : Accounted name st st' loaded) {r : Record} (hmem : r ∈ st'.solist)
    (hr : r.named name = true) : Accounted name st (st'.unload r) loaded := by
  refine ⟨h.loads, ?_, Nat.le_succ_of_le h.mono⟩
  rw [← h.unloads, ← count_unload hmem hr, LinkerState.unload, Nat.add_assoc, Nat.add_comm 1]

/-! ### Dropping -/

/-- Targets that are in the list are unloaded, each one once. -/
theorem foldl_drop {targets : List Record} (hsub : targets.Subperm st.solist)
    (hnamed : ∀ r ∈ targets, r.named name = true) :
    (targets.foldl (LinkerState.drop true) st).loadCounter = st.loadCounter ∧
    (targets.foldl (LinkerState.drop true) st).unloadCounter = st.unloadCounter + targets.length ∧
    (targets.foldl (LinkerState.drop true) st).count name + targets.length = st.count name := by
  induction targets generalizing st with
  | nil => exact ⟨rfl, rfl, rfl⟩
  | cons r targets ih =>
    have hmem : r ∈ st.solist := hsub.subset mem_cons_self
    have hdrop : LinkerState.drop true st r = st.unload r := by
      rw [LinkerState.drop, if_pos hmem, if_pos rfl]
    have hrest : targets.Subperm (st.unload r).solist := by
      have herase := hsub.erase r
      rwa [erase_cons_head] at herase
    obtain ⟨hload, hunload, hcount⟩ := ih hrest fun r' h => hnamed r' (mem_cons_of_mem _ h)
    have hone := count_unload hmem (hnamed r mem_cons_self)
    rw [foldl_cons, hdrop, length_cons]
    refine ⟨hload, hunload.trans ?_, ?_⟩
    · rw [LinkerState.unload, Nat.add_assoc, Nat.add_comm 1]
    · rw [← Nat.add_assoc, hcount, hone]

variable {symbols : Symbols}

/-- `dropSoPath` unloads the records of the name. -/
theorem dropSoPath_spec (name : List Char) (st : LinkerState) (hinit : symbols.initialized = true) :
    (dropSoPath symbols name true st).loadCounter = st.loadCounter ∧
    (dropSoPath symbols name true st).unloadCounter = st.unloadCounter + st.count name ∧
    (dropSoPath symbols name true st).count name = 0 := by
  have htargets : (st.solist.filter fun r => contains name r.path && 0 < r.size) =
      st.solist.filter (Record.named name) := by
    refine filter_congr fun r _ => ?_
    rw [decide_eq_true r.size_pos, Bool.and_true, Record.named]
  have hperm : ((st.solist.filter (Record.named name)).insertionSort fun a b => b.address ≤ a.address).Perm
      (st.solist.filter (Record.named name)) := perm_insertionSort _ _
  have hlen : ((st.solist.filter (Record.named name)).insertionSort fun a b => b.address ≤ a.address).length =
      st.count name := by
    rw [hperm.length_eq, LinkerState.count, countP_eq_length_filter]
  have hspec := foldl_drop (hperm.subperm.trans (filter_sublist.subperm)) fun r hr =>
    (mem_filter.mp (hperm.subset hr)).2
  rw [hlen] at hspec
  rw [dropSoPath, if_pos hinit, htargets]
  exact ⟨hspec.1, hspec.2.1, Nat.add_eq_right.mp hspec.2.2⟩

/-! ### Cleaning -/

/-- With the list and the counters found, cleaning subtracts the number and drops the records. -/
theorem cleanLinkerTrace_spec {n : Nat} (unloaded : Nat) (hinit : symbols.initialized = true)
    (hcounters : symbols.counters = true) (hload : n ≤ st.loadCounter)
    (hunload : n ≤ st.unloadCounter + st.count name) :
    (cleanLinkerTrace symbols name n unloaded true st).loadCounter = st.loadCounter - n ∧
    (cleanLinkerTrace symbols name n unloaded true st).unloadCounter = st.unloadCounter + st.count name - n ∧
    (cleanLinkerTrace symbols name n unloaded true st).count name = 0 := by
  obtain ⟨hl, hu, hgone⟩ := dropSoPath_spec name st hinit
  have hboth : (symbols.initialized && symbols.counters) = true := by rw [hinit, hcounters]; rfl
  rw [cleanLinkerTrace, if_pos rfl, resetCounters, if_pos hboth]
  refine ⟨?_, ?_, hgone⟩
  · rw [← hl] at hload ⊢
    exact if_pos hload
  · rw [← hu] at hunload ⊢
    exact if_pos hunload

/-- Without them, it leaves the number of loads as it is. -/
theorem loadCounter_cleanLinkerTrace {n unloaded : Nat}
    (hsymbols : ¬ (symbols.initialized = true ∧ symbols.counters = true)) :
    (cleanLinkerTrace symbols name n unloaded true st).loadCounter = st.loadCounter := by
  have hskip : ¬ (symbols.initialized && symbols.counters) = true := by rwa [Bool.and_eq_true]
  rw [cleanLinkerTrace, if_pos rfl, resetCounters, if_neg hskip]
  by_cases hinit : symbols.initialized = true
  · exact (dropSoPath_spec _ _ hinit).1
  · rw [dropSoPath, if_neg hinit]

theorem baseline_of_count {before after : LinkerState} :
    Baseline name before after ↔ after.loadCounter = before.loadCounter ∧
      after.unloadCounter = before.unloadCounter ∧ after.count name = 0 :=
  ⟨fun h => ⟨h.loads, h.unloads, noneNamed_iff.mp h.gone⟩,
    fun h => ⟨h.1, h.2.1, noneNamed_iff.mpr h.2.2⟩⟩

/-- After `loaded` loads, cleaning that is told of `n` of them leads back exactly if these are all, no
record had the name before, and there is nothing to clean or it is really done. -/
theorem cleaned_iff {n unloaded : Nat} {cleans : Prop} [Decidable cleans]
    (h : Accounted name st st' loaded) (hn : n ≤ loaded) :
    Baseline name st (if 0 < n ∧ cleans then cleanLinkerTrace symbols name n unloaded true st' else st') ↔
      n = loaded ∧ NoneNamed name st ∧
        (0 < loaded → cleans ∧ symbols.initialized = true ∧ symbols.counters = true) := by
  have hloads := h.loads
  have hunloads := h.unloads
  have hmono := h.mono
  rw [noneNamed_iff, baseline_of_count]
  by_cases hcleans : 0 < n ∧ cleans
  · rw [if_pos hcleans]
    by_cases hsymbols : symbols.initialized = true ∧ symbols.counters = true
    · obtain ⟨hl, hu, hgone⟩ := cleanLinkerTrace_spec unloaded hsymbols.1 hsymbols.2
        (show n ≤ st'.loadCounter by omega) (show n ≤ st'.unloadCounter + st'.count name by omega)
      rw [hl, hu, hgone]
      constructor
      · rintro ⟨hload, hunload, -⟩
        exact ⟨by omega, by omega, fun _ => ⟨hcleans.2, hsymbols⟩⟩
      · rintro ⟨hall, hnone, -⟩
        exact ⟨by omega, by omega, rfl⟩
    · rw [loadCounter_cleanLinkerTrace hsymbols]
      constructor
      · rintro ⟨hload, -⟩
        omega
      · rintro ⟨-, -, hdone⟩
        exact absurd (hdone (by omega)).2 hsymbols
  · rw [if_neg hcleans]
    constructor
    · rintro ⟨hload, hunload, hgone⟩
      exact ⟨by omega, by omega, fun hpos => by omega⟩
    · rintro ⟨hall, hnone, hdone⟩
      -- nothing was loaded: it would have been cleaned
      have hzero : loaded = 0 := by
        by_contra hpos
        exact hcleans ⟨by omega, (hdone (by omega)).1⟩
      exact ⟨by omega, by omega, by omega⟩

/-! ### Loading and closing -/

theorem accounted_dlopen (h : Accounted name st st' loaded) (l : Loading) :
    Accounted name st (dlopen name st' l).2 (loaded + if l.isSystem then 1 else 0) := by
  cases l with
  | failed | custom => exact h
  | system address size size_pos => exact accounted_load h (contains_append _ _ _)

theorem accounted_dlclose (h : Accounted name st st' loaded) {handle : Handle}
    (hopen : ∀ r ∈ handle, r ∈ st'.solist ∧ r.named name = true) :
    Accounted name st (dlclose st' handle) loaded := by
  cases handle with
  | none => exact h
  | some r => exact accounted_unload h (hopen r rfl).1 (hopen r rfl).2

theorem mem_of_dlopen {l : Loading} {handle : Handle} (h : (dlopen name st l).1 = some handle) :
    ∀ r ∈ handle, r ∈ (dlopen name st l).2.solist ∧ r.named name = true := by
  cases l with
  | failed => cases h
  | custom =>
    cases h
    exact fun r hr => nomatch hr
  | system address size size_pos =>
    cases h
    rintro r ⟨⟩
    exact ⟨mem_append_right _ mem_cons_self, contains_append _ _ _⟩

theorem isSome_of_dlopen {l : Loading} {handle : Handle} (h : (dlopen name st l).1 = some handle) :
    handle.isSome = l.isSystem := by
  cases l <;> cases h <;> rfl

theorem isSystem_of_dlopen {l : Loading} (h : (dlopen name st l).1 = none) : l.isSystem = false := by
  cases l <;> first | rfl | cases h

theorem solist_dlopen (name : List Char) (st : LinkerState) (l : Loading) :
    ∃ added, (dlopen name st l).2.solist = st.solist ++ added ∧
    ∀ handle, (dlopen name st l).1 = some handle → handle.toList = added := by
  cases l with
  | failed => exact ⟨[], (append_nil _).symm, fun _ h => nomatch h⟩
  | custom => exact ⟨[], (append_nil _).symm, fun _ h => by cases h; rfl⟩
  | system address size size_pos => exact ⟨_, rfl, fun _ h => by cases h; rfl⟩

/-- Some of the elements that `p` counts are those that `q` counts too. -/
theorem countP_and_eq_iff {α : Type} (p q : α → Bool) (l : List α) :
    l.countP (fun a => p a && q a) = l.countP p ↔ ∀ a ∈ l, p a = true → q a = true := by
  have hfilter : l.countP (fun a => p a && q a) = (l.filter p).countP q := by
    rw [countP_filter]
    exact countP_congr fun a _ => by rw [Bool.and_comm]
  rw [hfilter, countP_eq_length_filter (p := p), countP_eq_length]
  exact ⟨fun h a ha hp => h a (mem_filter.mpr ⟨ha, hp⟩),
    fun h a ha => h a (mem_filter.mp ha).1 (mem_filter.mp ha).2⟩

/-! ### Zygisk modules -/

def records (modules : List ZygiskModule) : List Record := modules.flatMap fun m => m.handle.toList

/-- What is loaded: the modules with an entry hold records that were added. -/
theorem runModulesPre_spec (ms : List ModuleOutcome)
    (h : Accounted moduleName st st' loaded) :
    Accounted moduleName st (runModulesPre ms st').2 (loaded + ms.countP fun m => m.loading.isSystem) ∧
    (∃ added, (runModulesPre ms st').2.solist = st'.solist ++ added ∧
      (records (runModulesPre ms st').1).Sublist added) ∧
    (∀ r ∈ records (runModulesPre ms st').1, r.named moduleName = true) ∧
    (runModulesPre ms st').1.countP ZygiskModule.loadedBySystem =
      ms.countP fun m => m.loading.isSystem && m.hasEntry := by
  induction ms generalizing st' loaded with
  | nil =>
    refine ⟨h, ⟨[], (append_nil _).symm, List.Sublist.slnil⟩, ?_, rfl⟩
    intro r hr
    cases hr
  | cons m ms ih =>
    have hopened := accounted_dlopen h m.loading
    obtain ⟨hacc, ⟨added, hsolist, hsub⟩, hnamed, hcount⟩ := ih hopened
    obtain ⟨first, hfirst, hhandle⟩ := solist_dlopen moduleName st' m.loading
    have hlist : (runModulesPre ms (dlopen moduleName st' m.loading).2).2.solist =
        st'.solist ++ (first ++ added) := by rw [hsolist, hfirst, append_assoc]
    rw [countP_cons, countP_cons, Nat.add_comm (List.countP _ ms), ← Nat.add_assoc]
    rcases hd : dlopen moduleName st' m.loading with ⟨_ | handle, st''⟩
    · rw [runModulesPre, hd]
      rw [hd] at hacc hlist hsub hnamed hcount
      have hnot : (m.loading.isSystem && m.hasEntry) = false := by
        rw [isSystem_of_dlopen (congrArg Prod.fst hd), Bool.false_and]
      rw [hnot]
      exact ⟨hacc, ⟨_, hlist, hsub.trans (sublist_append_right _ _)⟩, hnamed, hcount⟩
    · have hopen := mem_of_dlopen (congrArg Prod.fst hd)
      have hsome := isSome_of_dlopen (congrArg Prod.fst hd)
      have hto := hhandle handle (congrArg Prod.fst hd)
      rw [runModulesPre, hd]
      rw [hd] at hacc hlist hsub hnamed hcount
      by_cases hentry : m.hasEntry = true
      · simp only [if_pos hentry]
        refine ⟨hacc, ⟨_, hlist, ?_⟩, ?_, ?_⟩
        · rw [records, flatMap_cons, hto]
          exact List.Sublist.append_left hsub _
        · intro r hr
          rw [records, flatMap_cons, mem_append, Option.mem_toList] at hr
          exact hr.elim (fun hr => (hopen r hr).2) (hnamed r)
        · rw [countP_cons, hcount, hentry, Bool.and_true, ← hsome]
          rfl
      · simp only [if_neg hentry]
        refine ⟨hacc, ⟨_, hlist, hsub.trans (sublist_append_right _ _)⟩, hnamed, ?_⟩
        rw [hcount, Bool.eq_false_iff.mpr hentry, Bool.and_false]
        rfl

theorem unloadModules_accounted (modules : List ZygiskModule) {k : Nat}
    (hheld : (records modules).Subperm st'.solist)
    (hnamed : ∀ r ∈ records modules, r.named moduleName = true)
    (h : Accounted moduleName st st' loaded) :
    Accounted moduleName st (unloadModules modules (k, st')).2 loaded := by
  induction modules generalizing k st' with
  | nil => exact h
  | cons m modules ih =>
    rw [records, flatMap_cons] at hheld hnamed
    have hrest : ∀ r ∈ records modules, r.named moduleName = true := fun r hr =>
      hnamed r (mem_append_right _ hr)
    rw [unloadModules, ZygiskModule.tryUnload]
    by_cases hcloses : (m.unload && m.closes) = true
    · rw [if_pos hcloses]
      refine ih ?_ hrest (accounted_dlclose h fun r hr => ?_)
      · cases hm : m.handle with
        | none =>
          rw [hm] at hheld
          exact hheld
        | some r =>
          rw [hm] at hheld
          have herase := hheld.erase r
          rwa [Option.toList_some, cons_append, erase_cons_head] at herase
      · have hr : r ∈ m.handle.toList ++ records modules := mem_append_left _ (Option.mem_toList.mpr hr)
        exact ⟨hheld.subset hr, hnamed r hr⟩
    · rw [if_neg hcloses]
      exact ih ((sublist_append_right _ _).subperm.trans hheld) hrest h

theorem runModules_iff (symbols : Symbols) (hooked : Bool) (ms : List ModuleOutcome) (st : LinkerState) :
    Baseline moduleName st (runModules symbols hooked ms st) ↔
      EntriesFound ms ∧ NoneNamed moduleName st ∧
        (0 < (ms.countP fun m => m.loading.isSystem) →
          hooked = true ∧ symbols.initialized = true ∧ symbols.counters = true) := by
  obtain ⟨hacc, ⟨added, hsolist, hsub⟩, hnamed, hcount⟩ :=
    runModulesPre_spec ms (accounted_refl moduleName st)
  rw [Nat.zero_add] at hacc
  have hperm : (records (runModulesPre ms st).1.reverse).Perm (records (runModulesPre ms st).1) :=
    (reverse_perm _).flatMap_right _
  have hheld : (records (runModulesPre ms st).1.reverse).Subperm (runModulesPre ms st).2.solist := by
    rw [hsolist]
    exact hperm.subperm.trans (hsub.trans (sublist_append_right _ _)).subperm
  have hunloaded := unloadModules_accounted (k := 0) _ hheld (fun r hr => hnamed r (hperm.subset hr)) hacc
  have hle : (ms.countP fun m => m.loading.isSystem && m.hasEntry) ≤ ms.countP fun m => m.loading.isSystem :=
    countP_mono_left fun m _ h => (Bool.and_eq_true _ _ ▸ h).1
  have hguard : runModules symbols hooked ms st =
      if 0 < (ms.countP fun m => m.loading.isSystem && m.hasEntry) ∧ hooked = true then
        cleanLinkerTrace symbols moduleName (ms.countP fun m => m.loading.isSystem && m.hasEntry)
          (unloadModules (runModulesPre ms st).1.reverse (0, (runModulesPre ms st).2)).1 true
          (unloadModules (runModulesPre ms st).1.reverse (0, (runModulesPre ms st).2)).2
      else (unloadModules (runModulesPre ms st).1.reverse (0, (runModulesPre ms st).2)).2 := by
    rw [runModules, runModulesPost, hcount]
    by_cases hpos : 0 < ms.countP fun m => m.loading.isSystem && m.hasEntry
    · have hne : (runModulesPre ms st).1 ≠ [] := by
        intro hnil
        rw [← hcount, hnil] at hpos
        exact Nat.lt_irrefl 0 hpos
      simp only [hne, hpos, ne_eq, not_false_eq_true, true_and, if_true]
    · simp only [hpos, false_and, if_false, ite_self]
  rw [hguard, cleaned_iff hunloaded hle, countP_and_eq_iff]
  rfl

/-! ### ZN modules -/

/-- The entries that the system linker loads. -/
def ZnOutcome.bySystem (entry : ZnOutcome) : Bool := !decide (entry.libFd < 0) && entry.loading.isSystem

/-- The module is one that can be called. -/
def ZnOutcome.supported (entry : ZnOutcome) : Bool := entry.exportsModule && entry.apiSupported

theorem loadEntry_spec (entry : ZnOutcome) (h : Accounted znName st st' loaded) :
    Accounted znName st (loadEntry entry st').2 (loaded + if entry.loading.isSystem then 1 else 0) ∧
    ((loadEntry entry st').1 && entry.loading.isSystem) =
      (entry.loading.isSystem && ZnOutcome.supported entry) := by
  have hopened := accounted_dlopen h entry.loading
  rw [loadEntry, ZnOutcome.supported]
  rcases hd : dlopen znName st' entry.loading with ⟨_ | handle, st''⟩
  · rw [hd] at hopened
    refine ⟨hopened, ?_⟩
    rw [isSystem_of_dlopen (congrArg Prod.fst hd), Bool.and_false, Bool.false_and]
  · have hopen := mem_of_dlopen (congrArg Prod.fst hd)
    rw [hd] at hopened hopen
    cases hexports : entry.exportsModule with
    | false => exact ⟨hopened, by simp⟩
    | true =>
      cases hapi : entry.apiSupported with
      | false => exact ⟨hopened, by simp⟩
      | true =>
        refine ⟨?_, by simp⟩
        cases entry.closesItself with
        | false => exact hopened
        | true => exact accounted_dlclose hopened hopen

theorem loadPlan_spec (plan : List ZnOutcome) {k : Nat} (h : Accounted znName st st' loaded) :
    Accounted znName st (loadPlan plan (k, st')).2 (loaded + plan.countP ZnOutcome.bySystem) ∧
    (loadPlan plan (k, st')).1 =
      k + plan.countP fun entry => ZnOutcome.bySystem entry && ZnOutcome.supported entry := by
  induction plan generalizing k st' loaded with
  | nil => exact ⟨h, rfl⟩
  | cons entry plan ih =>
    rw [loadPlan, countP_cons, countP_cons, ZnOutcome.bySystem]
    by_cases hfd : entry.libFd < 0
    · rw [if_pos hfd, decide_eq_true hfd]
      exact ih h
    · obtain ⟨hentry, hloaded⟩ := loadEntry_spec entry h
      obtain ⟨hacc, hcount⟩ := ih hentry
      rw [if_neg hfd, decide_eq_false hfd, Bool.not_false, Bool.true_and, Nat.add_comm (List.countP _ plan),
        ← Nat.add_assoc]
      refine ⟨hacc, hcount.trans ?_⟩
      rw [hloaded, Nat.add_comm (List.countP _ plan), ← Nat.add_assoc]
      split <;> rfl

theorem loadAllModules_iff (symbols : Symbols) (anonymousMemory : Bool) (plan : List ZnOutcome)
    (st : LinkerState) :
    Baseline znName st (loadAllModules symbols anonymousMemory plan st) ↔
      PlanSupported plan ∧ NoneNamed znName st ∧
        (0 < plan.countP ZnOutcome.bySystem →
          anonymousMemory = true ∧ symbols.initialized = true ∧ symbols.counters = true) := by
  obtain ⟨hacc, hcount⟩ := loadPlan_spec plan (k := 0) (accounted_refl znName st)
  rw [Nat.zero_add] at hacc hcount
  have hle : (loadPlan plan (0, st)).1 ≤ plan.countP ZnOutcome.bySystem := by
    rw [hcount]
    exact countP_mono_left fun entry _ h => (Bool.and_eq_true _ _ ▸ h).1
  rw [loadAllModules, cleaned_iff hacc hle, hcount, countP_and_eq_iff]
  refine and_congr (forall₂_congr fun entry _ => ?_) Iff.rfl
  rw [ZnOutcome.bySystem, ZnOutcome.supported, Bool.and_eq_true, Bool.not_eq_true', decide_eq_false_iff_not,
    Bool.and_eq_true, and_imp]

end TraceLemmas

open TraceLemmas

def SomeSystem (ms : List ModuleOutcome) : Prop := ∃ m, m ∈ ms ∧ m.loading.isSystem = true

def SomePlanned (plan : List ZnOutcome) : Prop :=
  ∃ entry, entry ∈ plan ∧ ¬ entry.libFd < 0 ∧ entry.loading.isSystem = true

/-- The linker is back where it was exactly if each module that its own loader loaded was one that could
be run, no record had the name before, and the list and the counters are found when there is something to
clean, with a context, and with anonymous memory. -/
theorem baseline_iff (symbols : Symbols) (st : LinkerState) :
    (∀ (hooked : Bool) (ms : List ModuleOutcome),
      Baseline moduleName st (runModules symbols hooked ms st) ↔
        EntriesFound ms ∧ NoneNamed moduleName st ∧
          (SomeSystem ms → hooked = true ∧ symbols.initialized = true ∧ symbols.counters = true)) ∧
    (∀ (anonymousMemory : Bool) (plan : List ZnOutcome),
      Baseline znName st (loadAllModules symbols anonymousMemory plan st) ↔
        PlanSupported plan ∧ NoneNamed znName st ∧
          (SomePlanned plan → anonymousMemory = true ∧ symbols.initialized = true ∧
            symbols.counters = true)) := by
  constructor
  · intro hooked ms
    rw [runModules_iff, countP_pos_iff]
    rfl
  · intro anonymousMemory plan
    have hsome : 0 < plan.countP ZnOutcome.bySystem ↔ SomePlanned plan := by
      rw [countP_pos_iff]
      refine exists_congr fun entry => and_congr_right fun _ => ?_
      rw [ZnOutcome.bySystem, Bool.and_eq_true, Bool.not_eq_true', decide_eq_false_iff_not]
    rw [loadAllModules_iff, hsome]

/-- Two modules of the system linker, the second without an entry. -/
def mixedModules : List ModuleOutcome :=
  [⟨.system 0x7000 0x2000 (by decide), true, false, true⟩,
    ⟨.system 0x7200 0x2000 (by decide), false, false, true⟩]

/-- Both records are dropped, and only one of the two loads is taken from the counters. -/
theorem counters_stay_raised :
    (runModules ⟨true, true⟩ true mixedModules ⟨[], 5, 2⟩).solist = [] ∧
    (runModules ⟨true, true⟩ true mixedModules ⟨[], 5, 2⟩).loadCounter = 6 ∧
    (runModules ⟨true, true⟩ true mixedModules ⟨[], 5, 2⟩).unloadCounter = 3 := by
  decide

end NyaZygisk.LinkerTrace
