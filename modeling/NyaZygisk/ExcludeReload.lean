import NyaZygisk.Exclude
import NyaZygisk.Lib.Runs
import NyaZygisk.Lib.Stamps

/-!
# Reloading the exclusion list while the files change

`reload` of `exclude.rs` one step at a time: it asks for the modification time of either file,
reads them, and stores what it has read field by field. Between any two steps `config.prop` and
`packages.list` may be created or replaced. Whoever calls `reload` holds the lock of `STATE`.
-/

namespace NyaZygisk.Exclude

open Stamps Runs

/-! ## Steps -/

/-- A file that is never deleted, as it is found now. -/
def current (h : History String) : FileState := ⟨h.stamp, h.content⟩

/-- The field that `reload` stores next. -/
inductive Store
  | packages
  | unmount
  | configMtime
  | listMtime
  | loaded
deriving DecidableEq

/-- How far the call that holds the lock has come, with its local variables. -/
inductive Progress
  /-- Nobody holds the lock. -/
  | idle
  | locked
  | statted (configMtime : Option Nat)
  | outdated (configMtime listMtime : Option Nat)
  | parsed (configMtime listMtime : Option Nat) (packages : List String) (unmount : Bool)
  | storing (store : Store) (configMtime listMtime : Option Nat) (packages : List String)
      (unmount : Bool)

/-- The files and the exclusion state; a `STATE` that is still `None` is as good as
`State::default()`. -/
structure Sys where
  config : History String
  list : History String
  state : State
  progress : Progress

def Sys.files (s : Sys) : Files := ⟨current s.config, current s.list⟩

/-- Before the first call, with any files. -/
def Sys.start (config list : History String) : Sys := ⟨config, list, .default, .idle⟩

/-- Who takes the next step: a writer of one of the files, or the caller of `reload`. -/
inductive Event
  | writeConfig (mtime : Nat) (text : String)
  | writeList (mtime : Nat) (text : String)
  | reload

/-- The next step of `reload`; from `idle` a caller takes the lock. -/
def Sys.advance (s : Sys) : Sys :=
  match s.progress with
  | .idle => { s with progress := .locked }
  | .locked => { s with progress := .statted s.files.config.mtime }
  | .statted configMtime =>
    let listMtime := s.files.list.mtime
    if s.state.loaded && s.state.configMtime == configMtime && s.state.listMtime == listMtime then
      { s with progress := .idle }
    else { s with progress := .outdated configMtime listMtime }
  | .outdated configMtime listMtime =>
    let (packages, unmount) := readConfig s.files.config
    { s with progress := .parsed configMtime listMtime packages unmount }
  | .parsed configMtime listMtime packages unmount =>
    { s with
      state := { s.state with appIds := resolveAppIds packages s.files.list }
      progress := .storing .packages configMtime listMtime packages unmount }
  | .storing .packages configMtime listMtime packages unmount =>
    { s with
      state := { s.state with packages }
      progress := .storing .unmount configMtime listMtime packages unmount }
  | .storing .unmount configMtime listMtime packages unmount =>
    { s with
      state := { s.state with unmount }
      progress := .storing .configMtime configMtime listMtime packages unmount }
  | .storing .configMtime configMtime listMtime packages unmount =>
    { s with
      state := { s.state with configMtime }
      progress := .storing .listMtime configMtime listMtime packages unmount }
  | .storing .listMtime configMtime listMtime packages unmount =>
    { s with
      state := { s.state with listMtime }
      progress := .storing .loaded configMtime listMtime packages unmount }
  | .storing .loaded _ _ _ _ => { s with state := { s.state with loaded := true }, progress := .idle }

/-- One step; a file that is written gets a modification time that it never had. -/
def Sys.step (s : Sys) : Event → Option Sys
  | .writeConfig mtime text =>
    if s.config.Fresh mtime then some { s with config := s.config.put mtime text } else none
  | .writeList mtime text =>
    if s.list.Fresh mtime then some { s with list := s.list.put mtime text } else none
  | .reload => some s.advance

def Steps (s : Sys) (tr : List (Sys × Event)) (t : Sys) : Prop :=
  Run (fun a e b => a.step e = some b) s tr t

/-- One call of `reload` that nothing interrupts. -/
def Sys.call (s : Sys) : Sys :=
  let s := s.advance.advance.advance
  match s.progress with
  | .idle => s
  | _ => s.advance.advance.advance.advance.advance.advance.advance

/-- The steps are those of `reload`. -/
theorem reload_alone (config list : History String) (state : State) :
    (Sys.mk config list state .idle).call =
      ⟨config, list, reload state ⟨current config, current list⟩, .idle⟩ := by
  by_cases hsame : (state.loaded && state.configMtime == (current config).mtime &&
      state.listMtime == (current list).mtime) = true
  · have hfound : (Sys.mk config list state .idle).advance.advance.advance =
        ⟨config, list, state, .idle⟩ := if_pos hsame
    rw [Sys.call, hfound, reload, if_pos hsame]
  · have hfound : (Sys.mk config list state .idle).advance.advance.advance =
        ⟨config, list, state, .outdated (current config).mtime (current list).mtime⟩ := if_neg hsame
    rw [Sys.call, hfound, reload, if_neg hsame]
    rfl

/-! ## What a caller knows -/

/-- The times that the caller asked for are old or current, and so are those in the state: one
that the file still has is the one that the caller saw. -/
structure Asked (s : Sys) (configMtime listMtime : Option Nat) : Prop where
  configPast : s.config.Past configMtime
  listPast : s.list.Past listMtime
  configSeen : s.state.configMtime = s.config.stamp → s.state.configMtime = configMtime
  listSeen : s.state.listMtime = s.list.stamp → s.state.listMtime = listMtime

/-- The comparison that makes `reload` go on. -/
def Differs (s : Sys) (configMtime listMtime : Option Nat) : Prop :=
  ¬ (s.state.loaded = true ∧ s.state.configMtime = configMtime ∧ s.state.listMtime = listMtime)

/-- `config.prop` was read after its time was asked for. -/
def ReadUnder (s : Sys) (configMtime : Option Nat) (packages : List String) (unmount : Bool) : Prop :=
  configMtime = s.config.stamp → readConfig s.files.config = (packages, unmount)

/-- `packages.list` was read after its time was asked for, if it was read. -/
def ResolvedUnder (s : Sys) (listMtime : Option Nat) (packages : List String) : Prop :=
  listMtime = s.list.stamp → s.state.appIds = resolveAppIds packages s.files.list

/-- What the fields hold that were stored before this one. The state has its old times until
`config_mtime` is stored, and these are not the times of the files. -/
def StoredBefore (s : Sys) (configMtime listMtime : Option Nat) (unmount : Bool) : Store → Prop
  | .packages | .unmount => Differs s configMtime listMtime
  | .configMtime => Differs s configMtime listMtime ∧ s.state.unmount = unmount
  | .listMtime => s.state.unmount = unmount ∧ s.state.configMtime = configMtime
  | .loaded => s.state.unmount = unmount ∧ s.state.configMtime = configMtime ∧
      s.state.listMtime = listMtime

def Knows (s : Sys) : Progress → Prop
  | .idle | .locked => True
  | .statted configMtime =>
    s.config.Past configMtime ∧
      (s.state.configMtime = s.config.stamp → s.state.configMtime = configMtime)
  | .outdated configMtime listMtime => Asked s configMtime listMtime ∧ Differs s configMtime listMtime
  | .parsed configMtime listMtime packages unmount =>
    Asked s configMtime listMtime ∧ Differs s configMtime listMtime ∧
      ReadUnder s configMtime packages unmount
  | .storing store configMtime listMtime packages unmount =>
    Asked s configMtime listMtime ∧ ReadUnder s configMtime packages unmount ∧
      ResolvedUnder s listMtime packages ∧ StoredBefore s configMtime listMtime unmount store

structure Inv (s : Sys) : Prop where
  configPast : s.config.Past s.state.configMtime
  listPast : s.list.Past s.state.listMtime
  sound : Sound (some s.state) s.files
  knows : Knows s s.progress

namespace ExcludeReloadLemmas

theorem sound_some {state : State} {files : Files}
    (h : state.loaded = true → state.configMtime = files.config.mtime →
      state.listMtime = files.list.mtime → state.unmount = (readConfig files.config).2 ∧
        state.appIds = resolveAppIds (readConfig files.config).1 files.list) :
    Sound (some state) files := by
  intro st hst
  cases hst
  exact h

variable {unmount : Bool} {packages : List String} {c l : Option Nat} {s : Sys}

theorem sound_of_differs (hasked : Asked s c l) (hdiff : Differs s c l) :
    Sound (some s.state) s.files :=
  sound_some fun hloaded hconfig hlist =>
    absurd ⟨hloaded, hasked.configSeen hconfig, hasked.listSeen hlist⟩ hdiff

/-- What was read is what the files say, if they have the times that the caller asked for. -/
theorem sound_of_read
    (hread : ReadUnder s c packages unmount) (hresolved : ResolvedUnder s l packages)
    (hunmount : s.state.unmount = unmount) (hconfig : s.state.configMtime = c)
    (hlist : s.state.listMtime = s.list.stamp → s.state.listMtime = l) :
    Sound (some s.state) s.files := by
  refine sound_some fun _ hc hl => ?_
  have hparsed := hread (hconfig.symm.trans hc)
  have hids := hresolved ((hlist hl).symm.trans hl)
  rw [hparsed]
  exact ⟨hunmount, hids⟩

theorem sound_of_storing {store : Store} (h : Knows s (.storing store c l packages unmount)) :
    Sound (some s.state) s.files := by
  obtain ⟨hasked, hread, hresolved, hstored⟩ := h
  cases store with
  | packages | unmount => exact sound_of_differs hasked hstored
  | configMtime => exact sound_of_differs hasked hstored.1
  | listMtime => exact sound_of_read hread hresolved hstored.1 hstored.2 hasked.listSeen
  | loaded => exact sound_of_read hread hresolved hstored.1 hstored.2.1 hasked.listSeen

/-! ### Writes -/

/-- The file is as it was, or has a time that it never had. -/
structure Kept (old new : History String) : Prop where
  past : ∀ {m : Option Nat}, old.Past m → new.Past m
  same : ∀ {m : Option Nat}, old.Past m → m = new.stamp → new = old

theorem kept_self (file : History String) : Kept file file := ⟨id, fun _ _ => rfl⟩

theorem kept_put {file : History String} {m : Nat} (hm : file.Fresh m) (text : String) :
    Kept file (file.put m text) :=
  ⟨fun h => past_put h m text, fun h heq => absurd heq (ne_stamp_put h hm text)⟩

theorem inv_write {config list : History String} (hc : Kept s.config config) (hl : Kept s.list list)
    (h : Inv s) : Inv { s with config, list } := by
  obtain ⟨config₀, list₀, state, progress⟩ := s
  obtain ⟨hconfig, hlist, hsound, hknows⟩ := h
  have hasked {c l : Option Nat} (h : Asked ⟨config₀, list₀, state, progress⟩ c l) :
      Asked ⟨config, list, state, progress⟩ c l :=
    ⟨hc.past h.configPast, hl.past h.listPast, fun heq => h.configSeen (hc.same hconfig heq ▸ heq),
      fun heq => h.listSeen (hl.same hlist heq ▸ heq)⟩
  have hread {c : Option Nat} {packages : List String} {unmount : Bool} (hpast : config₀.Past c)
      (h : ReadUnder ⟨config₀, list₀, state, progress⟩ c packages unmount) :
      ReadUnder ⟨config, list, state, progress⟩ c packages unmount := by
    intro heq
    obtain rfl := hc.same hpast heq
    exact h heq
  refine ⟨hc.past hconfig, hl.past hlist, sound_some fun hloaded hcm hlm => ?_, ?_⟩
  · obtain rfl := hc.same hconfig hcm
    obtain rfl := hl.same hlist hlm
    exact hsound state rfl hloaded hcm hlm
  · cases progress with
    | idle | locked => trivial
    | statted c => exact ⟨hc.past hknows.1, fun heq => hknows.2 (hc.same hconfig heq ▸ heq)⟩
    | outdated c l => exact ⟨hasked hknows.1, hknows.2⟩
    | parsed c l packages unmount =>
      exact ⟨hasked hknows.1, hknows.2.1, hread hknows.1.configPast hknows.2.2⟩
    | storing store c l packages unmount =>
      obtain ⟨hold, hparsed, hresolved, hstored⟩ := hknows
      refine ⟨hasked hold, hread hold.configPast hparsed, fun heq => ?_, by cases store <;> exact hstored⟩
      obtain rfl := hl.same hold.listPast heq
      exact hresolved heq

/-! ### Steps of the caller -/

/-- The times of the files are asked for before anything is read. -/
theorem inv_statted (h : Inv s) (hc : s.config.Past c)
    (hseen : s.state.configMtime = s.config.stamp → s.state.configMtime = c)
    (hdiff : Differs s c s.list.stamp) : Inv { s with progress := .outdated c s.list.stamp } where
  configPast := h.configPast
  listPast := h.listPast
  sound := h.sound
  knows := ⟨⟨hc, past_stamp s.list, hseen, id⟩, hdiff⟩

/-- While the caller stores, what it knows is enough for the invariant. -/
theorem inv_storing {store : Store} (hprogress : s.progress = .storing store c l packages unmount)
    (hconfig : s.config.Past s.state.configMtime) (hlist : s.list.Past s.state.listMtime)
    (h : Knows s (.storing store c l packages unmount)) : Inv s where
  configPast := hconfig
  listPast := hlist
  sound := sound_of_storing h
  knows := hprogress ▸ h

theorem inv_advance (h : Inv s) : Inv s.advance := by
  obtain ⟨config, list, state, progress⟩ := s
  obtain ⟨hconfig, hlist, hsound, hknows⟩ := h
  cases progress with
  | idle => exact ⟨hconfig, hlist, hsound, trivial⟩
  | locked => exact ⟨hconfig, hlist, hsound, past_stamp config, id⟩
  | statted c =>
    simp only [Sys.advance]
    split
    · exact ⟨hconfig, hlist, hsound, trivial⟩
    · next hdiff =>
      refine inv_statted ⟨hconfig, hlist, hsound, hknows⟩ hknows.1 hknows.2 fun hsame => hdiff ?_
      simp only [Bool.and_eq_true, beq_iff_eq]
      exact ⟨⟨hsame.1, hsame.2.1⟩, hsame.2.2⟩
  | outdated c l =>
    obtain ⟨⟨hcPast, hlPast, hcSeen, hlSeen⟩, hdiff⟩ := hknows
    exact ⟨hconfig, hlist, hsound, ⟨hcPast, hlPast, hcSeen, hlSeen⟩, hdiff, fun _ => rfl⟩
  | parsed c l packages unmount =>
    obtain ⟨⟨hcPast, hlPast, hcSeen, hlSeen⟩, hdiff, hread⟩ := hknows
    exact inv_storing rfl hconfig hlist
      ⟨⟨hcPast, hlPast, hcSeen, hlSeen⟩, hread, fun _ => rfl, hdiff⟩
  | storing store c l packages unmount =>
    obtain ⟨⟨hcPast, hlPast, hcSeen, hlSeen⟩, hread, hresolved, hstored⟩ := hknows
    cases store with
    | packages =>
      exact inv_storing rfl hconfig hlist ⟨⟨hcPast, hlPast, hcSeen, hlSeen⟩, hread, hresolved, hstored⟩
    | unmount =>
      exact inv_storing rfl hconfig hlist
        ⟨⟨hcPast, hlPast, hcSeen, hlSeen⟩, hread, hresolved, hstored, rfl⟩
    | configMtime =>
      exact inv_storing rfl hcPast hlist
        ⟨⟨hcPast, hlPast, fun _ => rfl, hlSeen⟩, hread, hresolved, hstored.2, rfl⟩
    | listMtime =>
      exact inv_storing rfl hconfig hlPast
        ⟨⟨hcPast, hlPast, hcSeen, fun _ => rfl⟩, hread, hresolved, hstored.1, hstored.2, rfl⟩
    | loaded =>
      exact ⟨hconfig, hlist, sound_of_read hread hresolved hstored.1 hstored.2.1 hlSeen, trivial⟩

theorem inv_start (config list : History String) : Inv (Sys.start config list) where
  configPast := past_none config
  listPast := past_none list
  sound := sound_some fun h => absurd h Bool.false_ne_true
  knows := trivial

theorem inv_step {t : Sys} {e : Event} (h : Inv s) (hstep : s.step e = some t) : Inv t := by
  cases e with
  | writeConfig m text =>
    obtain ⟨hm, ht⟩ := Option.ite_none_right_eq_some.mp hstep
    cases ht
    exact inv_write (kept_put hm text) (kept_self _) h
  | writeList m text =>
    obtain ⟨hm, ht⟩ := Option.ite_none_right_eq_some.mp hstep
    cases ht
    exact inv_write (kept_self _) (kept_put hm text) h
  | reload =>
    cases hstep
    exact inv_advance h

end ExcludeReloadLemmas

open ExcludeReloadLemmas

/-- In every state of every run: if the state is loaded and has the times that the files have, it
holds what `parse_config` and `resolve_app_ids` give for the files. -/
theorem exclusion_never_stale {config list : History String} {tr : List (Sys × Event)} {s : Sys}
    (hrun : Steps (.start config list) tr s) (hloaded : s.state.loaded = true)
    (hconfig : s.state.configMtime = s.files.config.mtime)
    (hlist : s.state.listMtime = s.files.list.mtime) :
    s.state.unmount = (readConfig s.files.config).2 ∧
      s.state.appIds = resolveAppIds (readConfig s.files.config).1 s.files.list := by
  have hinv := (hrun.invariant Inv (fun _ _ _ h => inv_step h) (inv_start config list)).1
  exact hinv.sound s.state rfl hloaded hconfig hlist

/-- `packages.list` is replaced while it is being resolved: the first call leaves an old time, the
second one reads it again. -/
def racingEvents : List Event :=
  List.replicate 4 .reload ++ .writeList 2 "b 10007 0" :: List.replicate 16 .reload

def racingStart : Sys := .start ⟨[(1, "exclude_apps=b")]⟩ ⟨[(1, "a 10007 0")]⟩

theorem ExcludeReloadLemmas.racing_runs : (exec Sys.step racingStart racingEvents).isSome = true := by
  decide +kernel

theorem exclusion_never_stale_racing :
    ∃ tr s, Steps (.start ⟨[(1, "exclude_apps=b")]⟩ ⟨[(1, "a 10007 0")]⟩) tr s ∧
      tr.map Prod.snd = racingEvents ∧ s.state.loaded = true ∧
      s.state.configMtime = s.files.config.mtime ∧ s.state.listMtime = s.files.list.mtime ∧
      s.state.unmount = (readConfig s.files.config).2 ∧
      s.state.appIds = resolveAppIds (readConfig s.files.config).1 s.files.list := by
  let s := ((exec Sys.step racingStart racingEvents).get racing_runs).2
  obtain ⟨hrun, hlabels⟩ := run_exec_get racing_runs
  have hloaded : s.state.loaded = true := by decide +kernel
  have hconfig : s.state.configMtime = s.files.config.mtime := by decide +kernel
  have hlist : s.state.listMtime = s.files.list.mtime := by decide +kernel
  exact ⟨_, s, hrun, hlabels, hloaded, hconfig, hlist,
    exclusion_never_stale hrun hloaded hconfig hlist⟩

end NyaZygisk.Exclude
