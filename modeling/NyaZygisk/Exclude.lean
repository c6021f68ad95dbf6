import NyaZygisk.Text

/-!
# The exclusion list

`exclude.rs`: `config.prop` names packages, `packages.list` gives their uids,
and `lookup` says whether a uid belongs to an excluded app. The parsed answer is
kept in `STATE` and read again when the modification time of either file differs
from the one it was read at.
-/

namespace NyaZygisk.Exclude

open Text

/-- A file as `fs::metadata` and `fs::read_to_string` report it; `none` stands
for their errors. -/
structure FileState where
  mtime : Option Nat
  text : Option String
deriving DecidableEq

/-- The two files: `CONFIG_PATH` and `PACKAGES_LIST_PATH`. -/
structure Files where
  config : FileState
  list : FileState
deriving DecidableEq

def perUserRange : UInt32 := 100000
def aidAppStart : UInt32 := 10000
def aidAppEnd : UInt32 := 19999

/-- `(AID_APP_START..=AID_APP_END).contains(&app_id)`. -/
def isAppId (appId : UInt32) : Bool := aidAppStart ≤ appId && appId ≤ aidAppEnd

/-- `State` of `exclude.rs`. Its hash set of app ids is a predicate. -/
structure State where
  loaded : Bool
  configMtime : Option Nat
  listMtime : Option Nat
  unmount : Bool
  packages : List String
  appIds : UInt32 → Bool

/-- `State::default()`. -/
def State.default : State := ⟨false, none, none, false, [], fun _ => false⟩

/-! ## Parsing -/

def parseConfigLine (acc : List String × Bool) (line : List Char) : List String × Bool :=
  let line := trim line
  match stripPrefix "exclude_apps=".toList line with
  | some value =>
    ((((split ',' value).map trim).filter fun p => !p.isEmpty).map String.ofList, acc.2)
  | none =>
    match stripPrefix "exclude_unmount=".toList line with
    | some value => (acc.1, trim value ≠ "0".toList)
    | none => acc

def parseConfig (text : String) : List String × Bool :=
  (lines text.toList).foldl parseConfigLine ([], true)

/-- One line of `packages.list`: an app id counts its packages and, of these, the
excluded ones. -/
def countPackage (packages : List String) (byAppId : UInt32 → Option (Nat × Nat))
    (line : List Char) : UInt32 → Option (Nat × Nat) :=
  match splitWhitespace line with
  | name :: uid :: _ =>
    match parseU32 uid with
    | some uid =>
      let appId := uid % perUserRange
      if isAppId appId then
        let entry := (byAppId appId).getD (0, 0)
        let excluded := if packages.contains (String.ofList name) then 1 else 0
        fun a => if a = appId then some (entry.1 + 1, entry.2 + excluded) else byAppId a
      else byAppId
    | none => byAppId
  | _ => byAppId

def resolveAppIds (packages : List String) (list : FileState) : UInt32 → Bool :=
  if packages.isEmpty then fun _ => false
  else match list.text with
    | none => fun _ => false
    | some text =>
      let byAppId := (lines text.toList).foldl (countPackage packages) fun _ => none
      fun appId => match byAppId appId with
        | some (total, excluded) => decide (0 < excluded) && total == excluded
        | none => false

/-! ## Loading and asking -/

/-- The packages and the unmount setting `reload` takes from `config.prop`. -/
def readConfig (config : FileState) : List String × Bool :=
  match config.text with
  | some text => parseConfig text
  | none => ([], true)

def reload (state : State) (files : Files) : State :=
  if state.loaded && state.configMtime == files.config.mtime &&
      state.listMtime == files.list.mtime then state
  else
    let (packages, unmount) := readConfig files.config
    { loaded := true, configMtime := files.config.mtime, listMtime := files.list.mtime,
      unmount, packages, appIds := resolveAppIds packages files.list }

/-- `refresh`: the content of `STATE` after it. -/
def refresh (guard : Option State) (files : Files) : Option State :=
  some (reload (guard.getD .default) files)

/-- `lookup`: its answer, and the content of `STATE` after it. -/
def lookup (guard : Option State) (files : Files) (uid : UInt32) :
    Option Bool × Option State :=
  let appId := uid % perUserRange
  if isAppId appId then
    let state := reload (guard.getD .default) files
    (if state.appIds appId then some state.unmount else none, some state)
  else (none, guard)

/-- `exclude::lookup(uid)` on files that nothing was read from before. -/
def lookupOn (files : Files) (uid : UInt32) : Option Bool := (lookup none files uid).1

/-- The modification times of the two files that the state was loaded at. -/
def LoadedAt (guard : Option State) (config list : Option Nat → Prop) : Prop :=
  ∀ state, guard = some state → state.loaded = true →
    config state.configMtime ∧ list state.listMtime

/-- What is loaded under the modification times of these files was read from
them. -/
def Sound (guard : Option State) (files : Files) : Prop :=
  ∀ state, guard = some state → state.loaded = true → state.configMtime = files.config.mtime →
    state.listMtime = files.list.mtime →
    state.unmount = (readConfig files.config).2 ∧
      state.appIds = resolveAppIds (readConfig files.config).1 files.list

namespace ExcludeLemmas

theorem sound_none (files : Files) : Sound none files := nofun

variable {files : Files} {config list : Option Nat → Prop} {guard : Option State}

/-- After `reload` the state is the one of the files, and was loaded at their
modification times. -/
theorem reload_spec (h : Sound guard files) :
    let state := reload (guard.getD .default) files
    state.unmount = (readConfig files.config).2 ∧
      state.appIds = resolveAppIds (readConfig files.config).1 files.list ∧
      state.configMtime = files.config.mtime ∧ state.listMtime = files.list.mtime := by
  simp only [reload]
  split
  · next hsame =>
    simp only [Bool.and_eq_true, beq_iff_eq] at hsame
    obtain ⟨⟨hloaded, hconfig⟩, hlist⟩ := hsame
    cases guard with
    | none => cases hloaded
    | some state =>
      obtain ⟨hunmount, hids⟩ := h state rfl hloaded hconfig hlist
      exact ⟨hunmount, hids, hconfig, hlist⟩
  · exact ⟨rfl, rfl, rfl, rfl⟩

theorem sound_refresh (h : Sound guard files) :
    Sound (refresh guard files) files := by
  intro state hstate _ _ _
  cases hstate
  obtain ⟨hunmount, hids, _⟩ := reload_spec h
  exact ⟨hunmount, hids⟩

theorem lookup_sound (h : Sound guard files)
    (uid : UInt32) :
    (lookup guard files uid).1 = lookupOn files uid ∧ Sound (lookup guard files uid).2 files := by
  unfold lookupOn lookup
  simp only
  split
  · obtain ⟨hunmount, hids, _⟩ := reload_spec h
    obtain ⟨hunmount₀, hids₀, _⟩ := reload_spec (sound_none files)
    refine ⟨?_, sound_refresh h⟩
    rw [hunmount, hids, hunmount₀, hids₀]
  · exact ⟨rfl, h⟩

/-- A rewrite after which one of the files has a modification time that nothing
was loaded at. -/
theorem sound_rewrite
    (h : LoadedAt guard config list) (hnew : ¬ config files.config.mtime ∨ ¬ list files.list.mtime) :
    Sound guard files := by
  intro state hstate hloaded hconfig hlist
  obtain ⟨hc, hl⟩ := h state hstate hloaded
  rw [hconfig] at hc
  rw [hlist] at hl
  exact (hnew.elim (· hc) (· hl)).elim

theorem loadedAt_refresh
    (hc : config files.config.mtime) (hl : list files.list.mtime) :
    LoadedAt (refresh guard files) config list := by
  intro state hstate _
  cases hstate
  simp only [reload]
  split
  · next hsame =>
    simp only [Bool.and_eq_true, beq_iff_eq] at hsame
    obtain ⟨⟨_, hconfig⟩, hlist⟩ := hsame
    rw [hconfig, hlist]
    exact ⟨hc, hl⟩
  · exact ⟨hc, hl⟩

theorem loadedAt_lookup
    (h : LoadedAt guard config list) (hc : config files.config.mtime) (hl : list files.list.mtime)
    (uid : UInt32) : LoadedAt (lookup guard files uid).2 config list := by
  unfold lookup
  simp only
  split
  · exact loadedAt_refresh hc hl
  · exact h

end ExcludeLemmas

end NyaZygisk.Exclude
