import NyaZygisk.ConfigFile
import NyaZygisk.Lib.Runs

/-!
# Toggles of the WebUI

`toggleApp` of `script.js` changes the set that is shown at once and queues a write of `exclude_apps`,
whose value is taken from the set when the write starts. When a write fails, the set is put back to what
was saved last. That drops the changes of calls that are still waiting behind the failed write, and their
own writes then report success.

A completion runs the rest of `toggleApp` before the next write starts: `queueConfigWrite` attaches the
`catch` that starts it before `toggleApp` waits.
-/

namespace NyaZygisk.WebUi

open Exclude List Runs Text

/-! ## Apps -/

def isNameChar (c : Char) : Bool := c.isAlphanum || c == '_' || c == '.'

/-- `PACKAGE_RE`: parts of letters, digits and underscores, two at least, with dots between them. -/
def packageRe (pkg : String) : Bool :=
  let parts := split '.' pkg.toList
  pkg.toList.all isNameChar && 2 ≤ parts.length && parts.all fun part => !part.isEmpty

structure UserApp where
  pkg : String
  appId : Option Nat
deriving DecidableEq

/-- What `loadApps` leaves. -/
structure AppList where
  userApps : List UserApp
  appIdGroups : Nat → List String
  valid : ∀ app ∈ userApps, packageRe app.pkg = true

def AppList.userPackages (apps : AppList) : List String := apps.userApps.map (·.pkg)

def AppList.groupOf (apps : AppList) (app : UserApp) : List String :=
  match app.appId with
  | some appId => if apps.appIdGroups appId ≠ [] then apps.appIdGroups appId else [app.pkg]
  | none => [app.pkg]

def AppList.isLocked (apps : AppList) (app : UserApp) : Bool :=
  (apps.groupOf app).any fun pkg => !apps.userPackages.contains pkg

def AppList.findApp (apps : AppList) (pkg : String) : UserApp :=
  (apps.userApps.find? (·.pkg = pkg)).getD ⟨pkg, none⟩

/-! ## The page -/

/-- A call of `toggleApp` that is not refused. -/
structure Call where
  group : List String
  excluded : Bool
deriving DecidableEq

inductive QueuedWrite
  /-- The write of a call, with its number. -/
  | app (number : Nat) (call : Call)
  /-- The write of `saveToggle`. -/
  | setting (key : ConfigKey) (value : List Char)
deriving DecidableEq

def QueuedWrite.isApp : QueuedWrite → Bool
  | .app .. => true
  | .setting .. => false

def QueuedWrite.key : QueuedWrite → ConfigKey
  | .app .. => .excludeApps
  | .setting key _ => key

/-- `running` is the write that has started, with its value; `calls` are the calls so far. -/
structure Page where
  excludedApps : List String
  savedExcluded : List String
  file : Option (List Char)
  calls : List Call
  queue : List QueuedWrite
  running : Option (QueuedWrite × List Char)
deriving DecidableEq

def addTo (set : List String) (pkg : String) : List String := if set.contains pkg then set else set ++ [pkg]

def removeFrom (set : List String) (pkg : String) : List String := set.filter (· ≠ pkg)

def toggled (call : Call) (set : List String) : List String :=
  call.group.foldl (fun set member => if call.excluded then addTo set member else removeFrom set member) set

def AppList.writtenNames (apps : AppList) (excludedApps : List String) : List String :=
  (excludedApps.filter fun p => apps.userPackages.contains p && packageRe p).insertionSort (· ≤ ·)

/-- `join(",")`. -/
def joinNames (names : List String) : List Char := [','].intercalate (names.map String.toList)

/-- `written ? written.split(",") : []`. -/
def splitWritten (written : List Char) : List String :=
  if written.isEmpty then [] else (split ',' written).map String.ofList

def AppList.valueOf (apps : AppList) (excludedApps : List String) : QueuedWrite → List Char
  | .app .. => joinNames (apps.writtenNames excludedApps)
  | .setting _ value => value

inductive Event
  | toggleApp (pkg : String) (excluded : Bool)
  | saveToggle (key : ConfigKey) (enabled : Bool)
  | start
  /-- The command ends with `code`; `replaced` tells whether a failed one got as far as `mv`. -/
  | finish (code : Int) (replaced : Bool)
deriving DecidableEq

def Page.called (page : Page) (call : Call) : Page :=
  { page with
    excludedApps := toggled call page.excludedApps
    calls := page.calls ++ [call]
    queue := page.queue ++ [.app page.calls.length call] }

/-- The end of the running write: the file, if the command got that far. -/
def Page.ended (page : Page) (write : QueuedWrite) (value : List Char) (replaced : Bool) : Page :=
  { page with
    file := if replaced then (setConfigValue page.file write.key value).or page.file else page.file
    running := none }

def Page.completed (page : Page) (write : QueuedWrite) (written : List Char) (code : Int) : Page :=
  match write with
  | .app .. =>
    if code ≠ 0 then { page with excludedApps := page.savedExcluded }
    else { page with savedExcluded := splitWritten written }
  | .setting .. => page

def Page.step (apps : AppList) (page : Page) : Event → Option Page
  | .toggleApp pkg excluded =>
    let app := apps.findApp pkg
    if apps.isLocked app then some page else some (page.called ⟨apps.groupOf app, excluded⟩)
  | .saveToggle key enabled =>
    if key = .excludeApps then none
    else some { page with queue := page.queue ++ [.setting key (if enabled then ['1'] else ['0'])] }
  | .start =>
    match page.running, page.queue with
    | none, write :: rest =>
      some { page with queue := rest, running := some (write, apps.valueOf page.excludedApps write) }
    | _, _ => none
  | .finish code replaced =>
    match page.running with
    | none => none
    | some (write, value) =>
      -- a value that is not accepted gives code 1
      if code = 0 ∧ value.all isValueChar = false then none
      else some ((page.ended write value (code = 0 || replaced)).completed write value code)

abbrev Steps (apps : AppList) : Page → List (Page × Event) → Page → Prop :=
  Run fun page event next => page.step apps event = some next

/-! ## What is to hold -/

def SameGroup (group group' : List String) : Prop := ∀ pkg, pkg ∈ group ↔ pkg ∈ group'

/-- Two groups with a package in common are the same. -/
def AppList.Partitioned (apps : AppList) : Prop :=
  ∀ app app', app ∈ apps.userApps → app' ∈ apps.userApps →
    (∃ pkg, pkg ∈ apps.groupOf app ∧ pkg ∈ apps.groupOf app') → SameGroup (apps.groupOf app)
      (apps.groupOf app')

structure Page.Loaded (page : Page) : Prop where
  shown : ∀ pkg, pkg ∈ page.excludedApps ↔ pkg ∈ page.savedExcluded
  calls : page.calls = []
  queue : page.queue = []
  running : page.running = none

/-- No call of this group was made after that with the number. -/
def Page.Last (page : Page) (number : Nat) (call : Call) : Prop :=
  ∀ later c, number < later → page.calls[later]? = some c → ¬ SameGroup c.group call.group

/-- The packages in `exclude_apps` of the file. -/
def Page.written (page : Page) : List String := (readConfig (configState page.file none)).1

/-- If this step reports success for the write of a call, the file has the group as the call asked for,
unless there was a later call for the group. -/
def KeepsToggle (apps : AppList) (page : Page) (event : Event) : Prop :=
  ∀ number call value replaced next, page.running = some (.app number call, value) →
    event = .finish 0 replaced → page.step apps event = some next → page.Last number call →
      ∀ pkg ∈ call.group, (pkg ∈ next.written ↔ call.excluded = true)

/-- If nothing is waiting, the user packages that are shown as excluded are those that were saved. -/
def Page.ShowsSaved (apps : AppList) (page : Page) : Prop :=
  page.queue = [] → page.running = none →
    ∀ pkg, (pkg ∈ page.excludedApps ∧ pkg ∈ apps.userPackages) ↔ pkg ∈ page.savedExcluded

/-- A write of the list that fails has no other one behind it. -/
def FailsAlone (page : Page) : Event → Prop
  | .finish code _ => code ≠ 0 → (∃ number call value, page.running = some (.app number call, value)) →
      ∀ write ∈ page.queue, write.isApp = false
  | _ => True

namespace ToggleLemmas

variable {apps : AppList} {page next : Page}

/-! ### Names and values -/

variable {event : Event} {names : List String} {pkg : String}

theorem nameChar_of_packageRe (h : packageRe pkg = true) :
    ∀ c ∈ pkg.toList, isNameChar c = true := by
  rw [packageRe, Bool.and_eq_true, Bool.and_eq_true] at h
  exact all_eq_true.mp h.1.1

theorem ne_nil_of_packageRe (h : packageRe pkg = true) : pkg.toList ≠ [] := by
  intro hnil
  rw [packageRe, hnil] at h
  exact absurd h (by decide)

theorem valueChar_of_nameChar {c : Char} (h : isNameChar c = true) : isValueChar c = true := by
  rw [isNameChar] at h
  rw [isValueChar, h, Bool.true_or]

theorem comma_not_mem (h : packageRe pkg = true) : ',' ∉ pkg.toList := fun hmem =>
  absurd (nameChar_of_packageRe h ',' hmem) (by decide)

theorem split_joinNames (h : ∀ n ∈ names, packageRe n = true) (hne : names ≠ []) :
    split ',' (joinNames names) = names.map String.toList := by
  refine splitOn_intercalate ',' (fun l hl => ?_) (mt map_eq_nil_iff.mp hne)
  obtain ⟨n, hn, rfl⟩ := mem_map.mp hl
  exact comma_not_mem (h n hn)

theorem ofList_toList (names : List String) : (names.map String.toList).map String.ofList = names := by
  rw [map_map]
  exact (map_congr_left fun n _ => String.ofList_toList).trans (map_id _)

/-- The daemon reads the names that are written. -/
theorem commaItems_joinNames (h : ∀ n ∈ names, packageRe n = true) :
    commaItems (joinNames names) = names := by
  rcases eq_or_ne names [] with rfl | hne
  · decide
  · have hfilter : (names.map String.toList).filter (fun item => !item.isEmpty) =
      names.map String.toList := by
      refine filter_eq_self.mpr fun l hl => ?_
      obtain ⟨n, hn, rfl⟩ := mem_map.mp hl
      rw [Bool.not_eq_true', isEmpty_eq_false_iff]
      exact ne_nil_of_packageRe (h n hn)
    rw [commaItems, split_joinNames h hne, hfilter, ofList_toList]

theorem splitWritten_joinNames (h : ∀ n ∈ names, packageRe n = true) :
    splitWritten (joinNames names) = names := by
  rcases eq_or_ne names [] with rfl | hne
  · decide
  · have hjoin : (joinNames names).isEmpty = false := by
      rw [isEmpty_eq_false_iff]
      intro hnil
      have hsplit := split_joinNames h hne
      obtain ⟨n, names, rfl⟩ := exists_cons_of_ne_nil hne
      rw [hnil, split, splitOn_nil, map_cons] at hsplit
      exact ne_nil_of_packageRe (h n mem_cons_self) (List.cons.inj hsplit).1.symm
    rw [splitWritten, hjoin, if_neg Bool.false_ne_true, split_joinNames h hne, ofList_toList]

/-! ### Groups -/

theorem packageRe_of_user (h : pkg ∈ apps.userPackages) : packageRe pkg = true := by
  obtain ⟨app, happ, rfl⟩ := mem_map.mp h
  exact apps.valid app happ

theorem mem_writtenNames {excludedApps : List String} :
    pkg ∈ apps.writtenNames excludedApps ↔ pkg ∈ excludedApps ∧ pkg ∈ apps.userPackages := by
  rw [AppList.writtenNames, mem_insertionSort, mem_filter, Bool.and_eq_true, contains_iff_mem]
  exact and_congr_right fun _ => ⟨fun h => h.1, fun h => ⟨h, packageRe_of_user h⟩⟩

theorem user_of_unlocked {app : UserApp} (h : apps.isLocked app = false)
    (hpkg : pkg ∈ apps.groupOf app) : pkg ∈ apps.userPackages := by
  have hall := any_eq_false.mp h pkg hpkg
  rwa [Bool.not_eq_true, Bool.not_eq_false', contains_iff_mem] at hall

/-- An app that is not one of the user's is refused. -/
theorem mem_userApps_of_unlocked (h : apps.isLocked (apps.findApp pkg) = false) :
    apps.findApp pkg ∈ apps.userApps := by
  rw [AppList.findApp] at h ⊢
  cases hfind : apps.userApps.find? (·.pkg = pkg) with
  | some app => exact mem_of_find?_eq_some hfind
  | none =>
    rw [hfind] at h
    have huser : pkg ∈ apps.userPackages := user_of_unlocked h mem_cons_self
    obtain ⟨app, happ, hpkg⟩ := mem_map.mp huser
    exact absurd (decide_eq_true hpkg) (find?_eq_none.mp hfind app happ)

theorem mem_addTo {set : List String} {p : String} : pkg ∈ addTo set p ↔ pkg ∈ set ∨ pkg = p := by
  rw [addTo]
  split
  · next h =>
    rw [contains_iff_mem] at h
    exact ⟨.inl, fun hor => hor.elim id fun heq => heq ▸ h⟩
  · rw [mem_append, mem_singleton]

theorem mem_removeFrom {set : List String} {p : String} : pkg ∈ removeFrom set p ↔ pkg ∈ set ∧ pkg ≠ p := by
  rw [removeFrom, mem_filter, decide_eq_true_eq]

/-- After a call its group is as it asked, and all else as before. -/
theorem mem_toggled (call : Call) (set : List String) (pkg : String) :
    pkg ∈ toggled call set ↔ if pkg ∈ call.group then call.excluded = true else pkg ∈ set := by
  obtain ⟨group, excluded⟩ := call
  rw [toggled]
  induction group generalizing set with
  | nil => rw [if_neg not_mem_nil, foldl_nil]
  | cons member group ih =>
    rw [foldl_cons, ih]
    by_cases hgroup : pkg ∈ group
    · rw [if_pos hgroup, if_pos (mem_cons_of_mem _ hgroup)]
    · rw [if_neg hgroup]
      cases excluded with
      | true =>
        rw [if_pos rfl, mem_addTo]
        by_cases hpkg : pkg = member
        · rw [if_pos (hpkg ▸ mem_cons_self)]
          exact iff_of_true (.inr hpkg) rfl
        · rw [if_neg (not_mem_cons_of_ne_of_not_mem hpkg hgroup)]
          exact or_iff_left hpkg
      | false =>
        rw [if_neg Bool.false_ne_true, mem_removeFrom]
        by_cases hpkg : pkg = member
        · rw [if_pos (hpkg ▸ mem_cons_self)]
          exact iff_of_false (fun h => h.2 hpkg) Bool.false_ne_true
        · rw [if_neg (not_mem_cons_of_ne_of_not_mem hpkg hgroup)]
          exact and_iff_left hpkg

/-! ### Steps -/

inductive Moves (apps : AppList) (page : Page) : Event → Page → Prop
  | refused {pkg : String} {excluded : Bool} : Moves apps page (.toggleApp pkg excluded) page
  | called {pkg : String} {excluded : Bool} : apps.isLocked (apps.findApp pkg) = false →
      Moves apps page (.toggleApp pkg excluded) (page.called ⟨apps.groupOf (apps.findApp pkg), excluded⟩)
  | queued {key : ConfigKey} {enabled : Bool} (value : List Char) :
      Moves apps page (.saveToggle key enabled) { page with queue := page.queue ++ [.setting key value] }
  | started {write : QueuedWrite} {rest : List QueuedWrite} : page.running = none → page.queue =
      write :: rest →
      Moves apps page .start
        { page with queue := rest, running := some (write, apps.valueOf page.excludedApps write) }
  | finished {write : QueuedWrite} {value : List Char} {code : Int} {replaced : Bool} :
      page.running = some (write, value) → (code = 0 → value.all isValueChar = true) →
      Moves apps page (.finish code replaced)
        ((page.ended write value (code = 0 || replaced)).completed write value code)

theorem moves_of_step (h : page.step apps event = some next) : Moves apps page event next := by
  cases event with
  | toggleApp pkg excluded =>
    rw [Page.step] at h
    by_cases hlocked : apps.isLocked (apps.findApp pkg) = true
    · rw [if_pos hlocked] at h
      exact Option.some.inj h ▸ .refused
    · rw [if_neg hlocked] at h
      exact Option.some.inj h ▸ .called (Bool.eq_false_iff.mpr hlocked)
  | saveToggle key enabled =>
    rw [Page.step] at h
    by_cases hkey : key = .excludeApps
    · rw [if_pos hkey] at h
      cases h
    · rw [if_neg hkey] at h
      exact Option.some.inj h ▸ .queued _
  | start =>
    rw [Page.step] at h
    split at h
    · next hrunning hqueue => exact Option.some.inj h ▸ .started hrunning hqueue
    · cases h
  | finish code replaced =>
    rw [Page.step] at h
    split at h
    · cases h
    · next hrunning =>
      split at h
      · cases h
      · next haccepted =>
        refine Option.some.inj h ▸ .finished hrunning fun hcode => ?_
        exact Bool.eq_true_of_not_eq_false fun hnot => haccepted ⟨hcode, hnot⟩

def Page.NoApp (page : Page) : Prop := ∀ write ∈ page.queue, write.isApp = false

theorem not_noApp_called (page : Page) (call : Call) : ¬ Page.NoApp (page.called call) := fun h =>
  Bool.noConfusion (h _ (mem_append_right _ mem_cons_self))

/-- The value of a running write of the list, and what it says if nothing has come after it. -/
def Valued (apps : AppList) (page : Page) : Prop :=
  ∀ number call value, page.running = some (.app number call, value) →
    ∃ names, value = joinNames names ∧ (∀ n ∈ names, n ∈ apps.userPackages) ∧
      (Page.NoApp page → ∀ pkg, pkg ∈ names ↔ pkg ∈ page.excludedApps ∧ pkg ∈ apps.userPackages)

theorem running_completed (page : Page) (write : QueuedWrite) (value : List Char) (code : Int) :
    (page.completed write value code).running = page.running := by
  cases write with
  | app number call =>
    rw [Page.completed]
    split <;> rfl
  | setting key value => rfl

theorem valued_step (h : Valued apps page) (hstep : page.step apps event = some next) :
    Valued apps next := by
  cases moves_of_step hstep with
  | refused => exact h
  | called hunlocked =>
    intro number call value hrunning
    obtain ⟨names, hvalue, huser, -⟩ := h number call value hrunning
    exact ⟨names, hvalue, huser, fun hno => absurd hno (not_noApp_called _ _)⟩
  | queued value =>
    intro number call value' hrunning
    obtain ⟨names, hvalue, huser, hshown⟩ := h number call value' hrunning
    exact ⟨names, hvalue, huser, fun hno => hshown fun write hwrite => hno write (mem_append_left _ hwrite)⟩
  | started hrunning hqueue =>
    intro number call value hstarted
    obtain ⟨rfl, rfl⟩ := Prod.mk.inj (Option.some.inj hstarted)
    exact ⟨_, rfl, fun n hn => (mem_writtenNames.mp hn).2, fun _ pkg => mem_writtenNames⟩
  | finished hrunning haccepted =>
    intro number call value hstarted
    rw [running_completed] at hstarted
    cases hstarted

/-- What was saved are user packages, and what is shown if no write of the list waits or runs. -/
structure Settled (apps : AppList) (page : Page) : Prop where
  user : ∀ pkg ∈ page.savedExcluded, pkg ∈ apps.userPackages
  shown : Page.NoApp page → (∀ number call value, page.running ≠ some (.app number call, value)) →
    ∀ pkg, (pkg ∈ page.excludedApps ∧ pkg ∈ apps.userPackages) ↔ pkg ∈ page.savedExcluded

theorem settled_step (hvalued : Valued apps page) (h : Settled apps page)
    (hfails : FailsAlone page event) (hstep : page.step apps event = some next) : Settled apps next := by
  cases moves_of_step hstep with
  | refused => exact h
  | called hunlocked => exact ⟨h.user, fun hno => absurd hno (not_noApp_called _ _)⟩
  | queued value =>
    exact ⟨h.user, fun hno => h.shown fun write hwrite => hno write (mem_append_left _ hwrite)⟩
  | @started write rest hrunning hqueue =>
    refine ⟨h.user, fun hno happ => ?_⟩
    cases write with
    | app number call => exact absurd rfl (happ number call _)
    | setting key value =>
      refine h.shown (fun write hwrite => ?_) fun number call value' heq => nomatch hrunning.symm.trans heq
      rw [hqueue] at hwrite
      rcases mem_cons.mp hwrite with rfl | hwrite
      · rfl
      · exact hno write hwrite
  | @finished write value code replaced hrunning haccepted =>
    cases write with
    | setting key value' =>
      refine ⟨h.user, fun hno _ => h.shown hno fun number call value'' heq => ?_⟩
      cases hrunning.symm.trans heq
    | app number call =>
      obtain ⟨names, rfl, huser, hshown⟩ := hvalued number call value hrunning
      rw [Page.completed]
      by_cases hcode : code ≠ 0
      · rw [if_pos hcode]
        exact ⟨h.user, fun _ _ pkg => and_iff_left_of_imp (h.user pkg)⟩
      · rw [if_neg hcode]
        have hsplit := splitWritten_joinNames fun n hn => packageRe_of_user (huser n hn)
        constructor
        · intro pkg hpkg
          rw [hsplit] at hpkg
          exact huser pkg hpkg
        · intro hno _ pkg
          rw [hsplit]
          exact (hshown hno pkg).symm

/-- A write that waits finds the set as its call asked, and one that runs has written so, unless
there was a later call for the group. -/
structure Asked (apps : AppList) (page : Page) : Prop where
  origin : ∀ call ∈ page.calls, ∃ app, app ∈ apps.userApps ∧ call.group = apps.groupOf app ∧
    ∀ pkg ∈ call.group, pkg ∈ apps.userPackages
  numbered : ∀ number call, .app number call ∈ page.queue → page.calls[number]? = some call
  waiting : ∀ number call, .app number call ∈ page.queue → page.Last number call →
    ∀ pkg ∈ call.group, (pkg ∈ page.excludedApps ↔ call.excluded = true)
  running : ∀ number call value, page.running = some (.app number call, value) → page.Last number call →
    ∀ pkg ∈ call.group, (pkg ∈ commaItems value ↔ call.excluded = true)

theorem last_of_called {call call' : Call} {number : Nat} (h : (page.called call').Last number call) :
    page.Last number call := fun later c hlater hc =>
  h later c hlater
    (by rw [Page.called, List.getElem?_append_left (List.getElem?_eq_some_iff.mp hc).1]; exact hc)

theorem not_same_of_called {call call' : Call} {number : Nat} (hnumber : page.calls[number]? = some call)
    (h : (page.called call').Last number call) : ¬ SameGroup call'.group call.group :=
  h page.calls.length call' (List.getElem?_eq_some_iff.mp hnumber).1 List.getElem?_concat_length

theorem asked_called (hpart : apps.Partitioned) (h : Asked apps page) {excluded : Bool}
    (hunlocked : apps.isLocked (apps.findApp pkg) = false) :
    Asked apps (page.called ⟨apps.groupOf (apps.findApp pkg), excluded⟩) := by
  have happ := mem_userApps_of_unlocked hunlocked
  constructor
  · intro call hcall
    rcases mem_append.mp hcall with hcall | hcall
    · exact h.origin call hcall
    · obtain rfl := mem_singleton.mp hcall
      exact ⟨_, happ, rfl, fun pkg hpkg => user_of_unlocked hunlocked hpkg⟩
  · intro number call hqueue
    rcases mem_append.mp hqueue with hqueue | hqueue
    · have hnumber := h.numbered number call hqueue
      exact (List.getElem?_append_left (List.getElem?_eq_some_iff.mp hnumber).1).trans hnumber
    · cases mem_singleton.mp hqueue
      exact getElem?_concat_length
  · intro number call hqueue hlast pkg' hpkg
    rw [Page.called, mem_toggled]
    rcases mem_append.mp hqueue with hqueue | hqueue
    · -- a group that is not the same has no package in common
      have hnumber := h.numbered number call hqueue
      obtain ⟨app, hmem, hgroup, -⟩ := h.origin call (mem_of_getElem? hnumber)
      have hnot : pkg' ∉ apps.groupOf (apps.findApp pkg) := by
        intro hboth
        refine not_same_of_called hnumber hlast ?_
        rw [hgroup]
        exact hpart _ _ happ hmem ⟨pkg', hboth, hgroup ▸ hpkg⟩
      rw [if_neg hnot]
      exact h.waiting number call hqueue (last_of_called hlast) pkg' hpkg
    · cases mem_singleton.mp hqueue
      rw [if_pos hpkg]
  · intro number call value hrunning hlast
    exact h.running number call value hrunning (last_of_called hlast)

theorem asked_started (h : Asked apps page) {write : QueuedWrite} {rest : List QueuedWrite}
    (hqueue : page.queue = write :: rest) :
    Asked apps { page with
      queue := rest, running := some (write, apps.valueOf page.excludedApps write) } := by
  have hsub : ∀ w ∈ rest, w ∈ page.queue := fun w hw => hqueue ▸ mem_cons_of_mem _ hw
  refine ⟨h.origin, fun number call hw => h.numbered number call (hsub _ hw),
    fun number call hw => h.waiting number call (hsub _ hw), ?_⟩
  intro number call value hstarted hlast pkg hpkg
  obtain ⟨rfl, rfl⟩ := Prod.mk.inj (Option.some.inj hstarted)
  have hmem : .app number call ∈ page.queue := hqueue ▸ mem_cons_self
  obtain ⟨-, -, -, huser⟩ := h.origin call (mem_of_getElem? (h.numbered number call hmem))
  rw [AppList.valueOf,
    commaItems_joinNames fun n hn => packageRe_of_user (mem_writtenNames.mp hn).2, mem_writtenNames,
    and_iff_left (huser pkg hpkg)]
  exact h.waiting number call hmem hlast pkg hpkg

theorem asked_step (hpart : apps.Partitioned) (h : Asked apps page)
    (hfails : FailsAlone page event) (hstep : page.step apps event = some next) : Asked apps next := by
  cases moves_of_step hstep with
  | refused => exact h
  | called hunlocked => exact asked_called hpart h hunlocked
  | queued value =>
    have hsub : ∀ {number : Nat} {call : Call} {key : ConfigKey},
        .app number call ∈ page.queue ++ [.setting key value] → .app number call ∈ page.queue := by
      intro number call key hw
      rcases mem_append.mp hw with hw | hw
      · exact hw
      · cases mem_singleton.mp hw
    exact ⟨h.origin, fun number call hw => h.numbered number call (hsub hw),
      fun number call hw => h.waiting number call (hsub hw), h.running⟩
  | started hrunning hqueue => exact asked_started h hqueue
  | @finished write value code replaced hrunning haccepted =>
    cases write with
    | setting key value' => exact ⟨h.origin, h.numbered, h.waiting, fun _ _ _ heq => nomatch heq⟩
    | app number call =>
      rw [Page.completed]
      by_cases hcode : code ≠ 0
      · rw [if_pos hcode]
        have hno := hfails hcode ⟨number, call, value, hrunning⟩
        exact ⟨h.origin, h.numbered, fun _ _ hw => Bool.noConfusion (hno _ hw), fun _ _ _ heq => nomatch heq⟩
      · rw [if_neg hcode]
        exact ⟨h.origin, h.numbered, h.waiting, fun _ _ _ heq => nomatch heq⟩

/-! ### Runs -/

/-- A write of the list that succeeds leaves the items of its value in the file. -/
theorem written_of_finish {number : Nat} {call : Call} {value : List Char} {replaced : Bool}
    (hrunning : page.running = some (.app number call, value))
    (hstep : page.step apps (.finish 0 replaced) = some next) : next.written = commaItems value := by
  cases moves_of_step hstep with
  | finished hrunning' haccepted =>
    rw [hrunning] at hrunning'
    cases hrunning'
    have hset : setConfigValue page.file .excludeApps value = some _ := if_pos (haccepted rfl)
    have hread := ConfigFileLemmas.readConfig_setConfigValue (haccepted rfl) page.file none
    rw [hset] at hread
    rw [Page.written, Page.completed, if_neg (not_not.mpr rfl), Page.ended]
    simp only [decide_true, Bool.true_or, if_true, QueuedWrite.key, hset, Option.some_or]
    exact hread

theorem keepsToggle_of_asked (h : Asked apps page) (event : Event) : KeepsToggle apps page event := by
  rintro number call value replaced next hrunning rfl hstep hlast pkg hpkg
  rw [written_of_finish hrunning hstep]
  exact h.running number call value hrunning hlast pkg hpkg

theorem showsSaved_of_settled (h : Settled apps page) : page.ShowsSaved apps := by
  intro hqueue hrunning
  refine h.shown (fun write hwrite => ?_) fun number call value heq => nomatch hrunning.symm.trans heq
  rw [hqueue] at hwrite
  cases hwrite

theorem settled_loaded (hloaded : page.Loaded) (huser : ∀ pkg ∈ page.savedExcluded, pkg ∈ apps.userPackages) :
    Settled apps page := by
  refine ⟨huser, fun _ _ pkg => ?_⟩
  rw [hloaded.shown]
  exact and_iff_left_of_imp (huser pkg)

theorem valued_loaded (hloaded : page.Loaded) : Valued apps page := fun _ _ _ heq =>
  nomatch hloaded.running.symm.trans heq

theorem asked_loaded (hloaded : page.Loaded) : Asked apps page := by
  refine ⟨fun call hcall => ?_, fun number call hw => ?_, fun number call hw => ?_, fun _ _ _ heq => ?_⟩
  · rw [hloaded.calls] at hcall
    cases hcall
  · rw [hloaded.queue] at hw
    cases hw
  · rw [hloaded.queue] at hw
    cases hw
  · cases hloaded.running.symm.trans heq

end ToggleLemmas

open ToggleLemmas

/-- In a run in which no write of the list fails while another one waits, each call whose write is
reported as saved is saved, and when nothing waits the page shows what was saved. -/
theorem saved_toggles (apps : AppList) (hpart : apps.Partitioned) {page last : Page} (hloaded : page.Loaded)
    (huser : ∀ pkg ∈ page.savedExcluded, pkg ∈ apps.userPackages) {tr : List (Page × Event)}
    (hrun : Steps apps page tr last) (hfails : ∀ p ∈ tr, FailsAlone p.1 p.2) :
    (∀ p ∈ tr, KeepsToggle apps p.1 p.2) ∧ ∀ s ∈ visited tr last, s.ShowsSaved apps := by
  obtain ⟨hlast, hall⟩ := (hrun.restrict FailsAlone hfails).invariant
    (fun s => Valued apps s ∧ Settled apps s ∧ Asked apps s)
    (fun _ _ _ h ⟨hok, hstep⟩ => ⟨valued_step h.1 hstep, settled_step h.1 h.2.1 hok hstep,
      asked_step hpart h.2.2 hok hstep⟩)
    ⟨valued_loaded hloaded, settled_loaded hloaded huser, asked_loaded hloaded⟩
  refine ⟨fun p hp => keepsToggle_of_asked (hall p hp).2.2 p.2, fun s hs => showsSaved_of_settled ?_⟩
  rcases mem_append.mp hs with hs | hs
  · obtain ⟨p, hp, rfl⟩ := mem_map.mp hs
    exact (hall p hp).2.1
  · exact mem_singleton.mp hs ▸ hlast.2.1

/-- Whatever is toggled, and whichever writes fail, a write of the list that succeeds leaves only
packages of the user in the file. -/
theorem only_user_packages (apps : AppList) (page : Page) :
    Always (fun p e q => p.step apps e = some q) { page with running := none } fun p =>
      ∀ number call value replaced next, p.running = some (.app number call, value) →
        p.step apps (.finish 0 replaced) = some next → ∀ pkg ∈ next.written, pkg ∈ apps.userPackages := by
  refine .of_invariant (Valued apps) nofun (fun _ _ _ => valued_step) fun p hp number call value _ _
    hrun hstep => ?_
  obtain ⟨names, rfl, huser, -⟩ := hp number call value hrun
  rw [written_of_finish hrun hstep, commaItems_joinNames fun n hn => packageRe_of_user (huser n hn)]
  exact huser

def twoApps : AppList where
  userApps := [⟨"a.a", some 10010⟩, ⟨"b.b", some 10011⟩]
  appIdGroups := fun appId => if appId = 10010 then ["a.a"] else if appId = 10011 then ["b.b"] else []
  valid := by decide

def freshPage : Page := ⟨[], [], none, [], [], none⟩

theorem ToggleLemmas.loaded_freshPage : freshPage.Loaded := ⟨fun _ => Iff.rfl, rfl, rfl, rfl⟩

theorem ToggleLemmas.partitioned_twoApps : twoApps.Partitioned := by
  have hgroup : ∀ app ∈ twoApps.userApps, twoApps.groupOf app = [app.pkg] := by decide
  rintro app app' happ happ' ⟨pkg, hpkg, hpkg'⟩
  rw [hgroup app happ] at hpkg ⊢
  rw [hgroup app' happ'] at hpkg' ⊢
  rw [← mem_singleton.mp hpkg, ← mem_singleton.mp hpkg']
  exact fun _ => Iff.rfl

/-- The second app is toggled while the write of the first runs. -/
def savedEvents : List Event :=
  [.toggleApp "a.a" true, .start, .toggleApp "b.b" true, .finish 0 true, .start, .finish 0 true]

theorem ToggleLemmas.exec_savedEvents : (exec (Page.step twoApps) freshPage savedEvents).isSome = true := by
  decide +kernel

theorem saved_toggles_two :
    ∃ tr last, Steps twoApps freshPage tr last ∧ tr.map Prod.snd = savedEvents ∧
      last.written = ["a.a", "b.b"] ∧ (∀ p ∈ tr, KeepsToggle twoApps p.1 p.2) ∧ last.ShowsSaved twoApps := by
  obtain ⟨hrun, hlabels⟩ := run_exec_get exec_savedEvents
  have hfails : ∀ event ∈ savedEvents, ∀ page, FailsAlone page event := by simp [savedEvents, FailsAlone]
  obtain ⟨hkeeps, hshows⟩ := saved_toggles twoApps partitioned_twoApps loaded_freshPage
    (fun pkg hpkg => absurd hpkg not_mem_nil) hrun
    fun p hp => hfails p.2 (hlabels ▸ mem_map_of_mem hp) p.1
  exact ⟨_, _, hrun, hlabels, by decide +kernel, hkeeps, hshows _ (mem_visited_end _ _)⟩

/-- The write of the first app fails while the second one waits. -/
def lostEvents : List Event :=
  [.toggleApp "a.a" true, .start, .toggleApp "b.b" true, .finish 1 false, .start]

/-- The write of the second app then has an empty list, and is reported as saved. -/
theorem failed_write_drops_toggle :
    (exec (Page.step twoApps) freshPage lostEvents).map (·.2.running) =
      some (some (.app 1 ⟨["b.b"], true⟩, [])) ∧
    (exec (Page.step twoApps) freshPage (lostEvents ++ [.finish 0 true])).map (·.2.written) = some [] := by
  decide +kernel

end NyaZygisk.WebUi
