import NyaZygisk.AppToggles
import NyaZygisk.ExcludedApps

/-!
# What the WebUI shows and what the daemon does

`loadApps` of `script.js` reads `packages.list`, as `resolve_app_ids` of the daemon does, and groups the
packages by app id. The page shows an app as excluded if the app itself is in the list; the daemon excludes
an app id if all its packages are. A call of `toggleApp` changes a whole group, but the list that the page
begins with may have a part of one.
-/

namespace NyaZygisk.WebUi

open Exclude List Runs Text

/-! ## `packages.list` -/

/-- A line: the package, its uid in decimal, and what no one reads. -/
structure PackageLine where
  name : List Char
  digits : List Char
  uid : Nat
  rest : List Char
  name_ne : name ≠ []
  name_chars : ∀ c ∈ name, isNameChar c = true
  digits_ne : digits ≠ []
  digits_value : digitsFrom 0 digits = some uid
  uid_lt : uid < 2 ^ 32
  rest_line : '\n' ∉ rest ∧ '\r' ∉ rest

def PackageLine.text (line : PackageLine) : List Char := line.name ++ ' ' :: (line.digits ++ ' ' :: line.rest)

def PackageLine.package (line : PackageLine) : String := String.ofList line.name

def PackageLine.appId (line : PackageLine) : Nat := line.uid % 100000

def packagesList (ls : List PackageLine) : List Char := Lines.render '\n' (ls.map PackageLine.text)

/-! ## `loadApps` -/

/-- `cut -d' ' -f1,2` for a line. A line without a blank is passed on. -/
def cutLine (line : List Char) : List Char := [' '].intercalate ((split ' ' line).take 2)

/-- What the loop takes from a line; `Number` is applied to decimal numerals only. -/
def uidEntry (line : List Char) : Option (String × Nat) :=
  match splitWhitespace line with
  | pkg :: uid :: _ => (digitsFrom 0 uid).map fun uid => (String.ofList pkg, uid % 100000)
  | _ => none

def entriesOf (list : List Char) : List (String × Nat) :=
  ((split '\n' list).map cutLine).filterMap uidEntry

/-- A line of `pm list packages -3`. -/
def packageOf (line : List Char) : String :=
  let line := trim line
  String.ofList ((stripPrefix "package:".toList line).getD line)

def packagesFrom (pm : List Char) : List String := ((split '\n' pm).map packageOf).filter packageRe

/-- `appIdOf`: a later line of a package replaces an earlier one. -/
def appIdOf (entries : List (String × Nat)) (pkg : String) : Option Nat :=
  (entries.reverse.find? (·.1 = pkg)).map (·.2)

def inRange (appId : Nat) : Bool := 10000 ≤ appId && appId ≤ 19999

def groupsOf (entries : List (String × Nat)) (appId : Nat) : List String :=
  if inRange appId then (entries.filter (·.2 = appId)).map (·.1) else []

def loadApps (pm list : List Char) : AppList where
  userApps := (packagesFrom pm).map fun pkg => ⟨pkg, appIdOf (entriesOf list) pkg⟩
  appIdGroups := groupsOf (entriesOf list)
  valid := by
    intro app happ
    obtain ⟨pkg, hpkg, rfl⟩ := mem_map.mp happ
    exact (mem_filter.mp hpkg).2

/-! ## What is shown, and what is done -/

/-- The box of the app is checked, and it is not locked. -/
def AppList.shown (apps : AppList) (page : Page) (app : UserApp) : Bool :=
  page.excludedApps.contains app.pkg && !apps.isLocked app

/-- The daemon excludes the app id of the app. -/
def excludedByDaemon (list : List Char) (page : Page) (app : UserApp) : Bool :=
  match app.appId with
  | some appId => resolveAppIds page.written ⟨none, some (String.ofList list)⟩ (UInt32.ofNat appId)
  | none => false

/-- The call that an event makes, if it is not refused. -/
def AppList.callOf (apps : AppList) : Event → Option Call
  | .toggleApp pkg excluded =>
    if apps.isLocked (apps.findApp pkg) then none else some ⟨apps.groupOf (apps.findApp pkg), excluded⟩
  | _ => none

def callsOf (apps : AppList) (events : List Event) : List Call := events.filterMap apps.callOf

/-- What the last call for a package asked, or the saved list if there was none. -/
def wanted (saved : List String) (calls : List Call) (pkg : String) : Bool :=
  match calls.reverse.find? (·.group.contains pkg) with
  | some call => call.excluded
  | none => saved.contains pkg

/-- A call, the start of a write, or a write that succeeds. -/
def Event.succeeds : Event → Bool
  | .toggleApp .. => true
  | .start => true
  | .finish code _ => code = 0
  | .saveToggle .. => false

/-- The page is loaded from the list that is in the file. -/
structure Page.LoadedFromFile (page : Page) : Prop extends page.Loaded where
  fromFile : ∀ pkg, pkg ∈ page.written ↔ pkg ∈ page.savedExcluded

/-- For an app that can be toggled and that is to be excluded, the app id is one of an app and all
its packages are to be excluded. For one that is locked, a call was made or not all its packages
were saved. -/
structure ShownTruly (apps : AppList) (saved : List String) (calls : List Call) (app : UserApp) : Prop where
  unlocked : apps.isLocked app = false → wanted saved calls app.pkg = true →
    (∃ appId, app.appId = some appId ∧ inRange appId = true) ∧
      ∀ pkg ∈ apps.groupOf app, wanted saved calls pkg = true
  locked : apps.isLocked app = true → calls = [] → ∃ pkg, pkg ∈ apps.groupOf app ∧ pkg ∉ saved

namespace ShownLemmas

open ToggleLemmas ConfigFileLemmas ExcludedAppsLemmas

/-! ### Lines -/

theorem isDigit_of_digitsFrom {digits : List Char} {acc n : Nat} (h : digitsFrom acc digits = some n) :
    ∀ c ∈ digits, c.isDigit = true := by
  induction digits generalizing acc with
  | nil => exact fun c hc => nomatch hc
  | cons d digits ih =>
    rw [digitsFrom] at h
    by_cases hd : d.isDigit = true
    · rw [if_pos hd] at h
      exact forall_mem_cons.mpr ⟨hd, ih h⟩
    · rw [if_neg hd] at h
      cases h

theorem nameChar_of_isDigit {c : Char} (h : c.isDigit = true) : isNameChar c = true := by
  rw [isNameChar, Char.isAlphanum, h, Bool.or_true, Bool.true_or, Bool.true_or]

theorem isWhitespace_of_nameChar {c : Char} (h : isNameChar c = true) : isWhitespace c = false :=
  (lineChar_of_value (valueChar_of_nameChar h)).1.isWhitespace

theorem ne_of_nameChar {c d : Char} (h : isNameChar c = true) (hd : isNameChar d = false) : c ≠ d := by
  rintro rfl
  rw [h] at hd
  cases hd

theorem not_isEmpty {field : List Char} (h : field ≠ []) : (!field.isEmpty) = true := by
  rw [isEmpty_eq_false_iff.mpr h, Bool.not_false]

section Fields

variable {field : List Char} (hfield : ∀ c ∈ field, isNameChar c = true)

include hfield

theorem split_field (rest : List Char) : split ' ' (field ++ ' ' :: rest) = field :: split ' ' rest :=
  splitOnP_append_cons_of_forall_mem
    (fun c hc => beq_eq_false_iff_ne.mpr (ne_of_nameChar (hfield c hc) (by decide))) ' ' rfl rest

theorem splitWhitespace_field (hne : field ≠ []) (rest : List Char) :
    splitWhitespace (field ++ ' ' :: rest) = field :: splitWhitespace rest := by
  rw [splitWhitespace, splitOnP_append_cons_of_forall_mem
    (fun c hc => isWhitespace_of_nameChar (hfield c hc)) ' ' (by decide) rest]
  exact filter_cons_of_pos (p := fun piece : List Char => !piece.isEmpty) (not_isEmpty hne)

theorem splitWhitespace_last (hne : field ≠ []) : splitWhitespace field = [field] := by
  rw [splitWhitespace, splitOnP_eq_singleton fun c hc => isWhitespace_of_nameChar (hfield c hc)]
  exact filter_cons_of_pos (p := fun piece : List Char => !piece.isEmpty) (not_isEmpty hne)

theorem not_mem_field {d : Char} (hd : isNameChar d = false) : d ∉ field := fun hmem =>
  ne_of_nameChar (hfield d hmem) hd rfl

end Fields

theorem digits_chars (line : PackageLine) : ∀ c ∈ line.digits, isNameChar c = true := fun c hc =>
  nameChar_of_isDigit (isDigit_of_digitsFrom line.digits_value c hc)

theorem not_mem_text (line : PackageLine) {d : Char} (hd : isNameChar d = false) (hblank : d ≠ ' ')
    (hrest : d ∉ line.rest) : d ∉ line.text := by
  rw [PackageLine.text, mem_append, mem_cons, mem_append, mem_cons]
  rintro (h | h | h | h | h)
  · exact not_mem_field line.name_chars hd h
  · exact hblank h
  · exact not_mem_field (digits_chars line) hd h
  · exact hblank h
  · exact hrest h

/-- The page reads the package and the app id of a line. -/
theorem uidEntry_cutLine (line : PackageLine) :
    uidEntry (cutLine line.text) = some (line.package, line.appId) := by
  have hcut : cutLine line.text = line.name ++ ' ' :: line.digits := by
    rw [cutLine, PackageLine.text, split_field line.name_chars, split_field (digits_chars line)]
    rw [take_succ_cons, take_succ_cons, take_zero, intercalate_cons_cons,
      intercalate_singleton, append_assoc, singleton_append]
  rw [hcut, uidEntry, splitWhitespace_field line.name_chars line.name_ne,
    splitWhitespace_last (digits_chars line) line.digits_ne]
  simp only [line.digits_value, Option.map_some]
  rfl

theorem entriesOf_list (ls : List PackageLine) :
    entriesOf (packagesList ls) = ls.map fun line => (line.package, line.appId) := by
  rw [packagesList]
  induction ls with
  | nil => rfl
  | cons line ls ih =>
    have hline : ∀ c ∈ line.text, (c == '\n') = false := fun c hc => beq_eq_false_iff_ne.mpr <| by
      rintro rfl
      exact not_mem_text line (by decide) (by decide) line.rest_line.1 hc
    have hsplit : split '\n' (line.text ++ '\n' :: Lines.render '\n' (ls.map PackageLine.text)) =
        line.text :: split '\n' (Lines.render '\n' (ls.map PackageLine.text)) :=
      splitOnP_append_cons_of_forall_mem hline '\n' rfl _
    rw [map_cons, Lines.render_cons, entriesOf, hsplit, map_cons,
      filterMap_cons_some (uidEntry_cutLine line), map_cons, ← ih]
    rfl

theorem parseU32_digits (line : PackageLine) : parseU32 line.digits = some (UInt32.ofNat line.uid) := by
  have hplus : '+' ∉ line.digits := not_mem_field (digits_chars line) (by decide)
  have hempty : line.digits.isEmpty = false := isEmpty_eq_false_iff.mpr line.digits_ne
  unfold parseU32
  split
  · next heq => exact absurd (heq ▸ mem_cons_self) hplus
  · simp only [hempty, line.digits_value, if_pos line.uid_lt, Bool.false_eq_true, if_false]

theorem parseLine_text (line : PackageLine) :
    parseLine line.text = some (line.package, UInt32.ofNat line.uid % perUserRange) := by
  rw [parseLine, PackageLine.text, splitWhitespace_field line.name_chars line.name_ne,
    splitWhitespace_field (digits_chars line) line.digits_ne]
  simp only [parseU32_digits, Option.map_some]
  rfl

theorem lines_list (ls : List PackageLine) : lines (packagesList ls) = ls.map PackageLine.text := by
  rw [packagesList]
  induction ls with
  | nil => rfl
  | cons line ls ih =>
    rw [map_cons, Lines.render_cons, lines,
      linesFrom_line (not_mem_text line (by decide) (by decide) line.rest_line.1)
      (not_mem_text line (by decide) (by decide) line.rest_line.2) not_mem_nil, ih]
    rfl

variable {appId : Nat}

theorem ofNat_appId_eq_iff (line : PackageLine) (h : appId < 100000) :
    UInt32.ofNat line.uid % perUserRange = UInt32.ofNat appId ↔ line.appId = appId := by
  have hlt : appId < UInt32.size := Nat.lt_trans h (by decide)
  rw [← UInt32.toNat_inj, UInt32.toNat_mod, UInt32.toNat_ofNat_of_lt' line.uid_lt,
    UInt32.toNat_ofNat_of_lt' hlt]
  rfl

theorem hasLine_iff (ls : List PackageLine) (pkg : String) (h : appId < 100000) :
    HasLine (String.ofList (packagesList ls)) pkg (UInt32.ofNat appId) ↔
      ∃ line ∈ ls, line.package = pkg ∧ line.appId = appId := by
  rw [HasLine, String.toList_ofList, lines_list]
  constructor
  · rintro ⟨l, hl, hparse⟩
    obtain ⟨line, hline, rfl⟩ := mem_map.mp hl
    rw [parseLine_text] at hparse
    obtain ⟨hpkg, hid⟩ := Prod.mk.inj (Option.some.inj hparse)
    exact ⟨line, hline, hpkg, (ofNat_appId_eq_iff line h).mp hid⟩
  · rintro ⟨line, hline, rfl, hid⟩
    exact ⟨line.text, mem_map_of_mem hline, by rw [parseLine_text, (ofNat_appId_eq_iff line h).mpr hid]⟩

/-! ### App ids and groups -/

theorem inRange_iff : inRange appId = true ↔ 10000 ≤ appId ∧ appId ≤ 19999 := by
  rw [inRange, Bool.and_eq_true, decide_eq_true_iff, decide_eq_true_iff]

theorem isAppId_ofNat (h : appId < 100000) :
    isAppId (UInt32.ofNat appId) = true ↔ inRange appId = true := by
  have hlt : appId < UInt32.size := Nat.lt_trans h (by decide)
  rw [isAppId_iff, inRange_iff, UInt32.le_iff_toNat_le, UInt32.le_iff_toNat_le, UInt32.toNat_ofNat_of_lt' hlt]
  rfl

/-- The daemon excludes an app id of an app that has a line and whose packages are all in the list. -/
theorem resolve_iff (packages : List String) (ls : List PackageLine) (h : appId < 100000) :
    resolveAppIds packages ⟨none, some (String.ofList (packagesList ls))⟩ (UInt32.ofNat appId) = true ↔
      inRange appId = true ∧ (∃ line ∈ ls, line.appId = appId) ∧
        ∀ line ∈ ls, line.appId = appId → line.package ∈ packages := by
  constructor
  · intro hres
    have happ := isAppId_of_resolveAppIds hres
    obtain ⟨-, ⟨pkg, hpkg⟩, hall⟩ := (resolveAppIds_iff rfl packages happ).mp hres
    obtain ⟨line, hline, -, hid⟩ := (hasLine_iff ls pkg h).mp hpkg
    refine ⟨(isAppId_ofNat h).mp happ, ⟨line, hline, hid⟩, fun line hline hid => ?_⟩
    exact hall _ ((hasLine_iff ls _ h).mpr ⟨line, hline, rfl, hid⟩)
  · rintro ⟨hrange, ⟨line, hline, hid⟩, hall⟩
    have happ := (isAppId_ofNat h).mpr hrange
    refine (resolveAppIds_iff rfl packages happ).mpr
      ⟨isAppId_iff.mp happ, ⟨_, (hasLine_iff ls _ h).mpr ⟨line, hline, rfl, hid⟩⟩, fun pkg hpkg => ?_⟩
    obtain ⟨line, hline, rfl, hid⟩ := (hasLine_iff ls pkg h).mp hpkg
    exact hall line hline hid

theorem exists_of_locked {apps : AppList} {app : UserApp} (h : apps.isLocked app = true) :
    ∃ pkg ∈ apps.groupOf app, pkg ∉ apps.userPackages := by
  obtain ⟨pkg, hpkg, hnot⟩ := any_eq_true.mp h
  rw [Bool.not_eq_true', ← Bool.not_eq_true, contains_iff_mem] at hnot
  exact ⟨pkg, hpkg, hnot⟩

section Loaded

variable {pm : List Char} {ls : List PackageLine} {app : UserApp}

theorem mem_groupsOf {pkg : String} {appId : Nat} (h : inRange appId = true) :
    pkg ∈ groupsOf (entriesOf (packagesList ls)) appId ↔ ∃ line ∈ ls, line.package = pkg ∧
      line.appId = appId := by
  rw [groupsOf, if_pos h, entriesOf_list, mem_map]
  constructor
  · rintro ⟨entry, hentry, rfl⟩
    obtain ⟨hmem, hid⟩ := mem_filter.mp hentry
    obtain ⟨line, hline, rfl⟩ := mem_map.mp hmem
    exact ⟨line, hline, rfl, of_decide_eq_true hid⟩
  · rintro ⟨line, hline, rfl, hid⟩
    exact ⟨(line.package, line.appId), mem_filter.mpr ⟨mem_map_of_mem hline, decide_eq_true hid⟩, rfl⟩

theorem line_of_appId (happ : app ∈ (loadApps pm (packagesList ls)).userApps) {appId : Nat}
    (hid : app.appId = some appId) : ∃ line ∈ ls, line.package = app.pkg ∧ line.appId = appId := by
  obtain ⟨pkg, -, rfl⟩ := mem_map.mp happ
  obtain ⟨entry, hfind, rfl⟩ := Option.map_eq_some_iff.mp hid
  have hmem := mem_reverse.mp (mem_of_find?_eq_some hfind)
  rw [entriesOf_list] at hmem
  obtain ⟨line, hline, rfl⟩ := mem_map.mp hmem
  have hpkg := find?_some hfind
  exact ⟨line, hline, of_decide_eq_true hpkg, rfl⟩

theorem groupOf_inRange (happ : app ∈ (loadApps pm (packagesList ls)).userApps) {appId : Nat}
    (hid : app.appId = some appId) (hrange : inRange appId = true) :
    (loadApps pm (packagesList ls)).groupOf app = groupsOf (entriesOf (packagesList ls)) appId := by
  have hne : groupsOf (entriesOf (packagesList ls)) appId ≠ [] :=
    ne_nil_of_mem ((mem_groupsOf hrange).mpr (line_of_appId happ hid))
  rw [AppList.groupOf, hid]
  exact if_pos hne

theorem groupOf_outside (hout : ¬ ∃ appId, app.appId = some appId ∧ inRange appId = true) :
    (loadApps pm (packagesList ls)).groupOf app = [app.pkg] := by
  rw [AppList.groupOf]
  split
  · next appId hid =>
    have hnil : groupsOf (entriesOf (packagesList ls)) appId = [] := if_neg fun hrange =>
      hout ⟨appId, hid, hrange⟩
    exact if_neg (not_not.mpr hnil)
  · rfl

theorem self_mem_groupOf (happ : app ∈ (loadApps pm (packagesList ls)).userApps) :
    app.pkg ∈ (loadApps pm (packagesList ls)).groupOf app := by
  by_cases hout : ∃ appId, app.appId = some appId ∧ inRange appId = true
  · obtain ⟨appId, hid, hrange⟩ := hout
    rw [groupOf_inRange happ hid hrange]
    exact (mem_groupsOf hrange).mpr (line_of_appId happ hid)
  · rw [groupOf_outside hout]
    exact mem_cons_self

theorem inRange_of_locked (happ : app ∈ (loadApps pm (packagesList ls)).userApps)
    (hlocked : (loadApps pm (packagesList ls)).isLocked app = true) :
    ∃ appId, app.appId = some appId ∧ inRange appId = true := by
  by_contra hout
  obtain ⟨pkg, hpkg, hnot⟩ := exists_of_locked hlocked
  rw [groupOf_outside hout, mem_singleton] at hpkg
  exact hnot (hpkg ▸ mem_map_of_mem happ)

/-- What the daemon does, by the groups of the page. -/
theorem excludedByDaemon_iff (happ : app ∈ (loadApps pm (packagesList ls)).userApps) (page : Page) :
    excludedByDaemon (packagesList ls) page app = true ↔
      (∃ appId, app.appId = some appId ∧ inRange appId = true) ∧
        ∀ pkg ∈ (loadApps pm (packagesList ls)).groupOf app, pkg ∈ page.written := by
  rw [excludedByDaemon]
  split
  · next appId hid =>
    obtain ⟨line, hline, hpkg, hlid⟩ := line_of_appId happ hid
    have hlt : appId < 100000 := hlid ▸ Nat.mod_lt _ (by decide)
    rw [resolve_iff _ _ hlt]
    constructor
    · rintro ⟨hrange, -, hall⟩
      refine ⟨⟨appId, hid, hrange⟩, fun pkg hmem => ?_⟩
      rw [groupOf_inRange happ hid hrange] at hmem
      obtain ⟨line, hline, rfl, hlid⟩ := (mem_groupsOf hrange).mp hmem
      exact hall line hline hlid
    · rintro ⟨⟨appId', hid', hrange⟩, hall⟩
      obtain rfl := Option.some.inj (hid.symm.trans hid')
      refine ⟨hrange, ⟨line, hline, hlid⟩, fun line hline hlid => hall _ ?_⟩
      rw [groupOf_inRange happ hid hrange]
      exact (mem_groupsOf hrange).mpr ⟨line, hline, rfl, hlid⟩
  · next hid =>
    refine iff_of_false Bool.false_ne_true fun h => ?_
    obtain ⟨⟨appId, hid', -⟩, -⟩ := h
    cases hid.symm.trans hid'

end Loaded

/-! ### Runs -/

section Followed

variable {apps : AppList} {start page next : Page}

theorem wanted_nil (saved : List String) (pkg : String) : wanted saved [] pkg = true ↔ pkg ∈ saved :=
  contains_iff_mem

theorem wanted_concat (saved : List String) (calls : List Call) (call : Call) (pkg : String) :
    wanted saved (calls ++ [call]) pkg = if pkg ∈ call.group then call.excluded else wanted saved
      calls pkg := by
  rw [wanted, reverse_append, reverse_singleton, singleton_append]
  by_cases hpkg : pkg ∈ call.group
  · rw [find?_cons_of_pos (by exact contains_iff_mem.mpr hpkg), if_pos hpkg]
  · rw [find?_cons_of_neg (by exact mt contains_iff_mem.mp hpkg), if_neg hpkg, wanted]

/-- Where calls and writes that succeed lead from the page that was loaded. -/
structure Followed (apps : AppList) (start page : Page) : Prop where
  valued : Valued apps page
  shown : ∀ pkg, pkg ∈ page.excludedApps ↔ wanted start.savedExcluded page.calls pkg = true
  queue : ∀ write ∈ page.queue, write.isApp = true
  running : ∀ write value, page.running = some (write, value) → write.isApp = true
  idle : page.calls = [] → page.queue = [] ∧ page.running = none ∧ page.file = start.file
  done : page.calls ≠ [] → page.queue = [] → page.running = none →
    ∀ pkg, pkg ∈ page.written ↔ pkg ∈ page.excludedApps ∧ pkg ∈ apps.userPackages

theorem followed_loaded (h : start.Loaded) : Followed apps start start where
  valued := valued_loaded h
  shown pkg := by rw [h.shown, h.calls, wanted_nil]
  queue write hwrite := absurd (h.queue ▸ hwrite) not_mem_nil
  running write value heq := nomatch h.running.symm.trans heq
  idle _ := ⟨h.queue, h.running, rfl⟩
  done hne := absurd h.calls hne

theorem followed_called (h : Followed apps start page) {call : Call}
    (hvalued : Valued apps (page.called call)) :
    Followed apps start (page.called call) where
  valued := hvalued
  shown pkg := by
    rw [Page.called, mem_toggled, wanted_concat]
    split
    · exact Iff.rfl
    · exact h.shown pkg
  queue write hwrite := by
    rcases mem_append.mp hwrite with hwrite | hwrite
    · exact h.queue write hwrite
    · exact mem_singleton.mp hwrite ▸ rfl
  running := h.running
  idle hnil := absurd hnil (concat_ne_nil _ _)
  done _ hnil := absurd hnil (concat_ne_nil _ _)

/-- The write that ends has what is shown, if no other one waits. -/
theorem followed_finished (h : Followed apps start page) {number : Nat} {call : Call} {value : List Char}
    {replaced : Bool} (hrunning : page.running = some (.app number call, value))
    (hstep : page.step apps (.finish 0 replaced) = some next) : Followed apps start next := by
  obtain ⟨names, rfl, huser, hnames⟩ := h.valued number call value hrunning
  have hwritten := written_of_finish hrunning hstep
  rw [commaItems_joinNames fun n hn => packageRe_of_user (huser n hn)] at hwritten
  have hvalued := valued_step h.valued hstep
  cases moves_of_step hstep with
  | finished hrunning' haccepted =>
    cases hrunning.symm.trans hrunning'
    rw [Page.completed, if_neg (not_not.mpr rfl)] at hwritten hvalued ⊢
    refine ⟨hvalued, h.shown, h.queue, fun _ _ heq => ?_, fun hnil => ?_, fun _ hqueue _ pkg => ?_⟩
    · cases heq
    · cases (h.idle hnil).2.1.symm.trans hrunning
    · rw [hwritten]
      refine hnames (fun write hwrite => ?_) pkg
      rw [show page.queue = [] from hqueue] at hwrite
      cases hwrite

theorem followed_step (h : Followed apps start page) {event : Event} (hok : event.succeeds = true)
    (hstep : page.step apps event = some next) : Followed apps start next := by
  have hvalued := valued_step h.valued hstep
  cases moves_of_step hstep with
  | refused => exact h
  | called hunlocked => exact followed_called h hvalued
  | queued value => cases hok
  | @started write rest hrunning hqueue =>
    have hmem : ∀ w ∈ write :: rest, w.isApp = true := fun w hw => h.queue w (hqueue ▸ hw)
    refine ⟨hvalued, h.shown, fun w hw => hmem w (mem_cons_of_mem _ hw), fun w value heq => ?_,
      fun hnil => ?_, fun _ _ heq => nomatch heq⟩
    · cases heq
      exact hmem _ mem_cons_self
    · cases (h.idle hnil).1.symm.trans hqueue
  | @finished write value code replaced hrunning haccepted =>
    obtain rfl : code = 0 := of_decide_eq_true hok
    cases write with
    | app number call => exact followed_finished h hrunning hstep
    | setting key value' => cases h.running _ _ hrunning

theorem calls_step {event : Event} (hstep : page.step apps event = some next) :
    next.calls = page.calls ++ (apps.callOf event).toList := by
  cases event with
  | toggleApp pkg excluded =>
    rw [Page.step] at hstep
    rw [AppList.callOf]
    by_cases hlocked : apps.isLocked (apps.findApp pkg) = true
    · rw [if_pos hlocked] at hstep ⊢
      rw [← Option.some.inj hstep, Option.toList_none, append_nil]
    · rw [if_neg hlocked] at hstep ⊢
      exact Option.some.inj hstep ▸ rfl
  | saveToggle key enabled | start =>
    cases moves_of_step hstep
    exact (append_nil _).symm
  | finish code replaced =>
    refine Eq.trans ?_ (append_nil _).symm
    cases moves_of_step hstep with
    | @finished write value _ _ hrunning haccepted =>
      cases write with
      | app number call =>
        rw [Page.completed]
        split <;> rfl
      | setting key value' => rfl

theorem callsOf_concat (events : List Event) (event : Event) :
    callsOf apps (events ++ [event]) = callsOf apps events ++ (apps.callOf event).toList := by
  rw [callsOf, filterMap_append, filterMap_cons]
  cases apps.callOf event <;> rfl

/-- The calls of a run are those of its events that are not refused. -/
theorem calls_of_run {last : Page} {tr : List (Page × Event)} (hrun : Steps apps page tr last) :
    last.calls = page.calls ++ callsOf apps (tr.map Prod.snd) := by
  induction hrun with
  | refl => exact (append_nil _).symm
  | snoc _ hstep ih =>
    rw [calls_step hstep, ih, append_assoc, ← callsOf_concat, map_append]
    rfl

end Followed

section Done

variable {apps : AppList} {start page : Page} (hstart : start.LoadedFromFile) (h : Followed apps start page)

include hstart h

theorem mem_written_of_idle (hcalls : page.calls = []) (pkg : String) :
    pkg ∈ page.written ↔ pkg ∈ start.savedExcluded := by
  rw [← hstart.fromFile, Page.written, Page.written, (h.idle hcalls).2.2]

variable (hqueue : page.queue = []) (hrunning : page.running = none)

include hqueue hrunning

/-- What is in the file once the writes are done, for a package of the user. -/
theorem mem_written_of_user {pkg : String} (huser : pkg ∈ apps.userPackages) :
    pkg ∈ page.written ↔ wanted start.savedExcluded page.calls pkg = true := by
  by_cases hcalls : page.calls = []
  · rw [mem_written_of_idle hstart h hcalls, hcalls, wanted_nil]
  · rw [h.done hcalls hqueue hrunning, and_iff_left huser, h.shown]

variable {app : UserApp}

/-- A group that can be toggled is in the file if all of it is to be excluded. -/
theorem group_written_of_unlocked (hlocked : apps.isLocked app = false) :
    (∀ pkg ∈ apps.groupOf app, pkg ∈ page.written) ↔
      ∀ pkg ∈ apps.groupOf app, wanted start.savedExcluded page.calls pkg = true :=
  forall₂_congr fun _ hpkg => mem_written_of_user hstart h hqueue hrunning (user_of_unlocked hlocked hpkg)

/-- A locked group is in the file if nothing was written and all of it was saved. -/
theorem group_written_of_locked (hlocked : apps.isLocked app = true) :
    (∀ pkg ∈ apps.groupOf app, pkg ∈ page.written) ↔
      page.calls = [] ∧ ∀ pkg ∈ apps.groupOf app, pkg ∈ start.savedExcluded := by
  constructor
  · intro hall
    have hcalls : page.calls = [] := by
      by_contra hne
      obtain ⟨pkg, hpkg, hnot⟩ := exists_of_locked hlocked
      exact hnot ((h.done hne hqueue hrunning pkg).mp (hall pkg hpkg)).2
    exact ⟨hcalls, fun pkg hpkg => (mem_written_of_idle hstart h hcalls pkg).mp (hall pkg hpkg)⟩
  · rintro ⟨hcalls, hall⟩ pkg hpkg
    exact (mem_written_of_idle hstart h hcalls pkg).mpr (hall pkg hpkg)

end Done

end ShownLemmas

open ShownLemmas

/-- Once the writes are done, an app is shown as the daemon treats its app id exactly if it is
`ShownTruly`. -/
theorem shown_iff_excluded_iff (pm : List Char) (ls : List PackageLine) {start last : Page}
    (hstart : start.LoadedFromFile) {tr : List (Page × Event)}
    (hrun : Steps (loadApps pm (packagesList ls)) start tr last) (hok : ∀ p ∈ tr, p.2.succeeds = true)
    (hqueue : last.queue = []) (hrunning : last.running = none) {app : UserApp}
    (happ : app ∈ (loadApps pm (packagesList ls)).userApps) :
    ((loadApps pm (packagesList ls)).shown last app = true ↔
      excludedByDaemon (packagesList ls) last app = true) ↔
      ShownTruly (loadApps pm (packagesList ls)) start.savedExcluded
        (callsOf (loadApps pm (packagesList ls)) (tr.map Prod.snd)) app := by
  have hcalls := calls_of_run hrun
  rw [hstart.calls, nil_append] at hcalls
  have h := ((hrun.restrict (fun _ event => event.succeeds = true) hok).invariant
    (Followed (loadApps pm (packagesList ls)) start)
    (fun _ _ _ h ⟨hok, hstep⟩ => followed_step h hok hstep) (followed_loaded hstart.toLoaded)).1
  rw [excludedByDaemon_iff happ, AppList.shown, Bool.and_eq_true, contains_iff_mem, h.shown,
    Bool.not_eq_true',
    ← hcalls]
  cases hlocked : (loadApps pm (packagesList ls)).isLocked app with
  | false =>
    rw [group_written_of_unlocked hstart h hqueue hrunning hlocked, and_iff_left rfl]
    constructor
    · intro hiff
      exact ⟨fun _ => hiff.mp, fun hlocked' => Bool.noConfusion (hlocked.symm.trans hlocked')⟩
    · intro htruly
      exact ⟨htruly.unlocked hlocked, fun hall => hall.2 app.pkg (self_mem_groupOf happ)⟩
  | true =>
    rw [group_written_of_locked hstart h hqueue hrunning hlocked,
      and_iff_right (inRange_of_locked happ hlocked)]
    constructor
    · intro hiff
      refine ⟨fun hunlocked => Bool.noConfusion (hlocked.symm.trans hunlocked), fun _ hnil => ?_⟩
      by_contra hno
      exact Bool.noConfusion (hiff.mpr ⟨hnil, fun pkg hpkg => by_contra fun hout => hno ⟨pkg, hpkg, hout⟩⟩).2
    · intro htruly
      refine iff_of_false (fun hand => Bool.noConfusion hand.2) fun hall => ?_
      obtain ⟨pkg, hpkg, hout⟩ := htruly.locked hlocked hall.1
      exact hout (hall.2 pkg hpkg)

/-- A line for a package without permissions of its own. -/
def PackageLine.plain (name digits : List Char) (uid : Nat) (hname : name ≠ [] ∧ name.all isNameChar = true)
    (hdigits : digits ≠ [] ∧ digitsFrom 0 digits = some uid ∧ uid < 2 ^ 32) : PackageLine where
  name := name
  digits := digits
  uid := uid
  rest := ['0']
  name_ne := hname.1
  name_chars := all_eq_true.mp hname.2
  digits_ne := hdigits.1
  digits_value := hdigits.2.1
  uid_lt := hdigits.2.2
  rest_line := by decide

/-- Two packages share an app id. -/
def sharedLines : List PackageLine :=
  [.plain "a.a".toList "10010".toList 10010 (by decide) (by decide),
    .plain "b.b".toList "10010".toList 10010 (by decide) (by decide),
    .plain "c.c".toList "10011".toList 10011 (by decide) (by decide)]

def sharedApps : AppList :=
  loadApps "package:a.a\npackage:b.b\npackage:c.c\n".toList (packagesList sharedLines)

def partSaved : Page := ⟨["a.a"], ["a.a"], some "exclude_apps=a.a\n".toList, [], [], none⟩

theorem ShownLemmas.loaded_partSaved : partSaved.LoadedFromFile where
  shown _ := Iff.rfl
  calls := rfl
  queue := rfl
  running := rfl
  fromFile pkg := by
    have hwritten : partSaved.written = ["a.a"] := by decide +kernel
    rw [hwritten]
    rfl

def sharedEvents : List Event := [.toggleApp "b.b" true, .start, .finish 0 true]

theorem ShownLemmas.exec_sharedEvents :
    (exec (Page.step sharedApps) partSaved sharedEvents).isSome = true := by
  decide +kernel

/-- A call for the other one excludes both. -/
theorem shown_iff_excluded_shared :
    ∃ tr last, Steps sharedApps partSaved tr last ∧ tr.map Prod.snd = sharedEvents ∧
      sharedApps.shown last ⟨"a.a", some 10010⟩ = true ∧
      excludedByDaemon (packagesList sharedLines) last ⟨"a.a", some 10010⟩ = true ∧
      ShownTruly sharedApps partSaved.savedExcluded (callsOf sharedApps (tr.map Prod.snd))
        ⟨"a.a", some 10010⟩ := by
  obtain ⟨hrun, hlabels⟩ := run_exec_get exec_sharedEvents
  have hok : ∀ event ∈ sharedEvents, event.succeeds = true := by decide
  have hshown :
    sharedApps.shown ((exec (Page.step sharedApps) partSaved sharedEvents).get exec_sharedEvents).2
      ⟨"a.a", some 10010⟩ = true := by decide +kernel
  have hdaemon : excludedByDaemon (packagesList sharedLines)
      ((exec (Page.step sharedApps) partSaved sharedEvents).get exec_sharedEvents).2
        ⟨"a.a", some 10010⟩ = true := by
    decide +kernel
  have htruly :=
    (shown_iff_excluded_iff "package:a.a\npackage:b.b\npackage:c.c\n".toList sharedLines loaded_partSaved
    hrun (fun p hp => hok p.2 (hlabels ▸ mem_map_of_mem hp)) (by decide +kernel) (by decide +kernel)
    (by decide +kernel)).mp (iff_of_true hshown hdaemon)
  exact ⟨_, _, hrun, hlabels, hshown, hdaemon, htruly⟩

/-- A call for a third package leaves the one that was saved on the page, and its app id not excluded. -/
theorem part_of_group_shown :
    partSaved.LoadedFromFile ∧ ⟨"a.a", some 10010⟩ ∈ sharedApps.userApps ∧
    (exec (Page.step sharedApps) partSaved [.toggleApp "c.c" true, .start, .finish 0 true]).map
        (fun run => (run.2.queue, run.2.running, sharedApps.shown run.2 ⟨"a.a", some 10010⟩,
          excludedByDaemon (packagesList sharedLines) run.2 ⟨"a.a", some 10010⟩)) =
      some ([], none, true, false) :=
  ⟨loaded_partSaved, by decide +kernel, by decide +kernel⟩

end NyaZygisk.WebUi
