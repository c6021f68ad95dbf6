import NyaZygisk.Exclude

/-!
# Which apps are excluded

`resolve_app_ids` counts the packages of every app id, and `lookup` answers for an
app id if all of them are excluded. Here the counts are related to the lines of
`packages.list` that they count.
-/

namespace NyaZygisk.Exclude

open List Text

/-! ## Lines of `packages.list` -/

/-- What `resolve_app_ids` takes from a line that it can parse: a package and its
app id. -/
def parseLine (line : List Char) : Option (String × UInt32) :=
  match splitWhitespace line with
  | name :: uid :: _ => (parseU32 uid).map fun uid => (String.ofList name, uid % perUserRange)
  | _ => none

def packagesOf (appId : UInt32) (ls : List (List Char)) : List String :=
  (ls.filterMap parseLine).filterMap fun entry => if entry.2 = appId then some entry.1 else none

/-- Some line of the text names this package and has this app id. -/
def HasLine (text : String) (package : String) (appId : UInt32) : Prop :=
  ∃ line, line ∈ lines text.toList ∧ parseLine line = some (package, appId)

/-- All packages of the app id are excluded, and there is one. -/
structure AllExcluded (packages : List String) (text : String) (appId : UInt32) : Prop where
  isApp : 10000 ≤ appId ∧ appId ≤ 19999
  hasLine : ∃ package, HasLine text package appId
  excluded : ∀ package, HasLine text package appId → package ∈ packages

/-! ## Counting -/

/-- The entry of an app id with these packages in `by_app_id`. -/
def tally (packages names : List String) : Option (Nat × Nat) :=
  if names = [] then none else some (names.length, names.countP packages.contains)

namespace ExcludedAppsLemmas

variable {appId : UInt32}

theorem mem_packagesOf {text package : String} :
    package ∈ packagesOf appId (lines text.toList) ↔ HasLine text package appId := by
  simp only [packagesOf, HasLine, mem_filterMap]
  constructor
  · rintro ⟨entry, ⟨line, hline, hparse⟩, hentry⟩
    split at hentry
    · next happ =>
      cases hentry
      exact ⟨line, hline, by rw [hparse, ← happ]⟩
    · cases hentry
  · rintro ⟨line, hline, hparse⟩
    exact ⟨(package, appId), ⟨line, hline, hparse⟩, if_pos rfl⟩

theorem packagesOf_append (appId : UInt32) (ls : List (List Char)) (line : List Char) :
    packagesOf appId (ls ++ [line]) = packagesOf appId ls ++ packagesOf appId [line] := by
  simp only [packagesOf, filterMap_append]

theorem tally_concat (packages names : List String) (name : String) :
    tally packages (names ++ [name]) =
      some (((tally packages names).getD (0, 0)).1 + 1,
        ((tally packages names).getD (0, 0)).2 + if packages.contains name then 1 else 0) := by
  rcases eq_or_ne names [] with rfl | hne
  · simp [tally]
  · have hne' : names ++ [name] ≠ [] := by simp
    rw [tally, tally, if_neg hne, if_neg hne', length_append, countP_append,
      countP_singleton]
    rfl

theorem countPackage_eq (packages : List String) (byAppId : UInt32 → Option (Nat × Nat))
    (line : List Char) : countPackage packages byAppId line =
      match parseLine line with
      | none => byAppId
      | some (name, appId) =>
        if isAppId appId then fun a =>
          if a = appId then
            some (((byAppId appId).getD (0, 0)).1 + 1,
              ((byAppId appId).getD (0, 0)).2 + if packages.contains name then 1 else 0)
          else byAppId a
        else byAppId := by
  unfold countPackage parseLine
  rcases splitWhitespace line with _ | ⟨name, _ | ⟨uid, rest⟩⟩
  · rfl
  · rfl
  · dsimp only
    cases parseU32 uid <;> rfl

theorem countPackage_tally (packages : List String) {byAppId : UInt32 → Option (Nat × Nat)}
    {seen : List (List Char)}
    (h : ∀ a, isAppId a = true → byAppId a = tally packages (packagesOf a seen)) (line : List Char)
    (a : UInt32) (ha : isAppId a = true) :
    countPackage packages byAppId line a = tally packages (packagesOf a (seen ++ [line])) := by
  rw [packagesOf_append, countPackage_eq]
  cases hline : parseLine line with
  | none =>
    have hnil : packagesOf a [line] = [] := by simp [packagesOf, hline]
    rw [hnil, append_nil]
    exact h a ha
  | some entry =>
    obtain ⟨name, appId⟩ := entry
    by_cases happ : appId = a
    · subst happ
      have hname : packagesOf appId [line] = [name] := by simp [packagesOf, hline]
      simp only [ha, if_true, hname]
      rw [tally_concat, h appId ha]
    · have hnil : packagesOf a [line] = [] := by simp [packagesOf, hline, happ]
      rw [hnil, append_nil, ← h a ha]
      dsimp only
      split
      · exact if_neg (Ne.symm happ)
      · rfl

theorem foldl_countPackage (packages : List String) (ls : List (List Char))
    (byAppId : UInt32 → Option (Nat × Nat)) (seen : List (List Char))
    (h : ∀ a, isAppId a = true → byAppId a = tally packages (packagesOf a seen)) (a : UInt32)
    (ha : isAppId a = true) :
    ls.foldl (countPackage packages) byAppId a = tally packages (packagesOf a (seen ++ ls)) := by
  induction ls generalizing byAppId seen with
  | nil => rw [append_nil]; exact h a ha
  | cons line ls ih =>
    rw [foldl_cons, ih _ _ (countPackage_tally packages h line), append_assoc,
      singleton_append]

/-- The counts of an app id agree if all its packages are excluded. -/
theorem tally_complete (packages names : List String) :
    (match tally packages names with
      | some (total, excluded) => decide (0 < excluded) && total == excluded
      | none => false) = true ↔ names ≠ [] ∧ ∀ name ∈ names, name ∈ packages := by
  rcases eq_or_ne names [] with rfl | hne
  · simp [tally]
  · have hall : names.length = names.countP packages.contains ↔
        ∀ name ∈ names, name ∈ packages := by
      rw [eq_comm, countP_eq_length]
      simp only [contains_iff_mem]
    rw [tally, if_neg hne]
    simp only [Bool.and_eq_true, decide_eq_true_eq, beq_iff_eq, hall]
    constructor
    · exact fun h => ⟨hne, h.2⟩
    · intro h
      refine ⟨?_, h.2⟩
      rw [← hall.mpr h.2]
      exact length_pos_iff.mpr hne

theorem isAppId_iff : isAppId appId = true ↔ 10000 ≤ appId ∧ appId ≤ 19999 := by
  rw [isAppId, Bool.and_eq_true, decide_eq_true_iff, decide_eq_true_iff]
  rfl

theorem resolveAppIds_iff {list : FileState} {text : String} (htext : list.text = some text)
    (packages : List String) (happ : isAppId appId = true) :
    resolveAppIds packages list appId = true ↔ AllExcluded packages text appId := by
  have hnames : AllExcluded packages text appId ↔ packagesOf appId (lines text.toList) ≠ [] ∧
      ∀ name ∈ packagesOf appId (lines text.toList), name ∈ packages := by
    simp only [mem_packagesOf]
    constructor
    · rintro ⟨_, ⟨package, hline⟩, hall⟩
      exact ⟨ne_nil_of_mem (mem_packagesOf.mpr hline), hall⟩
    · rintro ⟨hne, hall⟩
      obtain ⟨package, hmem⟩ := exists_mem_of_ne_nil _ hne
      exact ⟨isAppId_iff.mp happ, ⟨package, mem_packagesOf.mp hmem⟩, hall⟩
  unfold resolveAppIds
  split
  · next hempty =>
    -- nothing is read for an empty set, and no app id has all its packages in it
    rw [isEmpty_iff.mp hempty, iff_comm, Bool.false_eq_true, iff_false]
    rintro ⟨_, ⟨package, hline⟩, hall⟩
    exact not_mem_nil (hall package hline)
  · rw [hnames, ← tally_complete, htext]
    have hfold := foldl_countPackage packages (lines text.toList) (fun _ => none) []
      (fun _ _ => rfl) appId happ
    rw [nil_append] at hfold
    exact hfold ▸ Iff.rfl

theorem foldl_countPackage_of_not (packages : List String) (ls : List (List Char))
    {byAppId : UInt32 → Option (Nat × Nat)} {a : UInt32} (h : byAppId a = none) (ha : isAppId a = false) :
    ls.foldl (countPackage packages) byAppId a = none := by
  induction ls generalizing byAppId with
  | nil => exact h
  | cons line ls ih =>
    rw [foldl_cons]
    refine ih ?_
    rw [countPackage_eq]
    cases parseLine line with
    | none => exact h
    | some entry =>
      obtain ⟨name, appId⟩ := entry
      dsimp only
      split
      · next happ =>
        have hne : a ≠ appId := by
          rintro rfl
          exact Bool.noConfusion (ha.symm.trans happ)
        exact (if_neg hne).trans h
      · exact h

theorem isAppId_of_resolveAppIds {packages : List String} {list : FileState}
    (h : resolveAppIds packages list appId = true) : isAppId appId = true := by
  by_contra hnot
  have hnone : ∀ ls : List (List Char), ls.foldl (countPackage packages) (fun _ => none) appId =
    none := fun ls =>
    foldl_countPackage_of_not packages ls rfl (Bool.eq_false_iff.mpr hnot)
  unfold resolveAppIds at h
  split at h
  · cases h
  · cases htext : list.text with
    | none =>
      rw [htext] at h
      cases h
    | some text =>
      rw [htext] at h
      simp only [hnone, Bool.false_eq_true] at h

/-- `lookup` answers for the app ids that are resolved from the files. -/
theorem lookup_eq {guard : Option State} {files : Files} (h : Sound guard files) (uid : UInt32) :
    (lookup guard files uid).1 =
      if isAppId (uid % perUserRange) = true ∧
          resolveAppIds (readConfig files.config).1 files.list (uid % perUserRange) = true then
        some (readConfig files.config).2
      else none := by
  obtain ⟨hunmount, hids, _⟩ := ExcludeLemmas.reload_spec h
  unfold lookup
  simp only
  by_cases happ : isAppId (uid % perUserRange) = true
  · simp only [happ, if_true, hunmount, hids, true_and]
  · rw [if_neg happ, if_neg fun h => happ h.1]

/-- The only answer is the setting of `exclude_unmount`. -/
theorem lookup_eq_isSome {guard : Option State} {files : Files} (h : Sound guard files)
    (uid : UInt32) :
    (lookup guard files uid).1 =
      if (lookup guard files uid).1.isSome = true then some (readConfig files.config).2 else none := by
  rw [lookup_eq h]
  split
  · rfl
  · rfl

end ExcludedAppsLemmas

open ExcludedAppsLemmas

def Files.excluded (files : Files) : List String := (readConfig files.config).1

theorem ExcludedAppsLemmas.lookup_isSome_iff {guard : Option State} {files : Files}
    (h : Sound guard files) {text : String} (htext : files.list.text = some text) (uid : UInt32) :
    (lookup guard files uid).1.isSome = true ↔ AllExcluded files.excluded text (uid % 100000) := by
  rw [lookup_eq h]
  by_cases happ : isAppId (uid % perUserRange) = true
  · have hres := resolveAppIds_iff htext files.excluded happ
    change _ ↔ AllExcluded files.excluded text (uid % perUserRange)
    rw [← hres]
    split
    · next hids => exact iff_of_true rfl hids.2
    · next hnot => exact iff_of_false nofun fun hids => hnot ⟨happ, hids⟩
  · rw [if_neg fun hids => happ hids.1]
    exact iff_of_false nofun fun hall => happ (isAppId_iff.mpr hall.isApp)

/-- `lookup` answers for an app id whose packages are all excluded, and for no other. Adding
packages to the exclusion set keeps an app id, and packages that have no line with an app id do
not matter for it. -/
theorem exclusion_all_or_nothing {guard : Option State} {files : Files} (hsound : Sound guard files)
    {text : String} (htext : files.list.text = some text) (uid : UInt32) :
    ((lookup guard files uid).1.isSome = true ↔ AllExcluded files.excluded text (uid % 100000)) ∧
    ∀ (guard' : Option State) (files' : Files), Sound guard' files' → files'.list.text = some text →
      (files.excluded ⊆ files'.excluded → (lookup guard files uid).1.isSome = true →
        (lookup guard' files' uid).1.isSome = true) ∧
      ((∀ package, HasLine text package (uid % 100000) →
          (package ∈ files.excluded ↔ package ∈ files'.excluded)) →
        (lookup guard files uid).1.isSome = (lookup guard' files' uid).1.isSome ∧
        ((readConfig files.config).2 = (readConfig files'.config).2 →
          (lookup guard files uid).1 = (lookup guard' files' uid).1)) := by
  have hiff := lookup_isSome_iff hsound htext uid
  refine ⟨hiff, fun guard' files' hsound' htext' => ?_⟩
  have hiff' := lookup_isSome_iff hsound' htext' uid
  refine ⟨fun hsub hsome => ?_, fun hsame => ?_⟩
  · obtain ⟨happ, hline, hall⟩ := hiff.mp hsome
    exact hiff'.mpr ⟨happ, hline, fun p hp => hsub (hall p hp)⟩
  · have hsome : (lookup guard files uid).1.isSome = (lookup guard' files' uid).1.isSome := by
      rw [Bool.eq_iff_iff, hiff, hiff']
      constructor
      · rintro ⟨happ, hline, hall⟩
        exact ⟨happ, hline, fun p hp => (hsame p hp).mp (hall p hp)⟩
      · rintro ⟨happ, hline, hall⟩
        exact ⟨happ, hline, fun p hp => (hsame p hp).mpr (hall p hp)⟩
    refine ⟨hsome, fun hunmount => ?_⟩
    rw [lookup_eq_isSome hsound, lookup_eq_isSome hsound', hsome, hunmount]

/-- Two packages that share an app id, both excluded, asked about for another user. -/
theorem exclusion_all_or_nothing_shared :
    let text := "a 10007 0\nb 10007 0\nc 10008 0\n"
    let files : Files := ⟨⟨some 2, some "exclude_apps=a,b"⟩, ⟨some 1, some text⟩⟩
    Sound none files ∧ files.list.text = some text ∧ (lookup none files 110007).1 = some true ∧
      AllExcluded files.excluded text 10007 := by
  refine ⟨ExcludeLemmas.sound_none _, rfl, by decide +kernel, ?_⟩
  exact (exclusion_all_or_nothing (ExcludeLemmas.sound_none _) rfl 110007).1.mp (by decide +kernel)

end NyaZygisk.Exclude
