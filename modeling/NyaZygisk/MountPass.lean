import NyaZygisk.Lib.Subtrees
import NyaZygisk.MountSelection

/-!
# The unmount pass of zygote

`nativeForkAndSpecialize_pre` chooses mounts by their entries in the mount table and detaches them
by their targets. The kernel detaches whatever is on top there.
-/

namespace NyaZygisk

open List Subtrees

def childIn (table : List MountInfo) (a b : MountInfo) : Prop :=
  a ∈ table ∧ b ∈ table ∧ b.parent = a.id

/-- The entries are the mounts of a tree. The mount at its root may be its own parent. -/
structure MountTree (table : List MountInfo) : Prop where
  ids_nodup : (table.map (·.id)).Nodup
  antisymm : ∀ {a b}, Under (childIn table) a b → Under (childIn table) b a → a = b

/-- `umount2` with `MNT_DETACH`, for every list of mounts that are still attached. -/
structure Kernel (table : List MountInfo) where
  topmost : List MountInfo → List Char → Option MountInfo
  detach : List MountInfo → MountInfo → List MountInfo
  topmost_mem : ∀ {attached path m}, topmost attached path = some m → m ∈ attached ∧ m.target = path
  topmost_top : ∀ {attached path m n}, topmost attached path = some m → n ∈ attached →
    n.target = path → Under (childIn table) m n → n = m
  mem_detach : ∀ {attached m n}, n ∈ detach attached m ↔ n ∈ attached ∧ ¬ Under (childIn table) m n

variable {table : List MountInfo}

/-- The `remove_if` of the pass: the traces that are kept, and what is attached afterwards. -/
def removeTraces (k : Kernel table) :
    List MountInfo → List MountInfo → List MountInfo × List MountInfo
  | [], attached => ([], attached)
  | trace :: traces, attached =>
    match k.topmost attached trace.target with
    | some m => removeTraces k traces (k.detach attached m)
    | none =>
      let (kept, attached) := removeTraces k traces attached
      (trace :: kept, attached)

/-- The pass of `nativeForkAndSpecialize_pre`, with all mounts of the table attached. -/
def unmountZygote (k : Kernel table) (infoFlags : UInt32) (z : Zygote) : Zygote × List MountInfo :=
  if z.unmountedTimes < 5 ∧ z.traces = [] then
    let traces := checkZygoteTraces table infoFlags
    if abortZygoteUnmount (traces.map MountInfo.trace) infoFlags then
      ({ z with traces := traces.map MountInfo.trace }, table)
    else
      let (kept, attached) := removeTraces k traces table
      (⟨z.unmountedTimes + 1, kept.map MountInfo.trace⟩, attached)
  else (z, table)

/-- The mounts that the calls of the pass find on top. -/
def onTop (k : Kernel table) : List MountInfo → List MountInfo → List MountInfo
  | [], _ => []
  | trace :: traces, attached =>
    match k.topmost attached trace.target with
    | some m => m :: onTop k traces (k.detach attached m)
    | none => onTop k traces attached

/-- None of the selected mounts is attached, and all that is neither selected nor below a selected
mount is. -/
def RemovesExactly (table selected attached : List MountInfo) : Prop :=
  (∀ s ∈ selected, s ∉ attached) ∧
    ∀ m ∈ table, (∀ s ∈ selected, ¬ Under (childIn table) s m) → m ∈ attached

section

open Classical

/-- A path leads to a mount on that target with no other of that target below it. -/
noncomputable def Kernel.ofTable (table : List MountInfo) : Kernel table where
  topmost attached path :=
    if h : ∃ m ∈ attached, m.target = path ∧
        ∀ n ∈ attached, n.target = path → Under (childIn table) m n → n = m then some h.choose
    else none
  detach attached m := attached.filter fun n => ¬ Under (childIn table) m n
  topmost_mem h := by
    obtain ⟨hex, hm⟩ := Option.dite_none_right_eq_some.mp h
    cases hm
    exact ⟨hex.choose_spec.1, hex.choose_spec.2.1⟩
  topmost_top h hn htarget hunder := by
    obtain ⟨hex, hm⟩ := Option.dite_none_right_eq_some.mp h
    cases hm
    exact hex.choose_spec.2.2 _ hn htarget hunder
  mem_detach := by simp

end

namespace MountPassLemmas

theorem isForest (h : MountTree table) : IsForest (childIn table) where
  parent_unique hac hbc :=
    inj_on_of_nodup_map h.ids_nodup hac.1 hbc.1 (hac.2.2.symm.trans hbc.2.2)
  antisymm := h.antisymm

theorem nodup_checkZygoteTraces (h : MountTree table) (infoFlags : UInt32) :
    (checkZygoteTraces table infoFlags).Nodup := by
  unfold checkZygoteTraces
  split
  · exact nodup_nil
  · exact ((mergeSort_perm _ _).nodup_iff).mpr ((List.Nodup.of_map _ h.ids_nodup).filter _)

theorem checkZygoteTraces_subset (table : List MountInfo) (infoFlags : UInt32) :
    checkZygoteTraces table infoFlags ⊆ table := by
  intro m hm
  cases hroot : rootOfFlags infoFlags with
  | none => simp [checkZygoteTraces, hroot] at hm
  | some root => exact ((MountSelectionLemmas.mem_checkZygoteTraces hroot).mp hm).1

variable (k : Kernel table)

theorem onTop_subset (traces attached : List MountInfo) : onTop k traces attached ⊆ attached := by
  induction traces generalizing attached with
  | nil => exact nil_subset attached
  | cons trace traces ih =>
    unfold onTop
    split
    · next m hm =>
      refine cons_subset.mpr ⟨(k.topmost_mem hm).1, fun n hn => ?_⟩
      exact (k.mem_detach.mp (ih (k.detach attached m) hn)).1
    · exact ih attached

/-- A pass leaves what is not below the mounts that it has found on top. -/
theorem mem_removeTraces (traces attached : List MountInfo) {n : MountInfo} :
    n ∈ (removeTraces k traces attached).2 ↔
      n ∈ attached ∧ ∀ m ∈ onTop k traces attached, ¬ Under (childIn table) m n := by
  induction traces generalizing attached with
  | nil => simp [removeTraces, onTop]
  | cons trace traces ih =>
    unfold removeTraces onTop
    split
    · rw [ih, k.mem_detach, forall_mem_cons, and_assoc]
    · exact ih attached

/-- Without a failure every call finds a mount. -/
theorem map_target_onTop {traces attached : List MountInfo}
    (h : (removeTraces k traces attached).1 = []) :
    (onTop k traces attached).map (·.target) = traces.map (·.target) := by
  induction traces generalizing attached with
  | nil => rfl
  | cons trace traces ih =>
    unfold removeTraces at h
    unfold onTop
    split at h
    · next m hm =>
      rw [map_cons, map_cons, ih h, (k.topmost_mem hm).2]
    · cases h

theorem pops_onTop (traces attached : List MountInfo) :
    Pops (childIn table) (·.target) attached (onTop k traces attached) := by
  induction traces generalizing attached with
  | nil => exact .nil
  | cons trace traces ih =>
    unfold onTop
    split
    · next m hm =>
      refine .cons ?_ ?_ ?_ (ih (k.detach attached m))
      · exact fun c hc htarget => k.topmost_top hm hc (htarget.trans (k.topmost_mem hm).2)
      · exact fun c hc hnot => k.mem_detach.mpr ⟨hc, hnot⟩
      · exact fun b hb => (k.mem_detach.mp (onTop_subset k traces _ hb)).2
    · exact ih attached

/-- What the pass has done, by the mounts that it has found on top. -/
theorem removesExactly_iff {selected : List MountInfo} (hselected : selected ⊆ table) :
    RemovesExactly table selected (removeTraces k selected table).2 ↔
      (∀ s ∈ selected, ∃ m ∈ onTop k selected table, Under (childIn table) m s) ∧
        ∀ m ∈ onTop k selected table, ∃ s ∈ selected, Under (childIn table) s m := by
  unfold RemovesExactly
  simp only [mem_removeTraces]
  refine and_congr (forall₂_congr fun s hs => ?_) ⟨fun h m hm => ?_, fun h n hn hnot => ?_⟩
  · simp [hselected hs]
  · by_contra hnone
    have hmtable := onTop_subset k selected table hm
    exact (h m hmtable fun s hs hsm => hnone ⟨s, hs, hsm⟩).2 m hm .refl
  · refine ⟨hn, fun m hm hmn => ?_⟩
    obtain ⟨s, hs, hsm⟩ := h m hm
    exact hnot s hs (hsm.trans hmn)

theorem unmountZygote_eq {infoFlags : UInt32} {z : Zygote}
    (hruns : z.unmountedTimes < 5 ∧ z.traces = [])
    (habort : abortZygoteUnmount ((checkZygoteTraces table infoFlags).map MountInfo.trace)
      infoFlags = false) :
    unmountZygote k infoFlags z =
      (⟨z.unmountedTimes + 1,
          (removeTraces k (checkZygoteTraces table infoFlags) table).1.map MountInfo.trace⟩,
        (removeTraces k (checkZygoteTraces table infoFlags) table).2) := by
  rw [unmountZygote, if_pos hruns]
  simp only [habort]
  rfl

theorem removeTraces_singleton {attached : List MountInfo} {trace m : MountInfo}
    (h : k.topmost attached trace.target = some m) :
    removeTraces k [trace] attached = ([], k.detach attached m) := by
  rw [removeTraces, h]
  rfl

theorem checkZygoteTraces_singleton {infoFlags : UInt32} (root : RootImpl) {m : MountInfo}
    (hroot : rootOfFlags infoFlags = some root) (hm : table.filter (isTrace root table) = [m]) :
    checkZygoteTraces table infoFlags = [m] := by
  simp only [checkZygoteTraces, hroot, hm, sortById, mergeSort_singleton]

/-! ## Tables of a particular shape -/

/-- Mounts with ids above those of their parents form a tree. -/
theorem id_le_of_under (hparent : ∀ m ∈ table, m.parent < m.id) {a b : MountInfo}
    (h : Under (childIn table) a b) : a = b ∨ a.id < b.id := by
  induction h with
  | refl => exact .inl rfl
  | @tail b c _ hbc ih =>
    have hlt : b.id < c.id := hbc.2.2 ▸ hparent c hbc.2.1
    rcases ih with rfl | hab
    · exact .inr hlt
    · exact .inr (hab.trans hlt)

theorem mountTree_of_lt (hids : (table.map (·.id)).Nodup)
    (hparent : ∀ m ∈ table, m.parent < m.id) : MountTree table where
  ids_nodup := hids
  antisymm hab hba := by
    rcases id_le_of_under hparent hab with rfl | hlt
    · rfl
    · exact (id_le_of_under hparent hba).elim Eq.symm fun hgt => absurd hlt hgt.asymm

/-- With targets below those of their parents, it suffices that mounts on one target are below each
other. -/
theorem stacked_of_prefix
    (hchain : ∀ a b, a ∈ table → b ∈ table → a.target = b.target →
      Under (childIn table) a b ∨ Under (childIn table) b a)
    (hnested : ∀ a b, childIn table a b → a.target <+: b.target) :
    Stacked (childIn table) (·.target) table where
  chain := hchain _ _
  convex {a b c} hab hbc htarget := by
    have hextends : ∀ {a b}, Under (childIn table) a b → a.target <+: b.target := by
      intro a b h
      induction h with
      | refl => exact prefix_rfl
      | tail _ hbc ih => exact ih.trans (hnested _ _ hbc)
    have hle : b.target.length ≤ a.target.length := htarget ▸ (hextends hbc).length_le
    exact ((hextends hab).eq_of_length_le hle).symm

/-- A mount with no other of its target below it is reached, or one like it. -/
theorem exists_topmost {attached : List MountInfo} {m : MountInfo} (hm : m ∈ attached)
    (htop : ∀ n ∈ attached, n.target = m.target → Under (childIn table) m n → n = m) :
    ∃ n, (Kernel.ofTable table).topmost attached m.target = some n :=
  ⟨_, dif_pos ⟨m, hm, rfl, htop⟩⟩

end MountPassLemmas

open MountPassLemmas

/-- A pass that ends without traces has removed what was selected exactly if its calls found nothing
on top that is not selected or below a selected mount, and found each selected mount that is not
below another one. If mounts on one target are stacked on each other, that is if nothing else is
stacked on such a mount. -/
theorem unmount_pass_exact_iff (k : Kernel table) (htree : MountTree table) {infoFlags : UInt32}
    {z : Zygote} (hruns : z.unmountedTimes < 5 ∧ z.traces = [])
    (habort : abortZygoteUnmount ((checkZygoteTraces table infoFlags).map MountInfo.trace)
      infoFlags = false)
    (hclean : (unmountZygote k infoFlags z).1.traces = []) :
    let selected := checkZygoteTraces table infoFlags
    let attached := (unmountZygote k infoFlags z).2
    (RemovesExactly table selected attached ↔
      (∀ s, IsRoot (childIn table) selected s → s ∈ onTop k selected table) ∧
        ∀ m ∈ onTop k selected table, ∃ s ∈ selected, Under (childIn table) s m) ∧
    (Stacked (childIn table) (·.target) table →
      (RemovesExactly table selected attached ↔
        ∀ s, IsRoot (childIn table) selected s → ∀ m ∈ table, m.target = s.target →
          Under (childIn table) s m → m ∈ selected)) := by
  intro selected attached
  have hpass := unmountZygote_eq k hruns habort
  have hattached : attached = (removeTraces k selected table).2 := congrArg Prod.snd hpass
  have hkept : (removeTraces k selected table).1 = [] := by
    rw [hpass] at hclean
    exact map_eq_nil_iff.mp hclean
  have hselected : selected ⊆ table := checkZygoteTraces_subset table infoFlags
  have hforest := isForest htree
  rw [hattached, removesExactly_iff k hselected, covered_iff hforest]
  refine ⟨Iff.rfl, fun hstack => ?_⟩
  -- as many mounts were on top of each target as are selected there
  have hpops := pops_onTop k selected table
  have hgone := onTop_subset k selected table
  have hnodup := nodup_checkZygoteTraces htree infoFlags
  have hcount : (selected.map (·.target)).Perm ((onTop k selected table).map (·.target)) :=
    .of_eq (map_target_onTop k hkept).symm
  rw [hpops.roots_iff hforest hstack hselected hgone hnodup hcount]
  exact and_iff_left fun m hm =>
    hpops.exists_meant hforest hstack hselected hgone hnodup hcount hm

/-- A file of a module over one of the system. -/
def moduleMount : MountInfo :=
  ⟨10, 2, "/adb/modules/m/hosts".toList, "/system/etc/hosts".toList, "/dev/block/dm-5".toList⟩

def plainTable : List MountInfo :=
  [⟨2, 1, "/".toList, "/".toList, "/dev/block/dm-0".toList⟩, moduleMount]

theorem unmount_pass_exact_iff_plain :
    (unmountZygote (.ofTable plainTable) ProcessFlags.rootIsMagisk ⟨0, []⟩).1.traces = [] ∧
      RemovesExactly plainTable (checkZygoteTraces plainTable ProcessFlags.rootIsMagisk)
        (unmountZygote (.ofTable plainTable) ProcessFlags.rootIsMagisk ⟨0, []⟩).2 := by
  have hselected : checkZygoteTraces plainTable ProcessFlags.rootIsMagisk = [moduleMount] :=
    checkZygoteTraces_singleton .magisk (by decide) (by decide)
  have habort : abortZygoteUnmount ((checkZygoteTraces plainTable ProcessFlags.rootIsMagisk).map
      MountInfo.trace) ProcessFlags.rootIsMagisk = false := by
    rw [hselected]
    decide
  have halone : ∀ n ∈ plainTable, n.target = moduleMount.target → n = moduleMount := by decide
  obtain ⟨m, hm⟩ : ∃ m, (Kernel.ofTable plainTable).topmost plainTable moduleMount.target = some m :=
    exists_topmost (by decide) fun n hn htarget _ => halone n hn htarget
  have hclean : (unmountZygote (.ofTable plainTable) ProcessFlags.rootIsMagisk ⟨0, []⟩).1.traces = [] := by
    rw [unmountZygote_eq _ (by decide) habort, hselected, removeTraces_singleton _ hm]
    rfl
  refine ⟨hclean, ((unmount_pass_exact_iff _ ?_ (by decide) habort hclean).2 ?_).mpr ?_⟩
  · exact mountTree_of_lt (by decide) (by decide)
  · have hsame : ∀ a ∈ plainTable, ∀ b ∈ plainTable, a.target = b.target → a = b := by decide
    have hnested : ∀ a ∈ plainTable, ∀ b ∈ plainTable, b.parent = a.id → a.target <+: b.target := by
      decide
    refine stacked_of_prefix (fun a b ha hb htarget => .inl ?_) fun a b hab => ?_
    · rw [hsame a ha b hb htarget]
    · exact hnested a hab.1 b hab.2.1 hab.2.2
  · rintro s ⟨hs, -⟩ n hn htarget -
    rw [hselected, mem_singleton] at hs ⊢
    exact halone n hn (hs ▸ htarget)

/-- Something else over the same file. -/
def upperMount : MountInfo := ⟨20, 10, "/".toList, "/system/etc/hosts".toList, "tmpfs".toList⟩

def stackedTable : List MountInfo := plainTable ++ [upperMount]

/-- The mount of the module stays, and zygote counts as clean. -/
theorem unmount_pass_leaves_selected :
    MountTree stackedTable ∧
      abortZygoteUnmount ((checkZygoteTraces stackedTable ProcessFlags.rootIsMagisk).map
        MountInfo.trace) ProcessFlags.rootIsMagisk = false ∧
      (unmountZygote (.ofTable stackedTable) ProcessFlags.rootIsMagisk ⟨0, []⟩).1.traces = [] ∧
      moduleMount ∈ checkZygoteTraces stackedTable ProcessFlags.rootIsMagisk ∧
      moduleMount ∈ (unmountZygote (.ofTable stackedTable) ProcessFlags.rootIsMagisk ⟨0, []⟩).2 := by
  have hselected : checkZygoteTraces stackedTable ProcessFlags.rootIsMagisk = [moduleMount] :=
    checkZygoteTraces_singleton .magisk (by decide) (by decide)
  have habort : abortZygoteUnmount ((checkZygoteTraces stackedTable ProcessFlags.rootIsMagisk).map
      MountInfo.trace) ProcessFlags.rootIsMagisk = false := by
    rw [hselected]
    decide
  have hparent : ∀ m ∈ stackedTable, m.parent < m.id := by decide
  have hunder : Under (childIn stackedTable) moduleMount upperMount :=
    .single ⟨by decide, by decide, rfl⟩
  -- the path leads to the upper mount
  have htop : (Kernel.ofTable stackedTable).topmost stackedTable moduleMount.target = some upperMount := by
    obtain ⟨m, hm⟩ : ∃ m, (Kernel.ofTable stackedTable).topmost stackedTable upperMount.target = some m := by
      refine exists_topmost (by decide) fun n hn htarget hbelow => ?_
      have hhighest : ∀ n ∈ stackedTable, n.id ≤ upperMount.id := by decide
      rcases id_le_of_under hparent hbelow with heq | hlt
      · exact heq.symm
      · exact absurd (hhighest n hn) hlt.not_ge
    obtain ⟨hmem, htarget⟩ := Kernel.topmost_mem _ hm
    have hcases : ∀ m ∈ stackedTable, m.target = upperMount.target →
        m = upperMount ∨ m = moduleMount := by decide
    rcases hcases m hmem htarget with rfl | rfl
    · exact hm
    · have hsame : upperMount = moduleMount := Kernel.topmost_top _ hm (by decide) rfl hunder
      exact absurd hsame (by decide)
  have hpass : unmountZygote (.ofTable stackedTable) ProcessFlags.rootIsMagisk ⟨0, []⟩ =
      (⟨1, []⟩, (Kernel.ofTable stackedTable).detach stackedTable upperMount) := by
    rw [unmountZygote_eq _ (by decide) habort, hselected, removeTraces_singleton _ htop]
    rfl
  refine ⟨mountTree_of_lt (by decide) hparent, habort, by rw [hpass], by simp [hselected], ?_⟩
  rw [hpass, Kernel.mem_detach]
  refine ⟨by decide, fun hbelow => ?_⟩
  rcases id_le_of_under hparent hbelow with heq | hlt
  · exact absurd heq (by decide)
  · exact absurd hlt (by decide)

end NyaZygisk
