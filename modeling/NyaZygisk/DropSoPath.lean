import NyaZygisk.LinkerTrace

/-!
# Dropping records while the list changes

`dropSoPath` of `solist.cpp` collects the records of a path, sorts them by their address, and gives
one after the other to `soinfo_unload` or `soinfo_free` of the linker. A call may take other records
with it, and may leave the one that it was called for. With a linker that takes out its argument
and nothing else, this is `LinkerTrace.dropSoPath`.
-/

namespace NyaZygisk.DropSoPath

open LinkerTrace (contains LinkerState Record Symbols)

/-! ## Records -/

/-- The fields that `SoInfoWrapper` reads and writes. -/
structure SoInfo where
  path : Option (List Char)
  base : Nat
  size : Nat
  constructorCalled : Bool
deriving DecidableEq

def SoInfo.zeroed : SoInfo := ⟨none, 0, 0, false⟩

/-- The two functions of the linker. -/
inductive Release
  | soinfoUnload
  | soinfoFree
deriving DecidableEq

/-- A call, with the list as it is then. -/
structure Call where
  release : Release
  record : Nat
  linked : List Nat
deriving DecidableEq

/-- Which records the last of these calls leaves in the list. -/
abbrev Linker : Type := List Call → Nat → Bool

/-- The list from `solinker` on, by addresses, and the records. -/
structure Solist where
  linked : List Nat
  nodup : linked.Nodup
  info : Nat → SoInfo

/-- A run of `dropSoPath`. Its two outputs are pointers that may be null. -/
structure Run extends Solist where
  calls : List Call
  outBase : Option Nat
  outSize : Option Nat
  pathFound : Bool

def Run.setSize (s : Run) (a size : Nat) : Run :=
  { s with info := Function.update s.info a { s.info a with size } }

def Run.setConstructorCalled (s : Run) (a : Nat) (constructorCalled : Bool) : Run :=
  { s with info := Function.update s.info a { s.info a with constructorCalled } }

/-- A call of the linker; the blocks of records that it takes out are zeroed. -/
def Run.call (lk : Linker) (release : Release) (s : Run) (record : Nat) : Run :=
  let calls := s.calls ++ [⟨release, record, s.linked⟩]
  { s with
    calls
    linked := s.linked.filter (lk calls)
    nodup := s.nodup.filter _
    info := fun a => if s.linked.contains a && !lk calls a then .zeroed else s.info a }

/-! ## `dropSoPath` -/

def dropTarget (lk : Linker) (unload : Bool) (s : Run) (target : Nat) : Run :=
  if s.linked.contains target then
    let size := (s.info target).size
    if size = 0 then s
    else
      let outBase := s.outBase.map fun base => if base = 0 then (s.info target).base else base
      let outSize := s.outSize.map fun old => if old = 0 then size else old
      let s := Run.setSize { s with outBase, outSize, pathFound := true } target 0
      if unload then
        ((s.setConstructorCalled target false).call lk .soinfoUnload target).setConstructorCalled target true
      else (s.call lk .soinfoFree target).setSize target size
  else s

/-- A record that `dropSoPath` collects. -/
def Solist.isTarget (s : Solist) (targetPath : List Char) (a : Nat) : Bool :=
  (s.info a).path.any (contains targetPath) && decide (0 < (s.info a).size)

/-- `initialized`: the list is known, or `initialize` finds it. -/
def dropSoPath (lk : Linker) (initialized : Bool) (targetPath : List Char) (unload : Bool)
    (outBase outSize : Option Nat) (list : Solist) : Run :=
  let s : Run := { list with calls := [], outBase, outSize, pathFound := false }
  if initialized then
    ((list.linked.filter (list.isTarget targetPath)).insertionSort (· ≥ ·)).foldl (dropTarget lk unload) s
  else s

namespace DropSoPathLemmas

variable {lk : Linker} {s : Run} {target : Nat}

/-- Out of the list, or without a size. -/
def Dropped (s : Run) (a : Nat) : Prop := a ∈ s.linked → (s.info a).size = 0

theorem size_call {release : Release} {record a : Nat} (ha : a ∈ (s.call lk release record).linked) :
    a ∈ s.linked ∧ ((s.call lk release record).info a).size = (s.info a).size := by
  obtain ⟨hlinked, hkept⟩ := List.mem_filter.mp ha
  have hinfo : (s.call lk release record).info a = s.info a := if_neg fun h =>
    absurd (Bool.and_eq_true_iff.mp h).2 (by rw [hkept]; decide)
  exact ⟨hlinked, by rw [hinfo]⟩

theorem size_setConstructorCalled (a b : Nat) (called : Bool) :
    ((s.setConstructorCalled a called).info b).size = (s.info b).size := by
  unfold Run.setConstructorCalled
  dsimp only
  by_cases h : b = a
  · rw [h, Function.update_self]
  · rw [Function.update_of_ne h]

theorem dropped_setSize {a : Nat} (h : a = target ∨ Dropped s a) : Dropped (s.setSize target 0) a := by
  intro ha
  unfold Run.setSize
  dsimp only
  by_cases heq : a = target
  · rw [heq, Function.update_self]
  · rw [Function.update_of_ne heq]
    exact h.resolve_left heq ha

/-- The calls of a round: at most one, for the target, which is linked then. -/
theorem calls_dropTarget (lk : Linker) (unload : Bool) (s : Run) (target : Nat) :
    ∃ new, (dropTarget lk unload s target).calls = s.calls ++ new ∧
      (new.map (·.record)).Sublist [target] ∧ ∀ c ∈ new, c.record ∈ c.linked := by
  unfold dropTarget
  split
  · next hlinked =>
    have hcall : ∀ release, ∀ c ∈ [(⟨release, target, s.linked⟩ : Call)], c.record ∈ c.linked := by
      intro release
      exact List.forall_mem_singleton.mpr (List.contains_iff_mem.mp hlinked)
    dsimp only
    split
    · exact ⟨[], (List.append_nil _).symm, List.nil_sublist _, nofun⟩
    · cases unload with
      | true => exact ⟨_, rfl, .refl _, hcall .soinfoUnload⟩
      | false => exact ⟨_, rfl, .refl _, hcall .soinfoFree⟩
  · exact ⟨[], (List.append_nil _).symm, List.nil_sublist _, nofun⟩

/-- With `unload`, a round drops its target and brings nothing back. -/
theorem dropped_dropTarget {a : Nat} (h : a = target ∨ Dropped s a) :
    Dropped (dropTarget lk true s target) a := by
  unfold dropTarget
  split
  · dsimp only
    split
    · next hsize =>
      rcases h with rfl | h
      · exact fun _ => hsize
      · exact h
    · rw [if_pos rfl]
      intro ha
      rw [size_setConstructorCalled]
      obtain ⟨hlinked, hsize⟩ := size_call ha
      rw [hsize, size_setConstructorCalled]
      exact dropped_setSize h hlinked
  · next hlinked =>
    rcases h with rfl | h
    · exact fun ha => absurd (List.contains_iff_mem.mpr ha) hlinked
    · exact h

/-! ### All targets -/

theorem calls_foldl (lk : Linker) (unload : Bool) (targets : List Nat) (s : Run) :
    ∃ new, (targets.foldl (dropTarget lk unload) s).calls = s.calls ++ new ∧
      (new.map (·.record)).Sublist targets ∧ ∀ c ∈ new, c.record ∈ c.linked := by
  induction targets generalizing s with
  | nil => exact ⟨[], (List.append_nil _).symm, List.nil_sublist _, nofun⟩
  | cons target targets ih =>
    obtain ⟨first, hfirst, hsub, hlive⟩ := calls_dropTarget lk unload s target
    obtain ⟨rest, hrest, hsub', hlive'⟩ := ih (dropTarget lk unload s target)
    refine ⟨first ++ rest, by rw [List.foldl_cons, hrest, hfirst, List.append_assoc], ?_,
      List.forall_mem_append.mpr ⟨hlive, hlive'⟩⟩
    rw [List.map_append]
    exact hsub.append hsub'

theorem dropped_foldl {targets : List Nat} {a : Nat} (h : a ∈ targets ∨ Dropped s a) :
    Dropped (targets.foldl (dropTarget lk true) s) a := by
  induction targets generalizing s with
  | nil => exact h.resolve_left List.not_mem_nil
  | cons target targets ih =>
    refine ih ?_
    rw [List.mem_cons, or_assoc, or_left_comm] at h
    exact h.imp_right dropped_dropTarget

end DropSoPathLemmas

open DropSoPathLemmas

/-- The linker of `LinkerTrace`. -/
def plainLinker : Linker := fun calls a => calls.getLast?.map Call.record != some a

/-- The run has the records of the state in its list, with their sizes. -/
structure Shows (st : LinkerState) (s : Run) : Prop where
  linked : s.linked = st.solist.map Record.address
  sized : ∀ r ∈ st.solist, (s.info r.address).size ≠ 0

namespace DropSoPathLemmas

variable {st : LinkerState} {s : Run} {r : Record}

/-- To erase a record is to filter its address out. -/
theorem map_erase_address (hnodup : (st.solist.map Record.address).Nodup) (hr : r ∈ st.solist) :
    (st.solist.erase r).map Record.address = (st.solist.map Record.address).filter
      (some r.address != some ·) := by
  rw [hnodup.of_map.erase_eq_filter, List.filter_map]
  congr 1
  refine List.filter_congr fun x hx => ?_
  have haddress : r.address = x.address ↔ x = r :=
    ⟨fun h => List.inj_on_of_nodup_map hnodup hx hr h.symm, fun h => h ▸ rfl⟩
  simp [bne, haddress]

theorem shows_drop (unload : Bool) (h : Shows st s) (hr : r.address ∈ s.linked → r ∈ st.solist) :
    Shows (st.drop unload r) (dropTarget plainLinker unload s r.address) := by
  have hnodup := h.linked ▸ s.nodup
  by_cases hmem : r ∈ st.solist
  · have hlinked : s.linked.contains r.address = true :=
      List.contains_iff_mem.mpr (h.linked ▸ List.mem_map_of_mem hmem)
    have hfilter (calls : List Call) (release : Release) (linked : List Nat) :
        plainLinker (calls ++ [⟨release, r.address, linked⟩]) = (some r.address != some ·) := by
      unfold plainLinker
      simp
    have hkept (x : Record) (hx : x ∈ st.solist.erase r) : x ∈ st.solist ∧ x.address ≠ r.address := by
      rw [hnodup.of_map.mem_erase_iff] at hx
      exact ⟨hx.2, fun heq => hx.1 (List.inj_on_of_nodup_map hnodup hx.2 hmem heq)⟩
    rw [dropTarget, if_pos hlinked, LinkerState.drop, if_pos hmem]
    dsimp only
    rw [if_neg (h.sized r hmem)]
    cases unload with
    | true | false =>
      refine ⟨?_, fun x hx => ?_⟩
      · exact (congrArg (s.linked.filter ·) (hfilter _ _ _)).trans
          ((congrArg (List.filter _) h.linked).trans (map_erase_address hnodup hmem).symm)
      · obtain ⟨hx, hne⟩ := hkept x hx
        simp [Run.setConstructorCalled, Run.call, Run.setSize, hfilter, hne, hne.symm, h.sized x hx]
  · have hlinked : ¬ s.linked.contains r.address = true := fun hc => hmem (hr (List.contains_iff_mem.mp hc))
    rw [dropTarget, if_neg hlinked, LinkerState.drop, if_neg hmem]
    exact h

theorem solist_drop (unload : Bool) (st : LinkerState) (r : Record) :
    (st.drop unload r).solist ⊆ st.solist := by
  rw [LinkerState.drop]
  split
  · cases unload with
    | true | false => exact List.erase_subset
  · exact List.Subset.refl _

theorem shows_foldl (unload : Bool) {all targets : List Record} (hall : (all.map Record.address).Nodup)
    (htargets : targets ⊆ all) (hsub : st.solist ⊆ all) (h : Shows st s) :
    Shows (targets.foldl (LinkerState.drop unload) st)
      ((targets.map Record.address).foldl (dropTarget plainLinker unload) s) := by
  induction targets generalizing st s with
  | nil => exact h
  | cons r targets ih =>
    obtain ⟨hr, htargets⟩ := List.cons_subset.mp htargets
    refine ih htargets (List.Subset.trans (solist_drop unload st r) hsub) (shows_drop unload h fun hmem => ?_)
    rw [h.linked] at hmem
    obtain ⟨x, hx, hxr⟩ := List.mem_map.mp hmem
    exact List.inj_on_of_nodup_map hall (hsub hx) hr hxr ▸ hx

end DropSoPathLemmas

/-- With this linker, `dropSoPath` leaves the records that it leaves in `LinkerTrace`. -/
theorem dropSoPath_plainLinker (symbols : Symbols) (path : List Char) (unload : Bool)
    (outBase outSize : Option Nat) {st : LinkerState} {list : Solist}
    (hlinked : list.linked = st.solist.map Record.address)
    (hinfo : ∀ r ∈ st.solist, (list.info r.address).path = some r.path ∧
      (list.info r.address).size = r.size) :
    (dropSoPath plainLinker symbols.initialized path unload outBase outSize list).linked =
      (LinkerTrace.dropSoPath symbols path unload st).solist.map Record.address := by
  have htargets : list.linked.filter (list.isTarget path) =
      (st.solist.filter fun r => contains path r.path && 0 < r.size).map Record.address := by
    rw [hlinked, List.filter_map]
    congr 1
    refine List.filter_congr fun r hr => ?_
    rw [Function.comp_apply, Solist.isTarget, (hinfo r hr).1, (hinfo r hr).2, Option.any_some]
  unfold dropSoPath LinkerTrace.dropSoPath
  split
  · rw [htargets, ← List.map_insertionSort (fun a b : Record => b.address ≤ a.address) _ _ _
      fun _ _ _ _ => Iff.rfl]
    refine (shows_foldl unload (hlinked ▸ list.nodup) (fun r hr => ?_) (List.Subset.refl _)
      ⟨hlinked, fun r hr => ?_⟩).linked
    · exact (List.mem_filter.mp ((List.perm_insertionSort _ _).subset hr)).1
    · rw [(hinfo r hr).2]
      exact r.size_pos.ne'
  · exact hlinked

-- the call for the first of three records takes another one with it
example : (dropSoPath (fun calls a => a ≠ 16 && plainLinker calls a) true "memfd".toList true (some 0) none
    ⟨[16, 48, 32], by decide, fun a => ⟨some "/memfd:m".toList, 4096 * a, 8, true⟩⟩).calls.map
      (fun c => (c.record, c.linked)) = [(48, [16, 48, 32]), (32, [32])] := by
  decide

end NyaZygisk.DropSoPath
