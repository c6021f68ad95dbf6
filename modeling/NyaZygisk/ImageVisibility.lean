import NyaZygisk.LinkerLifeCycle

/-!
# Images while their functions run

`Dlopen` and `Dlclose` of `linker.cpp` as the steps between which module code runs. `Load` calls
the constructors and enters the image in `g_images` after them; `Dlclose` takes it out and the
destructors are called by `delete`, after that. A function that is called may itself open and
close modules, and so may other threads, so steps of several calls are mixed freely.
-/

namespace NyaZygisk.LifeCycle

open List Pages Runs

variable {w : Nat}

/-- `Image::Contains`. -/
def Image.contains (img : Image w) (addr : BitVec w) : Bool :=
  img.mapStart ≤ addr && addr < img.mapStart + img.mapSize

/-- A call that has come to the functions of its image: those that are left, and the one that
is running. -/
structure Task (w : Nat) where
  img : Image w
  closing : Bool
  left : List (BitVec w)
  inside : Option (BitVec w)
deriving DecidableEq

/-- `g_images`, the number of images made so far, and the calls that are under way. -/
structure Moment (w : Nat) where
  images : List (Image w)
  next : Nat
  tasks : List (Task w)
deriving DecidableEq

def Moment.start : Moment w := ⟨[], 0, []⟩

inductive Event (w : Nat)
  /-- `Dlopen`, up to `CallConstructors`. -/
  | dlopen (env : LoadEnv w)
  /-- `Dlclose`, up to `CallDestructors`. -/
  | dlclose (handle : BitVec w)
  | enter (i : Nat)
  | leave (i : Nat)
  /-- The rest of `Dlopen` or `Dlclose`. -/
  | finish (i : Nat)

def Moment.findImageByAddress (s : Moment w) (addr : BitVec w) : Option (Image w) :=
  s.images.find? (·.contains addr)

/-- How often `ForEachImage` visits an image. -/
def Moment.visits (s : Moment w) (img : Image w) : Nat := s.images.countP (·.id = img.id)

/-- `new` would not give this address. -/
def Moment.inUse (s : Moment w) (addr : BitVec w) : Bool :=
  s.images.any (·.addr = addr) || s.tasks.any (·.img.addr = addr)

def Moment.step (s : Moment w) : Event w → Option (Moment w)
  | .dlopen env =>
    if env.addr = 0 ∨ s.inUse env.addr then none
    else
      match env.phdrs with
      | none => some s
      | some phdrs =>
        if ∃ ph, ph ∈ phdrs ∧ ph.type = .tls ∧ 0 < ph.memsz then some s
        else
          match (Image.load env phdrs s.next).1 with
          | none => some { s with next := s.next + 1 }
          | some img =>
            some { s with next := s.next + 1, tasks := s.tasks ++ [⟨img, false, img.constructors, none⟩] }
  | .dlclose handle =>
    match s.images.find? (·.addr = handle) with
    | none => some s
    | some img =>
      let functions := if img.constructorsCalled then img.destructors else []
      some { s with
        images := s.images.eraseP (·.addr = handle)
        tasks := s.tasks ++ [⟨img, true, functions, none⟩] }
  | .enter i =>
    match s.tasks[i]? with
    | some ⟨img, closing, fn :: left, none⟩ =>
      some { s with tasks := s.tasks.set i ⟨img, closing, left, some fn⟩ }
    | _ => none
  | .leave i =>
    match s.tasks[i]? with
    | some ⟨img, closing, left, some _⟩ => some { s with tasks := s.tasks.set i ⟨img, closing, left, none⟩ }
    | _ => none
  | .finish i =>
    match s.tasks[i]? with
    | some ⟨img, closing, [], none⟩ =>
      some { s with
        images := if closing then s.images else s.images ++ [img]
        tasks := s.tasks.eraseIdx i }
    | _ => none

abbrev Moments : Moment w → List (Moment w × Event w) → Moment w → Prop :=
  Run fun s e t => s.step e = some t

/-- The functions that are called, in order. -/
def called (tr : List (Moment w × Event w)) : List (BitVec w) :=
  tr.filterMap fun
    | (s, .enter i) => s.tasks[i]?.bind (·.left.head?)
    | _ => none

/-- Every address of the image leads to it, and it is visited once. -/
structure Moment.Visible (s : Moment w) (img : Image w) : Prop where
  found : ∀ addr, img.contains addr = true → s.findImageByAddress addr = some img
  visited : s.visits img = 1

/-- Every image of which a function is running is visible. -/
def Moment.AllVisible (s : Moment w) : Prop :=
  ∀ task ∈ s.tasks, task.inside ≠ none → s.Visible task.img

def Moment.Quiet (s : Moment w) : Prop := ∀ task ∈ s.tasks, task.inside = none

def Event.isEnter : Event w → Bool
  | .enter _ => true
  | _ => false

namespace VisibilityLemmas

/-! ## Calls that are not interrupted -/

/-- A task at the end of the list calls its functions one after the other. -/
theorem functions_moments (s : Moment w) (img : Image w) (closing : Bool) (functions : List (BitVec w)) :
    ∃ tr, Moments { s with tasks := s.tasks ++ [⟨img, closing, functions, none⟩] } tr
        { s with tasks := s.tasks ++ [⟨img, closing, [], none⟩] } ∧ called tr = functions := by
  induction functions with
  | nil => exact ⟨[], .refl, rfl⟩
  | cons fn left ih =>
    obtain ⟨tr, hrun, hcalled⟩ := ih
    let before : Moment w := { s with tasks := s.tasks ++ [⟨img, closing, fn :: left, none⟩] }
    let during : Moment w := { s with tasks := s.tasks ++ [⟨img, closing, left, some fn⟩] }
    have henter : before.step (.enter s.tasks.length) = some during := by
      simp [Moment.step, before, during]
    have hleave : during.step (.leave s.tasks.length) =
        some { s with tasks := s.tasks ++ [⟨img, closing, left, none⟩] } := by
      simp [Moment.step, during]
    refine ⟨_, (Run.single henter).append ((Run.single hleave).append hrun), ?_⟩
    simp [called] at hcalled ⊢
    exact hcalled

/-- The functions of a task, and what is left of its call. -/
theorem task_moments (s : Moment w) (img : Image w) (closing : Bool) (functions : List (BitVec w)) :
    ∃ tr, Moments { s with tasks := s.tasks ++ [⟨img, closing, functions, none⟩] } tr
        { s with images := if closing then s.images else s.images ++ [img] } ∧ called tr = functions := by
  obtain ⟨tr, hrun, hcalled⟩ := functions_moments s img closing functions
  have hfinish : ({ s with tasks := s.tasks ++ [⟨img, closing, [], none⟩] } : Moment w).step
      (.finish s.tasks.length) = some { s with images :=
        if closing then s.images else s.images ++ [img] } := by
    simp [Moment.step, eraseIdx_append_of_length_le]
  refine ⟨_, hrun.append (.single hfinish), ?_⟩
  rw [called, filterMap_append]
  exact (append_nil _).trans hcalled

theorem called_cons {e : Event w} (he : e.isEnter = false) (s : Moment w) (tr : List (Moment w × Event w)) :
    called ((s, e) :: tr) = called tr := by
  cases e with
  | enter i => cases he
  | _ => rfl

theorem dlopen_moments (s : Linker w) (tasks : List (Task w)) (env : LoadEnv w)
    (hnew : ¬ (env.addr = 0 ∨ (⟨s.images, s.next, tasks⟩ : Moment w).inUse env.addr = true)) :
    ∃ tr, Moments ⟨s.images, s.next, tasks⟩ tr ⟨(s.dlopen env).2.images, (s.dlopen env).2.next, tasks⟩ ∧
      called tr = (s.dlopen env).1.elim [] Image.constructors := by
  have hstep : (⟨s.images, s.next, tasks⟩ : Moment w).step (.dlopen env) = _ := if_neg hnew
  rw [Linker.dlopen]
  cases hphdrs : env.phdrs with
  | none =>
    rw [hphdrs] at hstep
    exact ⟨_, .single hstep, rfl⟩
  | some phdrs =>
    simp only [hphdrs] at hstep ⊢
    split_ifs at hstep ⊢
    · exact ⟨_, .single hstep, rfl⟩
    · rcases hload : Image.load env phdrs s.next with ⟨_ | img, acts⟩
      · rw [hload] at hstep
        exact ⟨_, .single hstep, rfl⟩
      · rw [hload] at hstep
        obtain ⟨tr, hrun, hcalled⟩ :=
          task_moments ⟨s.images, s.next + 1, tasks⟩ img false img.constructors
        refine ⟨_, (Run.single hstep).append hrun, ?_⟩
        exact (called_cons rfl _ tr).trans hcalled

theorem dlclose_moments (s : Linker w) (tasks : List (Task w)) (handle : BitVec w) :
    ∃ tr, Moments ⟨s.images, s.next, tasks⟩ tr
        ⟨(s.dlclose handle).2.images, (s.dlclose handle).2.next, tasks⟩ ∧
      called tr = (s.images.find? (·.addr = handle)).elim [] fun img =>
        if img.constructorsCalled then img.destructors else [] := by
  have hstep : (⟨s.images, s.next, tasks⟩ : Moment w).step (.dlclose handle) =
      match s.images.find? (·.addr = handle) with
      | none => some ⟨s.images, s.next, tasks⟩
      | some img => some ⟨s.images.eraseP (·.addr = handle), s.next,
          tasks ++ [⟨img, true, if img.constructorsCalled then img.destructors else [], none⟩]⟩ := rfl
  rw [Linker.dlclose]
  cases hfind : s.images.find? (·.addr = handle) with
  | none =>
    rw [hfind] at hstep
    exact ⟨_, .single hstep, rfl⟩
  | some img =>
    rw [hfind] at hstep
    obtain ⟨tr, hrun, hcalled⟩ := task_moments ⟨s.images.eraseP (·.addr = handle), s.next, tasks⟩ img true
      (if img.constructorsCalled then img.destructors else [])
    refine ⟨_, (Run.single hstep).append hrun, ?_⟩
    exact (called_cons rfl _ tr).trans hcalled

/-! ## Images that are listed -/

/-- The images that are listed, and those that are not yet or not any more. -/
def ids (s : Moment w) : List Nat := s.images.map Image.id ++ s.tasks.map (·.img.id)

/-- Every image is in one place. -/
structure Separate (s : Moment w) : Prop where
  nodup : (ids s).Nodup
  lt : ∀ id ∈ ids s, id < s.next

theorem perm_of_find? {α : Type} {p : α → Bool} {l : List α} {a : α} (h : l.find? p = some a) :
    l.Perm (a :: l.eraseP p) := by
  induction l with
  | nil => cases h
  | cons b l ih =>
    by_cases hb : p b = true
    · rw [find?_cons_of_pos hb] at h
      rw [eraseP_cons_of_pos hb, Option.some_inj.mp h]
    · rw [find?_cons_of_neg hb] at h
      rw [eraseP_cons_of_neg hb]
      exact ((ih h).cons b).trans (.swap _ _ _)

variable {s t : Moment w}

theorem ids_set {i : Nat} {task task' : Task w} (hget : s.tasks[i]? = some task)
    (himg : task'.img = task.img) : ids { s with tasks := s.tasks.set i task' } = ids s := by
  obtain ⟨hi, rfl⟩ := List.getElem?_eq_some_iff.mp hget
  have hi' : i < (s.tasks.map (·.img.id)).length := by rwa [length_map]
  have hid : task'.img.id = (s.tasks.map (·.img.id))[i] := by rw [himg, getElem_map]
  rw [ids, map_set, hid, set_getElem_self]
  rfl

inductive Stepped (s : Moment w) : Event w → Moment w → Prop
  | unchanged {e : Event w} : e.isEnter = false → Stepped s e s
  | failed {env : LoadEnv w} : Stepped s (.dlopen env) { s with next := s.next + 1 }
  | loaded {env : LoadEnv w} {img : Image w} : img.id = s.next → Stepped s (.dlopen env)
      ⟨s.images, s.next + 1, s.tasks ++ [⟨img, false, img.constructors, none⟩]⟩
  | closed {handle : BitVec w} {img : Image w} {functions : List (BitVec w)} :
      s.images.find? (·.addr = handle) = some img → Stepped s (.dlclose handle)
        ⟨s.images.eraseP (·.addr = handle), s.next, s.tasks ++ [⟨img, true, functions, none⟩]⟩
  | entered {i : Nat} {task : Task w} {fn : BitVec w} {left : List (BitVec w)} :
      s.tasks[i]? = some task → Stepped s (.enter i)
        { s with tasks := s.tasks.set i { task with left := left, inside := some fn } }
  | left {i : Nat} {task : Task w} : s.tasks[i]? = some task → Stepped s (.leave i)
      { s with tasks := s.tasks.set i { task with inside := none } }
  | finished {i : Nat} {task : Task w} : s.tasks[i]? = some task → Stepped s (.finish i)
      { s with
        images := if task.closing then s.images else s.images ++ [task.img]
        tasks := s.tasks.eraseIdx i }

theorem stepped_of_step {e : Event w} (h : s.step e = some t) : Stepped s e t := by
  cases e with
  | dlopen env =>
    rw [Moment.step] at h
    split_ifs at h
    cases hphdrs : env.phdrs with
    | none =>
      rw [hphdrs] at h
      cases h
      exact .unchanged rfl
    | some phdrs =>
      simp only [hphdrs] at h
      split_ifs at h
      · cases h
        exact .unchanged rfl
      · have hspec := LifeCycleLemmas.load_spec env phdrs s.next
        rcases hload : Image.load env phdrs s.next with ⟨_ | img, acts⟩
        · rw [hload] at h
          cases h
          exact .failed
        · rw [hload] at h hspec
          cases h
          exact .loaded hspec.1
  | dlclose handle =>
    rw [Moment.step] at h
    split at h <;> cases h
    · exact .unchanged rfl
    · next hfind => exact .closed hfind
  | enter i =>
    rw [Moment.step] at h
    split at h <;> cases h
    next hget => exact .entered hget
  | leave i =>
    rw [Moment.step] at h
    split at h <;> cases h
    next hget => exact .left hget
  | finish i =>
    rw [Moment.step] at h
    split at h <;> cases h
    next hget => exact .finished hget

theorem separate_of_subperm (h : Separate s) (hids : (ids t).Subperm (ids s))
    (hnext : s.next ≤ t.next) : Separate t where
  nodup := nodup_iff_count_le_one.mpr fun id =>
    Nat.le_trans (hids.count_le id) (nodup_iff_count_le_one.mp h.nodup id)
  lt id hid := Nat.lt_of_lt_of_le (h.lt id (hids.subset hid)) hnext

theorem separate_step {e : Event w} (h : Separate s) (hstep : s.step e = some t) :
    Separate t := by
  cases stepped_of_step hstep with
  | unchanged => exact h
  | failed => exact separate_of_subperm h (List.Subperm.refl _) (Nat.le_succ _)
  | @loaded _ img hid =>
    have hids : ids ⟨s.images, s.next + 1, s.tasks ++ [⟨img, false, img.constructors, none⟩]⟩ =
        ids s ++ [s.next] := by
      rw [ids, ids, map_append, append_assoc, ← hid]
      rfl
    constructor
    · rw [hids, nodup_append_comm]
      exact nodup_cons.mpr ⟨fun hmem => Nat.lt_irrefl _ (h.lt _ hmem), h.nodup⟩
    · rw [hids]
      refine forall_mem_append.mpr ⟨fun id hid => Nat.lt_succ_of_lt (h.lt id hid), ?_⟩
      exact forall_mem_singleton.mpr (Nat.lt_succ_self _)
  | @closed handle img functions hfind =>
    refine separate_of_subperm h (List.Perm.subperm ?_) (Nat.le_refl _)
    have hperm := (perm_of_find? hfind).map Image.id
    rw [ids, ids, map_append, map_cons, map_nil]
    refine List.Perm.trans ?_ (hperm.symm.append_right _)
    rw [← append_assoc]
    exact perm_append_singleton _ _
  | entered hget | left hget =>
    refine separate_of_subperm h (List.Perm.subperm (.of_eq ?_)) (Nat.le_refl _)
    exact ids_set hget rfl
  | @finished i task hget =>
    refine separate_of_subperm h ?_ (Nat.le_refl _)
    obtain ⟨hi, rfl⟩ := List.getElem?_eq_some_iff.mp hget
    have hperm := (getElem_cons_eraseIdx_perm hi).map (·.img.id)
    rw [ids, ids]
    dsimp only
    split
    · exact (List.Sublist.map _ (eraseIdx_sublist _ _)).append_left _ |>.subperm
    · refine List.Perm.subperm ?_
      rw [map_append, append_assoc]
      exact hperm.append_left _

/-- An image is not listed while a call is at its functions. -/
theorem not_listed (h : Separate s) {task : Task w} (htask : task ∈ s.tasks) {img : Image w}
    (himg : img ∈ s.images) : img.id ≠ task.img.id :=
  (nodup_append.mp h.nodup).2.2 _ (mem_map_of_mem himg) _
    (mem_map_of_mem (f := fun task => task.img.id) htask)

theorem visits_eq_zero (h : Separate s) {task : Task w} (htask : task ∈ s.tasks) :
    s.visits task.img = 0 := by
  rw [Moment.visits, countP_eq_zero]
  exact fun img himg => by simpa using not_listed h htask himg

theorem allVisible_iff_quiet (h : Separate s) : s.AllVisible ↔ s.Quiet := by
  constructor
  · intro hvisible task htask
    by_contra hinside
    have hvisits := (hvisible task htask hinside).visited
    rw [visits_eq_zero h htask] at hvisits
    cases hvisits
  · exact fun hquiet task htask hinside => absurd (hquiet task htask) hinside

/-- From a quiet moment, a function runs after a step if the step has called it. -/
theorem quiet_step {e : Event w} (hquiet : s.Quiet) (hstep : s.step e = some t) :
    t.Quiet ↔ e.isEnter = false := by
  cases stepped_of_step hstep with
  | unchanged he => exact iff_of_true hquiet he
  | failed => exact iff_of_true hquiet rfl
  | loaded | closed =>
    exact iff_of_true (forall_mem_append.mpr ⟨hquiet, forall_mem_singleton.mpr rfl⟩) rfl
  | @entered i task fn left hget =>
    refine iff_of_false (fun hquiet' => ?_) Bool.noConfusion
    have hi := (List.getElem?_eq_some_iff.mp hget).1
    cases hquiet' _ (mem_set hi { task with left := left, inside := some fn })
  | left hget =>
    refine iff_of_true (fun task htask => ?_) rfl
    rcases mem_or_eq_of_mem_set htask with htask | rfl
    · exact hquiet task htask
    · rfl
  | finished => exact iff_of_true (fun task htask => hquiet task (mem_of_mem_eraseIdx htask)) rfl

end VisibilityLemmas

open VisibilityLemmas

/-- In every sequence of calls, an image is visible at all moments at which one of its functions
runs if and only if no function is ever called. -/
theorem visible_while_called_iff {tr : List (Moment w × Event w)} {t : Moment w}
    (h : Moments Moment.start tr t) :
    (∀ s ∈ visited tr t, s.AllVisible) ↔ ∀ p ∈ tr, p.2.isEnter = false := by
  have hstart : Separate (Moment.start : Moment w) := ⟨nodup_nil, nofun⟩
  refine (h.forall_ok_iff Separate Moment.AllVisible (fun _ e => e.isEnter = false) ?_ ?_ hstart nofun).symm
  · exact fun s e t hs hstep => separate_step hs hstep
  · intro s e t hs hvisible hstep
    rw [allVisible_iff_quiet (separate_step hs hstep)]
    exact quiet_step ((allVisible_iff_quiet hs).mp hvisible) hstep

/-- At any moment an image is listed, or one call is at its functions: no two calls destroy it, and none
destroys it while it is listed. -/
theorem one_place (w : Nat) :
    Always (fun s e t => s.step e = some t) (Moment.start : Moment w) fun s =>
      (s.images.map Image.id ++ s.tasks.map (·.img.id)).Nodup :=
  .of_invariant Separate ⟨nodup_nil, nofun⟩ (fun _ _ _ => separate_step) fun _ => Separate.nodup

/-- A module at `0x10000` with a constructor and a destructor. -/
def moduleEnv : LoadEnv 64 where
  page := smallPages
  phdrs := some [⟨.load, 5, 0, 0, 0x1000, 0x1000, 0x1000⟩]
  addr := 0x500
  mmap _ := some 0x10000
  fills := true
  parseDynamic := some ⟨[], some 0x10100, some 0x10200, [], []⟩
  protects := true
  dlopen _ _ _ := none
  relocates := true

def silentEnv : LoadEnv 64 := { moduleEnv with parseDynamic := some ⟨[], none, none, [], []⟩ }

theorem visible_while_called_iff_silent :
    ∃ tr t, Moments (Moment.start : Moment 64) tr t ∧ t.images.map Image.addr = [0x500] ∧
      ∀ s ∈ visited tr t, s.AllVisible := by
  have hsome : (exec Moment.step Moment.start [.dlopen silentEnv, .finish 0]).isSome = true := by decide
  obtain ⟨hrun, hlabels⟩ := run_exec_get hsome
  refine ⟨_, _, hrun, rfl, (visible_while_called_iff hrun).mpr fun p hp => ?_⟩
  have hlabel := mem_map_of_mem (f := Prod.snd) hp
  rw [hlabels] at hlabel
  simp only [mem_cons, not_mem_nil, or_false] at hlabel
  rcases hlabel with hlabel | hlabel <;> rw [hlabel] <;> rfl

/-- The functions of the module run, its constructor first, while no image is found at their
addresses and none is visited. -/
theorem functions_called_invisibly :
    (exec Moment.step Moment.start [.dlopen moduleEnv, .enter 0]).map
        (fun r => (r.2.tasks.map (·.inside), r.2.findImageByAddress 0x10100, r.2.images.length)) =
      some ([some 0x10100], none, 0) ∧
    (exec Moment.step Moment.start
        [.dlopen moduleEnv, .enter 0, .leave 0, .finish 0, .dlclose 0x500, .enter 0]).map
        (fun r => (r.2.tasks.map (·.inside), r.2.findImageByAddress 0x10200, r.2.images.length)) =
      some ([some 0x10200], none, 0) := by decide

end NyaZygisk.LifeCycle
