import NyaZygisk.Lib.Runs
import NyaZygisk.Mapping

/-!
# The life of a module's image

`Image::Load` and `Image::~Image` of `linker.cpp`, the list of images behind its handles, and
`module_loader.cpp`, which falls back on the system's loader. What is mapped, opened and run for
an image goes to a log, under the number of the image.
-/

namespace NyaZygisk.LifeCycle

open List Pages Runs

variable {w : Nat}

/-! ## Images -/

inductive ImageAct (w : Nat)
  /-- The reservation, as `MapSegments` leaves it. -/
  | reserve (start size : BitVec w)
  | munmap (start size : BitVec w)
  /-- The handle that is kept for a `DT_NEEDED`. -/
  | dlopen (handle : Option (BitVec w))
  | dlclose (handle : BitVec w)
  | constructors (functions : List (BitVec w))
  | destructors (functions : List (BitVec w))
deriving DecidableEq

/-- An image. `id` is its number, and `addr` where it is allocated, which is its handle. -/
structure Image (w : Nat) where
  id : Nat
  addr : BitVec w
  mapStart : BitVec w
  mapSize : BitVec w
  initFunc : Option (BitVec w)
  finiFunc : Option (BitVec w)
  initArray : List (BitVec w)
  finiArray : List (BitVec w)
  neededHandles : List (Option (BitVec w))
  constructorsCalled : Bool
deriving DecidableEq

/-- `new Image()`. -/
def Image.new (id : Nat) (addr : BitVec w) : Image w :=
  ⟨id, addr, 0, 0, none, none, [], [], [], false⟩

/-- Neither null nor -1. -/
def isFunction (fn : BitVec w) : Bool := fn ≠ 0 && fn ≠ BitVec.allOnes w

def Image.constructors (img : Image w) : List (BitVec w) :=
  img.initFunc.toList ++ img.initArray.filter isFunction

def Image.destructors (img : Image w) : List (BitVec w) :=
  img.finiArray.reverse.filter isFunction ++ img.finiFunc.toList

def Image.callConstructors (img : Image w) : List (ImageAct w) × Image w :=
  if img.constructorsCalled then ([], img)
  else ([.constructors img.constructors], { img with constructorsCalled := true })

def Image.callDestructors (img : Image w) : List (ImageAct w) :=
  if img.constructorsCalled then [.destructors img.destructors] else []

/-- `~Image`. -/
def Image.destroy (img : Image w) : List (ImageAct w) :=
  img.callDestructors ++ img.neededHandles.reduceOption.map .dlclose ++
    if img.mapStart ≠ 0 ∧ img.mapSize ≠ 0 then [.munmap img.mapStart img.mapSize] else []

structure Dynamic (w : Nat) where
  neededNames : List String
  initFunc : Option (BitVec w)
  finiFunc : Option (BitVec w)
  initArray : List (BitVec w)
  finiArray : List (BitVec w)
deriving DecidableEq

/-- The functions that an image with this section has to run when it is loaded, in their order. -/
def Dynamic.inits (dyn : Dynamic w) : List (BitVec w) :=
  dyn.initFunc.toList ++ dyn.initArray.filter isFunction

/-- And those for when it is unloaded. -/
def Dynamic.finis (dyn : Dynamic w) : List (BitVec w) :=
  (dyn.finiArray.filter isFunction).reverse ++ dyn.finiFunc.toList

structure LoadEnv (w : Nat) where
  page : PageSize w
  /-- The program headers, if the file can be read and is a native shared object. -/
  phdrs : Option (List (Phdr w))
  /-- Where `new` puts the image. -/
  addr : BitVec w
  /-- What `mmap` gives for a reservation. -/
  mmap : BitVec w → Option (BitVec w)
  fills : Bool
  parseDynamic : Option (Dynamic w)
  protects : Bool
  /-- What `dlopen` gives for the name at a place of the list, with `RTLD_NOLOAD` or without. -/
  dlopen : Nat → String → Bool → Option (BitVec w)
  relocates : Bool

/-- The reservation of `MapSegments`, without the slack. -/
def LoadEnv.reservation (env : LoadEnv w) (phdrs : List (Phdr w)) : Option (BitVec w × BitVec w) :=
  (planSegments env.page phdrs).bind fun plan =>
    (env.mmap plan.reserve).map fun raw => (plan.aligned raw, plan.span)

def LoadEnv.neededHandles (env : LoadEnv w) (names : List String) : List (Option (BitVec w)) :=
  names.mapIdx fun i name => (env.dlopen i name true).or (env.dlopen i name false)

/-- `Image::Load`, from `new` on: the image, and what was done for it. -/
def Image.load (env : LoadEnv w) (phdrs : List (Phdr w)) (id : Nat) :
    Option (Image w) × List (ImageAct w) :=
  let img := Image.new id env.addr
  match env.reservation phdrs with
  | none => (none, img.destroy)
  | some (start, size) =>
    let img := { img with mapStart := start, mapSize := size }
    let acts := [.reserve start size]
    if !env.fills then (none, acts ++ img.destroy)
    else
      match env.parseDynamic with
      | none => (none, acts ++ img.destroy)
      | some dyn =>
        let img := { img with
          initFunc := dyn.initFunc
          finiFunc := dyn.finiFunc
          initArray := dyn.initArray
          finiArray := dyn.finiArray }
        if !env.protects then (none, acts ++ img.destroy)
        else
          let img := { img with neededHandles := env.neededHandles dyn.neededNames }
          let acts := acts ++ img.neededHandles.map .dlopen
          if !env.relocates then (none, acts ++ img.destroy)
          else
            let (calls, img) := img.callConstructors
            (some img, acts ++ calls)

/-! ## Handles -/

inductive Act (w : Nat)
  | image (id : Nat) (act : ImageAct w)
  | systemOpen
  | systemClose (handle : BitVec w)
deriving DecidableEq

/-- `g_images`, the number of images made so far, the numbers of those whose load succeeded, with
their dynamic sections, and the log. -/
structure Linker (w : Nat) where
  images : List (Image w)
  next : Nat
  loaded : List (Nat × Dynamic w)
  log : List (Act w)
deriving DecidableEq

def Linker.start : Linker w := ⟨[], 0, [], []⟩

/-- `linker::Dlopen`. -/
def Linker.dlopen (s : Linker w) (env : LoadEnv w) : Option (Image w) × Linker w :=
  match env.phdrs with
  | none => (none, s)
  | some phdrs =>
    if ∃ ph, ph ∈ phdrs ∧ ph.type = .tls ∧ 0 < ph.memsz then (none, s)
    else
      match Image.load env phdrs s.next with
      | (none, acts) =>
        (none, { s with next := s.next + 1, log := s.log ++ acts.map (.image s.next) })
      | (some img, acts) =>
        (some img,
          { images := s.images ++ [img]
            next := s.next + 1
            loaded := s.loaded ++ env.parseDynamic.toList.map (s.next, ·)
            log := s.log ++ acts.map (.image s.next) })

def Linker.isOurHandle (s : Linker w) (handle : BitVec w) : Bool := s.images.any (·.addr = handle)

/-- `linker::Dlclose`. -/
def Linker.dlclose (s : Linker w) (handle : BitVec w) : Bool × Linker w :=
  match s.images.find? (·.addr = handle) with
  | none => (false, s)
  | some img =>
    (true, { s with
      images := s.images.eraseP (·.addr = handle)
      log := s.log ++ img.destroy.map (.image img.id) })

/-- What `modloader::Dlopen` meets; `system` is what `DlopenMem` gives. -/
structure OpenEnv (w : Nat) where
  isCustomLinkerEnabled : Bool
  load : LoadEnv w
  system : Option (BitVec w)

/-- The handle, and `via_system`. -/
structure Opened (w : Nat) where
  handle : Option (BitVec w)
  viaSystem : Bool
deriving DecidableEq

/-- `modloader::Dlopen`. -/
def Modloader.dlopen (s : Linker w) (env : OpenEnv w) : Opened w × Linker w :=
  match if env.isCustomLinkerEnabled then s.dlopen env.load else (none, s) with
  | (some img, s) => (⟨some img.addr, false⟩, s)
  | (none, s) => (⟨env.system, true⟩, { s with log := s.log ++ [.systemOpen] })

/-- `modloader::Dlclose`, where `system` says whether the system's `dlclose` succeeds. -/
def Modloader.dlclose (s : Linker w) (handle : BitVec w) (system : Bool) : Bool × Linker w :=
  if s.isOurHandle handle then s.dlclose handle
  else (system, { s with log := s.log ++ [.systemClose handle] })

inductive Call (w : Nat)
  | dlopen (env : OpenEnv w)
  | dlclose (handle : BitVec w) (system : Bool)

/-- A call. `new` gives memory that is not in use, and not null. -/
def Linker.step (s : Linker w) : Call w → Option (Linker w)
  | .dlopen env =>
    if env.load.addr = 0 ∨ s.isOurHandle env.load.addr then none else some (Modloader.dlopen s env).2
  | .dlclose handle system => some (Modloader.dlclose s handle system).2

/-- A sequence of calls, each with the state it was made in. -/
abbrev Calls : Linker w → List (Linker w × Call w) → Linker w → Prop :=
  Run fun s c t => s.step c = some t

/-! ## What has happened for an image -/

def actsOf (id : Nat) (log : List (Act w)) : List (ImageAct w) :=
  log.filterMap fun
    | .image i act => if i = id then some act else none
    | .systemOpen | .systemClose _ => none

structure Tally (w : Nat) where
  reserved : List (BitVec w × BitVec w) := []
  unmapped : List (BitVec w × BitVec w) := []
  opened : List (BitVec w) := []
  closed : List (BitVec w) := []
  constructed : List (List (BitVec w)) := []
  destructed : List (List (BitVec w)) := []

instance : Append (Tally w) where
  append t u := ⟨t.reserved ++ u.reserved, t.unmapped ++ u.unmapped, t.opened ++ u.opened,
    t.closed ++ u.closed, t.constructed ++ u.constructed, t.destructed ++ u.destructed⟩

/-- An empty range is no reservation, nor is one at null, where nothing is mapped. -/
def range (start size : BitVec w) : List (BitVec w × BitVec w) :=
  if start ≠ 0 ∧ size ≠ 0 then [(start, size)] else []

def ImageAct.tally : ImageAct w → Tally w
  | .reserve start size => { reserved := range start size }
  | .munmap start size => { unmapped := [(start, size)] }
  | .dlopen handle => { opened := handle.toList }
  | .dlclose handle => { closed := [handle] }
  | .constructors functions => { constructed := [functions] }
  | .destructors functions => { destructed := [functions] }

def tally : List (ImageAct w) → Tally w
  | [] => {}
  | act :: acts => act.tally ++ tally acts

/-- Everything was given back, once, and the constructors and destructors of `dyn` ran once. -/
structure Released (t : Tally w) (dyn : Option (Dynamic w)) : Prop where
  handles : t.closed = t.opened
  reservation : t.unmapped = t.reserved
  single : t.reserved.length ≤ 1
  constructors : t.constructed = (dyn.map Dynamic.inits).toList
  destructors : t.destructed = (dyn.map Dynamic.finis).toList

/-- The constructors of `dyn` have run once, and nothing was given back. -/
structure InUse (t : Tally w) (dyn : Dynamic w) : Prop where
  handles : t.closed = []
  reservation : t.unmapped = []
  single : t.reserved.length ≤ 1
  constructors : t.constructed = [dyn.inits]
  destructors : t.destructed = []

def Linker.Live (s : Linker w) (id : Nat) : Prop := ∃ img, img ∈ s.images ∧ img.id = id

/-- The image of a load that succeeded is in use, or was closed; that of any other load had
everything released, and ran nothing. -/
def Linker.Balanced (s : Linker w) (id : Nat) : Prop :=
  (s.Live id → ∃ dyn, s.loaded.lookup id = some dyn ∧ InUse (tally (actsOf id s.log)) dyn) ∧
    (¬ s.Live id → Released (tally (actsOf id s.log)) (s.loaded.lookup id))

/-- The handles of successful custom loads, after one more call. -/
def addCall (handles : List (BitVec w)) : Linker w × Call w → List (BitVec w)
  | (s, .dlopen env) =>
    let opened := (Modloader.dlopen s env).1
    if opened.viaSystem then handles else handles ++ opened.handle.toList
  | (_, .dlclose handle _) => handles.filter (· ≠ handle)

/-- The handles that successful custom loads returned and that were not closed since. -/
def openHandles (calls : List (Linker w × Call w)) : List (BitVec w) := calls.foldl addCall []

/-- If a call goes to the system's loader, what was done before in it is released. -/
def ReleasesFirst (s : Linker w) : Call w → Prop
  | .dlopen env => (Modloader.dlopen s env).1.viaSystem = true → ∃ acts,
      (Modloader.dlopen s env).2.log = s.log ++ acts.map (.image s.next) ++ [.systemOpen] ∧
        Released (tally acts) none
  | .dlclose .. => True

namespace LifeCycleLemmas

/-! ## Acts -/

theorem actsOf_append (id : Nat) (log log' : List (Act w)) :
    actsOf id (log ++ log') = actsOf id log ++ actsOf id log' := filterMap_append

theorem actsOf_own (id : Nat) (acts : List (ImageAct w)) : actsOf id (acts.map (.image id)) = acts := by
  simp [actsOf, filterMap_map]

theorem actsOf_other {id i : Nat} (h : i ≠ id) (acts : List (ImageAct w)) :
    actsOf id (acts.map (.image i)) = [] := by
  simp [actsOf, filterMap_map, h]

theorem mk_append (reserved unmapped reserved' unmapped' : List (BitVec w × BitVec w))
    (opened closed opened' closed' : List (BitVec w))
    (constructed destructed constructed' destructed' : List (List (BitVec w))) :
    (⟨reserved, unmapped, opened, closed, constructed, destructed⟩ : Tally w) ++
        (⟨reserved', unmapped', opened', closed', constructed', destructed'⟩ : Tally w) =
      ⟨reserved ++ reserved', unmapped ++ unmapped', opened ++ opened', closed ++ closed',
        constructed ++ constructed', destructed ++ destructed'⟩ := rfl

theorem append_assoc (t u v : Tally w) : t ++ u ++ v = t ++ (u ++ v) := by
  obtain ⟨⟩ := t
  obtain ⟨⟩ := u
  obtain ⟨⟩ := v
  simp only [mk_append, List.append_assoc]

theorem tally_append (acts acts' : List (ImageAct w)) :
    tally (acts ++ acts') = tally acts ++ tally acts' := by
  induction acts with
  | nil => rfl
  | cons act acts ih => rw [cons_append, tally, tally, ih, append_assoc]

theorem tally_dlopen (handles : List (Option (BitVec w))) :
    tally (handles.map .dlopen) = { opened := handles.reduceOption } := by
  induction handles with
  | nil => rfl
  | cons handle handles ih =>
    rw [map_cons, tally, ih]
    cases handle <;> rfl

theorem tally_dlclose (handles : List (BitVec w)) :
    tally (handles.map .dlclose) = { closed := handles } := by
  induction handles with
  | nil => rfl
  | cons handle handles ih =>
    rw [map_cons, tally, ih]
    rfl

theorem tally_munmap (start size : BitVec w) :
    tally (if start ≠ 0 ∧ size ≠ 0 then [.munmap start size] else []) =
      { unmapped := range start size } := by
  rw [range]
  split <;> rfl

/-! ## One image -/

/-- What was done for an image, as it is recorded in it. -/
def holdings (img : Image w) : Tally w where
  reserved := range img.mapStart img.mapSize
  opened := img.neededHandles.reduceOption
  constructed := if img.constructorsCalled then [img.constructors] else []

theorem length_range_le (start size : BitVec w) : (range start size).length ≤ 1 := by
  rw [range]
  split
  · exact Nat.le_refl 1
  · exact Nat.zero_le 1

theorem tally_callDestructors (img : Image w) : tally img.callDestructors =
    { destructed := if img.constructorsCalled then [img.destructors] else [] } := by
  rw [Image.callDestructors]
  split <;> rfl

theorem tally_destroy (img : Image w) : tally img.destroy =
    { unmapped := range img.mapStart img.mapSize
      closed := img.neededHandles.reduceOption
      destructed := if img.constructorsCalled then [img.destructors] else [] } := by
  rw [Image.destroy, tally_append, tally_append, tally_callDestructors, tally_dlclose, tally_munmap]
  simp only [mk_append, nil_append, append_nil]

section Image

variable {img : Image w} {acts : List (ImageAct w)}

theorem holdings_new (id : Nat) (addr : BitVec w) : tally [] = holdings (Image.new id addr) := by
  simp [tally, holdings, Image.new, range]

theorem holdings_reserve (id : Nat) (addr start size : BitVec w) :
    tally [.reserve start size] =
      holdings { Image.new id addr with mapStart := start, mapSize := size } := by
  rw [tally, tally, ImageAct.tally, mk_append, append_nil]
  rfl

theorem holdings_dlopen (h : tally acts = holdings img) (hnone : img.neededHandles = [])
    (handles : List (Option (BitVec w))) :
    tally (acts ++ handles.map .dlopen) = holdings { img with neededHandles := handles } := by
  rw [tally_append, h, tally_dlopen, holdings, hnone]
  simp only [mk_append, append_nil, reduceOption_nil, nil_append]
  rfl

theorem holdings_callConstructors (h : tally acts = holdings img) (hnot : img.constructorsCalled = false) :
    tally (acts ++ img.callConstructors.1) = holdings img.callConstructors.2 := by
  rw [tally_append, h, Image.callConstructors, holdings, hnot]
  simp only [Bool.false_eq_true, if_false, tally, ImageAct.tally, mk_append, append_nil,
    nil_append]
  rfl

/-- The constructors of the image have run, and it has the functions of the dynamic section. -/
structure Runs (img : Image w) (dyn : Dynamic w) : Prop where
  called : img.constructorsCalled = true
  constructors : img.constructors = dyn.inits
  destructors : img.destructors = dyn.finis

/-- `~Image` gives back what the image holds. -/
theorem released_destroy (h : tally acts = holdings img) {dyn : Option (Dynamic w)}
    (hruns : match dyn with | none => img.constructorsCalled = false | some dyn => Runs img dyn) :
    Released (tally (acts ++ img.destroy)) dyn := by
  rw [tally_append, h, tally_destroy, holdings, mk_append]
  simp only [append_nil, nil_append]
  cases dyn with
  | none =>
    rw [show img.constructorsCalled = false from hruns]
    exact ⟨rfl, rfl, length_range_le _ _, rfl, rfl⟩
  | some dyn =>
    obtain ⟨hcalled, hconstructors, hdestructors⟩ : Runs img dyn := hruns
    rw [hcalled, hconstructors, hdestructors]
    exact ⟨rfl, rfl, length_range_le _ _, rfl, rfl⟩

theorem inUse_of_holdings (h : tally acts = holdings img) {dyn : Dynamic w} (hruns : Runs img dyn) :
    InUse (tally acts) dyn := by
  rw [h, holdings, hruns.called]
  exact ⟨rfl, rfl, length_range_le _ _, congrArg (fun fns => [fns]) hruns.constructors, rfl⟩

end Image

/-- A load succeeds with an image that holds all it has made, or it has released all of it and
ran nothing. -/
theorem load_spec (env : LoadEnv w) (phdrs : List (Phdr w)) (id : Nat) :
    match Image.load env phdrs id with
    | (none, acts) => Released (tally acts) none
    | (some img, acts) => img.id = id ∧ img.addr = env.addr ∧ tally acts = holdings img ∧
        ∃ dyn, env.parseDynamic = some dyn ∧ Runs img dyn := by
  rw [Image.load]
  cases env.reservation phdrs with
  | none => exact released_destroy (holdings_new id env.addr) rfl
  | some range =>
    have hreserve := holdings_reserve id env.addr range.1 range.2
    cases env.fills with
    | false => exact released_destroy hreserve rfl
    | true =>
      cases env.parseDynamic with
      | none => exact released_destroy hreserve rfl
      | some dyn =>
        let img : Image w := ⟨id, env.addr, range.1, range.2, dyn.initFunc, dyn.finiFunc, dyn.initArray,
          dyn.finiArray, [], false⟩
        have hparse : tally [.reserve range.1 range.2] = holdings img := hreserve
        cases env.protects with
        | false => exact released_destroy hparse rfl
        | true =>
          have hneeded := holdings_dlopen hparse rfl (env.neededHandles dyn.neededNames)
          cases env.relocates with
          | false => exact released_destroy hneeded rfl
          | true =>
            have hdestructors : img.destructors = dyn.finis :=
              congrArg (· ++ dyn.finiFunc.toList) filter_reverse
            exact ⟨rfl, rfl, holdings_callConstructors hneeded rfl, dyn, rfl, rfl, rfl, hdestructors⟩

/-! ## One call -/

/-- The images behind the handles are those of the loads that succeeded, they hold what was done
for them, and the others have released it. -/
structure Sound (s : Linker w) : Prop where
  ids : (s.images.map Image.id).Nodup
  addrs : (s.images.map Image.addr).Nodup
  fresh : ∀ id, s.next ≤ id → actsOf id s.log = [] ∧ s.loaded.lookup id = none
  live : ∀ img ∈ s.images, tally (actsOf img.id s.log) = holdings img ∧
    ∃ dyn, s.loaded.lookup img.id = some dyn ∧ Runs img dyn
  gone : ∀ id, ¬ s.Live id → Released (tally (actsOf id s.log)) (s.loaded.lookup id)

variable {s : Linker w}

theorem released_nil : Released (tally ([] : List (ImageAct w))) none :=
  ⟨rfl, rfl, Nat.zero_le 1, rfl, rfl⟩

theorem sound_start : Sound (Linker.start : Linker w) where
  ids := nodup_nil
  addrs := nodup_nil
  fresh := fun _ _ => ⟨rfl, rfl⟩
  live := fun _ h => absurd h not_mem_nil
  gone := fun _ _ => released_nil

theorem Sound.id_lt (h : Sound s) {img : Image w} (himg : img ∈ s.images) : img.id < s.next :=
  Nat.lt_of_not_le fun hle => by
    obtain ⟨-, dyn, hdyn, -⟩ := h.live img himg
    rw [(h.fresh img.id hle).2] at hdyn
    cases hdyn

theorem balanced_of_sound (h : Sound s) (id : Nat) : s.Balanced id := by
  refine ⟨?_, h.gone id⟩
  rintro ⟨img, himg, rfl⟩
  obtain ⟨hholds, dyn, hdyn, hruns⟩ := h.live img himg
  exact ⟨dyn, hdyn, inUse_of_holdings hholds hruns⟩

/-- What the system's loader does is for no image. -/
theorem sound_system (h : Sound s) {act : Act w} (hact : ∀ id, actsOf id [act] = []) :
    Sound { s with log := s.log ++ [act] } := by
  have hacts : ∀ id, actsOf id (s.log ++ [act]) = actsOf id s.log := fun id => by
    rw [actsOf_append, hact, append_nil]
  constructor
  · exact h.ids
  · exact h.addrs
  · simpa only [hacts] using h.fresh
  · simpa only [hacts] using h.live
  · intro id hgone
    rw [hacts]
    exact h.gone id hgone

theorem actsOf_image_other {id i : Nat} (hne : i ≠ id) (log : List (Act w)) (acts : List (ImageAct w)) :
    actsOf id (log ++ acts.map (.image i)) = actsOf id log := by
  rw [actsOf_append, actsOf_other hne, append_nil]

theorem Sound.actsOf_next (h : Sound s) (acts : List (ImageAct w)) :
    actsOf s.next (s.log ++ acts.map (.image s.next)) = acts := by
  rw [actsOf_append, (h.fresh s.next (Nat.le_refl _)).1, actsOf_own, nil_append]

theorem lookup_append_other {id i : Nat} (hne : i ≠ id) (loaded : List (Nat × Dynamic w)) (dyn : Dynamic w) :
    (loaded ++ [(i, dyn)]).lookup id = loaded.lookup id := by
  rw [lookup_append, lookup_cons, beq_false_of_ne hne.symm]
  exact Option.or_none

theorem sound_failed (h : Sound s) {acts : List (ImageAct w)} (hacts : Released (tally acts) none) :
    Sound { s with next := s.next + 1, log := s.log ++ acts.map (.image s.next) } where
  ids := h.ids
  addrs := h.addrs
  fresh := fun id hid => by
    rw [actsOf_image_other (Nat.ne_of_lt hid)]
    exact h.fresh id (Nat.le_of_lt hid)
  live := fun img himg => by
    rw [actsOf_image_other (Nat.ne_of_gt (h.id_lt himg))]
    exact h.live img himg
  gone := fun id hgone => by
    by_cases hid : s.next = id
    · subst hid
      rw [h.actsOf_next, (h.fresh s.next (Nat.le_refl _)).2]
      exact hacts
    · rw [actsOf_image_other hid]
      exact h.gone id hgone

theorem isOurHandle_iff {handle : BitVec w} :
    s.isOurHandle handle = true ↔ handle ∈ s.images.map Image.addr := by
  simp [Linker.isOurHandle]

theorem sound_loaded (h : Sound s) {img : Image w} {acts : List (ImageAct w)}
    (hid : img.id = s.next) (haddr : ¬ s.isOurHandle img.addr = true) {dyn : Dynamic w}
    (hruns : Runs img dyn) (hacts : tally acts = holdings img) :
    Sound ⟨s.images ++ [img], s.next + 1, s.loaded ++ [(s.next, dyn)],
      s.log ++ acts.map (.image s.next)⟩ where
  ids := by
    rw [map_append, nodup_append_comm]
    refine nodup_cons.mpr ⟨fun hmem => ?_, h.ids⟩
    obtain ⟨other, hother, heq⟩ := mem_map.mp hmem
    exact Nat.ne_of_lt (h.id_lt hother) (heq.trans hid)
  addrs := by
    rw [map_append, nodup_append_comm]
    exact nodup_cons.mpr ⟨fun hmem => haddr (isOurHandle_iff.mpr hmem), h.addrs⟩
  fresh := fun id hle => by
    rw [actsOf_image_other (Nat.ne_of_lt hle), lookup_append_other (Nat.ne_of_lt hle)]
    exact h.fresh id (Nat.le_of_lt hle)
  live := fun other hother => by
    rcases mem_append.mp hother with hother | hother
    · have hne := Nat.ne_of_gt (h.id_lt hother)
      rw [actsOf_image_other hne, lookup_append_other hne]
      exact h.live other hother
    · obtain rfl := mem_singleton.mp hother
      rw [hid, h.actsOf_next, lookup_append, (h.fresh s.next (Nat.le_refl _)).2]
      exact ⟨hacts, dyn, lookup_cons_self, hruns⟩
  gone := fun id hgone => by
    have hne : s.next ≠ id := fun heq =>
      hgone ⟨img, mem_append_right _ mem_cons_self, hid.trans heq⟩
    have hold : ¬ s.Live id := fun ⟨other, hother, heq⟩ =>
      hgone ⟨other, mem_append_left _ hother, heq⟩
    rw [actsOf_image_other hne, lookup_append_other hne]
    exact h.gone id hold

/-- `Dlclose` takes one image out and destroys it. -/
theorem sound_closed (h : Sound s) {before after : List (Image w)} {img : Image w}
    (himages : s.images = before ++ img :: after) :
    Sound { s with
      images := before ++ after
      log := s.log ++ img.destroy.map (.image img.id) } := by
  have hids := h.ids
  have haddrs := h.addrs
  rw [himages, map_append, map_cons, nodup_middle, ← map_append] at hids haddrs
  obtain ⟨hother, hids⟩ := nodup_cons.mp hids
  have hold : ∀ other ∈ before ++ after, other ∈ s.images ∧ img.id ≠ other.id := by
    intro i hi
    refine ⟨?_, fun heq => hother (heq ▸ mem_map_of_mem hi)⟩
    rw [himages]
    rcases mem_append.mp hi with hi | hi
    · exact mem_append_left _ hi
    · exact mem_append_right _ (mem_cons_of_mem _ hi)
  have himg : img ∈ s.images := himages ▸ mem_append_right _ mem_cons_self
  obtain ⟨hholds, dyn, hdyn, hruns⟩ := h.live img himg
  constructor
  · exact hids
  · exact (nodup_cons.mp haddrs).2
  · intro id hid
    rw [actsOf_image_other (Nat.ne_of_lt (Nat.lt_of_lt_of_le (h.id_lt himg) hid))]
    exact h.fresh id hid
  · intro other hmem
    rw [actsOf_image_other (hold other hmem).2]
    exact h.live other (hold other hmem).1
  · intro id hgone
    by_cases hid : img.id = id
    · subst hid
      rw [actsOf_append, actsOf_own, hdyn]
      exact released_destroy hholds hruns
    · rw [actsOf_image_other hid]
      refine h.gone id fun ⟨other, hmem, heq⟩ => hgone ⟨other, ?_, heq⟩
      rw [himages] at hmem
      simp only [mem_append, mem_cons] at hmem ⊢
      rcases hmem with hmem | rfl | hmem
      · exact Or.inl hmem
      · exact absurd heq hid
      · exact Or.inr hmem

/-- `t` is what a load that failed makes of `s`. -/
structure FailedLoad (s t : Linker w) : Prop where
  sound : Sound t
  images : t.images = s.images
  log : ∃ acts, t.log = s.log ++ acts.map (.image s.next) ∧ Released (tally acts) none

theorem failedLoad_self (h : Sound s) : FailedLoad s s where
  sound := h
  images := rfl
  log := ⟨[], (append_nil s.log).symm, released_nil⟩

theorem dlopen_spec (h : Sound s) (env : LoadEnv w) (haddr : ¬ s.isOurHandle env.addr = true) :
    match s.dlopen env with
    | (none, t) => FailedLoad s t
    | (some img, t) => Sound t ∧ t.images = s.images ++ [img] := by
  rw [Linker.dlopen]
  cases env.phdrs with
  | none => exact failedLoad_self h
  | some phdrs =>
    dsimp only
    split_ifs
    · exact failedLoad_self h
    · have hload := load_spec env phdrs s.next
      rcases hresult : Image.load env phdrs s.next with ⟨_ | img, acts⟩
      · rw [hresult] at hload
        exact ⟨sound_failed h hload, rfl, acts, rfl, hload⟩
      · rw [hresult] at hload
        obtain ⟨hid, haddr', hacts, dyn, hdyn, hruns⟩ := hload
        dsimp only
        rw [hdyn]
        exact ⟨sound_loaded h hid (haddr' ▸ haddr) hruns hacts, rfl⟩

theorem dlclose_spec (h : Sound s) {handle : BitVec w} (hours : s.isOurHandle handle = true) :
    Sound (s.dlclose handle).2 ∧ (s.dlclose handle).2.images.map Image.addr =
      (s.images.map Image.addr).filter (· ≠ handle) := by
  obtain ⟨img, hfind⟩ := Option.isSome_iff_exists.mp (find?_isSome.mpr (any_eq_true.mp hours))
  obtain ⟨haddr, before, after, himages, hbefore⟩ := find?_eq_some_iff_append.mp hfind
  obtain rfl := of_decide_eq_true haddr
  have herase : s.images.eraseP (·.addr = img.addr) = before ++ after := by
    rw [himages, eraseP_append_right _ fun other hmem => by simpa using hbefore other hmem]
    exact congrArg _ (eraseP_cons_of_pos (p := fun x : Image w => x.addr = img.addr) haddr)
  have hnodup := h.addrs
  rw [himages, map_append, map_cons, nodup_middle, ← map_append] at hnodup
  -- no other image has this address
  have hother : ∀ x ∈ (before ++ after).map Image.addr, decide (x ≠ img.addr) = true :=
    fun x hx => decide_eq_true fun heq => (nodup_cons.mp hnodup).1 (heq ▸ hx)
  rw [Linker.dlclose, hfind]
  dsimp only
  rw [herase]
  refine ⟨sound_closed h himages, ?_⟩
  calc (before ++ after).map Image.addr
      = ((before ++ after).map Image.addr).filter (· ≠ img.addr) := (filter_eq_self.mpr hother).symm
    _ = (s.images.map Image.addr).filter (· ≠ img.addr) := by simp [himages]

/-- The system's loader is tried when the custom load has failed, or was not tried. -/
theorem modloader_dlopen_spec (h : Sound s) (env : OpenEnv w)
    (haddr : ¬ s.isOurHandle env.load.addr = true) :
    (∃ t, FailedLoad s t ∧
      Modloader.dlopen s env = (⟨env.system, true⟩, { t with log := t.log ++ [.systemOpen] })) ∨
    ∃ img t, Sound t ∧ t.images = s.images ++ [img] ∧
      Modloader.dlopen s env = (⟨some img.addr, false⟩, t) := by
  rw [Modloader.dlopen]
  cases env.isCustomLinkerEnabled with
  | false => exact Or.inl ⟨s, failedLoad_self h, rfl⟩
  | true =>
    have hspec := dlopen_spec h env.load haddr
    rw [if_pos rfl]
    rcases hresult : s.dlopen env.load with ⟨_ | img, t⟩
    · rw [hresult] at hspec
      exact Or.inl ⟨t, hspec, rfl⟩
    · rw [hresult] at hspec
      exact Or.inr ⟨img, t, hspec.1, hspec.2, rfl⟩

/-- A call keeps the state sound, does to the handles what it should, and leaves nothing behind
when it goes to the system's loader. -/
theorem sound_step {t : Linker w} {c : Call w} (h : Sound s) (hstep : s.step c = some t) :
    Sound t ∧ t.images.map Image.addr = addCall (s.images.map Image.addr) (s, c) ∧
      ReleasesFirst s c := by
  cases c with
  | dlopen env =>
    simp only [Linker.step, Option.ite_none_left_eq_some, not_or, Option.some.injEq] at hstep
    obtain ⟨⟨-, haddr⟩, rfl⟩ := hstep
    rw [addCall, ReleasesFirst]
    rcases modloader_dlopen_spec h env haddr with ⟨t, hfailed, hopen⟩ | ⟨img, t, hsound, himages, hopen⟩
    · obtain ⟨acts, hlog, hreleased⟩ := hfailed.log
      rw [hopen]
      refine ⟨sound_system hfailed.sound fun _ => rfl, ?_, fun _ => ⟨acts, ?_, hreleased⟩⟩
      · exact congrArg _ hfailed.images
      · exact congrArg (· ++ [Act.systemOpen]) hlog
    · rw [hopen]
      refine ⟨hsound, ?_, fun hvia => absurd hvia Bool.false_ne_true⟩
      simp [himages]
  | dlclose handle system =>
    obtain rfl := Option.some.inj hstep
    rw [addCall, Modloader.dlclose]
    split_ifs with hours
    · obtain ⟨hsound, haddrs⟩ := dlclose_spec h hours
      exact ⟨hsound, haddrs, trivial⟩
    · refine ⟨sound_system h fun _ => rfl, ?_, trivial⟩
      have hother : ∀ x ∈ s.images.map Image.addr, decide (x ≠ handle) = true :=
        fun x hx => decide_eq_true fun heq => hours (isOurHandle_iff.mpr (heq ▸ hx))
      exact (filter_eq_self.mpr hother).symm

theorem sound_calls {calls : List (Linker w × Call w)} (h : Calls .start calls s) :
    Sound s ∧ s.images.map Image.addr = openHandles calls ∧
      ∀ p ∈ calls, ReleasesFirst p.1 p.2 := by
  induction h with
  | refl => exact ⟨sound_start, rfl, fun p hp => absurd hp not_mem_nil⟩
  | @snoc calls s t c _ hstep ih =>
    obtain ⟨hsound, hhandles, hreleases⟩ := ih
    obtain ⟨hsound', hhandles', hreleases'⟩ := sound_step hsound hstep
    refine ⟨hsound', ?_, fun p hp => ?_⟩
    · rw [hhandles', hhandles, openHandles, openHandles, foldl_append]
      rfl
    · rcases mem_append.mp hp with hp | hp
      · exact hreleases p hp
      · obtain rfl := mem_singleton.mp hp
        exact hreleases'

end LifeCycleLemmas

open LifeCycleLemmas

/-- After every sequence of calls: the handles are those that custom loads returned and that were
not closed since, each image's constructors, destructors, libraries and reservation are balanced,
and no call went to the system's loader before it had released what a failed load had. -/
theorem linker_life_cycle {s : Linker w} {calls : List (Linker w × Call w)} (h : Calls .start calls s) :
    (∀ handle, s.isOurHandle handle = true ↔ handle ∈ openHandles calls) ∧
      (∀ id, s.Balanced id) ∧ ∀ p ∈ calls, ReleasesFirst p.1 p.2 := by
  obtain ⟨hsound, hhandles, hreleases⟩ := sound_calls h
  refine ⟨fun handle => ?_, balanced_of_sound hsound, hreleases⟩
  rw [isOurHandle_iff, hhandles]

/-- A library with a constructor and a destructor that needs two others, one of which is missing. -/
def sampleLoad (addr : BitVec 64) (relocates : Bool) : LoadEnv 64 where
  page := smallPages
  phdrs := some sampleTable
  addr := addr
  mmap := fun _ => some 0x40000000
  fills := true
  parseDynamic := some ⟨["libc.so", "libgone.so"], none, some 0x40001000, [0, 0x40001100], []⟩
  protects := true
  dlopen := fun _ name noload => if name = "libc.so" ∧ noload then some 0x77 else none
  relocates := relocates

/-- One load succeeds, one goes to the system's loader, and the first image is closed twice. -/
def sampleCalls : List (Call 64) :=
  [.dlopen ⟨true, sampleLoad 0x100 true, none⟩, .dlopen ⟨true, sampleLoad 0x200 false, some 0x55⟩,
    .dlclose 0x100 true, .dlclose 0x100 false]

theorem linker_life_cycle_closed :
    ∃ calls s, Calls (w := 64) .start calls s ∧ calls.map Prod.snd = sampleCalls ∧
      actsOf 0 s.log = [.reserve 0x40000000 0x4000, .dlopen (some 0x77), .dlopen none,
        .constructors [0x40001100], .destructors [0x40001000], .dlclose 0x77,
        .munmap 0x40000000 0x4000] ∧
      actsOf 1 s.log = [.reserve 0x40000000 0x4000, .dlopen (some 0x77), .dlopen none,
        .dlclose 0x77, .munmap 0x40000000 0x4000] ∧
      (∀ handle, s.isOurHandle handle = true ↔ handle ∈ openHandles calls) ∧
      (∀ id, s.Balanced id) ∧ ∀ p ∈ calls, ReleasesFirst p.1 p.2 := by
  obtain ⟨hrun, hlabels⟩ := run_exec_get (show (exec Linker.step .start sampleCalls).isSome = true
    from rfl)
  exact ⟨_, _, hrun, hlabels, by decide +kernel, by decide +kernel, linker_life_cycle hrun⟩

end NyaZygisk.LifeCycle
