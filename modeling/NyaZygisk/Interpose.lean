import NyaZygisk.ImageVisibility

/-!
# Interposed functions that are nested

`interpose.cpp` gives modules their own `dl_iterate_phdr`, `dladdr`, `dlsym` and `dlclose`, which look
at `g_images` before they ask the real ones. All of them take `g_images_lock`, which is no recursive
mutex, and `ForEachImage` holds it while the callback of `dl_iterate_phdr` is called. Callbacks are code
of modules: they have a memory, and may call the interposed functions with callbacks of their own.
-/

namespace NyaZygisk.Interpose

open LifeCycle List

variable {w : Nat} {M W : Type}

/-! ## Images and code -/

/-- The fields of `dl_phdr_info` that are set. -/
structure PhdrInfo (w : Nat) where
  addr : BitVec w
  name : String
  phdr : BitVec w
  phnum : BitVec 16
deriving DecidableEq

structure DlInfo (w : Nat) where
  fname : String
  fbase : BitVec w
  sname : Option String
  saddr : BitVec w
deriving DecidableEq

/-- An image with what the interposed functions read of it. -/
structure LoadedImage (w : Nat) extends Image w where
  info : PhdrInfo w
  symbol : String → Option (BitVec w)
  addrToSym : BitVec w → Option (String × BitVec w)

/-- `g_images`. Images that are loaded are at different addresses. -/
structure Registry (w : Nat) where
  entries : List (LoadedImage w)
  distinct : (entries.map (·.addr)).Nodup

/-- Code of a module over a memory: the interposed calls that it makes, and what it returns. -/
inductive Code (w : Nat) (M : Type)
  | ret (r : Int)
  | get (k : M → Code w M)
  | put (m : M) (k : Code w M)
  | dladdr (addr : BitVec w) (k : Int × Option (DlInfo w) → Code w M)
  | dlsym (handle : BitVec w) (name : String) (k : Option (BitVec w) → Code w M)
  /-- `fini` is what the destructors do, if an image is closed. -/
  | dlclose (handle : BitVec w) (fini : Code w M) (k : Int → Code w M)
  | iteratePhdr (cb : PhdrInfo w → Code w M) (k : Int → Code w M)

/-- The real functions, over what they depend on. -/
structure RealFunctions (w : Nat) (W : Type) where
  libraries : W → List (PhdrInfo w)
  dladdr : W → BitVec w → Int × Option (DlInfo w)
  dlsym : W → BitVec w → String → Option (BitVec w)
  dlclose : W → BitVec w → Int × W

structure Process (w : Nat) (M W : Type) where
  images : Registry w
  memory : M
  world : W

/-- A process, and whether the thread holds `g_images_lock`. -/
structure Thread (w : Nat) (M W : Type) where
  process : Process w M W
  held : Bool

/-! ## `linker.cpp` -/

def Registry.isOurs (reg : Registry w) (handle : BitVec w) : Bool := reg.entries.any (·.addr = handle)

def Registry.find (reg : Registry w) (handle : BitVec w) : Option (LoadedImage w) :=
  reg.entries.find? (·.addr = handle)

def Registry.containing (reg : Registry w) (addr : BitVec w) : Option (LoadedImage w) :=
  reg.entries.find? (·.toImage.contains addr)

def Registry.erase (reg : Registry w) (handle : BitVec w) : Registry w where
  entries := reg.entries.eraseP (·.addr = handle)
  distinct := reg.distinct.sublist (eraseP_sublist.map _)

/-- `std::lock_guard` around `body`. A thread that holds the lock does not get any further. -/
def Thread.locked {α : Type} (t : Thread w M W) (body : Thread w M W → Option (α × Thread w M W)) :
    Option (α × Thread w M W) :=
  if t.held then none
  else (body { t with held := true }).map fun (a, t) => (a, { t with held := false })

/-- What is read of `g_images` with the lock. -/
def Thread.reads {α : Type} (t : Thread w M W) (f : Registry w → α) : Option (α × Thread w M W) :=
  t.locked fun t => some (f t.process.images, t)

def isOurHandle (handle : BitVec w) (t : Thread w M W) : Option (Bool × Thread w M W) :=
  t.reads (·.isOurs handle)

def findImageByAddress (addr : BitVec w) (t : Thread w M W) :
    Option (Option (LoadedImage w) × Thread w M W) :=
  t.reads (·.containing addr)

/-- `Dlsym`. The symbol is looked up without the lock. -/
def dlsym (handle : BitVec w) (name : String) (t : Thread w M W) :
    Option (Option (BitVec w) × Thread w M W) :=
  if handle = 0 then some (none, t)
  else (t.reads (·.find handle)).map fun (img, t) => (img.bind (·.symbol name), t)

def Process.without (p : Process w M W) (handle : BitVec w) : Process w M W :=
  { p with images := p.images.erase handle }

/-- `Dlclose` up to `delete`: the image that is taken out. -/
def takeImage (handle : BitVec w) (t : Thread w M W) : Option (Option (LoadedImage w) × Thread w M W) :=
  t.locked fun t => some (t.process.images.find handle, { t with process := t.process.without handle })

/-- `~Image` after the destructors. -/
def Process.destroyed (real : RealFunctions w W) (img : LoadedImage w) (p : Process w M W) : Process w M W :=
  { p with world := img.neededHandles.reduceOption.foldl (fun world h => (real.dlclose world h).2) p.world }

/-! ## `interpose.cpp` -/

/-- The result so far; `seen` has the images for which the callback was called. -/
structure IterateCtx (w : Nat) where
  result : Int
  stop : Bool
  seen : List (BitVec w)

section Loops

variable {S : Type} (call : PhdrInfo w → S → Option (Int × S))

def emitImage (img : LoadedImage w) (ctx : IterateCtx w) (s : S) : Option (IterateCtx w × S) :=
  if ctx.stop then some (ctx, s)
  else (call img.info s).map fun (r, s) =>
    let ctx := { ctx with seen := ctx.seen ++ [img.addr] }
    (if r ≠ 0 then { ctx with result := r, stop := true } else ctx, s)

def emitImages : List (LoadedImage w) → IterateCtx w → S → Option (IterateCtx w × S)
  | [], ctx, s => some (ctx, s)
  | img :: rest, ctx, s => (emitImage call img ctx s).bind fun (ctx, s) => emitImages rest ctx s

/-- The real `dl_iterate_phdr` with these libraries. -/
def iterateReal : List (PhdrInfo w) → S → Option (Int × S)
  | [], s => some (0, s)
  | info :: rest, s => (call info s).bind fun (r, s) => if r ≠ 0 then some (r, s) else iterateReal rest s

end Loops

/-- `ForEachImage` with `EmitImage`. -/
def forEachImage (call : PhdrInfo w → Thread w M W → Option (Int × Thread w M W)) (t : Thread w M W) :
    Option (IterateCtx w × Thread w M W) :=
  t.locked fun t => emitImages call t.process.images.entries ⟨0, false, []⟩ t

def myIteratePhdr (real : RealFunctions w W) (call : PhdrInfo w → Thread w M W → Option (Int × Thread w M W))
    (t : Thread w M W) : Option (IterateCtx w × Thread w M W) :=
  (forEachImage call t).bind fun (ctx, t) =>
    if ctx.stop then some (ctx, t)
    else (iterateReal call (real.libraries t.process.world) t).map fun (r, t) => ({ ctx with result := r }, t)

/-- The answer of `MyDladdr` for an image. -/
def LoadedImage.dlInfo (img : LoadedImage w) (addr : BitVec w) : DlInfo w where
  fname := img.info.name
  fbase := img.info.addr
  sname := (img.addrToSym addr).map (·.1)
  saddr := ((img.addrToSym addr).map (·.2)).getD 0

def dladdrAnswer (real : RealFunctions w W) (world : W) (addr : BitVec w) :
    Option (LoadedImage w) → Int × Option (DlInfo w)
  | none => real.dladdr world addr
  | some img => (1, some (img.dlInfo addr))

/-- Runs code; `none` if it comes to lock what the thread holds. -/
def run (real : RealFunctions w W) : Code w M → Thread w M W → Option (Int × Thread w M W)
  | .ret r, t => some (r, t)
  | .get k, t => run real (k t.process.memory) t
  | .put m k, t => run real k { t with process := { t.process with memory := m } }
  | .dladdr addr k, t =>
    (findImageByAddress addr t).bind fun (img, t) =>
      run real (k (dladdrAnswer real t.process.world addr img)) t
  | .dlsym handle name k, t =>
    (isOurHandle handle t).bind fun (ours, t) =>
      if ours then (dlsym handle name t).bind fun (sym, t) => run real (k sym) t
      else run real (k (real.dlsym t.process.world handle name)) t
  | .dlclose handle fini k, t =>
    (isOurHandle handle t).bind fun (ours, t) =>
      if ours then
        (takeImage handle t).bind fun (img, t) =>
          match img with
          | none => run real (k (-1)) t
          | some img =>
            (run real fini t).bind fun (_, t) =>
              run real (k 0) { t with process := t.process.destroyed real img }
      else
        let r := real.dlclose t.process.world handle
        run real (k r.1) { t with process := { t.process with world := r.2 } }
  | .iteratePhdr cb k, t =>
    (myIteratePhdr real (fun info t => run real (cb info) t) t).bind fun (ctx, t) => run real (k ctx.result) t

/-! ## What is to hold -/

/-- The call locks nothing that the thread holds, and unless a callback returns non-zero, each image was
visited once or is closed. -/
def NestsWell (real : RealFunctions w W) (cb : PhdrInfo w → Code w M) (p : Process w M W) : Prop :=
  ∃ ctx t, myIteratePhdr real (fun info => run real (cb info)) ⟨p, false⟩ = some (ctx, t) ∧
    (ctx.stop = false → ∀ img ∈ p.images.entries,
      ctx.seen.count img.addr = 1 ∨ t.process.images.isOurs img.addr = false)

/-- What code returns if it makes no interposed call. -/
def Code.quiet : Code w M → M → Option (Int × M)
  | .ret r, m => some (r, m)
  | .get k, m => (k m).quiet m
  | .put m k, _ => k.quiet m
  | _, _ => none

/-- What code does, without any lock, if no callback makes an interposed call while it is called for
one of the images; `none` if one does. -/
def apart (real : RealFunctions w W) : Code w M → Process w M W → Option (Int × Process w M W)
  | .ret r, p => some (r, p)
  | .get k, p => apart real (k p.memory) p
  | .put m k, p => apart real k { p with memory := m }
  | .dladdr addr k, p => apart real (k (dladdrAnswer real p.world addr (p.images.containing addr))) p
  | .dlsym handle name k, p =>
    if p.images.isOurs handle then
      apart real (k (if handle = 0 then none else (p.images.find handle).bind (·.symbol name))) p
    else apart real (k (real.dlsym p.world handle name)) p
  | .dlclose handle fini k, p =>
    match p.images.isOurs handle, p.images.find handle with
    | true, none => apart real (k (-1)) (p.without handle)
    | true, some img =>
      (apart real fini (p.without handle)).bind fun (_, p) => apart real (k 0) (p.destroyed real img)
    | false, _ =>
      let r := real.dlclose p.world handle
      apart real (k r.1) { p with world := r.2 }
  | .iteratePhdr cb k, p =>
    (emitImages (fun info m => (cb info).quiet m) p.images.entries ⟨0, false, []⟩ p.memory).bind
      fun (ctx, m) =>
      let p := { p with memory := m }
      if ctx.stop then apart real (k ctx.result) p
      else
        (iterateReal (fun info p => apart real (cb info) p) (real.libraries p.world) p).bind fun (r, p) =>
          apart real (k r) p

/-- No callback, of the call or of one that is nested in it, makes an interposed call while it is called
for one of the images. -/
def CallbacksApart (real : RealFunctions w W) (cb : PhdrInfo w → Code w M) (p : Process w M W) : Prop :=
  (apart real (.iteratePhdr cb .ret) p).isSome = true

namespace InterposeLemmas

/-! ### The lock -/

theorem reads_free {α : Type} (p : Process w M W) (f : Registry w → α) :
    (⟨p, false⟩ : Thread w M W).reads f = some (f p.images, ⟨p, false⟩) := rfl

theorem takeImage_free (handle : BitVec w) (p : Process w M W) :
    takeImage handle ⟨p, false⟩ = some (p.images.find handle, ⟨p.without handle, false⟩) := rfl

theorem dlsym_free (handle : BitVec w) (name : String) (p : Process w M W) :
    dlsym handle name ⟨p, false⟩ =
      some (if handle = 0 then none else (p.images.find handle).bind (·.symbol name), ⟨p, false⟩) := by
  rw [dlsym]
  split <;> rfl

/-! ### Loops -/

section Simulation

variable {S T : Type} {call : PhdrInfo w → S → Option (Int × S)} {call' : PhdrInfo w → T → Option (Int × T)}
  {lift : T → S}

/-- A callback on one kind of state does what it does on the other. -/
def Simulates (lift : T → S) (call : PhdrInfo w → S → Option (Int × S))
    (call' : PhdrInfo w → T → Option (Int × T)) : Prop :=
  ∀ info s, call info (lift s) = (call' info s).map fun (r, s) => (r, lift s)

theorem emitImages_simulates (h : Simulates lift call call') (images : List (LoadedImage w))
    (ctx : IterateCtx w)
    (s : T) :
    emitImages call images ctx (lift s) = (emitImages call' images ctx s).map fun (ctx, s) =>
      (ctx, lift s) := by
  induction images generalizing ctx s with
  | nil => rfl
  | cons img images ih =>
    rw [emitImages, emitImages, emitImage, emitImage]
    by_cases hstop : ctx.stop = true
    · rw [if_pos hstop, if_pos hstop]
      exact ih ctx s
    · rw [if_neg hstop, if_neg hstop, h]
      cases call' img.info s with
      | none => rfl
      | some r => exact ih _ _

theorem iterateReal_simulates (h : Simulates lift call call') (libraries : List (PhdrInfo w)) (s : T) :
    iterateReal call libraries (lift s) = (iterateReal call' libraries s).map fun (r, s) => (r, lift s) := by
  induction libraries generalizing s with
  | nil => rfl
  | cons info libraries ih =>
    rw [iterateReal, iterateReal, h]
    cases call' info s with
    | none => rfl
    | some r =>
      simp only [Option.map_some, Option.bind_some]
      split
      · rfl
      · exact ih _

theorem seen_of_not_stop {images : List (LoadedImage w)} {ctx ctx' : IterateCtx w} {s s' : S}
    (h : emitImages call images ctx s = some (ctx', s')) (hstop : ctx'.stop = false) :
    ctx'.seen = ctx.seen ++ images.map (·.addr) ∧ ctx.stop = false := by
  induction images generalizing ctx s with
  | nil =>
    obtain ⟨rfl, -⟩ := Prod.mk.inj (Option.some.inj h)
    exact ⟨(append_nil _).symm, hstop⟩
  | cons img images ih =>
    obtain ⟨⟨ctx₁, s₁⟩, hemit, hrest⟩ := Option.bind_eq_some_iff.mp h
    obtain ⟨hseen, hstop₁⟩ := ih hrest
    rw [emitImage] at hemit
    by_cases hctx : ctx.stop = true
    · rw [if_pos hctx] at hemit
      obtain ⟨rfl, -⟩ := Prod.mk.inj (Option.some.inj hemit)
      exact absurd hctx (Bool.eq_false_iff.mp hstop₁)
    · rw [if_neg hctx] at hemit
      obtain ⟨⟨r, s₂⟩, -, hmk⟩ := Option.map_eq_some_iff.mp hemit
      obtain ⟨rfl, -⟩ := Prod.mk.inj hmk
      refine ⟨?_, Bool.eq_false_iff.mpr hctx⟩
      by_cases hr : r ≠ 0
      · rw [if_pos hr] at hstop₁
        cases hstop₁
      · rw [hseen, if_neg hr, map_cons, append_assoc]
        rfl

end Simulation

/-! ### Code -/

/-- While the lock is held, only code without an interposed call gets through. -/
theorem run_held (real : RealFunctions w W) (code : Code w M) (p : Process w M W) :
    run real code ⟨p, true⟩ = (code.quiet p.memory).map fun (r, m) =>
      (r, ⟨{ p with memory := m }, true⟩) := by
  induction code generalizing p with
  | ret r | dladdr addr k | dlsym handle name k | dlclose handle fini k | iteratePhdr cb k => rfl
  | get k ih => exact ih p.memory p
  | put m k ih => exact ih { p with memory := m }

theorem forEachImage_free (real : RealFunctions w W) (cb : PhdrInfo w → Code w M) (p : Process w M W) :
    forEachImage (fun info t => run real (cb info) t) ⟨p, false⟩ =
      (emitImages (fun info m => (cb info).quiet m) p.images.entries ⟨0, false, []⟩ p.memory).map
        fun (ctx, m) => (ctx, ⟨{ p with memory := m }, false⟩) := by
  have hsim : Simulates (fun m => (⟨{ p with memory := m }, true⟩ : Thread w M W))
      (fun info t => run real (cb info) t) fun info m => (cb info).quiet m :=
    fun info m => run_held real (cb info) { p with memory := m }
  have hloop := emitImages_simulates hsim p.images.entries ⟨0, false, []⟩ p.memory
  rw [forEachImage, Thread.locked, if_neg Bool.false_ne_true]
  simp only [hloop, Option.map_map]
  rfl

/-- Without the lock, code runs as if there were none, up to an interposed call for an image. -/
theorem run_free (real : RealFunctions w W) (code : Code w M) (p : Process w M W) :
    run real code ⟨p, false⟩ = (apart real code p).map fun (r, p) => (r, ⟨p, false⟩) := by
  induction code generalizing p with
  | ret r => rfl
  | get k ih => exact ih p.memory p
  | put m k ih => exact ih { p with memory := m }
  | dladdr addr k ih => exact ih _ p
  | dlsym handle name k ih =>
    simp only [run, apart, isOurHandle, reads_free, Option.bind_some, dlsym_free]
    split
    · exact ih _ p
    · exact ih _ p
  | dlclose handle fini k ihFini ih =>
    simp only [run, apart, isOurHandle, reads_free, Option.bind_some, takeImage_free]
    cases hours : p.images.isOurs handle with
    | false => exact ih _ _
    | true =>
      cases p.images.find handle with
      | none => exact ih _ _
      | some img =>
        simp only [if_true, ihFini]
        cases apart real fini (p.without handle) with
        | none => rfl
        | some r => exact ih _ _
  | iteratePhdr cb k ihCb ih =>
    rw [run, apart, myIteratePhdr, forEachImage_free]
    cases emitImages (fun info m => (cb info).quiet m) p.images.entries ⟨0, false, []⟩ p.memory with
    | none => rfl
    | some r =>
      obtain ⟨ctx, m⟩ := r
      simp only [Option.map_some, Option.bind_some]
      by_cases hstop : ctx.stop = true
      · rw [if_pos hstop, if_pos hstop]
        exact ih _ _
      · have hsim : Simulates (fun p => (⟨p, false⟩ : Thread w M W)) (fun info t => run real (cb info) t)
            fun info p => apart real (cb info) p := fun info p => ihCb info p
        have hloop := iterateReal_simulates hsim (real.libraries p.world) { p with memory := m }
        rw [if_neg hstop, if_neg hstop, hloop]
        cases iterateReal (fun info p => apart real (cb info) p) (real.libraries p.world)
          { p with memory := m } with
        | none => rfl
        | some r => exact ih _ _

/-- A call that returns has seen every image, unless it was stopped. -/
theorem seen_of_iterate {real : RealFunctions w W} {call : PhdrInfo w → Thread w M W →
    Option (Int × Thread w M W)}
    {p : Process w M W} {ctx : IterateCtx w} {t : Thread w M W}
    (h : myIteratePhdr real call ⟨p, false⟩ = some (ctx, t)) (hstop : ctx.stop = false) :
    ctx.seen = p.images.entries.map (·.addr) := by
  obtain ⟨⟨ctx₁, t₁⟩, hours, hrest⟩ := Option.bind_eq_some_iff.mp h
  obtain ⟨⟨ctx₂, t₂⟩, hloop, hmk⟩ := Option.map_eq_some_iff.mp hours
  obtain ⟨rfl, -⟩ := Prod.mk.inj hmk
  simp only at hrest
  by_cases hctx : ctx₂.stop = true
  · rw [if_pos hctx] at hrest
    obtain ⟨rfl, -⟩ := Prod.mk.inj (Option.some.inj hrest)
    exact absurd hctx (Bool.eq_false_iff.mp hstop)
  · rw [if_neg hctx] at hrest
    obtain ⟨r, -, hmk⟩ := Option.map_eq_some_iff.mp hrest
    obtain ⟨rfl, -⟩ := Prod.mk.inj hmk
    exact (seen_of_not_stop hloop hstop).1

end InterposeLemmas

open InterposeLemmas

/-- Calls nest well exactly if no callback makes an interposed call for one of the images. -/
theorem nests_iff (real : RealFunctions w W) (cb : PhdrInfo w → Code w M) (p : Process w M W) :
    NestsWell real cb p ↔ CallbacksApart real cb p := by
  have hrun := run_free real (.iteratePhdr cb .ret) p
  rw [run] at hrun
  constructor
  · rintro ⟨ctx, t, hcall, -⟩
    rw [hcall] at hrun
    rw [CallbacksApart, ← Option.isSome_map, ← hrun]
    rfl
  · intro hsome
    obtain ⟨r, hr⟩ := Option.isSome_iff_exists.mp hsome
    rw [hr, Option.map_some] at hrun
    obtain ⟨⟨ctx, t⟩, hcall, -⟩ := Option.bind_eq_some_iff.mp hrun
    refine ⟨ctx, t, hcall, fun hstop img himg => .inl ?_⟩
    rw [seen_of_iterate hcall hstop]
    exact count_eq_one_of_mem p.images.distinct (mem_map_of_mem himg)

def noLibraries :
    RealFunctions 64 Unit := ⟨fun _ => [], fun _ _ => (0, none), fun _ _ _ => none, fun w _ => (-1, w)⟩

def oneModule : Process 64 Unit Unit where
  images := ⟨[⟨{ Image.new 0 0x5000 with mapStart := 0x10000, mapSize := 0x2000 },
    ⟨0x10000, "libmodule.so", 0x10040, 8⟩,
    fun _ => none, fun _ => none⟩], by decide⟩
  memory := ()
  world := ()

/-- The callback asks which module the headers are of. -/
theorem dladdr_in_callback_relocks :
    ¬ NestsWell noLibraries (fun info => .dladdr info.phdr fun r => .ret (1 - r.1)) oneModule := by
  rintro ⟨ctx, t, hcall, -⟩
  cases hcall

end NyaZygisk.Interpose
