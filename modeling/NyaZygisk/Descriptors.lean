import NyaZygisk.MountInfoLines
import NyaZygisk.Lib.Batches
import NyaZygisk.Lib.Firsts

/-!
# The descriptors of a child

`fork_pre` marks the descriptors that are open at the fork, modules then open, close and exempt
descriptors, and `sanitize_fds` closes what is not marked. Both go through `/proc/self/fd` in
batches, with the descriptor of that directory among what they find; the second closes descriptors
while it reads.
-/

namespace NyaZygisk.Descriptors

open List

open NyaZygisk.MountInfoLines (fastAtoi)

/-! ## The kernel -/

/-- The number `open` returns. -/
def lowestFree (fds : Finset Nat) : Nat := Nat.find (Infinite.exists_notMem_finset fds)

/-- The names in `/proc/self/fd`, by their position. -/
def entryName : Nat → List UInt8
  | 0 => CStrings.ascii "."
  | 1 => CStrings.ascii ".."
  | fd + 2 => Decimal.numeral fd

def isListed (fds : Finset Nat) : Nat → Bool
  | 0 => true
  | 1 => true
  | fd + 2 => decide (fd ∈ fds)

/-- A position after all entries. -/
def dirEnd (fds : Finset Nat) : Nat := fds.sup id + 3

/-- `close`, which fails for a number that is not open. -/
def close (fds : Finset Nat) (fd : Int) : Finset Nat := if 0 ≤ fd then fds.erase fd.toNat else fds

/-! ## The context -/

/-- The part of `ZygiskContext` that concerns descriptors. -/
structure Context where
  pid : Int
  appForkAndSpecialize : Bool
  postSpecialize : Bool
  skipCloseLogPipe : Bool
  /-- `args.app->fds_to_ignore`: a pointer that may be null, to an array that may be null. -/
  fdsToIgnore : Option (Option (List Int))
  allowedFds : List Bool
  exemptedFds : List Int
deriving DecidableEq

structure Process where
  ctx : Context
  openFds : Finset Nat
deriving DecidableEq

/-- The context that the hooks of the two fork calls make, for `nativeForkAndSpecialize` or
`nativeForkSystemServer`. -/
def Context.ofFork (fdMax : Nat) (app : Bool) (fdsToIgnore : Option (Option (List Int))) : Context where
  pid := -1
  appForkAndSpecialize := app
  postSpecialize := false
  skipCloseLogPipe := false
  fdsToIgnore := fdsToIgnore
  allowedFds := List.replicate fdMax false
  exemptedFds := []

def Context.isChild (ctx : Context) : Bool := decide (ctx.pid ≤ 0)

def Context.canExemptFd (ctx : Context) : Bool := ctx.appForkAndSpecialize && ctx.fdsToIgnore.isSome

def Context.exemptFd (ctx : Context) (fd : Int) : Bool × Context :=
  if ctx.postSpecialize || ctx.skipCloseLogPipe then (true, ctx)
  else if !ctx.canExemptFd then (false, ctx)
  else (true, { ctx with exemptedFds := ctx.exemptedFds ++ [fd] })

def InRange (allowed : List Bool) (fd : Int) : Prop := 0 ≤ fd ∧ fd < allowed.length

instance (allowed : List Bool) (fd : Int) :
    Decidable (InRange allowed fd) := by unfold InRange; infer_instance

def allow (allowed : List Bool) (fd : Int) :
    List Bool := if InRange allowed fd then allowed.set fd.toNat true else allowed

/-- The descriptor an entry of the directory stands for. -/
def entryFd (name : List UInt8) : Option Int :=
  match name with
  | c :: _ => if Decimal.isDigit c then some (fastAtoi name) else none
  | [] => none

/-! ## `fork_pre` -/

/-- The body of the loop of `fork_pre`. -/
def recordEntry (fdDir : Nat) (p : Process) (pos : Nat) : Process :=
  match entryFd (entryName pos) with
  | none => p
  | some fd =>
    if InRange p.ctx.allowedFds fd then { p with ctx.allowedFds := allow p.ctx.allowedFds fd }
    else if fd ≠ fdDir then { p with openFds := close p.openFds fd }
    else p

/-- All entries of `/proc/self/fd`, a batch after the other. -/
def forEachEntry (counts : Nat → Nat) (body : Process → Nat → Process) (p : Process) : Option Process :=
  Batches.loop (fun p => isListed p.openFds) (dirEnd p.openFds) body counts (dirEnd p.openFds + 1) 0 0 p

/-- `fork_pre`, where `fork` has returned `pid`. -/
def forkPre (counts : Nat → Nat) (pid : Int) (p : Process) : Option Process :=
  let p := { p with ctx.pid := pid }
  if !p.ctx.isChild then some p
  else
    let fdDir := lowestFree p.openFds
    match forEachEntry counts (recordEntry fdDir) { p with openFds := insert fdDir p.openFds } with
    | none => none
    | some p =>
      some { p with ctx.allowedFds := p.ctx.allowedFds.set fdDir false, openFds := close p.openFds fdDir }

/-! ## `sanitize_fds` -/

def setIntArrayRegion (array : List Int) (start : Nat) (values : List Int) : List Int :=
  array.take start ++ values ++ array.drop (start + values.length)

/-- `update_fd_array`, where the array can be made. -/
def Context.updateFdArray (ctx : Context) (oldLen : Nat) : Context :=
  let array := List.replicate (oldLen + ctx.exemptedFds.length) 0
  { ctx with
    allowedFds := ctx.exemptedFds.foldl allow ctx.allowedFds
    fdsToIgnore := some (some (setIntArrayRegion array oldLen ctx.exemptedFds)) }

/-- The exempted descriptors are allowed, with those of the caller's array, and are added to it. -/
def Context.extendIgnored (ctx : Context) : Context :=
  match ctx.fdsToIgnore with
  | some (some arr) =>
    let ctx := { ctx with allowedFds := arr.foldl allow ctx.allowedFds }
    let ctx := ctx.updateFdArray arr.length
    { ctx with fdsToIgnore := ctx.fdsToIgnore.map (·.map (setIntArrayRegion · 0 arr)) }
  | some none => ctx.updateFdArray 0
  | none => ctx

/-- The body of the loop of `sanitize_fds`. -/
def closeEntry (fdDir : Nat) (p : Process) (pos : Nat) : Process :=
  match entryFd (entryName pos) with
  | none => p
  | some fd =>
    if (¬ InRange p.ctx.allowedFds fd ∨ p.ctx.allowedFds.getD fd.toNat false = false) ∧ fd ≠ fdDir then
      { p with openFds := close p.openFds fd }
    else p

/-- The context with which `sanitize_fds` comes to its loop. -/
def Context.applyExemptions (ctx : Context) : Context :=
  if ctx.canExemptFd && !ctx.exemptedFds.isEmpty then ctx.extendIgnored else ctx

def sanitizeFds (counts : Nat → Nat) (p : Process) : Option Process :=
  if !p.ctx.isChild then some p
  else
    let fdDir := lowestFree p.openFds
    match forEachEntry counts (closeEntry fdDir) ⟨p.ctx.applyExemptions, insert fdDir p.openFds⟩ with
    | none => none
    | some p => some { p with openFds := close p.openFds fdDir }

/-! ## What modules do in between -/

inductive Action
  | opened (fd : Nat)
  | closed (fd : Nat)
  | exempt (fd : Int)
deriving DecidableEq

def Action.change (fds : Finset Nat) : Action → Finset Nat
  | .opened fd => insert fd fds
  | .closed fd => close fds fd
  | .exempt _ => fds

def Process.step (p : Process) (a : Action) : Process :=
  { ctx := match a with
      | .exempt fd => (p.ctx.exemptFd fd).2
      | _ => p.ctx
    openFds := a.change p.openFds }

def Process.run (p : Process) (actions : List Action) : Process := actions.foldl Process.step p

/-- One of the calls of `exempt_fd` was for this number, and returned true. -/
def Exempted (p : Process) (actions : List Action) (fd : Int) : Prop :=
  ∃ before after, actions = before ++ .exempt fd :: after ∧ ((p.run before).ctx.exemptFd fd).1 = true

namespace DescriptorsLemmas

/-! ### Entries -/

theorem lowestFree_notMem (fds : Finset Nat) :
    lowestFree fds ∉ fds := Nat.find_spec (Infinite.exists_notMem_finset fds)

theorem lowestFree_le {fds : Finset Nat} {n : Nat} (h : n ∉ fds) : lowestFree fds ≤ n := Nat.find_min' _ h

theorem entryFd_entryName {fd : Nat} (hfd : fd < 2 ^ 31) :
    entryFd (entryName (fd + 2)) = some (fd : Int) := by
  have hvalue : fastAtoi (Decimal.numeral fd) = fd := by
    rw [← append_nil (Decimal.numeral fd)]
    exact MountInfoLines.MountInfoLinesLemmas.fastAtoi_numeral hfd nofun
  obtain ⟨c, rest, h⟩ := exists_cons_of_ne_nil (Decimal.numeral_ne_nil fd)
  have hc : Decimal.isDigit c = true := Decimal.isDigit_of_mem_numeral (h ▸ mem_cons_self)
  rw [entryName, h, entryFd, if_pos hc, ← h, hvalue]

theorem close_natCast (fds : Finset Nat) (fd : Nat) : close fds fd = fds.erase fd := by
  rw [close, if_pos (Int.natCast_nonneg fd), Int.toNat_natCast]

def listed (fds : Finset Nat) : List Nat := (List.range (fds.sup id + 1)).filter (· ∈ fds)

theorem mem_listed {fds : Finset Nat} {fd : Nat} : fd ∈ listed fds ↔ fd ∈ fds := by
  rw [listed, mem_filter, mem_range, decide_eq_true_iff, and_iff_right_iff_imp]
  exact fun h => Nat.lt_succ_of_le (Finset.le_sup (f := id) h)

theorem entries_eq (fds : Finset Nat) :
    (List.range' 0 (dirEnd fds)).filter (isListed fds) = 0 :: 1 :: (listed fds).map (· + 2) := by
  have hfilter : (List.range' 2 (fds.sup id + 1)).filter (isListed fds) = (listed fds).map (· + 2) := by
    have hrange : List.range' 2 (fds.sup id + 1) = (List.range (fds.sup id + 1)).map (· + 2) := by
      rw [range'_eq_map_range]
      exact map_congr_left fun n _ => Nat.add_comm 2 n
    rw [hrange, filter_map]
    rfl
  rw [dirEnd, range'_succ, range'_succ, filter_cons_of_pos rfl, filter_cons_of_pos rfl, hfilter]

/-- A loop over the entries is one pass over the open descriptors, if its body does nothing at the
two dots and closes no descriptor but the one it is at. -/
theorem forEachEntry_eq {counts : Nat → Nat} (hcounts : ∀ n, 0 < counts n) {body : Process → Nat → Process}
    (hdots : ∀ s, body s 0 = s ∧ body s 1 = s)
    (hframe : ∀ s fd fd', fd < 2 ^ 31 → fd ≠ fd' → (fd' ∈ (body s (fd + 2)).openFds ↔ fd' ∈ s.openFds))
    {p : Process} (hint : ∀ fd ∈ p.openFds, fd < 2 ^ 31) :
    forEachEntry counts body p = some ((listed p.openFds).foldl (fun s fd => body s (fd + 2)) p) := by
  have hsup : p.openFds.sup id < 2 ^ 31 := (Finset.sup_lt_iff (by decide)).mpr hint
  have hahead : ∀ s pos q, pos < dirEnd p.openFds → pos < q →
      isListed (body s pos).openFds q = isListed s.openFds q := by
    intro s pos q hpos hq
    match pos, q with
    | 0, _ => rw [(hdots s).1]
    | 1, _ => rw [(hdots s).2]
    | fd + 2, fd' + 2 =>
      have hfd : fd < 2 ^ 31 := by
        rw [dirEnd] at hpos
        omega
      exact decide_eq_decide.mpr (hframe s fd fd' hfd (by omega))
  have hfuel : dirEnd p.openFds - 0 < dirEnd p.openFds + 1 := Nat.lt_succ_self _
  have hentries : Batches.ahead (fun p : Process => isListed p.openFds) (dirEnd p.openFds) p 0 =
      0 :: 1 :: (listed p.openFds).map (· + 2) := entries_eq p.openFds
  rw [forEachEntry, Batches.loop_eq hahead hcounts 0 hfuel, hentries, foldl_cons, foldl_cons,
    (hdots p).1, (hdots p).2, foldl_map]

/-! ### The bitmap -/

theorem length_allow (allowed : List Bool) (fd : Int) : (allow allowed fd).length = allowed.length := by
  unfold allow
  split
  · exact length_set
  · rfl

theorem getD_set {l : List Bool} {i : Nat} (hi : i < l.length) (b : Bool) (j : Nat) :
    (l.set i b).getD j false = if i = j then b else l.getD j false := by
  rw [getD_eq_getElem?_getD, getElem?_set, getD_eq_getElem?_getD]
  split
  · rfl
  · rfl

theorem getD_allow {allowed : List Bool} {fd : Int} {n : Nat} (hn : n < allowed.length) :
    (allow allowed fd).getD n false = true ↔ allowed.getD n false = true ∨ fd = n := by
  unfold allow
  split
  · next h =>
    obtain ⟨hpos, hlt⟩ := h
    rw [getD_set (by omega)]
    split
    · next heq => exact iff_of_true rfl (.inr (by omega))
    · next hne => exact (or_iff_left (by omega)).symm
  · next h =>
    refine (or_iff_left ?_).symm
    rintro rfl
    exact h ⟨Int.natCast_nonneg n, Int.ofNat_lt.mpr hn⟩

theorem length_foldl_allow (allowed : List Bool) (fds : List Int) :
    (fds.foldl allow allowed).length = allowed.length := by
  induction fds generalizing allowed with
  | nil => rfl
  | cons fd fds ih => rw [foldl_cons, ih, length_allow]

theorem getD_foldl_allow {allowed : List Bool} {fds : List Int} {n : Nat} (hn : n < allowed.length) :
    (fds.foldl allow allowed).getD n false = true ↔ allowed.getD n false = true ∨ (n : Int) ∈ fds := by
  induction fds generalizing allowed with
  | nil => exact (or_iff_left not_mem_nil).symm
  | cons fd fds ih =>
    rw [foldl_cons, ih (by rwa [length_allow]), getD_allow hn, mem_cons, or_assoc,
      @eq_comm Int fd n]

theorem getD_replicate_false (n i : Nat) : (List.replicate n false).getD i false = false := by
  rw [getD_eq_getElem?_getD, getElem?_replicate]
  split <;> rfl

/-! ### The bodies -/

theorem recordEntry_fd (fdDir : Nat) {s : Process} {fd : Nat} (hint : fd < 2 ^ 31)
    (hfd : fd < s.ctx.allowedFds.length) :
    recordEntry fdDir s (fd + 2) = { s with ctx.allowedFds := allow s.ctx.allowedFds fd } := by
  have hrange : InRange s.ctx.allowedFds fd := ⟨Int.natCast_nonneg fd, Int.ofNat_lt.mpr hfd⟩
  rw [recordEntry, entryFd_entryName hint]
  exact if_pos hrange

theorem recordEntry_frame (fdDir : Nat) (s : Process) {fd fd' : Nat} (hint : fd < 2 ^ 31) (hne : fd ≠ fd') :
    fd' ∈ (recordEntry fdDir s (fd + 2)).openFds ↔ fd' ∈ s.openFds := by
  rw [recordEntry, entryFd_entryName hint]
  dsimp only
  split
  · exact Iff.rfl
  · split
    · rw [close_natCast, Finset.mem_erase, and_iff_right hne.symm]
    · exact Iff.rfl

/-- A descriptor that the loop of `sanitize_fds` leaves. -/
def Keeps (ctx : Context) (fdDir fd : Nat) : Prop := ctx.allowedFds.getD fd false = true ∨ fd = fdDir

instance (ctx : Context) (fdDir fd : Nat) : Decidable (Keeps ctx fdDir fd) := by unfold Keeps; infer_instance

theorem closeEntry_fd (fdDir : Nat) (s : Process) {fd : Nat} (hint : fd < 2 ^ 31) :
    closeEntry fdDir s (fd + 2) =
      if Keeps s.ctx fdDir fd then s else { s with openFds := s.openFds.erase fd } := by
  have hrange : s.ctx.allowedFds.getD fd false = true → InRange s.ctx.allowedFds fd := by
    intro h
    refine ⟨Int.natCast_nonneg fd, Int.ofNat_lt.mpr ?_⟩
    by_contra hlt
    rw [getD_eq_default _ _ (Nat.le_of_not_lt hlt)] at h
    exact Bool.false_ne_true h
  have hcond : ((¬ InRange s.ctx.allowedFds fd ∨ s.ctx.allowedFds.getD fd false = false) ∧
      (fd : Int) ≠ fdDir) ↔
      ¬ Keeps s.ctx fdDir fd := by
    rw [Keeps, not_or, Ne, Int.ofNat_inj, Bool.not_eq_true]
    refine and_congr_left fun _ => or_iff_right_of_imp fun hout => ?_
    exact Bool.eq_false_iff.mpr (mt hrange hout)
  rw [closeEntry, entryFd_entryName hint]
  dsimp only
  rw [Int.toNat_natCast, close_natCast]
  by_cases hkeeps : Keeps s.ctx fdDir fd
  · rw [if_pos hkeeps, if_neg (not_not.mpr hkeeps ∘ hcond.mp)]
  · rw [if_neg hkeeps, if_pos (hcond.mpr hkeeps)]

theorem closeEntry_frame (fdDir : Nat) (s : Process) {fd fd' : Nat} (hint : fd < 2 ^ 31) (hne : fd ≠ fd') :
    fd' ∈ (closeEntry fdDir s (fd + 2)).openFds ↔ fd' ∈ s.openFds := by
  rw [closeEntry_fd fdDir s hint]
  split
  · exact Iff.rfl
  · rw [Finset.mem_erase, and_iff_right hne.symm]

/-! ### The loops -/

theorem foldl_recordEntry (fdDir : Nat) {fds : List Nat} {s : Process} (hint : ∀ fd ∈ fds, fd < 2 ^ 31)
    (hlen : ∀ fd ∈ fds, fd < s.ctx.allowedFds.length) :
    fds.foldl (fun s fd => recordEntry fdDir s (fd + 2)) s =
      { s with ctx.allowedFds := (fds.map Int.ofNat).foldl allow s.ctx.allowedFds } := by
  induction fds generalizing s with
  | nil => rfl
  | cons fd fds ih =>
    rw [forall_mem_cons] at hint hlen
    rw [foldl_cons, recordEntry_fd fdDir hint.1 hlen.1, ih hint.2]
    · rfl
    · intro fd' hfd'
      rw [length_allow]
      exact hlen.2 fd' hfd'

theorem foldl_closeEntry (fdDir : Nat) {fds : List Nat} (hint : ∀ fd ∈ fds, fd < 2 ^ 31)
    (s : Process) (fd : Nat) :
    fd ∈ (fds.foldl (fun s fd => closeEntry fdDir s (fd + 2)) s).openFds ↔
      fd ∈ s.openFds ∧ (fd ∈ fds → Keeps s.ctx fdDir fd) := by
  induction fds generalizing s with
  | nil => exact (and_iff_left fun h => absurd h not_mem_nil).symm
  | cons fd' fds ih =>
    rw [forall_mem_cons] at hint
    rw [foldl_cons, ih hint.2, closeEntry_fd fdDir s hint.1]
    split
    · next hkeeps =>
      refine and_congr_right fun _ => ⟨fun h hmem => ?_, fun h hmem => h (mem_cons_of_mem fd' hmem)⟩
      rcases mem_cons.mp hmem with rfl | hmem
      · exact hkeeps
      · exact h hmem
    · next hkeeps =>
      rw [Finset.mem_erase]
      constructor
      · rintro ⟨⟨hne, hopen⟩, h⟩
        exact ⟨hopen, fun hmem => h ((mem_cons.mp hmem).resolve_left hne)⟩
      · rintro ⟨hopen, h⟩
        refine ⟨⟨?_, hopen⟩, fun hmem => h (mem_cons_of_mem fd' hmem)⟩
        rintro rfl
        exact hkeeps (h mem_cons_self)

section

variable {counts : Nat → Nat} (hcounts : ∀ n, 0 < counts n)

include hcounts in
theorem forEachEntry_record (fdDir : Nat) {p : Process} (hint : p.ctx.allowedFds.length ≤ 2 ^ 31)
    (hopen : ∀ fd ∈ p.openFds, fd < p.ctx.allowedFds.length) :
    forEachEntry counts (recordEntry fdDir) p =
      some { p with ctx.allowedFds := ((listed p.openFds).map Int.ofNat).foldl allow p.ctx.allowedFds } := by
  have hsmall : ∀ fd ∈ p.openFds, fd < 2 ^ 31 := fun fd hfd => Nat.lt_of_lt_of_le (hopen fd hfd) hint
  rw [forEachEntry_eq hcounts (fun s => ⟨rfl, rfl⟩) (fun s _ _ => recordEntry_frame fdDir s) hsmall,
    foldl_recordEntry fdDir (fun fd hfd => hsmall fd (mem_listed.mp hfd)) fun fd hfd =>
      hopen fd (mem_listed.mp hfd)]

include hcounts in
theorem forEachEntry_close (fdDir : Nat) {p : Process} (hint : ∀ fd ∈ p.openFds, fd < 2 ^ 31) :
    ∃ q, forEachEntry counts (closeEntry fdDir) p = some q ∧
      ∀ fd, fd ∈ q.openFds ↔ fd ∈ p.openFds ∧ Keeps p.ctx fdDir fd := by
  refine ⟨_, forEachEntry_eq hcounts (fun s => ⟨rfl, rfl⟩) (fun s _ _ => closeEntry_frame fdDir s)
    hint, fun fd => ?_⟩
  rw [foldl_closeEntry fdDir fun fd hfd => hint fd (mem_listed.mp hfd)]
  exact and_congr_right fun hopen => ⟨fun h => h (mem_listed.mpr hopen), fun h _ => h⟩

/-! ### The two functions -/

include hcounts in
theorem forkPre_eq {pid : Int} (hpid : pid ≤ 0) {p : Process}
    (hfresh : ∀ n, p.ctx.allowedFds.getD n false = false)
    (hint : p.ctx.allowedFds.length ≤ 2 ^ 31) (hopen : ∀ fd ∈ p.openFds, fd < p.ctx.allowedFds.length)
    (hdir : lowestFree p.openFds < p.ctx.allowedFds.length) :
    ∃ allowed, forkPre counts pid p = some ⟨{ p.ctx with pid := pid, allowedFds := allowed }, p.openFds⟩ ∧
      allowed.length = p.ctx.allowedFds.length ∧ ∀ fd, allowed.getD fd false = true ↔ fd ∈ p.openFds := by
  have hall : ∀ fd ∈ insert (lowestFree p.openFds) p.openFds, fd < p.ctx.allowedFds.length :=
    Finset.forall_mem_insert _ _ _ |>.mpr ⟨hdir, hopen⟩
  let marked := ((listed (insert (lowestFree p.openFds) p.openFds)).map Int.ofNat).foldl allow
    p.ctx.allowedFds
  have hlen : marked.length = p.ctx.allowedFds.length := length_foldl_allow _ _
  have hmarked : ∀ fd < p.ctx.allowedFds.length,
      marked.getD fd false = true ↔ fd ∈ insert (lowestFree p.openFds) p.openFds := by
    intro fd hfd
    rw [getD_foldl_allow hfd, hfresh, or_iff_right Bool.false_ne_true, ← mem_listed]
    exact mem_map_of_injective fun _ _ => Int.ofNat_inj.mp
  refine ⟨marked.set (lowestFree p.openFds) false, ?_, by rw [length_set, hlen], fun fd => ?_⟩
  · have hchild : Context.isChild { p.ctx with pid := pid } = true := decide_eq_true hpid
    have hloop := forEachEntry_record hcounts (lowestFree p.openFds)
      (p := ⟨{ p.ctx with pid := pid }, insert (lowestFree p.openFds) p.openFds⟩) hint hall
    unfold forkPre
    simp only [hchild, hloop, close_natCast, Finset.erase_insert (lowestFree_notMem _)]
    rfl
  · rw [getD_set (hlen ▸ hdir)]
    split
    · next heq => exact iff_of_false Bool.false_ne_true (heq ▸ lowestFree_notMem _)
    · next hne =>
      by_cases hfd : fd < p.ctx.allowedFds.length
      · rw [hmarked fd hfd, Finset.mem_insert, or_iff_right (Ne.symm hne)]
      · rw [getD_eq_default _ _ (hlen ▸ Nat.le_of_not_lt hfd)]
        exact iff_of_false Bool.false_ne_true (mt (hopen fd) hfd)

theorem getD_extendIgnored {ctx : Context} (hptr : ctx.fdsToIgnore.isSome = true) {fd : Nat}
    (hfd : fd < ctx.allowedFds.length) :
    ctx.extendIgnored.allowedFds.getD fd false = true ↔
      ctx.allowedFds.getD fd false = true ∨ (fd : Int) ∈ ctx.exemptedFds ∨
        ∃ arr, ctx.fdsToIgnore = some (some arr) ∧ (fd : Int) ∈ arr := by
  unfold Context.extendIgnored
  split
  · next arr harr =>
    have hmem : (∃ arr', ctx.fdsToIgnore = some (some arr') ∧ (fd : Int) ∈ arr') ↔ (fd : Int) ∈ arr := by
      constructor
      · rintro ⟨arr', harr', hmem⟩
        obtain rfl := Option.some_inj.mp (Option.some_inj.mp (harr.symm.trans harr'))
        exact hmem
      · exact fun h => ⟨arr, harr, h⟩
    rw [hmem, or_comm (a := (fd : Int) ∈ ctx.exemptedFds), ← or_assoc, ← getD_foldl_allow hfd]
    exact getD_foldl_allow (by rwa [length_foldl_allow])
  · next hnull =>
    have hnone : ¬ ∃ arr, ctx.fdsToIgnore = some (some arr) ∧ (fd : Int) ∈ arr := by
      rintro ⟨arr, harr, -⟩
      rw [hnull] at harr
      cases harr
    rw [or_iff_left hnone]
    exact getD_foldl_allow hfd
  · next hnone =>
    rw [hnone] at hptr
    cases hptr

theorem getD_applyExemptions {ctx : Context} (hcan : ∀ fd ∈ ctx.exemptedFds, ctx.canExemptFd = true)
    {fd : Nat}
    (hfd : fd < ctx.allowedFds.length) :
    ctx.applyExemptions.allowedFds.getD fd false = true ↔
      ctx.allowedFds.getD fd false = true ∨ (fd : Int) ∈ ctx.exemptedFds ∨
        (∃ fd', fd' ∈ ctx.exemptedFds) ∧ ∃ arr, ctx.fdsToIgnore = some (some arr) ∧ (fd : Int) ∈ arr := by
  unfold Context.applyExemptions
  cases hexempted : ctx.exemptedFds with
  | nil =>
    rw [isEmpty_nil, Bool.not_true, Bool.and_false, if_neg Bool.false_ne_true,
      or_iff_right not_mem_nil]
    exact (or_iff_left fun h => h.1.elim fun _ => not_mem_nil).symm
  | cons fd' fds =>
    have hmem : fd' ∈ ctx.exemptedFds := hexempted ▸ mem_cons_self
    have hptr : ctx.fdsToIgnore.isSome = true := (Bool.and_eq_true_iff.mp (hcan fd' hmem)).2
    rw [hcan fd' hmem, isEmpty_cons, Bool.not_false, Bool.and_true, if_pos rfl, getD_extendIgnored hptr hfd,
      hexempted, and_iff_right ⟨fd', mem_cons_self⟩]

include hcounts in
/-- `sanitize_fds` leaves the marked ones of the open descriptors. -/
theorem sanitizeFds_eq {p : Process} (hchild : p.ctx.isChild = true) (hint : ∀ fd ∈ p.openFds, fd < 2 ^ 31)
    (hdir : lowestFree p.openFds < 2 ^ 31) :
    ∃ final, sanitizeFds counts p = some final ∧
      ∀ fd, fd ∈ final.openFds ↔ fd ∈ p.openFds ∧ p.ctx.applyExemptions.allowedFds.getD fd false = true := by
  have hall : ∀ fd ∈ insert (lowestFree p.openFds) p.openFds, fd < 2 ^ 31 :=
    Finset.forall_mem_insert _ _ _ |>.mpr ⟨hdir, hint⟩
  obtain ⟨q, hq, hopen⟩ := forEachEntry_close hcounts (lowestFree p.openFds)
    (p := ⟨p.ctx.applyExemptions, insert (lowestFree p.openFds) p.openFds⟩) hall
  refine ⟨{ q with openFds := close q.openFds (lowestFree p.openFds) }, ?_, fun fd => ?_⟩
  · rw [sanitizeFds, hchild]
    simp only [hq]
    rfl
  · rw [close_natCast, Finset.mem_erase, hopen, Finset.mem_insert, Keeps]
    constructor
    · rintro ⟨hne, hmem, hkeeps⟩
      exact ⟨hmem.resolve_left hne, hkeeps.resolve_right hne⟩
    · rintro ⟨hmem, hmark⟩
      refine ⟨?_, .inr hmem, .inl hmark⟩
      rintro rfl
      exact lowestFree_notMem _ hmem

end

/-! ### Modules -/

theorem run_concat (p : Process) (actions : List Action) (a : Action) :
    p.run (actions ++ [a]) = (p.run actions).step a := foldl_concat ..

/-- Modules change the context in the list of exempted descriptors only. -/
theorem ctx_run (p : Process) (actions : List Action) :
    (p.run actions).ctx = { p.ctx with exemptedFds := (p.run actions).ctx.exemptedFds } := by
  have hexempt :
    ∀ (ctx : Context) (fd : Int), (ctx.exemptFd fd).2 =
      { ctx with exemptedFds := (ctx.exemptFd fd).2.exemptedFds } := by
    intro ctx fd
    unfold Context.exemptFd
    split
    · rfl
    · split <;> rfl
  induction actions using List.reverseRecOn with
  | nil => rfl
  | append_singleton actions a ih =>
    rw [run_concat]
    cases a with
    | opened fd | closed fd => exact ih
    | exempt fd =>
      have hstep : ((p.run actions).step (.exempt fd)).ctx = ((p.run actions).ctx.exemptFd fd).2 := rfl
      rw [hstep, hexempt, ih]

theorem openFds_run (p : Process) (actions : List Action) :
    (p.run actions).openFds = actions.foldl Action.change p.openFds := by
  induction actions using List.reverseRecOn with
  | nil => rfl
  | append_singleton actions a ih =>
    rw [run_concat, foldl_concat, ← ih]
    rfl

theorem lt_of_mem_change {fdMax : Nat} {fds : Finset Nat} (hfds : ∀ fd ∈ fds, fd < fdMax)
    {actions : List Action}
    (hopened : ∀ fd, .opened fd ∈ actions → fd < fdMax) :
    ∀ fd ∈ actions.foldl Action.change fds, fd < fdMax := by
  induction actions generalizing fds with
  | nil => exact hfds
  | cons a actions ih =>
    refine ih (fun fd hfd => ?_) fun fd hfd => hopened fd (mem_cons_of_mem a hfd)
    cases a with
    | opened fd' =>
      rcases Finset.mem_insert.mp hfd with rfl | hfd
      · exact hopened fd mem_cons_self
      · exact hfds fd hfd
    | closed fd' =>
      rw [Action.change, close_natCast] at hfd
      exact hfds fd (Finset.mem_of_mem_erase hfd)
    | exempt fd' => exact hfds fd hfd

theorem exempted_concat {p : Process} {actions : List Action} {a : Action} {fd : Int} :
    Exempted p (actions ++ [a]) fd ↔
      Exempted p actions fd ∨ (.exempt fd = a ∧ ((p.run actions).ctx.exemptFd fd).1 = true) :=
  Firsts.exists_split_concat

section

variable {p : Process} (hpost : p.ctx.postSpecialize = false) (hskip : p.ctx.skipCloseLogPipe = false)

include hpost hskip in
theorem exemptFd_run (actions : List Action) (fd : Int) :
    (p.run actions).ctx.exemptFd fd =
      if p.ctx.canExemptFd then
        (true, { (p.run actions).ctx with exemptedFds := (p.run actions).ctx.exemptedFds ++ [fd] })
      else (false, (p.run actions).ctx) := by
  have hflags : ((p.run actions).ctx.postSpecialize || (p.run actions).ctx.skipCloseLogPipe) = false := by
    rw [ctx_run, hpost, hskip]
    rfl
  have hcan : (p.run actions).ctx.canExemptFd = p.ctx.canExemptFd := by
    rw [ctx_run]
    rfl
  rw [Context.exemptFd, hflags, if_neg Bool.false_ne_true, hcan]
  cases p.ctx.canExemptFd <;> rfl

include hpost hskip in
theorem mem_exemptedFds (hnone : p.ctx.exemptedFds = []) {actions : List Action} {fd : Int} :
    fd ∈ (p.run actions).ctx.exemptedFds ↔ Exempted p actions fd := by
  induction actions using List.reverseRecOn with
  | nil => exact iff_of_false (fun h => not_mem_nil (hnone ▸ h)) Firsts.not_exists_split_nil
  | append_singleton actions a ih =>
    rw [run_concat, exempted_concat, ← ih]
    cases a with
    | opened fd' | closed fd' => exact (or_iff_left fun h => Action.noConfusion h.1).symm
    | exempt fd' =>
      have hstep : ((p.run actions).step (.exempt fd')).ctx = ((p.run actions).ctx.exemptFd fd').2 := rfl
      rw [hstep, exemptFd_run hpost hskip, exemptFd_run hpost hskip]
      cases p.ctx.canExemptFd with
      | false => exact (or_iff_left fun h => Bool.false_ne_true h.2).symm
      | true =>
        rw [if_pos rfl, if_pos rfl, mem_append, mem_singleton, Action.exempt.injEq]
        exact or_congr_right (and_iff_left rfl).symm

include hpost hskip in
theorem canExemptFd_of_exempted {actions : List Action} {fd : Int} (h : Exempted p actions fd) :
    p.ctx.canExemptFd = true := by
  obtain ⟨before, after, -, hok⟩ := h
  rw [exemptFd_run hpost hskip] at hok
  split at hok
  · next hcan => exact hcan
  · cases hok

end

end DescriptorsLemmas

open DescriptorsLemmas

/-- For any descriptors open at the fork, any actions of modules and any sizes of the batches: after
`sanitize_fds` in the child, the open descriptors are those that were open before it and were open
at the fork, were exempted, or are in the caller's array when some descriptor was exempted. -/
theorem sanitize_exact {fdMax : Nat} (hint : fdMax ≤ 2 ^ 31) {counts₁ counts₂ : Nat → Nat}
    (hcounts₁ : ∀ n, 0 < counts₁ n) (hcounts₂ : ∀ n, 0 < counts₂ n) {pid : Int} (hchild : pid ≤ 0)
      (app : Bool)
    (fdsToIgnore : Option (Option (List Int))) {atFork : Finset Nat} {actions : List Action}
    (hfork : ∀ fd ∈ atFork, fd < fdMax) (hopened : ∀ fd, .opened fd ∈ actions → fd < fdMax)
    (hdir₁ : lowestFree atFork < fdMax) (hdir₂ : lowestFree (actions.foldl Action.change atFork) < fdMax) :
    ∃ forked final,
      forkPre counts₁ pid ⟨.ofFork fdMax app fdsToIgnore, atFork⟩ = some forked ∧
      sanitizeFds counts₂ (forked.run actions) = some final ∧
      ∀ fd : Nat, fd ∈ final.openFds ↔ fd ∈ (forked.run actions).openFds ∧
        (fd ∈ atFork ∨ Exempted forked actions fd ∨
          (∃ fd', Exempted forked actions fd') ∧ ∃ arr, fdsToIgnore = some (some arr) ∧
            (fd : Int) ∈ arr) := by
  have hsize : (Context.ofFork fdMax app fdsToIgnore).allowedFds.length = fdMax := length_replicate
  obtain ⟨allowed, hforked, hlen, hallowed⟩ := forkPre_eq hcounts₁ hchild
    (p := ⟨.ofFork fdMax app fdsToIgnore, atFork⟩) (getD_replicate_false fdMax) (hsize.symm ▸ hint)
      (hsize.symm ▸ hfork)
    (hsize.symm ▸ hdir₁)
  let forked : Process :=
    ⟨{ Context.ofFork fdMax app fdsToIgnore with pid := pid, allowedFds := allowed }, atFork⟩
  have hctx : (forked.run actions).ctx = { forked.ctx with exemptedFds :=
    (forked.run actions).ctx.exemptedFds } :=
    ctx_run forked actions
  have hopen : ∀ fd ∈ (forked.run actions).openFds, fd < fdMax := by
    rw [openFds_run]
    exact lt_of_mem_change hfork hopened
  have hdir : lowestFree (forked.run actions).openFds < 2 ^ 31 := by
    rw [openFds_run]
    exact Nat.lt_of_lt_of_le hdir₂ hint
  have hchild' : (forked.run actions).ctx.isChild = true := by
    rw [hctx]
    exact decide_eq_true hchild
  obtain ⟨final, hfinal, hleft⟩ := sanitizeFds_eq hcounts₂ hchild'
    (fun fd hfd => Nat.lt_of_lt_of_le (hopen fd hfd) hint) hdir
  refine ⟨forked, final, hforked, hfinal, fun fd => (hleft fd).trans (and_congr_right fun hfd => ?_)⟩
  have hmem : ∀ fd, fd ∈ (forked.run actions).ctx.exemptedFds ↔ Exempted forked actions fd := fun fd =>
    mem_exemptedFds rfl rfl rfl
  have hcan : ∀ fd ∈ (forked.run actions).ctx.exemptedFds, (forked.run actions).ctx.canExemptFd = true := by
    intro fd hfd
    rw [hctx]
    exact canExemptFd_of_exempted rfl rfl ((hmem fd).mp hfd)
  have hallowed' : (forked.run actions).ctx.allowedFds = allowed := by rw [hctx]
  have harray : (forked.run actions).ctx.fdsToIgnore = fdsToIgnore := by rw [hctx]; rfl
  have hbound : fd < (forked.run actions).ctx.allowedFds.length := by
    rw [hallowed', hlen, hsize]
    exact hopen fd hfd
  rw [getD_applyExemptions hcan hbound, hallowed', hallowed, harray]
  simp only [hmem]

/-- Modules that open 2, 5 and 6, close 1 and exempt 6, where the caller's array has 5. -/
def openedThree : List Action := [.opened 2, .opened 5, .opened 6, .closed 1, .exempt 6]

theorem sanitize_exact_three :
    ∃ forked final,
      forkPre (fun _ => 3) 0 ⟨.ofFork 16 true (some (some [5])), {0, 1, 3}⟩ = some forked ∧
      sanitizeFds (fun _ => 2) (forked.run openedThree) = some final ∧
      ∀ fd : Nat, fd ∈ final.openFds ↔ fd ∈ (forked.run openedThree).openFds ∧
        (fd ∈ ({0, 1, 3} : Finset Nat) ∨ Exempted forked openedThree fd ∨
          (∃ fd', Exempted forked openedThree fd') ∧
            ∃ arr, some (some [(5 : Int)]) = some (some arr) ∧ (fd : Int) ∈ arr) :=
  sanitize_exact (by decide) (fun _ => by decide) (fun _ => by decide) (by decide) true (some (some [5]))
    (by decide) (by simp [openedThree]) (Nat.lt_of_le_of_lt (lowestFree_le (n := 2) (by decide)) (by decide))
    (Nat.lt_of_le_of_lt (lowestFree_le (n := 1) (by decide)) (by decide))

end NyaZygisk.Descriptors
