import NyaZygisk.Injection
import NyaZygisk.Lib.Pages

/-!
# The stack of a live process

`inject_after_start` and what it calls, for every architecture the loader is built for. The
functions are called on the stack of the interrupted thread.
-/

namespace NyaZygisk

open Effects List

namespace LateInjection

/-! ## What is written -/

section Writes

variable {abi : Abi}

/-- The call has written the byte at `a`. -/
def Wrote (a : BitVec abi.width) : AbiEvent abi → Prop
  | ⟨.writeProc addr _, (n : Int)⟩ => ∃ i : Nat, i < n.toNat ∧ a = addr + BitVec.ofNat _ i
  | _ => False

def isWrite : abi.Call → Bool
  | .writeProc _ _ => true
  | _ => false

def isCont : abi.Call → Bool
  | .cont => true
  | _ => false

/-- The calls since the target was last let run. -/
def pending (tr : List (AbiEvent abi)) : List (AbiEvent abi) :=
  tr.foldl (fun calls ev => if isCont ev.1 then [] else calls ++ [ev]) []

/-- Every byte that is written lies below the stack pointer and its red zone, and nothing that was
written for a call is overwritten before it. -/
structure FrameKept (sp : BitVec abi.width) (redZone : Nat) (tr : List (AbiEvent abi)) : Prop where
  below : ∀ ev ∈ tr, ∀ a, Wrote a ev → a.toNat + redZone < sp.toNat
  strings : ∀ before ev after, tr = before ++ ev :: after →
    ∀ ev' ∈ pending before, ∀ a, Wrote a ev' → ¬ Wrote a ev

/-- The target stops with its stack pointer between these. -/
def Between (low : Nat) (top : BitVec abi.width) (regs : abi.Regs) : Prop :=
  low ≤ (abi.sp regs).toNat ∧ (abi.sp regs).toNat ≤ top.toNat

/-- What the calls do to the registers of the target. The functions that run in it are stopped with
their stack pointer not above the one of the interrupted thread, and with room below it for the
strings. -/
def kernel (low : Nat) (top : BitVec abi.width) : Kernel abi.Call Abi.Call.Result abi.Regs
  | .getRegs, regs, (r : Option abi.Regs), regs' => regs' = regs ∧ (r = none ∨ r = some regs)
  | .setRegs new, regs, (ok : Bool), regs' => regs' = if ok then new else regs
  | .writeProc _ bytes, regs, (n : Int), regs' => regs' = regs ∧ n ≤ bytes.length
  | .waitpid, regs, (waited : Waited), regs' =>
    match waited with
    | .status _ => Between low top regs'
    | .interrupted | .failed => regs' = regs
  | .getTmpPath, regs, (path : String), regs' => regs' = regs ∧ (stringBytes path).length + 128 ≤ low
  | .setSyscall, regs, _, regs' | .readProc _ _, regs, _, regs' | .cont, regs, _, regs'
  | .detach _, regs, _, regs' | .kill _, regs, _, regs' | .scanMaps, regs, _, regs'
  | .findFuncAddr _ _, regs, _, regs' => regs' = regs
  | .exit, _, _, _ | .spin, _, _, _ => False

end Writes

namespace StackLemmas

variable {abi : Abi}

/-! ### Moving the stack pointer -/

theorem align_bounds (a : BitVec abi.width) :
    (a &&& ~~~ 0xf).toNat ≤ a.toNat ∧ a.toNat ≤ (a &&& ~~~ 0xf).toNat + 15 := by
  have hbits : 4 < abi.width := by
    rcases abi.width_eq with h | h <;> rw [h] <;> decide
  have hfloor := Pages.toNat_floor ⟨4, by decide, hbits⟩ a
  have hmask : Pages.floor (Pages.PageSize.bytes ⟨4, by decide, hbits⟩) a = a &&& ~~~ 0xf := by
    have hsize : (Pages.PageSize.bytes ⟨4, by decide, hbits⟩ : BitVec abi.width) - 1 = 0xf := by
      refine BitVec.eq_of_toNat_eq ?_
      rw [Pages.PageSize.toNat_bytes_sub_one]
      show 15 = (BitVec.ofNat abi.width 15).toNat
      rcases abi.width_eq with h | h <;> rw [h] <;> rfl
    rw [Pages.floor, hsize]
  rw [hmask, show (2 : Nat) ^ 4 = 16 from rfl] at hfloor
  rw [hfloor]
  omega

theorem sp_lower (regs : abi.Regs) (len : Nat) (h : len ≤ (abi.sp regs).toNat) :
    (abi.sp (lower regs len)).toNat = (abi.sp regs).toNat - len := by
  have hle : BitVec.ofNat abi.width len ≤ abi.sp regs := by
    rw [BitVec.le_def, BitVec.toNat_ofNat]
    exact Nat.le_trans (Nat.mod_le _ _) h
  rw [lower, abi.sp_setSp, BitVec.toNat_sub_of_le hle, BitVec.toNat_ofNat,
    Nat.mod_eq_of_lt (Nat.lt_of_le_of_lt h (abi.sp regs).isLt)]

theorem sp_alignStack (regs : abi.Regs) :
    (abi.sp (alignStack regs)).toNat ≤ (abi.sp regs).toNat ∧
      (abi.sp regs).toNat ≤ (abi.sp (alignStack regs)).toNat + 15 := by
  rw [alignStack, abi.sp_setSp]
  exact align_bounds _

theorem sp_setArgs (regs : abi.Regs) (args : List (BitVec abi.width)) :
    abi.sp (setArgs regs args) = abi.sp regs := by
  have hsteps : ∀ (l : List (BitVec abi.width × Nat)) (regs : abi.Regs), (∀ x ∈ l, x.2 < abi.argRegs) →
      abi.sp (l.foldl (fun regs x => abi.setArg regs x.2 x.1) regs) = abi.sp regs := by
    intro l
    induction l with
    | nil => exact fun _ _ => rfl
    | cons x l ih =>
      intro regs hl
      obtain ⟨hx, hl⟩ := forall_mem_cons.mp hl
      exact (ih _ hl).trans (abi.sp_setArg regs x.2 x.1 hx)
  refine hsteps _ _ fun x hx => ?_
  have hlt := (mem_zipIdx hx).2.1
  rw [length_take] at hlt
  omega

/-! ### One more call -/

theorem pending_snoc (tr : List (AbiEvent abi)) (ev : AbiEvent abi) :
    pending (tr ++ [ev]) = if isCont ev.1 then [] else pending tr ++ [ev] := by
  rw [pending, foldl_append]
  rfl

theorem mem_pending_snoc {tr : List (AbiEvent abi)} {ev ev' : AbiEvent abi} (h : ev' ∈ pending (tr ++ [ev])) :
    isCont ev.1 = false ∧ (ev' ∈ pending tr ∨ ev' = ev) := by
  rw [pending_snoc] at h
  split at h
  · cases h
  · next hcont =>
    rw [mem_append, mem_singleton] at h
    exact ⟨Bool.eq_false_iff.mpr hcont, h⟩

theorem not_wrote {ev : AbiEvent abi} (h : isWrite ev.1 = false) (a : BitVec abi.width) : ¬ Wrote a ev := by
  rcases ev with ⟨c, r⟩
  cases c <;> first | exact id | cases h

theorem split_snoc {α : Type} {l before after : List α} {x y : α} (h : l ++ [x] = before ++ y :: after) :
    (before = l ∧ y = x) ∨ ∃ after', l = before ++ y :: after' := by
  rcases eq_nil_or_concat after with rfl | ⟨after', z, rfl⟩
  · obtain ⟨rfl, hxy⟩ := append_inj' h rfl
    exact .inl ⟨rfl, (singleton_inj.mp hxy).symm⟩
  · refine .inr ⟨after', ?_⟩
    rw [concat_eq_append, ← cons_append, ← append_assoc] at h
    exact (append_inj' h rfl).1

theorem kept_snoc {sp : BitVec abi.width} {redZone : Nat} {tr : List (AbiEvent abi)} {ev : AbiEvent abi}
    (h : FrameKept sp redZone tr) (hbelow : ∀ a, Wrote a ev → a.toNat + redZone < sp.toNat)
    (hpending : ∀ ev' ∈ pending tr, ∀ a, Wrote a ev' → ¬ Wrote a ev) :
    FrameKept sp redZone (tr ++ [ev]) where
  below := forall_mem_append.mpr ⟨h.below, forall_mem_singleton.mpr hbelow⟩
  strings before ev' after heq := by
    rcases split_snoc heq with ⟨rfl, rfl⟩ | ⟨after', rfl⟩
    · exact hpending
    · exact h.strings before ev' after' rfl

/-- What is written for the next call lies above the stack pointer. -/
structure Stacked (top sp : BitVec abi.width) (tr : List (AbiEvent abi)) : Prop where
  below : sp.toNat ≤ top.toNat
  kept : FrameKept top 0 tr
  above : ∀ ev ∈ pending tr, ∀ a, Wrote a ev → sp.toNat ≤ a.toNat

/-- Nothing is written yet for the next call. -/
def Rested (top : BitVec abi.width) (tr : List (AbiEvent abi)) : Prop :=
  ∀ sp : BitVec abi.width, sp.toNat ≤ top.toNat → Stacked top sp tr

section Snoc

variable {top sp sp' : BitVec abi.width} {tr : List (AbiEvent abi)}

theorem Stacked.mono (h : Stacked top sp tr) (hle : sp'.toNat ≤ sp.toNat) : Stacked top sp' tr where
  below := Nat.le_trans hle h.below
  kept := h.kept
  above ev hev a ha := Nat.le_trans hle (h.above ev hev a ha)

theorem Stacked.snoc (h : Stacked top sp tr) (ev : AbiEvent abi) (hev : isWrite ev.1 = false) :
    Stacked top sp (tr ++ [ev]) where
  below := h.below
  kept := kept_snoc h.kept (fun a ha => absurd ha (not_wrote hev a)) fun _ _ a _ => not_wrote hev a
  above ev' hmem a ha := by
    rcases (mem_pending_snoc hmem).2 with hmem | rfl
    · exact h.above ev' hmem a ha
    · exact absurd ha (not_wrote hev a)

theorem Rested.snoc (h : Rested top tr) (ev : AbiEvent abi) (hev : isWrite ev.1 = false) :
    Rested top (tr ++ [ev]) :=
  fun sp hsp => (h sp hsp).snoc ev hev

theorem Rested.kept (h : Rested top tr) : FrameKept top 0 tr := (h top (Nat.le_refl _)).kept

theorem Stacked.cont (h : Stacked top sp tr) (ok : Bool) : Rested top (tr ++ [⟨.cont, ok⟩]) :=
  fun _ hsp => ⟨hsp, (h.snoc _ rfl).kept, fun _ hmem => Bool.noConfusion (mem_pending_snoc hmem).1⟩

theorem wrote_bounds {addr a : BitVec abi.width} {bytes : List UInt8} {n : Int} (hn : n ≤ bytes.length)
    (hroom : addr.toNat + bytes.length ≤ 2 ^ abi.width) (h : Wrote a ⟨.writeProc addr bytes, n⟩) :
    addr.toNat ≤ a.toNat ∧ a.toNat < addr.toNat + bytes.length := by
  obtain ⟨i, hi, rfl⟩ := h
  rw [Pages.toNat_add_ofNat (by omega)]
  omega

theorem Stacked.write {bytes : List UInt8} {n : Int} (h : Stacked top sp tr)
    (hle : sp'.toNat + bytes.length ≤ sp.toNat) (hn : n ≤ bytes.length) :
    Stacked top sp' (tr ++ [⟨.writeProc sp' bytes, n⟩]) where
  below := (Nat.le_of_add_right_le hle).trans h.below
  kept := by
    have hunder : ∀ a, Wrote a ⟨.writeProc sp' bytes, n⟩ → a.toNat < sp.toNat := fun a ha =>
      (wrote_bounds hn (hle.trans (Nat.le_of_lt sp.isLt)) ha).2.trans_le hle
    refine kept_snoc h.kept (fun a ha => (hunder a ha).trans_le h.below) fun ev hev a ha ha' => ?_
    exact absurd (h.above ev hev a ha) (Nat.not_le_of_lt (hunder a ha'))
  above ev hmem a ha := by
    rcases (mem_pending_snoc hmem).2 with hmem | rfl
    · exact Nat.le_trans (Nat.le_trans (Nat.le_add_right _ _) hle) (h.above ev hmem a ha)
    · exact (wrote_bounds hn (Nat.le_trans hle (Nat.le_of_lt sp.isLt)) ha).1

end Snoc

/-! ### The programs -/

section Programs

variable {low k n : Nat} {top sp funcAddr returnAddr libcReturnAddr : BitVec abi.width}
  {tr : List (AbiEvent abi)} {regs s : abi.Regs} {mode : TraceMode}

/-- At every moment of a run, the frame is kept. -/
abbrev Along {α : Type} (low : Nat) (top : BitVec abi.width)
    (post : α → List (AbiEvent abi) → abi.Regs → Prop) (p : AbiTracer abi α) (tr : List (AbiEvent abi))
    (s : abi.Regs) : Prop :=
  along (kernel low top) (FrameKept top 0) post p tr s

theorem along_call {α : Type} {post : α → List (AbiEvent abi) → abi.Regs → Prop} {c : abi.Call}
    {next : c.Result → AbiTracer abi α} (h : Stacked top sp tr) (hc : isWrite c = false)
    (hnext : ∀ r t, kernel low top c s r t → Stacked top sp (tr ++ [⟨c, r⟩]) →
      Along low top post (next r) (tr ++ [⟨c, r⟩]) t) :
    Along low top post (.call c next) tr s :=
  ⟨h.kept, fun r t hcall => hnext r t hcall (h.snoc _ hc)⟩

theorem along_traceeSkipSyscall (h : Rested top tr) :
    Along low top (fun _ tr _ => Rested top tr) traceeSkipSyscall tr s := by
  refine ⟨h.kept, fun (got : Option abi.Regs) t _ => ?_⟩
  replace h := h.snoc ⟨.getRegs, got⟩ rfl
  cases got with
  | none => exact ⟨h.kept, nofun⟩
  | some regs =>
    refine ⟨h.kept, fun (ok : Bool) t _ => ?_⟩
    replace h := h.snoc ⟨.setRegs (abi.skipSyscall regs), ok⟩ rfl
    cases ok with
    | false => exact ⟨h.kept, nofun⟩
    | true => exact along_ite (fun _ => ⟨h.kept, fun _ t _ => h.snoc _ rfl⟩) fun _ => h

theorem along_waitForTrace (h : Rested top tr) :
    Along low top (fun _ tr s => Rested top tr ∧ Between low top s) (waitForTrace n) tr s := by
  induction n generalizing tr s with
  | zero => exact ⟨h.kept, nofun⟩
  | succ n ih =>
    refine ⟨h.kept, fun (waited : Waited) t hcall => ?_⟩
    replace h := h.snoc ⟨.waitpid, waited⟩ rfl
    cases waited with
    | interrupted => exact ih h
    | failed => exact ⟨h.kept, nofun⟩
    | status status =>
      refine along_ite (fun _ => ?_) fun _ => along_ite (fun _ => ⟨h, hcall⟩) fun _ => ⟨h.kept, nofun⟩
      refine along_seq (along_traceeSkipSyscall h) fun _ tr s h => ⟨h.kept, fun ok t _ => ?_⟩
      exact ih (h.snoc _ rfl)

/-- After a remote call, `k` bytes are left below the stack pointer; if a value was returned there is
as much room as at every stop. -/
def Returned (low : Nat) (top : BitVec abi.width) (k : Nat) (result : RemoteResult abi)
    (tr : List (AbiEvent abi)) (_ : abi.Regs) : Prop :=
  Stacked top (abi.sp result.regs) tr ∧ k ≤ (abi.sp result.regs).toNat ∧
    (result.value ≠ 0 → low ≤ (abi.sp result.regs).toNat)

theorem along_enterCall (hk : k ≤ low) (h : Stacked top (abi.sp regs) tr) (hroom : k ≤ (abi.sp regs).toNat) :
    Along low top (Returned low top k) (enterCall n regs funcAddr returnAddr) tr s := by
  have hsp := abi.sp_enter regs funcAddr returnAddr
  rw [← hsp] at h hroom
  refine along_call h rfl fun (ok : Bool) t _ h => ?_
  cases ok with
  | false => exact ⟨h, hroom, fun hvalue => absurd rfl hvalue⟩
  | true =>
    refine ⟨h.kept, fun (ok : Bool) t _ => ?_⟩
    refine along_seq (p := waitForTrace n) (along_waitForTrace (h.cont ok)) ?_
    rintro status tr s ⟨hrested, hbetween⟩
    refine ⟨hrested.kept, fun (got : Option abi.Regs) t hgot => ?_⟩
    replace hrested := hrested.snoc ⟨.getRegs, got⟩ rfl
    cases got with
    | none => exact ⟨hrested _ h.below, hroom, fun hvalue => absurd rfl hvalue⟩
    | some regs =>
      obtain rfl : regs = s := Option.some_inj.mp (hgot.2.resolve_left nofun)
      have hstacked := hrested _ hbetween.2
      have hleft := Nat.le_trans hk hbetween.1
      exact along_ite (fun _ => ⟨hstacked, hleft, fun _ => hbetween.1⟩)
        fun _ => ⟨hstacked, hleft, fun hvalue => absurd rfl hvalue⟩

/-- A block that is pushed leaves the room that it does not take. -/
def Pushed (top : BitVec abi.width) (k : Nat) (regs : abi.Regs) (tr : List (AbiEvent abi)) : Prop :=
  Stacked top (abi.sp regs) tr ∧ k ≤ (abi.sp regs).toNat

theorem Pushed.mono {k' : Nat} (h : Pushed top k' regs tr) (hle : k ≤ k') : Pushed top k regs tr :=
  ⟨h.1, Nat.le_trans hle h.2⟩

theorem length_wordBytes (value : BitVec abi.width) : (abi.wordBytes value).length ≤ 8 := by
  rw [Abi.wordBytes, length_map, length_range]
  rcases abi.width_eq with h | h <;> omega

theorem length_words (words : List (BitVec abi.width)) :
    (words.flatMap abi.wordBytes).length ≤ words.length * 8 := by
  induction words with
  | nil => exact Nat.zero_le _
  | cons word words ih =>
    have hword := length_wordBytes word
    rw [flatMap_cons, length_append, length_cons]
    omega

theorem along_pushWords {words : List (BitVec abi.width)} (h : Pushed top (k + words.length * 8) regs tr) :
    Along low top (fun r tr _ => Pushed top k r.2 tr) (pushWords regs words) tr s := by
  obtain ⟨hstacked, hroom⟩ := h
  have hlen := length_words words
  have hsp := sp_lower regs (words.flatMap abi.wordBytes).length (by omega)
  refine ⟨hstacked.kept, fun (n : Int) t hcall => ⟨?_, ?_⟩⟩
  · show Stacked top (abi.sp (lower regs _)) _
    exact hstacked.write (by omega) hcall.2
  · show k ≤ (abi.sp (lower regs _)).toNat
    omega

theorem along_pushString {str : String} (h : Pushed top (k + (stringBytes str).length + 15) regs tr) :
    Along low top (fun r tr _ => Pushed top k r.2 tr) (pushString regs str) tr s := by
  obtain ⟨hstacked, hroom⟩ := h
  have hsp := sp_lower regs (stringBytes str).length (by omega)
  have halign := sp_alignStack (lower regs (stringBytes str).length)
  refine ⟨hstacked.kept, fun (n : Int) t hcall => ?_⟩
  have hpushed : Pushed top k (alignStack (lower regs (stringBytes str).length)) _ :=
    ⟨hstacked.write (by omega) hcall.2, by omega⟩
  exact along_ite (fun _ => hpushed) fun _ => hpushed

/-- A remote call takes up to 15 bytes for the alignment, and a word for each argument and for the
return address. -/
theorem along_remoteCall {args : List (BitVec abi.width)} (hk : k ≤ low)
    (h : Pushed top (k + args.length * 8 + 23) regs tr) :
    Along low top (Returned low top k) (remoteCall n regs funcAddr returnAddr args) tr s := by
  obtain ⟨hstacked, hroom⟩ := h
  have halign := sp_alignStack regs
  have hargs := sp_setArgs (alignStack regs) args
  have hset : Pushed top (k + 8 + (args.drop abi.argRegs).length * 8)
      (setArgs (alignStack regs) args) tr := by
    refine ⟨hstacked.mono (by rw [hargs]; exact halign.1), ?_⟩
    rw [hargs, length_drop]
    omega
  refine along_seq (q := fun (r : Bool × abi.Regs) tr _ => Pushed top (k + 8) r.2 tr) ?_ ?_
  · unfold pushArgs
    split
    · exact along_pushWords hset
    · exact hset.mono (Nat.le_add_right _ _)
  rintro ⟨ok, regs⟩ tr s hpushed
  cases ok with
  | false => exact ⟨hpushed.1, (hpushed.mono (Nat.le_add_right _ _)).2, fun hvalue => absurd rfl hvalue⟩
  | true =>
    refine along_seq (q := fun (r : Bool × abi.Regs) tr _ => Pushed top k r.2 tr) ?_ ?_
    · unfold pushReturn
      split
      · exact along_pushWords hpushed
      · exact hpushed.mono (Nat.le_add_right _ _)
    rintro ⟨ok, regs⟩ tr s hpushed
    cases ok with
    | false => exact ⟨hpushed.1, hpushed.2, fun hvalue => absurd rfl hvalue⟩
    | true => exact along_enterCall hk hpushed.1 hpushed.2

/-- The frame is kept, and will be by the next calls that write nothing. -/
def Held (top : BitVec abi.width) (tr : List (AbiEvent abi)) : Prop := ∃ sp, Stacked top sp tr

theorem Held.kept (h : Held top tr) : FrameKept top 0 tr := h.elim fun _ hstacked => hstacked.kept

theorem Held.snoc (h : Held top tr) (ev : AbiEvent abi) (hev : isWrite ev.1 = false) :
    Held top (tr ++ [ev]) :=
  h.imp fun _ hstacked => hstacked.snoc ev hev

theorem along_reportDlerror (hlow : 31 ≤ low) (h : Pushed top 23 regs tr) :
    Along low top (fun _ tr _ => Held top tr) (reportDlerror n regs libcReturnAddr) tr s := by
  refine along_call h.1 rfl fun (dlerrorAddr : BitVec abi.width) t _ hfound => ?_
  refine along_ite (fun _ => ⟨_, hfound⟩) fun _ => ?_
  refine along_seq (along_remoteCall (k := 0) (Nat.zero_le _) ⟨hfound, h.2⟩) ?_
  rintro dlerror tr s ⟨hstacked, -, hvalue⟩
  refine along_ite (fun _ => ⟨_, hstacked⟩) fun hne => ?_
  refine along_call hstacked rfl fun (strlenAddr : BitVec abi.width) t _ hfound => ?_
  have hroom := Nat.le_trans hlow (hvalue hne)
  refine along_ite (fun _ => ⟨_, hfound⟩) fun _ => ?_
  refine along_seq (along_remoteCall (k := 0) (Nat.zero_le _) ⟨hfound, hroom⟩) ?_
  rintro strlen tr s ⟨hstacked, -, -⟩
  exact along_ite (fun _ => ⟨_, hstacked⟩) fun _ =>
    ⟨hstacked.kept, fun _ t _ => ⟨_, hstacked.snoc _ rfl⟩⟩

theorem along_callEntry {injectorEntry : BitVec abi.width} (h : Pushed top low regs tr) :
    Along low top (fun _ tr _ => Held top tr) (callEntry n regs libcReturnAddr injectorEntry mode) tr s := by
  refine along_call h.1 rfl fun (maps : List MapInfo) t _ hscanned => ?_
  refine along_call hscanned rfl fun (tmpPath : String) t hpath hasked => ?_
  have hlen : (stringBytes tmpPath).length + 128 ≤ low := hpath.2
  have hroom : 55 + (stringBytes tmpPath).length + 15 ≤ (abi.sp regs).toNat := by
    have := h.2
    omega
  refine along_seq (p := pushString regs tmpPath) (along_pushString ⟨hasked, hroom⟩) ?_
  rintro ⟨remoteTmpPath, regs⟩ tr s hpushed
  refine along_seq (along_remoteCall (k := 0) (Nat.zero_le _) hpushed) ?_
  rintro entry tr s ⟨hstacked, -, -⟩
  exact ⟨_, hstacked⟩

theorem along_findEntry {handle : BitVec abi.width} (hlow : 128 ≤ low) (h : Pushed top low regs tr) :
    Along low top (fun _ tr _ => Held top tr) (findEntry n regs libcReturnAddr handle mode) tr s := by
  refine along_call h.1 rfl fun (dlsymAddr : BitVec abi.width) t _ hfound => ?_
  refine along_ite (fun _ => ⟨_, hfound⟩) fun _ => ?_
  have hroom : 39 + (stringBytes "entry").length + 15 ≤ (abi.sp regs).toNat := by
    have := h.2
    have hlen : (stringBytes "entry").length = 6 := by decide +kernel
    omega
  refine along_seq (along_pushString ⟨hfound, hroom⟩) ?_
  rintro ⟨remoteEntryStr, regs⟩ tr s hpushed
  refine along_seq (along_remoteCall (k := 0) (Nat.zero_le _) hpushed) ?_
  rintro dlsym tr s ⟨hstacked, -, hvalue⟩
  exact along_ite (fun _ => ⟨_, hstacked⟩) fun hne => along_callEntry ⟨hstacked, hvalue hne⟩

theorem along_executeRemoteInjection {libPath : String} (hlow : (stringBytes libPath).length + 128 ≤ low)
    (h : Pushed top low regs tr) :
    Along low top (fun _ tr _ => Held top tr) (executeRemoteInjection n regs libPath mode) tr s := by
  have hsp := abi.sp_clearBranch regs
  obtain ⟨hstacked, hroom⟩ := h
  rw [← hsp] at hstacked hroom
  refine along_call hstacked rfl fun (maps : List MapInfo) t _ hscanned => ?_
  refine along_call hscanned rfl fun (dlopenAddr : BitVec abi.width) t _ hfound => ?_
  refine along_ite (fun _ => ⟨_, hfound⟩) fun _ => ?_
  have hstring : 62 + (stringBytes libPath).length + 15 ≤ (abi.sp (abi.clearBranch regs)).toNat := by omega
  refine along_seq (along_pushString ⟨hfound, hstring⟩) ?_
  rintro ⟨remoteLibPath, regs⟩ tr s hpushed
  refine along_seq (along_remoteCall (k := 23) (by omega) hpushed) ?_
  rintro dlopen tr s ⟨hcalled, hleft, hvalue⟩
  have hroom : 128 ≤ low := Nat.le_of_add_left_le hlow
  exact along_ite
    (fun _ => along_reportDlerror ((by decide : 31 ≤ 128).trans hroom) ⟨hcalled, hleft⟩)
    fun hne => along_findEntry hroom ⟨hcalled, hvalue hne⟩

end Programs

end StackLemmas

open StackLemmas

/-- While a live process is injected, everything that is written lies below the stack pointer of
its interrupted thread. -/
theorem along_injectAfterStart (abi : Abi) (n : Nat) (libPath : String) (mode : TraceMode) {low : Nat}
    {regs : abi.Regs} (hlow : (stringBytes libPath).length + 128 ≤ low) (hregs : low ≤ (abi.sp regs).toNat) :
    Along low (abi.sp regs) (fun _ tr _ => Held (abi.sp regs) tr) (injectAfterStart abi n libPath mode) []
      regs := by
  have hstart : Stacked (abi.sp regs) (abi.sp regs) [] :=
    ⟨Nat.le_refl _, ⟨nofun, fun before ev after h => by simp at h⟩, nofun⟩
  refine along_call hstart rfl fun (got : Option abi.Regs) t hgot hasked => ?_
  cases got with
  | none => exact ⟨_, hasked⟩
  | some backup =>
    obtain rfl : backup = regs := Option.some_inj.mp (hgot.2.resolve_left nofun)
    have hsp := abi.sp_clearSyscall backup
    have hpushed : Pushed (abi.sp backup) low (abi.clearSyscall backup) ([] ++ [⟨.getRegs, some backup⟩]) :=
      ⟨hasked.mono (by rw [hsp]), by rwa [hsp]⟩
    refine along_seq (p := executeRemoteInjection n _ libPath mode)
      (along_executeRemoteInjection hlow hpushed) ?_
    intro success tr s hheld
    refine ⟨hheld.kept, fun (restored : Bool) t _ => ?_⟩
    cases restored with
    | false | true => exact hheld.snoc _ rfl

section Path

variable {abi : Abi}

/-- The calls up to the library path, all of which succeed. -/
def pathPushed (regs : abi.Regs) (libPath : String) : List (AbiEvent abi) :=
  let pushed := alignStack (lower (abi.clearBranch (abi.clearSyscall regs)) (stringBytes libPath).length)
  [⟨.getRegs, some regs⟩, ⟨.scanMaps, []⟩, ⟨.findFuncAddr "libdl.so" "dlopen", (1 : BitVec abi.width)⟩,
    ⟨.writeProc (abi.sp pushed) (stringBytes libPath), Int.ofNat (stringBytes libPath).length⟩]

theorem begins_pathPushed (abi : Abi) (n : Nat) (libPath : String) (mode : TraceMode) (low : Nat)
    (top : BitVec abi.width) (regs : abi.Regs) :
    Begins (kernel low top) (injectAfterStart abi n libPath mode) regs (pathPushed regs libPath) := by
  refine .call ⟨rfl, .inr rfl⟩ (.call rfl (.call rfl ?_))
  have hone : (1 : BitVec abi.width) ≠ 0 := by
    refine BitVec.toNat_ne.mpr ?_
    show (BitVec.ofNat abi.width 1).toNat ≠ (BitVec.ofNat abi.width 0).toNat
    rcases abi.width_eq with h | h <;> rw [h] <;> decide
  show Begins _ ((ite _ _ _ : AbiTracer abi Bool).bind _) _ _
  rw [if_neg hone]
  exact .call ⟨rfl, Int.le_refl _⟩ .stop

/-- The last byte of the path is one of the sixteen below the stack pointer. -/
theorem path_near (regs : abi.Regs) (libPath : String)
    (hroom : (stringBytes libPath).length + 15 ≤ (abi.sp regs).toNat) :
    ∃ ev ∈ pathPushed regs libPath, ∃ a, Wrote a ev ∧ (abi.sp regs).toNat ≤ a.toNat + 16 := by
  have hpos : 0 < (stringBytes libPath).length := by simp [stringBytes]
  have hsp := (abi.sp_clearBranch _).trans (abi.sp_clearSyscall regs)
  have hlower := sp_lower (abi.clearBranch (abi.clearSyscall regs)) (stringBytes libPath).length
    (by rw [hsp]; omega)
  have halign := sp_alignStack (lower (abi.clearBranch (abi.clearSyscall regs)) (stringBytes libPath).length)
  rw [hsp] at hlower
  have hlt := (abi.sp regs).isLt
  refine ⟨_, mem_of_getElem? (i := 3) rfl, _,
    ⟨(stringBytes libPath).length - 1, Nat.sub_lt hpos Nat.one_pos, rfl⟩, ?_⟩
  rw [Pages.toNat_add_ofNat (by omega)]
  omega

end Path

/-- The interrupted frame is left alone exactly if nothing is kept below the stack pointer. -/
theorem frame_kept_iff (abi : Abi) (n : Nat) (libPath : String) (mode : TraceMode) {low : Nat}
    {regs : abi.Regs} (hlow : (stringBytes libPath).length + 128 ≤ low)
    (hregs : low ≤ (abi.sp regs).toNat) :
    (∀ tr, Begins (kernel low (abi.sp regs)) (injectAfterStart abi n libPath mode) regs tr →
        FrameKept (abi.sp regs) abi.redZone tr) ↔
      abi.redZone = 0 := by
  constructor
  · intro hkept
    refine abi.redZone_eq.resolve_right fun hzone => ?_
    obtain ⟨ev, hev, a, hwrote, hnear⟩ := path_near regs libPath (by omega)
    have hbegins := begins_pathPushed abi n libPath mode low (abi.sp regs) regs
    have hbelow := (hkept _ hbegins).below ev hev a hwrote
    omega
  · intro hzone tr hbegins
    rw [hzone]
    exact along_sound (fun _ _ _ h => h.kept) (along_injectAfterStart abi n libPath mode hlow hregs) hbegins

/-- A thread of system_server on aarch64. -/
def sleepingRegs : Regs := ⟨.replicate 31 0, 0x7ffc00001000, 0x7f0000002000, 0⟩

theorem frame_kept_iff_aarch64 :
    (stringBytes "/debug_ramdisk/lib64/libzygisk.so").length + 128 ≤ 4096 ∧
      4096 ≤ (Abi.aarch64.sp sleepingRegs).toNat ∧
      ∀ tr, Begins (kernel 4096 (Abi.aarch64.sp sleepingRegs))
          (injectAfterStart .aarch64 8 "/debug_ramdisk/lib64/libzygisk.so" .systemServer) sleepingRegs tr →
        FrameKept (Abi.aarch64.sp sleepingRegs) Abi.aarch64.redZone tr := by
  have hlow : (stringBytes "/debug_ramdisk/lib64/libzygisk.so").length + 128 ≤ 4096 := by decide +kernel
  have hregs : 4096 ≤ (Abi.aarch64.sp sleepingRegs).toNat := by decide
  exact ⟨hlow, hregs, (frame_kept_iff .aarch64 8 _ .systemServer hlow hregs).mpr rfl⟩

/-- One on x86_64. -/
def runningRegs : Abi.X86Regs := ⟨0, 0, 0, 0, 0, 0, 0, 0, 0x7ffc00001000, 0x7f0000002000⟩

/-- The path is written into its red zone. -/
theorem red_zone_overwritten :
    ∃ tr ev, Begins (kernel 4096 (Abi.x8664.sp runningRegs))
        (injectAfterStart .x8664 8 "/debug_ramdisk/lib64/libzygisk.so" .systemServer) runningRegs tr ∧
      ev ∈ tr ∧ @Wrote .x8664 0x7ffc00000fd0 ev ∧
      ¬ FrameKept (Abi.x8664.sp runningRegs) Abi.x8664.redZone tr := by
  have hbegins := begins_pathPushed .x8664 8 "/debug_ramdisk/lib64/libzygisk.so" .systemServer 4096
    (Abi.x8664.sp runningRegs) runningRegs
  have hmem : ⟨.writeProc 0x7ffc00000fd0 (stringBytes "/debug_ramdisk/lib64/libzygisk.so"), Int.ofNat 34⟩ ∈
      @pathPushed .x8664 runningRegs "/debug_ramdisk/lib64/libzygisk.so" := by
    have hlen : (stringBytes "/debug_ramdisk/lib64/libzygisk.so").length = 34 := by decide +kernel
    unfold pathPushed
    rw [hlen]
    exact mem_of_getElem? (i := 3) rfl
  have hwrote : @Wrote .x8664 0x7ffc00000fd0
      ⟨.writeProc 0x7ffc00000fd0 (stringBytes "/debug_ramdisk/lib64/libzygisk.so"), Int.ofNat 34⟩ :=
    ⟨0, by decide, by decide⟩
  exact ⟨_, _, hbegins, hmem, hwrote, fun h => absurd (h.below _ hmem _ hwrote) (by decide)⟩

end LateInjection

end NyaZygisk
