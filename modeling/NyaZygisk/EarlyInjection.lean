import NyaZygisk.Injection

/-!
# A failed early injection

`inject_before_start` replaces the entry address in the target's auxiliary vector
by an invalid one, lets the target run into it, and injects from there. Once the
address is in place, none of the ways to fail puts it back or, after the trap, the
registers: the target is let go as it is.
-/

namespace NyaZygisk

open Effects List TraceeLemmas

/-! ## The start-up block -/

/-- `EnvpEnd mem p q`: the environment from `p` on ends with the null pointer at
`q`. -/
inductive EnvpEnd (mem : Memory) : BitVec 64 → BitVec 64 → Prop
  | here {p : BitVec 64} : mem.word p = 0 → EnvpEnd mem p p
  | next {p q : BitVec 64} : mem.word p ≠ 0 → EnvpEnd mem (p + 8) q → EnvpEnd mem p q

/-- `AuxvEntry mem v addr entry`: the auxiliary vector from `v` on has the word of
`AT_ENTRY` at `addr`, and it is `entry`. -/
inductive AuxvEntry (mem : Memory) : BitVec 64 → BitVec 64 → BitVec 64 → Prop
  | here {v : BitVec 64} : mem.word v = atEntry → AuxvEntry mem v (v + 8) (mem.word (v + 8))
  | next {v addr entry : BitVec 64} : mem.word v ≠ atNull → mem.word v ≠ atEntry →
      AuxvEntry mem (v + 16) addr entry → AuxvEntry mem v addr entry

/-- The kernel argument block at the stack pointer has the entry address `entry`
at `addr`. -/
structure StartBlock (image : Image) (addr entry : BitVec 64) : Prop where
  found : ∃ q, EnvpEnd image.mem (envpOf image.regs.sp (image.mem.read image.regs.sp 4)) q ∧
    AuxvEntry image.mem (q + 8) addr entry
  nonzero : entry ≠ 0

/-! ## Assumptions on the target -/

/-- What is assumed of the program in the target, whose entry address `entry` is at
`addr`. -/
structure TargetProgram.StartsUp (P : TargetProgram) (addr entry : BitVec 64) : Prop where
  /-- It does not write to the word. -/
  keepsWord : ∀ a b, P.runs a b → b.mem.read addr 8 = a.mem.read addr 8
  /-- With the word in place, its start-up goes on. -/
  stays : ∀ a b, P.runs a b → a.mem.word addr = entry → P.own a.regs → P.own b.regs
  /-- It does not get back to its start-up by itself. -/
  strays : ∀ a b, P.runs a b → ¬ P.own a.regs → ¬ P.own b.regs
  /-- The invalid address is not one of its start-up. -/
  breakNotOwn : ∀ regs, P.own regs → regs.pc &&& ~~~ 1 ≠ breakAddr entry &&& ~~~ 1
  /-- A system call that is skipped takes it neither off its start-up nor back. -/
  skip : ∀ regs, P.own regs.skipSyscall ↔ P.own regs
  /-- Once it has left its start-up, libc is mapped, with a return address that is
  no code and that its start-up has not in the link register. -/
  libcMapped : ∀ a maps, P.maps a maps → ¬ P.own a.regs →
    ∀ regs, P.own regs → regs.lr ≠ Abi.aarch64.word (findModuleReturnAddr maps "libc.so")

/-- The target continues its own start-up: the word has the entry address, and the
registers are of its start-up. -/
def ContinuesStart (P : TargetProgram) (addr entry : BitVec 64) (image : Image) : Prop :=
  image.mem.word addr = entry ∧ P.own image.regs

/-- Where the invalid address was written over the word, the bytes written were
those that were there. -/
def Undisturbed (addr entry : BitVec 64) (bytes : List UInt8) (tr : List TraceEvent) : Prop :=
  ∀ n : Int, ⟨.writeProc addr (wordBytes (breakAddr entry)), n⟩ ∈ tr →
    (wordBytes (breakAddr entry)).take n.toNat = bytes.take n.toNat

namespace EarlyInjectionLemmas

variable {P : TargetProgram} {tr : List TraceEvent} {t : Target} {addr entry : BitVec 64}
  {bytes : List UInt8} {α : Type} {post : α → List TraceEvent → Target → Prop} {c : TraceCall}

theorem wp_call {f : c.Result → Tracer α}
    (h : ∀ r t', P.answers c t r t' → wp P.answers post (f r) (tr ++ [⟨c, r⟩]) t') :
    wp P.answers post (call c >>= f) tr t := h

theorem wp_exitTracer : wp P.answers post exitTracer tr t := nofun

theorem wp_spin : wp P.answers post spin tr t := nofun

/-! ## Waiting -/

/-- The call changes neither memory nor registers of a target that is stopped. -/
def isQuiet : TraceCall → Bool
  | .getRegs | .setSyscall | .cont | .waitpid => true
  | _ => false

/-- What is kept while the target is waited for. -/
structure Kept (P : TargetProgram) (I : List TraceEvent → Target → Prop) : Prop where
  quiet : ∀ {c : TraceCall} {r : c.Result} {tr : List TraceEvent} {t t' : Target},
    isQuiet c = true → P.answers c t r t' → I tr t → I (tr ++ [⟨c, r⟩]) t'
  skip : ∀ {tr : List TraceEvent} {t : Target} (ok : Bool), I tr t →
    I (tr ++ [⟨.setRegs t.image.regs.skipSyscall, ok⟩])
      (if ok then t.setRegs t.image.regs.skipSyscall else t)

variable {I : List TraceEvent → Target → Prop}

theorem kept_skip (hI : Kept P I) (h : I tr t) :
    wp P.answers (fun _ => I) traceeSkipSyscall tr t := by
  refine wp_call fun regs t₁ hget => ?_
  have h₁ := hI.quiet rfl hget h
  obtain ⟨rfl, rfl | rfl⟩ := hget
  · exact wp_exitTracer
  · refine wp_call fun (ok : Bool) t₂ hset => ?_
    have h₂ := hI.skip ok h₁
    obtain rfl : t₂ = _ := hset
    cases ok with
    | false => exact wp_exitTracer
    | true => exact wp_call fun r t₃ hcall => hI.quiet rfl hcall h₂

theorem kept_wait (hI : Kept P I) (n : Nat) (h : I tr t) :
    wp P.answers (fun _ => I) (waitForTrace n) tr t := by
  induction n generalizing tr t with
  | zero => exact wp_spin
  | succ n ih =>
    refine wp_call fun (waited : Waited) t₁ hwait => ?_
    have h₁ := hI.quiet rfl hwait h
    cases waited with
    | interrupted => exact ih h₁
    | failed => exact wp_exitTracer
    | status status =>
      simp only
      split
      · refine wp_seq (kept_skip hI h₁) fun _ tr₂ t₂ h₂ => ?_
        exact wp_call fun r t₃ hcont => ih (hI.quiet rfl hcont h₂)
      · split
        · exact h₁
        · exact wp_exitTracer

/-! ## A target off its start-up -/

/-- Registers are changed by a call to set them, or by the target as it runs. -/
theorem answers_regs {r : c.Result} {t' : Target} (hc : ∀ regs, c ≠ .setRegs regs)
    (h : P.answers c t r t') : t'.image.regs = t.image.regs ∨ P.runs t.image t'.image := by
  cases c with
  | setRegs regs => exact absurd rfl (hc regs)
  | getRegs | readProc _ _ | scanMaps => obtain ⟨rfl, _⟩ := h; exact .inl rfl
  | writeProc addr bytes =>
    obtain ⟨_, rfl⟩ | ⟨k, _, _, rfl⟩ := h
    · exact .inl rfl
    · exact .inl rfl
  | waitpid =>
    obtain rfl | ⟨image, hruns, rfl⟩ := h
    · exact .inl rfl
    · exact .inr hruns
  | detach signal =>
    obtain ⟨_, rfl⟩ | ⟨_, _, rfl⟩ := h
    · exact .inl rfl
    · exact .inl rfl
  | setSyscall | cont | kill _ | findFuncAddr _ _ | getTmpPath =>
    obtain rfl : t' = t := h
    exact .inl rfl
  | exit | spin => exact h.elim

theorem undisturbed_of_append {tr' : List TraceEvent}
    (h : Undisturbed addr entry bytes (tr ++ tr')) : Undisturbed addr entry bytes tr :=
  fun n hn => h n (mem_append_left _ hn)

/-- The target has left its start-up, for a word that was changed. -/
def Strayed (P : TargetProgram) (addr entry : BitVec 64) (bytes : List UInt8) (tr : List TraceEvent)
    (t : Target) : Prop :=
  ¬ P.own t.image.regs ∧ ¬ Undisturbed addr entry bytes tr

theorem strayed_setRegs {regs : Regs} (ok : Bool) (hregs : ¬ P.own regs)
    (h : Strayed P addr entry bytes tr t) :
    Strayed P addr entry bytes (tr ++ [⟨.setRegs regs, ok⟩]) (if ok then t.setRegs regs else t) := by
  refine ⟨?_, fun hund => h.2 (undisturbed_of_append hund)⟩
  cases ok with
  | false => exact h.1
  | true => exact hregs

section StartsUp

variable (hP : P.StartsUp addr entry)

include hP

theorem strayed_call {r : c.Result} {t' : Target} (hc : ∀ regs, c ≠ .setRegs regs)
    (hcall : P.answers c t r t') (h : Strayed P addr entry bytes tr t) :
    Strayed P addr entry bytes (tr ++ [⟨c, r⟩]) t' := by
  refine ⟨?_, fun hund => h.2 (undisturbed_of_append hund)⟩
  rcases answers_regs hc hcall with hsame | hruns
  · rw [hsame]
    exact h.1
  · exact hP.strays _ _ hruns h.1

theorem kept_strayed : Kept P (Strayed P addr entry bytes) where
  quiet := by
    intro c r tr t t' hq hcall h
    refine strayed_call hP ?_ hcall h
    rintro regs rfl
    cases hq
  skip := by
    intro tr t ok h
    exact strayed_setRegs ok (fun hown => h.1 ((hP.skip _).mp hown)) h

/-- Calls on a target that has left its start-up, other than those that set its
registers. -/
theorem wp_strayed_call {f : c.Result → Tracer α} (hc : ∀ regs, c ≠ .setRegs regs)
    (h : Strayed P addr entry bytes tr t)
    (hnext : ∀ r tr' t', P.answers c t r t' → Strayed P addr entry bytes tr' t' →
      wp P.answers post (f r) tr' t') : wp P.answers post (call c >>= f) tr t :=
  wp_call fun r t' hcall => hnext r _ t' hcall (strayed_call hP hc hcall h)

theorem pushString_strayed (regs : Regs) (str : String) (h : Strayed P addr entry bytes tr t) :
    wp P.answers (fun _ => Strayed P addr entry bytes) (pushString regs str) tr t := by
  refine wp_strayed_call hP nofun h fun written tr₁ t₁ _ h₁ => ?_
  split <;> exact h₁

variable {returnAddr : BitVec 64} (hreturn : ∀ regs, P.own regs → regs.lr ≠ returnAddr) (n : Nat)
  (regs : Regs)

include hreturn

omit hP in
/-- The registers for a remote call are not of the start-up: they have the fake
return address in the link register. -/
theorem callRegs_not_own (funcAddr : BitVec 64) :
    ¬ P.own { regs.setX 30 returnAddr with pc := funcAddr } := by
  intro hown
  refine hreturn _ hown ?_
  simp [Regs.lr, Regs.setX]

theorem enterCall_strayed (funcAddr : BitVec 64) (h : Strayed P addr entry bytes tr t) :
    wp P.answers (fun _ => Strayed P addr entry bytes) (enterCall n regs funcAddr returnAddr) tr t := by
  refine wp_call fun (ok : Bool) t₁ hset => ?_
  have h₁ := strayed_setRegs ok (callRegs_not_own hreturn regs funcAddr) h
  obtain rfl : t₁ = _ := hset
  cases ok with
  | false => exact h₁
  | true =>
    refine wp_strayed_call hP nofun h₁ fun _ tr₂ t₂ _ h₂ => ?_
    refine wp_seq (kept_wait (kept_strayed hP) n h₂) fun status tr₃ t₃ h₃ => ?_
    refine wp_strayed_call hP nofun h₃ fun (regs : Option Regs) tr₄ t₄ _ h₄ => ?_
    cases regs with
    | none => exact h₄
    | some regs =>
      simp only
      split <;> exact h₄

theorem remoteCall_strayed (funcAddr : BitVec 64) (args : List (BitVec 64))
    (h : Strayed P addr entry bytes tr t) :
    wp P.answers (fun _ => Strayed P addr entry bytes) (remoteCall n regs funcAddr returnAddr args)
      tr t := by
  refine wp_seq (q := fun _ => Strayed P addr entry bytes) ?_ ?_
  · unfold pushArgs
    split
    · exact wp_strayed_call hP nofun h fun _ _ _ _ h₁ => h₁
    · exact h
  rintro ⟨ok, regs⟩ tr₁ t₁ h₁
  cases ok with
  | false => exact h₁
  | true => exact enterCall_strayed hP hreturn n regs funcAddr h₁

theorem reportDlerror_strayed (h : Strayed P addr entry bytes tr t) :
    wp P.answers (fun _ => Strayed P addr entry bytes) (reportDlerror n regs returnAddr) tr t := by
  refine wp_strayed_call hP nofun h fun dlerrorAddr tr₁ t₁ _ h₁ => ?_
  split
  · exact h₁
  refine wp_seq (remoteCall_strayed hP hreturn n regs dlerrorAddr [] h₁) fun dlerror tr₂ t₂ h₂ => ?_
  split
  · exact h₂
  refine wp_strayed_call hP nofun h₂ fun strlenAddr tr₃ t₃ _ h₃ => ?_
  split
  · exact h₃
  refine wp_seq (remoteCall_strayed hP hreturn n dlerror.regs strlenAddr [dlerror.value] h₃)
    fun strlen tr₄ t₄ h₄ => ?_
  split
  · exact h₄
  · exact wp_strayed_call hP nofun h₄ fun _ _ _ _ h₅ => h₅

theorem callEntry_strayed (injectorEntry : BitVec 64) (mode : TraceMode)
    (h : Strayed P addr entry bytes tr t) :
    wp P.answers (fun _ => Strayed P addr entry bytes)
      (callEntry n regs returnAddr injectorEntry mode) tr t := by
  refine wp_strayed_call hP nofun h fun maps tr₁ t₁ _ h₁ => ?_
  refine wp_strayed_call hP nofun h₁ fun tmpPath tr₂ t₂ _ h₂ => ?_
  refine wp_seq (pushString_strayed hP regs tmpPath h₂) fun pushed tr₃ t₃ h₃ => ?_
  exact wp_seq (remoteCall_strayed hP hreturn n _ injectorEntry _ h₃) fun _ _ _ h₄ => h₄

theorem findEntry_strayed (handle : BitVec 64) (mode : TraceMode)
    (h : Strayed P addr entry bytes tr t) :
    wp P.answers (fun _ => Strayed P addr entry bytes) (findEntry n regs returnAddr handle mode)
      tr t := by
  refine wp_strayed_call hP nofun h fun dlsymAddr tr₁ t₁ _ h₁ => ?_
  split
  · exact h₁
  refine wp_seq (pushString_strayed hP regs "entry" h₁) fun pushed tr₂ t₂ h₂ => ?_
  refine wp_seq (remoteCall_strayed hP hreturn n _ dlsymAddr _ h₂) fun dlsym tr₃ t₃ h₃ => ?_
  split
  · exact h₃
  · exact callEntry_strayed hP hreturn n dlsym.regs dlsym.value mode h₃

omit hreturn in
/-- The injection leaves a target that has left its start-up off it, however it
ends. -/
theorem executeRemoteInjection_strayed (libPath : String) (mode : TraceMode)
    (h : Strayed P addr entry bytes tr t) :
    wp P.answers (fun _ => Strayed P addr entry bytes) (executeRemoteInjection n regs libPath mode)
      tr t := by
  refine wp_strayed_call hP nofun h fun maps tr₁ t₁ hmaps h₁ => ?_
  have hreturn := hP.libcMapped _ _ hmaps.2 h.1
  refine wp_strayed_call hP nofun h₁ fun dlopenAddr tr₂ t₂ _ h₂ => ?_
  split
  · exact h₂
  refine wp_seq (pushString_strayed hP _ libPath h₂) fun pushed tr₃ t₃ h₃ => ?_
  refine wp_seq (remoteCall_strayed hP hreturn n _ dlopenAddr _ h₃) fun dlopen tr₄ t₄ h₄ => ?_
  split
  · exact reportDlerror_strayed hP hreturn n dlopen.regs h₄
  · exact findEntry_strayed hP hreturn n dlopen.regs dlopen.value mode h₄

end StartsUp

/-! ## The two courses of a hijack -/

theorem undisturbed_snoc {ev : TraceEvent} (h : Undisturbed addr entry bytes tr)
    (hev : ∀ n : Int, ⟨.writeProc addr (wordBytes (breakAddr entry)), n⟩ = ev →
      (wordBytes (breakAddr entry)).take n.toNat = bytes.take n.toNat) :
    Undisturbed addr entry bytes (tr ++ [ev]) :=
  fun n hn => (mem_append.mp hn).elim (h n) fun hnew => hev n (mem_singleton.mp hnew)

theorem undisturbed_append {r : c.Result} (hc : c ≠ .writeProc addr (wordBytes (breakAddr entry)))
    (h : Undisturbed addr entry bytes tr) : Undisturbed addr entry bytes (tr ++ [⟨c, r⟩]) :=
  undisturbed_snoc h fun _ heq => absurd (congrArg Sigma.fst heq).symm hc

/-- The word has kept the entry address, and the target is on its start-up. -/
def Calm (P : TargetProgram) (addr entry : BitVec 64) (bytes : List UInt8) (tr : List TraceEvent)
    (t : Target) : Prop :=
  ContinuesStart P addr entry t.image ∧ Undisturbed addr entry bytes tr

/-- The word has lost the entry address. -/
def Hijacked (addr entry : BitVec 64) (bytes : List UInt8) (tr : List TraceEvent) (t : Target) : Prop :=
  t.image.mem.word addr ≠ entry ∧ ¬ Undisturbed addr entry bytes tr

/-- Memory is left alone by the quiet calls, and the target does not write to the
word. -/
theorem quiet_image {r : c.Result} {t' : Target} (hq : isQuiet c = true)
    (h : P.answers c t r t') : t'.image = t.image ∨ P.runs t.image t'.image := by
  cases c with
  | getRegs => obtain ⟨rfl, _⟩ := h; exact .inl rfl
  | waitpid =>
    obtain rfl | ⟨image, hruns, rfl⟩ := h
    · exact .inl rfl
    · exact .inr hruns
  | setSyscall | cont => obtain rfl : t' = t := h; exact .inl rfl
  | _ => cases hq

section StartsUp

variable (hP : P.StartsUp addr entry)

include hP

theorem runs_word {a b : Image} (h : P.runs a b) :
    b.mem.word addr = a.mem.word addr :=
  (word_eq_iff a.mem b.mem addr).mpr (hP.keepsWord a b h)

theorem kept_calm : Kept P (Calm P addr entry bytes) where
  quiet := by
    intro c r tr t t' hq hcall h
    obtain ⟨⟨hword, hown⟩, hund⟩ := h
    refine ⟨?_, undisturbed_append (by rintro rfl; cases hq) hund⟩
    rcases quiet_image hq hcall with hsame | hruns
    · rw [hsame]
      exact ⟨hword, hown⟩
    · exact ⟨(runs_word hP hruns).trans hword, hP.stays _ _ hruns hword hown⟩
  skip := by
    intro tr t ok h
    obtain ⟨⟨hword, hown⟩, hund⟩ := h
    refine ⟨?_, undisturbed_append nofun hund⟩
    cases ok with
    | false => exact ⟨hword, hown⟩
    | true => exact ⟨hword, (hP.skip _).mpr hown⟩

theorem kept_hijacked : Kept P (Hijacked addr entry bytes) where
  quiet := by
    intro c r tr t t' hq hcall h
    refine ⟨?_, fun hund => h.2 (undisturbed_of_append hund)⟩
    rcases quiet_image hq hcall with hsame | hruns
    · rw [hsame]
      exact h.1
    · rw [runs_word hP hruns]
      exact h.1
  skip := by
    intro tr t ok h
    refine ⟨?_, fun hund => h.2 (undisturbed_of_append hund)⟩
    cases ok <;> exact h.1

end StartsUp

theorem kept_runToTrap (hI : Kept P I) (n k : Nat) (h : I tr t) :
    wp P.answers (fun _ => I) (runToTrap n k) tr t := by
  induction k generalizing tr t with
  | zero => exact wp_spin
  | succ k ih =>
    refine wp_call fun (ok : Bool) t₁ hcont => ?_
    have h₁ := hI.quiet rfl hcont h
    cases ok with
    | false => exact h₁
    | true =>
      refine wp_seq (kept_wait hI n h₁) fun status tr₂ t₂ h₂ => ?_
      cases status with
      | exited _ | signaled _ => exact h₂
      | stopped signal event =>
        simp only
        split
        · exact h₂
        · split
          · exact ih h₂
          · exact h₂

/-- What is shown of every way to return: a failure leaves the target on its
start-up exactly when the word was not changed. -/
def Verdict (P : TargetProgram) (addr entry : BitVec 64) (bytes : List UInt8) (ok : Bool)
    (tr : List TraceEvent) (t : Target) : Prop :=
  ok = false → (ContinuesStart P addr entry t.image ↔ Undisturbed addr entry bytes tr)

theorem Calm.verdict {ok : Bool} (h : Calm P addr entry bytes tr t) : Verdict P addr entry bytes ok tr t :=
  fun _ => iff_of_true h.1 h.2

theorem Hijacked.verdict {ok : Bool} (h : Hijacked addr entry bytes tr t) :
    Verdict P addr entry bytes ok tr t :=
  fun _ => iff_of_false (fun hstart => h.1 hstart.1) h.2

theorem Strayed.verdict {ok : Bool} (h : Strayed P addr entry bytes tr t) :
    Verdict P addr entry bytes ok tr t :=
  fun _ => iff_of_false (fun hstart => h.1 hstart.2) h.2

section Trapped

variable (hP : P.StartsUp addr entry) (n : Nat) (libPath : String) (mode : TraceMode)

include hP

theorem injectAtTrap_calm (h : Calm P addr entry bytes tr t) :
    wp P.answers (Verdict P addr entry bytes) (injectAtTrap n libPath mode addr entry) tr t := by
  refine wp_call fun regs t₁ hget => ?_
  have h₁ := (kept_calm hP).quiet rfl hget h
  obtain ⟨rfl, rfl | rfl⟩ := hget
  · exact h₁.verdict
  · -- the target is on its start-up, so this is not the trap
    have hpc := hP.breakNotOwn _ h.1.2
    simp only [if_pos hpc]
    exact h₁.verdict

theorem injectAtTrap_hijacked (h : Hijacked addr entry bytes tr t) :
    wp P.answers (Verdict P addr entry bytes) (injectAtTrap n libPath mode addr entry) tr t := by
  refine wp_call fun regs t₁ hget => ?_
  have h₁ := (kept_hijacked hP).quiet rfl hget h
  obtain ⟨rfl, rfl | rfl⟩ := hget
  · exact h₁.verdict
  simp only
  split
  · exact h₁.verdict
  next hpc =>
  have hstrayed : Strayed P addr entry bytes _ t₁ :=
    ⟨fun hown => hpc (hP.breakNotOwn _ hown), h₁.2⟩
  refine wp_strayed_call hP nofun hstrayed fun written tr₂ t₂ _ h₂ => ?_
  split
  · exact h₂.verdict
  refine wp_seq (executeRemoteInjection_strayed hP n _ libPath mode h₂) fun injected tr₃ t₃ h₃ => ?_
  cases injected with
  | false => exact h₃.verdict
  | true =>
    intro (restored : Bool) t₄ hset hfailed
    subst hfailed
    obtain rfl : t₄ = t₃ := hset
    refine iff_of_false (fun hstart => h₃.1 hstart.2) fun hund => h₃.2 (undisturbed_of_append hund)

omit hP in
/-- The write of the invalid address leaves the word as it is, or takes the entry
address away. -/
theorem hijack_cases {n : Int} {t' : Target} (hword : t.image.mem.word addr = entry)
    (hbytes : t.image.mem.read addr 8 = bytes) (hown : P.own t.image.regs)
    (hund : Undisturbed addr entry bytes tr)
    (h : P.answers (.writeProc addr (wordBytes (breakAddr entry))) t n t') :
    let tr' := tr ++ [⟨.writeProc addr (wordBytes (breakAddr entry)), n⟩]
    Calm P addr entry bytes tr' t' ∨ Hijacked addr entry bytes tr' t' := by
  obtain ⟨rfl, rfl⟩ | ⟨k, hk, rfl, rfl⟩ := h
  · exact .inl ⟨⟨hword, hown⟩, undisturbed_snoc hund fun _ hm => by cases hm; rfl⟩
  rw [length_wordBytes] at hk
  have hlen : ((wordBytes (breakAddr entry)).take k).length = k := by
    rw [length_take, length_wordBytes, Nat.min_eq_left hk]
  have hiff := word_write_iff t.image.mem addr (hlen.trans_le hk)
  rw [hlen, hbytes, hword] at hiff
  by_cases hsame : (wordBytes (breakAddr entry)).take k = bytes.take k
  · exact .inl ⟨⟨hiff.mpr hsame, hown⟩, undisturbed_snoc hund fun _ hm => by cases hm; exact hsame⟩
  · refine .inr ⟨fun heq => hsame (hiff.mp heq), fun hund' => hsame ?_⟩
    exact hund' _ (mem_append_right _ mem_cons_self)

theorem hijackEntry_spec (hword : t.image.mem.word addr = entry) (hbytes : t.image.mem.read addr 8 =
    bytes) (hown : P.own t.image.regs)
    (hund : Undisturbed addr entry bytes tr) :
    wp P.answers (Verdict P addr entry bytes) (hijackEntry n libPath mode addr entry) tr t := by
  refine wp_call fun (written : Int) t₁ hwrite => ?_
  rcases hijack_cases hword hbytes hown hund hwrite with h₁ | h₁
  · split
    · exact h₁.verdict
    refine wp_seq (kept_runToTrap (kept_calm hP) n n h₁) fun trapped tr₂ t₂ h₂ => ?_
    cases trapped with
    | false => exact h₂.verdict
    | true => exact injectAtTrap_calm hP n libPath mode h₂
  · split
    · exact h₁.verdict
    refine wp_seq (kept_runToTrap (kept_hijacked hP) n n h₁) fun trapped tr₂ t₂ h₂ => ?_
    cases trapped with
    | false => exact h₂.verdict
    | true => exact injectAtTrap_hijacked hP n libPath mode h₂

end Trapped

/-! ## The entry address is found -/

theorem wp_read {a : BitVec 64} {len : Nat}
    {f : List UInt8 → Tracer α} (hund : Undisturbed addr entry bytes tr)
    (hnext : ∀ tr', Undisturbed addr entry bytes tr' →
      wp P.answers post (f (t.image.mem.read a len)) tr' t) :
    wp P.answers post (call (.readProc a len) >>= f) tr t := by
  refine wp_call fun buf t₁ hread => ?_
  obtain ⟨rfl, rfl⟩ := hread
  exact hnext _ (undisturbed_append nofun hund)

theorem wp_readWord {a : BitVec 64} {f : BitVec 64 → Tracer α} (hund : Undisturbed addr entry bytes tr)
    (hnext : ∀ tr', Undisturbed addr entry bytes tr' →
      wp P.answers post (f (t.image.mem.word a)) tr' t) :
    wp P.answers post (readWord a >>= f) tr t :=
  (wp_bind ..).mpr (wp_read hund hnext)

theorem scanEnvp_spec {p q : BitVec 64} (h : EnvpEnd t.image.mem p q)
    (hund : Undisturbed addr entry bytes tr) (n : Nat) :
    wp P.answers (fun p' tr' t' => p' = q ∧ t' = t ∧ Undisturbed addr entry bytes tr')
      (scanEnvp n p) tr t := by
  induction n generalizing p tr with
  | zero => exact wp_spin
  | succ n ih =>
    unfold scanEnvp
    refine wp_readWord hund fun tr₁ hund₁ => ?_
    cases h with
    | here hzero =>
      rw [if_neg (not_not.mpr hzero)]
      exact ⟨rfl, rfl, hund₁⟩
    | next hne hrest =>
      rw [if_pos hne]
      exact ih hrest hund₁

theorem scanAuxv_spec {v a e : BitVec 64} (h : AuxvEntry t.image.mem v a e)
    (hund : Undisturbed addr entry bytes tr) (n : Nat) :
    wp P.answers (fun found tr' t' => found = some (a, e) ∧ t' = t ∧
      Undisturbed addr entry bytes tr') (scanAuxv n v) tr t := by
  have htype : ∀ v, BitVec.ofNat 64 (ofBytes ((t.image.mem.read v 16).take 8)) = t.image.mem.word v := by
    intro v
    rw [show 16 = 8 + 8 from rfl, read_add, take_left' (length_read _ _ _)]
    rfl
  have hvalue : ∀ v, BitVec.ofNat 64 (ofBytes ((t.image.mem.read v 16).drop 8)) =
      t.image.mem.word (v + 8) := by
    intro v
    rw [show 16 = 8 + 8 from rfl, read_add, drop_left' (length_read _ _ _)]
    rfl
  induction n generalizing v tr with
  | zero => exact wp_spin
  | succ n ih =>
    unfold scanAuxv
    refine wp_read hund fun tr₁ hund₁ => ?_
    cases h with
    | here hentry =>
      simp only [htype, hvalue, hentry, show atEntry ≠ atNull by decide, if_false, if_true]
      exact ⟨rfl, rfl, hund₁⟩
    | next hnull hother hrest =>
      simp only [htype, if_neg hnull, if_neg hother]
      exact ih hrest hund₁

theorem auxvEntry_word {mem : Memory} {v a e : BitVec 64} (h : AuxvEntry mem v a e) : mem.word a = e := by
  induction h with
  | here _ => rfl
  | next _ _ _ ih => exact ih

theorem injectBeforeStart_spec (hP : P.StartsUp addr entry) (hblock : StartBlock t.image addr entry)
    (hown : P.own t.image.regs) (hund : Undisturbed addr entry (t.image.mem.read addr 8) tr)
    (n : Nat) (libPath : String) (mode : TraceMode) :
    wp P.answers (Verdict P addr entry (t.image.mem.read addr 8)) (injectBeforeStart n libPath mode)
      tr t := by
  obtain ⟨⟨q, henvp, hauxv⟩, hentry⟩ := hblock
  have hword := auxvEntry_word hauxv
  refine wp_call fun maps t₁ hmaps => ?_
  obtain ⟨rfl, _⟩ := hmaps
  have hund₁ := undisturbed_append (r := maps) nofun hund
  refine wp_call fun regs t₂ hget => ?_
  have hund₂ := undisturbed_append (r := regs) nofun hund₁
  obtain ⟨rfl, rfl | rfl⟩ := hget
  · exact Calm.verdict ⟨⟨hword, hown⟩, hund₂⟩
  refine wp_read hund₂ fun tr₃ hund₃ => ?_
  refine wp_seq (scanEnvp_spec henvp hund₃ n) ?_
  rintro _ tr₄ _ ⟨rfl, rfl, hund₄⟩
  refine wp_seq (scanAuxv_spec hauxv hund₄ n) ?_
  rintro _ tr₅ _ ⟨rfl, rfl, hund₅⟩
  simp only [if_neg hentry]
  exact hijackEntry_spec hP n libPath mode hword rfl hown hund₅

/-! ## Runs -/

/-- A run that leaves the target alive is one of calls on a target that stays
alive. -/
theorem runs_answers {p : Tracer α} {s : Target} {a : α} (h : Runs P.kernel p s tr a t)
    (halive : t.alive = true) : Runs P.answers p s tr a t := by
  refine (h.restrict (P := fun t => t.alive = true) ?_ halive).2
  rintro c s r t (hdead | ⟨hs, _, hanswers⟩) ht
  · cases hdead.symm.trans ht
  · exact ⟨hs, hanswers⟩

/-- The target is let go with the image it has. -/
theorem resumeUninjected_spec :
    wp P.answers (fun _ tr' t' => (∃ signal, ⟨.detach signal, true⟩ ∈ tr') →
      t'.released = some t.image) resumeUninjected [] t := by
  refine wp_call fun (ok : Bool) t₁ hfirst => wp_call fun (ok' : Bool) t₂ hsecond =>
    wp_call fun (_ : Bool) t₃ hkill => ?_
  obtain rfl : t₃ = t₂ := hkill
  rintro ⟨signal, hmem⟩
  obtain ⟨rfl, rfl⟩ | ⟨rfl, hnone, rfl⟩ := hfirst
  · obtain ⟨rfl, rfl⟩ | ⟨rfl, _, rfl⟩ := hsecond
    · simp only [nil_append, cons_append, mem_cons, not_mem_nil, or_false] at hmem
      rcases hmem with hmem | hmem | hmem <;> cases hmem
    · rfl
  · obtain ⟨rfl, rfl⟩ | ⟨_, hnone', _⟩ := hsecond
    · rfl
    · cases hnone'

end EarlyInjectionLemmas

open EarlyInjectionLemmas

/-- For every run in which the early injection fails and the target is alive: the
target continues its own start-up exactly when the invalid address was not
written over the entry address (nothing was written, or only bytes that were
there). And it is this target that is let go. -/
theorem failed_injection_harmless_iff {P : TargetProgram} {addr entry : BitVec 64}
    (hP : P.StartsUp addr entry) {n : Nat} {libPath : String} {mode : TraceMode} {s t : Target}
    {tr : List TraceEvent} (hblock : StartBlock s.image addr entry) (hown : P.own s.image.regs)
    (h : Runs P.kernel (injectBeforeStart n libPath mode) s tr false t) (halive : t.alive = true) :
    (ContinuesStart P addr entry t.image ↔
        Undisturbed addr entry (s.image.mem.read addr 8) tr) ∧
      ∀ tr' u, Runs P.kernel resumeUninjected t tr' () u → u.alive = true →
        (∃ signal, ⟨.detach signal, true⟩ ∈ tr') → u.released = some t.image := by
  constructor
  · have hspec := injectBeforeStart_spec hP hblock hown (fun _ hn => absurd hn not_mem_nil)
      n libPath mode
    exact wp_sound hspec (runs_answers h halive) rfl
  · intro tr' u hresume hu
    exact wp_sound resumeUninjected_spec (runs_answers hresume hu)

/-! ## A linker that jumps to the entry address -/

/-- The dynamic linker, at address 0x2000, jumps to the entry address, which is the
word at 0x1020. -/
def linkerProgram : TargetProgram where
  own regs := regs.lr = 0 ∧ (regs.pc = 0x2000 ∨ regs.pc = 0x4000)
  runs a b := b.mem = a.mem ∧
    (b.regs = a.regs ∨ (a.regs.pc = 0x2000 ∧ b.regs = { a.regs with pc := a.mem.word 0x1020 }))
  maps _ maps := maps = [⟨0x7000, 0x8000, false, 1, 1, "/system/lib64/libc.so"⟩]

theorem linkerProgram_own_jump (regs : Regs) (pc : BitVec 64) :
    linkerProgram.own { regs with pc } ↔ regs.lr = 0 ∧ (pc = 0x2000 ∨ pc = 0x4000) := Iff.rfl

theorem linkerProgram_startsUp : linkerProgram.StartsUp 0x1020 0x4000 where
  keepsWord := by
    rintro a b ⟨hmem, _⟩
    rw [hmem]
  stays := by
    rintro a b ⟨_, hsame | ⟨_, hjump⟩⟩ hword hown
    · rw [hsame]
      exact hown
    · rw [hjump, linkerProgram_own_jump]
      exact ⟨hown.1, .inr hword⟩
  strays := by
    rintro a b ⟨_, hsame | ⟨hlinker, hjump⟩⟩ hoff hown
    · rw [hsame] at hown
      exact hoff hown
    · rw [hjump, linkerProgram_own_jump] at hown
      exact hoff ⟨hown.1, .inl hlinker⟩
  breakNotOwn := by
    rintro regs ⟨_, hpc | hpc⟩
    · rw [hpc]
      decide
    · rw [hpc]
      decide
  skip := by
    intro regs
    have hlr : regs.skipSyscall.lr = regs.lr := by simp [Regs.skipSyscall, Regs.lr, Regs.setX]
    unfold linkerProgram
    simp only [hlr]
    rfl
  libcMapped := by
    rintro a _ rfl _ regs ⟨hlr, _⟩
    rw [hlr]
    decide

/-- The target with no arguments and no environment, in its linker. -/
def linkerImage : Image where
  mem := fun addr => if addr = 0x1018 then 9 else if addr = 0x1021 then 0x40 else 0
  regs := ⟨Vector.replicate 31 0, 0x1000, 0x2000, 0⟩

theorem linkerImage_startBlock : StartBlock linkerImage 0x1020 0x4000 := by
  have henvp : envpOf linkerImage.regs.sp (linkerImage.mem.read linkerImage.regs.sp 4) = 0x1010 := by
    decide
  have hentry : linkerImage.mem.word 0x1020 = 0x4000 := by decide
  have hauxv : AuxvEntry linkerImage.mem 0x1018 (0x1018 + 8) (linkerImage.mem.word (0x1018 + 8)) :=
    .here (by decide)
  rw [show (0x1018 : BitVec 64) + 8 = 0x1020 by decide, hentry] at hauxv
  refine ⟨⟨0x1010, ?_, hauxv⟩, by decide⟩
  rw [henvp]
  exact .here (by decide)

/-- Answers for the calls on a target with the linker: a write answers `written`
or, for `none`, -1, and the target stops with `signal`, at a trap where the linker
has jumped. No function of its libraries is found. -/
def linkerAnswers (written : Option Nat) (signal : Nat) :
    (c : TraceCall) → Target → Option (c.Result × Target)
  | .getRegs, t => some (some t.image.regs, t)
  | .readProc addr len, t => some (t.image.mem.read addr len, t)
  | .writeProc addr bytes, t =>
    match written with
    | none => some ((-1 : Int), t)
    | some k =>
      if k ≤ bytes.length then
        some (Int.ofNat k, t.setMem (t.image.mem.write addr (bytes.take k)))
      else none
  | .cont, t => some (true, t)
  | .waitpid, t =>
    some (.status (.stopped signal 0),
      if t.image.regs.pc = 0x2000 ∧ signal = sigsegv then
        t.setRegs { t.image.regs with pc := t.image.mem.word 0x1020 }
      else t)
  | .scanMaps, t => some ([⟨0x7000, 0x8000, false, 1, 1, "/system/lib64/libc.so"⟩], t)
  | .findFuncAddr _ _, t => some ((0 : BitVec 64), t)
  | _, _ => none

theorem linkerAnswers_kernel (written : Option Nat) (signal : Nat) (c : TraceCall) (t : Target)
    (r : c.Result) (t' : Target) (h : linkerAnswers written signal c t = some (r, t')) :
    linkerProgram.kernel c t r t' := by
  suffices t'.alive = t.alive ∧ linkerProgram.answers c t r t' by
    cases halive : t.alive with
    | false => exact .inl (this.1.trans halive)
    | true => exact .inr ⟨halive, this.1.trans halive, this.2⟩
  cases c with
  | getRegs => cases h; exact ⟨rfl, rfl, .inr rfl⟩
  | readProc addr len | scanMaps => cases h; exact ⟨rfl, rfl, rfl⟩
  | writeProc addr bytes =>
    simp only [linkerAnswers] at h
    split at h
    · cases h; exact ⟨rfl, .inl ⟨rfl, rfl⟩⟩
    · split at h
      · next hk => cases h; exact ⟨rfl, .inr ⟨_, hk, rfl, rfl⟩⟩
      · cases h
  | cont | findFuncAddr module func => cases h; exact ⟨rfl, rfl⟩
  | waitpid =>
    cases h
    split
    · next hjump =>
      generalize hregs : { t.image.regs with pc := t.image.mem.word 0x1020 } = regs
      exact ⟨rfl, .inr ⟨{ t.image with regs }, ⟨rfl, .inr ⟨hjump.1, hregs.symm⟩⟩, rfl⟩⟩
    · exact ⟨rfl, .inl rfl⟩
  | _ => cases h

def linkerTarget : Target := ⟨linkerImage, true, none⟩

/-- A write in the trace has failed. -/
def unwritten : TraceEvent → Bool
  | ⟨.writeProc _ _, (n : Int)⟩ => n = -1
  | _ => true

theorem EarlyInjectionLemmas.undisturbed_of_unwritten {addr entry : BitVec 64} {bytes : List UInt8}
    {tr : List TraceEvent} (h : tr.all unwritten = true) : Undisturbed addr entry bytes tr := by
  intro n hn
  have hfailed : n = -1 := of_decide_eq_true (all_eq_true.mp h _ hn)
  rw [hfailed]
  rfl

/-- The entry address cannot be written over (-1, which passes for a success), and
the target is stopped by a signal of its own: it continues its start-up. -/
theorem failed_injection_harmless_iff_unwritten :
    ∃ tr t, Runs linkerProgram.kernel (injectBeforeStart 2 "/libzygisk.so" .spawn) linkerTarget tr
        false t ∧ t.alive = true ∧
      ⟨.writeProc 0x1020 (wordBytes (breakAddr 0x4000)), (-1 : Int)⟩ ∈ tr ∧
      ContinuesStart linkerProgram 0x1020 0x4000 t.image := by
  have hrun := runs_drive_get (linkerAnswers_kernel none 15)
    (show (drive (linkerAnswers none 15) (injectBeforeStart 2 "/libzygisk.so" .spawn)
      linkerTarget).isSome = true from rfl)
  refine ⟨_, _, hrun, rfl, mem_of_getElem? (i := 5) rfl, ?_⟩
  exact (failed_injection_harmless_iff linkerProgram_startsUp linkerImage_startBlock
    ⟨rfl, .inl rfl⟩ hrun rfl).1.mpr (undisturbed_of_unwritten rfl)

/-- The target traps at the invalid address, and `dlopen` is not found in it: the
injection fails, and the target is left at the invalid address. -/
theorem failed_injection_leaves_target_hijacked :
    linkerProgram.StartsUp 0x1020 0x4000 ∧ StartBlock linkerTarget.image 0x1020 0x4000 ∧
      linkerProgram.own linkerTarget.image.regs ∧
      ∃ tr t, Runs linkerProgram.kernel (injectBeforeStart 2 "/libzygisk.so" .spawn) linkerTarget tr
          false t ∧ t.alive = true ∧ t.image.regs.pc = breakAddr 0x4000 ∧
        ¬ ContinuesStart linkerProgram 0x1020 0x4000 t.image := by
  have hrun := runs_drive_get (linkerAnswers_kernel (some 8) sigsegv)
    (show (drive (linkerAnswers (some 8) sigsegv) (injectBeforeStart 2 "/libzygisk.so" .spawn)
      linkerTarget).isSome = true from rfl)
  refine ⟨linkerProgram_startsUp, linkerImage_startBlock, ⟨rfl, .inl rfl⟩, _, _, hrun, rfl, by decide, ?_⟩
  rintro ⟨_, _, hpc⟩
  exact absurd hpc (by decide)

end NyaZygisk
