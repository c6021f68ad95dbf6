import NyaZygisk.TracerPid
import Mathlib.Data.List.Dedup
import Mathlib.Data.List.Induction
import Mathlib.Data.Int.Order.Basic

/-!
# The pool of tracked descriptors

`track_fd`, `untrack_fd` and `is_tracked_fd` of `tracer_pid.cpp`, over the sequences of calls that
`new_open`, `new_openat` and `new_close` make in one thread. A descriptor that is closed elsewhere
is tracked again when it is reused, and then has two slots.
-/

namespace NyaZygisk.TrackedFds

open List TracerPid

/-! ## Calls -/

/-- The first slot with `expected` gets `desired`. -/
def exchangeFirst (expected desired : Int) : List Int → List Int
  | [] => []
  | slot :: slots => if slot = expected then desired :: slots else slot :: exchangeFirst expected
      desired slots

def untrackFd (fd : Int) (slots : List Int) :
    List Int := if fd < 0 then slots else exchangeFirst fd (-1) slots

inductive Call
  | track (fd : Int)
  | untrack (fd : Int)
deriving DecidableEq

def Call.apply (slots : List Int) : Call → List Int
  | .track fd => trackFd fd slots
  | .untrack fd => untrackFd fd slots

def run (calls : List Call) : List Int := calls.foldl Call.apply noFds

/-- The number of different descriptors in the slots. -/
def distinct (slots : List Int) : Nat := (slots.filter (0 ≤ ·)).dedup.length

/-- A descriptor that is untracked is not tracked until it is tracked again, and one that is tracked
is, unless the pool has as many others as it can have. -/
structure BehavesAsSet (calls : List Call) : Prop where
  untracked : ∀ before fd between rest, calls = before ++ .untrack fd :: (between ++ rest) →
    .track fd ∉ between →
    isTrackedFd (run (before ++ .untrack fd :: between)) fd = false
  tracked : ∀ before fd rest, calls = before ++ .track fd :: rest → 0 ≤ fd →
    distinct (run before) < kMaxTrackedFds → isTrackedFd (run (before ++ [.track fd])) fd = true

/-- No descriptor is untracked that has two slots, and none is tracked for which there is no slot
because another has two. -/
def Call.Safe (slots : List Int) : Call → Prop
  | .track fd => 0 ≤ fd → fd ∈ slots ∨ -1 ∈ slots ∨ slots.Nodup
  | .untrack fd => 0 ≤ fd → slots.count fd ≤ 1

namespace TrackedFdsLemmas

variable {slots : List Int} {fd : Int}

/-! ### One call -/

theorem takeSlot_eq (fd : Int) (slots : List Int) : takeSlot fd slots = exchangeFirst (-1) fd slots := by
  induction slots with
  | nil => rfl
  | cons slot slots ih => rw [takeSlot, exchangeFirst, ih]

/-- An exchange puts the one value in the place of the other, if that is there. -/
theorem exchangeFirst_cases (expected desired : Int) (slots : List Int) :
    expected ∈ slots ∧ (expected :: exchangeFirst expected desired slots).Perm (desired :: slots) ∨
      expected ∉ slots ∧ exchangeFirst expected desired slots = slots := by
  induction slots with
  | nil => exact .inr ⟨not_mem_nil, rfl⟩
  | cons slot slots ih =>
    rw [exchangeFirst]
    split
    · next heq => exact .inl ⟨heq ▸ mem_cons_self, heq ▸ .swap _ _ _⟩
    · next hne =>
      rcases ih with ⟨hmem, hperm⟩ | ⟨hmem, hsame⟩
      · refine .inl ⟨mem_cons_of_mem _ hmem, ?_⟩
        exact (List.Perm.swap _ _ _).trans ((hperm.cons slot).trans (.swap _ _ _))
      · rw [hsame]
        exact .inr ⟨fun h => hmem ((mem_cons.mp h).resolve_left (Ne.symm hne)), rfl⟩

theorem count_exchangeFirst {expected desired : Int} (hdesired : desired ≠ expected) :
    (exchangeFirst expected desired slots).count fd =
      if expected ∈ slots ∧ fd = desired then slots.count fd + 1
      else if fd = expected then slots.count fd - 1 else slots.count fd := by
  rcases exchangeFirst_cases expected desired slots with ⟨hmem, hperm⟩ | ⟨hmem, hsame⟩
  · have hcount := hperm.count_eq fd
    rw [count_cons, count_cons] at hcount
    simp only [beq_iff_eq] at hcount
    grind
  · rw [hsame]
    have hzero := count_eq_zero.mpr hmem
    grind

/-- A call by the number of slots that a descriptor has; later proofs use nothing else of it. -/
theorem count_apply (hfd : 0 ≤ fd) (call : Call) :
    (call.apply slots).count fd =
      if call = .track fd ∧ -1 ∈ slots then slots.count fd + 1
      else if call = .untrack fd then slots.count fd - 1 else slots.count fd := by
  cases call with
  | track fd' =>
    rw [Call.apply, trackFd, takeSlot_eq]
    split
    · grind
    · rw [count_exchangeFirst (by omega)]
      grind
  | untrack fd' =>
    rw [Call.apply, untrackFd]
    split
    · grind
    · rw [count_exchangeFirst (by omega)]
      grind

structure Valid (slots : List Int) : Prop where
  length : slots.length = kMaxTrackedFds
  values : ∀ slot ∈ slots, -1 ≤ slot

theorem valid_exchangeFirst {expected desired : Int} (h : Valid slots) (hdesired : -1 ≤ desired) :
    Valid (exchangeFirst expected desired slots) := by
  rcases exchangeFirst_cases expected desired slots with ⟨-, hperm⟩ | ⟨-, hsame⟩
  · refine ⟨(Nat.succ.inj hperm.length_eq).trans h.length, fun slot hslot => ?_⟩
    rcases mem_cons.mp (hperm.mem_iff.mp (mem_cons_of_mem _ hslot)) with rfl | hslot
    · exact hdesired
    · exact h.values slot hslot
  · rwa [hsame]

theorem valid_apply (h : Valid slots) (call : Call) : Valid (call.apply slots) := by
  cases call with
  | track fd =>
    rw [Call.apply, trackFd, takeSlot_eq]
    split
    · exact h
    · exact valid_exchangeFirst h (by omega)
  | untrack fd =>
    rw [Call.apply, untrackFd]
    split
    · exact h
    · exact valid_exchangeFirst h (le_refl _)

theorem run_concat (calls : List Call) (call : Call) : run (calls ++ [call]) = call.apply (run calls) :=
  foldl_concat ..

theorem valid_run (calls : List Call) : Valid (run calls) := by
  induction calls using List.reverseRecOn with
  | nil => exact ⟨by decide, by decide⟩
  | append_singleton calls call ih =>
    rw [run_concat]
    exact valid_apply ih call

/-! ### The two halves -/

theorem isTrackedFd_iff (hfd : 0 ≤ fd) : isTrackedFd slots fd = true ↔ 0 < slots.count fd := by
  rw [isTrackedFd, decide_eq_true hfd, Bool.true_and, contains_iff_mem, count_pos_iff]

theorem isTrackedFd_of_neg (hfd : fd < 0) : isTrackedFd slots fd = false := by
  rw [isTrackedFd, decide_eq_false (not_le.mpr hfd), Bool.false_and]

/-- Without a free slot there are fewer descriptors than slots exactly if one has two. -/
theorem distinct_lt_iff (h : Valid slots) (hfull : -1 ∉ slots) :
    distinct slots < kMaxTrackedFds ↔ ¬ slots.Nodup := by
  have hall : slots.filter (0 ≤ ·) = slots := by
    refine filter_eq_self.mpr fun slot hslot => decide_eq_true ?_
    have hne : slot ≠ -1 := fun heq => hfull (heq ▸ hslot)
    have hle := h.values slot hslot
    omega
  have hsub := dedup_sublist slots
  rw [distinct, hall, ← h.length, ← dedup_eq_self, Nat.lt_iff_le_and_ne, and_iff_right hsub.length_le]
  exact not_congr ⟨hsub.eq_of_length, congrArg List.length⟩

theorem tracked_iff (h : Valid slots) (hfd : 0 ≤ fd) :
    (distinct slots < kMaxTrackedFds → isTrackedFd (Call.apply slots (.track fd)) fd = true) ↔
      fd ∈ slots ∨ -1 ∈ slots ∨ slots.Nodup := by
  have hafter : isTrackedFd (Call.apply slots (.track fd)) fd = true ↔ fd ∈ slots ∨ -1 ∈ slots := by
    rw [isTrackedFd_iff hfd, count_apply hfd, ← count_pos_iff (a := fd)]
    grind
  rw [hafter, ← or_assoc]
  by_cases hfull : -1 ∈ slots
  · exact iff_of_true (fun _ => .inr hfull) (.inl (.inr hfull))
  · rw [distinct_lt_iff h hfull]
    tauto

/-- A descriptor without a slot gets none until it is tracked. -/
theorem count_foldl_apply (hfd : 0 ≤ fd) (h : slots.count fd = 0) {between : List Call}
    (hbetween : .track fd ∉ between) : (between.foldl Call.apply slots).count fd = 0 := by
  induction between generalizing slots with
  | nil => exact h
  | cons call between ih =>
    rw [mem_cons, not_or] at hbetween
    refine ih ?_ hbetween.2
    rw [count_apply hfd, if_neg fun hcall => hbetween.1 hcall.1.symm, h]
    split <;> rfl

/-- If no descriptor is tracked while it is, none has two slots. -/
theorem count_run_le_one {calls : List Call} (hfd : 0 ≤ fd)
    (h : ∀ before rest, calls = before ++ .track fd :: rest → isTrackedFd (run before) fd = false) :
    (run calls).count fd ≤ 1 := by
  induction calls using List.reverseRecOn with
  | nil =>
    have hnone : fd ∉ noFds := fun hmem => by
      have heq := eq_of_mem_replicate hmem
      omega
    rw [show run [] = noFds from rfl, count_eq_zero.mpr hnone]
    exact Nat.zero_le 1
  | append_singleton calls call ih =>
    have hcalls := ih fun before rest hsplit => h before (rest ++ [call]) (by rw [hsplit, append_assoc]; rfl)
    rw [run_concat, count_apply hfd]
    split
    · next htrack =>
      have hfree := h calls [] (by rw [htrack.1])
      have hzero : ¬ 0 < (run calls).count fd := fun hpos =>
        Bool.false_ne_true (hfree.symm.trans ((isTrackedFd_iff hfd).mpr hpos))
      omega
    · split
      · exact Nat.le_trans (Nat.sub_le _ 1) hcalls
      · exact hcalls

end TrackedFdsLemmas

open TrackedFdsLemmas

/-- For every sequence of calls: the pool behaves as a set exactly if every call is safe when it is
made; and it does if no descriptor is tracked while it is tracked already. -/
theorem behavesAsSet_iff (calls : List Call) :
    (BehavesAsSet calls ↔ ∀ before call rest, calls = before ++ call :: rest → call.Safe (run before)) ∧
      ((∀ before fd rest, calls = before ++ .track fd :: rest → isTrackedFd (run before) fd = false) →
        BehavesAsSet calls) := by
  have hiff : BehavesAsSet calls ↔ ∀ before call rest, calls = before ++ call :: rest →
    call.Safe (run before) := by
    constructor
    · intro h before call rest hsplit
      cases call with
      | track fd =>
        intro hfd
        refine (tracked_iff (valid_run before) hfd).mp fun hroom => ?_
        rw [← run_concat]
        exact h.tracked before fd rest hsplit hfd hroom
      | untrack fd =>
        intro hfd
        have hafter := h.untracked before fd [] rest hsplit not_mem_nil
        rw [run_concat, ← Bool.not_eq_true, isTrackedFd_iff hfd, count_apply hfd, if_neg nofun,
          if_pos rfl] at hafter
        omega
    · intro h
      constructor
      · intro before fd between rest hsplit hbetween
        rcases lt_or_ge fd 0 with hneg | hfd
        · exact isTrackedFd_of_neg hneg
        · have hcount := h before (.untrack fd) (between ++ rest) hsplit hfd
          have hzero : ((Call.untrack fd).apply (run before)).count fd = 0 := by
            rw [count_apply hfd, if_neg nofun, if_pos rfl]
            omega
          have hafter := count_foldl_apply hfd hzero hbetween
          rw [run, foldl_append, foldl_cons, ← Bool.not_eq_true, isTrackedFd_iff hfd]
          exact Nat.not_lt.mpr (Nat.le_of_eq hafter)
      · intro before fd rest hsplit hfd
        rw [run_concat]
        exact (tracked_iff (valid_run before) hfd).mpr (h before (.track fd) rest hsplit hfd)
  refine ⟨hiff, fun h => hiff.mpr fun before call rest hsplit => ?_⟩
  have hone : ∀ fd, 0 ≤ fd → (run before).count fd ≤ 1 := fun fd hfd =>
    count_run_le_one hfd fun before' rest' hbefore => h before' fd (rest' ++ call :: rest) (by
      rw [hsplit, hbefore, append_assoc, cons_append])
  cases call with
  | untrack fd => exact hone fd
  | track fd =>
    refine fun _ => .inr (or_iff_not_imp_left.mpr fun hfull => nodup_iff_count_le_one.mpr fun slot => ?_)
    by_cases hslot : 0 ≤ slot
    · exact hone slot hslot
    · have hnone : slot ∉ run before := fun hmem => by
        have hle := (valid_run before).values slot hmem
        exact hfull ((show slot = -1 by omega) ▸ hmem)
      exact Nat.le_trans (Nat.le_of_eq (count_eq_zero.mpr hnone)) (Nat.zero_le 1)

/-- A descriptor that was closed elsewhere and reused is still tracked after its close; and enough
of it leave no slot for another one. -/
theorem reused_stays_tracked :
    isTrackedFd (run [.track 5, .track 5, .untrack 5]) 5 = true ∧
      isTrackedFd (run (List.replicate 16 (.track 5) ++ [.track 6])) 6 = false ∧
      ¬ BehavesAsSet [.track 5, .track 5, .untrack 5] := by
  refine ⟨by decide, by decide, fun h => ?_⟩
  have hafter := h.untracked [.track 5, .track 5] 5 [] [] rfl not_mem_nil
  exact absurd hafter (by decide)

end NyaZygisk.TrackedFds
