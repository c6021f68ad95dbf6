import Mathlib

/-!
# Circular linear probing

A table of `n` slots, each free or holding one key with its value. A key has a
home slot; a probe visits the slots from there on, wraps around once, and stops
at the first slot that is free or holds the key. Nothing is ever removed except
by clearing the whole table.
-/

namespace Probing

open List

variable {n : Nat} [NeZero n] {K V : Type}

/-- A table of `n` slots; `none` is a free slot. -/
abbrev Table (n : Nat) (K V : Type) := Fin n → Option (K × V)

/-! ## Probe order -/

/-- The slot `d` places after `home`, around the table. -/
def slotAt (home : Fin n) (d : Nat) : Fin n := home + Fin.ofNat n d

/-- How many places slot `i` lies after `home`. -/
def dist (home i : Fin n) : Nat := (i - home).val

@[simp] theorem slotAt_zero (home : Fin n) : slotAt home 0 = home := by
  simp [slotAt]

theorem slotAt_val (home : Fin n) (d : Nat) : (slotAt home d).val = (home.val + d) % n := by
  simp [slotAt, Fin.val_add, Nat.add_mod]

omit [NeZero n] in
theorem dist_lt (home i : Fin n) : dist home i < n := (i - home).isLt

theorem slotAt_dist (home i : Fin n) : slotAt home (dist home i) = i := by
  simp [slotAt, dist, add_sub_cancel]

variable {home : Fin n} {stop : Fin n → Bool}

theorem dist_slotAt {d : Nat} (hd : d < n) : dist home (slotAt home d) = d := by
  rw [slotAt, dist, add_sub_cancel_left, Fin.val_ofNat, Nat.mod_eq_of_lt hd]

theorem slotAt_inj {d e : Nat} (hd : d < n) (he : e < n)
    (h : slotAt home d = slotAt home e) : d = e := by
  have hdist := congrArg (dist home) h
  rwa [dist_slotAt hd, dist_slotAt he] at hdist

theorem slotAt_succ (home : Fin n) (d : Nat) : slotAt home d + 1 = slotAt home (d + 1) := by
  apply Fin.ext
  rw [Fin.val_add, slotAt_val, slotAt_val, Fin.val_one', ← Nat.add_mod, Nat.add_assoc]

/-- The first offset at which a probe from `home` stops. -/
def firstStop (stop : Fin n → Bool) (home : Fin n) : Option Nat :=
  (List.range n).find? fun d => stop (slotAt home d)

theorem firstStop_eq_some_iff {d : Nat} :
    firstStop stop home = some d ↔
      d < n ∧ stop (slotAt home d) = true ∧ ∀ e, e < d → stop (slotAt home e) = false := by
  unfold firstStop
  rw [find?_range_eq_some]
  simp only [mem_range, Bool.not_eq_true', and_left_comm]

theorem firstStop_eq_none_iff :
    firstStop stop home = none ↔ ∀ i, stop i = false := by
  unfold firstStop
  simp only [find?_eq_none, mem_range, Bool.not_eq_true]
  constructor
  · intro h i
    rw [← slotAt_dist home i]
    exact h _ (dist_lt home i)
  · intro h d _
    exact h _

/-- The probe loop: stop at slot `i`, or step on unless that leads back to
`start`. The outer `none` means that the fuel ran out. -/
def walk (stop : Fin n → Bool) (start : Fin n) : Nat → Fin n → Option (Option (Fin n))
  | 0, _ => none
  | fuel + 1, i =>
    if stop i then some (some i)
    else if i + 1 = start then some none
    else walk stop start fuel (i + 1)

theorem walk_from {start : Fin n} :
    ∀ (fuel d : Nat), d + fuel = n → 0 < fuel → (∀ e, e < d → stop (slotAt start e) = false) →
      walk stop start fuel (slotAt start d) = some ((firstStop stop start).map (slotAt start))
  | 0, _, _, h0, _ => absurd h0 (Nat.lt_irrefl 0)
  | fuel + 1, d, hd, _, hpre => by
    have hlt : d < n := by omega
    unfold walk
    cases hs : stop (slotAt start d) with
    | true =>
      have hfirst : firstStop stop start = some d := firstStop_eq_some_iff.mpr ⟨hlt, hs, hpre⟩
      simp [hfirst]
    | false =>
      have hpre' : ∀ e, e < d + 1 → stop (slotAt start e) = false := by
        intro e he
        rcases Nat.lt_succ_iff_lt_or_eq.mp he with h | h
        · exact hpre e h
        · subst h; exact hs
      rw [slotAt_succ]
      by_cases hback : slotAt start (d + 1) = start
      · -- the next slot is the start again, so all `n` slots have been visited
        have hn : d + 1 = n := by
          by_contra hne
          have hzero : slotAt start (d + 1) = slotAt start 0 := by rw [hback, slotAt_zero]
          have h := slotAt_inj (by omega) (by omega) hzero
          omega
        have hnone : firstStop stop start = none := by
          rw [firstStop_eq_none_iff]
          intro i
          rw [← slotAt_dist start i]
          exact hpre' _ (hn ▸ dist_lt start i)
        simp [hback, hnone]
      · have hfuel : 0 < fuel := by
          by_contra h0
          have hn : d + 1 = n := by omega
          apply hback
          apply Fin.ext
          rw [slotAt_val, hn, Nat.add_mod_right, Nat.mod_eq_of_lt start.isLt]
        simp only [Bool.false_eq_true, if_false, if_neg hback]
        exact walk_from fuel (d + 1) (by omega) hfuel hpre'

/-- The probe loop ends within `n` rounds, at the first stop in probe order or
with none when no slot stops it. -/
theorem walk_eq (stop : Fin n → Bool) (start : Fin n) :
    walk stop start n start = some ((firstStop stop start).map (slotAt start)) := by
  have hpos : 0 < n := Nat.pos_of_ne_zero (NeZero.ne n)
  have h : walk stop start n (slotAt start 0) = _ :=
    walk_from n 0 (Nat.zero_add n) hpos fun e he => absurd he (Nat.not_lt_zero e)
  rwa [slotAt_zero] at h

/-! ## Tables -/

variable [DecidableEq K]

/-- A probe for `k` stops at a free slot and at the slot that holds `k`. -/
def stopsAt (t : Table n K V) (k : K) (i : Fin n) : Bool :=
  match t i with
  | none => true
  | some (k', _) => k' == k

omit [NeZero n] in
theorem stopsAt_eq_false {t : Table n K V} {k : K} {i : Fin n} :
    stopsAt t k i = false ↔ ∃ k' v, t i = some (k', v) ∧ k' ≠ k := by
  unfold stopsAt
  cases ht : t i with
  | none => simp
  | some p => obtain ⟨k', v⟩ := p; simp

omit [NeZero n] in
theorem stopsAt_eq_true {t : Table n K V} {k : K} {i : Fin n} :
    stopsAt t k i = true ↔ t i = none ∨ ∃ v, t i = some (k, v) := by
  unfold stopsAt
  cases ht : t i with
  | none => simp
  | some p => obtain ⟨k', v⟩ := p; simp

section

variable (home : K → Fin n)

/-- Where the probe for `k` ends: an offset from `home k`, or `none` when all
slots are taken by other keys. -/
def probe (t : Table n K V) (k : K) : Option Nat := firstStop (stopsAt t k) (home k)

def lookup (t : Table n K V) (k : K) : Option V :=
  (probe home t k).bind fun d => (t (slotAt (home k) d)).map Prod.snd

/-- Stores `v` under `k` where the probe ends; a table full of other keys is
left as it is. -/
def store (t : Table n K V) (k : K) (v : V) : Table n K V :=
  match probe home t k with
  | some d => Function.update t (slotAt (home k) d) (some (k, v))
  | none => t

def Full (t : Table n K V) (k : K) : Prop := ∀ i, ∃ k' v, t i = some (k', v) ∧ k' ≠ k

/-- The no-gap invariant: between the home of a key and the slot that holds it,
every slot is taken by another key. -/
def Inv (t : Table n K V) : Prop :=
  ∀ i k v, t i = some (k, v) → ∀ d, d < dist (home k) i → stopsAt t k (slotAt (home k) d) = false

variable {home}

variable {k : K} {t : Table n K V}

theorem probe_eq_none_iff : probe home t k = none ↔ Full t k := by
  unfold probe Full
  rw [firstStop_eq_none_iff]
  simp only [stopsAt_eq_false]

theorem inv_empty : Inv home (fun _ => none : Table n K V) := by
  intro i k v h
  cases h

theorem lookup_empty (k : K) : lookup home (fun _ => none : Table n K V) k = none := by
  unfold lookup
  cases probe home (fun _ => none : Table n K V) k <;> rfl

theorem lookup_of_full (h : Full t k) : lookup home t k = none := by
  unfold lookup
  rw [probe_eq_none_iff.mpr h]
  rfl

theorem store_of_full {v : V} (h : Full t k) : store home t k v = t := by
  unfold store
  rw [probe_eq_none_iff.mpr h]

/-- Under the invariant, the probe for `k` succeeds exactly when some slot
holds `k`. -/
theorem lookup_eq_some_iff (hinv : Inv home t) {v : V} :
    lookup home t k = some v ↔ ∃ i, t i = some (k, v) := by
  constructor
  · intro h
    simp only [lookup, Option.bind_eq_some_iff, Option.map_eq_some_iff] at h
    obtain ⟨d, hd, ⟨k', v'⟩, ht, rfl⟩ := h
    obtain ⟨_, hstop, _⟩ := firstStop_eq_some_iff.mp hd
    rcases stopsAt_eq_true.mp hstop with hnone | ⟨w, hw⟩
    · rw [hnone] at ht; cases ht
    · rw [hw] at ht; cases ht
      exact ⟨_, hw⟩
  · rintro ⟨i, hi⟩
    have hstop : stopsAt t k (slotAt (home k) (dist (home k) i)) = true := by
      rw [slotAt_dist]
      exact stopsAt_eq_true.mpr (.inr ⟨v, hi⟩)
    have hfirst : probe home t k = some (dist (home k) i) :=
      firstStop_eq_some_iff.mpr ⟨dist_lt _ _, hstop, hinv i k v hi⟩
    simp [lookup, hfirst, slotAt_dist, hi]

/-- What `store` does when the table is not full of other keys: it fills one slot
that was free or held `k`, with no stop before it. -/
theorem store_cases (home : K → Fin n) (v : V) (h : ¬ Full t k) :
    ∃ d, d < n ∧ stopsAt t k (slotAt (home k) d) = true ∧
      (∀ e, e < d → stopsAt t k (slotAt (home k) e) = false) ∧
      store home t k v = Function.update t (slotAt (home k) d) (some (k, v)) := by
  cases hp : probe home t k with
  | none => exact absurd (probe_eq_none_iff.mp hp) h
  | some d =>
    obtain ⟨hlt, hstop, hpre⟩ := firstStop_eq_some_iff.mp hp
    refine ⟨d, hlt, hstop, hpre, ?_⟩
    unfold store
    rw [hp]

theorem inv_store (hinv : Inv home t) (k : K) (v : V) :
    Inv home (store home t k v) := by
  by_cases hfull : Full t k
  · rw [store_of_full hfull]; exact hinv
  obtain ⟨d₀, hlt, hstop, hpre, hstore⟩ := store_cases home v hfull
  rw [hstore]
  intro i k₁ v₁ hi d hd
  by_cases his : i = slotAt (home k) d₀
  · -- the slot just filled: nothing before it stopped the probe for `k`
    subst his
    rw [Function.update_self] at hi
    cases hi
    rw [dist_slotAt hlt] at hd
    have hne : slotAt (home k) d ≠ slotAt (home k) d₀ := fun h =>
      absurd (slotAt_inj (by omega) hlt h) (by omega)
    simp only [stopsAt, Function.update_of_ne hne]
    exact hpre d hd
  · rw [Function.update_of_ne his] at hi
    have hold := hinv i k₁ v₁ hi d hd
    by_cases hds : slotAt (home k₁) d = slotAt (home k) d₀
    · -- the filled slot lies on the way to `k₁`: it was taken, so it held `k`
      rw [hds] at hold ⊢
      obtain ⟨k', w, hk', hne⟩ := stopsAt_eq_false.mp hold
      rcases stopsAt_eq_true.mp hstop with hnone | ⟨w', hw'⟩
      · rw [hnone] at hk'; cases hk'
      · rw [hw'] at hk'; cases hk'
        exact stopsAt_eq_false.mpr ⟨k, v, Function.update_self _ _ _, hne⟩
    · simpa only [stopsAt, Function.update_of_ne hds] using hold

theorem lookup_store_self (hinv : Inv home t) {v : V} (h : ¬ Full t k) :
    lookup home (store home t k v) k = some v := by
  obtain ⟨d₀, _, _, _, hstore⟩ := store_cases home v h
  rw [lookup_eq_some_iff (inv_store hinv k v), hstore]
  exact ⟨_, Function.update_self _ _ _⟩

theorem lookup_store_other (hinv : Inv home t) {k' : K} {v : V} (hne : k' ≠ k) :
    lookup home (store home t k v) k' = lookup home t k' := by
  by_cases hfull : Full t k
  · rw [store_of_full hfull]
  obtain ⟨d₀, _, hstop, _, hstore⟩ := store_cases home v hfull
  apply Option.ext
  intro w
  rw [lookup_eq_some_iff (inv_store hinv k v), lookup_eq_some_iff hinv, hstore]
  constructor
  · rintro ⟨i, hi⟩
    by_cases his : i = slotAt (home k) d₀
    · subst his
      rw [Function.update_self] at hi
      cases hi
      exact absurd rfl hne
    · exact ⟨i, by rwa [Function.update_of_ne his] at hi⟩
  · rintro ⟨i, hi⟩
    refine ⟨i, ?_⟩
    rw [Function.update_of_ne]
    · exact hi
    · rintro rfl
      rcases stopsAt_eq_true.mp hstop with hnone | ⟨w', hw'⟩
      · rw [hnone] at hi; cases hi
      · rw [hw'] at hi; cases hi
        exact hne rfl

end

/-! ## Sequences of stores and clears -/

/-- The two ways a table changes. -/
inductive Op (K V : Type)
  | store (k : K) (v : V)
  | clear

section

variable (home : K → Fin n)

def apply (t : Table n K V) : Op K V → Table n K V
  | .store k v => Probing.store home t k v
  | .clear => fun _ => none

/-- The table after a sequence of operations on the empty one. -/
def run (ops : List (Op K V)) : Table n K V := ops.foldl (apply home) fun _ => none

/-- `v` was stored under `k`, with no clear and no further store of `k` after it. -/
def IsLastStore (ops : List (Op K V)) (k : K) (v : V) : Prop :=
  ∃ pre post, ops = pre ++ .store k v :: post ∧ .clear ∉ post ∧ ∀ w, .store k w ∉ post

/-- Every store of `k` since the last clear met a table full of other keys. -/
def AlwaysRefused (ops : List (Op K V)) (k : K) : Prop :=
  ∀ pre post w, ops = pre ++ .store k w :: post → .clear ∉ post → Full (run home pre) k

variable {home}

theorem run_append_one (ops : List (Op K V)) (o : Op K V) :
    run home (ops ++ [o]) = apply home (run home ops) o := by
  simp [run]

theorem inv_run (ops : List (Op K V)) : Inv home (run home ops) := by
  induction ops using List.reverseRecOn with
  | nil => exact inv_empty
  | append_singleton ops o ih =>
    rw [run_append_one]
    cases o with
    | store k v => exact inv_store ih k v
    | clear => exact inv_empty

/-- A hit is the value stored last since the last clear. -/
theorem run_lookup_some {ops : List (Op K V)} {k : K} {v : V}
    (h : lookup home (run home ops) k = some v) : IsLastStore ops k v := by
  induction ops using List.reverseRecOn with
  | nil => rw [run, foldl_nil, lookup_empty] at h; cases h
  | append_singleton ops o ih =>
    rw [run_append_one] at h
    cases o with
    | clear => rw [apply, lookup_empty] at h; cases h
    | store k' v' =>
      rw [apply] at h
      by_cases hk : k = k'
      · subst hk
        by_cases hfull : Full (run home ops) k
        · rw [store_of_full hfull, lookup_of_full hfull] at h; cases h
        · rw [lookup_store_self (inv_run ops) hfull] at h
          cases h
          exact ⟨ops, [], rfl, not_mem_nil, fun _ => not_mem_nil⟩
      · rw [lookup_store_other (inv_run ops) hk] at h
        obtain ⟨pre, post, rfl, hclear, hstore⟩ := ih h
        refine ⟨pre, post ++ [.store k' v'], by simp, ?_, ?_⟩
        · simpa using hclear
        · intro w
          simp only [mem_append, mem_singleton, Op.store.injEq, not_or]
          exact ⟨hstore w, fun he => hk he.1⟩

/-- On a miss, every store of the key since the last clear had found all slots
taken by other keys. -/
theorem run_lookup_none {ops : List (Op K V)} {k : K}
    (h : lookup home (run home ops) k = none) : AlwaysRefused home ops k := by
  induction ops using List.reverseRecOn with
  | nil => intro pre post w he; simp at he
  | append_singleton ops o ih =>
    rw [run_append_one] at h
    intro pre post w he hclear
    rcases eq_nil_or_concat post with rfl | ⟨post', o', rfl⟩
    · -- the store in question is the last operation
      obtain ⟨rfl, ho⟩ := append_inj' he rfl
      cases ho
      by_contra hfull
      rw [apply, lookup_store_self (inv_run ops) hfull] at h
      cases h
    · rw [concat_eq_append] at he hclear
      rw [← cons_append, ← append_assoc] at he
      obtain ⟨rfl, ho⟩ := append_inj' he rfl
      cases ho
      have hpost : .clear ∉ post' := fun hm => hclear (mem_append_left _ hm)
      refine ih ?_ pre post' w rfl hpost
      cases o with
      | clear => exact absurd (mem_append_right _ mem_cons_self) hclear
      | store k' v' =>
        rw [apply] at h
        by_cases hk : k = k'
        · subst hk
          by_cases hfull : Full (run home (pre ++ .store k w :: post')) k
          · exact lookup_of_full hfull
          · rw [lookup_store_self (inv_run _) hfull] at h; cases h
        · rwa [lookup_store_other (inv_run _) hk] at h

end

end Probing
