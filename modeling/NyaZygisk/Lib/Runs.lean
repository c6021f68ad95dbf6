import Mathlib.Data.List.Basic

/-!
# Runs of a labelled transition system

A run carries its trace: for each step its label, together with the state the
step was taken in. Conditions on a run ("every step meets ...") and the states
a run passes through are then statements about the entries of one list.
-/

namespace Runs

open List

variable {σ ι : Type}

/-- `Run step s tr t`: steps lead from `s` to `t`, and `tr` lists them in
order, each as the state before it and its label. -/
inductive Run (step : σ → ι → σ → Prop) (s : σ) : List (σ × ι) → σ → Prop
  | refl : Run step s [] s
  | snoc {tr : List (σ × ι)} {t u : σ} {i : ι} :
      Run step s tr t → step t i u → Run step s (tr ++ [(t, i)]) u

variable {step : σ → ι → σ → Prop}

variable {tr : List (σ × ι)} {s t : σ} {f : σ → ι → Option σ}

theorem Run.single {i : ι} (h : step s i t) : Run step s [(s, i)] t :=
  .snoc .refl h

theorem Run.append {u : σ} {tr' : List (σ × ι)} (h : Run step s tr t)
    (h' : Run step t tr' u) : Run step s (tr ++ tr') u := by
  induction h' with
  | refl => simpa using h
  | snoc _ hs ih =>
    rw [← append_assoc]
    exact .snoc ih hs

/-- What holds of every step taken in an invariant state holds of every step of
a run. -/
theorem Run.forall_steps (h : Run step s tr t) (Inv : σ → Prop)
    (Q : σ → ι → Prop) (hinv : ∀ s i t, Inv s → step s i t → Inv t)
    (hQ : ∀ s i t, Inv s → step s i t → Q s i) (h0 : Inv s) :
    Inv t ∧ ∀ p ∈ tr, Q p.1 p.2 := by
  induction h with
  | refl => exact ⟨h0, fun p hp => absurd hp not_mem_nil⟩
  | @snoc tr t u i _ hs ih =>
    obtain ⟨ht, hall⟩ := ih
    refine ⟨hinv t i u ht hs, fun p hp => ?_⟩
    rcases mem_append.mp hp with hp | hp
    · exact hall p hp
    · rw [mem_singleton] at hp; subst hp; exact hQ t i u ht hs

/-- An invariant of the steps holds at the end of a run and in every state the
run passes through. -/
theorem Run.invariant (h : Run step s tr t) (Inv : σ → Prop)
    (hstep : ∀ s i t, Inv s → step s i t → Inv t) (h0 : Inv s) :
    Inv t ∧ ∀ p ∈ tr, Inv p.1 :=
  h.forall_steps Inv (fun s _ => Inv s) hstep (fun _ _ _ hs _ => hs) h0

/-- Whatever steps are taken from `s`, they lead to a state with this property. -/
def Always (step : σ → ι → σ → Prop) (s : σ) (P : σ → Prop) : Prop := ∀ tr t, Run step s tr t → P t

theorem Always.of_invariant {P : σ → Prop} (Inv : σ → Prop) (h0 : Inv s)
    (hstep : ∀ s i t, Inv s → step s i t → Inv t) (hP : ∀ t, Inv t → P t) : Always step s P :=
  fun _ t h => hP t (h.invariant Inv hstep h0).1

/-- The states a run passes through, its end included. -/
def visited (tr : List (σ × ι)) (t : σ) : List σ := tr.map Prod.fst ++ [t]

theorem mem_visited_end (tr : List (σ × ι)) (t : σ) : t ∈ visited tr t :=
  mem_append_right _ mem_cons_self

theorem visited_snoc (tr : List (σ × ι)) (t u : σ) (i : ι) :
    visited (tr ++ [(t, i)]) u = visited tr t ++ [u] := by
  simp [visited]

/-- A state that a run passes through is the end of a run that begins the same. -/
theorem Run.to_visited {u : σ} (h : Run step s tr t)
    (hu : u ∈ visited tr t) : ∃ tr', tr' <+: tr ∧ Run step s tr' u := by
  induction h with
  | refl =>
    rw [visited, map_nil, nil_append, mem_singleton] at hu
    subst hu
    exact ⟨[], prefix_rfl, .refl⟩
  | @snoc tr t v i hr hs ih =>
    rw [visited_snoc, mem_append, mem_singleton] at hu
    rcases hu with hu | rfl
    · obtain ⟨tr', hpre, hr'⟩ := ih hu
      exact ⟨tr', hpre.trans (prefix_append _ _), hr'⟩
    · exact ⟨_, prefix_rfl, .snoc hr hs⟩

/-- Where each step of a run keeps `P` exactly when it meets `ok`, the steps all
meet `ok` exactly when `P` holds wherever the run passes. The steps may rely on
an invariant that they all keep. -/
theorem Run.forall_ok_iff (h : Run step s tr t) (Inv P : σ → Prop)
    (ok : σ → ι → Prop) (hinv : ∀ s i t, Inv s → step s i t → Inv t)
    (hstep : ∀ s i t, Inv s → P s → step s i t → (P t ↔ ok s i)) (h0 : Inv s) (hP : P s) :
    (∀ p ∈ tr, ok p.1 p.2) ↔ ∀ u ∈ visited tr t, P u := by
  suffices Inv t ∧ ((∀ p ∈ tr, ok p.1 p.2) ↔ ∀ u ∈ visited tr t, P u) from this.2
  induction h with
  | refl => exact ⟨h0, by simp [visited, hP]⟩
  | @snoc tr t u i _ hs ih =>
    obtain ⟨ht, hiff⟩ := ih
    refine ⟨hinv t i u ht hs, ?_⟩
    simp only [visited_snoc, forall_mem_append, forall_mem_singleton, hiff]
    constructor
    · rintro ⟨hall, hok⟩
      exact ⟨hall, (hstep t i u ht (hall t (mem_visited_end tr t)) hs).mpr hok⟩
    · rintro ⟨hall, hu⟩
      exact ⟨hall, (hstep t i u ht (hall t (mem_visited_end tr t)) hs).mp hu⟩

/-- A run whose steps all meet `ok` is a run of such steps. -/
theorem Run.restrict (h : Run step s tr t) (ok : σ → ι → Prop) (hok : ∀ p ∈ tr, ok p.1 p.2) :
    Run (fun a i b => ok a i ∧ step a i b) s tr t := by
  induction h with
  | refl => exact .refl
  | @snoc tr t u i _ hs ih =>
    have hpre := ih fun p hp => hok p (mem_append_left _ hp)
    exact .snoc hpre ⟨hok (t, i) (mem_append_right _ mem_cons_self), hs⟩

/-- Some run leads from `s` to `t`. -/
def Reaches (step : σ → ι → σ → Prop) (s t : σ) : Prop := ∃ tr, Run step s tr t

theorem Reaches.trans {u : σ} (h : Reaches step s t) (h' : Reaches step t u) :
    Reaches step s u := by
  obtain ⟨_, hr⟩ := h
  obtain ⟨_, hr'⟩ := h'
  exact ⟨_, hr.append hr'⟩

theorem Reaches.head {u : σ} {i : ι} (h : step s i t) (h' : Reaches step t u) :
    Reaches step s u := Reaches.trans ⟨_, .single h⟩ h'

theorem Reaches.single {i : ι} (h : step s i t) : Reaches step s t := ⟨_, .single h⟩

/-! ## Systems given by a step function -/

/-- The run that takes these steps, if each of them is possible. -/
def exec (f : σ → ι → Option σ) : σ → List ι → Option (List (σ × ι) × σ)
  | s, [] => some ([], s)
  | s, i :: is => (f s i).bind fun t => (exec f t is).map fun r => ((s, i) :: r.1, r.2)

theorem exec_cons_end {i : ι} (h : f s i = some t) (is : List ι) :
    (exec f s (i :: is)).map Prod.snd = (exec f t is).map Prod.snd := by
  simp [exec, h, Function.comp_def]

theorem exec_single (i : ι) : (exec f s [i]).map Prod.snd = f s i := by
  cases h : f s i <;> simp [exec, h]

theorem run_of_exec {is : List ι} (h : exec f s is = some (tr, t)) :
    Run (fun a i b => f a i = some b) s tr t ∧ tr.map Prod.snd = is := by
  induction is generalizing s tr with
  | nil => cases h; exact ⟨.refl, rfl⟩
  | cons i is ih =>
    simp only [exec, Option.bind_eq_some_iff, Option.map_eq_some_iff] at h
    obtain ⟨u, hu, ⟨tr', t'⟩, hr, he⟩ := h
    cases he
    exact ⟨(Run.single hu).append (ih hr).1, congrArg (i :: ·) (ih hr).2⟩

/-- The steps are all possible, so they are a run. -/
theorem run_exec_get {is : List ι} (h : (exec f s is).isSome = true) :
    Run (fun a i b => f a i = some b) s ((exec f s is).get h).1 ((exec f s is).get h).2 ∧
      ((exec f s is).get h).1.map Prod.snd = is :=
  run_of_exec (Option.some_get h).symm

/-- The steps of a system in which every step is possible. -/
def path (f : σ → ι → σ) : σ → List ι → List (σ × ι)
  | _, [] => []
  | s, i :: is => (s, i) :: path f (f s i) is

theorem run_path (f : σ → ι → σ) (s : σ) (is : List ι) :
    Run (fun a i b => f a i = b) s (path f s is) (is.foldl f s) := by
  induction is generalizing s with
  | nil => exact .refl
  | cons i is ih => exact (Run.single rfl).append (ih (f s i))

end Runs
