import Mathlib.Data.List.Basic

/-!
# Programs that make calls

A program is a tree: it returns a value, or it makes a call and goes on with
what the call answers. What calls do to the world, and what they may answer, is a
relation; a run of a program is a choice of answers, and it carries the calls it
made with their answers.
-/

namespace Effects

open List

/-- A program whose calls are `Op`, of which `op` answers a `Res op`. -/
inductive Prog (Op : Type) (Res : Op → Type) (α : Type)
  | ret (value : α)
  | call (op : Op) (next : Res op → Prog Op Res α)

variable {Op : Type} {Res : Op → Type} {α β σ : Type}

namespace Prog

def bind : Prog Op Res α → (α → Prog Op Res β) → Prog Op Res β
  | .ret value, f => f value
  | .call op next, f => .call op fun r => (next r).bind f

instance : Monad (Prog Op Res) where
  pure := .ret
  bind := bind

@[simp] theorem pure_eq (a : α) : (pure a : Prog Op Res α) = .ret a := rfl

@[simp] theorem bind_eq (p : Prog Op Res α) (f : α → Prog Op Res β) : p >>= f = p.bind f := rfl

@[simp] theorem ret_bind (a : α) (f : α → Prog Op Res β) : (ret a).bind f = f a := rfl

def op (op : Op) : Prog Op Res (Res op) := .call op .ret

/-- Whatever they answer, the program makes only calls that satisfy `P`. -/
def Calls (P : Op → Prop) : Prog Op Res α → Prop
  | .ret _ => True
  | .call op next => P op ∧ ∀ r, (next r).Calls P

theorem Calls.bind {P : Op → Prop} {p : Prog Op Res α} {f : α → Prog Op Res β} (hp : p.Calls P)
    (hf : ∀ a, (f a).Calls P) : (p.bind f).Calls P := by
  induction p with
  | ret a => exact hf a
  | call op next ih => exact ⟨hp.1, fun r => ih r (hp.2 r)⟩

end Prog

/-- What calls do: `K op s r t` when in state `s` the call may answer `r` and leave
the state `t`. -/
def Kernel (Op : Type) (Res : Op → Type) (σ : Type) : Type := (op : Op) → σ → Res op → σ → Prop

variable {K : Kernel Op Res σ}

/-- `Runs K p s tr a t`: the program may return `a` and leave the state `t`, after
the calls `tr`. -/
inductive Runs (K : Kernel Op Res σ) : Prog Op Res α → σ → List (Sigma Res) → α → σ → Prop
  | ret {a : α} {s : σ} : Runs K (.ret a) s [] a s
  | call {op : Op} {next : Res op → Prog Op Res α} {s u t : σ} {r : Res op} {tr : List (Sigma Res)}
      {a : α} : K op s r u → Runs K (next r) u tr a t → Runs K (.call op next) s (⟨op, r⟩ :: tr) a t

variable {tr : List (Sigma Res)} {p : Prog Op Res α} {a : α} {s t : σ}

/-- A run that ends in `P` is a run of the calls that can lead to `P`, if these lead from `P`. -/
theorem Runs.restrict {P : σ → Prop} {K' : Kernel Op Res σ}
    (hback : ∀ op s r t, K op s r t → P t → P s ∧ K' op s r t) (h : Runs K p s tr a t) (ht : P t) :
    P s ∧ Runs K' p s tr a t := by
  induction h with
  | ret => exact ⟨ht, .ret⟩
  | call hcall _ ih =>
    obtain ⟨hu, hruns⟩ := ih ht
    obtain ⟨hs, hcall⟩ := hback _ _ _ _ hcall hu
    exact ⟨hs, .call hcall hruns⟩

/-- A run that ends in `P` has begun there, or it has a call that leads into it. -/
theorem Runs.entered {P : σ → Prop} {E : Sigma Res → Prop}
    (h : ∀ op s r t, K op s r t → P t → P s ∨ E ⟨op, r⟩) (hruns : Runs K p s tr a t) (ht : P t) :
      P s ∨ ∃ c ∈ tr, E c := by
  induction hruns with
  | ret => exact .inl ht
  | call hcall _ ih =>
    rcases ih ht with hu | ⟨c, hc, hE⟩
    · exact (h _ _ _ _ hcall hu).imp_right fun hE => ⟨_, mem_cons_self, hE⟩
    · exact .inr ⟨c, mem_cons_of_mem _ hc, hE⟩

/-! ## Postconditions -/

/-- Every run of the program ends in `post`, where `tr` are the calls made before
it. -/
def wp (K : Kernel Op Res σ) (post : α → List (Sigma Res) → σ → Prop) :
    Prog Op Res α → List (Sigma Res) → σ → Prop
  | .ret a, tr, s => post a tr s
  | .call op next, tr, s => ∀ r t, K op s r t → wp K post (next r) (tr ++ [⟨op, r⟩]) t

variable {post post' : α → List (Sigma Res) → σ → Prop}

theorem wp_bind {post : β → List (Sigma Res) → σ → Prop} (p : Prog Op Res α)
    (f : α → Prog Op Res β) (tr : List (Sigma Res)) (s : σ) :
    wp K post (p.bind f) tr s ↔ wp K (fun a => wp K post (f a)) p tr s := by
  induction p generalizing tr s with
  | ret a => rfl
  | call op next ih =>
    constructor
    · intro h r t hcall
      exact (ih r _ t).mp (h r t hcall)
    · intro h r t hcall
      exact (ih r _ t).mpr (h r t hcall)

theorem wp_mono
    (himp : ∀ a tr t, post a tr t → post' a tr t) (h : wp K post p tr s) : wp K post' p tr s := by
  induction p generalizing tr s with
  | ret a => exact himp a tr s h
  | call op next ih =>
    intro r t hcall
    exact ih r (h r t hcall)

theorem wp_seq {post : β → List (Sigma Res) → σ → Prop} {q : α → List (Sigma Res) → σ → Prop}
    {f : α → Prog Op Res β} (h : wp K q p tr s) (hnext : ∀ a tr t, q a tr t → wp K post (f a) tr t) :
    wp K post (p.bind f) tr s :=
  (wp_bind p f tr s).mpr (wp_mono hnext h)

theorem wp_sound {tr' : List (Sigma Res)}
    (h : wp K post p tr s) (hruns : Runs K p s tr' a t) : post a (tr ++ tr') t := by
  induction hruns generalizing tr with
  | ret => rw [append_nil]; exact h
  | call hcall _ ih =>
    have hpost := ih (h _ _ hcall)
    rwa [append_assoc, cons_append, nil_append] at hpost

/-- What the calls of a program keep, the program keeps. -/
theorem wp_invariant {P : Op → Prop} (Inv : σ → Prop)
    (hkeep : ∀ op s r t, P op → Inv s → K op s r t → Inv t) (hp : p.Calls P) (hs : Inv s)
      (tr : List (Sigma Res)) : wp K (fun _ _ t => Inv t) p tr s := by
  induction p generalizing tr s with
  | ret a => exact hs
  | call op next ih =>
    intro r t hcall
    exact ih r (hp.2 r) (hkeep op s r t hp.1 hs hcall) _

/-! ## Programs with a function for a kernel -/

/-- The run of a program whose calls are answered by `f`, if each is answered. -/
def drive (f : (op : Op) → σ → Option (Res op × σ)) :
    Prog Op Res α → σ → Option (List (Sigma Res) × α × σ)
  | .ret a, s => some ([], a, s)
  | .call op next, s =>
    (f op s).bind fun x => (drive f (next x.1) x.2).map fun y => (⟨op, x.1⟩ :: y.1, y.2)

theorem drive_runs {f : (op : Op) → σ → Option (Res op × σ)}
    (hf : ∀ op s r t, f op s = some (r, t) → K op s r t) (h : drive f p s = some (tr, a, t)) :
      Runs K p s tr a t := by
  induction p generalizing s tr with
  | ret value =>
    cases h
    exact .ret
  | call op next ih =>
    simp only [drive, Option.bind_eq_some_iff, Option.map_eq_some_iff] at h
    obtain ⟨⟨r, u⟩, hcall, ⟨tr', a', t'⟩, hrest, heq⟩ := h
    cases heq
    exact .call (hf op s r u hcall) (ih r hrest)

/-- The calls are all answered, so it is a run. -/
theorem runs_drive_get {f : (op : Op) → σ → Option (Res op × σ)}
    (hf : ∀ op s r t, f op s = some (r, t) → K op s r t)
    (h : (drive f p s).isSome = true) :
    Runs K p s ((drive f p s).get h).1 ((drive f p s).get h).2.1 ((drive f p s).get h).2.2 :=
  drive_runs hf (Option.some_get h).symm

/-- The run of a program whose calls are all answered by `f`. -/
def eval (f : (op : Op) → σ → Res op × σ) : Prog Op Res α → σ → List (Sigma Res) × α × σ
  | .ret a, s => ([], a, s)
  | .call op next, s =>
    (⟨op, (f op s).1⟩ :: (eval f (next (f op s).1) (f op s).2).1,
      (eval f (next (f op s).1) (f op s).2).2)

variable {f : (op : Op) → σ → Res op × σ}

theorem eval_op_bind (op : Op) (g : Res op → Prog Op Res α) (s : σ) :
    eval f ((Prog.op op).bind g) s =
      (⟨op, (f op s).1⟩ :: (eval f (g (f op s).1) (f op s).2).1,
        (eval f (g (f op s).1) (f op s).2).2) := rfl

theorem eval_bind (p : Prog Op Res α) (g : α → Prog Op Res β) (s : σ) :
    eval f (p.bind g) s =
      ((eval f p s).1 ++ (eval f (g (eval f p s).2.1) (eval f p s).2.2).1,
        (eval f (g (eval f p s).2.1) (eval f p s).2.2).2) := by
  induction p generalizing s with
  | ret a => rfl
  | call op next ih =>
    simp only [Prog.bind, eval, ih, cons_append]

/-! ## Runs that need not end -/

/-- `Begins K p s tr`: a run of the program may begin with the calls `tr`. -/
inductive Begins (K : Kernel Op Res σ) : Prog Op Res α → σ → List (Sigma Res) → Prop
  | stop {p : Prog Op Res α} {s : σ} : Begins K p s []
  | call {op : Op} {next : Res op → Prog Op Res α} {s u : σ} {r : Res op} {tr : List (Sigma Res)} :
      K op s r u → Begins K (next r) u tr → Begins K (.call op next) s (⟨op, r⟩ :: tr)

theorem Runs.begins_bind {f : α → Prog Op Res β} {tr' : List (Sigma Res)} (h : Runs K p s tr a t)
    (h' : Begins K (f a) t tr') : Begins K (p.bind f) s (tr ++ tr') := by
  induction h with
  | ret => exact h'
  | call hcall _ ih => exact .call hcall (ih h')

theorem Runs.begins
    (h : Runs K p s tr a t) : Begins K p s tr := by
  induction h with
  | ret => exact .stop
  | call hcall _ ih => exact .call hcall ih

/-- A run of two programs is one of the first, or it has ended it. -/
theorem Begins.bind_inv {f : α → Prog Op Res β}
    (h : Begins K (p.bind f) s tr) :
    Begins K p s tr ∨
      ∃ tr₁ a t tr₂, Runs K p s tr₁ a t ∧ Begins K (f a) t tr₂ ∧ tr = tr₁ ++ tr₂ := by
  induction p generalizing s tr with
  | ret a => exact .inr ⟨[], a, s, tr, .ret, h, rfl⟩
  | call op next ih =>
    cases h with
    | stop => exact .inl .stop
    | call hcall hrest =>
      rcases ih _ hrest with hfirst | ⟨tr₁, a, t, tr₂, hruns, hbegins, rfl⟩
      · exact .inl (.call hcall hfirst)
      · exact .inr ⟨_, a, t, tr₂, .call hcall hruns, hbegins, rfl⟩

/-- At every moment of a run `I` holds of the calls made so far, and the run ends in `post`. -/
def along (K : Kernel Op Res σ) (I : List (Sigma Res) → Prop)
    (post : α → List (Sigma Res) → σ → Prop) : Prog Op Res α → List (Sigma Res) → σ → Prop
  | .ret a, tr, s => post a tr s
  | .call op next, tr, s => I tr ∧ ∀ r t, K op s r t → along K I post (next r) (tr ++ [⟨op, r⟩]) t

section Along

variable {I : List (Sigma Res) → Prop}

theorem along_bind {post : β → List (Sigma Res) → σ → Prop} (p : Prog Op Res α)
    (f : α → Prog Op Res β) (tr : List (Sigma Res)) (s : σ) :
    along K I post (p.bind f) tr s ↔ along K I (fun a => along K I post (f a)) p tr s := by
  induction p generalizing tr s with
  | ret a => rfl
  | call op next ih =>
    refine and_congr_right fun _ => forall_congr' fun r => forall_congr' fun t => ?_
    exact imp_congr_right fun _ => ih r _ t

variable {tr : List (Sigma Res)} {p : Prog Op Res α}

theorem along_mono {s : σ}
    (himp : ∀ a tr t, post a tr t → post' a tr t) (h : along K I post p tr s) :
    along K I post' p tr s := by
  induction p generalizing tr s with
  | ret a => exact himp a tr s h
  | call op next ih => exact ⟨h.1, fun r t hcall => ih r (h.2 r t hcall)⟩

theorem along_seq {post : β → List (Sigma Res) → σ → Prop} {q : α → List (Sigma Res) → σ → Prop}
    {f : α → Prog Op Res β} {s : σ}
    (h : along K I q p tr s) (hnext : ∀ a tr t, q a tr t → along K I post (f a) tr t) :
    along K I post (p.bind f) tr s :=
  (along_bind p f tr s).mpr (along_mono hnext h)

theorem along_ite {c : Prop} {_ : Decidable c} {q : Prog Op Res α} {s : σ}
    (hp : c → along K I post p tr s) (hq : ¬ c → along K I post q tr s) :
    along K I post (if c then p else q) tr s := by
  split
  · next hc => exact hp hc
  · next hc => exact hq hc

theorem along_sound {tr' : List (Sigma Res)} {s : σ}
    (hpost : ∀ a tr t, post a tr t → I tr) (h : along K I post p tr s) (hbegins : Begins K p s tr') :
    I (tr ++ tr') := by
  induction hbegins generalizing tr with
  | @stop p s =>
    rw [append_nil]
    cases p with
    | ret a => exact hpost a tr s h
    | call op next => exact h.1
  | call hcall _ ih =>
    have hrest := ih (h.2 _ _ hcall)
    rwa [append_assoc, cons_append, nil_append] at hrest

end Along

namespace Prog

/-- Whatever they answer, the program makes at most `n` calls for which `P` holds. -/
def AtMost (P : Op → Bool) : Prog Op Res α → Nat → Prop
  | .ret _, _ => True
  | .call op next, n => if P op then ∃ m, n = m + 1 ∧ ∀ r, (next r).AtMost P m else ∀ r, (next r).AtMost P n

variable {P : Op → Bool}

theorem AtMost.of_calls {p : Prog Op Res α} (h : p.Calls (P · = false)) (n : Nat) :
    p.AtMost P n := by
  induction p with
  | ret a => trivial
  | call op next ih =>
    rw [AtMost, h.1, if_neg Bool.false_ne_true]
    exact fun r => ih r (h.2 r)

/-- One call that may count, and others that do not. -/
theorem AtMost.call {op : Op} {next : Res op → Prog Op Res α} {n : Nat}
    (hop : P op = true → 0 < n) (h : ∀ r, (next r).Calls (P · = false)) : (call op next).AtMost P n := by
  rw [AtMost]
  split
  · next hcount =>
    obtain ⟨m, rfl⟩ := Nat.exists_eq_add_one.mpr (hop hcount)
    exact ⟨m, rfl, fun r => .of_calls (h r) m⟩
  · exact fun r => .of_calls (h r) n

/-- Calls that do not count may come before. -/
theorem AtMost.after_calls {p : Prog Op Res α} {f : α → Prog Op Res β} {n : Nat}
    (hp : p.Calls (P · = false)) (hf : ∀ a, (f a).AtMost P n) : (p.bind f).AtMost P n := by
  induction p with
  | ret a => exact hf a
  | call op next ih =>
    rw [bind, AtMost, hp.1, if_neg Bool.false_ne_true]
    exact fun r => ih r (hp.2 r)

theorem AtMost.bind_calls {p : Prog Op Res α} {f : α → Prog Op Res β} {n : Nat}
    (hp : p.AtMost P n) (hf : ∀ a, (f a).Calls (P · = false)) : (p.bind f).AtMost P n := by
  induction p generalizing n with
  | ret a => exact .of_calls (hf a) n
  | call op next ih =>
    rw [AtMost] at hp
    rw [bind, AtMost]
    split at hp
    · next hop =>
      obtain ⟨m, rfl, hrest⟩ := hp
      rw [if_pos hop]
      exact ⟨m, rfl, fun r => ih r (hrest r)⟩
    · next hop =>
      rw [if_neg hop]
      exact fun r => ih r (hp r)

/-- The program with its calls made under other names. -/
def via {Op' : Type} {Res' : Op' → Type} (name : Op → Op') (back : (op : Op) → Res' (name op) → Res op) :
    Prog Op Res α → Prog Op' Res' α
  | .ret a => .ret a
  | .call op next => .call (name op) fun r => (next (back op r)).via name back

theorem calls_via {Op' : Type} {Res' : Op' → Type} {name : Op → Op'}
    {back : (op : Op) → Res' (name op) → Res op} {P : Op' → Prop} (h : ∀ op, P (name op))
    (p : Prog Op Res α) : (p.via name back).Calls P := by
  induction p with
  | ret a => trivial
  | call op next ih => exact ⟨h op, fun r => ih _⟩

end Prog

theorem Begins.count_le {P : Op → Bool} {n : Nat}
    (h : Begins K p s tr) (hp : p.AtMost P n) : tr.countP (fun c => P c.1) ≤ n := by
  induction h generalizing n with
  | stop => exact Nat.zero_le n
  | @call op next s u r tr _ _ ih =>
    rw [Prog.AtMost] at hp
    rw [countP_cons]
    split at hp
    · next hop =>
      obtain ⟨m, rfl, hrest⟩ := hp
      rw [if_pos hop]
      exact Nat.succ_le_succ (ih (hrest r))
    · next hop =>
      rw [if_neg hop]
      exact ih (hp r)

end Effects
