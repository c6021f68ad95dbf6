import Mathlib.Data.List.Basic

/-!
# Programs that go on after a fault

Programs over a state that records which faults there were and never takes one back. A triple says
what such a program does in the runs at whose end no fault is recorded.
-/

namespace Faults

variable {σ α β : Type} {sound : σ → Prop} {P Q : σ → Prop}

/-- What was recorded before is still recorded after. -/
def Records (sound : σ → Prop) (f : StateM σ α) : Prop := ∀ s, sound (f s).2 → sound s

theorem Records.pure (a : α) : Records sound (pure a : StateM σ α) := fun _ h => h

theorem Records.bind {f : StateM σ α} {g : α → StateM σ β} (hf : Records sound f)
    (hg : ∀ a, Records sound (g a)) : Records sound (f >>= g) := by
  intro s h
  exact hf s (hg (f s).1 (f s).2 h)

/-- From a state with `P`, a run without faults ends with the result `a` in a state with `Q`. -/
def Triple (sound : σ → Prop) (P : σ → Prop) (f : StateM σ α) (a : α) (Q : σ → Prop) : Prop :=
  ∀ s, P s → sound (f s).2 → (f s).1 = a ∧ Q (f s).2

theorem Triple.pure (a : α) : Triple sound P (pure a : StateM σ α) a P := fun _ h _ => ⟨rfl, h⟩

theorem Triple.bind {R : σ → Prop} {f : StateM σ α} {g : α → StateM σ β} {a : α} {b : β}
    (hf : Triple sound P f a Q) (hrecords : ∀ a, Records sound (g a)) (hg : Triple sound Q (g a) b R) :
    Triple sound P (f >>= g) b R := by
  intro s hs hsound
  -- no fault at the end, so none when `f` was done
  obtain ⟨hresult, hstate⟩ := hf s hs (hrecords _ _ hsound)
  have hrun : (f >>= g) s = g a (f s).2 := congrArg (g · (f s).2) hresult
  rw [hrun] at hsound ⊢
  exact hg _ hstate hsound

theorem Triple.map {f : StateM σ α} {a : α} (hf : Triple sound P f a Q) (g : α → β) :
    Triple sound P (do return g (← f)) (g a) Q :=
  hf.bind (fun _ => .pure _) (.pure _)

end Faults
