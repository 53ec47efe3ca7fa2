import Mathlib

/-!
# What a computation leaves alone

A computation of `StateT σ Option` works on a state and may not return. `NuttX.Leaves π m` says that
the part `π` of the state is the same after `m` as before, whenever `m` returns, and
`NuttX.Keeps π m` that `m` does return. A computation that is put together from parts leaves alone
what its parts leave alone, and so a function of many branches needs no case analysis:
`NuttX.Leaves.bind` and `NuttX.Leaves.ite` follow its text.
-/

namespace NuttX

variable {σ α β γ : Type}

/-- What two computations, one after the other, have returned in between. -/
theorem bind_inv {m : StateT σ Option α} {f : α → StateT σ Option β} {s : σ} {r : β × σ}
    (h : (m >>= f) s = some r) : ∃ a s', m s = some (a, s') ∧ f a s' = some r := by
  obtain ⟨⟨a, s'⟩, hfirst, hsecond⟩ := Option.bind_eq_some_iff.mp h
  exact ⟨a, s', hfirst, hsecond⟩

/-- The second of two computations goes on with what the first has returned. -/
theorem bind_of_run {m : StateT σ Option α} {f : α → StateT σ Option β} {s s' : σ} {a : α}
    (h : m s = some (a, s')) : (m >>= f) s = f a s' := by
  change (m s).bind _ = _
  rw [h]
  rfl

/-- The part `π` of the state is left alone. -/
def Leaves (π : σ → γ) (m : StateT σ Option α) : Prop := ∀ s a s', m s = some (a, s') → π s' = π s

namespace Leaves

variable {π : σ → γ} {m m' : StateT σ Option α} {f : α → StateT σ Option β}

theorem pure (a : α) : Leaves π (Pure.pure a : StateT σ Option α) := by
  intro s a' s' h
  cases h
  rfl

/-- One computation after another. -/
theorem bind (hm : Leaves π m) (hf : ∀ a, Leaves π (f a)) : Leaves π (m >>= f) := by
  intro s b s' h
  obtain ⟨a, s1, hfirst, hsecond⟩ := bind_inv h
  exact (hf a s1 b s' hsecond).trans (hm s a s1 hfirst)

theorem ite {c : Prop} [Decidable c] (hm : Leaves π m) (hm' : Leaves π m') :
    Leaves π (if c then m else m') := by
  by_cases h : c
  · rw [if_pos h]
    exact hm
  · rw [if_neg h]
    exact hm'

theorem get : Leaves π (MonadState.get : StateT σ Option σ) := by
  intro s a s' h
  cases h
  rfl

/-- The state is changed, but not this part of it. -/
theorem modify {f : σ → σ} (h : ∀ s, π (f s) = π s) : Leaves π (modify f : StateT σ Option PUnit) :=
    by
  intro s a s' hrun
  cases hrun
  exact h s

/-- A computation that does not return leaves everything alone. -/
theorem none : Leaves π (fun _ => Option.none : StateT σ Option α) := fun _ _ _ h => nomatch h

/-- A part of the part is left alone. -/
theorem comp {δ : Type} (h : Leaves π m) (g : γ → δ) : Leaves (g ∘ π) m :=
  fun s a s' hrun => congrArg g (h s a s' hrun)

end Leaves

/-- The computation returns, and the part `π` of the state is left alone. -/
def Keeps (π : σ → γ) (m : StateT σ Option α) : Prop :=
  ∀ s, ∃ a s', m s = some (a, s') ∧ π s' = π s

namespace Keeps

variable {π : σ → γ} {m m' : StateT σ Option α} {f : α → StateT σ Option β}

theorem leaves (h : Keeps π m) : Leaves π m := by
  intro s a s' hrun
  obtain ⟨b, t, hrun', hπ⟩ := h s
  obtain ⟨-, rfl⟩ := Prod.mk.inj (Option.some.inj (hrun'.symm.trans hrun))
  exact hπ

theorem pure (a : α) : Keeps π (Pure.pure a : StateT σ Option α) := fun s => ⟨a, s, rfl, rfl⟩

/-- One computation after another. -/
theorem bind (hm : Keeps π m) (hf : ∀ a, Keeps π (f a)) : Keeps π (m >>= f) := by
  intro s
  obtain ⟨a, s1, hfirst, h1⟩ := hm s
  obtain ⟨b, s2, hsecond, h2⟩ := hf a s1
  refine ⟨b, s2, ?_, h2.trans h1⟩
  exact Option.bind_eq_some_iff.mpr ⟨(a, s1), hfirst, hsecond⟩

theorem ite {c : Prop} [Decidable c] (hm : Keeps π m) (hm' : Keeps π m') :
    Keeps π (if c then m else m') := by
  by_cases h : c
  · rw [if_pos h]
    exact hm
  · rw [if_neg h]
    exact hm'

theorem get : Keeps π (MonadState.get : StateT σ Option σ) := fun s => ⟨s, s, rfl, rfl⟩

/-- The state is changed, but not this part of it. -/
theorem modify {f : σ → σ} (h : ∀ s, π (f s) = π s) :
    Keeps π (modify f : StateT σ Option PUnit) :=
  fun s => ⟨⟨⟩, f s, rfl, h s⟩

end Keeps

end NuttX
