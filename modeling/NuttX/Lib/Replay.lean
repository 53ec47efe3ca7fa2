import Mathlib

/-!
# Replaying a list of steps

A run of a machine is given by the list of its steps, when a step is a function of the state and
what is assumed of the steps can be decided. `NuttX.replay` takes the steps of a list one after the
other and collects what they show; by `NuttX.replay_sound` the state that it returns is reached.
-/

namespace NuttX

variable {σ ω ε τ : Type*} (step : ω → σ → Option (σ × ε)) (add : ε → τ → τ)
  (P : τ → σ → ω → ε → σ → Prop) [∀ tr s op ev s', Decidable (P tr s op ev s')]

/-- Takes steps one after the other, as long as they can be taken and satisfy `P`. -/
def replay : List ω → τ → σ → Option (τ × σ)
  | [], tr, s => some (tr, s)
  | op :: ops, tr, s =>
    match step op s with
    | some (s', ev) => if P tr s op ev s' then replay ops (add ev tr) s' else none
    | none => none

variable {step add P} {R : τ → σ → Prop} {tr : τ} {s : σ} {ops : List ω} {x : τ × σ}

/-- **What a replay returns is reached**, when `R` holds of what is reached. -/
theorem replay_sound (hstep : ∀ {tr s s' ev} op, R tr s → step op s = some (s', ev) →
      P tr s op ev s' → R (add ev tr) s')
    (h0 : R tr s) (h : replay step add P ops tr s = some x) : R x.1 x.2 := by
  induction ops generalizing tr s with
  | nil =>
    cases h
    exact h0
  | cons op ops ih =>
    rw [replay] at h
    split at h
    next s' ev hop =>
      split at h
      next hP => exact ih (hstep op h0 hop hP) h
      next => cases h
    next => cases h

end NuttX
