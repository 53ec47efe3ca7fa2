import Mathlib

/-!
# Counting semaphores

A family of counting semaphores, seen from the outside: each has a count, and a set of participants
that are blocked on it. A negative count is the number of the blocked participants. There are four
changes, `NuttX.Sems.take`, `NuttX.Sems.join`, `NuttX.Sems.give` and `NuttX.Sems.leave`; waiting is
one of the first two, and posting one of the last two. Which participant a post selects is left
open.

`NuttX.Sems.Wf` is kept by all of them, in the situation in which each is made. What the
participants do between the changes is up to the systems that use the semaphores.
-/

namespace NuttX

open Function Finset

/-- Counting semaphores `σ` and the participants `τ` that are blocked on them. -/
structure Sems (σ τ : Type*) where
  count : σ → ℤ
  waiting : σ → Finset τ

namespace Sems

variable {σ τ : Type*} [DecidableEq σ] [DecidableEq τ]

/-- Nobody waits. -/
def init (v : σ → ℤ) : Sems σ τ := ⟨v, fun _ => ∅⟩

variable (S : Sems σ τ)

/-- A count that is available is taken. -/
def take (s : σ) : Sems σ τ := { S with count := update S.count s (S.count s - 1) }

/-- The participant `t` begins to wait for a count. -/
def join (t : τ) (s : σ) : Sems σ τ where
  count := update S.count s (S.count s - 1)
  waiting := update S.waiting s (insert t (S.waiting s))

/-- A count is added that nobody waits for. -/
def give (s : σ) : Sems σ τ := { S with count := update S.count s (S.count s + 1) }

/-- The participant `w` stops to wait: it is given a count, or it gives up. -/
def leave (w : τ) (s : σ) : Sems σ τ where
  count := update S.count s (S.count s + 1)
  waiting := update S.waiting s ((S.waiting s).erase w)

/-- The participant `t` waits for a count; the result is false when it is blocked. -/
def wait (t : τ) (s : σ) : Sems σ τ × Bool :=
  if 0 < S.count s then (S.take s, true) else (S.join t s, false)

/-- A count is added and the participant `w` is selected, if this is possible: somebody is selected
when the count has been negative and somebody waits. -/
def post (s : σ) (w : Option τ) : Option (Sems σ τ) :=
  match w with
  | none => if S.count s < 0 ∧ S.waiting s ≠ ∅ then none else some (S.give s)
  | some w => if S.count s < 0 ∧ w ∈ S.waiting s then some (S.leave w s) else none

/-- The count is set, whatever it was. -/
def setCount (s : σ) (n : ℤ) : Sems σ τ := { S with count := update S.count s n }

/-! ### What the changes do -/

variable {S} {S' : Sems σ τ} {s s' : σ} {t w : τ}

omit [DecidableEq τ] in
@[simp] theorem count_take : (S.take s).count = update S.count s (S.count s - 1) := rfl

omit [DecidableEq τ] in
@[simp] theorem waiting_take : (S.take s).waiting = S.waiting := rfl

@[simp] theorem count_join : (S.join t s).count = update S.count s (S.count s - 1) := rfl

omit [DecidableEq τ] in
@[simp] theorem count_give : (S.give s).count = update S.count s (S.count s + 1) := rfl

omit [DecidableEq τ] in
@[simp] theorem waiting_give : (S.give s).waiting = S.waiting := rfl

omit [DecidableEq τ] in
@[simp] theorem count_setCount {n : ℤ} :
    (S.setCount s n).count = update S.count s n := rfl

@[simp] theorem count_leave : (S.leave w s).count = update S.count s (S.count s + 1) := rfl

@[simp] theorem mem_waiting_join :
    w ∈ (S.join t s).waiting s' ↔ w ∈ S.waiting s' ∨ w = t ∧ s' = s := by
  rw [join]
  rcases eq_or_ne s' s with rfl | hs
  · simp [or_comm]
  · simp [hs]

@[simp] theorem mem_waiting_leave :
    t ∈ (S.leave w s).waiting s' ↔ t ∈ S.waiting s' ∧ ¬ (t = w ∧ s' = s) := by
  rw [leave]
  rcases eq_or_ne s' s with rfl | hs
  · simp [and_comm]
  · simp [hs]

theorem wait_cases (S : Sems σ τ) (t : τ) (s : σ) :
    0 < S.count s ∧ S.wait t s = (S.take s, true) ∨
      S.count s ≤ 0 ∧ S.wait t s = (S.join t s, false) := by
  rcases lt_or_ge 0 (S.count s) with hs | hs
  · exact Or.inl ⟨hs, if_pos hs⟩
  · exact Or.inr ⟨hs, if_neg (not_lt.mpr hs)⟩

/-! ### The invariant -/

/-- Negative counts are the numbers of those that wait. -/
structure Wf (S : Sems σ τ) : Prop where
  card : ∀ s, ((S.waiting s).card : ℤ) = max (-S.count s) 0

omit [DecidableEq σ] [DecidableEq τ] in
theorem Wf.init {v : σ → ℤ} (hv : ∀ s, 0 ≤ v s) : (init v : Sems σ τ).Wf := by
  refine ⟨fun s => ?_⟩
  have hs := hv s
  show ((∅ : Finset τ).card : ℤ) = max (-v s) 0
  rw [card_empty]
  omega

omit [DecidableEq σ] [DecidableEq τ] in
/-- Somebody who waits is counted. -/
theorem Wf.count_neg (h : S.Wf) (hw : w ∈ S.waiting s) : S.count s < 0 := by
  have hcard := h.card s
  have hpos := card_pos.mpr ⟨w, hw⟩
  omega

omit [DecidableEq σ] [DecidableEq τ] in
/-- When the count is negative somebody waits. -/
theorem Wf.exists_waiting (h : S.Wf) (hs : S.count s < 0) : ∃ w, w ∈ S.waiting s := by
  have hcard := h.card s
  exact card_pos.mp (by omega)

omit [DecidableEq σ] [DecidableEq τ] in
/-- When the count is not negative nobody waits. -/
theorem Wf.waiting_eq_empty (h : S.Wf) (hs : 0 ≤ S.count s) : S.waiting s = ∅ := by
  have hcard := h.card s
  exact card_eq_zero.mp (by omega)

omit [DecidableEq τ] in
/-- One set and the count that goes with it change. -/
theorem Wf.update (h : S.Wf) {n : ℤ} {W : Finset τ} (hcard : (W.card : ℤ) = max (-n) 0) :
    (⟨update S.count s n, update S.waiting s W⟩ : Sems σ τ).Wf := by
  refine ⟨fun c => ?_⟩
  rcases eq_or_ne c s with rfl | hc
  · simpa using hcard
  · simpa [hc] using h.card c

theorem Wf.join (h : S.Wf) (hs : S.count s ≤ 0) (ht : t ∉ S.waiting s) : (S.join t s).Wf := by
  have hcard := h.card s
  refine h.update ?_
  rw [card_insert_of_notMem ht]
  omega

theorem Wf.leave (h : S.Wf) (hw : w ∈ S.waiting s) : (S.leave w s).Wf := by
  have hcard := h.card s
  refine h.update ?_
  have := card_erase_add_one hw
  omega

omit [DecidableEq τ] in
/-- The count of a semaphore that nobody waits for is set, or is left as it is. -/
theorem Wf.setCount (h : S.Wf) {n : ℤ} (hn : n = S.count s ∨ 0 ≤ S.count s ∧ 0 ≤ n) :
    (S.setCount s n).Wf := by
  have hcard := h.card s
  have hwf := h.update (s := s) (n := n) (W := S.waiting s) (by omega)
  rwa [update_eq_self] at hwf

omit [DecidableEq τ] in
theorem Wf.take (h : S.Wf) (hs : 0 < S.count s) : (S.take s).Wf :=
  h.setCount (Or.inr ⟨hs.le, by omega⟩)

omit [DecidableEq τ] in
theorem Wf.give (h : S.Wf) (hs : 0 ≤ S.count s) : (S.give s).Wf :=
  h.setCount (Or.inr ⟨hs, by omega⟩)

/-- **A post gives the count to somebody who waits, or nobody waits.** -/
theorem Wf.post (h : S.Wf) {w : Option τ} (hpost : S.post s w = some S') :
    S'.Wf ∧ ((w = none ∧ 0 ≤ S.count s ∧ S' = S.give s) ∨
      ∃ u, w = some u ∧ u ∈ S.waiting s ∧ S' = S.leave u s) := by
  cases w with
  | none =>
    rw [Sems.post] at hpost
    split at hpost
    · cases hpost
    rename_i hcond
    cases hpost
    have hs : 0 ≤ S.count s := by
      by_contra hneg
      obtain ⟨w, hw⟩ := h.exists_waiting (not_le.mp hneg)
      exact hcond ⟨not_le.mp hneg, ne_empty_of_mem hw⟩
    exact ⟨h.give hs, Or.inl ⟨rfl, hs, rfl⟩⟩
  | some u =>
    rw [Sems.post] at hpost
    split at hpost
    swap
    · cases hpost
    rename_i hcond
    cases hpost
    exact ⟨h.leave hcond.2, Or.inr ⟨u, rfl, hcond.2, rfl⟩⟩

end Sems

/-! ### Participants and their places -/

section

variable {σ τ π : Type*} [DecidableEq σ] [DecidableEq τ]

/-- The participants are at the places `pc`, and are blocked on the semaphores that `waitsem` reads
off their places. -/
structure BlockedOn (waitsem : π → Option σ) (S : Sems σ τ) (pc : τ → π) : Prop where
  wf : S.Wf
  waiting : ∀ s t, t ∈ S.waiting s ↔ waitsem (pc t) = some s

namespace BlockedOn

variable {waitsem : π → Option σ} {S S' : Sems σ τ} {pc : τ → π} {p : π} {s : σ} {t u : τ}

omit [DecidableEq σ] [DecidableEq τ] in
theorem init {v : σ → ℤ} (hv : ∀ s, 0 ≤ v s) (hpc : ∀ t, waitsem (pc t) = none) :
    BlockedOn waitsem (.init v) pc := by
  refine ⟨Sems.Wf.init hv, fun s t => ⟨fun ht => absurd ht (notMem_empty t), fun ht => ?_⟩⟩
  rw [hpc t] at ht
  cases ht

omit [DecidableEq σ] in
/-- A participant that is not blocked goes on without waiting. -/
theorem goto (h : BlockedOn waitsem S pc) (ht : waitsem (pc t) = none) (hp : waitsem p = none) :
    BlockedOn waitsem S (update pc t p) := by
  refine ⟨h.wf, fun s u => ?_⟩
  rw [h.waiting]
  rcases eq_or_ne u t with rfl | hu
  · rw [update_self, ht, hp]
  · rw [update_of_ne hu]

omit [DecidableEq τ] in
theorem take (h : BlockedOn waitsem S pc) (hs : 0 < S.count s) : BlockedOn waitsem (S.take s) pc :=
  ⟨h.wf.take hs, h.waiting⟩

omit [DecidableEq τ] in
theorem setCount (h : BlockedOn waitsem S pc) {n : ℤ}
    (hn : n = S.count s ∨ 0 ≤ S.count s ∧ 0 ≤ n) : BlockedOn waitsem (S.setCount s n) pc :=
  ⟨h.wf.setCount hn, h.waiting⟩

/-- A participant is blocked. -/
theorem join (h : BlockedOn waitsem S pc) (hs : S.count s ≤ 0) (ht : waitsem (pc t) = none)
    (hp : waitsem p = some s) : BlockedOn waitsem (S.join t s) (update pc t p) := by
  have hfree : t ∉ S.waiting s := by
    rw [h.waiting, ht]
    nofun
  refine ⟨h.wf.join hs hfree, fun s' u => ?_⟩
  rw [Sems.mem_waiting_join, h.waiting]
  rcases eq_or_ne u t with rfl | hu
  · simp [ht, hp, eq_comm]
  · simp [hu]

/-- A blocked participant is woken. -/
theorem leave (h : BlockedOn waitsem S pc) (hu : waitsem (pc u) = some s) (hp : waitsem p = none) :
    BlockedOn waitsem (S.leave u s) (update pc u p) := by
  refine ⟨h.wf.leave ((h.waiting s u).mpr hu), fun s' v => ?_⟩
  rw [Sems.mem_waiting_leave, h.waiting]
  rcases eq_or_ne v u with rfl | hv
  · simp [hu, hp, eq_comm]
  · simp [hv]

omit [DecidableEq σ] [DecidableEq τ] in
/-- Somebody who is blocked is counted. -/
theorem count_neg (h : BlockedOn waitsem S pc) (hu : waitsem (pc u) = some s) : S.count s < 0 :=
  h.wf.count_neg ((h.waiting s u).mpr hu)

/-- **A post selects a participant that is blocked on the semaphore, or there is none.** -/
theorem post (h : BlockedOn waitsem S pc) {w : Option τ} (hpost : S.post s w = some S') :
    (w = none ∧ 0 ≤ S.count s ∧ S' = S.give s ∧ BlockedOn waitsem (S.give s) pc) ∨
      ∃ u, w = some u ∧ S.count s < 0 ∧ waitsem (pc u) = some s ∧ S' = S.leave u s := by
  obtain ⟨hwf, ⟨rfl, hs, rfl⟩ | ⟨u, rfl, hu, rfl⟩⟩ := h.wf.post hpost
  · exact Or.inl ⟨rfl, hs, rfl, hwf, h.waiting⟩
  · exact Or.inr ⟨u, rfl, h.wf.count_neg hu, (h.waiting s u).mp hu, rfl⟩

end BlockedOn

end

/-! ### Semaphores that are used as locks -/

section

variable {σ τ : Type*}

/-- A semaphore with the initial count 1 is held by at most one participant: `h` is the one for
which `has` is true. -/
structure Exclusive (S : Sems σ τ) (s : σ) (has : τ → Bool) (h : Option τ) : Prop where
  count : h = none ∧ S.count s = 1 ∨ h ≠ none ∧ S.count s ≤ 0
  has : ∀ t, has t = true ↔ h = some t

namespace Exclusive

variable {S S' : Sems σ τ} {s : σ} {has has' : τ → Bool} {h : Option τ} {t u : τ}

/-- Two participants that have the semaphore are the same. -/
theorem unique (hS : Exclusive S s has h) (ht : has t = true) (hu : has u = true) : t = u :=
  Option.some.inj (((hS.has t).mp ht).symm.trans ((hS.has u).mp hu))

/-- The same participants have the semaphore, and it cannot be taken now if it could not before. -/
theorem same (hS : Exclusive S s has h) (hhas : ∀ u, has' u = has u)
    (hcount : S'.count s = S.count s ∨ S.count s ≤ 0 ∧ S'.count s ≤ 0) :
    Exclusive S' s has' h := by
  obtain ⟨hc, hh⟩ := hS
  exact ⟨by grind, by grind⟩

variable [DecidableEq τ]

/-- The semaphore is taken. -/
theorem take (hS : Exclusive S s has h) (hs : 0 < S.count s)
    (hcount : S'.count s = S.count s - 1) (hhas : ∀ u, has' u = if u = t then true else has u) :
    Exclusive S' s has' (some t) := by
  obtain ⟨hc, hh⟩ := hS
  exact ⟨by grind, by grind⟩

/-- The one that has the semaphore posts it, and the one that is selected, if any, has it. -/
theorem handOver (hS : Exclusive S s has h) (ht : has t = true) {w : Option τ}
    (hw : w = none ∧ 0 ≤ S.count s ∨ ∃ u, w = some u ∧ u ≠ t ∧ S.count s < 0)
    (hcount : S'.count s = S.count s + 1)
    (hhas : ∀ u, has' u = if u = t then false else if w = some u then true else has u) :
    Exclusive S' s has' w := by
  obtain ⟨hc, hh⟩ := hS
  exact ⟨by grind, by grind⟩

end Exclusive

end

end NuttX
