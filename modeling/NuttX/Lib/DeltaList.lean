import Mathlib

/-!
# Delta lists

A timer queue that stores, with each entry, only the time left *after its predecessor* is a
list together with a function of relative lags. This file decodes such a list into absolute
times (`NuttX.Delta.times`) and says what an edit of the lags does to the decoded list: shifting the
head shifts everything behind it (`NuttX.Delta.times_shift`). With lags that are not negative the
decoded list is in order (`NuttX.Delta.pairwise_times`), and the converse holds
(`NuttX.Delta.nonneg_of_times`).

The decoded side has a single insertion, `NuttX.Delta.insertTime`, which puts a new entry
behind every entry that is not later. Both sides are over an arbitrary type of entries.
-/

namespace NuttX

namespace Delta

variable {α : Type*}

/-! ### Decoding the lags -/

/-- The absolute times of a delta list whose clock reads `t`: every entry is its lag later than
the entry before it. -/
def times (lag : α → ℤ) : ℤ → List α → List (α × ℤ)
  | _, [] => []
  | t, a :: l => (a, t + lag a) :: times lag (t + lag a) l

/-- The total lag of a delta list. -/
def span (lag : α → ℤ) (l : List α) : ℤ := (l.map lag).sum

variable {lag lag' : α → ℤ} {t : ℤ} {a b : α} {l l₁ l₂ : List α}

@[simp] theorem times_nil : times lag t [] = [] := rfl

@[simp] theorem times_cons :
    times lag t (a :: l) = (a, t + lag a) :: times lag (t + lag a) l := rfl

@[simp] theorem span_nil : span lag ([] : List α) = 0 := rfl

@[simp] theorem span_cons : span lag (a :: l) = lag a + span lag l := by simp [span]

@[simp] theorem span_append : span lag (l₁ ++ l₂) = span lag l₁ + span lag l₂ := by simp [span]

@[simp] theorem times_append :
    times lag t (l₁ ++ l₂) = times lag t l₁ ++ times lag (t + span lag l₁) l₂ := by
  induction l₁ generalizing t with
  | nil => simp
  | cons a l₁ ih => simp [ih, add_assoc]

theorem span_concat : span lag (l ++ [a]) = span lag l + lag a := by simp

@[simp] theorem map_fst_times : (times lag t l).map Prod.fst = l := by
  induction l generalizing t with
  | nil => rfl
  | cons a l ih => simp [ih]

theorem mem_of_mem_times {p : α × ℤ} (h : p ∈ times lag t l) : p.1 ∈ l := by
  have hm : p.1 ∈ (times lag t l).map Prod.fst := List.mem_map_of_mem h
  rwa [map_fst_times] at hm

/-- Only the lags of its own entries matter to a delta list. -/
theorem times_congr (h : ∀ a ∈ l, lag a = lag' a) : times lag t l = times lag' t l := by
  induction l generalizing t with
  | nil => rfl
  | cons a l ih =>
    rw [times_cons, times_cons, h a (by simp), ih fun b hb => h b (by simp [hb])]

theorem span_congr (h : ∀ a ∈ l, lag a = lag' a) : span lag l = span lag' l := by
  rw [span, span, List.map_congr_left h]

/-- **Shifting the head shifts the clock** that the list is decoded against. -/
theorem times_shift {v : ℤ} (h : ∀ c r, l = c :: r → lag' c = lag c + v ∧ ∀ d ∈ r, lag' d = lag d) :
    times lag' t l = times lag (t + v) l := by
  cases l with
  | nil => rfl
  | cons c r =>
    obtain ⟨hc, hr⟩ := h c r rfl
    have hclock : t + lag' c = t + v + lag c := by rw [hc]; ring
    rw [times_cons, times_cons, hclock, times_congr hr]

/-! ### Nonnegative lags -/

/-- No entry is due before the clock. -/
theorem le_of_mem_times (h : ∀ a ∈ l, 0 ≤ lag a) {p : α × ℤ} (hp : p ∈ times lag t l) :
    t ≤ p.2 := by
  induction l generalizing t with
  | nil => simp at hp
  | cons a l ih =>
    have ha := h a (by simp)
    rw [times_cons, List.mem_cons] at hp
    rcases hp with rfl | hp
    · omega
    · have := ih (fun b hb => h b (by simp [hb])) hp
      omega

/-- With nonnegative lags the absolute times are in order. -/
theorem pairwise_times (h : ∀ a ∈ l, 0 ≤ lag a) :
    (times lag t l).Pairwise fun p q => p.2 ≤ q.2 := by
  induction l generalizing t with
  | nil => exact List.Pairwise.nil
  | cons a l ih =>
    have htail : ∀ b ∈ l, 0 ≤ lag b := fun b hb => h b (by simp [hb])
    exact List.Pairwise.cons (fun p hp => le_of_mem_times htail hp) (ih htail)

theorem nonneg_of_times (hle : ∀ p ∈ times lag t l, t ≤ p.2)
    (hs : (times lag t l).Pairwise fun p q => p.2 ≤ q.2) : ∀ a ∈ l, 0 ≤ lag a := by
  induction l generalizing t with
  | nil => simp
  | cons a l ih =>
    have ha := hle _ List.mem_cons_self
    obtain ⟨hs1, hs2⟩ := List.pairwise_cons.mp hs
    exact List.forall_mem_cons.mpr ⟨by omega, ih hs1 hs2⟩

/-! ### Insertion by absolute time -/

/-- Insert an entry behind every entry that is not later. -/
def insertTime (a : α) (d : ℤ) : List (α × ℤ) → List (α × ℤ)
  | [] => [(a, d)]
  | p :: q => if d < p.2 then (a, d) :: p :: q else p :: insertTime a d q

/-- Insertion stops in front of the first later entry. -/
theorem insertTime_of_split {d : ℤ} {p q : List (α × ℤ)} (hp : ∀ x ∈ p, x.2 ≤ d)
    (hq : ∀ x r, q = x :: r → d < x.2) : insertTime a d (p ++ q) = p ++ (a, d) :: q := by
  induction p with
  | nil =>
    cases q with
    | nil => rfl
    | cons x r => simp [insertTime, hq x r rfl]
  | cons x p ih =>
    have hx : ¬ d < x.2 := by
      have := hp x (by simp)
      omega
    rw [List.cons_append, insertTime, if_neg hx, ih fun y hy => hp y (by simp [hy])]
    rfl

theorem mem_insertTime {d : ℤ} {q : List (α × ℤ)} {x : α × ℤ} :
    x ∈ insertTime a d q ↔ x = (a, d) ∨ x ∈ q := by
  induction q with
  | nil => simp [insertTime]
  | cons y q ih =>
    rw [insertTime]
    split
    · simp
    · simp only [List.mem_cons, ih]
      tauto

/-- **Insertion is stable**: it separates the old queue in two, everything before the new entry is
not later than it and everything behind it is later. -/
theorem exists_insertTime_eq {d : ℤ} (a : α) {q : List (α × ℤ)}
    (hs : q.Pairwise fun x y => x.2 ≤ y.2) :
    ∃ q1 q2, q = q1 ++ q2 ∧ insertTime a d q = q1 ++ (a, d) :: q2 ∧
      (∀ x ∈ q1, x.2 ≤ d) ∧ ∀ x ∈ q2, d < x.2 := by
  induction q with
  | nil => exact ⟨[], [], rfl, rfl, by simp, by simp⟩
  | cons y q ih =>
    obtain ⟨hy, hq⟩ := List.pairwise_cons.mp hs
    rcases lt_or_ge d y.2 with hlt | hge
    · refine ⟨[], y :: q, rfl, by simp [insertTime, hlt], by simp, ?_⟩
      intro x hx
      rcases List.mem_cons.mp hx with rfl | hx
      · exact hlt
      · exact lt_of_lt_of_le hlt (hy x hx)
    · obtain ⟨q1, q2, rfl, hins, h1, h2⟩ := ih hq
      refine ⟨y :: q1, q2, rfl, ?_, ?_, h2⟩
      · rw [insertTime, if_neg (by omega), hins]
        rfl
      · intro x hx
        rcases List.mem_cons.mp hx with rfl | hx
        · exact hge
        · exact h1 x hx

theorem pairwise_insertTime {d : ℤ} {q : List (α × ℤ)} (hs : q.Pairwise fun x y => x.2 ≤ y.2) :
    (insertTime a d q).Pairwise fun x y => x.2 ≤ y.2 := by
  obtain ⟨q1, q2, rfl, hins, h1, h2⟩ := exists_insertTime_eq a hs
  rw [hins, List.pairwise_append, List.pairwise_cons]
  rw [List.pairwise_append] at hs
  refine ⟨hs.1, ⟨fun y hy => (h2 y hy).le, hs.2.1⟩, fun x hx y hy => ?_⟩
  rcases List.mem_cons.mp hy with rfl | hy
  · exact h1 x hx
  · exact hs.2.2 x hx y hy

end Delta

end NuttX
