import Mathlib

/-!
# Waiters on one list

Objects that can be waited for often share one list of waiters: each waiter stores the object it
waits for, and each object stores how many waiters it has. `NuttX.Waiters.count` is that number read
off the list, and the lemmas say how it changes when a waiter joins the list, leaves it, or is moved
inside it. `NuttX.Waiters.total` adds up what each participant contributes to a quantity, and
changes by what one participant's contribution changes.
-/

namespace NuttX

open List

namespace Waiters

variable {α β : Type*} [DecidableEq β]

/-! ### Counting the waiters of an object -/

/-- The elements of `l` that wait for `b`. -/
def count (on : α → Option β) (b : β) (l : List α) : ℕ := l.countP fun a => on a = some b

variable {on on' : α → Option β} {a c : α} {b d : β} {l l' : List α} {x : Option β}

theorem count_congr (h : ∀ a ∈ l, on' a = on a) : count on' b l = count on b l :=
  countP_congr fun a ha => by simp [h a ha]

theorem count_perm (h : l'.Perm l) : count on b l' = count on b l := h.countP_eq _

/-- What an element outside the list waits for does not count. -/
theorem count_update_of_notMem [DecidableEq α] (ha : a ∉ l) :
    count (Function.update on a x) b l = count on b l := by
  refine count_congr fun c hc => Function.update_of_ne ?_ _ _
  rintro rfl
  exact ha hc

/-- A waiter joins the list. -/
theorem count_join [DecidableEq α] (ha : a ∉ l) (hl : l'.Perm (a :: l)) :
    count (Function.update on a (some b)) d l' = count on d l + if d = b then 1 else 0 := by
  rw [count_perm hl, count, countP_cons]
  congr 1
  · exact count_update_of_notMem ha
  · simp [eq_comm (a := b)]

/-- An element is taken out of the list. -/
theorem count_erase [DecidableEq α] (ha : a ∈ l) (hon : on a = some b) :
    count on d (l.erase a) + (if d = b then 1 else 0) = count on d l := by
  rw [count_perm (perm_cons_erase ha), count, count, countP_cons, hon]
  simp [eq_comm (a := b)]

/-- A waiter leaves the list. -/
theorem count_leave [DecidableEq α] (ha : a ∈ l) (hnd : l.Nodup) (hon : on a = some b) :
    count (Function.update on a x) d (l.erase a) + (if d = b then 1 else 0) = count on d l := by
  rw [count_update_of_notMem hnd.not_mem_erase, count_erase ha hon]

theorem count_pos_of_mem (ha : a ∈ l) (hon : on a = some b) : 0 < count on b l :=
  countP_pos_iff.mpr ⟨a, ha, by simp [hon]⟩

/-! ### The first waiter of an object -/

/-- The first element of `l` that waits for `b`. -/
def first (on : α → Option β) (b : β) (l : List α) : Option α := l.find? fun a => on a = some b

theorem mem_of_first (h : first on b l = some a) : a ∈ l := mem_of_find?_eq_some h

theorem on_of_first (h : first on b l = some a) : on a = some b := by
  simpa using find?_some h

theorem exists_first (h : 0 < count on b l) : ∃ a, first on b l = some a := by
  obtain ⟨a, ha, hon⟩ := countP_pos_iff.mp h
  rw [← Option.isSome_iff_exists, first, find?_isSome]
  exact ⟨a, ha, hon⟩

/-- In a list ordered by `R` the first waiter is before every other one. -/
theorem first_before {R : α → α → Prop} (hR : l.Pairwise R) (h : first on b l = some a)
    (hc : c ∈ l) (hon : on c = some b) : c = a ∨ R a c := by
  obtain ⟨-, as, bs, rfl, has⟩ := find?_eq_some_iff_append.mp h
  rcases mem_append.mp hc with hc | hc
  · exact absurd hon (by simpa using has c hc)
  · rcases mem_cons.mp hc with rfl | hc
    · exact Or.inl rfl
    · rw [pairwise_append, pairwise_cons] at hR
      exact Or.inr (hR.2.1.1 c hc)

/-! ### Contributions of the participants -/

omit [DecidableEq β]

/-- What all elements of `l` contribute. -/
def total (f : α → ℕ) (l : List α) : ℕ := (l.map f).sum

variable {f f' : α → ℕ}

theorem total_congr (h : ∀ a ∈ l, f' a = f a) : total f' l = total f l := by
  rw [total, total, map_congr_left h]

theorem total_cons : total f (a :: l) = f a + total f l := sum_cons

theorem total_add : total (fun a => f a + f' a) l = total f l + total f' l := sum_map_add

/-- One participant changes its contribution. -/
theorem total_change [DecidableEq α] (ha : a ∈ l) (hnd : l.Nodup) (h : ∀ c, c ≠ a → f' c = f c) :
    total f' l + f a = total f l + f' a := by
  have hrest : total f' (l.erase a) = total f (l.erase a) := by
    refine total_congr fun c hc => h c ?_
    rintro rfl
    exact hnd.not_mem_erase hc
  have h1 : f a + total f (l.erase a) = total f l := sum_map_erase f ha
  have h2 : f' a + total f' (l.erase a) = total f' l := sum_map_erase f' ha
  omega

end Waiters

end NuttX
