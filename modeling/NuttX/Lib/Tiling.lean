import Mathlib

/-!
# Tilings of an interval

Blocks of given sizes, laid one behind the other from an address on: `NuttX.place` has the addresses
that they come to lie at and `NuttX.extent` is the length of the interval that they fill. Two blocks
of a tiling are the same one or do not overlap, and a block can be found again as a place at which
the list of blocks can be cut.
-/

namespace NuttX

open List

variable {β : Type*} {sz : β → ℕ} {a x y : ℕ} {b c : β} {l r : List β}

/-- The length of the interval that blocks fill. -/
def extent (sz : β → ℕ) (l : List β) : ℕ :=
  (l.map sz).sum

@[simp]
theorem extent_nil : extent sz [] = 0 := rfl

@[simp]
theorem extent_cons : extent sz (b :: l) = sz b + extent sz l := by
  simp [extent]

@[simp]
theorem extent_append : extent sz (l ++ r) = extent sz l + extent sz r := by
  simp [extent]

/-- The blocks with their addresses, when the first one lies at `a`. -/
def place (sz : β → ℕ) : ℕ → List β → List (ℕ × β)
  | _, [] => []
  | a, b :: l => (a, b) :: place sz (a + sz b) l

@[simp]
theorem place_nil : place sz a [] = [] := rfl

@[simp]
theorem place_cons : place sz a (b :: l) = (a, b) :: place sz (a + sz b) l := rfl

@[simp]
theorem place_append : place sz a (l ++ r) = place sz a l ++ place sz (a + extent sz l) r := by
  induction l generalizing a with
  | nil => simp
  | cons b l ih => simp [ih, Nat.add_assoc]

theorem mem_of_mem_place (h : (x, b) ∈ place sz a l) : b ∈ l := by
  induction l generalizing a with
  | nil => simp at h
  | cons c l ih =>
    rcases mem_cons.mp h with heq | h
    · rw [(Prod.mk.inj heq).2]
      exact mem_cons_self
    · exact mem_cons_of_mem c (ih h)

/-- A block lies in the interval. -/
theorem place_bounds (h : (x, b) ∈ place sz a l) : a ≤ x ∧ x + sz b ≤ a + extent sz l := by
  induction l generalizing a with
  | nil => simp at h
  | cons c l ih =>
    rw [extent_cons]
    rcases mem_cons.mp h with heq | h
    · cases heq
      omega
    · have := ih h
      omega

/-- Two blocks are the same one or do not overlap. -/
theorem place_apart (hx : (x, b) ∈ place sz a l) (hy : (y, c) ∈ place sz a l) :
    x = y ∧ b = c ∨ x + sz b ≤ y ∨ y + sz c ≤ x := by
  induction l generalizing a with
  | nil => simp at hx
  | cons d l ih =>
    rcases mem_cons.mp hx with heq | hx
    · cases heq
      rcases mem_cons.mp hy with heq | hy
      · cases heq
        exact .inl ⟨rfl, rfl⟩
      · exact .inr (.inl (place_bounds hy).1)
    · rcases mem_cons.mp hy with heq | hy
      · cases heq
        exact .inr (.inr (place_bounds hx).1)
      · exact ih hx hy

/-- The list can be cut at a block. -/
theorem exists_append_of_mem_place (h : (x, b) ∈ place sz a l) :
    ∃ l1 l2, l = l1 ++ b :: l2 ∧ x = a + extent sz l1 := by
  induction l generalizing a with
  | nil => simp at h
  | cons c l ih =>
    rcases mem_cons.mp h with heq | h
    · cases heq
      exact ⟨[], l, rfl, rfl⟩
    · obtain ⟨l1, l2, rfl, rfl⟩ := ih h
      exact ⟨c :: l1, l2, rfl, by rw [extent_cons, Nat.add_assoc]⟩

theorem dvd_extent {d : ℕ} (h : ∀ b ∈ l, d ∣ sz b) : d ∣ extent sz l := by
  induction l with
  | nil => exact Nat.dvd_zero d
  | cons b l ih =>
    exact Nat.dvd_add (h b mem_cons_self) (ih fun c hc => h c (mem_cons_of_mem b hc))

/-- No more blocks than there are units. -/
theorem length_le_extent (h : ∀ b ∈ l, 0 < sz b) : l.length ≤ extent sz l := by
  induction l with
  | nil => simp
  | cons b l ih =>
    have hb := h b mem_cons_self
    have hl := ih fun c hc => h c (mem_cons_of_mem b hc)
    rw [extent_cons, length_cons]
    omega

end NuttX
