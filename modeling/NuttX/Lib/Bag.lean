import Mathlib

/-!
# Bags kept in arrays

A bag that is kept in the first places of an array: an element is added at the end, and an element
is removed by writing the last one over it. The order of the rest changes with every removal, so
that what an operation does is stated up to permutation: `NuttX.Bag.popHighest` takes out a greatest
element, `NuttX.Bag.discard` one occurrence of a given one.
-/

namespace NuttX

open List

namespace Bag

variable {α : Type*} {l l' : List α} {a b p : α} {i j : ℕ}

/-- Write the last element over the one at `j`, and shorten the array. -/
def removeAt (l : List α) (j : ℕ) : List α :=
  match l.getLast? with
  | none => l
  | some z => (l.set j z).dropLast

theorem removeAt_append : removeAt (l ++ [b]) j = ((l ++ [b]).set j b).dropLast := by
  simp [removeAt]

/-- **One element leaves the bag.** -/
theorem removeAt_perm (h : l[j]? = some a) : (a :: removeAt l j).Perm l := by
  rcases List.eq_nil_or_concat l with rfl | ⟨m, z, rfl⟩
  · simp at h
  rw [List.concat_eq_append] at h ⊢
  rw [removeAt_append]
  obtain ⟨hlt, hget⟩ := List.getElem?_eq_some_iff.mp h
  rw [List.length_append, List.length_singleton] at hlt
  rcases Nat.lt_succ_iff_lt_or_eq.mp hlt with hj | rfl
  · -- the last element takes the place of the removed one
    rw [List.set_append_left _ _ hj, List.dropLast_concat]
    rw [List.getElem_append_left hj] at hget
    have hm : m = m.take j ++ a :: m.drop (j + 1) := by
      rw [← hget, ← List.drop_eq_getElem_cons hj, List.take_append_drop]
    rw [List.set_eq_take_append_cons_drop, if_pos hj]
    calc a :: (m.take j ++ z :: m.drop (j + 1))
        _ |>.Perm (z :: (m.take j ++ a :: m.drop (j + 1))) := by
          refine (List.Perm.cons a List.perm_middle).trans ?_
          exact (List.Perm.swap z a _).trans (List.Perm.cons z List.perm_middle.symm)
        _ |>.Perm (z :: m) := by rw [← hm]
        _ |>.Perm (m ++ [z]) := (List.perm_append_singleton z m).symm
  · have haz : a = z := by simpa using hget.symm
    simpa [haz] using (List.perm_append_singleton z m).symm

variable [LinearOrder α]

/-- The place of the first greatest element of `best :: rest`, when `best` is at `j` and `rest`
begins at `i`. -/
def highestFrom (best : α) (j i : ℕ) : List α → ℕ × α
  | [] => (j, best)
  | b :: rest => if best < b then highestFrom b i (i + 1) rest else highestFrom best j (i + 1) rest

theorem highestFrom_spec {best : α} (m : List α) {k : List α} (hl : l = m ++ k)
    (hi : i = m.length) (hj : l[j]? = some best) (hle : ∀ c ∈ m, c ≤ best) :
    l[(highestFrom best j i k).1]? = some (highestFrom best j i k).2 ∧
      ∀ c ∈ l, c ≤ (highestFrom best j i k).2 := by
  induction k generalizing best j i m with
  | nil =>
    refine ⟨hj, fun c hc => hle c ?_⟩
    rw [hl, append_nil] at hc
    exact hc
  | cons b rest ih =>
    have hl' : l = (m ++ [b]) ++ rest := by simp [hl]
    have hi' : i + 1 = (m ++ [b]).length := by simp [hi]
    rw [highestFrom]
    split
    · rename_i hlt
      refine ih (m ++ [b]) hl' hi' (by simp [hl, hi]) fun c hc => ?_
      rcases mem_append.mp hc with hc | hc
      · exact (hle c hc).trans hlt.le
      · exact (mem_singleton.mp hc).le
    · rename_i hnlt
      refine ih (m ++ [b]) hl' hi' hj fun c hc => ?_
      rcases mem_append.mp hc with hc | hc
      · exact hle c hc
      · exact (mem_singleton.mp hc).le.trans (not_lt.mp hnlt)

/-- Take out the first greatest element. -/
def popHighest : List α → Option (α × List α)
  | [] => none
  | a :: l =>
    let j := highestFrom a 0 1 l
    some (j.2, removeAt (a :: l) j.1)

theorem popHighest_eq_none : popHighest l = none ↔ l = [] := by
  cases l <;> simp [popHighest]

theorem popHighest_spec (h : popHighest l = some (a, l')) :
    (a :: l').Perm l ∧ ∀ b ∈ l, b ≤ a := by
  cases l with
  | nil => cases h
  | cons c l =>
    cases h
    have hc : (c :: l)[0]? = some c := rfl
    obtain ⟨hget, hle⟩ := highestFrom_spec (i := 1) [c] rfl rfl hc fun b hb =>
      (mem_singleton.mp hb).le
    exact ⟨removeAt_perm hget, hle⟩

/-- Take out the first occurrence of `p`, if there is one. -/
def discard (p : α) (l : List α) : List α :=
  match l.findIdx? (· = p) with
  | none => l
  | some i => removeAt l i

theorem discard_perm : (discard p l).Perm (l.erase p) := by
  rw [discard]
  split
  · rename_i hnone
    rw [erase_of_not_mem]
    intro hp
    have := findIdx?_eq_none_iff.mp hnone p hp
    simp at this
  · rename_i i hsome
    obtain ⟨hi, hp, -⟩ := findIdx?_eq_some_iff_getElem.mp hsome
    have hget : l[i]? = some p := by
      rw [getElem?_eq_getElem hi]
      simpa using hp
    have hperm := removeAt_perm hget
    exact (hperm.trans (perm_cons_erase (mem_of_getElem? hget))).cons_inv

end Bag

end NuttX
