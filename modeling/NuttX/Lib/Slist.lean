import Mathlib

/-!
# Singly linked lists

Nodes with a link each, to the next node or to none. `NuttX.Linked` says that following the links
from a pointer visits the nodes of a list, and then ends. Since links are a function, there is one
such list at most, and it visits no node twice: a pointer from which the links come back to a node
has no list at all.
-/

namespace NuttX

open List

variable {α : Type*} {next next' : α → Option α} {p : Option α} {l m m' : List α} {x : α}

/-- Following the links from `p` visits the nodes of a list, and ends. -/
def Linked (next : α → Option α) : Option α → List α → Prop
  | p, [] => p = none
  | p, x :: l => p = some x ∧ Linked next (next x) l

namespace Linked

@[simp]
theorem nil_iff : Linked next p [] ↔ p = none := Iff.rfl

@[simp]
theorem cons_iff : Linked next p (x :: l) ↔ p = some x ∧ Linked next (next x) l := Iff.rfl

/-- The pointer leads to the first node. -/
theorem head? (h : Linked next p l) : p = l.head? := by
  cases l with
  | nil => exact h
  | cons x l => exact h.1

/-- A pointer to a node leads through that node first. -/
theorem exists_cons (h : Linked next (some x) l) : ∃ m, l = x :: m ∧ Linked next (next x) m := by
  cases l with
  | nil => exact nomatch h
  | cons y l =>
    obtain rfl := Option.some.inj h.1
    exact ⟨l, rfl, h.2⟩

/-- There is one list at most. -/
theorem unique (h : Linked next p l) (h' : Linked next p m) : l = m := by
  induction l generalizing p m with
  | nil =>
    cases m with
    | nil => rfl
    | cons y m =>
      rw [nil_iff.mp h] at h'
      exact nomatch h'.1
  | cons x l ih =>
    cases m with
    | nil =>
      rw [nil_iff.mp h'] at h
      exact nomatch h.1
    | cons y m =>
      obtain rfl := Option.some.inj (h.1.symm.trans h'.1)
      rw [ih h.2 h'.2]

/-- The links from a node of a list lead through the rest of it. -/
theorem rest (h : Linked next p (l ++ x :: m)) : Linked next (next x) m := by
  induction l generalizing p with
  | nil => exact h.2
  | cons y l ih => exact ih h.2

/-- No node is visited twice. -/
theorem nodup (h : Linked next p l) : l.Nodup := by
  induction l generalizing p with
  | nil => exact nodup_nil
  | cons x l ih =>
    refine nodup_cons.mpr ⟨fun hx => ?_, ih h.2⟩
    -- otherwise there are two lists behind this node, one of them a proper part of the other
    obtain ⟨l1, l2, rfl⟩ := append_of_mem hx
    have hlen := congrArg length (unique h.2 h.2.rest)
    simp only [length_append, length_cons] at hlen
    omega

/-- There is no list from a node that leads to itself. -/
theorem not_of_self (hself : next x = some x) : ¬Linked next (some x) l := by
  intro h
  have hlist : Linked next (some x) (x :: l) := by
    rw [cons_iff, hself]
    exact ⟨rfl, h⟩
  have hlen := congrArg length (unique hlist h)
  simp at hlen

/-- Only the links of the nodes of a list matter. -/
theorem congr (h : Linked next p l) (hnext : ∀ x ∈ l, next' x = next x) : Linked next' p l := by
  induction l generalizing p with
  | nil => exact h
  | cons x l ih =>
    refine ⟨h.1, ?_⟩
    rw [hnext x mem_cons_self]
    exact ih h.2 fun y hy => hnext y (mem_cons_of_mem x hy)

/-- **What comes behind a node is replaced**, by a change of its link. -/
theorem splice (h : Linked next p (l ++ x :: m)) (hnext : ∀ y ∈ l, next' y = next y)
    (hrest : Linked next' (next' x) m') : Linked next' p (l ++ x :: m') := by
  induction l generalizing p with
  | nil => exact ⟨h.1, hrest⟩
  | cons y l ih =>
    refine ⟨h.1, ?_⟩
    rw [hnext y mem_cons_self]
    exact ih h.2 fun z hz => hnext z (mem_cons_of_mem y hz)

end Linked

end NuttX
