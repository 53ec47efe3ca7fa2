import Mathlib

/-!
# Doubly linked lists

A doubly linked list is kept in two fields of its nodes. `NuttX.Dll next prev p l e` says that the
nodes of `l` are linked in both directions, that the first one points back to `p`, and that the last
one points on to `e`; a whole list is one that begins and ends with the null pointer. Such a list
can be cut anywhere (`NuttX.Dll.append_iff`), and then one end can be pointed elsewhere
(`NuttX.Dll.redirect`, `NuttX.Dll.rehead`). A node is taken out by joining what is on its two sides
(`NuttX.Dll.join`), and put in by joining twice.
-/

namespace NuttX

open List

variable {α : Type*} {next prev next' prev' : α → α} {p q e f x y : α} {l r : List α}

/-- The nodes of a list are linked in both directions, between `p` and `e`. -/
def Dll (next prev : α → α) : α → List α → α → Prop
  | _, [], _ => True
  | p, x :: l, e => prev x = p ∧ next x = l.headD e ∧ Dll next prev x l e

namespace Dll

@[simp]
theorem nil : Dll next prev p [] e := trivial

@[simp]
theorem cons_iff :
    Dll next prev p (x :: l) e ↔ prev x = p ∧ next x = l.headD e ∧ Dll next prev x l e :=
  Iff.rfl

/-- A list can be cut anywhere. -/
theorem append_iff :
    Dll next prev p (l ++ r) e ↔
      Dll next prev p l (r.headD e) ∧ Dll next prev (l.getLastD p) r e := by
  induction l generalizing p with
  | nil => simp
  | cons x l ih =>
    have hhead : (l ++ r).headD e = l.headD (r.headD e) := by
      cases l <;> simp
    rw [cons_append, cons_iff, cons_iff, ih, hhead, getLastD_cons]
    tauto

/-- What a node points to is a matter of the fields of the nodes of the list. -/
theorem congr (h : Dll next prev p l e) (hnext : ∀ y ∈ l, next' y = next y)
    (hprev : ∀ y ∈ l, prev' y = prev y) : Dll next' prev' p l e := by
  induction l generalizing p with
  | nil => exact nil
  | cons x l ih =>
    obtain ⟨hx, hn, hl⟩ := h
    exact ⟨(hprev x mem_cons_self).trans hx, (hnext x mem_cons_self).trans hn,
      ih hl (fun y hy => hnext y (mem_cons_of_mem x hy))
        (fun y hy => hprev y (mem_cons_of_mem x hy))⟩

/-- Only the last node is pointed elsewhere. -/
theorem redirect (h : Dll next prev p (l ++ [x]) e) (hnext : ∀ y ∈ l, next' y = next y)
    (hprev : ∀ y ∈ l ++ [x], prev' y = prev y) (hx : next' x = f) :
    Dll next' prev' p (l ++ [x]) f := by
  obtain ⟨hl, hback, -, -⟩ := append_iff.mp h
  refine append_iff.mpr ⟨?_, ?_, hx, nil⟩
  · exact hl.congr hnext fun y hy => hprev y (mem_append_left _ hy)
  · rw [hprev x (mem_append_right _ mem_cons_self), hback]

/-- Only the first node is pointed back elsewhere. -/
theorem rehead (h : Dll next prev p r e) (hnext : ∀ y ∈ r, next' y = next y)
    (hprev : ∀ y ∈ r.tail, prev' y = prev y) (hback : ∀ y ∈ r.head?, prev' y = q) :
    Dll next' prev' q r e := by
  cases r with
  | nil => exact nil
  | cons y r =>
    obtain ⟨-, hn, hr⟩ := h
    exact ⟨hback y rfl, (hnext y mem_cons_self).trans hn,
      hr.congr (fun z hz => hnext z (mem_cons_of_mem y hz)) hprev⟩

/-- **Two lists are joined**: the last node of the one and the first node of the other are pointed to
each other. -/
theorem join (hl : Dll next prev p (l ++ [y]) f) (hr : Dll next prev q r e)
    (hnext : ∀ z ∈ l ++ r, next' z = next z) (hprev : ∀ z ∈ l ++ y :: r.tail, prev' z = prev z)
    (hy : next' y = r.headD e) (hback : ∀ z ∈ r.head?, prev' z = y) :
    Dll next' prev' p (l ++ y :: r) e := by
  rw [append_cons]
  refine append_iff.mpr ⟨?_, ?_⟩
  · refine hl.redirect (fun z hz => hnext z (mem_append_left r hz)) (fun z hz => ?_) hy
    exact hprev z (by rw [append_cons]; exact mem_append_left _ hz)
  · rw [getLastD_concat]
    refine hr.rehead (fun z hz => hnext z (mem_append_right l hz)) ?_ hback
    exact fun z hz => hprev z (mem_append_right l (mem_cons_of_mem y hz))

/-- The neighbours of a node. -/
theorem neighbours (h : Dll next prev p (l ++ y :: x :: r) e) :
    prev x = y ∧ next x = r.headD e := by
  rw [append_cons] at h
  obtain ⟨-, hx, hx', -⟩ := append_iff.mp h
  exact ⟨by rw [hx, getLastD_concat], hx'⟩

/-- What follows a node. -/
theorem next_eq (h : Dll next prev p (l ++ x :: r) e) : next x = r.headD e :=
  (append_iff.mp h).2.2.1

end Dll

end NuttX
