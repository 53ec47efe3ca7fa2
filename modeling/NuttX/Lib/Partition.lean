import Mathlib

/-!
# Lists of sets that partition a set

`NuttX.Partitions l s` says that the sets of a list are pairwise disjoint and make up `s`. Empty
sets may be in the list, and may be dropped (`NuttX.Partitions.filter`). A partition is refined by
partitioning each of its sets, or what a set leaves of each (`NuttX.Partitions.flatMap`), which is
how a procedure that divides a set again and again is followed to its end. Each element is then in
exactly one set of the list (`NuttX.Partitions.filter_eq_singleton`).
-/

namespace NuttX

variable {α ι : Type*} {s t u : Set α} {l m : List (Set α)}

/-- The sets of a list are pairwise disjoint, and `s` is their union. -/
structure Partitions (l : List (Set α)) (s : Set α) : Prop where
  /-- No two of them have an element in common. -/
  disjoint : l.Pairwise Disjoint
  /-- Together they are the set. -/
  cover : ∀ x, x ∈ s ↔ ∃ t ∈ l, x ∈ t

namespace Partitions

theorem nil : Partitions ([] : List (Set α)) ∅ :=
  ⟨List.Pairwise.nil, fun x => by simp⟩

theorem single (s : Set α) : Partitions [s] s :=
  ⟨List.pairwise_singleton _ _, fun x => by simp⟩

theorem subset (h : Partitions l s) (ht : t ∈ l) : t ⊆ s :=
  fun x hx => (h.cover x).mpr ⟨t, ht, hx⟩

/-- Two partitions of disjoint sets, one after the other. -/
theorem append (h : Partitions l s) (h' : Partitions m t) (hst : Disjoint s t) :
    Partitions (l ++ m) (s ∪ t) := by
  refine ⟨List.pairwise_append.mpr ⟨h.disjoint, h'.disjoint, fun a ha b hb => ?_⟩, fun x => ?_⟩
  · exact hst.mono (h.subset ha) (h'.subset hb)
  · rw [Set.mem_union, h.cover, h'.cover]
    simp only [List.mem_append, or_and_right, exists_or]

/-- One more set, disjoint from the others. -/
theorem cons (h : Partitions l s) (hts : Disjoint t s) : Partitions (t :: l) (t ∪ s) :=
  (single t).append h hts

variable {parts : List ι} {f : ι → Set α}

/-- Empty sets may be dropped. -/
theorem filter (h : Partitions (parts.map f) s) {p : ι → Bool}
    (hp : ∀ i ∈ parts, p i = false → f i = ∅) : Partitions ((parts.filter p).map f) s := by
  refine ⟨h.disjoint.sublist (List.filter_sublist.map f), fun x => ?_⟩
  rw [h.cover]
  constructor
  · rintro ⟨_, ht, hx⟩
    obtain ⟨i, hi, rfl⟩ := List.mem_map.mp ht
    cases hpi : p i with
    | true => exact ⟨f i, List.mem_map.mpr ⟨i, List.mem_filter.mpr ⟨hi, hpi⟩, rfl⟩, hx⟩
    | false =>
      rw [hp i hi hpi] at hx
      exact absurd hx (Set.notMem_empty x)
  · rintro ⟨_, ht, hx⟩
    obtain ⟨i, hi, rfl⟩ := List.mem_map.mp ht
    exact ⟨f i, List.mem_map.mpr ⟨i, (List.mem_filter.mp hi).1, rfl⟩, hx⟩

/-- **A partition is refined** by partitioning what a set leaves of each of its members. -/
theorem flatMap {g : ι → List (Set α)} (h : Partitions (parts.map f) s)
    (hg : ∀ i ∈ parts, Partitions (g i) (f i ∩ u)) : Partitions (parts.flatMap g) (s ∩ u) := by
  constructor
  · rw [List.pairwise_flatMap]
    refine ⟨fun i hi => (hg i hi).disjoint, ?_⟩
    -- members of two different parts are apart because the parts are
    refine (List.pairwise_map.mp h.disjoint).imp_of_mem fun {i j} hi hj hij a ha b hb => ?_
    exact hij.mono (((hg i hi).subset ha).trans Set.inter_subset_left)
      (((hg j hj).subset hb).trans Set.inter_subset_left)
  · intro x
    rw [Set.mem_inter_iff, h.cover]
    constructor
    · rintro ⟨⟨_, ht, hx⟩, hu⟩
      obtain ⟨i, hi, rfl⟩ := List.mem_map.mp ht
      obtain ⟨t, ht, hxt⟩ := ((hg i hi).cover x).mp ⟨hx, hu⟩
      exact ⟨t, List.mem_flatMap.mpr ⟨i, hi, ht⟩, hxt⟩
    · rintro ⟨t, ht, hxt⟩
      obtain ⟨i, hi, ht⟩ := List.mem_flatMap.mp ht
      obtain ⟨hx, hu⟩ := (hg i hi).subset ht hxt
      exact ⟨⟨f i, List.mem_map.mpr ⟨i, hi, rfl⟩, hx⟩, hu⟩

/-- **Each element is in exactly one set of the list.** -/
theorem filter_eq_singleton (h : Partitions (parts.map f) s) {x : α}
    [DecidablePred fun i => x ∈ f i] (hx : x ∈ s) :
    ∃ i ∈ parts, x ∈ f i ∧ parts.filter (fun i => decide (x ∈ f i)) = [i] := by
  obtain ⟨_, ht, hxt⟩ := (h.cover x).mp hx
  obtain ⟨i, hi, rfl⟩ := List.mem_map.mp ht
  obtain ⟨before, after, rfl⟩ := List.append_of_mem hi
  have hdisj := List.pairwise_append.mp (List.pairwise_map.mp h.disjoint)
  have hbefore : before.filter (fun j => decide (x ∈ f j)) = [] := by
    refine List.filter_eq_nil_iff.mpr fun j hj hxj => ?_
    have hapart := hdisj.2.2 j hj i List.mem_cons_self
    exact Set.disjoint_left.mp hapart (of_decide_eq_true hxj) hxt
  have hafter : after.filter (fun j => decide (x ∈ f j)) = [] := by
    refine List.filter_eq_nil_iff.mpr fun j hj hxj => ?_
    have hapart := (List.pairwise_cons.mp hdisj.2.1).1 j hj
    exact Set.disjoint_left.mp hapart hxt (of_decide_eq_true hxj)
  refine ⟨i, hi, hxt, ?_⟩
  rw [List.filter_append, List.filter_cons, if_pos (decide_eq_true hxt), hbefore, hafter,
    List.nil_append]

end Partitions

end NuttX
