import Mathlib

/-!
# Chains in a table of links

A table gives for each of its indices a link: another index, a mark that says that the chain ends
there, or the value of an index that is not in use. `NuttX.Links.Path` is the chain that one gets by
following the links from an index; since the links are a function there is at most one, and it does
not come back to an index that it has visited. `NuttX.Links.WellFormed` says that the indices in use
are those of the chains from some starting points, and that these chains have nothing in common.

Three changes keep such a table well formed: a free index becomes a chain of its own, a free index
is appended to a chain, and a whole chain is set free.
-/

namespace NuttX

open Function List

/-- What the values in a table of links mean. -/
structure Links (α : Type*) where
  /-- The value is an index of the table. -/
  Valid : α → Prop
  /-- The value marks the end of a chain. -/
  End : α → Prop
  /-- The value of an index that is not in use. -/
  null : α
  not_valid_of_end : ∀ {v}, End v → ¬ Valid v
  not_valid_null : ¬ Valid null
  not_end_null : ¬ End null

namespace Links

variable {α : Type*} (L : Links α)

/-- Following the links from an index visits the indices of the list, and then a mark is found. -/
inductive Path (next : α → α) : α → List α → Prop
  | last {a : α} : L.Valid a → L.End (next a) → Path next a [a]
  | cons {a : α} {l : List α} : L.Valid a → Path next (next a) l → Path next a (a :: l)

/-- The chains from `S` end, they have nothing in common, and nothing else is in use. -/
structure WellFormed (next : α → α) (S : Set α) : Prop where
  path : ∀ s ∈ S, ∃ l, L.Path next s l
  disjoint : ∀ s ∈ S, ∀ t ∈ S, s ≠ t → ∀ l l', L.Path next s l → L.Path next t l' → l.Disjoint l'
  covered : ∀ c, L.Valid c → next c ≠ L.null → ∃ s ∈ S, ∃ l, L.Path next s l ∧ c ∈ l

variable {L} {next next' : α → α} {s t c v : α} {l l' : List α} {S : Set α}

/-! ### Paths -/

namespace Path

section

variable (h : L.Path next s l)

include h

theorem valid_start : L.Valid s := by
  cases h with
  | last hvalid _ | cons hvalid _ => exact hvalid

theorem mem_start : s ∈ l := by
  cases h with
  | last _ _ | cons _ _ => exact mem_cons_self

theorem ne_nil : l ≠ [] := ne_nil_of_mem h.mem_start

/-- The rest of a chain is a chain. -/
theorem suffix (hc : c ∈ l) : ∃ l1 l2, l = l1 ++ l2 ∧ L.Path next c l2 := by
  induction h with
  | last hvalid hend =>
    rw [mem_singleton.mp hc]
    exact ⟨[], _, rfl, .last hvalid hend⟩
  | cons hvalid htail ih =>
    rename_i a l
    rcases mem_cons.mp hc with rfl | hc
    · exact ⟨[], _, rfl, .cons hvalid htail⟩
    · obtain ⟨l1, l2, rfl, hpath⟩ := ih hc
      exact ⟨a :: l1, l2, rfl, hpath⟩

theorem valid (hc : c ∈ l) : L.Valid c := by
  obtain ⟨l1, l2, -, hpath⟩ := h.suffix hc
  exact hpath.valid_start

/-- There is only one chain from an index. -/
theorem unique (h' : L.Path next s l') : l = l' := by
  induction h generalizing l' with
  | last _ hend =>
    cases h' with
    | last _ _ => rfl
    | cons _ htail => exact absurd htail.valid_start (L.not_valid_of_end hend)
  | cons _ htail ih =>
    cases h' with
    | last _ hend => exact absurd htail.valid_start (L.not_valid_of_end hend)
    | cons _ htail' => rw [ih htail']

/-- A chain does not come back: otherwise what follows the second visit would be as long as the
whole chain. -/
theorem nodup : l.Nodup := by
  induction h with
  | last _ _ => exact nodup_singleton _
  | cons hvalid htail ih =>
    refine nodup_cons.mpr ⟨fun hmem => ?_, ih⟩
    obtain ⟨l1, l2, rfl, hpath⟩ := htail.suffix hmem
    have heq := hpath.unique (.cons hvalid htail)
    have hlen := congrArg length heq
    simp only [length_cons, length_append] at hlen
    omega

/-- The indices of a chain are in use. -/
theorem next_ne_null (hc : c ∈ l) : next c ≠ L.null := by
  obtain ⟨l1, l2, -, hpath⟩ := h.suffix hc
  intro hnull
  cases hpath with
  | last _ hend =>
    rw [hnull] at hend
    exact L.not_end_null hend
  | cons _ htail =>
    have hvalid := htail.valid_start
    rw [hnull] at hvalid
    exact L.not_valid_null hvalid

/-- Only the links of a chain matter to it. -/
theorem congr (hnext : ∀ c ∈ l, next' c = next c) : L.Path next' s l := by
  induction h with
  | last hvalid hend =>
    refine .last hvalid ?_
    rw [hnext _ mem_cons_self]
    exact hend
  | cons hvalid _ ih =>
    refine .cons hvalid ?_
    rw [hnext _ mem_cons_self]
    exact ih fun c hc => hnext c (mem_cons_of_mem _ hc)

/-- The link of the last index is a mark. -/
theorem end_getLast (ht : l.getLast? = some t) : L.End (next t) := by
  induction h with
  | last _ hend =>
    cases ht
    exact hend
  | cons _ htail ih =>
    obtain ⟨x, xs, rfl⟩ := exists_cons_of_ne_nil htail.ne_nil
    exact ih ht

/-- The link of an index of a chain is an index or a mark. -/
theorem end_of_not_valid (hc : c ∈ l) (hnext : ¬ L.Valid (next c)) : L.End (next c) := by
  obtain ⟨l1, l2, -, hpath⟩ := h.suffix hc
  cases hpath with
  | last _ hend => exact hend
  | cons _ htail => exact absurd htail.valid_start hnext

/-- The index whose link is a mark is the last one. -/
theorem getLast?_of_end (hc : c ∈ l) (hend : L.End (next c)) : l.getLast? = some c := by
  obtain ⟨l1, l2, rfl, hpath⟩ := h.suffix hc
  cases hpath with
  | last _ _ => simp
  | cons _ htail => exact absurd htail.valid_start (L.not_valid_of_end hend)

theorem getElem?_zero : l[0]? = some s := by
  cases h with
  | last _ _ | cons _ _ => rfl

/-- Following a link goes on to the next place of the list. -/
theorem getElem?_succ {i : ℕ} (hc : l[i]? = some c) (hvalid : L.Valid (next c)) :
    l[i + 1]? = some (next c) := by
  induction h generalizing i with
  | last _ hend =>
    obtain rfl := mem_singleton.mp (mem_of_getElem? hc)
    exact absurd hvalid (L.not_valid_of_end hend)
  | cons _ htail ih =>
    cases i with
    | zero =>
      cases hc
      exact htail.getElem?_zero
    | succ i => exact ih hc

/-- The place of the index whose link is a mark is the last one. -/
theorem length_of_end {i : ℕ} (hc : l[i]? = some c) (hend : L.End (next c)) : l.length = i + 1 := by
  induction h generalizing i with
  | last _ _ =>
    obtain ⟨hlt, -⟩ := List.getElem?_eq_some_iff.mp hc
    exact congrArg (· + 1) (Nat.lt_one_iff.mp hlt).symm
  | cons _ htail ih =>
    cases i with
    | zero =>
      cases hc
      exact absurd htail.valid_start (L.not_valid_of_end hend)
    | succ i => exact congrArg (· + 1) (ih hc)

/-- An index is appended to a chain. -/
theorem append (ht : l.getLast? = some t) (hc : L.Valid c)
    (hkeep : ∀ x ∈ l, x ≠ t → next' x = next x) (hlink : next' t = c) (hend : L.End (next' c)) :
    L.Path next' s (l ++ [c]) := by
  induction h with
  | last hvalid hlast =>
    rename_i a
    have hat : a = t := Option.some.inj ht
    refine .cons hvalid ?_
    rw [hat, hlink]
    exact .last hc hend
  | cons hvalid htail ih =>
    rename_i a l
    obtain ⟨x, xs, rfl⟩ := exists_cons_of_ne_nil htail.ne_nil
    have ht' : (x :: xs).getLast? = some t := ht
    -- The first index is not the last one, since the chain does not come back.
    have hne : a ≠ t := by
      rintro rfl
      exact (nodup_cons.mp (Path.cons hvalid htail).nodup).1 (mem_of_getLast? ht')
    refine .cons hvalid ?_
    rw [hkeep a mem_cons_self hne]
    exact ih ht' fun y hy => hkeep y (mem_cons_of_mem _ hy)

end

end Path

/-! ### Changing a table -/

namespace WellFormed

/-- A free index is on no chain. -/
theorem notMem_of_null (hc : next c = L.null) (h : L.Path next s l) : c ∉ l :=
  fun hmem => h.next_ne_null hmem hc

/-- A chain that is not changed stays as it is. -/
theorem path_congr (h : L.WellFormed next S) (hs : s ∈ S)
    (hnext : ∀ l, L.Path next s l → ∀ x ∈ l, next' x = next x) :
    L.Path next' s l ↔ L.Path next s l := by
  obtain ⟨l0, h0⟩ := h.path s hs
  have h0' := h0.congr (hnext l0 h0)
  exact ⟨fun hl => hl.unique h0' ▸ h0, fun hl => hl.unique h0 ▸ h0'⟩

variable [DecidableEq α]

/-- **A free index becomes a chain.** -/
theorem create (h : L.WellFormed next S) (hc : L.Valid c) (hfree : next c = L.null)
    (hend : L.End v) : L.WellFormed (update next c v) (insert c S) := by
  have hkeep : ∀ s l, L.Path next s l → ∀ x ∈ l, update next c v x = next x := fun s l hl x hx =>
    update_of_ne (ne_of_mem_of_not_mem hx (notMem_of_null hfree hl)) ..
  have hnew : L.Path (update next c v) c [c] := by
    refine .last hc ?_
    rw [update_self]
    exact hend
  have hold : ∀ {s l}, s ∈ S → (L.Path (update next c v) s l ↔ L.Path next s l) :=
    fun hs => h.path_congr hs (hkeep _)
  refine ⟨?_, ?_, fun x hx hnull => ?_⟩
  · rintro s (rfl | hs)
    · exact ⟨_, hnew⟩
    · obtain ⟨l, hl⟩ := h.path s hs
      exact ⟨l, (hold hs).mpr hl⟩
  · rintro s (rfl | hs) t (rfl | ht) hst l l' hl hl'
    · exact absurd rfl hst
    · rw [hl.unique hnew, singleton_disjoint]
      exact notMem_of_null hfree ((hold ht).mp hl')
    · rw [hl'.unique hnew, disjoint_singleton]
      exact notMem_of_null hfree ((hold hs).mp hl)
    · exact h.disjoint s hs t ht hst l l' ((hold hs).mp hl) ((hold ht).mp hl')
  · rcases eq_or_ne x c with rfl | hxc
    · exact ⟨x, Set.mem_insert .., _, hnew, mem_cons_self⟩
    · rw [update_of_ne hxc] at hnull
      obtain ⟨s, hs, l, hl, hmem⟩ := h.covered x hx hnull
      exact ⟨s, Set.mem_insert_of_mem _ hs, l, (hold hs).mpr hl, hmem⟩

/-- **A free index is appended to a chain.** -/
theorem extend (h : L.WellFormed next S) (hs : s ∈ S) (hl : L.Path next s l)
    (ht : l.getLast? = some t) (hc : L.Valid c) (hfree : next c = L.null) (hend : L.End v) :
    L.WellFormed (update (update next c v) t c) S ∧
      L.Path (update (update next c v) t c) s (l ++ [c]) := by
  have htl : t ∈ l := mem_of_getLast? ht
  have hct : c ≠ t := (ne_of_mem_of_not_mem htl (notMem_of_null hfree hl)).symm
  have hkeep : ∀ s' ∈ S, s' ≠ s → ∀ l', L.Path next s' l' → ∀ x ∈ l',
      update (update next c v) t c x = next x := by
    intro s' hs' hne l' hl' x hx
    have hxt : x ≠ t := by
      rintro rfl
      exact h.disjoint s' hs' s hs hne l' l hl' hl hx htl
    rw [update_of_ne hxt, update_of_ne (ne_of_mem_of_not_mem hx (notMem_of_null hfree hl'))]
  have hpath : L.Path (update (update next c v) t c) s (l ++ [c]) := by
    refine hl.append ht hc (fun x hx hxt => ?_) (update_self ..) ?_
    · rw [update_of_ne hxt, update_of_ne (ne_of_mem_of_not_mem hx (notMem_of_null hfree hl))]
    · rw [update_of_ne hct, update_self]
      exact hend
  have hold : ∀ {s' l'}, s' ∈ S → s' ≠ s →
      (L.Path (update (update next c v) t c) s' l' ↔ L.Path next s' l') :=
    fun hs' hne => h.path_congr hs' (hkeep _ hs' hne)
  -- The longer chain has nothing in common with another one.
  have hapart : ∀ s' ∈ S, s' ≠ s → ∀ l', L.Path next s' l' → (l ++ [c]).Disjoint l' := by
    intro s' hs' hne l' hl'
    rw [disjoint_append_left, singleton_disjoint]
    exact ⟨h.disjoint s hs s' hs' hne.symm l l' hl hl', notMem_of_null hfree hl'⟩
  refine ⟨⟨fun s' hs' => ?_, fun s1 hs1 s2 hs2 hne l1 l2 hl1 hl2 => ?_, fun x hx hnull => ?_⟩,
      hpath⟩
  · rcases eq_or_ne s' s with rfl | hne
    · exact ⟨_, hpath⟩
    · obtain ⟨l', hl'⟩ := h.path s' hs'
      exact ⟨l', (hold hs' hne).mpr hl'⟩
  · rcases eq_or_ne s1 s with rfl | hne1
    · rw [hl1.unique hpath]
      exact hapart s2 hs2 hne.symm l2 ((hold hs2 hne.symm).mp hl2)
    · rcases eq_or_ne s2 s with rfl | hne2
      · rw [hl2.unique hpath]
        exact disjoint_symm (hapart s1 hs1 hne1 l1 ((hold hs1 hne1).mp hl1))
      · exact h.disjoint s1 hs1 s2 hs2 hne l1 l2 ((hold hs1 hne1).mp hl1) ((hold hs2 hne2).mp hl2)
  · rcases eq_or_ne x c with rfl | hxc
    · exact ⟨s, hs, _, hpath, mem_append_right _ mem_cons_self⟩
    rcases eq_or_ne x t with rfl | hxt
    · exact ⟨s, hs, _, hpath, mem_append_left _ htl⟩
    rw [update_of_ne hxt, update_of_ne hxc] at hnull
    obtain ⟨s', hs', l', hl', hmem⟩ := h.covered x hx hnull
    rcases eq_or_ne s' s with rfl | hne
    · rw [hl'.unique hl] at hmem
      exact ⟨s', hs', _, hpath, mem_append_left _ hmem⟩
    · exact ⟨s', hs', l', (hold hs' hne).mpr hl', hmem⟩

omit [DecidableEq α] in
/-- **A chain is set free.** -/
theorem remove (h : L.WellFormed next S) (hs : s ∈ S) (hl : L.Path next s l)
    (hfree : ∀ x ∈ l, next' x = L.null) (hkeep : ∀ x, L.Valid x → x ∉ l → next' x = next x) :
    L.WellFormed next' (S \ {s}) := by
  have hsame : ∀ s' ∈ S, s' ≠ s → ∀ l', L.Path next s' l' → ∀ x ∈ l', next' x = next x := by
    intro s' hs' hne l' hl' x hx
    exact hkeep x (hl'.valid hx) fun hmem => h.disjoint s' hs' s hs hne l' l hl' hl hx hmem
  have hold : ∀ {s' l'}, s' ∈ S → s' ≠ s → (L.Path next' s' l' ↔ L.Path next s' l') :=
    fun hs' hne => h.path_congr hs' (hsame _ hs' hne)
  refine ⟨?_, ?_, fun x hx hnull => ?_⟩
  · rintro s' ⟨hs', hne⟩
    obtain ⟨l', hl'⟩ := h.path s' hs'
    exact ⟨l', (hold hs' hne).mpr hl'⟩
  · rintro s1 ⟨hs1, hne1⟩ s2 ⟨hs2, hne2⟩ hne l1 l2 hl1 hl2
    exact h.disjoint s1 hs1 s2 hs2 hne l1 l2 ((hold hs1 hne1).mp hl1) ((hold hs2 hne2).mp hl2)
  have hxl : x ∉ l := fun hmem => hnull (hfree x hmem)
  rw [hkeep x hx hxl] at hnull
  obtain ⟨s', hs', l', hl', hmem⟩ := h.covered x hx hnull
  have hne : s' ≠ s := by
    rintro rfl
    exact hxl (hl'.unique hl ▸ hmem)
  exact ⟨s', ⟨hs', hne⟩, l', (hold hs' hne).mpr hl', hmem⟩

end WellFormed

end Links

end NuttX
