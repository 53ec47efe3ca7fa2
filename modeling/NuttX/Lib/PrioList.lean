import Mathlib

/-!
# Priority lists

A list of entries in non-increasing order of a priority, into which a new entry goes behind every
entry of its own priority or a higher one: first in, first out among equals.

`NuttX.Prio.insert` is one insertion. `NuttX.Prio.merge` inserts a whole sorted list in one pass,
each search starting where the last insertion ended; it fails when an entry would go to the very
end, which a list that ends in an entry below all others never lets happen
(`NuttX.Prio.exists_merge`).
-/

namespace NuttX

open List

namespace Prio

variable {α : Type*} (prio : α → ℕ)

/-- Non-increasing in priority. -/
def Desc (l : List α) : Prop := l.Pairwise fun a b => prio b ≤ prio a

/-- The entries that one of priority `p` goes behind. -/
def ahead (p : ℕ) (l : List α) : List α := l.takeWhile fun b => decide (p ≤ prio b)

/-- The entries that one of priority `p` goes in front of. -/
def behind (p : ℕ) (l : List α) : List α := l.dropWhile fun b => decide (p ≤ prio b)

/-- Insertion behind the entries of the same priority. -/
def insert (a : α) (l : List α) : List α := ahead prio (prio a) l ++ a :: behind prio (prio a) l

/-- Insertion of the entries of a list one after the other, the part `done` having been passed;
`none` when an entry finds nothing to go in front of. -/
def merge : List α → List α → List α → Option (List α)
  | [], done, rest => some (done ++ rest)
  | a :: new, done, rest =>
    match behind prio (prio a) rest with
    | [] => none
    | b :: rest' => merge new (done ++ ahead prio (prio a) rest) (a :: b :: rest')

variable {prio} {p : ℕ} {a b : α} {l new done rest : List α}

theorem ahead_append_behind : ahead prio p l ++ behind prio p l = l :=
  takeWhile_append_dropWhile

theorem le_of_mem_ahead (h : b ∈ ahead prio p l) : p ≤ prio b := by
  exact of_decide_eq_true (mem_takeWhile_imp h :)

theorem lt_of_behind_eq_cons (h : behind prio p l = b :: rest) : prio b < p := by
  have hb : decide (p ≤ prio b) = false := by
    have := head?_dropWhile_not (fun b => decide (p ≤ prio b)) l
    rw [show l.dropWhile (fun b => decide (p ≤ prio b)) = b :: rest from h] at this
    simpa using this
  simpa using hb

@[simp] theorem ahead_cons_of_lt (h : prio b < p) : ahead prio p (b :: l) = [] := by
  simp [ahead, h]

theorem ahead_cons_ne_nil (h : p ≤ prio b) : ahead prio p (b :: l) ≠ [] := by
  simp [ahead, h]

theorem insert_cons_of_lt (h : prio b < prio a) : insert prio a (b :: l) = a :: b :: l := by
  simp [insert, ahead, behind, h]

/-! ### Sorted lists -/

theorem Desc.congr {prio' : α → ℕ} (h : Desc prio l) (heq : ∀ c ∈ l, prio' c = prio c) :
    Desc prio' l := by
  refine Pairwise.imp_of_mem (fun {c d} hc hd hcd => ?_) h
  rw [heq c hc, heq d hd]
  exact hcd

theorem Desc.sublist {l' : List α} (h : Desc prio l) (hs : l'.Sublist l) : Desc prio l' :=
  Pairwise.sublist hs h

theorem Desc.lt_of_mem_behind (h : Desc prio l) (hb : b ∈ behind prio p l) : prio b < p := by
  cases hl : behind prio p l with
  | nil => rw [hl] at hb; cases hb
  | cons c rest =>
    have hlt := lt_of_behind_eq_cons hl
    have hdesc : Desc prio (c :: rest) := hl ▸ h.sublist (dropWhile_sublist _)
    rw [hl] at hb
    rcases mem_cons.mp hb with rfl | hb
    · exact hlt
    · exact lt_of_le_of_lt ((pairwise_cons.mp hdesc).1 b hb) hlt

/-! ### One insertion -/

theorem insert_perm : (insert prio a l).Perm (a :: l) := by
  have h : (a :: (ahead prio (prio a) l ++ behind prio (prio a) l)).Perm (insert prio a l) :=
    perm_middle.symm
  rw [ahead_append_behind] at h
  exact h.symm

@[simp] theorem mem_insert : b ∈ insert prio a l ↔ b = a ∨ b ∈ l := by
  rw [insert_perm.mem_iff, mem_cons]

theorem insert_ne_nil : insert prio a l ≠ [] := by
  simp [insert]

/-- Inserting into a sorted list keeps an order that agrees with the priorities. -/
theorem Desc.pairwise_insert {R : α → α → Prop} (h : Desc prio l) (hl : l.Pairwise R)
    (hahead : ∀ b ∈ l, prio a ≤ prio b → R b a) (hbehind : ∀ b ∈ l, prio b < prio a → R a b) :
    (Prio.insert prio a l).Pairwise R := by
  have hsplit : ∀ b, b ∈ l ↔ b ∈ ahead prio (prio a) l ∨ b ∈ behind prio (prio a) l := by
    intro b
    rw [← mem_append, ahead_append_behind]
  have hl' : (ahead prio (prio a) l ++ behind prio (prio a) l).Pairwise R := by
    rw [ahead_append_behind]
    exact hl
  rw [pairwise_append] at hl'
  rw [Prio.insert, pairwise_append, pairwise_cons]
  refine ⟨hl'.1, ⟨fun b hb => ?_, hl'.2.1⟩, fun b hb c hc => ?_⟩
  · exact hbehind b ((hsplit b).mpr (Or.inr hb)) (h.lt_of_mem_behind hb)
  · rcases mem_cons.mp hc with rfl | hc
    · exact hahead b ((hsplit b).mpr (Or.inl hb)) (le_of_mem_ahead hb)
    · exact hl'.2.2 b hb c hc

theorem Desc.insert (h : Desc prio l) : Desc prio (insert prio a l) :=
  h.pairwise_insert h (fun _ _ hle => hle) fun _ _ hlt => hlt.le

theorem head?_insert :
    (insert prio a l).head? = if ahead prio (prio a) l = [] then some a else l.head? := by
  cases l with
  | nil => simp [insert, ahead, behind]
  | cons c l =>
    by_cases hc : prio a ≤ prio c
    · simp [insert, ahead, hc]
    · simp [insert, ahead, hc]

/-- Inserted in front of something, an entry does not become the last one. -/
theorem getLast?_insert (h : behind prio (prio a) l ≠ []) :
    (insert prio a l).getLast? = l.getLast? := by
  obtain ⟨b, rest, hb⟩ := exists_cons_of_ne_nil h
  have hl : l = ahead prio (prio a) l ++ b :: rest := by
    rw [← hb, ahead_append_behind]
  conv_rhs => rw [hl]
  rw [insert, hb, getLast?_append, getLast?_append, getLast?_cons_cons]

theorem mem_behind (hb : b ∈ l) (hlt : prio b < p) : b ∈ behind prio p l := by
  rw [← ahead_append_behind (p := p) (l := l)] at hb
  refine (mem_append.mp hb).resolve_left fun hm => ?_
  have := le_of_mem_ahead hm
  omega

theorem behind_ne_nil (hb : b ∈ l) (hlt : prio b < p) : behind prio p l ≠ [] :=
  ne_nil_of_mem (mem_behind hb hlt)

theorem ahead_append (h : ∀ c ∈ done, p ≤ prio c) :
    ahead prio p (done ++ rest) = done ++ ahead prio p rest :=
  takeWhile_append_of_pos fun c hc => decide_eq_true (h c hc)

/-- The place of an entry is behind those that it does not pass. -/
theorem insert_append (h : ∀ c ∈ done, prio a ≤ prio c) :
    insert prio a (done ++ rest) = done ++ insert prio a rest := by
  rw [insert, insert, ahead_append h, behind,
    dropWhile_append_of_pos fun c hc => decide_eq_true (h c hc), append_assoc]
  rfl

/-- **First in, first out**: among the entries of its priority a new one is the last. -/
theorem Desc.filter_insert (h : Desc prio l) (p : ℕ) :
    (Prio.insert prio a l).filter (prio · = p) =
      l.filter (prio · = p) ++ [a].filter (prio · = p) := by
  have hsplit : l.filter (prio · = p) = (ahead prio (prio a) l).filter (prio · = p) ++
      (behind prio (prio a) l).filter (prio · = p) := by
    rw [← filter_append, ahead_append_behind]
  rw [hsplit, Prio.insert, filter_append, ← singleton_append, filter_append, append_assoc]
  congr 1
  by_cases hp : prio a = p
  · have hnil : (behind prio (prio a) l).filter (prio · = p) = [] :=
      filter_eq_nil_iff.mpr fun b hb => by
        have := h.lt_of_mem_behind hb
        simp only [decide_eq_true_eq]
        omega
    rw [hnil, append_nil, nil_append]
  · rw [filter_cons_of_neg (by simpa using hp), filter_nil, nil_append, append_nil]

theorem Desc.filter_foldl_insert (h : Desc prio l) (p : ℕ) :
    (new.foldl (fun l a => Prio.insert prio a l) l).filter (prio · = p) =
      l.filter (prio · = p) ++ new.filter (prio · = p) := by
  induction new generalizing l with
  | nil => simp
  | cons a new ih =>
    rw [foldl_cons, ih h.insert, h.filter_insert, append_assoc, ← filter_append]
    rfl

/-! ### Inserting a whole list -/

theorem merge_cons (h : behind prio (prio a) rest = b :: l) :
    merge prio (a :: new) done rest =
      merge prio new (done ++ ahead prio (prio a) rest) (a :: b :: l) := by
  rw [merge, h]

theorem append_insert_perm :
    (done ++ insert prio a rest).Perm (a :: (done ++ rest)) :=
  (Perm.append_left done insert_perm).trans perm_middle

theorem merge_perm (h : merge prio new done rest = some l) : l.Perm (new ++ (done ++ rest)) := by
  fun_induction merge prio new done rest with
  | case1 done rest =>
    cases h
    exact Perm.refl _
  | case2 => cases h
  | case3 a new done rest b rest' hb ih =>
    refine (ih h).trans ?_
    rw [append_assoc, ← hb]
    exact (Perm.append_left new append_insert_perm).trans perm_middle

/-- **Merging two sorted lists gives a sorted list.** What has been passed is above all that is
still to come. -/
theorem Desc.merge (hnew : Desc prio new) (hl : Desc prio (done ++ rest))
    (habove : ∀ c ∈ done, ∀ a ∈ new, prio a ≤ prio c)
    (h : Prio.merge prio new done rest = some l) : Desc prio l := by
  fun_induction Prio.merge prio new done rest with
  | case1 done rest =>
    cases h
    exact hl
  | case2 => cases h
  | case3 a new done rest b rest' hb ih =>
    obtain ⟨hd, hr, hdr⟩ := pairwise_append.mp hl
    obtain ⟨hfirst, hnew'⟩ := pairwise_cons.mp hnew
    refine ih hnew' ?_ ?_ h
    · rw [append_assoc, ← hb]
      refine pairwise_append.mpr ⟨hd, Desc.insert hr, fun c hc d hdm => ?_⟩
      rcases mem_insert.mp hdm with rfl | hdm
      · exact habove c hc d (by simp)
      · exact hdr c hc d hdm
    · intro c hc e he
      rcases mem_append.mp hc with hc | hc
      · exact habove c hc e (by simp [he])
      · exact (hfirst e he).trans (le_of_mem_ahead hc)

theorem getLast?_merge (h : merge prio new done rest = some l) (hne : rest ≠ []) :
    l.getLast? = rest.getLast? := by
  fun_induction merge prio new done rest with
  | case1 done rest =>
    cases h
    rw [getLast?_append, getLast?_eq_some_getLast hne]
    rfl
  | case2 => cases h
  | case3 a new done rest b rest' hb ih =>
    rw [ih h (by simp), getLast?_cons_cons, ← hb]
    have hl : rest = ahead prio (prio a) rest ++ b :: rest' := by
      rw [← hb, ahead_append_behind]
    conv_rhs => rw [hl]
    rw [getLast?_append, hb, getLast?_cons]
    rfl

/-- A list that ends in an entry below all new ones takes them all. -/
theorem exists_merge : ∀ {new done rest : List α}, (∃ b ∈ rest, ∀ a ∈ new, prio b < prio a) →
    ∃ l, merge prio new done rest = some l
  | [], done, rest, _ => ⟨done ++ rest, rfl⟩
  | a :: new, done, rest, ⟨b, hbm, hlt⟩ => by
    obtain ⟨c, rest', hc⟩ := exists_cons_of_ne_nil (behind_ne_nil hbm (hlt a (by simp)))
    have hmem : b ∈ c :: rest' := hc ▸ mem_behind hbm (hlt a (by simp))
    rw [merge_cons hc]
    exact exists_merge ⟨b, mem_cons_of_mem a hmem, fun e he => hlt e (by simp [he])⟩

end Prio

end NuttX
