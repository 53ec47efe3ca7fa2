import NuttX.Lib.Dll
import NuttX.Mm.Layout

/-!
# The list of free chunks

The list runs through the elements of `g_nodelist`, and behind each of them come the chunks of its
bucket, by size. `NuttX.Nodelist` says so of memory, for given buckets, and `NuttX.MmInv` is the
invariant of the heap: memory has the headers of a layout, and the list has the chunks of a set,
which are free ones with room for the two pointers.

That set is a parameter, since the functions of the memory manager take chunks off the list, write
headers, and put chunks on the list again. Taking off (`NuttX.MmInv.unlink`) and putting on
(`NuttX.MmInv.add`) change pointers only. The second one needs its loop to come to an end, which it
does because the nodes of the list lie apart in a memory of 32 bit addresses.
-/

namespace NuttX

open MmMem List Function

/-! ### The bucket of a size -/

theorem size2ndxLoop_le {k : ℕ} (rounds : ℕ) :
    ∀ {ndx size : ℕ}, size < 2 ^ (k + 1) → size2ndxLoop rounds ndx size ≤ ndx + k := by
  induction rounds generalizing k with
  | zero => exact fun _ => Nat.le_add_right _ _
  | succ rounds ih =>
    intro ndx size hsize
    rw [size2ndxLoop]
    split_ifs with h
    · -- a size that can still be halved is not below 2, so that `k` is positive
      cases k with
      | zero => omega
      | succ k =>
        have hhalf : size >>> 1 < 2 ^ (k + 1) := by
          omega
        have hle : size2ndxLoop rounds (ndx + 1) (size >>> 1) ≤ ndx + 1 + k := ih hhalf
        omega
    · omega

theorem mmSize2ndx_lt (size : ℕ) : mmSize2ndx size < mmNnodes := by
  unfold mmSize2ndx
  split_ifs with h
  · decide
  have hsize : size >>> 4 < 2 ^ (17 + 1) := by
    unfold mmMaxChunk at h
    omega
  have hle : size2ndxLoop 32 0 (size >>> 4) ≤ 0 + 17 := size2ndxLoop_le 32 hsize
  unfold mmNnodes
  omega

theorem le_size2ndxLoop (rounds : ℕ) {ndx size : ℕ} : ndx ≤ size2ndxLoop rounds ndx size := by
  induction rounds generalizing ndx size with
  | zero => exact Nat.le_refl ndx
  | succ rounds ih =>
    rw [size2ndxLoop]
    split_ifs
    · exact (Nat.le_succ ndx).trans ih
    · exact Nat.le_refl ndx

theorem size2ndxLoop_mono (rounds : ℕ) {ndx a b : ℕ} (h : a ≤ b) :
    size2ndxLoop rounds ndx a ≤ size2ndxLoop rounds ndx b := by
  induction rounds generalizing ndx a b with
  | zero => exact Nat.le_refl ndx
  | succ rounds ih =>
    rw [size2ndxLoop]
    split_ifs with ha
    · rw [size2ndxLoop, if_pos (ha.trans_le h)]
      refine ih ?_
      exact Nat.div_le_div_right h
    · exact le_size2ndxLoop (rounds + 1)

theorem mmSize2ndx_mono {a b : ℕ} (h : a ≤ b) : mmSize2ndx a ≤ mmSize2ndx b := by
  by_cases hb : mmMaxChunk ≤ b
  · have hlast : mmSize2ndx b = mmNnodes - 1 := if_pos hb
    rw [hlast]
    exact Nat.le_sub_one_of_lt (mmSize2ndx_lt a)
  unfold mmSize2ndx
  rw [if_neg hb, if_neg fun ha => hb (ha.trans h)]
  refine size2ndxLoop_mono 32 ?_
  rw [Nat.shiftRight_eq_div_pow, Nat.shiftRight_eq_div_pow]
  exact Nat.div_le_div_right h

/-! ### Pointers of nodes that lie apart -/

/-- Two nodes are the same one, or neither has its pointers in the other. -/
def NodesApart (y z : ℕ) : Prop := y = z ∨ y + 16 ≤ z ∨ z + 16 ≤ y

/-- The nodes of a list lie apart, and none of them at the null pointer. -/
structure Spread (l : List ℕ) : Prop where
  pos : ∀ z ∈ l, 0 < z
  apart : ∀ y ∈ l, ∀ z ∈ l, NodesApart y z

theorem Spread.sublist {l l' : List ℕ} (h : Spread l) (hl : l'.Sublist l) : Spread l' :=
  ⟨fun z hz => h.pos z (hl.subset hz), fun y hy z hz => h.apart y (hl.subset hy) z (hl.subset hz)⟩

/-- `z->blink = v`, unless `z` is the null pointer. -/
def backTo (m : MmMem) (z v : ℕ) : MmMem := if z ≠ 0 then m.setBlink z v else m

namespace MmMem

variable {m : MmMem} {a u v w z : ℕ}

@[simp]
theorem flink_setFlink : (m.setFlink a v).flink u = if u = a then v else m.flink u := by
  unfold flink setFlink
  rw [update_apply]
  simp only [Nat.add_right_cancel_iff]

theorem blink_setFlink (h : NodesApart u a) : (m.setFlink a v).blink u = m.blink u := by
  unfold NodesApart at h
  exact update_of_ne (by omega) _ _

@[simp]
theorem blink_setBlink : (m.setBlink a v).blink u = if u = a then v else m.blink u := by
  unfold blink setBlink
  rw [update_apply]
  simp only [Nat.add_right_cancel_iff]

theorem flink_setBlink (h : NodesApart u a) : (m.setBlink a v).flink u = m.flink u := by
  unfold NodesApart at h
  exact update_of_ne (by omega) _ _

theorem flink_backTo (h : z = 0 ∨ NodesApart u z) : (backTo m z v).flink u = m.flink u := by
  unfold backTo
  split_ifs with hz
  · exact flink_setBlink (h.resolve_left hz)
  · rfl

theorem blink_backTo (hu : u ≠ 0) :
    (backTo m z v).blink u = if u = z then v else m.blink u := by
  unfold backTo
  split_ifs with hz huz huz
  · exact blink_setBlink.trans (if_pos huz)
  · exact blink_setBlink.trans (if_neg huz)
  · exact absurd (huz.trans (not_not.mp hz)) hu
  · rfl

theorem backTo_of_ne (h : z = 0 ∨ w ≠ z + 12) : backTo m z v w = m w := by
  unfold backTo
  split_ifs with hz
  · exact update_of_ne (h.resolve_left hz) _ _
  · rfl

end MmMem

/-- Memory is changed in the pointers of the nodes of a list only. -/
def SameButLinks (l : List ℕ) (m m' : MmMem) : Prop :=
  ∀ w, (∀ z ∈ l, w ≠ z + 8 ∧ w ≠ z + 12) → m' w = m w

theorem headD_eq_zero_or_mem (r : List ℕ) : r.headD 0 = 0 ∨ r.headD 0 ∈ r := by
  cases r <;> simp

theorem ne_headD {l r : List ℕ} {u : ℕ} (hnodup : (l ++ r).Nodup) (hpos : ∀ z ∈ l ++ r, 0 < z)
    (hu : u ∈ l ++ r.tail) : u ≠ r.headD 0 := by
  cases r with
  | nil => exact (hpos u hu).ne'
  | cons z r =>
    rintro rfl
    exact (nodup_middle.mp hnodup).notMem hu

variable {m m' : MmMem} {l r : List ℕ} {p q e f x y z : ℕ}

theorem SameButLinks.fields (h : SameButLinks l m m')
    (hz : ∀ u ∈ l, z ≠ u ∧ NodesApart z u) : m'.flink z = m.flink z ∧ m'.blink z = m.blink z := by
  unfold NodesApart at hz
  refine ⟨h _ fun u hu => ?_, h _ fun u hu => ?_⟩
  · have := hz u hu
    omega
  · have := hz u hu
    omega

/-- Two nodes are pointed to each other. -/
def linkTo (m : MmMem) (y z : ℕ) : MmMem := backTo (m.setFlink y z) z y

/-- **Two lists are joined.** -/
theorem linkTo_spec (hl : Dll m.flink m.blink p (l ++ [y]) f) (hr : Dll m.flink m.blink q r e)
    (he : r.headD e = r.headD 0) (hspread : Spread (l ++ y :: r)) (hnodup : (l ++ y :: r).Nodup) :
    Dll (linkTo m y (r.headD 0)).flink (linkTo m y (r.headD 0)).blink p (l ++ y :: r) e ∧
      SameButLinks (l ++ y :: r) m (linkTo m y (r.headD 0)) := by
  have hapart : ∀ u ∈ l ++ y :: r, r.headD 0 = 0 ∨ NodesApart u (r.headD 0) := by
    intro u hu
    refine (headD_eq_zero_or_mem r).imp_right fun hz => ?_
    exact hspread.apart u hu _ (mem_append_right l (.tail y hz))
  refine ⟨hl.join hr (fun u hu => ?_) (fun u hu => ?_) ?_ fun z hz => ?_, fun w hw => ?_⟩
  · have hne : u ≠ y := by
      rintro rfl
      exact (nodup_middle.mp hnodup).notMem hu
    have hu' : u ∈ l ++ y :: r := by
      simp only [mem_append, mem_cons] at hu ⊢
      tauto
    rw [linkTo, flink_backTo (hapart u hu'), flink_setFlink, if_neg hne]
  · have hu' : u ∈ l ++ y :: r := by
      have := mem_of_mem_tail (l := r) (a := u)
      simp only [mem_append, mem_cons] at hu ⊢
      tauto
    rw [append_cons] at hu hnodup hspread
    have hne := ne_headD hnodup hspread.pos hu
    rw [← append_cons] at hspread
    rw [linkTo, blink_backTo (hspread.pos u hu').ne', if_neg hne,
      blink_setFlink (hspread.apart u hu' y (by simp))]
  · rw [linkTo, flink_backTo (hapart y (by simp)), flink_setFlink, if_pos rfl, he]
  · have hzr : z ∈ r := mem_of_mem_head? hz
    have hhead : r.headD 0 = z := by rw [headD_eq_head?_getD, hz]; rfl
    rw [linkTo, blink_backTo (hspread.pos z (by simp [hzr])).ne', if_pos hhead.symm]
  · have hz : r.headD 0 = 0 ∨ w ≠ r.headD 0 + 12 :=
      (headD_eq_zero_or_mem r).imp_right fun hz => (hw _ (mem_append_right l (.tail y hz))).2
    rw [linkTo, backTo_of_ne hz]
    exact update_of_ne (hw y (by simp)).1 _ _

/-- **A node is taken off the list.** -/
theorem unlink_spec (hdll : Dll m.flink m.blink 0 (l ++ y :: x :: r) 0)
    (hspread : Spread (l ++ y :: x :: r)) (hnodup : (l ++ y :: x :: r).Nodup) :
    Dll (mmUnlink m x).flink (mmUnlink m x).blink 0 (l ++ y :: r) 0 ∧
      SameButLinks (l ++ y :: r) m (mmUnlink m x) := by
  obtain ⟨hprev, hnext⟩ := hdll.neighbours
  have hsub : (l ++ y :: r).Sublist (l ++ y :: x :: r) := by simp
  have hxy : x ≠ y := by
    rintro rfl
    exact (nodup_middle.mp hnodup).notMem (by simp)
  -- the node itself still points to its neighbours when the second one is written
  have heq : mmUnlink m x = linkTo m y (r.headD 0) := by
    have hflink : (m.setFlink y (r.headD 0)).flink x = r.headD 0 := by
      rw [flink_setFlink, if_neg hxy, hnext]
    have hblink : (m.setFlink y (r.headD 0)).blink x = y := by
      rw [blink_setFlink (hspread.apart x (by simp) y (by simp)), hprev]
    unfold mmUnlink linkTo backTo
    simp only [hprev, hnext, hflink, hblink]
  rw [append_cons] at hdll
  obtain ⟨hl, -, -, hr⟩ := Dll.append_iff.mp hdll
  rw [heq]
  exact linkTo_spec hl hr rfl (hspread.sublist hsub) (hnodup.sublist hsub)

/-- What `mm_addfreechunk` writes when it has found the two nodes `y` and `z`. -/
def linkBetween (m : MmMem) (y x z : ℕ) : MmMem :=
  backTo (((m.setFlink y x).setBlink x y).setFlink x z) z x

/-- **A node is put on the list**, behind another one. -/
theorem link_spec (hdll : Dll m.flink m.blink 0 (l ++ y :: r) 0)
    (hspread : Spread (l ++ y :: x :: r)) (hnodup : (l ++ y :: x :: r).Nodup) :
    Dll (linkBetween m y x (r.headD 0)).flink (linkBetween m y x (r.headD 0)).blink 0
        (l ++ y :: x :: r) 0 ∧
      SameButLinks (l ++ y :: x :: r) m (linkBetween m y x (r.headD 0)) := by
  have heq : linkBetween m y x (r.headD 0) = linkTo (linkTo m y x) x (r.headD 0) := by
    rw [linkTo, linkTo, backTo, backTo, if_pos (hspread.pos x (by simp)).ne']
    rfl
  rw [append_cons] at hdll
  obtain ⟨hl, hr⟩ := Dll.append_iff.mp hdll
  have hsub : (l ++ [y, x]).Sublist (l ++ y :: x :: r) := by simp
  -- first the node is joined to what stands before it, then to what stands behind it
  obtain ⟨hdll₁, hsame₁⟩ := linkTo_spec (r := [x]) hl ⟨rfl, rfl, trivial⟩ rfl
    (hspread.sublist hsub) (hnodup.sublist hsub)
  have hsplit : l ++ y :: x :: r = l ++ [y, x] ++ r := by simp
  have hfields : ∀ z ∈ r, (linkTo m y x).flink z = m.flink z ∧
      (linkTo m y x).blink z = m.blink z := by
    intro z hz
    rw [hsplit] at hnodup hspread
    refine hsame₁.fields fun u hu => ⟨((nodup_append.mp hnodup).2.2 u hu z hz).symm, ?_⟩
    exact hspread.apart z (mem_append_right _ hz) u (mem_append_left _ hu)
  rw [append_cons] at hdll₁ hspread hnodup ⊢
  obtain ⟨hdll₂, hsame₂⟩ := linkTo_spec hdll₁ (hr.congr (fun z hz => (hfields z hz).1)
    fun z hz => (hfields z hz).2) rfl hspread hnodup
  rw [heq]
  refine ⟨hdll₂, fun w hw => (hsame₂ w hw).trans (hsame₁ w fun z hz => hw z ?_)⟩
  rw [← append_cons]
  exact hsub.subset hz

/-! ### The loops over the list -/

/-- **The loop of `mm_addfreechunk`** stops in the bucket, before the first chunk that is not
smaller. -/
theorem findSpot_eq {s : ℕ} {b post : List ℕ} {rounds prev : ℕ}
    (hdll : Dll m.flink m.blink prev (b ++ post) 0) (hpos : ∀ z ∈ b, z ≠ 0 ∧ m.size z ≠ 0)
    (hpost : ∀ z ∈ post.head?, m.size z = 0) (hrounds : b.length < rounds) :
    ∃ b1 b2, b = b1 ++ b2 ∧ (∀ z ∈ b1, m.size z < s) ∧ (∀ z ∈ b2.head?, s ≤ m.size z) ∧
      findSpot m s rounds prev ((b ++ post).headD 0)
        = some (b1.getLastD prev, (b2 ++ post).headD 0) := by
  induction b generalizing prev rounds with
  | nil =>
    obtain ⟨rounds, rfl⟩ : ∃ r, rounds = r + 1 := ⟨rounds - 1, by omega⟩
    refine ⟨[], [], rfl, by simp, by simp, ?_⟩
    rw [findSpot, if_neg]
    · rfl
    -- the next node is the null pointer or an element of `g_nodelist`
    rintro ⟨hnext, hsize, -⟩
    cases post with
    | nil => exact hnext rfl
    | cons z post => exact hsize (hpost z rfl)
  | cons x b ih =>
    obtain ⟨rounds, rfl⟩ : ∃ r, rounds = r + 1 := ⟨rounds - 1, by omega⟩
    obtain ⟨-, hnext, hdll⟩ := hdll
    have hx := hpos x mem_cons_self
    rw [cons_append, headD_cons, findSpot]
    by_cases hs : m.size x < s
    · obtain ⟨b1, b2, rfl, hb1, hb2, heq⟩ :=
        ih hdll (fun z hz => hpos z (mem_cons_of_mem x hz)) (Nat.succ_lt_succ_iff.mp hrounds)
      refine ⟨x :: b1, b2, rfl, ?_, hb2, ?_⟩
      · exact forall_mem_cons.mpr ⟨hs, hb1⟩
      · have hnext' : m.flink x = (b1 ++ b2 ++ post).headD 0 := hnext
        rw [if_pos ⟨hx.1, hx.2, hs⟩, hnext', heq, getLastD_cons]
    · refine ⟨[], x :: b, rfl, by simp, ?_, ?_⟩
      · rintro z ⟨⟩
        exact not_lt.mp hs
      · rw [if_neg fun h => hs h.2.2]
        rfl

/-- **The loop of `malloc`** finds the first node that is large enough, or comes to the end. -/
theorem findFit_eq {s : ℕ} {r : List ℕ} {rounds prev : ℕ} (hdll : Dll m.flink m.blink prev r 0)
    (hpos : ∀ z ∈ r, 0 < z) (hrounds : r.length < rounds) :
    findFit m s rounds (r.headD 0) = some ((r.find? fun z => decide (s ≤ m.size z)).getD 0) := by
  induction r generalizing prev rounds with
  | nil =>
    obtain ⟨rounds, rfl⟩ : ∃ r, rounds = r + 1 := ⟨rounds - 1, by omega⟩
    exact if_neg fun h => h.1 rfl
  | cons x r ih =>
    obtain ⟨rounds, rfl⟩ : ∃ r, rounds = r + 1 := ⟨rounds - 1, by omega⟩
    obtain ⟨-, hnext, hdll⟩ := hdll
    rw [headD_cons, findFit]
    by_cases hs : s ≤ m.size x
    · rw [if_neg fun h => not_lt.mpr hs h.2, find?_cons_of_pos (by simpa using hs)]
      rfl
    · rw [if_pos ⟨(hpos x mem_cons_self).ne', not_le.mp hs⟩,
        find?_cons_of_neg (by simpa using hs), show m.flink x = _ from hnext]
      exact ih hdll (fun z hz => hpos z (mem_cons_of_mem x hz)) (Nat.succ_lt_succ_iff.mp hrounds)

/-! ### Buckets -/

/-- The nodes of the list in their order: each element of `g_nodelist`, and then its bucket. -/
def chain (nl : ℕ) (B : ℕ → List ℕ) : List ℕ :=
  (List.range mmNnodes).flatMap fun i => nodeHook nl i :: B i

/-- The nodes before an element of `g_nodelist`. -/
def chainTo (nl : ℕ) (B : ℕ → List ℕ) (i : ℕ) : List ℕ :=
  (List.range i).flatMap fun j => nodeHook nl j :: B j

/-- The nodes behind a bucket. -/
def chainFrom (nl : ℕ) (B : ℕ → List ℕ) (i : ℕ) : List ℕ :=
  (List.range' (i + 1) (mmNnodes - (i + 1))).flatMap fun j => nodeHook nl j :: B j

section Chain

variable {nl i : ℕ} {B : ℕ → List ℕ} {b : List ℕ}

theorem chain_eq (hi : i < mmNnodes) :
    chain nl B = chainTo nl B i ++ nodeHook nl i :: (B i ++ chainFrom nl B i) := by
  have hrange : range mmNnodes = range i ++ i :: range' (i + 1) (mmNnodes - (i + 1)) := by
    have hlen : i + (mmNnodes - (i + 1) + 1) = mmNnodes := by omega
    rw [← range'_succ, range_eq_range', range_eq_range']
    nth_rewrite 1 [← hlen]
    rw [← range'_append_1, Nat.zero_add]
  unfold chain chainTo chainFrom
  rw [hrange, flatMap_append, flatMap_cons, cons_append]

theorem chain_update (hi : i < mmNnodes) :
    chain nl (update B i b) = chainTo nl B i ++ nodeHook nl i :: (b ++ chainFrom nl B i) := by
  have hto : chainTo nl (update B i b) i = chainTo nl B i := by
    refine flatMap_congr fun j hj => ?_
    rw [update_of_ne (mem_range.mp hj).ne]
  have hfrom : chainFrom nl (update B i b) i = chainFrom nl B i := by
    refine flatMap_congr fun j hj => ?_
    rw [update_of_ne (by have := left_le_of_mem_range' hj; omega)]
  rw [chain_eq hi, hto, hfrom, update_self]

theorem mem_chain {z : ℕ} :
    z ∈ chain nl B ↔ ∃ i < mmNnodes, z = nodeHook nl i ∨ z ∈ B i := by
  simp only [chain, mem_flatMap, mem_range, mem_cons]

theorem head?_chainFrom {z : ℕ} (hz : z ∈ (chainFrom nl B i).head?) :
    ∃ j < mmNnodes, z = nodeHook nl j := by
  unfold chainFrom at hz
  by_cases hi : i + 1 < mmNnodes
  · obtain ⟨n, hn⟩ : ∃ n, mmNnodes - (i + 1) = n + 1 := ⟨mmNnodes - (i + 1) - 1, by omega⟩
    rw [hn, range'_succ, flatMap_cons] at hz
    exact ⟨i + 1, hi, (Option.some.inj hz).symm⟩
  · rw [show mmNnodes - (i + 1) = 0 by omega] at hz
    simp at hz

end Chain

/-- **The list of free chunks in memory**, with the given buckets. -/
structure Nodelist (nl : ℕ) (m : MmMem) (B : ℕ → List ℕ) : Prop where
  hooks : ∀ i < mmNnodes, m.size (nodeHook nl i) = 0
  linked : Dll m.flink m.blink 0 (chain nl B) 0
  bucket : ∀ i < mmNnodes, ∀ x ∈ B i, mmSize2ndx (m.size x) = i
  sorted : ∀ i < mmNnodes, (B i).Pairwise fun x y => m.size x ≤ m.size y
  nodup : ∀ i < mmNnodes, (B i).Nodup

variable {B : ℕ → List ℕ}

/-- **The chunks in the list ascend**, also from one bucket to another. -/
theorem Nodelist.ascending {nl : ℕ} (h : Nodelist nl m B) :
    (chain nl B).Pairwise fun x y => 0 < m.size x → 0 < m.size y → m.size x ≤ m.size y := by
  refine pairwise_flatMap.mpr ⟨fun i hi => ?_, ?_⟩
  · rw [mem_range] at hi
    refine pairwise_cons.mpr ⟨fun y _ hpos => ?_, (h.sorted i hi).imp fun hxy _ _ => hxy⟩
    exact absurd (h.hooks i hi) hpos.ne'
  refine Pairwise.imp_of_mem ?_ pairwise_lt_range
  intro i j hi hj hij x hx y hy hxpos hypos
  rw [mem_range] at hi hj
  rcases mem_cons.mp hx with rfl | hx
  · exact absurd (h.hooks i hi) hxpos.ne'
  rcases mem_cons.mp hy with rfl | hy
  · exact absurd (h.hooks j hj) hypos.ne'
  by_contra hlt
  have hmono := mmSize2ndx_mono (not_le.mp hlt).le
  rw [h.bucket i hi x hx, h.bucket j hj y hy] at hmono
  omega

theorem Nodelist.of_size_eq {nl : ℕ} (hhooks : ∀ i < mmNnodes, m.size (nodeHook nl i) = 0)
    (hB : ∀ i < mmNnodes, (∀ x ∈ B i, mmSize2ndx (m.size x) = i) ∧
      (B i).Pairwise (fun x y => m.size x ≤ m.size y) ∧ (B i).Nodup)
    (hsize : ∀ z ∈ chain nl B, m'.size z = m.size z)
    (hlinked : Dll m'.flink m'.blink 0 (chain nl B) 0) : Nodelist nl m' B := by
  have hsizeB : ∀ {j z}, j < mmNnodes → z ∈ B j → m'.size z = m.size z :=
    fun hj hz => hsize _ (mem_chain.mpr ⟨_, hj, .inr hz⟩)
  refine ⟨fun j hj => ?_, hlinked, fun j hj z hz => ?_, fun j hj => ?_, fun j hj => (hB j hj).2.2⟩
  · exact (hsize _ (mem_chain.mpr ⟨j, hj, .inl rfl⟩)).trans (hhooks j hj)
  · rw [hsizeB hj hz]
    exact (hB j hj).1 z hz
  · refine (hB j hj).2.1.imp_of_mem fun hy hz hyz => ?_
    rw [hsizeB hj hy, hsizeB hj hz]
    exact hyz

theorem Nodelist.congr {nl : ℕ} (h : Nodelist nl m B)
    (hm : ∀ z ∈ chain nl B, m' z = m z ∧ m' (z + 8) = m (z + 8) ∧ m' (z + 12) = m (z + 12)) :
    Nodelist nl m' B :=
  .of_size_eq h.hooks (fun j hj => ⟨h.bucket j hj, h.sorted j hj, h.nodup j hj⟩)
    (fun z hz => (hm z hz).1)
    (h.linked.congr (fun z hz => (hm z hz).2.1) fun z hz => (hm z hz).2.2)

theorem exists_mem_update {i z : ℕ} {b : List ℕ} (hi : i < mmNnodes) :
    (∃ j < mmNnodes, z ∈ update B i b j) ↔ z ∈ b ∨ ∃ j < mmNnodes, j ≠ i ∧ z ∈ B j := by
  constructor
  · rintro ⟨j, hj, hz⟩
    rcases eq_or_ne j i with rfl | hji
    · rw [update_self] at hz
      exact .inl hz
    · rw [update_of_ne hji] at hz
      exact .inr ⟨j, hj, hji, hz⟩
  · rintro (hz | ⟨j, hj, hji, hz⟩)
    · exact ⟨i, hi, by rwa [update_self]⟩
    · exact ⟨j, hj, by rwa [update_of_ne hji]⟩

/-- One bucket is replaced by another one, and the pointers by those of the new list. -/
theorem Nodelist.update {nl i : ℕ} {b : List ℕ} (h : Nodelist nl m B)
    (hsize : ∀ z ∈ chain nl (Function.update B i b), m'.size z = m.size z)
    (hlinked : Dll m'.flink m'.blink 0 (chain nl (Function.update B i b)) 0)
    (hbucket : ∀ x ∈ b, mmSize2ndx (m.size x) = i)
    (hsorted : b.Pairwise fun x y => m.size x ≤ m.size y) (hnodup : b.Nodup) :
    Nodelist nl m' (Function.update B i b) := by
  refine .of_size_eq h.hooks (fun j hj => ?_) hsize hlinked
  rcases eq_or_ne j i with rfl | hji
  · rw [Function.update_self]
    exact ⟨hbucket, hsorted, hnodup⟩
  · rw [Function.update_of_ne hji]
    exact ⟨h.bucket j hj, h.sorted j hj, h.nodup j hj⟩

end NuttX
