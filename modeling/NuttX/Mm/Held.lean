import NuttX.Mm.Invariant

/-!
# The heap in the middle of a function

Between two calls the heap is whole (`NuttX.HeapWhole`): every free chunk is in the list. In the
middle of a function of the memory manager some chunks are *held* (`NuttX.Held`): those in the gap
of an `NuttX.MmCtx` are not in the list, and all other free ones are. A free neighbour of the gap
can be taken into it (`NuttX.Held.takeNext`, `NuttX.Held.takePrev`), the chunks in it can be written
anew (`NuttX.Held.retile`), and a free chunk at one end of the gap can be put outside
(`NuttX.Held.giveNext`, `NuttX.Held.givePrev`). When no free chunk is left in the gap, the heap is
whole again (`NuttX.Held.whole`). Every function of the memory manager is a sequence of these steps.
-/

namespace NuttX

open Function MmMem MmLayout MmCtx

/-! ### The free chunks outside of a gap -/

namespace MmCtx

variable {nl : ℕ} {k : MmCtx} {mid : List Chunk} {x n t : ℕ} {c : Chunk}

theorem outerFree_pushRight :
    (k.pushRight ⟨t, false⟩).outerFree n = insert (k.addr + n) (k.outerFree (n + t)) := by
  ext x
  simp [outerFree, mem_outer_pushRight, or_and_right, exists_or]

theorem outerFree_pushLeft :
    (k.pushLeft ⟨t, false⟩).outerFree n = insert k.addr (k.outerFree (t + n)) := by
  ext x
  simp [outerFree, mem_outer_pushLeft, or_and_right, exists_or]

theorem notMem_outerFree (h : (k.fill mid).Sound nl) (hx : (x, c) ∈ place Chunk.size k.addr mid) :
    x ∉ k.outerFree (extent Chunk.size mid) := by
  rintro ⟨d, hd, -⟩
  exact outer_ne h hx hd rfl

theorem freeSet_fill (hmid : ∀ c ∈ mid, c.used = true) :
    (k.fill mid).freeSet = k.outerFree (extent Chunk.size mid) := by
  ext x
  simp only [freeSet, outerFree, Set.mem_ofPred_eq, mem_bodies_fill]
  constructor
  · rintro ⟨c, hc | hc, hfree⟩
    · exact ⟨c, hc, hfree⟩
    · rw [hmid c (mem_of_mem_place hc)] at hfree
      cases hfree
  · rintro ⟨c, hc, hfree⟩
    exact ⟨c, .inl hc, hfree⟩

end MmCtx

/-! ### Held chunks -/

/-- **The heap between two calls**: every free chunk is in the list. -/
def HeapWhole (nl : ℕ) (m : MmMem) (L : MmLayout) : Prop := MmInv nl m L L.freeSet

/-- **The heap in the middle of a function**: the free chunks outside of a gap are in the list. -/
def Held (nl : ℕ) (m : MmMem) (k : MmCtx) (mid : List Chunk) : Prop :=
  MmInv nl m (k.fill mid) (k.outerFree (extent Chunk.size mid))

variable {nl : ℕ} {m m' : MmMem} {k : MmCtx} {mid mid' : List Chunk} {s t : ℕ}

theorem HeapWhole.held (h : HeapWhole nl m (k.fill mid)) (hmid : ∀ c ∈ mid, c.used = true) :
    Held nl m k mid := by
  unfold Held
  rw [← freeSet_fill hmid]
  exact h

namespace Held

theorem whole (h : Held nl m k mid) (hmid : ∀ c ∈ mid, c.used = true) :
    HeapWhole nl m (k.fill mid) := by
  unfold HeapWhole
  rw [freeSet_fill hmid]
  exact h

/-- A free chunk in the gap is taken off the list. -/
theorem take {x : ℕ} {c : Chunk} (hx : (x, c) ∈ place Chunk.size k.addr mid)
    (h : MmInv nl m (k.fill mid) (insert x (k.outerFree (extent Chunk.size mid)))) :
    Held nl (mmUnlink m x) k mid := by
  have hunlink := h.unlink (Set.mem_insert _ _)
  rwa [Set.insert_sdiff_self_of_notMem (notMem_outerFree h.sound hx)] at hunlink

theorem takeNext (h : Held nl m (k.pushRight ⟨t, false⟩) mid) :
    Held nl (mmUnlink m (k.addr + extent Chunk.size mid)) k (mid ++ [⟨t, false⟩]) := by
  unfold Held at h
  rw [fill_pushRight, outerFree_pushRight] at h
  exact take (c := ⟨t, false⟩) (by simp) (by simpa using h)

theorem takePrev (h : Held nl m (k.pushLeft ⟨t, false⟩) mid) :
    Held nl (mmUnlink m k.addr) k (⟨t, false⟩ :: mid) := by
  unfold Held at h
  rw [fill_pushLeft, outerFree_pushLeft] at h
  exact take (c := ⟨t, false⟩) (by simp) (by simpa using h)

/-- A free chunk in the gap is put on the list. -/
theorem give {x : ℕ} (h : Held nl m k mid) (hs : sizeofFreenode ≤ s)
    (hx : (x, (⟨s, false⟩ : Chunk)) ∈ place Chunk.size k.addr mid) :
    ∃ m', mmAddfreechunk nl m x = some m' ∧
      MmInv nl m' (k.fill mid) (insert x (k.outerFree (extent Chunk.size mid))) :=
  h.add (mem_bodies_fill.mpr (.inr hx)) hs (notMem_outerFree h.sound hx)

theorem giveNext (h : Held nl m k (mid ++ [⟨s, false⟩])) (hs : sizeofFreenode ≤ s) :
    ∃ m', mmAddfreechunk nl m (k.addr + extent Chunk.size mid) = some m' ∧
      Held nl m' (k.pushRight ⟨s, false⟩) mid := by
  unfold Held
  rw [fill_pushRight, outerFree_pushRight]
  simpa using h.give hs (x := k.addr + extent Chunk.size mid) (by simp)

theorem givePrev (h : Held nl m k (⟨s, false⟩ :: mid)) (hs : sizeofFreenode ≤ s) :
    ∃ m', mmAddfreechunk nl m k.addr = some m' ∧ Held nl m' (k.pushLeft ⟨s, false⟩) mid := by
  unfold Held
  rw [fill_pushLeft, outerFree_pushLeft]
  simpa using h.give hs (x := k.addr) (by simp)

/-- **The chunks in the gap are written anew.** -/
theorem retile (h : Held nl m k mid) (hext : extent Chunk.size mid' = extent Chunk.size mid)
    (hroom : ∀ c ∈ mid', sizeofAllocnode ≤ c.size ∧ 8 ∣ c.size)
    (hm : ∀ w, (w < k.addr ∨ k.addr + extent Chunk.size mid ≤ w) →
      w ≠ k.addr + extent Chunk.size mid + 4 → m' w = m w)
    (hheaders : Headers m' k.addr k.prev.size mid')
    (hnext : m'.preceding (k.addr + extent Chunk.size mid)
      = mark (lastSize k.prev.size mid') k.next.used) : Held nl m' k mid' := by
  unfold Held
  rw [hext]
  refine MmInv.retile h ?_ hext (fun c hc => (hroom c hc).1) (fun c hc => (hroom c hc).2) hm
    hheaders hnext
  rintro x ⟨c, hc, -⟩
  exact ⟨c, hc⟩

/-! ### What a function reads around the gap -/

section

variable (h : Held nl m k mid)

include h

theorem headers : Headers m k.addr k.prev.size mid :=
  (headers_iff.mp (MmInv.headers h _ region_mem_fill)).2.1

theorem size_next : m.size (k.addr + extent Chunk.size mid) = k.next.size :=
  (headers_iff.mp (MmInv.headers h _ region_mem_fill)).2.2.1

theorem preceding_next :
    m.preceding (k.addr + extent Chunk.size mid) = mark (lastSize k.prev.size mid) k.next.used :=
  (headers_iff.mp (MmInv.headers h _ region_mem_fill)).2.2.2.1

theorem small : k.prev.size + extent Chunk.size mid + k.next.size < mmAllocBit := by
  have hsmall := (h.sound.fits _ region_mem_fill).small
  have hprev : k.prev.size ≤ sizeofAllocnode + extent Chunk.size k.left := by
    rcases List.eq_nil_or_concat k.left with hl | ⟨l, c, hl⟩
    · simp [prev, hl, Chunk.guard]
    · simp only [prev, hl, List.concat_eq_append, List.getLastD_concat, extent_append, extent_cons]
      omega
  have hnext : k.next.size ≤ extent Chunk.size k.right + sizeofAllocnode := by
    cases hr : k.right with
    | nil => simp [next, hr, Chunk.guard]
    | cons c r =>
      simp only [next, hr, List.headD_cons, extent_cons]
      omega
  simp only [region, extent_append] at hsmall
  omega

theorem room : ∀ c ∈ mid, sizeofAllocnode ≤ c.size ∧ 8 ∣ c.size := by
  have hfits := h.sound.fits _ region_mem_fill
  exact fun c hc => ⟨(forall_mem_region.mp hfits.room).2.1 c hc,
    (forall_mem_region.mp hfits.dvd).2.1 c hc⟩

theorem addr_bounds : 8 ∣ k.addr ∧ k.addr + extent Chunk.size mid + 8 ≤ 0x100000000 := by
  have hfits := h.sound.fits _ region_mem_fill
  refine ⟨?_, (region_bounds k mid).2.trans hfits.space⟩
  have hleft : 8 ∣ extent Chunk.size k.left :=
    dvd_extent (forall_mem_region.mp hfits.dvd).1
  exact Nat.dvd_add (Nat.dvd_add hfits.aligned (Nat.dvd_refl 8)) hleft

end

theorem one {u : Bool} (h : Held nl m k [⟨s, u⟩]) :
    m.size k.addr = s ∧ m.preceding k.addr = mark k.prev.size u ∧
      m.preceding (k.addr + s) = mark s k.next.used ∧ m.size (k.addr + s) = k.next.size ∧
      k.prev.size + s + k.next.size < mmAllocBit ∧ 8 ≤ s ∧ 8 ∣ s := by
  obtain ⟨hsize, hprec, -⟩ := h.headers
  have hroom := h.room _ List.mem_cons_self
  exact ⟨hsize, hprec, by simpa using h.preceding_next, by simpa using h.size_next,
    by simpa using h.small, hroom.1, hroom.2⟩

theorem two {u v : Bool} (h : Held nl m k [⟨s, u⟩, ⟨t, v⟩]) :
    m.size k.addr = s ∧ m.preceding k.addr = mark k.prev.size u ∧
      m.size (k.addr + s) = t ∧ m.preceding (k.addr + s) = mark s v ∧
      m.preceding (k.addr + (s + t)) = mark t k.next.used ∧
      k.prev.size + (s + t) + k.next.size < mmAllocBit ∧ (8 ≤ s ∧ 8 ∣ s) ∧ 8 ≤ t ∧ 8 ∣ t := by
  obtain ⟨hsize1, hprec1, hsize2, hprec2, -⟩ := h.headers
  exact ⟨hsize1, hprec1, hsize2, hprec2, by simpa using h.preceding_next, by simpa using h.small,
    h.room ⟨s, u⟩ (by simp), h.room ⟨t, v⟩ (by simp)⟩

/-- The free chunk behind a chunk is taken off the list. -/
theorem takeNext_one {u : Bool} (h : Held nl m (k.pushRight ⟨t, false⟩) [⟨s, u⟩]) :
    ∃ m1, m1 = mmUnlink m (k.addr + s) ∧ m.size k.addr = s ∧
      m.preceding (k.addr + s) = mark s false ∧ m.size (k.addr + s) = t ∧
      Held nl m1 k [⟨s, u⟩, ⟨t, false⟩] := by
  obtain ⟨hsize, -, hnext, hnsize, -⟩ := h.one
  have htake := h.takeNext
  exact ⟨_, rfl, hsize, hnext, hnsize, htake⟩

theorem size_prev (h : Held nl m (k.pushLeft ⟨t, false⟩) mid) : m.size k.addr = t := by
  have hmem : (k.addr, (⟨t, false⟩ : Chunk)) ∈ ((k.pushLeft ⟨t, false⟩).fill mid).bodies :=
    mem_bodies_fill.mpr (.inl (mem_outer_pushLeft.mpr (.inl rfl)))
  exact MmInv.size_eq h (mem_placed_of_mem_bodies hmem)

/-- The free chunk before a chunk is taken off the list. -/
theorem takePrev_one {u : Bool} (h : Held nl m (k.pushLeft ⟨t, false⟩) [⟨s, u⟩]) :
    ∃ m1, m1 = mmUnlink m k.addr ∧ m.size k.addr = t ∧ m.size (k.addr + t) = s ∧
      Held nl m1 k [⟨t, false⟩, ⟨s, u⟩] := by
  have hsize := h.one.1
  rw [addr_pushLeft] at hsize
  exact ⟨_, rfl, h.size_prev, hsize, h.takePrev⟩

theorem room_outer (h : Held nl m k mid) {x : ℕ} {c : Chunk}
    (hx : (x, c) ∈ k.outer (extent Chunk.size mid)) (hfree : c.used = false) :
    sizeofFreenode ≤ c.size := by
  obtain ⟨s, hs, hxs⟩ := h.listed x ⟨c, hx, hfree⟩
  obtain rfl := h.sound.bodies_unique hxs (mem_bodies_fill.mpr (.inl hx))
  exact hs

theorem room_next (h : Held nl m (k.pushRight ⟨t, false⟩) mid) : sizeofFreenode ≤ t :=
  h.room_outer (mem_outer_pushRight.mpr (.inl rfl)) rfl

theorem room_prev (h : Held nl m (k.pushLeft ⟨t, false⟩) mid) : sizeofFreenode ≤ t :=
  h.room_outer (mem_outer_pushLeft.mpr (.inl rfl)) rfl

/-- **The free neighbours of the gap.** -/
theorem eq_pads (h : Held nl m k mid) :
    ∃ k' : MmCtx, k = (k'.padLeft k.prev.freeSize).padRight k.next.freeSize ∧
      (k.prev.freeSize = 0 → k'.prev.used = true) ∧
      (k.next.freeSize = 0 → k'.next.used = true) := by
  obtain ⟨k1, hk1, hnext⟩ := k.eq_padRight fun hused => by
    obtain ⟨k', t, rfl⟩ := k.eq_pushRight hused
    exact lt_of_lt_of_le (by decide) h.room_next
  have hprev1 : k1.prev = k.prev := by rw [hk1, prev_padRight]
  obtain ⟨k2, hk2, hprev⟩ := k1.eq_padLeft fun hused => by
    rw [hprev1] at hused ⊢
    obtain ⟨k', t, rfl⟩ := k.eq_pushLeft hused
    rw [prev_pushLeft]
    exact lt_of_lt_of_le (by decide) h.room_prev
  rw [hprev1] at hk2 hprev
  have hnext1 : k1.next = k2.next := by rw [hk2, next_padLeft]
  refine ⟨k2, by rw [← hk2, ← hk1], hprev, fun hzero => ?_⟩
  rw [← hnext1]
  exact hnext hzero

theorem preceding_prev (h : Held nl m k mid) :
    ∃ q < mmAllocBit, m.preceding (k.addr - k.prev.size) = mark q k.prev.used := by
  have hleft := (headers_iff.mp (MmInv.headers h _ region_mem_fill)).1
  have hsmall := (h.sound.fits _ region_mem_fill).small
  simp only [region, extent_append] at hsmall
  obtain ⟨-, hguard, hleft⟩ := hleft
  rcases List.eq_nil_or_concat k.left with hl | ⟨l, c, hl⟩
  · have haddr : k.addr - k.prev.size = k.base := by
      simp [addr, prev, hl, Chunk.guard]
    have hused : k.prev.used = true := by simp [prev, hl, Chunk.guard]
    rw [haddr, hused]
    exact ⟨0, by decide, hguard⟩
  rw [List.concat_eq_append] at hl
  have hprev : k.prev = c := by simp [prev, hl]
  have haddr : k.addr - c.size = k.base + sizeofAllocnode + extent Chunk.size l := by
    simp only [addr, hl, extent_append, extent_cons, extent_nil]
    omega
  rw [hl] at hleft hsmall
  obtain ⟨-, -, hc, -⟩ := Headers.append_iff.mp hleft
  rw [hprev, haddr]
  refine ⟨_, ?_, hc⟩
  have hle : lastSize Chunk.guard.size l ≤ sizeofAllocnode + extent Chunk.size l :=
    lastSize_le _ l
  rw [extent_append] at hsmall
  omega

end Held

/-! ### Writing the headers of chunks -/

namespace MmMem

variable {m : MmMem} {a b n t v w z : ℕ}

theorem setSize_of_ne (h : w ≠ a) : m.setSize a v w = m w :=
  update_of_ne h _ _

theorem setPreceding_of_ne (h : w ≠ a + 4) : m.setPreceding a v w = m w :=
  update_of_ne h _ _

@[simp]
theorem size_setSize_self : (m.setSize a v).size a = v :=
  update_self _ _ _

@[simp]
theorem preceding_setPreceding_self : (m.setPreceding a v).preceding a = v :=
  update_self _ _ _

theorem size_setSize (h : b ≠ a) : (m.setSize a v).size b = m.size b :=
  setSize_of_ne h

theorem preceding_setSize (h : b + 4 ≠ a) : (m.setSize a v).preceding b = m.preceding b :=
  setSize_of_ne h

theorem size_setPreceding (h : b ≠ a + 4) : (m.setPreceding a v).size b = m.size b :=
  setPreceding_of_ne h

theorem preceding_setPreceding (h : b ≠ a) : (m.setPreceding a v).preceding b = m.preceding b :=
  setPreceding_of_ne (by omega)

/-- The header of a chunk of size `n` at `a` and the header behind it, of a chunk of size `t`. -/
def cut (m : MmMem) (a n t e : ℕ) : MmMem :=
  ((m.setSize (a + n) t).setPreceding (a + n) e).setSize a n

theorem size_cut (hn : 0 < n) {e : ℕ} : (m.cut a n t e).size (a + n) = t := by
  unfold cut
  rw [size_setSize (by omega), size_setPreceding (by omega), size_setSize_self]

theorem preceding_cut (hz : n + 8 ≤ z) {e : ℕ} :
    (m.cut a n t e).preceding (a + z) = m.preceding (a + z) := by
  unfold cut
  rw [preceding_setSize (by omega), preceding_setPreceding (by omega), preceding_setSize (by omega)]

theorem cut_eq (hn : 8 ≤ n) {e : ℕ} :
    ((m.setSize a n).setSize (a + n) t).setPreceding (a + n) e = m.cut a n t e := by
  unfold cut setSize setPreceding
  rw [update_comm (by omega : a ≠ a + n), update_comm (by omega : a ≠ a + n + 4)]

end MmMem

namespace Held

variable {n z : ℕ} {u v : Bool}

section

variable (h : Held nl m k [⟨s, u⟩])

include h

theorem rewriteOne (hm : ∀ w, (w < k.addr ∨ k.addr + s ≤ w) → m' w = m w)
    (hsize : m'.size k.addr = s) (hprec : m'.preceding k.addr = mark k.prev.size v) :
    Held nl m' k [⟨s, v⟩] := by
  obtain ⟨-, -, hnext, -, -, hs, -⟩ := h.one
  refine h.retile rfl ?_ ?_ ?_ ?_
  · simpa using h.room
  · exact fun w hw _ => hm w (by simpa using hw)
  · exact ⟨hsize, hprec, Headers.nil⟩
  · simp only [extent_cons, extent_nil, lastSize_cons, lastSize_nil, Nat.add_zero]
    rw [← hnext]
    exact hm _ (.inr (by omega))

theorem setUsed (v : Bool) : Held nl (m.setPreceding k.addr (mark k.prev.size v)) k [⟨s, v⟩] := by
  obtain ⟨hsize, -, -, -, -, hs, -⟩ := h.one
  refine h.rewriteOne (fun w hw => ?_) ?_ preceding_setPreceding_self
  · exact setPreceding_of_ne (by omega)
  · rw [size_setPreceding (by omega), hsize]

theorem markUsed :
    Held nl (m.setPreceding k.addr (m.preceding k.addr ||| mmAllocBit)) k [⟨s, true⟩] := by
  obtain ⟨-, hprec, -, -, hsmall, -⟩ := h.one
  rw [hprec, mark_or_allocBit (by omega)]
  exact h.setUsed true

theorem markFree :
    Held nl (m.setPreceding k.addr (m.preceding k.addr &&& mmSizeMask)) k [⟨s, false⟩] := by
  obtain ⟨-, hprec, -, -, hsmall, -⟩ := h.one
  rw [hprec, mark_and_sizeMask (by omega)]
  exact h.setUsed false

theorem payload (hm : ∀ w, (w < k.addr + sizeofAllocnode ∨ k.addr + s ≤ w) → m' w = m w) :
    Held nl m' k [⟨s, u⟩] := by
  obtain ⟨hsize, hprec, -, -, -, hs, -⟩ := h.one
  unfold sizeofAllocnode at hm
  refine h.rewriteOne (fun w hw => hm w (by omega)) ?_ ?_
  · exact (hm _ (.inl (by omega))).trans hsize
  · exact (hm _ (.inl (by omega))).trans hprec

theorem memcpy (src : ℕ) (hn : n + sizeofAllocnode ≤ s) :
    Held nl (m.memcpy (k.addr + sizeofAllocnode) src n) k [⟨s, u⟩] := by
  refine h.payload fun w hw => ?_
  unfold MmMem.memcpy
  rw [if_neg (by omega)]

end

/-- **Two chunks are written into the gap**: their headers, and the size of the second one behind
them. -/
theorem cut (h : Held nl m k mid) (hext : extent Chunk.size mid = z) (hz : n + t = z)
    (hn : 8 ≤ n ∧ 8 ∣ n) (ht : 8 ≤ t ∧ 8 ∣ t)
    (hprec : m.preceding k.addr = mark k.prev.size u) :
    Held nl ((m.cut k.addr n t (mark n v)).setPreceding (k.addr + z) (mark t k.next.used)) k
      [⟨n, u⟩, ⟨t, v⟩] := by
  subst hz
  refine h.retile (by simp [hext]) ?_ ?_ ⟨?_, ?_, ?_, ?_, Headers.nil⟩ ?_
  · simp only [List.forall_mem_cons]
    exact ⟨hn, ht, by simp⟩
  · rw [hext]
    intro w hw hne
    unfold cut
    rw [setPreceding_of_ne hne, setSize_of_ne (by omega),
      setPreceding_of_ne (by omega), setSize_of_ne (by omega)]
  · rw [size_setPreceding (by omega)]
    exact size_setSize_self
  · rw [preceding_setPreceding (by omega)]
    unfold cut
    rw [preceding_setSize (by omega), preceding_setPreceding (by omega),
      preceding_setSize (by omega), hprec]
  · rw [size_setPreceding (by dsimp only; omega)]
    exact size_cut (by omega)
  · rw [preceding_setPreceding (by dsimp only; omega)]
    unfold cut
    rw [preceding_setSize (by dsimp only; omega)]
    exact preceding_setPreceding_self
  · rw [hext]
    exact preceding_setPreceding_self

/-- **One chunk is written into the gap**: its header, and its size behind it. -/
theorem join (h : Held nl m k mid) (hext : extent Chunk.size mid = n)
    (hn : 8 ≤ n ∧ 8 ∣ n) (hprec : m.preceding k.addr = mark k.prev.size u) :
    Held nl ((m.setSize k.addr n).setPreceding (k.addr + n) (mark n k.next.used)) k [⟨n, u⟩] := by
  refine h.retile (by simp [hext]) ?_ ?_ ⟨?_, ?_, Headers.nil⟩ ?_
  · simp only [List.forall_mem_cons]
    exact ⟨hn, by simp⟩
  · rw [hext]
    intro w hw hne
    rw [setPreceding_of_ne hne, setSize_of_ne (by omega)]
  · rw [size_setPreceding (by omega)]
    exact size_setSize_self
  · rw [preceding_setPreceding (by omega), preceding_setSize (by omega), hprec]
  · rw [hext]
    exact preceding_setPreceding_self

/-- Two chunks become one. -/
theorem joinTwo (h : Held nl m k [⟨s, u⟩, ⟨t, v⟩]) :
    Held nl ((m.setSize k.addr (s + t)).setPreceding (k.addr + (s + t))
      (mark (s + t) k.next.used)) k [⟨s + t, u⟩] ∧
    (m.setSize k.addr (s + t)).preceding (k.addr + (s + t)) = mark t k.next.used := by
  obtain ⟨-, hprec, -, -, hnext, -, hs, ht⟩ := h.two
  refine ⟨h.join (by simp) ⟨by omega, Nat.dvd_add hs.2 ht.2⟩ hprec, ?_⟩
  rw [preceding_setSize (by omega), hnext]

/-- The border between two chunks is moved. -/
theorem cutTwo (h : Held nl m k [⟨s, u⟩, ⟨t, v⟩]) (n z : ℕ) (v' : Bool) (hz : n + z = s + t)
    (hn : 8 ≤ n ∧ 8 ∣ n) (ht : 8 ≤ z ∧ 8 ∣ z) :
    Held nl ((m.cut k.addr n z (mark n v')).setPreceding (k.addr + (s + t))
      (mark z k.next.used)) k [⟨n, u⟩, ⟨z, v'⟩] ∧
    (m.cut k.addr n z (mark n v')).preceding (k.addr + (s + t)) = mark t k.next.used ∧
    (m.cut k.addr n z (mark n v')).size (k.addr + n) = z := by
  obtain ⟨-, hprec, -, -, hnext, -⟩ := h.two
  refine ⟨h.cut (by simp) hz hn ht hprec, ?_, size_cut (by omega)⟩
  rw [preceding_cut (by omega), hnext]

end Held

end NuttX
