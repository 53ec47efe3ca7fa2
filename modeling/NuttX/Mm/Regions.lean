import NuttX.Mm.Change

/-!
# Regions of the heap

`mm_initialize` links the elements of `g_nodelist` and adds a first region, and `mm_addregion` adds
a region with one free chunk between its guard nodes. Nothing of the heap that is already there is
touched (`NuttX.MmInv.extend`). The layout of the heap agrees with the global variables that say
where the regions lie (`NuttX.HeapShape`), and `mallinfo` visits all nodes
(`NuttX.HeapShape.mallinfo`).
-/

namespace NuttX

open MmMem MmRegion MmLayout List

variable {nl : ℕ} {m m' : MmMem} {L : MmLayout} {S : Set ℕ} {R : MmRegion}

/-! ### `mm_initialize` -/

section Init

variable (nl : ℕ) (m : MmMem)

/-- The array after some rounds of the loop of `mm_initialize`. -/
def initRounds (n : ℕ) : MmMem :=
  (List.range n).foldl
    (fun m i =>
      let m := m.setFlink (nodeHook nl i) (nodeHook nl (i + 1))
      m.setBlink (nodeHook nl (i + 1)) (nodeHook nl i))
    (fun a => if nl ≤ a ∧ a < nl + 16 * mmNnodes then 0 else m a)

variable {nl m}

theorem initRounds_succ (n : ℕ) :
    initRounds nl m (n + 1) = ((initRounds nl m n).setFlink (nodeHook nl n)
      (nodeHook nl (n + 1))).setBlink (nodeHook nl (n + 1)) (nodeHook nl n) := by
  unfold initRounds
  rw [range_succ, foldl_append]
  rfl

/-- What the elements of the array hold after some rounds. -/
theorem initRounds_hook (nl : ℕ) (m : MmMem) {n : ℕ} (hn : n < mmNnodes) {i : ℕ} (hi : i < mmNnodes) :
    (initRounds nl m n).size (nodeHook nl i) = 0 ∧
      (initRounds nl m n).flink (nodeHook nl i) = (if i < n then nodeHook nl (i + 1) else 0) ∧
      (initRounds nl m n).blink (nodeHook nl i)
        = (if 0 < i ∧ i ≤ n then nodeHook nl (i - 1) else 0) := by
  induction n with
  | zero =>
    have hzero : ∀ d < 16, initRounds nl m 0 (nodeHook nl i + d) = 0 := by
      intro d hd
      unfold initRounds nodeHook
      exact if_pos (by omega)
    refine ⟨hzero 0 (by decide), ?_, ?_⟩
    · exact hzero 8 (by decide)
    · rw [if_neg (by omega)]
      exact hzero 12 (by decide)
  | succ n ih =>
    obtain ⟨hsize, hflink, hblink⟩ := ih (by omega)
    rw [initRounds_succ]
    refine ⟨?_, ?_, ?_⟩
    · rw [← hsize]
      unfold size setBlink setFlink nodeHook
      rw [Function.update_of_ne (by omega), Function.update_of_ne (by omega)]
    · rw [flink_setBlink (by unfold NodesApart nodeHook; omega), flink_setFlink]
      by_cases hin : i = n
      · rw [if_pos (by rw [hin]), if_pos (by omega), hin]
      · rw [if_neg (by unfold nodeHook; omega), hflink]
        split_ifs <;> first | rfl | omega
    · rw [blink_setBlink]
      by_cases hin : i = n + 1
      · rw [if_pos (by rw [hin]), if_pos (by omega), hin]
        rfl
      · rw [if_neg (by unfold nodeHook; omega),
          blink_setFlink (by unfold NodesApart nodeHook; omega), hblink]
        split_ifs <;> first | rfl | omega

theorem dll_hooks {next prev : ℕ → ℕ} {n : ℕ} :
    ∀ {i p : ℕ}, (∀ j, i ≤ j → j < i + n →
        next (nodeHook nl j) = if j + 1 < i + n then nodeHook nl (j + 1) else 0) →
      (∀ j, i ≤ j → j < i + n → prev (nodeHook nl j) = if j = i then p else nodeHook nl (j - 1)) →
      Dll next prev p ((range' i n).map (nodeHook nl)) 0 := by
  induction n with
  | zero => exact fun _ _ => Dll.nil
  | succ n ih =>
    intro i p hnext hprev
    refine ⟨?_, ?_, ih (fun j hij hjn => ?_) fun j hij hjn => ?_⟩
    · rw [hprev i (le_refl i) (by omega), if_pos rfl]
    · rw [hnext i (le_refl i) (by omega)]
      cases n with
      | zero => exact if_neg (by omega)
      | succ n => exact if_pos (by omega)
    · rw [hnext j (by omega) (by omega)]
      split_ifs <;> first | rfl | omega
    · rw [hprev j (by omega) (by omega), if_neg (by omega)]
      split_ifs with hj
      · rw [hj, Nat.add_sub_cancel]
      · rfl

/-- **The heap without any region**: the list has the elements of `g_nodelist` only. -/
theorem initNodelist_inv (hpos : 0 < nl) (hspace : nl + sizeofNodelist ≤ 0x100000000) :
    HeapWhole nl (initNodelist nl m) [] := by
  have heq : initNodelist nl m = initRounds nl m (mmNnodes - 1) := rfl
  have hhook := fun {i : ℕ} (hi : i < mmNnodes) =>
    initRounds_hook nl m (n := mmNnodes - 1) (by decide) hi
  have hfree : MmLayout.freeSet [] = ∅ := by
    ext x
    simp [MmLayout.freeSet, MmLayout.bodies]
  unfold HeapWhole
  rw [heq, hfree]
  refine ⟨⟨by simp, Pairwise.nil, by simp, hpos, hspace⟩, by simp, by simp,
    fun _ => [], ⟨fun i hi => (hhook hi).1, ?_, by simp, by simp, by simp⟩, by simp⟩
  have hchain : chain nl (fun _ => []) = (range' 0 mmNnodes).map (nodeHook nl) := by
    rfl
  rw [hchain]
  refine dll_hooks (fun j _ hj => ?_) fun j _ hj => ?_
  · rw [(hhook (by omega)).2.1]
    split_ifs <;> first | rfl | omega
  · rw [(hhook (by omega)).2.2]
    split_ifs <;> first | rfl | omega

end Init

/-! ### `mm_addregion` -/

/-- **A region is added**: memory is changed in it only, and its chunks are not in the list. -/
theorem MmInv.extend (h : MmInv nl m L S) (hfits : R.Fits) (hapart : ∀ R' ∈ L, R'.Apart R)
    (hhooks : R.stop ≤ nl ∨ nl + sizeofNodelist ≤ R.base)
    (hm : ∀ w, (w < R.base ∨ R.stop ≤ w) → m' w = m w) (hheaders : Headers m' R.base 0 R.chunks) :
    MmInv nl m' (L ++ [R]) S := by
  have hheader : ∀ {x c}, (x, c) ∈ L.placed → m' x = m x ∧ m' (x + 4) = m (x + 4) := by
    intro x c hx
    have hroom := h.sound.room_placed hx
    obtain ⟨R', hR', hx⟩ := MmLayout.mem_placed.mp hx
    have hb := placed_bounds hx
    have hR := hapart R' hR'
    unfold Apart sizeofAllocnode at *
    exact ⟨hm x (by omega), hm (x + 4) (by omega)⟩
  refine ⟨⟨?_, ?_, ?_, h.sound.pos, h.sound.space⟩, ?_, ?_, ?_⟩
  · exact forall_mem_append.mpr ⟨h.sound.fits, forall_mem_singleton.mpr hfits⟩
  · refine pairwise_append.mpr ⟨h.sound.apart, pairwise_singleton _ _, fun R' hR' => ?_⟩
    exact forall_mem_singleton.mpr (hapart R' hR')
  · exact forall_mem_append.mpr ⟨h.sound.hooks, forall_mem_singleton.mpr hhooks⟩
  · refine forall_mem_append.mpr ⟨fun R' hR' => ?_, forall_mem_singleton.mpr hheaders⟩
    refine (h.headers R' hR').congr fun x c hx => ?_
    exact hheader (MmLayout.mem_placed.mpr ⟨R', hR', hx⟩)
  · intro x hx
    obtain ⟨s, hs, hxs⟩ := h.listed x hx
    refine ⟨s, hs, ?_⟩
    unfold MmLayout.bodies at hxs ⊢
    rw [flatMap_append]
    exact mem_append_left _ hxs
  · obtain ⟨B, hlist, hB⟩ := h.list
    refine ⟨B, hlist.congr fun z hz => ?_, hB⟩
    have hnode := h.isNode hB z hz
    -- the nodes of the list lie in the array or in the regions that were there
    have hz : z + 16 ≤ R.base ∨ R.stop ≤ z := by
      rcases hnode with ⟨i, hi, rfl⟩ | ⟨s, hs, hzs⟩
      · unfold nodeHook sizeofNodelist at *
        omega
      obtain ⟨R', hR', hz⟩ := MmLayout.mem_bodies.mp hzs
      have hb := placed_bounds (mem_placed_of_mem_bodies hz)
      have hR := hapart R' hR'
      unfold Apart sizeofFreenode at *
      dsimp only at hb
      omega
    exact ⟨hm z (by omega), hm (z + 8) (by omega), hm (z + 12) (by omega)⟩

/-- The base and the end of the region that `mm_addregion` makes of an area of memory. -/
structure RegionAt (heapstart heapsize base stop : ℕ) : Prop where
  base_eq : base = (heapstart + 15) / 16 * 16
  stop_eq : stop = (heapstart + heapsize) / 16 * 16
  large : base + 2 * sizeofAllocnode + mmMinChunk ≤ stop
  small : stop < base + mmAllocBit
  space : stop ≤ 0x100000000

/-- The headers that `mm_addregion` writes, for a chunk of size `n` between two guard nodes. -/
def regionHeaders (m : MmMem) (base n : ℕ) : MmMem :=
  let m := (m.setSize base sizeofAllocnode).setPreceding base mmAllocBit
  let m := m.setSize (base + sizeofAllocnode) n
  let m := m.setPreceding (base + sizeofAllocnode) sizeofAllocnode
  let m := m.setSize (base + sizeofAllocnode + n) sizeofAllocnode
  m.setPreceding (base + sizeofAllocnode + n) (mark n true)

theorem regionHeaders_spec (m : MmMem) (base : ℕ) {n : ℕ} (hn : 8 ≤ n) :
    Headers (regionHeaders m base n) base 0 (chunks ⟨base, [⟨n, false⟩]⟩) ∧
      ∀ w, (w < base ∨ base + 2 * sizeofAllocnode + n ≤ w) → regionHeaders m base n w = m w := by
  unfold regionHeaders sizeofAllocnode
  refine ⟨⟨?_, ?_, ⟨?_, ?_, ⟨?_, ?_, Headers.nil⟩⟩⟩, fun w hw => ?_⟩
  · rw [size_setPreceding (by omega), size_setSize (by omega),
      size_setPreceding (by omega), size_setSize (by omega),
      size_setPreceding (by omega), size_setSize_self]
    rfl
  · rw [preceding_setPreceding (by omega), preceding_setSize (by omega),
      preceding_setPreceding (by omega), preceding_setSize (by omega),
      preceding_setPreceding_self]
    exact (Nat.zero_add _).symm
  · simp only [Chunk.guard, sizeofAllocnode]
    rw [size_setPreceding (by omega), size_setSize (by omega),
      size_setPreceding (by omega), size_setSize_self]
  · simp only [Chunk.guard, sizeofAllocnode]
    rw [preceding_setPreceding (by omega), preceding_setSize (by omega),
      preceding_setPreceding_self]
    rfl
  · simp only [Chunk.guard, sizeofAllocnode]
    rw [size_setPreceding (by omega), size_setSize_self]
  · exact preceding_setPreceding_self
  · rw [setPreceding_of_ne (by omega), setSize_of_ne (by omega),
      setPreceding_of_ne (by omega), setSize_of_ne (by omega),
      setPreceding_of_ne (by omega), setSize_of_ne (by omega)]

/-- **The layout agrees with the global variables.** -/
structure HeapShape (nl : ℕ) (h : MmHeap) (L : MmLayout) : Prop where
  whole : HeapWhole nl h.mem L
  starts : h.heapstart = L.spans.map Prod.fst
  ends : h.heapend = L.spans.map Prod.snd
  size : h.heapsize = wrap32 (L.spans.map fun r => r.2 + sizeofAllocnode - r.1).sum

def newRegion (base stop : ℕ) : MmRegion := ⟨base, [⟨stop - base - 2 * sizeofAllocnode, false⟩]⟩

variable {h h' : MmHeap} {heapstart heapsize base stop : ℕ}

namespace RegionAt

section

variable (hr : RegionAt heapstart heapsize base stop)

include hr

theorem last_newRegion :
    (newRegion base stop).last = stop - sizeofAllocnode ∧ (newRegion base stop).stop = stop := by
  have hlarge := hr.large
  simp only [newRegion, MmRegion.stop, MmRegion.last, extent_cons, extent_nil]
  omega

theorem fits : (newRegion base stop).Fits := by
  have hbase := hr.base_eq
  have hstop := hr.stop_eq
  have hlarge := hr.large
  have hsmall := hr.small
  unfold mmMinChunk at hlarge
  refine ⟨?_, ?_, ?_, ?_, by rw [hr.last_newRegion.2]; exact hr.space⟩
  · simp only [newRegion, forall_mem_cons]
    unfold sizeofAllocnode at *
    exact ⟨by omega, by simp⟩
  · simp only [newRegion, forall_mem_cons]
    unfold sizeofAllocnode at *
    exact ⟨by omega, by simp⟩
  · simp only [newRegion]
    omega
  · simp only [newRegion, extent_cons, extent_nil]
    omega

/-- What `mm_addregion` computes from the area that it is given. -/
theorem bounds :
    mmAlignUp heapstart = base ∧
      wrapSub (mmAlignDown (wrap32 (heapstart + heapsize))) base = stop - base ∧
      wrapSub (mmAlignDown (wrap32 (heapstart + heapsize))) sizeofAllocnode
        = stop - sizeofAllocnode := by
  have hbase := hr.base_eq
  have hstop := hr.stop_eq
  have hlarge := hr.large
  have hsmall := hr.small
  have hspace := hr.space
  unfold sizeofAllocnode mmMinChunk mmAllocBit at *
  have hdown : mmAlignDown (wrap32 (heapstart + heapsize)) = wrap32 stop := by
    unfold wrap32
    rw [mmAlignDown_eq (Nat.mod_lt _ (by decide))]
    omega
  refine ⟨?_, ?_, ?_⟩
  · rw [mmAlignUp_eq (by omega), hbase]
  · rw [hdown]
    unfold wrapSub wrap32
    omega
  · rw [hdown]
    unfold wrapSub wrap32
    omega

end

end RegionAt

/-- **`mm_addregion`** adds a region with one free chunk. -/
theorem HeapShape.addregion (hs : HeapShape nl h L) (hr : RegionAt heapstart heapsize base stop)
    (hapart : ∀ r ∈ L.spans, r.2 + sizeofAllocnode ≤ base ∨ stop ≤ r.1)
    (hhooks : stop ≤ nl ∨ nl + sizeofNodelist ≤ base) :
    ∃ h', mmAddregion nl h heapstart heapsize = some h' ∧
      HeapShape nl h' (L ++ [newRegion base stop]) := by
  obtain ⟨hup, hsize, hlast⟩ := hr.bounds
  obtain ⟨hnlast, hnstop⟩ := hr.last_newRegion
  have hlarge := hr.large
  have hsmall := hr.small
  obtain ⟨n, hn⟩ : ∃ n, n = stop - base - 2 * sizeofAllocnode := ⟨_, rfl⟩
  have hnew : newRegion base stop = ⟨base, [⟨n, false⟩]⟩ := by rw [hn]; rfl
  unfold mmMinChunk at hlarge
  have hn16 : sizeofFreenode ≤ n := by
    unfold sizeofFreenode sizeofAllocnode at *
    omega
  obtain ⟨hheaders, hsame⟩ := regionHeaders_spec h.mem base (le_trans (by decide) hn16)
  have hext : MmInv nl (regionHeaders h.mem base n) (L ++ [newRegion base stop]) L.freeSet := by
    refine MmInv.extend hs.whole hr.fits ?_ (by rw [hnstop]; exact hhooks) ?_ (hnew ▸ hheaders)
    · intro R hR
      have := hapart (R.base, R.last) (mem_map.mpr ⟨R, hR, rfl⟩)
      rw [Apart, hnstop]
      exact this
    intro w hw
    refine hsame w ?_
    have hb : (newRegion base stop).base = base := rfl
    omega
  have hbodies : MmLayout.bodies (L ++ [newRegion base stop])
      = L.bodies ++ [(base + sizeofAllocnode, ⟨n, false⟩)] := by
    unfold MmLayout.bodies
    rw [flatMap_append, hnew]
    rfl
  have hnot : base + sizeofAllocnode ∉ L.freeSet := by
    rintro ⟨c, hc, -⟩
    obtain ⟨R, hR, hx⟩ := MmLayout.mem_bodies.mp hc
    have hb := bodies_bounds hx
    have hspan := hapart (R.base, R.last) (mem_map.mpr ⟨R, hR, rfl⟩)
    unfold sizeofAllocnode at *
    omega
  obtain ⟨m', hadd, hinv⟩ := hext.add (by rw [hbodies]; simp) hn16 hnot
  have hspans : MmLayout.spans (L ++ [newRegion base stop])
      = L.spans ++ [(base, stop - sizeofAllocnode)] := by
    unfold MmLayout.spans
    rw [map_append, map_singleton, hnlast]
    rfl
  have hchunk : (newRegion base stop).last = base + sizeofAllocnode + n := by
    rw [hnew]
    rfl
  refine ⟨⟨m', wrap32 (h.heapsize + (stop - base)), h.heapstart ++ [base],
    h.heapend ++ [stop - sizeofAllocnode]⟩, ?_, ?_, ?_, ?_, ?_⟩
  · unfold mmAddregion
    have hread : (((((h.mem.setSize base sizeofAllocnode).setPreceding base mmAllocBit).setSize
        (base + sizeofAllocnode) n).setPreceding (base + sizeofAllocnode) sizeofAllocnode).setSize
        (base + sizeofAllocnode + n) sizeofAllocnode).size (base + sizeofAllocnode) = n := by
      rw [size_setSize (by unfold sizeofFreenode at hn16; omega),
        size_setPreceding (by omega), size_setSize_self]
    unfold regionHeaders at hadd
    simp only [hup, hsize, hlast, ← hn, ← hnlast, hchunk, hread]
    rw [or_allocBit (by omega), hadd]
    rfl
  · have hfree : MmLayout.freeSet (L ++ [newRegion base stop])
        = insert (base + sizeofAllocnode) L.freeSet := by
      ext x
      simp [MmLayout.freeSet, hbodies, or_and_right, exists_or, or_comm]
    unfold HeapWhole
    rw [hfree]
    exact hinv
  · rw [hspans, map_append, ← hs.starts]
    rfl
  · rw [hspans, map_append, ← hs.ends]
    rfl
  · rw [hspans, map_append, sum_append, hs.size]
    have hstop : stop - sizeofAllocnode + sizeofAllocnode - base = stop - base := by
      omega
    simp only [map_singleton, sum_singleton, hstop]
    unfold wrap32
    omega

/-- **`mm_initialize`** makes a heap of one region. -/
theorem HeapShape.initialize (hr : RegionAt heapstart heapsize base stop) (hpos : 0 < nl)
    (hspace : nl + sizeofNodelist ≤ 0x100000000)
    (hhooks : stop ≤ nl ∨ nl + sizeofNodelist ≤ base) :
    ∃ h, mmInitialize nl m heapstart heapsize = some h ∧ HeapShape nl h [newRegion base stop] := by
  have hempty : HeapShape nl ⟨initNodelist nl m, 0, [], []⟩ [] :=
    ⟨initNodelist_inv hpos hspace, rfl, rfl, rfl⟩
  exact hempty.addregion hr (by simp [spans]) hhooks

theorem HeapShape.alter {L' : MmLayout} (hs : HeapShape nl h L)
    (hwhole : HeapWhole nl m' L') (hspans : L'.spans = L.spans) :
    HeapShape nl { h with mem := m' } L' := by
  refine ⟨hwhole, ?_, ?_, ?_⟩
  · rw [hspans]
    exact hs.starts
  · rw [hspans]
    exact hs.ends
  · rw [hspans]
    exact hs.size

/-! ### `mallinfo` -/

/-- **The loop of `mallinfo`** comes to the last node of a region, and has added up all sizes. -/
theorem mallinfoLoop_spec {cs : List Chunk} {a p rounds : ℕ} {info : Mallinfo}
    (hheaders : Headers m a p cs) (hroom : ∀ c ∈ cs, 0 < c.size) (hrounds : cs.length < rounds) :
    ∃ info', mallinfoLoop m (a + extent Chunk.size cs) rounds a info = some info' ∧
      wrap32 (info'.uordblks + info'.fordblks)
        = wrap32 (info.uordblks + info.fordblks + (extent Chunk.size cs + sizeofAllocnode)) := by
  induction cs generalizing a p rounds info with
  | nil =>
    obtain ⟨rounds, rfl⟩ : ∃ r, rounds = r + 1 := ⟨rounds - 1, by omega⟩
    refine ⟨{ info with uordblks := wrap32 (info.uordblks + sizeofAllocnode) }, ?_, ?_⟩
    · rw [mallinfoLoop, extent_nil, Nat.add_zero, if_neg (Nat.lt_irrefl a), if_pos rfl]
    · simp only [extent_nil]
      unfold wrap32
      omega
  | cons c cs ih =>
    obtain ⟨rounds, rfl⟩ : ∃ r, rounds = r + 1 := ⟨rounds - 1, by omega⟩
    obtain ⟨hsize, -, htail⟩ := hheaders
    have hc := hroom c mem_cons_self
    have hlen : cs.length < rounds := Nat.succ_lt_succ_iff.mp hrounds
    rw [mallinfoLoop, extent_cons, if_pos (by omega), hsize, ← Nat.add_assoc]
    generalize hinfo : (ite (m.preceding a &&& mmAllocBit ≠ 0) _ _ : Mallinfo) = info1
    -- the chunk has been added to one of the two sums
    have hsum1 : wrap32 (info1.uordblks + info1.fordblks)
        = wrap32 (info.uordblks + info.fordblks + c.size) := by
      rw [← hinfo]
      split_ifs <;> simp only [wrap32] <;> omega
    obtain ⟨info', hloop, hsum⟩ : ∃ info',
        mallinfoLoop m (a + c.size + extent Chunk.size cs) rounds (a + c.size) info1 = some info' ∧
        wrap32 (info'.uordblks + info'.fordblks)
          = wrap32 (info1.uordblks + info1.fordblks + (extent Chunk.size cs + sizeofAllocnode)) :=
      ih htail (fun d hd => hroom d (mem_cons_of_mem c hd)) hlen
    refine ⟨info', hloop, ?_⟩
    unfold wrap32 at *
    omega

theorem HeapShape.zip_eq (hs : HeapShape nl h L) :
    h.heapstart.zip h.heapend = L.spans := by
  rw [hs.starts, hs.ends, zip_map', map_id']

theorem HeapShape.mallinfoLoop (hs : HeapShape nl h L) (hR : R ∈ L) (info : Mallinfo) :
    ∃ info', NuttX.mallinfoLoop h.mem R.last mmRounds R.base info = some info' ∧
      wrap32 (info'.uordblks + info'.fordblks)
        = wrap32 (info.uordblks + info.fordblks + (R.last + sizeofAllocnode - R.base)) := by
  have hfits := hs.whole.sound.fits R hR
  have hsmall := hfits.small
  have hheaders : Headers h.mem R.base 0 ((Chunk.guard :: R.body) ++ [.guard]) :=
    hs.whole.headers R hR
  have hroom := hfits.size_pos
  have hlast : R.base + extent Chunk.size (Chunk.guard :: R.body) = R.last := base_add_extent
  have hlen := length_le_extent hroom
  have hrounds : (Chunk.guard :: R.body).length < mmRounds := by
    rw [extent_cons] at hlen
    unfold Chunk.guard sizeofAllocnode mmAllocBit mmRounds at *
    dsimp only at hlen
    omega
  have hextent : extent Chunk.size (Chunk.guard :: R.body) + sizeofAllocnode
      = R.last + sizeofAllocnode - R.base := by omega
  rw [← hextent, ← hlast]
  exact mallinfoLoop_spec (Headers.append_iff.mp hheaders).1 hroom hrounds

/-- **`mallinfo`** returns, and the used and the free space make up the heap. -/
theorem HeapShape.mallinfo (hs : HeapShape nl h L) :
    ∃ info, NuttX.mallinfo h = some info ∧ wrap32 (info.uordblks + info.fordblks) = h.heapsize := by
  have hloop : ∀ (L' : MmLayout) (info : Mallinfo), (∀ R ∈ L', R ∈ L) →
      ∃ info', foldlM (fun info region => NuttX.mallinfoLoop h.mem region.2 mmRounds region.1 info)
          info L'.spans = some info' ∧
        wrap32 (info'.uordblks + info'.fordblks) = wrap32 (info.uordblks + info.fordblks +
          (L'.spans.map fun r => r.2 + sizeofAllocnode - r.1).sum) := by
    intro L'
    induction L' with
    | nil => exact fun info _ => ⟨info, rfl, rfl⟩
    | cons R L' ih =>
      intro info hL'
      obtain ⟨info1, hfirst, hsum1⟩ := hs.mallinfoLoop (hL' R mem_cons_self) info
      obtain ⟨info', hrest, hsum⟩ := ih info1 fun R' hR' => hL' R' (mem_cons_of_mem R hR')
      refine ⟨info', ?_, ?_⟩
      · rw [spans, map_cons, foldlM_cons]
        simp only [hfirst, Option.bind_eq_bind, Option.bind_some]
        exact hrest
      · rw [hsum, spans, spans, map_cons, map_cons, sum_cons]
        unfold wrap32 at *
        omega
  obtain ⟨info, hfold, hsum⟩ := hloop L ⟨h.heapsize, 0, 0, 0, 0⟩ fun _ => id
  refine ⟨info, ?_, ?_⟩
  · unfold NuttX.mallinfo
    rw [hs.zip_eq]
    exact hfold
  · rw [hsum, hs.size]
    simp

end NuttX
