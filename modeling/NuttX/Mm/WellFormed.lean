import NuttX.Mm.Regions

/-!
# Well-formed heaps

What it means for a heap to be well formed, in terms of memory and of the global variables only
(`NuttX.HeapOk`): a walk over a region by the sizes in the headers ends at its last node, the field
`preceding` of each node has the size of the node before it and says whether the node is allocated,
no two free chunks lie side by side, and the list of free chunks has the free chunks. A layout with
this shape is behind every such heap (`NuttX.HeapShape.heapOk`).
-/

namespace NuttX

open MmRegion List

/-- The nodes that a walk over a region visits, from `g_heapstart` on by `node->size`. -/
inductive Visited (m : MmMem) (start stop : ℕ) : ℕ → Prop
  | start : Visited m start stop start
  | step {node : ℕ} (h : Visited m start stop node) (hlt : node < stop) :
      Visited m start stop (node + m.size node)

def NodeFree (m : MmMem) (node : ℕ) : Prop := m.preceding node &&& mmAllocBit = 0

instance (m : MmMem) (node : ℕ) : Decidable (NodeFree m node) :=
  inferInstanceAs (Decidable (_ = _))

/-- **The headers of a region**, for the pointers that are allocated. -/
structure RegionOk (m : MmMem) (live : Set ℕ) (start stop : ℕ) : Prop where
  ends : Visited m start stop stop
  bounded : ∀ node, Visited m start stop node → node ≤ stop
  preceding : ∀ node, Visited m start stop node → node < stop →
    m.preceding (node + m.size node) &&& mmSizeMask = m.size node
  allocated : ∀ node, Visited m start stop node →
    (¬NodeFree m node ↔ node = start ∨ node = stop ∨ node + sizeofAllocnode ∈ live)
  coalesced : ∀ node, Visited m start stop node → node < stop →
    ¬(NodeFree m node ∧ NodeFree m (node + m.size node))

/-- **A well-formed heap**, for the pointers that are allocated. -/
structure HeapOk (nl : ℕ) (h : MmHeap) (live : Set ℕ) : Prop where
  regions : ∀ r ∈ h.heapstart.zip h.heapend, RegionOk h.mem live r.1 r.2
  list : ∃ B, Nodelist nl h.mem B ∧ ∀ x, (∃ i < mmNnodes, x ∈ B i) ↔
    ∃ r ∈ h.heapstart.zip h.heapend, Visited h.mem r.1 r.2 x ∧ NodeFree h.mem x
  info : ∃ info, mallinfo h = some info ∧ wrap32 (info.uordblks + info.fordblks) = h.heapsize

/-! ### The walk over a layout -/

section Walk

variable {m : MmMem} {a p start stop x : ℕ} {c : Chunk} {cs : List Chunk}

theorem Visited.trans {y : ℕ} (h : Visited m start stop x) (h' : Visited m x stop y) :
    Visited m start stop y := by
  induction h' with
  | start => exact h
  | step _ hlt ih => exact ih.step hlt

theorem visited_iff :
    Visited m start stop x ↔
      x = start ∨ start < stop ∧ Visited m (start + m.size start) stop x := by
  constructor
  · intro h
    induction h with
    | start => exact .inl rfl
    | step h hlt ih =>
      rcases ih with rfl | ⟨hstart, hnode⟩
      · exact .inr ⟨hlt, .start⟩
      · exact .inr ⟨hstart, hnode.step hlt⟩
  · rintro (rfl | ⟨hlt, h⟩)
    · exact .start
    · exact (Visited.start.step hlt).trans h

/-- **The walk visits the chunks of a layout**, up to the last one. -/
theorem visited_headers (h : Headers m a p (cs ++ [c])) (hroom : ∀ d ∈ cs, 0 < d.size) :
    Visited m a (a + extent Chunk.size cs) x ↔ ∃ d, (x, d) ∈ place Chunk.size a (cs ++ [c]) := by
  induction cs generalizing a p with
  | nil =>
    rw [visited_iff]
    simp
  | cons d cs ih =>
    obtain ⟨hsize, -, htail⟩ := h
    have hd := hroom d mem_cons_self
    rw [visited_iff, extent_cons, hsize, ← Nat.add_assoc,
      ih htail fun e he => hroom e (mem_cons_of_mem d he), cons_append, place_cons]
    simp only [mem_cons, Prod.mk.injEq]
    constructor
    · rintro (rfl | ⟨-, e, he⟩)
      · exact ⟨d, .inl ⟨rfl, rfl⟩⟩
      · exact ⟨e, .inr he⟩
    · rintro ⟨e, ⟨rfl, -⟩ | he⟩
      · exact .inl rfl
      · exact .inr ⟨by omega, e, he⟩

end Walk

variable {nl x : ℕ} {m : MmMem} {h : MmHeap} {L : MmLayout} {R : MmRegion} {c : Chunk}

theorem MmRegion.mem_placed_iff :
    (x, c) ∈ R.placed ↔ (x = R.base ∧ c = .guard) ∨ (x, c) ∈ R.bodies ∨
      (x = R.last ∧ c = .guard) := by
  unfold placed chunks bodies last
  simp only [place_cons, place_append, place_nil, mem_cons, mem_append, Prod.mk.injEq,
    not_mem_nil, or_false]
  exact Iff.rfl

theorem HeapWhole.visited (hw : HeapWhole nl m L) (hR : R ∈ L) :
    Visited m R.base R.last x ↔ ∃ c, (x, c) ∈ R.placed := by
  have hheaders : Headers m R.base 0 ((Chunk.guard :: R.body) ++ [.guard]) := hw.headers R hR
  rw [← base_add_extent]
  exact visited_headers hheaders (hw.sound.fits R hR).size_pos

/-- **What the header of a node says.** -/
theorem HeapWhole.node (hw : HeapWhole nl m L) (hR : R ∈ L) (hx : (x, c) ∈ R.placed) :
    m.size x = c.size ∧ (NodeFree m x ↔ c.used = false) ∧
      (x < R.last → ∃ d, (x + c.size, d) ∈ R.placed ∧
        m.preceding (x + c.size) &&& mmSizeMask = c.size ∧
        (R.chunks.IsChain OneUsed → OneUsed c d)) := by
  have hfits := hw.sound.fits R hR
  have hsmall := hfits.small
  have hheaders := hw.headers R hR
  have hextent : extent Chunk.size R.chunks = extent Chunk.size R.body + 2 * sizeofAllocnode := by
    simp only [chunks, extent_cons, extent_append, extent_nil, Chunk.guard]
    omega
  obtain ⟨l, r, hchunks, rfl⟩ := exists_append_of_mem_place hx
  rw [hchunks] at hheaders hextent
  obtain ⟨-, hsize, hprec, htail⟩ := Headers.append_iff.mp hheaders
  have hlastSize := lastSize_le 0 l
  rw [extent_append, extent_cons] at hextent
  refine ⟨hsize, ?_, ?_⟩
  · unfold NodeFree
    rw [hprec, mark_and_allocBit_eq_zero (by omega)]
  intro hlt
  cases r with
  | nil =>
    -- the last node is the guard node at the end
    have hc : l ++ [c] = (Chunk.guard :: R.body) ++ [.guard] := hchunks.symm
    have hc' : c = .guard := singleton_inj.mp (append_inj' hc rfl).2
    have hcsize : c.size = sizeofAllocnode := by rw [hc']; rfl
    unfold last at hlt
    rw [extent_nil] at hextent
    omega
  | cons d r =>
    obtain ⟨-, hprec', -⟩ := htail
    refine ⟨d, ?_, ?_, fun hchain => ?_⟩
    · rw [placed, hchunks, place_append, place_cons, place_cons]
      simp
    · rw [hprec', mark_and_sizeMask (by omega)]
    · rw [hchunks] at hchain
      exact (isChain_cons_cons.mp hchain.right_of_append).1

def MmLayout.pointers (L : MmLayout) : Set ℕ := {p | ∃ q ∈ L.used, p = q.1 + sizeofAllocnode}

/-- A node is used if it is a guard node or a chunk that is pointed to. -/
theorem HeapWhole.used_iff (hw : HeapWhole nl m L) (hR : R ∈ L) (hx : (x, c) ∈ R.placed) :
    c.used = true ↔ x = R.base ∨ x = R.last ∨ x + sizeofAllocnode ∈ L.pointers := by
  have hplaced : (x, c) ∈ L.placed := MmLayout.mem_placed.mpr ⟨R, hR, hx⟩
  constructor
  · intro hused
    rcases mem_placed_iff.mp hx with ⟨hbase, -⟩ | hbody | ⟨hlast, -⟩
    · exact .inl hbase
    · refine .inr (.inr ⟨(x, c.size), ?_, rfl⟩)
      have hc : c = ⟨c.size, true⟩ := by rw [← hused]
      exact MmLayout.mem_bodies.mpr ⟨R, hR, hc ▸ hbody⟩
    · exact .inr (.inl hlast)
  -- a node is determined by its address
  have huniq : ∀ d, (x, d) ∈ L.placed → c = d := fun _ => hw.sound.placed_unique hplaced
  rintro (rfl | rfl | ⟨q, hq, hpq⟩)
  · have hguard : (R.base, Chunk.guard) ∈ R.placed := mem_placed_iff.mpr (.inl ⟨rfl, rfl⟩)
    rw [huniq _ (MmLayout.mem_placed.mpr ⟨R, hR, hguard⟩)]
    rfl
  · have hguard : (R.last, Chunk.guard) ∈ R.placed :=
      mem_placed_iff.mpr (.inr (.inr ⟨rfl, rfl⟩))
    rw [huniq _ (MmLayout.mem_placed.mpr ⟨R, hR, hguard⟩)]
    rfl
  · have hqx : q.1 = x := (Nat.add_right_cancel hpq).symm
    have hq' := MmLayout.mem_placed_of_mem_bodies hq
    rw [hqx] at hq'
    rw [huniq _ hq']

/-- **The headers of a region** agree with its layout. -/
theorem HeapWhole.regionOk (hw : HeapWhole nl m L) (hR : R ∈ L) (hcoal : L.Coalesced) :
    RegionOk m L.pointers R.base R.last := by
  refine ⟨?_, ?_, ?_, ?_, ?_⟩
  · exact (hw.visited hR).mpr ⟨_, mem_placed_iff.mpr (.inr (.inr ⟨rfl, rfl⟩))⟩
  · intro node hnode
    obtain ⟨c, hc⟩ := (hw.visited hR).mp hnode
    have hb := placed_bounds hc
    have hroom := (hw.sound.fits R hR).room_placed hc
    unfold stop at hb
    omega
  · intro node hnode hlt
    obtain ⟨c, hc⟩ := (hw.visited hR).mp hnode
    obtain ⟨hsize, -, hnext⟩ := hw.node hR hc
    obtain ⟨d, -, hprec, -⟩ := hnext hlt
    rw [hsize]
    exact hprec
  · intro node hnode
    obtain ⟨c, hc⟩ := (hw.visited hR).mp hnode
    rw [(hw.node hR hc).2.1, ← hw.used_iff hR hc, Bool.not_eq_false]
  · rintro node hnode hlt ⟨hfree, hfree'⟩
    obtain ⟨c, hc⟩ := (hw.visited hR).mp hnode
    obtain ⟨hsize, hused, hnext⟩ := hw.node hR hc
    obtain ⟨d, hd, -, hchain⟩ := hnext hlt
    have hd' := (hw.node hR hd).2.1
    rw [hsize] at hfree'
    rcases hchain (hcoal R hR) with hone | hone
    · rw [hused.mp hfree] at hone
      cases hone
    · rw [hd'.mp hfree'] at hone
      cases hone

theorem HeapWhole.freeSet_iff (hw : HeapWhole nl m L) :
    x ∈ L.freeSet ↔ ∃ R ∈ L, Visited m R.base R.last x ∧ NodeFree m x := by
  constructor
  · rintro ⟨c, hc, hfree⟩
    obtain ⟨R, hR, hx⟩ := MmLayout.mem_bodies.mp hc
    have hplaced := mem_placed_of_mem_bodies hx
    exact ⟨R, hR, (hw.visited hR).mpr ⟨c, hplaced⟩, (hw.node hR hplaced).2.1.mpr hfree⟩
  rintro ⟨R, hR, hvisited, hfree⟩
  obtain ⟨c, hc⟩ := (hw.visited hR).mp hvisited
  have hused := (hw.node hR hc).2.1.mp hfree
  rcases mem_placed_iff.mp hc with ⟨-, rfl⟩ | hbody | ⟨-, rfl⟩
  · cases hused
  · exact ⟨c, MmLayout.mem_bodies.mpr ⟨R, hR, hbody⟩, hused⟩
  · cases hused

theorem MmLayout.mem_spans {r : ℕ × ℕ} : r ∈ L.spans ↔ ∃ R ∈ L, (R.base, R.last) = r :=
  mem_map

/-- **A heap with a layout is well formed**, if no two free chunks of the layout lie side by side. -/
theorem HeapShape.heapOk (hs : HeapShape nl h L) (hcoal : L.Coalesced) :
    HeapOk nl h L.pointers := by
  refine ⟨?_, ?_, hs.mallinfo⟩
  · intro r hr
    rw [hs.zip_eq] at hr
    obtain ⟨R, hR, rfl⟩ := MmLayout.mem_spans.mp hr
    exact hs.whole.regionOk hR hcoal
  obtain ⟨B, hlist, hB⟩ := hs.whole.list
  refine ⟨B, hlist, fun x => ?_⟩
  rw [← hB x, hs.whole.freeSet_iff, hs.zip_eq]
  constructor
  · rintro ⟨R, hR, hx⟩
    exact ⟨_, MmLayout.mem_spans.mpr ⟨R, hR, rfl⟩, hx⟩
  · rintro ⟨r, hr, hx⟩
    obtain ⟨R, hR, rfl⟩ := MmLayout.mem_spans.mp hr
    exact ⟨R, hR, hx⟩

end NuttX
