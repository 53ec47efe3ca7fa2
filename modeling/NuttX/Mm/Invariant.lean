import NuttX.Mm.Nodelist

/-!
# The invariant of the heap

`NuttX.MmInv nl m L S` says that memory `m` has the headers of the layout `L` and that the
list of free chunks has those at the addresses in `S`. There are three ways to change the heap, and
the functions of the memory manager are made of them: a chunk is taken off the list
(`NuttX.MmInv.unlink`), the chunks at one place of the layout are replaced
(`NuttX.MmInv.retile`), and a chunk is put on the list (`NuttX.MmInv.add`).

-/

namespace NuttX

open Function MmLayout MmCtx List

/-- **The invariant of the heap**: memory has the headers of a layout, and the list of free chunks
has those at the addresses in `S`. -/
structure MmInv (nl : ℕ) (m : MmMem) (L : MmLayout) (S : Set ℕ) : Prop where
  sound : L.Sound nl
  headers : ∀ R ∈ L, Headers m R.base 0 R.chunks
  listed : ∀ x ∈ S, ∃ s, sizeofFreenode ≤ s ∧ (x, (⟨s, false⟩ : Chunk)) ∈ L.bodies
  list : ∃ B, Nodelist nl m B ∧ ∀ x, x ∈ S ↔ ∃ i < mmNnodes, x ∈ B i

theorem length_le_of_nodup_of_lt {l : List ℕ} {N : ℕ} (hnodup : l.Nodup) (hlt : ∀ z ∈ l, z < N) :
    l.length ≤ N := by
  have hsub : l ⊆ range N := fun z hz => mem_range.mpr (hlt z hz)
  simpa using (hnodup.subperm hsub).length_le

theorem exists_concat_getLastD (x : ℕ) (l : List ℕ) : ∃ l', x :: l = l' ++ [l.getLastD x] := by
  rcases eq_nil_or_concat l with rfl | ⟨l, y, rfl⟩
  · exact ⟨[], rfl⟩
  · refine ⟨x :: l, ?_⟩
    rw [concat_eq_append, getLastD_concat, cons_append]

namespace MmLayout.Sound

variable {nl : ℕ} {m m' : MmMem} {L : MmLayout} {l : List ℕ} {x : ℕ} {c : Chunk}

section

variable (h : L.Sound nl) (hl : ∀ z ∈ l, IsNode nl L z)

include h hl

theorem spread : Spread l :=
  ⟨fun z hz => (h.isNode_space (hl z hz)).1, fun y hy z hz => h.isNode_apart (hl y hy) (hl z hz)⟩

theorem header_eq (hm : SameButLinks l m m') (hx : (x, c) ∈ L.placed) :
    m' x = m x ∧ m' (x + 4) = m (x + 4) := by
  refine ⟨hm x fun z hz => ?_, hm (x + 4) fun z hz => ?_⟩
  · have := h.isNode_header (hl z hz) hx
    omega
  · have := h.isNode_header (hl z hz) hx
    omega

theorem size_eq (hm : SameButLinks l m m') (hx : IsNode nl L x) : m'.size x = m.size x := by
  refine hm x fun z hz => ?_
  have := h.isNode_apart hx (hl z hz)
  omega

end

end MmLayout.Sound

namespace MmInv

variable {nl : ℕ} {m m' : MmMem} {L : MmLayout} {S : Set ℕ} {B : ℕ → List ℕ} {x s : ℕ} {c : Chunk}

section

variable (h : MmInv nl m L S)

include h

theorem size_eq (hx : (x, c) ∈ L.placed) : m.size x = c.size := by
  obtain ⟨R, hR, hx⟩ := mem_placed.mp hx
  exact ((h.headers R hR).of_mem hx).1

theorem isNode (hB : ∀ x, x ∈ S ↔ ∃ i < mmNnodes, x ∈ B i) : ∀ z ∈ chain nl B, IsNode nl L z := by
  intro z hz
  obtain ⟨i, hi, rfl | hz⟩ := mem_chain.mp hz
  · exact .inl ⟨i, hi, rfl⟩
  · exact .inr (h.listed z ((hB z).mpr ⟨i, hi, hz⟩))

theorem hook_notMem {i : ℕ} (hi : i < mmNnodes) : nodeHook nl i ∉ S := by
  intro hmem
  obtain ⟨s, hs, hx⟩ := h.listed _ hmem
  have hb := h.sound.placed_hooks (mem_placed_of_mem_bodies hx)
  unfold nodeHook sizeofNodelist sizeofFreenode at *
  dsimp only at hb
  omega

theorem nodup_chain (hlist : Nodelist nl m B) (hB : ∀ x, x ∈ S ↔ ∃ i < mmNnodes, x ∈ B i) :
    (chain nl B).Nodup := by
  refine nodup_flatMap.mpr ⟨?_, ?_⟩
  · intro i hi
    rw [mem_range] at hi
    refine nodup_cons.mpr ⟨fun hmem => ?_, hlist.nodup i hi⟩
    exact h.hook_notMem hi ((hB _).mpr ⟨i, hi, hmem⟩)
  refine Pairwise.imp_of_mem ?_ nodup_range
  intro i j hi hj hij z hzi hzj
  rw [mem_range] at hi hj
  rcases mem_cons.mp hzi with rfl | hzi <;> rcases mem_cons.mp hzj with hz | hzj
  · unfold nodeHook at hz
    omega
  · exact h.hook_notMem hi ((hB _).mpr ⟨j, hj, hzj⟩)
  · exact h.hook_notMem hj ((hB _).mpr ⟨i, hi, hz ▸ hzi⟩)
  · -- a chunk is in the bucket of its size only
    exact hij ((hlist.bucket i hi z hzi).symm.trans (hlist.bucket j hj z hzj))

/-- **A chunk is taken off the list.** -/
theorem unlink (hx : x ∈ S) : MmInv nl (mmUnlink m x) L (S \ {x}) := by
  obtain ⟨B, hlist, hB⟩ := h.list
  obtain ⟨i, hi, hxi⟩ := (hB x).mp hx
  obtain ⟨l, r, hBi⟩ := append_of_mem hxi
  obtain ⟨l', hl'⟩ := exists_concat_getLastD (nodeHook nl i) l
  -- the list around the chunk, with it and without
  have hchain : chain nl B = (chainTo nl B i ++ l') ++
      l.getLastD (nodeHook nl i) :: x :: (r ++ chainFrom nl B i) := by
    rw [chain_eq hi, hBi, append_assoc, cons_append, ← cons_append, hl']
    simp
  have hchain' : chain nl (update B i (l ++ r)) = (chainTo nl B i ++ l') ++
      l.getLastD (nodeHook nl i) :: (r ++ chainFrom nl B i) := by
    rw [chain_update hi, append_assoc, ← cons_append, hl']
    simp
  have hnode := h.isNode hB
  have hnodup := h.nodup_chain hlist hB
  have hlinked := hlist.linked
  rw [hchain] at hnode hnodup hlinked
  obtain ⟨hdll, hsame⟩ := unlink_spec hlinked (h.sound.spread hnode) hnodup
  rw [← hchain'] at hdll hsame
  have hnode' : ∀ z ∈ chain nl (update B i (l ++ r)), IsNode nl L z := by
    intro z hz
    refine hnode z ?_
    rw [hchain'] at hz
    simp only [mem_append, mem_cons] at hz ⊢
    tauto
  have hsub : (l ++ r).Sublist (B i) := by
    rw [hBi]
    exact Sublist.append_left (sublist_cons_self x r) l
  refine ⟨h.sound, fun R hR => ?_, fun z hz => h.listed z hz.1,
    update B i (l ++ r), ?_, fun z => ?_⟩
  · refine (h.headers R hR).congr fun z c hz => ?_
    exact h.sound.header_eq hnode' hsame (mem_placed.mpr ⟨R, hR, hz⟩)
  · exact hlist.update (fun z hz => h.sound.size_eq hnode' hsame (hnode' z hz)) hdll
      (fun z hz => hlist.bucket i hi z (hsub.subset hz)) ((hlist.sorted i hi).sublist hsub)
      ((hlist.nodup i hi).sublist hsub)
  have hnodupi := hlist.nodup i hi
  rw [hBi] at hnodupi
  have hxlr := (nodup_middle.mp hnodupi).notMem
  rw [exists_mem_update hi]
  constructor
  · rintro ⟨hz, hzx⟩
    obtain ⟨j, hj, hzj⟩ := (hB z).mp hz
    rcases eq_or_ne j i with rfl | hji
    · left
      rw [hBi] at hzj
      simp only [mem_append, mem_cons] at hzj ⊢
      exact hzj.imp_right fun hz => hz.resolve_left hzx
    · exact .inr ⟨j, hj, hji, hzj⟩
  · rintro (hz | ⟨j, hj, hji, hzj⟩)
    · exact ⟨(hB z).mpr ⟨i, hi, hsub.subset hz⟩, fun hzx => hxlr (hzx ▸ hz)⟩
    · refine ⟨(hB z).mpr ⟨j, hj, hzj⟩, ?_⟩
      -- the chunk is in the bucket of its size only
      rintro rfl
      exact hji ((hlist.bucket j hj _ hzj).symm.trans (hlist.bucket i hi _ hxi))

end

theorem sorted_insert {b1 b2 : List ℕ} {f : ℕ → ℕ}
    (hsorted : (b1 ++ b2).Pairwise fun x y => f x ≤ f y) (hb1 : ∀ z ∈ b1, f z < f x)
    (hb2 : ∀ z ∈ b2.head?, f x ≤ f z) : (b1 ++ x :: b2).Pairwise fun x y => f x ≤ f y := by
  obtain ⟨h1, h2, h12⟩ := pairwise_append.mp hsorted
  have hall : ∀ z ∈ b2, f x ≤ f z := by
    cases b2 with
    | nil => simp
    | cons y b2 =>
      have hy := hb2 y rfl
      intro z hz
      rcases mem_cons.mp hz with rfl | hz
      · exact hy
      · exact hy.trans ((pairwise_cons.mp h2).1 z hz)
  refine pairwise_append.mpr ⟨h1, pairwise_cons.mpr ⟨hall, h2⟩, ?_⟩
  intro y hy z hz
  rcases mem_cons.mp hz with rfl | hz
  · exact (hb1 y hy).le
  · exact h12 y hy z hz

section

variable (h : MmInv nl m L S)

include h

theorem length_lt_rounds (hlist : Nodelist nl m B) (hB : ∀ x, x ∈ S ↔ ∃ i < mmNnodes, x ∈ B i)
    {l r : List ℕ} (hr : chain nl B = l ++ x :: r) : r.length < mmRounds := by
  have hsub : (x :: r).Sublist (chain nl B) := hr ▸ sublist_append_right l (x :: r)
  have hlen := length_le_of_nodup_of_lt ((h.nodup_chain hlist hB).sublist hsub) fun z hz =>
    (h.sound.isNode_space (h.isNode hB z (hsub.subset hz))).2
  rwa [length_cons] at hlen

/-- **The loop of `mm_addfreechunk`** finds the place for a chunk of size `s` in its bucket. -/
theorem exists_spot (hlist : Nodelist nl m B) (hB : ∀ x, x ∈ S ↔ ∃ i < mmNnodes, x ∈ B i) {i : ℕ}
    (hi : i < mmNnodes) (s : ℕ) :
    ∃ b1 b2, B i = b1 ++ b2 ∧ (∀ z ∈ b1, m.size z < s) ∧ (∀ z ∈ b2.head?, s ≤ m.size z) ∧
      findSpot m s mmRounds (nodeHook nl i) (m.flink (nodeHook nl i))
        = some (b1.getLastD (nodeHook nl i), (b2 ++ chainFrom nl B i).headD 0) := by
  have hchain : chain nl B = _ := chain_eq hi
  have hlinked := hlist.linked
  rw [hchain] at hlinked
  obtain ⟨-, -, hnext, htail⟩ := Dll.append_iff.mp hlinked
  rw [show m.flink (nodeHook nl i) = (B i ++ chainFrom nl B i).headD 0 from hnext]
  refine findSpot_eq htail ?_ ?_ ?_
  · intro z hz
    obtain ⟨t, ht, hzt⟩ := h.listed z ((hB z).mpr ⟨i, hi, hz⟩)
    have hplaced := mem_placed_of_mem_bodies hzt
    have hsz : m.size z = t := h.size_eq hplaced
    have hpos := (h.sound.bodies_space hzt).1
    unfold sizeofFreenode at ht
    omega
  · intro z hz
    obtain ⟨j, hj, rfl⟩ := head?_chainFrom hz
    exact hlist.hooks j hj
  · have hlen := h.length_lt_rounds hlist hB hchain
    rw [length_append] at hlen
    omega

theorem notMem_chain (hB : ∀ x, x ∈ S ↔ ∃ i < mmNnodes, x ∈ B i) (hx : (x, c) ∈ L.bodies)
    (hxS : x ∉ S) : x ∉ chain nl B := by
  intro hmem
  obtain ⟨j, hj, hz | hz⟩ := mem_chain.mp hmem
  · have hplaced := mem_placed_of_mem_bodies hx
    have hb := h.sound.placed_hooks hplaced
    have hroom := h.sound.room_placed hplaced
    unfold nodeHook at hz
    unfold sizeofNodelist sizeofAllocnode at *
    omega
  · exact hxS ((hB x).mpr ⟨j, hj, hz⟩)

/-- **A free chunk is put on the list**: `mm_addfreechunk` comes to an end. -/
theorem add (hx : (x, (⟨s, false⟩ : Chunk)) ∈ L.bodies) (hs : sizeofFreenode ≤ s) (hxS : x ∉ S) :
    ∃ m', mmAddfreechunk nl m x = some m' ∧ MmInv nl m' L (insert x S) := by
  obtain ⟨B, hlist, hB⟩ := h.list
  have hxsize : m.size x = s := h.size_eq (mem_placed_of_mem_bodies hx)
  obtain ⟨i, hi⟩ : ∃ i, i = mmSize2ndx s := ⟨_, rfl⟩
  have hlt : i < mmNnodes := hi ▸ mmSize2ndx_lt s
  obtain ⟨b1, b2, hBi, hb1, hb2, hspot⟩ := h.exists_spot hlist hB hlt s
  obtain ⟨l', hl'⟩ := exists_concat_getLastD (nodeHook nl i) b1
  obtain ⟨y, hy⟩ : ∃ y, y = b1.getLastD (nodeHook nl i) := ⟨_, rfl⟩
  obtain ⟨r, hr⟩ : ∃ r, r = b2 ++ chainFrom nl B i := ⟨_, rfl⟩
  rw [← hy] at hl' hspot
  rw [← hr] at hspot
  -- the list around the chunk, without it and with it
  have hold : chain nl B = (chainTo nl B i ++ l') ++ y :: r := by
    rw [chain_eq hlt, hBi, append_assoc, ← cons_append, hl', hr]
    simp
  have hnew : chain nl (update B i (b1 ++ x :: b2)) = (chainTo nl B i ++ l') ++ y :: x :: r := by
    rw [chain_update hlt, append_assoc, ← cons_append, hl', hr]
    simp
  have hnode' : ∀ z ∈ chain nl (update B i (b1 ++ x :: b2)), IsNode nl L z := by
    intro z hz
    by_cases hzx : z = x
    · exact hzx ▸ .inr ⟨s, hs, hx⟩
    refine h.isNode hB z ?_
    rw [hnew] at hz
    rw [hold]
    simp only [mem_append, mem_cons] at hz ⊢
    tauto
  have hnodup : (chain nl (update B i (b1 ++ x :: b2))).Nodup := by
    rw [hnew, append_cons]
    refine nodup_middle.mpr (nodup_cons.mpr ⟨?_, ?_⟩)
    · rw [← append_cons, ← hold]
      exact h.notMem_chain hB hx hxS
    · rw [← append_cons, ← hold]
      exact h.nodup_chain hlist hB
  obtain ⟨hdll, hsame⟩ :=
    link_spec (hold ▸ hlist.linked) (hnew ▸ h.sound.spread hnode') (hnew ▸ hnodup)
  rw [← hnew] at hdll hsame
  have hxb : x ∉ b1 ++ b2 := fun hmem => hxS ((hB x).mpr ⟨i, hlt, hBi ▸ hmem⟩)
  refine ⟨linkBetween m y x (r.headD 0), ?_, h.sound, fun R hR => ?_, ?_,
    update B i (b1 ++ x :: b2), hlist.update ?_ hdll ?_ ?_ ?_, fun z => ?_⟩
  · unfold mmAddfreechunk
    rw [hxsize, ← hi]
    dsimp only
    rw [hspot]
    rfl
  · refine (h.headers R hR).congr fun z c hz => ?_
    exact h.sound.header_eq hnode' hsame (mem_placed.mpr ⟨R, hR, hz⟩)
  · rintro z (rfl | hz)
    · exact ⟨s, hs, hx⟩
    · exact h.listed z hz
  · exact fun z hz => h.sound.size_eq hnode' hsame (hnode' z hz)
  · intro z hz
    rcases mem_cons.mp (perm_middle.mem_iff.mp hz) with rfl | hz
    · rw [hxsize, hi]
    · exact hlist.bucket i hlt z (hBi ▸ hz)
  · exact sorted_insert (hBi ▸ hlist.sorted i hlt) (fun z hz => hxsize ▸ hb1 z hz)
      fun z hz => hxsize ▸ hb2 z hz
  · exact nodup_middle.mpr (nodup_cons.mpr ⟨hxb, hBi ▸ hlist.nodup i hlt⟩)
  · rw [exists_mem_update hlt, Set.mem_insert_iff, hB z, perm_middle.mem_iff, mem_cons,
      ← hBi, or_assoc]
    refine or_congr_right ⟨?_, ?_⟩
    · rintro ⟨j, hj, hz⟩
      rcases eq_or_ne j i with rfl | hji
      · exact .inl hz
      · exact .inr ⟨j, hj, hji, hz⟩
    · rintro (hz | ⟨j, hj, -, hz⟩)
      · exact ⟨i, hlt, hz⟩
      · exact ⟨j, hj, hz⟩

end

/-- **The chunks in a gap are replaced**: memory is changed in the gap and in the field `preceding`
of the node behind it, and no chunk in the gap is in the list. -/
theorem retile {k : MmCtx} {mid mid' : List Chunk} (h : MmInv nl m (k.fill mid) S)
    (hS : ∀ x ∈ S, ∃ c, (x, c) ∈ k.outer (extent Chunk.size mid))
    (hext : extent Chunk.size mid' = extent Chunk.size mid)
    (hroom : ∀ c ∈ mid', sizeofAllocnode ≤ c.size) (hdvd : ∀ c ∈ mid', 8 ∣ c.size)
    (hm : ∀ w, (w < k.addr ∨ k.addr + extent Chunk.size mid ≤ w) →
      w ≠ k.addr + extent Chunk.size mid + 4 → m' w = m w)
    (hheaders : Headers m' k.addr k.prev.size mid')
    (hnext : m'.preceding (k.addr + extent Chunk.size mid)
      = mark (lastSize k.prev.size mid') k.next.used) :
    MmInv nl m' (k.fill mid') S := by
  have hsound := sound_refill h.sound hext hroom hdvd
  have hnextp := next_placed k mid
  have hnextroom := h.sound.room_placed hnextp
  unfold sizeofAllocnode at hnextroom
  obtain ⟨hself, hothers⟩ := forall_mem_fill.mp h.headers
  -- a chunk in the list is the same one as before
  have houter : ∀ x ∈ S, ∃ s, sizeofFreenode ≤ s ∧
      (x, (⟨s, false⟩ : Chunk)) ∈ k.outer (extent Chunk.size mid) := by
    intro x hx
    obtain ⟨s, hs, hxs⟩ := h.listed x hx
    obtain ⟨c, hc⟩ := hS x hx
    obtain rfl := h.sound.bodies_unique hxs (mem_bodies_fill.mpr (.inl hc))
    exact ⟨s, hs, hc⟩
  refine ⟨hsound, forall_mem_fill.mpr ⟨?_, fun R hR => ?_⟩, ?_, ?_⟩
  · obtain ⟨hleft, -, hsize, -, hright⟩ := headers_iff.mp hself
    refine headers_iff.mpr ⟨?_, hheaders, ?_, ?_, ?_⟩
    · refine hleft.congr fun x c hx => ?_
      have hb := place_bounds hx
      have hc := mem_of_mem_place hx
      have hfits := (h.sound.fits _ region_mem_fill).room c
      have haddr := k.base_add_left
      have hcsize : 8 ≤ c.size := by
        rcases mem_cons.mp hc with rfl | hc
        · exact le_refl _
        · exact hfits (mem_append_left _ hc)
      exact ⟨hm x (.inl (by omega)) (by omega), hm (x + 4) (.inl (by omega)) (by omega)⟩
    · rw [hext]
      exact (hm _ (.inr (le_refl _)) (by omega)).trans hsize
    · rw [hext]
      exact hnext
    · rw [hext]
      refine hright.congr fun x c hx => ?_
      have hb := place_bounds hx
      exact ⟨hm x (.inr (by omega)) (by omega), hm (x + 4) (.inr (by omega)) (by omega)⟩
  · -- another region lies apart from the one with the gap
    refine (hothers R hR).congr fun x c hx => ?_
    have hapart := region_apart h.sound hR
    have hb := MmRegion.placed_bounds hx
    have hgap := region_bounds k mid
    unfold MmRegion.Apart sizeofAllocnode at *
    exact ⟨hm x (by omega) (by omega), hm (x + 4) (by omega) (by omega)⟩
  · intro x hx
    obtain ⟨s, hs, hxs⟩ := houter x hx
    exact ⟨s, hs, mem_bodies_fill.mpr (.inl (hext ▸ hxs))⟩
  · obtain ⟨B, hlist, hB⟩ := h.list
    refine ⟨B, hlist.congr fun z hz => ?_, hB⟩
    have hstay : ∀ w, (w < k.addr ∨ k.addr + extent Chunk.size mid ≤ w) ∧
        w ≠ k.addr + extent Chunk.size mid + 4 → m' w = m w := fun w hw => hm w hw.1 hw.2
    suffices hz : z + 16 ≤ k.addr ∨ (k.addr + extent Chunk.size mid ≤ z ∧
        (z = k.addr + extent Chunk.size mid ∨ z + 16 ≤ k.addr + extent Chunk.size mid + 4 ∨
          k.addr + extent Chunk.size mid + 8 ≤ z)) by
      exact ⟨hstay z (by omega), hstay (z + 8) (by omega), hstay (z + 12) (by omega)⟩
    obtain ⟨i, hi, rfl | hz⟩ := mem_chain.mp hz
    · -- an element of `g_nodelist` lies apart from the regions
      have hhooks := h.sound.hooks _ region_mem_fill
      have hgap := region_bounds k mid
      unfold nodeHook sizeofNodelist at *
      omega
    · obtain ⟨s, hs, hzs⟩ := houter z ((hB z).mpr ⟨i, hi, hz⟩)
      have hgap := outer_apart h.sound hzs
      have hb := h.sound.placed_apart
        (mem_placed_of_mem_bodies (mem_bodies_fill.mpr (.inl hzs))) hnextp
      unfold sizeofFreenode at hs
      dsimp only at hgap hb
      omega

end MmInv

end NuttX
