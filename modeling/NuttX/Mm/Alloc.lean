import NuttX.Mm.Held

/-!
# Allocating and freeing a chunk

`malloc` takes a free chunk that is large enough off the list, cuts it if enough remains, and marks
it as used (`NuttX.mallocChunk_spec`). `free` marks a chunk as free, takes its free neighbours off
the list and merges them with it, and puts the result on the list (`NuttX.mmFree_spec`). The chunk
that is put on the list must have room for the pointers, which it has if it did not consist of eight
bytes between two used chunks.
-/

namespace NuttX

open MmCtx List

variable {nl : ℕ} {m m' : MmMem} {L : MmLayout} {k : MmCtx} {n p q s t : ℕ}

/-! ### `malloc` -/

theorem Held.splitChunk_of_le (h : Held nl m k [⟨s, false⟩]) (hn : 8 ≤ n ∧ 8 ∣ n)
    (hle : n + sizeofFreenode ≤ s) :
    ∃ m', splitChunk nl m k.addr n = some m' ∧
      Held nl m' (k.pushRight ⟨s - n, false⟩) [⟨n, false⟩] := by
  obtain ⟨hsize, hprec, hnext, -, hsmall, hs, hdvd⟩ := h.one
  unfold sizeofFreenode at hle
  have hcut : Held nl _ k ([⟨n, false⟩] ++ [⟨s - n, false⟩]) :=
    h.cut (z := s) (by simp) (by omega) hn ⟨by omega, Nat.dvd_sub hdvd hn.2⟩ hprec
  obtain ⟨m', hadd, hheld⟩ := hcut.giveNext (by unfold sizeofFreenode; omega)
  refine ⟨m', ?_, hheld⟩
  have hread : (m.cut k.addr n (s - n) n).preceding (k.addr + s) = mark s k.next.used := by
    rw [MmMem.preceding_cut (by omega), hnext]
  simp only [extent_cons, extent_nil, Nat.add_zero, mark_false] at hadd
  simp only [splitChunk, hsize]
  rw [if_pos (by unfold sizeofFreenode; omega), ← hadd]
  unfold MmMem.cut at hread ⊢
  rw [hread, or_mark_and_allocBit (by omega) (by omega)]

theorem Held.splitChunk_of_lt (h : Held nl m k [⟨s, false⟩])
    (hlt : s < n + sizeofFreenode) : splitChunk nl m k.addr n = some m := by
  obtain ⟨hsize, -⟩ := h.one
  unfold splitChunk
  rw [hsize, if_neg]
  unfold sizeofFreenode at *
  omega

/-- Of the free chunks that have at least `n` bytes none has fewer than `s`. -/
def MmLayout.LeastFit (L : MmLayout) (n s : ℕ) : Prop :=
  n ≤ s ∧ ∀ x t, (x, (⟨t, false⟩ : Chunk)) ∈ L.bodies → n ≤ t → s ≤ t

/-- **The loop of `malloc`** finds a smallest one of the free chunks that are large enough, or there
is none. -/
theorem HeapWhole.exists_fit (h : HeapWhole nl m L) (hn : 0 < n) :
    (findFit m n mmRounds (m.flink (nodeHook nl (mmSize2ndx n))) = some 0 ∧
      ∀ x t, (x, (⟨t, false⟩ : Chunk)) ∈ L.bodies → t < n) ∨
      ∃ (k : MmCtx) (s : ℕ), L = k.fill [⟨s, false⟩] ∧ L.LeastFit n s ∧
        findFit m n mmRounds (m.flink (nodeHook nl (mmSize2ndx n))) = some k.addr := by
  obtain ⟨B, hlist, hB⟩ := h.list
  have hi := mmSize2ndx_lt n
  have hchain : chain nl B = _ := chain_eq hi
  have hlinked := hlist.linked
  have hasc := hlist.ascending
  rw [hchain] at hlinked hasc
  obtain ⟨-, -, hnext, htail⟩ := Dll.append_iff.mp hlinked
  rw [show m.flink (nodeHook nl (mmSize2ndx n)) = headD _ 0 from hnext]
  generalize htl : B (mmSize2ndx n) ++ chainFrom nl B (mmSize2ndx n) = tl at *
  have hmem : ∀ z ∈ tl, z ∈ chain nl B := fun z hz =>
    hchain ▸ mem_append_right _ (mem_cons_of_mem _ hz)
  rw [findFit_eq htail (fun z hz => (h.sound.isNode_space (h.isNode hB z (hmem z hz))).1)
    (MmInv.length_lt_rounds h hlist hB hchain)]
  have hsize : ∀ {x t}, (x, (⟨t, false⟩ : Chunk)) ∈ L.bodies → m.size x = t :=
    fun hx => h.size_eq (MmLayout.mem_placed_of_mem_bodies hx)
  -- a free chunk that is large enough is behind the place where the search begins
  have hfree : ∀ {x t}, (x, (⟨t, false⟩ : Chunk)) ∈ L.bodies → n ≤ t → x ∈ tl := by
    intro x t hx hle
    obtain ⟨j, hj, hxj⟩ := (hB x).mp ⟨_, hx, rfl⟩
    have hndx := hlist.bucket j hj x hxj
    rw [hsize hx] at hndx
    have hij : mmSize2ndx n ≤ j := hndx ▸ mmSize2ndx_mono hle
    rw [← htl, mem_append]
    rcases hij.eq_or_lt with heq | hlt
    · exact .inl (heq ▸ hxj)
    · refine .inr (mem_flatMap.mpr ⟨j, ?_, mem_cons_of_mem _ hxj⟩)
      rw [mem_range'_1]
      omega
  cases hfind : tl.find? fun z => decide (n ≤ m.size z) with
  | none =>
    refine .inl ⟨rfl, fun x t hx => not_le.mp fun hle => ?_⟩
    have hnot := find?_eq_none.mp hfind x (hfree hx hle)
    rw [hsize hx, decide_eq_true_eq] at hnot
    exact hnot hle
  | some z =>
    obtain ⟨hfits, as, bs, heq, has⟩ := find?_eq_some_iff_append.mp hfind
    rw [decide_eq_true_eq] at hfits
    obtain ⟨j, hj, rfl | hzj⟩ := mem_chain.mp (hmem z (by rw [heq]; simp))
    · -- an element of `g_nodelist` has size zero, which is not enough
      rw [hlist.hooks j hj] at hfits
      omega
    obtain ⟨s, -, hzs⟩ := h.listed z ((hB z).mpr ⟨j, hj, hzj⟩)
    rw [hsize hzs] at hfits
    refine .inr ?_
    obtain ⟨k, hL, rfl⟩ := exists_fill hzs
    refine ⟨k, s, hL, ⟨hfits, fun x t hx hle => ?_⟩, rfl⟩
    have hx' := hfree hx hle
    rw [heq, mem_append, mem_cons] at hx'
    rcases hx' with hx' | rfl | hx'
    · have hnot := has x hx'
      rw [hsize hx] at hnot
      simp [hle] at hnot
    · exact ((hsize hzs).symm.trans (hsize hx)).le
    have hbehind := (pairwise_cons.mp (pairwise_append.mp hasc).2.1).2
    rw [heq] at hbehind
    have hzx := (pairwise_cons.mp (pairwise_append.mp hbehind).2.1).1 x hx'
    rw [hsize hzs, hsize hx] at hzx
    exact hzx (by omega) (by omega)

/-- The chunk that is left of a free chunk of size `s` when `n` bytes of it are allocated. -/
def allocated (n s : ℕ) : List Chunk :=
  if n + sizeofFreenode ≤ s then [⟨n, true⟩, ⟨s - n, false⟩] else [⟨s, true⟩]

/-- **`malloc`**: nothing happens, or a smallest one of the free chunks that are large enough is
allocated. -/
theorem mallocChunk_spec (h : HeapWhole nl m L) (hn : 8 ≤ n ∧ 8 ∣ n) :
    (mallocChunk nl m n = some (m, 0) ∧ ∀ x t, (x, (⟨t, false⟩ : Chunk)) ∈ L.bodies → t < n) ∨
      ∃ (k : MmCtx) (s : ℕ) (m' : MmMem), L = k.fill [⟨s, false⟩] ∧ L.LeastFit n s ∧
        mallocChunk nl m n = some (m', k.addr + sizeofAllocnode) ∧
        HeapWhole nl m' (k.fill (allocated n s)) := by
  have hndx : (if mmMaxChunk ≤ n then mmNnodes - 1 else mmSize2ndx n) = mmSize2ndx n := by
    unfold mmSize2ndx
    split_ifs <;> rfl
  rcases h.exists_fit (n := n) (by omega) with ⟨hfit, hnone⟩ | ⟨k, s, rfl, hle, hfit⟩
  · refine .inl ⟨?_, hnone⟩
    unfold mallocChunk
    rw [hndx]
    dsimp only
    rw [hfit]
    rfl
  right
  -- the chunk is taken off the list
  have hheld : Held nl (mmUnlink m k.addr) k [⟨s, false⟩] := by
    have hempty : HeapWhole nl m ((k.pushRight ⟨s, false⟩).fill []) := by simpa using h
    have hheld := (hempty.held (by simp)).takeNext
    simpa using hheld
  have hne : k.addr ≠ 0 := by
    unfold addr sizeofAllocnode
    omega
  obtain ⟨m1, hsplit, hheld1⟩ : ∃ m1, splitChunk nl (mmUnlink m k.addr) k.addr n = some m1 ∧
      HeapWhole nl (m1.setPreceding k.addr (m1.preceding k.addr ||| mmAllocBit))
        (k.fill (allocated n s)) := by
    unfold allocated
    split_ifs with hsplit
    · obtain ⟨m1, heq, hheld1⟩ := hheld.splitChunk_of_le hn hsplit
      have hwhole := hheld1.markUsed.whole (by simp)
      exact ⟨m1, heq, hwhole⟩
    · exact ⟨_, hheld.splitChunk_of_lt (by omega), hheld.markUsed.whole (by simp)⟩
  refine ⟨k, s, _, rfl, hle, ?_, hheld1⟩
  unfold mallocChunk
  rw [hndx]
  dsimp only
  rw [hfit]
  simp only [Option.bind_eq_bind, Option.bind_some, ne_eq, hne, not_false_eq_true, if_true, hsplit]
  rfl

/-! ### `free` -/

theorem Held.mergeNext_of_used (h : Held nl m k [⟨s, false⟩]) (hused : k.next.used = true) :
    mergeNext m k.addr = (m, k.addr + s) := by
  obtain ⟨hsize, -, hnext, -, hsmall, -⟩ := h.one
  simp only [mergeNext, hsize, hnext, hused]
  rw [mark_and_allocBit (by omega)]
  rfl

theorem Held.mergeNext_of_free (h : Held nl m (k.pushRight ⟨t, false⟩) [⟨s, false⟩]) :
    ∃ m', mergeNext m k.addr = (m', k.addr + (s + t)) ∧ Held nl m' k [⟨s + t, false⟩] := by
  obtain ⟨m1, hm1, hsize, hnext, hnsize, htake⟩ := h.takeNext_one
  obtain ⟨hsize1, -, hsize2, -, -, hsmall₁, -⟩ := htake.two
  obtain ⟨hjoin, hread⟩ := htake.joinTwo
  refine ⟨_, ?_, hjoin⟩
  simp only [mergeNext, hsize, hnext, hnsize, ← hm1, hsize1, hsize2, Nat.add_assoc, hread,
    MmMem.size_setSize_self]
  rw [mark_and_allocBit (by omega), or_mark_and_allocBit (by omega) (by omega)]
  rfl

theorem Held.mergePrev_of_used (h : Held nl m k [⟨s, false⟩]) (hused : k.prev.used = true)
    (next : ℕ) : mergePrev m k.addr next = (m, k.addr) := by
  obtain ⟨-, hprec, -⟩ := h.one
  obtain ⟨q, hq, hprev⟩ := h.preceding_prev
  simp only [mergePrev, hprec, mark_false, hprev, hused]
  rw [mark_and_allocBit hq]
  rfl

theorem Held.mergePrev_of_free (h : Held nl m (k.pushLeft ⟨t, false⟩) [⟨s, false⟩]) :
    ∃ m', mergePrev m (k.addr + t) (k.addr + (t + s)) = (m', k.addr) ∧
      Held nl m' k [⟨t + s, false⟩] := by
  obtain ⟨-, hprec, -⟩ := h.one
  obtain ⟨q, hq, hprev⟩ := h.preceding_prev
  simp only [addr_pushLeft, prev_pushLeft, mark_false, Nat.add_sub_cancel] at hprec hprev
  obtain ⟨m1, hm1, -, -, htake⟩ := h.takePrev_one
  obtain ⟨hsize1, -, hsize2, -, -, hsmall₁, -⟩ := htake.two
  obtain ⟨hjoin, hread⟩ := htake.joinTwo
  refine ⟨_, ?_, hjoin⟩
  have hzero : q &&& mmAllocBit = 0 := mark_and_allocBit hq false
  simp only [mergePrev, hprec, hprev, Nat.add_sub_cancel, hzero, if_true, ← hm1, hsize1, hsize2,
    hread, MmMem.size_setSize_self]
  rw [or_mark_and_allocBit (by omega) (by omega)]

theorem Held.mergeNext_spec (h : Held nl m (k.padRight t) [⟨s, false⟩])
    (ht : t = 0 → k.next.used = true) :
    ∃ m', mergeNext m k.addr = (m', k.addr + (s + t)) ∧ Held nl m' k [⟨s + t, false⟩] := by
  rcases Nat.eq_zero_or_pos t with rfl | hpos
  · exact ⟨m, h.mergeNext_of_used (ht rfl), h⟩
  · rw [padRight_of_pos hpos] at h
    exact h.mergeNext_of_free

theorem Held.mergePrev_spec (h : Held nl m (k.padLeft t) [⟨s, false⟩])
    (ht : t = 0 → k.prev.used = true) :
    ∃ m', mergePrev m (k.addr + t) (k.addr + (t + s)) = (m', k.addr) ∧
      Held nl m' k [⟨t + s, false⟩] := by
  rcases Nat.eq_zero_or_pos t with rfl | hpos
  · rw [Nat.zero_add]
    exact ⟨m, h.mergePrev_of_used (ht rfl) _, h⟩
  · rw [padLeft_of_pos hpos] at h
    exact h.mergePrev_of_free

/-- **`free`**: the chunk and its free neighbours become one free chunk. -/
theorem mmFree_spec (h : HeapWhole nl m (((k.padLeft p).padRight q).fill [⟨s, true⟩]))
    (hp : p = 0 → k.prev.used = true) (hq : q = 0 → k.next.used = true)
    (hroom : sizeofFreenode ≤ p + s + q) :
    ∃ m', mmFree nl m (k.addr + p + sizeofAllocnode) = some m' ∧
      HeapWhole nl m' (k.fill [⟨p + s + q, false⟩]) := by
  have hheld := (h.held (by simp)).markFree
  rw [addr_padRight, addr_padLeft] at hheld
  obtain ⟨m1, hmerge₁, hheld1⟩ := hheld.mergeNext_spec (by rwa [next_padLeft])
  obtain ⟨m2, hmerge₂, hheld2⟩ := hheld1.mergePrev_spec hp
  have hlast : Held nl m2 k ([] ++ [⟨p + (s + q), false⟩]) := hheld2
  obtain ⟨m', hadd, hheld'⟩ := hlast.giveNext (by omega)
  refine ⟨m', ?_, ?_⟩
  · have hne : k.addr + p + sizeofAllocnode ≠ 0 := by
      unfold sizeofAllocnode
      omega
    rw [addr_padLeft, Nat.add_assoc k.addr p] at hmerge₁
    unfold mmFree
    rw [if_neg hne, Nat.add_sub_cancel]
    simp only [hmerge₁, hmerge₂]
    simpa using hadd
  · have hwhole := hheld'.whole (by simp)
    rwa [Nat.add_assoc p s q]

end NuttX
