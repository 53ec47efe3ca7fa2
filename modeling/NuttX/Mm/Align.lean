import NuttX.Mm.Resize

/-!
# Aligned chunks

`memalign` allocates more than is asked for, and then, in a second critical section, frees what lies
before an aligned address and what lies behind (`NuttX.alignChunk_spec`). The part before is never
too small for the pointers of the list: if it would be, the next aligned address is taken. The part
behind is never too small either, since twice the alignment has been allocated on top. But the chunk
that remains has a size that is a multiple of 8 and not of 16.
-/

namespace NuttX

open MmMem

variable {nl : ℕ} {m m' : MmMem} {k : MmCtx} {d j n s t : ℕ} {x : ℕ}

/-! ### Rounding -/

theorem and_not_mask (hx : x < 0x100000000) (hj : j ≤ 32) :
    x &&& (0xffffffff - (2 ^ j - 1)) = x / 2 ^ j * 2 ^ j := by
  have hmask : 0xffffffff - (2 ^ j - 1) = (2 ^ (32 - j) - 1) <<< j := by
    have hpow : 2 ^ (32 - j) * 2 ^ j = 0x100000000 := by
      rw [← Nat.pow_add, Nat.sub_add_cancel hj]
    have hpos := Nat.two_pow_pos j
    rw [Nat.shiftLeft_eq, Nat.sub_mul, hpow]
    omega
  have hfloor : x / 2 ^ j * 2 ^ j = (x >>> j) <<< j := by
    rw [Nat.shiftLeft_eq, Nat.shiftRight_eq_div_pow]
  rw [hmask, hfloor]
  refine Nat.eq_of_testBit_eq fun i => ?_
  by_cases hij : j ≤ i
  · by_cases hi : i < 32
    · simp [hij, show i - j < 32 - j by omega]
    · have hbit : x.testBit i = false :=
        Nat.testBit_lt_two_pow (lt_of_lt_of_le hx (Nat.pow_le_pow_right (n := 2) (by decide)
          (by omega : 32 ≤ i)))
      simp [hij, hbit]
  · simp [hij]

theorem mmAlignUp_eq (hx : x + 15 < 0x100000000) : mmAlignUp x = (x + 15) / 16 * 16 := by
  unfold mmAlignUp wrap32
  rw [Nat.mod_eq_of_lt hx]
  exact and_not_mask (j := 4) hx (by decide)

theorem mmAlignDown_eq (hx : x < 0x100000000) : mmAlignDown x = x / 16 * 16 :=
  and_not_mask (j := 4) hx (by decide)

theorem chunkSize_eq (hx : x + 23 < 0x100000000) : chunkSize x = (x + 23) / 16 * 16 := by
  unfold chunkSize sizeofAllocnode wrap32
  rw [Nat.mod_eq_of_lt (by omega)]
  exact mmAlignUp_eq (by omega)

/-! ### `memalign` -/

theorem Held.freeHead (h : Held nl m k [⟨s, true⟩]) (hd : sizeofFreenode ≤ d ∧ 8 ∣ d)
    (hle : d + 8 ≤ s) :
    ∃ m', mmAddfreechunk nl
        ((((m.cut k.addr d (s - d) (mark d true)).setPreceding k.addr
          (m.preceding k.addr &&& mmSizeMask))).setPreceding (k.addr + s)
          (mark (s - d) k.next.used)) k.addr = some m' ∧
      Held nl m' (k.pushLeft ⟨d, false⟩) [⟨s - d, true⟩] := by
  obtain ⟨-, -, -, -, -, hs, hdvd⟩ := h.one
  obtain ⟨hd16, hd8⟩ := hd
  unfold sizeofFreenode at hd16
  have hfree := h.markFree
  have hprec := hfree.one.2.1
  have hcut : Held nl _ k [⟨d, false⟩, ⟨s - d, true⟩] :=
    hfree.cut (by simp) (by omega : _ = s) ⟨by omega, hd8⟩ ⟨by omega, Nat.dvd_sub hdvd hd8⟩ hprec
  have hcomm : (m.setPreceding k.addr (m.preceding k.addr &&& mmSizeMask)).cut k.addr d (s - d)
      (mark d true) = (m.cut k.addr d (s - d) (mark d true)).setPreceding k.addr
        (m.preceding k.addr &&& mmSizeMask) := by
    unfold MmMem.cut MmMem.setSize MmMem.setPreceding
    rw [Function.update_comm (by omega : k.addr + 4 ≠ k.addr + d),
      Function.update_comm (by omega : k.addr + 4 ≠ k.addr + d + 4),
      Function.update_comm (by omega : k.addr + 4 ≠ k.addr)]
  rw [← hcomm]
  exact hcut.givePrev hd16

/-- How many bytes `memalign` frees before the aligned address that it returns. -/
def alignHead (alignment rawchunk : ℕ) : ℕ :=
  let d := (rawchunk + (alignment - 1)) / alignment * alignment - rawchunk
  if d = 0 then 0 else if d < sizeofFreenode then d + alignment else d

theorem dvd_two_pow (hj : mmMinChunk < 2 ^ j) : 8 ∣ 2 ^ j := by
  have hj3 : 3 ≤ j := by
    by_contra hlt
    have hpow := Nat.pow_le_pow_right (n := 2) (by decide) (by omega : j ≤ 2)
    unfold mmMinChunk at hj
    omega
  exact Nat.pow_dvd_pow 2 hj3

theorem le_alignUp {al : ℕ} (x : ℕ) (hal : 0 < al) :
    x ≤ (x + (al - 1)) / al * al ∧ (x + (al - 1)) / al * al ≤ x + (al - 1) := by
  have hfloor := Nat.div_add_mod (x + (al - 1)) al
  have hmod := Nat.mod_lt (x + (al - 1)) hal
  rw [Nat.mul_comm] at hfloor
  omega

theorem alignHead_spec (hj : mmMinChunk < 2 ^ j) (hx : 8 ∣ x) :
    (alignHead (2 ^ j) x = 0 ∨ sizeofFreenode ≤ alignHead (2 ^ j) x) ∧ 8 ∣ alignHead (2 ^ j) x ∧
      alignHead (2 ^ j) x ≤ 2 ^ j + 8 := by
  have hdvd := dvd_two_pow hj
  have hup := le_alignUp x (Nat.two_pow_pos j)
  have hd : 8 ∣ (x + (2 ^ j - 1)) / 2 ^ j * 2 ^ j - x :=
    Nat.dvd_sub (Nat.dvd_mul_left_of_dvd hdvd _) hx
  unfold alignHead sizeofFreenode mmMinChunk at *
  dsimp only
  split_ifs with h0 h16
  · exact ⟨.inl rfl, Nat.dvd_zero 8, by omega⟩
  · exact ⟨.inr (by omega), Nat.dvd_add hd hdvd, by omega⟩
  · exact ⟨.inr (by omega), hd, by omega⟩

/-- **The second part of `memalign`**: what lies before the aligned address is freed, and what lies
behind the aligned chunk is freed. -/
theorem alignChunk_spec (h : HeapWhole nl m ((k.padRight t).fill [⟨s, true⟩]))
    (ht : t = 0 → k.next.used = true) (hj : mmMinChunk < 2 ^ j) (hn : 8 ∣ n)
    (hs : n + 2 * 2 ^ j + 16 ≤ s) (hd : d = alignHead (2 ^ j) (k.addr + sizeofAllocnode)) :
    ∃ m', alignChunk nl m (2 ^ j) n (n + 2 * 2 ^ j) (k.addr + sizeofAllocnode)
        = some (m', k.addr + d + sizeofAllocnode) ∧
      HeapWhole nl m'
        (k.fill (pad d ++ [⟨n + sizeofAllocnode, true⟩,
          ⟨s - d - (n + sizeofAllocnode) + t, false⟩])) := by
  have hheld := h.held (by simp)
  obtain ⟨haddr8, hspace⟩ := hheld.addr_bounds
  obtain ⟨hsize, -, hnext, -, hsmall, -⟩ := hheld.one
  simp only [extent_cons, extent_nil, MmCtx.addr_padRight, Nat.add_zero]
    at haddr8 hspace hsize hnext
  have hraw8 : 8 ∣ k.addr + sizeofAllocnode := Nat.dvd_add haddr8 (Nat.dvd_refl 8)
  obtain ⟨hd16, hd8, hdle⟩ := alignHead_spec hj hraw8
  rw [← hd] at hd16 hd8 hdle
  have hup := le_alignUp (k.addr + sizeofAllocnode) (Nat.two_pow_pos j)
  -- the aligned address is computed without an overflow
  have hj32 : j ≤ 32 := by
    by_contra hlt
    have hpow := Nat.pow_le_pow_right (n := 2) (by decide) (by omega : 32 ≤ j)
    omega
  have haligned : wrap32 (k.addr + sizeofAllocnode + (2 ^ j - 1)) &&& (0xffffffff - (2 ^ j - 1))
      = (k.addr + sizeofAllocnode + (2 ^ j - 1)) / 2 ^ j * 2 ^ j := by
    have hlt : k.addr + sizeofAllocnode + (2 ^ j - 1) < 0x100000000 := by
      unfold sizeofAllocnode
      omega
    unfold wrap32
    rw [Nat.mod_eq_of_lt hlt]
    exact and_not_mask hlt hj32
  have hn8 : 8 ≤ n + sizeofAllocnode ∧ 8 ∣ n + sizeofAllocnode :=
    ⟨Nat.le_add_left _ _, Nat.dvd_add hn (Nat.dvd_refl 8)⟩
  unfold alignHead at hd
  generalize hA : (k.addr + sizeofAllocnode + (2 ^ j - 1)) / 2 ^ j * 2 ^ j = A at *
  unfold mmMinChunk at hj
  rcases Nat.eq_or_lt_of_le hup.1 with heq | hlt
  · -- the address is aligned as it is
    have hd0 : d = 0 := by rw [hd, if_pos (by omega)]
    rcases mmShrinkchunk_spec h ht hn8 (by unfold sizeofAllocnode; omega) with
      ⟨-, hlt, -⟩ | ⟨-, m', hshrink, hwhole⟩
    · unfold sizeofAllocnode sizeofFreenode at hlt
      omega
    refine ⟨m', ?_, ?_⟩
    · unfold alignChunk
      simp only [haligned, ← heq, Nat.add_sub_cancel, ne_eq, not_true_eq_false, if_false]
      simp only [Option.pure_def, Option.bind_eq_bind, Option.bind_some]
      rw [if_pos (by omega), hshrink, hd0]
      rfl
    · rw [hd0]
      exact hwhole
  -- the part before the aligned address is freed first
  have hA8 : k.addr + sizeofAllocnode + d
      = if A - sizeofAllocnode - k.addr < sizeofFreenode then A + 2 ^ j else A := by
    rw [hd, if_neg (by omega)]
    split_ifs <;> omega
  have hd0 : d ≠ 0 := by
    rw [hd, if_neg (by omega)]
    split_ifs <;> omega
  have hd16 := hd16.resolve_left hd0
  obtain ⟨m1, hadd, hheld1⟩ := hheld.freeHead ⟨hd16, hd8⟩ (by omega)
  have hwhole₁ := hheld1.whole (by simp)
  rw [← MmCtx.padLeft_of_pos (by omega), MmCtx.padRight_padLeft] at hwhole₁
  have hshrink := mmShrinkchunk_spec hwhole₁ (by rwa [MmCtx.next_padLeft]) hn8
    (by unfold sizeofAllocnode; omega)
  rcases hshrink with ⟨-, hlt, -⟩ | ⟨-, m', hshrink, hwhole⟩
  · unfold sizeofAllocnode sizeofFreenode at hlt
    omega
  rw [MmCtx.addr_padLeft] at hshrink
  rw [MmCtx.fill_padLeft] at hwhole
  refine ⟨m', ?_, hwhole⟩
  rw [MmCtx.addr_padRight] at hadd
  have hnode : k.addr + sizeofAllocnode + d - sizeofAllocnode = k.addr + d := by omega
  have hsize1 : ((m.cut k.addr d (s - d) (mark d true)).setPreceding k.addr
      (m.preceding k.addr &&& mmSizeMask)).size (k.addr + d) = s - d := by
    rw [size_setPreceding (by omega), size_cut (by omega)]
  have hprec1 : (m.cut k.addr d (s - d) (mark d true)).preceding k.addr = m.preceding k.addr := by
    unfold cut
    rw [preceding_setSize (by omega), preceding_setPreceding (by omega),
      preceding_setSize (by omega)]
  have hnext1 : ((m.cut k.addr d (s - d) (mark d true)).setPreceding k.addr
      (m.preceding k.addr &&& mmSizeMask)).preceding (k.addr + s)
      = mark s (k.padRight t).next.used := by
    rw [preceding_setPreceding (by omega), preceding_cut (by omega), hnext]
  unfold alignChunk
  simp only [haligned, Nat.add_sub_cancel, hsize, ne_eq, hlt.ne', not_false_eq_true, if_true,
    ← hA8, hnode, Nat.add_sub_cancel_left, Nat.add_sub_add_left]
  rw [or_allocBit (by omega)]
  unfold cut at hsize1 hprec1 hnext1 hadd
  rw [hprec1, hsize1, hnext1, or_mark_and_allocBit (by omega) (by omega), hadd]
  simp only [Option.pure_def, Option.bind_eq_bind, Option.bind_some]
  rw [size_setPreceding (by omega), hsize1, if_pos (by unfold sizeofAllocnode; omega), hshrink]
  simp only [Option.bind_some, Nat.add_right_comm]

end NuttX
