import NuttX.Mm.Alloc

/-!
# Resizing a chunk

`mm_shrinkchunk` gives the end of a chunk back (`NuttX.mmShrinkchunk_spec`). `realloc` makes a chunk
larger where it is, if its free neighbours have enough room.
-/

namespace NuttX

open MmMem MmCtx Option

variable {nl : ℕ} {m m' : MmMem} {k : MmCtx} {n p q s t : ℕ}

/-! ### `mm_shrinkchunk` -/

/-- The end of a chunk becomes part of the free chunk behind it. -/
theorem Held.mmShrinkchunk_of_free (h : Held nl m (k.pushRight ⟨t, false⟩) [⟨s, true⟩])
    (hn : 8 ≤ n ∧ 8 ∣ n) (hlt : n < s) :
    ∃ m', mmShrinkchunk nl m k.addr n = some m' ∧
      Held nl m' (k.pushRight ⟨s - n + t, false⟩) [⟨n, true⟩] := by
  obtain ⟨m1, hm1, hsize, hnext, hnsize, htake⟩ := h.takeNext_one
  have hroom := h.room_next
  rw [mark_false] at hnext
  obtain ⟨hsize1, -, hsize2, -, -, hsmall₁, hs, ht⟩ := htake.two
  have hdvd : 8 ∣ s - n + t := Nat.dvd_add (Nat.dvd_sub hs.2 hn.2) ht.2
  obtain ⟨hcut, hread, hread'⟩ :=
    htake.cutTwo n (s - n + t) false (by omega) hn ⟨by omega, hdvd⟩
  rw [← List.singleton_append] at hcut
  obtain ⟨m', hadd, hheld⟩ := hcut.giveNext (by omega)
  refine ⟨m', ?_, hheld⟩
  have hnew : t + s - n = s - n + t := by omega
  have hzero : s &&& mmAllocBit = 0 := mark_and_allocBit (by omega) false
  simp only [extent_cons, extent_nil, Nat.add_zero, mark_false] at hadd
  simp only [mmShrinkchunk, hsize, hnext, hzero, hnsize, ← hm1, hsize1, hsize2, hnew,
    Nat.add_assoc, if_true]
  rw [← hadd]
  rw [mark_false] at hread hread'
  unfold MmMem.cut at hread hread' ⊢
  rw [hread, hread', or_mark_and_allocBit (by omega) (by omega)]

theorem Held.mmShrinkchunk_of_used (h : Held nl m k [⟨s, true⟩]) (hn : 8 ≤ n ∧ 8 ∣ n)
    (hused : k.next.used = true) (hle : n + sizeofFreenode ≤ s) :
    ∃ m', mmShrinkchunk nl m k.addr n = some m' ∧
      Held nl m' (k.pushRight ⟨s - n, false⟩) [⟨n, true⟩] := by
  obtain ⟨hsize, hprec, hnext, -, hsmall, hs, hdvd⟩ := h.one
  unfold sizeofFreenode at hle
  have hcut : Held nl _ k ([⟨n, true⟩] ++ [⟨s - n, false⟩]) :=
    h.cut (by simp) (by omega : _ = s) hn ⟨by omega, Nat.dvd_sub hdvd hn.2⟩ hprec
  obtain ⟨m', hadd, hheld⟩ := hcut.giveNext (by unfold sizeofFreenode; omega)
  refine ⟨m', ?_, hheld⟩
  have hread : (m.cut k.addr n (s - n) n).size (k.addr + n) = s - n := MmMem.size_cut (by omega)
  simp only [extent_cons, extent_nil, Nat.add_zero, mark_false, hused] at hadd
  simp only [mmShrinkchunk, hsize, hnext, hused]
  rw [mark_and_allocBit (by omega), if_neg (by decide), if_pos (by unfold sizeofFreenode; omega),
    ← hadd]
  unfold MmMem.cut at hread ⊢
  rw [hread, or_allocBit (by omega)]

/-- **`mm_shrinkchunk`**: the end of the chunk is freed, unless it is too small and the chunk behind
is used. -/
theorem mmShrinkchunk_spec (h : HeapWhole nl m ((k.padRight t).fill [⟨s, true⟩]))
    (ht : t = 0 → k.next.used = true) (hn : 8 ≤ n ∧ 8 ∣ n) (hlt : n < s) :
    (t = 0 ∧ s < n + sizeofFreenode ∧ mmShrinkchunk nl m k.addr n = some m) ∨
      (0 < t ∨ n + sizeofFreenode ≤ s) ∧ ∃ m', mmShrinkchunk nl m k.addr n = some m' ∧
        HeapWhole nl m' (k.fill [⟨n, true⟩, ⟨s - n + t, false⟩]) := by
  have hheld := h.held (by simp)
  rcases Nat.eq_zero_or_pos t with rfl | hpos
  · have hused := ht rfl
    rw [padRight_zero] at hheld
    rcases Nat.lt_or_ge s (n + sizeofFreenode) with hs | hs
    · obtain ⟨hsize, -, hnext, -, hsmall, -⟩ := hheld.one
      refine .inl ⟨rfl, hs, ?_⟩
      simp only [mmShrinkchunk, hsize, hnext, hused]
      rw [mark_and_allocBit (by omega), if_neg (by decide), if_neg (by omega)]
    · obtain ⟨m', hshrink, hheld'⟩ := hheld.mmShrinkchunk_of_used hn hused hs
      have hwhole := hheld'.whole (by simp)
      exact .inr ⟨.inr hs, m', hshrink, hwhole⟩
  · rw [padRight_of_pos hpos] at hheld
    obtain ⟨m', hshrink, hheld'⟩ := hheld.mmShrinkchunk_of_free hn hlt
    have hwhole := hheld'.whole (by simp)
    exact .inr ⟨.inl hpos, m', hshrink, hwhole⟩

/-! ### Extending a chunk -/

/-- `realloc` takes a part of the previous chunk. -/
theorem Held.extendPrev_of_lt (h : Held nl m (k.pushLeft ⟨q, false⟩) [⟨s, true⟩])
    (hp : 8 ∣ p) (hlt : p + sizeofFreenode ≤ q) :
    ∃ m', extendPrev nl m (k.addr + q) k.addr (k.addr + q + s) p = some (m', k.addr + (q - p)) ∧
      Held nl m' (k.pushLeft ⟨q - p, false⟩) [⟨s + p, true⟩] := by
  obtain ⟨m1, hm1, hqsize, hsize, htake⟩ := h.takePrev_one
  obtain ⟨hsize1, -, -, -, -, hsmall₁, hq, hs⟩ := htake.two
  unfold sizeofFreenode at hlt
  obtain ⟨hcut, hread, hread'⟩ := htake.cutTwo (q - p) (s + p) true (by omega)
    ⟨by omega, Nat.dvd_sub hq.2 hp⟩ ⟨by omega, Nat.dvd_add hs.2 hp⟩
  obtain ⟨m2, hadd, hheld⟩ := hcut.givePrev (by unfold sizeofFreenode; omega)
  have hsize2 := hheld.one.1
  have hcopy := hheld.memcpy (k.addr + q + sizeofAllocnode)
    (Nat.sub_add_cancel (by unfold sizeofAllocnode; omega)).le
  rw [addr_pushLeft] at hsize2 hcopy
  refine ⟨_, ?_, hcopy⟩
  -- the source writes the two headers in the other order
  have hcut_eq := cut_eq (m := m1) (a := k.addr) (n := q - p) (t := s + p)
    (e := mark (q - p) true) (by omega)
  have hread'' : ((m1.setSize k.addr (q - p)).setSize (k.addr + (q - p)) (s + p)).size k.addr
      = q - p := by
    rw [size_setSize (by omega), size_setSize_self]
  have hnode : k.addr + q - p = k.addr + (q - p) := by omega
  simp only [extendPrev, hsize, hqsize, ← hm1, hsize1, hnode, hread'', Nat.add_assoc]
  rw [if_pos (by omega), or_allocBit (by omega), hcut_eq, hread, hread',
    or_mark_and_allocBit (by omega) (by omega), hadd]
  simp only [bind_eq_bind, bind_some, hsize2]
  rfl

/-- `realloc` takes the whole previous chunk. -/
theorem Held.extendPrev_of_eq (h : Held nl m (k.pushLeft ⟨q, false⟩) [⟨s, true⟩]) :
    ∃ m', extendPrev nl m (k.addr + q) k.addr (k.addr + q + s) q = some (m', k.addr) ∧
      Held nl m' k [⟨q + s, true⟩] := by
  obtain ⟨m1, hm1, hqsize, hsize, htake⟩ := h.takePrev_one
  obtain ⟨hsize1, hprec1, -, -, -, hsmall₁, hq, hs⟩ := htake.two
  have hjoin := htake.joinTwo.1.setUsed true
  have hsize2 := hjoin.one.1
  have hcopy := hjoin.memcpy (k.addr + q + sizeofAllocnode)
    (Nat.sub_add_cancel (by unfold sizeofAllocnode; omega)).le
  refine ⟨_, ?_, hcopy⟩
  have hread : ((m1.setSize k.addr (q + s)).setPreceding k.addr (mark k.prev.size true)).preceding
      (k.addr + (q + s)) = mark s k.next.used := by
    rw [preceding_setPreceding (by omega), htake.joinTwo.2]
  have hread' : ((m1.setSize k.addr (q + s)).setPreceding k.addr (mark k.prev.size true)).size
      k.addr = q + s := by
    rw [size_setPreceding (by omega), size_setSize_self]
  have hread'' : (m1.setSize k.addr (q + s)).preceding k.addr = mark k.prev.size false := by
    rw [preceding_setSize (by omega), hprec1]
  -- the source marks the chunk before it writes behind it
  have hcomm : ((m1.setSize k.addr (q + s)).setPreceding k.addr (mark k.prev.size true)).setPreceding
      (k.addr + (q + s)) (mark (q + s) k.next.used)
      = ((m1.setSize k.addr (q + s)).setPreceding (k.addr + (q + s))
        (mark (q + s) k.next.used)).setPreceding k.addr (mark k.prev.size true) := by
    unfold setPreceding
    rw [Function.update_comm (by omega)]
  simp only [extendPrev, hsize, hqsize, ← hm1, Nat.add_sub_cancel, hsize1, hread'', Nat.add_assoc,
    Nat.lt_irrefl, if_false]
  rw [mark_or_allocBit (by omega), hread, hread', or_mark_and_allocBit (by omega) (by omega), hcomm]
  simp only [bind_eq_bind, bind_some, hsize2]
  rfl

/-- `realloc` takes a part of the next chunk. -/
theorem Held.extendNext_of_lt (h : Held nl m (k.pushRight ⟨t, false⟩) [⟨s, true⟩])
    (hp : 8 ∣ p) (hlt : p + sizeofFreenode ≤ t) :
    ∃ m', extendNext nl m k.addr (k.addr + s) p = some m' ∧
      Held nl m' (k.pushRight ⟨t - p, false⟩) [⟨s + p, true⟩] := by
  obtain ⟨m1, hm1, hsize, -, hnsize, htake⟩ := h.takeNext_one
  obtain ⟨-, -, -, -, -, hsmall₁, hs, ht⟩ := htake.two
  unfold sizeofFreenode at hlt
  obtain ⟨hcut, hread, hread'⟩ := htake.cutTwo (s + p) (t - p) false (by omega)
    ⟨by omega, Nat.dvd_add hs.2 hp⟩ ⟨by omega, Nat.dvd_sub ht.2 hp⟩
  rw [mark_false] at hread hread'
  rw [← List.singleton_append] at hcut
  obtain ⟨m', hadd, hheld⟩ := hcut.giveNext (by unfold sizeofFreenode; omega)
  refine ⟨m', ?_, hheld⟩
  have hcut_eq := cut_eq (m := m1) (a := k.addr) (n := s + p) (t := t - p) (e := s + p) (by omega)
  have hread'' : ((m1.setSize k.addr (s + p)).setSize (k.addr + (s + p)) (t - p)).size k.addr
      = s + p := by
    rw [size_setSize (by omega), size_setSize_self]
  simp only [extent_cons, extent_nil, Nat.add_zero, mark_false] at hadd
  simp only [extendNext, hsize, hnsize, ← hm1, size_setSize_self, hread'']
  rw [if_pos (by omega), hcut_eq, Nat.add_assoc k.addr s t, hread, hread',
    or_mark_and_allocBit (by omega) (by omega), ← hadd]

theorem Held.extendNext_of_eq (h : Held nl m (k.pushRight ⟨t, false⟩) [⟨s, true⟩]) :
    ∃ m', extendNext nl m k.addr (k.addr + s) t = some m' ∧ Held nl m' k [⟨s + t, true⟩] := by
  obtain ⟨m1, hm1, hsize, -, hnsize, htake⟩ := h.takeNext_one
  obtain ⟨-, -, -, -, -, hsmall₁, -⟩ := htake.two
  obtain ⟨hjoin, hread⟩ := htake.joinTwo
  refine ⟨_, ?_, hjoin⟩
  simp only [extendNext, hsize, hnsize, ← hm1, size_setSize_self, Nat.add_assoc,
    Nat.lt_irrefl, if_false, hread]
  rw [or_mark_and_allocBit (by omega) (by omega)]

theorem Held.extendPrev_spec (h : Held nl m (k.padLeft q) [⟨s, true⟩]) (hp : 8 ∣ p)
    (hpos : 0 < p) (hle : p = q ∨ p + sizeofFreenode ≤ q) :
    ∃ m', extendPrev nl m (k.addr + q) k.addr (k.addr + q + s) p = some (m', k.addr + (q - p)) ∧
      Held nl m' (k.padLeft (q - p)) [⟨s + p, true⟩] := by
  rw [padLeft_of_pos (by omega)] at h
  rcases hle with rfl | hle
  · obtain ⟨m', hext, hheld⟩ := h.extendPrev_of_eq
    rw [Nat.sub_self, Nat.add_zero, padLeft_zero, Nat.add_comm s p]
    exact ⟨m', hext, hheld⟩
  · rw [padLeft_of_pos (by unfold sizeofFreenode at hle; omega)]
    exact h.extendPrev_of_lt hp hle

theorem Held.extendNext_spec (h : Held nl m (k.padRight t) [⟨s, true⟩]) (hp : 8 ∣ p)
    (hpos : 0 < p) (hle : p = t ∨ p + sizeofFreenode ≤ t) :
    ∃ m', extendNext nl m k.addr (k.addr + s) p = some m' ∧
      Held nl m' (k.padRight (t - p)) [⟨s + p, true⟩] := by
  rw [padRight_of_pos (by omega)] at h
  rcases hle with rfl | hle
  · obtain ⟨m', hext, hheld⟩ := h.extendNext_of_eq
    rw [Nat.sub_self, padRight_zero]
    exact ⟨m', hext, hheld⟩
  · rw [padRight_of_pos (by unfold sizeofFreenode at hle; omega)]
    exact h.extendNext_of_lt hp hle

/-! ### `realloc` -/

theorem reallocTakes_spec (needed prevsize nextsize : ℕ) (hneeded : 0 < needed)
    (hle : needed ≤ nextsize + prevsize) :
    (reallocTakes needed prevsize nextsize).1 + (reallocTakes needed prevsize nextsize).2 = needed ∧
      (reallocTakes needed prevsize nextsize).1 ≤ prevsize ∧
      (reallocTakes needed prevsize nextsize).2 ≤ nextsize := by
  unfold reallocTakes
  split_ifs <;> simp only <;> omega

theorem dvd_reallocTakes {d needed prevsize nextsize : ℕ} (hneeded : d ∣ needed)
    (hprev : d ∣ prevsize) (hnext : d ∣ nextsize) :
    d ∣ (reallocTakes needed prevsize nextsize).1 ∧
      d ∣ (reallocTakes needed prevsize nextsize).2 := by
  unfold reallocTakes
  split_ifs
  · exact ⟨hprev, Nat.dvd_sub hneeded hprev⟩
  · exact ⟨hneeded, Nat.dvd_zero d⟩
  · exact ⟨Nat.dvd_sub hneeded hnext, hnext⟩
  · exact ⟨Nat.dvd_zero d, hneeded⟩
  · exact ⟨Nat.dvd_zero d, Nat.dvd_zero d⟩

/-- What is left of a free chunk has room for the pointers, if anything is left. -/
def LeavesRoom (take size : ℕ) : Prop := take = size ∨ take + sizeofFreenode ≤ size

/-- The sizes that `realloc` sees before and behind a chunk. -/
theorem Held.sizes (h : Held nl m ((k.padLeft p).padRight q) [⟨s, true⟩])
    (hp : p = 0 → k.prev.used = true) (hq : q = 0 → k.next.used = true) :
    m.size (k.addr + p) = s ∧
    (if m.preceding (k.addr + p + s) &&& mmAllocBit = 0 then m.size (k.addr + p + s) else 0) = q ∧
    (if m.preceding (k.addr + p - (m.preceding (k.addr + p) &&& mmSizeMask)) &&& mmAllocBit = 0
      then m.size (k.addr + p - (m.preceding (k.addr + p) &&& mmSizeMask)) else 0) = p ∧
    (0 < p → k.addr + p - (m.preceding (k.addr + p) &&& mmSizeMask) = k.addr) := by
  obtain ⟨hsize, hprec, hnext, hnsize, hsmall, -⟩ := h.one
  obtain ⟨a, ha, hprev⟩ := h.preceding_prev
  rw [addr_padRight, addr_padLeft] at hsize hprec hnext hnsize hprev
  rw [hprec, mark_and_sizeMask (by omega), hprev, mark_and_allocBit ha, hnext,
    mark_and_allocBit (by omega), hnsize, prev_padRight]
  refine ⟨hsize, ?_, ?_, fun hpos => ?_⟩
  · rcases Nat.eq_zero_or_pos q with rfl | hpos
    · rw [padRight_zero, next_padLeft, hq rfl]
      rfl
    · rw [padRight_of_pos hpos, next_pushRight]
      rfl
  · rcases Nat.eq_zero_or_pos p with rfl | hpos
    · rw [padLeft_zero, hp rfl]
      rfl
    rw [padLeft_of_pos hpos, prev_pushLeft]
    have hleft := h
    rw [← padRight_padLeft, padLeft_of_pos hpos] at hleft
    have hqsize := hleft.size_prev
    rw [addr_padRight] at hqsize
    simp only [Nat.add_sub_cancel, Bool.false_eq_true, if_false, if_true, hqsize]
  · rw [padLeft_of_pos hpos, prev_pushLeft]
    exact Nat.add_sub_cancel _ _

theorem Held.dvd_pads (h : Held nl m ((k.padLeft p).padRight q) [⟨s, true⟩]) :
    8 ∣ p ∧ 8 ∣ q := by
  have hsound := h.sound
  rw [fill_padRight, fill_padLeft] at hsound
  have hdvd := (forall_mem_region.mp (hsound.fits _ region_mem_fill).dvd).2.1
  constructor
  · exact dvd_pad_iff.mp fun c hc => hdvd c (List.mem_append_left _ hc)
  · exact dvd_pad_iff.mp fun c hc => hdvd c (List.mem_append_right _ (List.mem_append_right _ hc))

/-- **`realloc` extends a chunk where it is**, into one of its free neighbours or both. -/
theorem reallocChunk_grow (h : HeapWhole nl m (((k.padLeft p).padRight q).fill [⟨s, true⟩]))
    (hp : p = 0 → k.prev.used = true) (hq : q = 0 → k.next.used = true) (hn : 8 ∣ n) (hlt : s < n)
    (hle : n ≤ q + p + s) (hleft : LeavesRoom (reallocTakes (n - s) p q).1 p)
    (hright : LeavesRoom (reallocTakes (n - s) p q).2 q) :
    ∃ m', reallocChunk nl m (k.addr + p + sizeofAllocnode) n
        = some (m', some (k.addr + (p - (reallocTakes (n - s) p q).1) + sizeofAllocnode)) ∧
      HeapWhole nl m' (k.fill (pad (p - (reallocTakes (n - s) p q).1) ++ [⟨n, true⟩] ++
        pad (q - (reallocTakes (n - s) p q).2))) := by
  have hheld := h.held (by simp)
  obtain ⟨hsize, hqsize, hpsize, hpaddr⟩ := hheld.sizes hp hq
  have hroom := hheld.one.2.2.2.2.2
  obtain ⟨hp8, hq8⟩ := hheld.dvd_pads
  obtain ⟨hsum, hple, hqle⟩ := reallocTakes_spec (n - s) p q (by omega) (by omega)
  obtain ⟨hpd, hqd⟩ := dvd_reallocTakes (Nat.dvd_sub hn hroom.2) hp8 hq8
  obtain ⟨x, hx⟩ : ∃ x, x = (reallocTakes (n - s) p q).1 := ⟨_, rfl⟩
  obtain ⟨y, hy⟩ : ∃ y, y = (reallocTakes (n - s) p q).2 := ⟨_, rfl⟩
  have htakes : reallocTakes (n - s) p q = (x, y) := by rw [hx, hy]
  rw [← hx] at hsum hple hpd hleft ⊢
  rw [← hy] at hsum hqle hqd hright ⊢
  obtain ⟨m1, hstep1, hheld1⟩ : ∃ m1,
      (if x ≠ 0 then extendPrev nl m (k.addr + p)
          (k.addr + p - (m.preceding (k.addr + p) &&& mmSizeMask)) (k.addr + p + s) x
        else some (m, k.addr + p)) = some (m1, k.addr + (p - x)) ∧
      Held nl m1 ((k.padLeft (p - x)).padRight q) [⟨s + x, true⟩] := by
    rcases Nat.eq_zero_or_pos x with rfl | hpos
    · exact ⟨m, rfl, hheld⟩
    rw [← padRight_padLeft] at hheld
    have hext := hheld.extendPrev_spec hpd hpos hleft
    rw [addr_padRight, padRight_padLeft] at hext
    rw [if_pos hpos.ne', hpaddr (by omega)]
    exact hext
  obtain ⟨m2, hstep2, hheld2⟩ : ∃ m2,
      (if y ≠ 0 then extendNext nl m1 (k.addr + (p - x)) (k.addr + p + s) y
        else some m1) = some m2 ∧
      Held nl m2 ((k.padLeft (p - x)).padRight (q - y)) [⟨n, true⟩] := by
    have hn : n = s + x + y := by omega
    rcases Nat.eq_zero_or_pos y with rfl | hpos
    · exact ⟨m1, rfl, hn ▸ hheld1⟩
    have hext := hheld1.extendNext_spec hqd hpos hright
    rw [addr_padLeft, show k.addr + (p - x) + (s + x) = k.addr + p + s by omega, ← hn] at hext
    rw [if_pos hpos.ne']
    exact hext
  refine ⟨m2, ?_, ?_⟩
  · unfold reallocChunk
    simp only [Nat.add_sub_cancel, hsize, hqsize, hpsize, htakes]
    rw [if_neg (by omega), if_pos hle]
    simp only [Option.bind_eq_bind]
    -- the rest of the function stands in both branches of each `if`
    rw [← apply_ite (fun o => Option.bind o _), hstep1, Option.bind_some,
      ← apply_ite (fun o => Option.bind o _), hstep2, Option.bind_some]
    rfl
  · have hwhole := hheld2.whole (by simp)
    rw [fill_padRight, fill_padLeft, ← List.append_assoc] at hwhole
    exact hwhole

theorem reallocChunk_none (h : HeapWhole nl m (((k.padLeft p).padRight q).fill [⟨s, true⟩]))
    (hp : p = 0 → k.prev.used = true) (hq : q = 0 → k.next.used = true) (hlt : q + p + s < n) :
    reallocChunk nl m (k.addr + p + sizeofAllocnode) n = some (m, none) := by
  obtain ⟨hsize, hqsize, hpsize, -⟩ := (h.held (by simp)).sizes hp hq
  unfold reallocChunk
  simp only [Nat.add_sub_cancel, hsize, hqsize, hpsize]
  rw [if_neg (by omega), if_neg (by omega)]
  rfl

theorem reallocChunk_shrink (h : HeapWhole nl m ((k.padRight t).fill [⟨s, true⟩]))
    (ht : t = 0 → k.next.used = true) (hn : 8 ≤ n ∧ 8 ∣ n) (hle : n ≤ s) :
    reallocChunk nl m (k.addr + sizeofAllocnode) n = some (m, some (k.addr + sizeofAllocnode)) ∨
      (n < s ∧ (0 < t ∨ n + sizeofFreenode ≤ s)) ∧
      ∃ m', reallocChunk nl m (k.addr + sizeofAllocnode) n
          = some (m', some (k.addr + sizeofAllocnode)) ∧
        HeapWhole nl m' (k.fill [⟨n, true⟩, ⟨s - n + t, false⟩]) := by
  have hsize : m.size k.addr = s := by
    have hone := (h.held (by simp)).one.1
    rwa [addr_padRight] at hone
  rcases Nat.lt_or_ge n s with hlt | hge
  · rcases mmShrinkchunk_spec h ht hn hlt with ⟨-, -, hshrink⟩ | ⟨hroom, m', hshrink, hwhole⟩
    · left
      simp only [reallocChunk, Nat.add_sub_cancel, hsize, hle, hlt, if_true, hshrink]
      rfl
    · refine .inr ⟨⟨hlt, hroom⟩, m', ?_, hwhole⟩
      simp only [reallocChunk, Nat.add_sub_cancel, hsize, hle, hlt, if_true, hshrink]
      rfl
  · left
    simp only [reallocChunk, Nat.add_sub_cancel, hsize, hle, if_true]
    rw [if_neg (by omega)]
    rfl

end NuttX
