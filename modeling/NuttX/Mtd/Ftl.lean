import Mathlib

/-!
# The flash translation layer

`drivers/mtd/ftl.c` makes a block device of a flash, in which a block can be written only after the
erase block that it belongs to has been erased. `ftl_flush` reads the first and the last erase block
of a request if the request is for a part of them, and writes them back with the new data; those in
between it writes as they are in the caller's buffer.

A request that does not begin with an erase block is taken to fill the first one up to its end. If
it ends before that, data behind the caller's buffer is written, and the number of blocks that
remain wraps around. `NuttX.ftlFlush_iff` says that this is the one thing that goes wrong.
-/

namespace NuttX

/-- The geometry of a flash with `2 ^ shift` blocks in an erase block. The blocks are counted in an
`off_t`. -/
structure FtlGeometry where
  shift : ℕ
  neraseblocks : ℕ
  small : neraseblocks * 2 ^ shift < 2 ^ 31

/-- The number of blocks in an erase block. -/
def FtlGeometry.blkper (geo : FtlGeometry) : ℕ := 2 ^ geo.shift

/-- The number of blocks of the flash. -/
def FtlGeometry.nsectors (geo : FtlGeometry) : ℕ := geo.neraseblocks * geo.blkper

/-- The contents of the flash, how far `buffer` has been moved, and how much of the caller's buffer
has been read, in blocks. -/
structure FtlIo (β : Type*) where
  blocks : ℕ → β
  buffer : ℕ
  used : ℕ

section Model

variable {β : Type*}

/-- `memcpy` of `n` blocks, and `MTD_BWRITE` to erased ones. -/
def memcpyBlocks (dst : ℕ → β) (offset : ℕ) (src : ℕ → β) (n b : ℕ) : β :=
  if offset ≤ b ∧ b < offset + n then src (b - offset) else dst b

variable (geo : FtlGeometry) (erased : β) (data : ℕ → β)

/-- `MTD_ERASE` of the erase block at `rwblock`, and `MTD_BWRITE` of all of it. They fail outside of
the flash only. -/
def eraseWrite (blocks : ℕ → β) (rwblock : ℕ) (eblock : ℕ → β) : Option (ℕ → β) :=
  let eraseblock := rwblock / geo.blkper
  if eraseblock < geo.neraseblocks then
    some (memcpyBlocks (fun b => if b / geo.blkper = eraseblock then erased else blocks b) rwblock
      eblock geo.blkper)
  else none

/-- `ftl_flush` before the aligned block, with the blocks that remain in a `size_t`. -/
def flushBefore (blocks : ℕ → β) (startblock nblocks : ℕ) : Option (ℕ × FtlIo β) :=
  let offset := startblock &&& (geo.blkper - 1)
  let rwblock := startblock - offset
  let n := geo.blkper - offset
  let eblock := memcpyBlocks (fun i => blocks (rwblock + i)) offset data n
  (eraseWrite geo erased blocks rwblock eblock).map fun blocks =>
    ((nblocks + 2 ^ 32 - n) % 2 ^ 32, ⟨blocks, n, n⟩)

/-- The loop of `ftl_flush`. Each round makes `remaining` smaller. -/
def flushLoop : ℕ → ℕ → ℕ → FtlIo β → Option (ℕ × ℕ × FtlIo β)
  | 0, alignedblock, remaining, io => some (alignedblock, remaining, io)
  | rounds + 1, alignedblock, remaining, io =>
    if geo.blkper ≤ remaining then
      (eraseWrite geo erased io.blocks alignedblock fun i => data (io.buffer + i)).bind
        fun blocks => flushLoop rounds (alignedblock + geo.blkper) (remaining - geo.blkper)
          ⟨blocks, io.buffer + geo.blkper, max io.used (io.buffer + geo.blkper)⟩
    else some (alignedblock, remaining, io)

/-- `ftl_flush` behind the last full erase block. -/
def flushAfter (alignedblock remaining : ℕ) (io : FtlIo β) : Option (FtlIo β) :=
  if 0 < remaining then
    let eblock := memcpyBlocks (fun i => io.blocks (alignedblock + i)) 0
      (fun i => data (io.buffer + i)) remaining
    (eraseWrite geo erased io.blocks alignedblock eblock).map fun blocks =>
      ⟨blocks, io.buffer, max io.used (io.buffer + remaining)⟩
  else some io

/-- `ftl_flush`, which returns `nblocks` if it does not fail. The value of `x & ~mask` is what is
left of `x` without `x & mask`. -/
def ftlFlush (blocks : ℕ → β) (startblock nblocks : ℕ) : Option (FtlIo β × ℤ) :=
  let mask := geo.blkper - 1
  let alignedblock := startblock + mask - ((startblock + mask) &&& mask)
  let before :=
    if startblock < alignedblock then flushBefore geo erased data blocks startblock nblocks
    else some (nblocks, ⟨blocks, 0, 0⟩)
  before.bind fun (remaining, io) =>
    (flushLoop geo erased data remaining alignedblock remaining io).bind
      fun (alignedblock, remaining, io) =>
        (flushAfter geo erased data alignedblock remaining io).map fun io => (io, nblocks)

/-- **A write changes the blocks of the request and no others**, and it uses no more of the caller's
buffer than there are blocks. -/
def FtlLaw (blocks : ℕ → β) (startblock nblocks : ℕ) : Prop :=
  ∃ io : FtlIo β, ftlFlush geo erased data blocks startblock nblocks = some (io, (nblocks : ℤ)) ∧
    (∀ b < nblocks, io.blocks (startblock + b) = data b) ∧
    (∀ b, b < startblock ∨ startblock + nblocks ≤ b → io.blocks b = blocks b) ∧ io.used ≤ nblocks

end Model

/-! ### The aligned block -/

section

variable {β : Type*} {geo : FtlGeometry} {erased : β} {blocks data eblock : ℕ → β}
  {io : FtlIo β} {s n m a rounds remaining : ℕ}

namespace FtlGeometry

theorem blkper_pos (geo : FtlGeometry) : 0 < geo.blkper := Nat.two_pow_pos _

theorem and_mask (geo : FtlGeometry) (x : ℕ) : x &&& (geo.blkper - 1) = x % geo.blkper :=
  Nat.and_two_pow_sub_one_eq_mod x geo.shift

/-- The number of blocks from `s` on that are before an aligned one. -/
def before (geo : FtlGeometry) (s : ℕ) : ℕ :=
  if s % geo.blkper = 0 then 0 else geo.blkper - s % geo.blkper

theorem align (geo : FtlGeometry) (s : ℕ) :
    s + (geo.blkper - 1) - (s + (geo.blkper - 1)) % geo.blkper = s + geo.before s := by
  have hlt := Nat.mod_lt s geo.blkper_pos
  have hmask : (geo.blkper - 1) % geo.blkper = geo.blkper - 1 := Nat.mod_eq_of_lt (by omega)
  rw [before, Nat.add_mod, hmask]
  split
  · rename_i hzero
    rw [hzero, Nat.zero_add, hmask]
    omega
  · rw [show s % geo.blkper + (geo.blkper - 1) = s % geo.blkper - 1 + geo.blkper by omega,
      Nat.add_mod_right, Nat.mod_eq_of_lt (by omega)]
    omega

theorem before_aligned (geo : FtlGeometry) (s : ℕ) : (s + geo.before s) % geo.blkper = 0 := by
  rw [← align, Nat.sub_mod_eq_zero_of_mod_eq (Nat.mod_mod ..).symm]

end FtlGeometry

/-! ### The erase blocks of a request -/

/-- **An erase block is written**: the flash has the contents of `target` afterwards, if the other
erase blocks have them before. -/
theorem eraseWrite_eq (ha : a % geo.blkper = 0) (hlt : a < geo.nsectors) (target : ℕ → β)
    (hblock : ∀ i < geo.blkper, eblock i = target (a + i))
    (hother : ∀ b, b < a ∨ a + geo.blkper ≤ b → blocks b = target b) :
    eraseWrite geo erased blocks a eblock = some target := by
  have hmul := Nat.div_mul_cancel (Nat.dvd_of_mod_eq_zero ha)
  rw [eraseWrite, if_pos ((Nat.div_lt_iff_lt_mul geo.blkper_pos).2 hlt)]
  refine congrArg some (funext fun b => ?_)
  rw [memcpyBlocks]
  split
  · rename_i hb
    rw [hblock _ (by omega), Nat.add_sub_cancel' hb.1]
  · rw [if_neg, hother b (by omega)]
    intro heq
    have hdiv := Nat.div_add_mod' b geo.blkper
    have hmod := Nat.mod_lt b geo.blkper_pos
    rw [heq, hmul] at hdiv
    omega

/-- The first `m` blocks of the request have been written. -/
def flushed (blocks data : ℕ → β) (s m : ℕ) : FtlIo β := ⟨memcpyBlocks blocks s data m, m, m⟩

/-- **The first erase block**, if the request does not begin with it: data is taken from the
caller's buffer up to the end of the erase block. -/
theorem flushBefore_spec (hin : s < geo.nsectors) :
    flushBefore geo erased data blocks s n =
      some ((n + 2 ^ 32 - (geo.blkper - s % geo.blkper)) % 2 ^ 32,
        flushed blocks data s (geo.blkper - s % geo.blkper)) := by
  have hle := Nat.mod_le s geo.blkper
  have ha : (s - s % geo.blkper) % geo.blkper = 0 := Nat.sub_mod_eq_zero_of_mod_eq (by simp)
  rw [flushBefore, geo.and_mask, eraseWrite_eq ha (by omega)
    (memcpyBlocks blocks s data (geo.blkper - s % geo.blkper))
    (fun i hi => ?_) fun b hb => ?_]
  · rfl
  · simp only [memcpyBlocks]
    split_ifs <;> first | omega | rfl | (congr 1; omega)
  · rw [memcpyBlocks, if_neg (by omega)]

/-- **The full erase blocks.** -/
theorem flushLoop_spec (ha : (s + m) % geo.blkper = 0) (hm : m ≤ n) (hin : s + n ≤ geo.nsectors)
    (hrounds : n - m ≤ rounds) :
    ∃ m', flushLoop geo erased data rounds (s + m) (n - m) (flushed blocks data s m) =
        some (s + m', n - m', flushed blocks data s m') ∧
      (s + m') % geo.blkper = 0 ∧ m' ≤ n ∧ n - m' < geo.blkper := by
  have hpos := geo.blkper_pos
  induction rounds generalizing m with
  | zero => exact ⟨m, rfl, ha, hm, by omega⟩
  | succ rounds ih =>
    rw [flushLoop]
    split
    · obtain ⟨m', hloop, hrest⟩ := ih (m := m + geo.blkper)
        (by rw [← Nat.add_assoc, Nat.add_mod_right, ha]) (by omega) (by omega)
      refine ⟨m', ?_, hrest⟩
      rw [eraseWrite_eq ha (by omega) (memcpyBlocks blocks s data (m + geo.blkper))
        (fun i hi => ?_) fun b hb => ?_, ← hloop, Option.bind_some, Nat.add_assoc, Nat.sub_sub]
      · rw [flushed, flushed, Nat.max_eq_right (Nat.le_add_right ..)]
      · rw [memcpyBlocks, if_pos (by omega), Nat.add_assoc, Nat.add_sub_cancel_left]
        rfl
      · exact if_congr (by omega) rfl rfl
    · exact ⟨m, rfl, ha, hm, by omega⟩

/-- **The last erase block.** -/
theorem flushAfter_spec (ha : (s + m) % geo.blkper = 0) (hm : m ≤ n) (hin : s + n ≤ geo.nsectors)
    (hlt : n - m < geo.blkper) :
    ∃ io, flushAfter geo erased data (s + m) (n - m) (flushed blocks data s m) = some io ∧
      io.blocks = memcpyBlocks blocks s data n ∧ io.used = n := by
  dsimp only [flushAfter]
  split
  · rw [eraseWrite_eq ha (by omega) (memcpyBlocks blocks s data n)
      (fun i hi => ?_) fun b hb => ?_]
    · refine ⟨_, rfl, rfl, ?_⟩
      simp only [flushed]
      omega
    · simp only [flushed, memcpyBlocks]
      split_ifs <;> first | omega | rfl | (congr 1; omega)
    · exact if_congr (by omega) rfl rfl
  · obtain rfl : m = n := by omega
    exact ⟨_, rfl, rfl, rfl⟩

/-- The loop fails if it is to write more than what is left of the flash. -/
theorem flushLoop_eq_none {q : ℕ} (hq : q ≤ geo.neraseblocks)
    (hle : geo.nsectors + geo.blkper ≤ q * geo.blkper + remaining) (hrounds : remaining ≤ rounds) :
    flushLoop geo erased data rounds (q * geo.blkper) remaining io = none := by
  induction rounds generalizing q remaining io with
  | zero =>
    have hmul : q * geo.blkper ≤ geo.nsectors := Nat.mul_le_mul_right _ hq
    have hpos := geo.blkper_pos
    omega
  | succ rounds ih =>
    have hmul : q * geo.blkper ≤ geo.nsectors := Nat.mul_le_mul_right _ hq
    have hpos := geo.blkper_pos
    rw [flushLoop, if_pos (by omega), eraseWrite, Nat.mul_div_cancel _ hpos]
    split
    · rename_i hlt
      rw [Option.bind_some, ← Nat.succ_mul]
      exact ih hlt (by rw [Nat.succ_mul]; omega) (by omega)
    · rfl

/-- **Up to the aligned block** the caller's buffer is used, whatever its length. -/
theorem ftlFlush_eq (hn : 1 ≤ n) (hin : s + n ≤ geo.nsectors)
    (hr : (n + 2 ^ 32 - geo.before s) % 2 ^ 32 = remaining) :
    ftlFlush geo erased data blocks s n =
      (flushLoop geo erased data remaining (s + geo.before s) remaining
        (flushed blocks data s (geo.before s))).bind fun p =>
          (flushAfter geo erased data p.1 p.2.1 p.2.2).map (·, (n : ℤ)) := by
  have hlt := Nat.mod_lt s geo.blkper_pos
  have hsmall : geo.nsectors < 2 ^ 31 := geo.small
  simp only [ftlFlush, geo.and_mask, geo.align]
  by_cases hs : s % geo.blkper = 0
  · have hbefore : geo.before s = 0 := if_pos hs
    have hnone : flushed blocks data s 0 = ⟨blocks, 0, 0⟩ := by
      rw [flushed, show memcpyBlocks blocks s data 0 = blocks from
        funext fun b => if_neg (by omega)]
    obtain rfl : n = remaining := by omega
    rw [hbefore, hnone, if_neg (by omega), Option.bind_some]
  · have hbefore : geo.before s = geo.blkper - s % geo.blkper := if_neg hs
    rw [hbefore] at hr ⊢
    rw [if_pos (by omega), flushBefore_spec (by omega), hr, Option.bind_some]

/-- A request that ends before the aligned block: `remaining` wraps around, and the loop runs into
the end of the flash. -/
theorem ftlFlush_eq_none (hn : 1 ≤ n) (hin : s + n ≤ geo.nsectors) (hlt : n < geo.before s) :
    ftlFlush geo erased data blocks s n = none := by
  have hsmall : geo.nsectors < 2 ^ 31 := geo.small
  have hk : geo.blkper ≤ geo.nsectors := Nat.le_of_dvd (by omega) (Nat.dvd_mul_left ..)
  have hle : geo.before s ≤ geo.blkper := by
    rw [FtlGeometry.before]
    split <;> omega
  obtain ⟨q, hq⟩ := Nat.dvd_of_mod_eq_zero (geo.before_aligned s)
  rw [Nat.mul_comm] at hq
  have hqle : q < geo.neraseblocks + 1 := by
    refine Nat.lt_of_mul_lt_mul_right (a := geo.blkper) ?_
    rw [Nat.succ_mul, ← hq]
    change _ < geo.nsectors + _
    omega
  rw [ftlFlush_eq hn hin rfl, hq, flushLoop_eq_none (by omega) (by omega) (Nat.le_refl _),
    Option.bind_none]

/-- **When a write is right**: it has to begin with an erase block or to reach the end of the one
that it begins in. -/
theorem ftlFlush_iff (hn : 1 ≤ n) (hin : s + n ≤ geo.nsectors) :
    FtlLaw geo erased data blocks s n ↔ s % geo.blkper = 0 ∨ geo.blkper ≤ s % geo.blkper + n := by
  have hbefore : geo.before s ≤ n ↔ s % geo.blkper = 0 ∨ geo.blkper ≤ s % geo.blkper + n := by
    rw [FtlGeometry.before]
    split <;> omega
  rw [← hbefore, FtlLaw]
  constructor
  · rintro ⟨io, hio, -⟩
    refine Nat.le_of_not_lt fun hlt => ?_
    rw [ftlFlush_eq_none hn hin hlt] at hio
    cases hio
  · intro hle
    have hsmall : geo.nsectors < 2 ^ 31 := geo.small
    obtain ⟨m, hloop, ha, hm, hlt⟩ := flushLoop_spec (geo.before_aligned s) hle hin (Nat.le_refl _)
    obtain ⟨io, hio, hblocks, hused⟩ := flushAfter_spec ha hm hin hlt
    rw [ftlFlush_eq hn hin (show _ = n - geo.before s by omega), hloop, Option.bind_some, hio]
    refine ⟨io, rfl, fun b hb => ?_, fun b hb => ?_, Nat.le_of_eq hused⟩
    · rw [hblocks, memcpyBlocks, if_pos (by omega), Nat.add_sub_cancel_left]
    · rw [hblocks, memcpyBlocks, if_neg (by omega)]

end

/-- Two erase blocks of four blocks. -/
def twoErase : FtlGeometry := ⟨2, 2, by decide⟩

/-- Three blocks from the second one on reach the end of the first erase block. -/
theorem ftlFlush_iff_three :
    1 ≤ 3 ∧ FtlLaw twoErase 255 (fun i => i) (fun _ => 0) 1 3 :=
  ⟨by decide, (ftlFlush_iff (by decide) (by decide)).2 (by decide)⟩

/-- One block from the second one on does not: three blocks are taken from the caller's buffer. -/
theorem not_ftlLaw_one : ¬ FtlLaw twoErase 255 (fun i => i) (fun _ => 0) 1 1 := by
  rintro ⟨io, hio, -⟩
  cases hio

end NuttX
