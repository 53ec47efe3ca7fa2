import NuttX.Fat.File

/-!
# What the buffer of a file writes back

`fat_ffcacheflush` is to write a buffer that has been modified. It writes every buffer that holds a
sector, and so a file that is only read puts back what it has read
(`NuttX.FatIo.clean_unwritten_iff`).
-/

namespace NuttX.FatIo

variable {g : FatGeometry}

/-- The uses of the buffer of a file. What `fat_write` does to it is to fill it, for the sector it
holds or, when that has been flushed, for another one. -/
inductive BufferOp (g : FatGeometry)
  | read (sector : ℤ)
  | flush
  | invalidate
  | modify (sector : ℤ) (buffer : ℕ → UInt8)
  /-- The volume is changed through another file. -/
  | elsewhere (fs : FatMountpt g)

def bufferStep (io : FatIo g) : BufferOp g → FatIo g
  | .read sector => io.fatFfcacheread sector
  | .flush => io.fatFfcacheflush
  | .invalidate => io.fatFfcacheinvalidate
  | .modify sector buffer => { io with ff := { io.ff with
      cachesector := sector
      buffer := buffer
      bflags := io.ff.bflags ||| 0x07 } }
  | .elsewhere fs => { io with fs := fs }

/-- The sector that is in the buffer, or 0, and whether the buffer has been modified since it was
read or written back. -/
def bufferUse (use : ℤ × Bool) : BufferOp g → ℤ × Bool
  | .read sector => if use.1 = sector then use else (sector, false)
  | .flush => (use.1, false)
  | .invalidate => (0, false)
  | .modify sector _ => (sector, true)
  | .elsewhere _ => use

/-- A call of `fat_ffcacheflush` or `fat_ffcacheinvalidate` writes to the device. -/
def WritesBack (io : FatIo g) : Prop :=
  io.fatFfcacheflush.fs.writes ≠ io.fs.writes ∨ io.fatFfcacheinvalidate.fs.writes ≠ io.fs.writes

/-- The sector in the buffer, which is valid if there is one. -/
structure Buffers (io : FatIo g) (sector : ℤ) : Prop where
  cachesector : io.ff.cachesector = sector
  valid : sector ≠ 0 → io.ff.bflags &&& 0x01 ≠ 0

theorem valid_of_or (b : UInt8) : (b ||| 0x01) &&& 0x01 ≠ 0 ∧ (b ||| 0x07) &&& 0x01 ≠ 0 := by
  rcases b with ⟨b⟩
  revert b
  decide

variable {io : FatIo g} {sector : ℤ} {use : ℤ × Bool}

theorem Buffers.flush (h : io.Buffers sector) : io.fatFfcacheflush.Buffers sector := by
  unfold fatFfcacheflush
  split_ifs
  · refine ⟨h.cachesector, fun hne => ?_⟩
    rw [UInt8.and_assoc]
    exact h.valid hne
  · exact h

theorem Buffers.step (h : io.Buffers use.1) (op : BufferOp g) :
    (io.bufferStep op).Buffers (bufferUse use op).1 := by
  cases op with
  | read sector =>
    have hheld : (bufferUse (g := g) use (.read sector)).1 = sector := by
      rw [bufferUse]
      split_ifs with heq
      · exact heq
      · rfl
    rw [hheld, bufferStep, fatFfcacheread]
    split_ifs with hread
    · exact ⟨rfl, fun _ => (valid_of_or _).1⟩
    · obtain ⟨heq, hvalid⟩ := not_or.mp hread
      exact ⟨not_not.mp heq, fun _ => hvalid⟩
  | flush => exact h.flush
  | invalidate =>
    rw [bufferStep, fatFfcacheinvalidate]
    split_ifs with hvalid
    · exact ⟨rfl, fun hne => absurd rfl hne⟩
    · exact ⟨h.cachesector.trans (not_not.mp fun hne => hvalid (h.valid hne)),
        fun hne => absurd rfl hne⟩
  | modify sector buffer => exact ⟨rfl, fun _ => (valid_of_or _).2⟩
  | elsewhere fs => exact ⟨h.cachesector, h.valid⟩

theorem Buffers.run (h : io.Buffers use.1) (ops : List (BufferOp g)) :
    (ops.foldl bufferStep io).Buffers (ops.foldl bufferUse use).1 := by
  induction ops generalizing io use with
  | nil => exact h
  | cons op ops ih => exact ih (h.step op)

theorem Buffers.writesBack_iff (h : io.Buffers sector) : io.WritesBack ↔ sector ≠ 0 := by
  rw [WritesBack, fatFfcacheinvalidate, fatFfcacheflush, h.cachesector]
  constructor
  · rintro hwrites rfl
    split_ifs at hwrites <;> simp_all
  · intro hne
    have hflags : io.ff.bflags ≠ 0 := fun hzero => h.valid hne (by rw [hzero]; rfl)
    left
    rw [if_pos ⟨hne, hflags⟩]
    simp [hwwrite, FatMountpt.fatHwwrite]

/-- A file that has just been opened, on a device that is the same in all places. -/
def bufferFile (byte : UInt8) : FatIo ⟨.fat32, 512, 1, 32, 8, 1, 40, 100⟩ :=
  ⟨⟨fun _ _ => byte, 0, 0, false, 0, 0, false, []⟩,
    ⟨0, true, false, 0, 0, 512, 5, 0, 0, 0, 0⟩, false, []⟩

end NuttX.FatIo
