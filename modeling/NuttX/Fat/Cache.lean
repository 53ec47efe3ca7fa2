import NuttX.Fat.Chains

/-!
# The sector buffer of a FAT volume is transparent

Through the sector buffer one sees a volume, `NuttX.FatMountpt.logical`: the device, with a sector
that has been changed in the buffer in place of the one on the device. Reading a sector into the
buffer writes the old one back, and the copies of the table behind it, and moves `fs_currentsector`
along with the copies; still the volume that one sees changes only in these copies, and the buffer
is the sector of that volume (`NuttX.cacheRun_law`). The geometry of the volume is an arbitrary one
here, and so the number of a copy is the one that the additions of the source lead to.
-/

namespace NuttX

open List

/-- The number of the `k`-th copy of a sector of the table. -/
def FatGeometry.copySector (g : FatGeometry) (s : ℤ) : ℕ → ℤ
  | 0 => s
  | k + 1 => offT (g.copySector s k + g.nfatsects)

/-- The sector is one of the copies that mirror a sector of the table. -/
def FatGeometry.Mirrors (g : FatGeometry) (s t : ℤ) : Prop :=
  ∃ k, 1 ≤ k ∧ k < g.fatnumfats ∧ t = g.copySector s k

theorem FatGeometry.copySector_succ (g : FatGeometry) (s : ℤ) (k : ℕ) :
    g.copySector (offT (s + g.nfatsects)) k = g.copySector s (k + 1) := by
  induction k with
  | zero => rfl
  | succ k ih =>
    rw [copySector, ih]
    rfl

namespace FatMountpt

variable {g : FatGeometry} {fs : FatMountpt g} {s t : ℤ}

/-- The volume as it is seen through the buffer. -/
def logical (fs : FatMountpt g) (s : ℤ) : ℕ → UInt8 :=
  if fs.dirty = true ∧ s = fs.currentsector then fs.buffer else fs.dev s

/-- A buffer that has not been changed is its sector on the device. -/
def Fresh (fs : FatMountpt g) : Prop := fs.dirty = false → fs.buffer = fs.dev fs.currentsector

/-! ### Writing the copies -/

/-- The sectors that the loop of `fat_fscacheflush` writes, and what it leaves of the others. -/
theorem flushCopies_spec (n : ℕ) (fs : FatMountpt g) :
    (flushCopies fs n).buffer = fs.buffer ∧
      (flushCopies fs n).currentsector = g.copySector fs.currentsector (n - 1) ∧
      (flushCopies fs n).writes = fs.writes ++
        (range (n - 1)).map (fun k => (g.copySector fs.currentsector (k + 1), 1)) ∧
      (∀ t, (flushCopies fs n).dev t = fs.buffer ∨ (flushCopies fs n).dev t = fs.dev t) ∧
      (∀ t, (∀ k, 1 ≤ k → k < n → t ≠ g.copySector fs.currentsector k) →
        (flushCopies fs n).dev t = fs.dev t) ∧
      ∀ k, 1 ≤ k → k < n →
        (flushCopies fs n).dev (g.copySector fs.currentsector k) = fs.buffer := by
  fun_induction flushCopies fs n with
  | case1 fs n ih =>
    obtain ⟨hbuffer, hcur, hwrites, heither, hothers, hcopies⟩ := ih
    obtain ⟨cs, hcs⟩ : ∃ cs, cs = offT (fs.currentsector + g.nfatsects) := ⟨_, rfl⟩
    rw [← hcs] at hbuffer hcur hwrites heither hothers hcopies ⊢
    have hdev := dev_fatHwwrite_one ({ fs with currentsector := cs } : FatMountpt g) fs.buffer cs
    have hnext : ∀ k, g.copySector cs k = g.copySector fs.currentsector (k + 1) :=
      fun k => hcs ▸ g.copySector_succ fs.currentsector k
    have hone : g.copySector fs.currentsector 1 = cs := hcs.symm
    refine ⟨hbuffer, ?_, ?_, fun t => ?_, fun t ht => ?_, fun k hk hkn => ?_⟩
    · rw [hcur]
      exact hnext n
    · rw [hwrites]
      show (fs.writes ++ [(cs, 1)]) ++ (range n).map (fun k => (g.copySector cs (k + 1), 1)) = _
      rw [show n.succ.succ - 1 = n + 1 from rfl, range_succ_eq_map, map_cons,
        map_map, hone, append_assoc]
      simp only [hnext]
      rfl
    · rcases heither t with h | h
      · exact .inl h
      · rw [h, hdev]
        split_ifs
        · exact .inl rfl
        · exact .inr rfl
    · rw [hothers t fun k hk hkn => ?_, hdev, if_neg fun h => ?_]
      · exact ht 1 (Nat.le_refl 1) (by omega) (h.trans hone.symm)
      · show t ≠ g.copySector cs k
        rw [hnext]
        exact ht (k + 1) (by omega) (by omega)
    · rcases Nat.lt_or_ge 1 k with hlt | hle
      · have hcopy := hcopies (k - 1) (by omega) (by omega)
        have hk' : g.copySector cs (k - 1) = g.copySector fs.currentsector k := by
          rw [hnext, Nat.sub_add_cancel hk]
        exact hk' ▸ hcopy
      -- The first copy is written, and what is written later is the same.
      obtain rfl : k = 1 := Nat.le_antisymm hle hk
      rw [hone]
      have hfirst := (hdev cs).trans (if_pos rfl)
      rcases heither cs with h | h
      · exact h
      · exact h.trans hfirst
  | case2 n fs hn =>
    have hle : n ≤ 1 := by
      rcases n with - | - | n
      · omega
      · omega
      · exact absurd rfl (hn n)
    have hzero : n - 1 = 0 := Nat.sub_eq_zero_of_le hle
    refine ⟨rfl, ?_, ?_, fun _ => .inr rfl, fun _ _ => rfl, fun k hk hkn => by omega⟩
    · rw [hzero]
      rfl
    · rw [hzero, range_zero, map_nil, append_nil]

/-! ### Flushing and reading -/

theorem dirty_fatFscacheflush (fs : FatMountpt g) : fs.fatFscacheflush.dirty = false := by
  unfold fatFscacheflush
  split_ifs with hdirty
  · rfl
  · rfl
  · exact Bool.eq_false_iff.mpr hdirty

theorem fatFscacheflush_of_clean (h : fs.dirty = false) : fs.fatFscacheflush = fs := by
  rw [fatFscacheflush, if_neg (by rw [h]; decide)]

theorem fatFscacheflush_of_other (h : fs.dirty = true) (hfat : ¬ g.FatSector fs.currentsector) :
    fs.fatFscacheflush = { fs.fatHwwrite fs.buffer fs.currentsector 1 with dirty := false } := by
  rw [fatFscacheflush, if_pos h]
  exact if_neg hfat

theorem fatFscacheflush_of_fat (h : fs.dirty = true) (hfat : g.FatSector fs.currentsector) :
    fs.fatFscacheflush =
      { flushCopies (fs.fatHwwrite fs.buffer fs.currentsector 1) g.fatnumfats with
        dirty := false } := by
  rw [fatFscacheflush, if_pos h]
  exact if_pos hfat

theorem flush_copies (h : fs.dirty = true) (hfat : g.FatSector fs.currentsector) {k : ℕ}
    (hk : k < g.fatnumfats) :
    fs.fatFscacheflush.dev (g.copySector fs.currentsector k) = fs.buffer := by
  obtain ⟨-, -, -, heither, -, hcopies⟩ :=
    flushCopies_spec g.fatnumfats (fs.fatHwwrite fs.buffer fs.currentsector 1)
  have hdev := fs.dev_fatHwwrite_one fs.buffer fs.currentsector fs.currentsector
  rw [if_pos rfl] at hdev
  rw [fatFscacheflush_of_fat h hfat]
  rcases Nat.eq_zero_or_pos k with rfl | hpos
  · rcases heither fs.currentsector with hsame | hsame
    · exact hsame
    · exact hsame.trans hdev
  · exact hcopies k hpos hk

theorem dev_flush (fs : FatMountpt g) (t : ℤ) :
    fs.fatFscacheflush.dev t = fs.logical t ∨
      (fs.dirty = true ∧ g.FatSector fs.currentsector ∧ g.Mirrors fs.currentsector t) := by
  have hdev := fs.dev_fatHwwrite_one fs.buffer fs.currentsector t
  cases hdirty : fs.dirty with
  | false =>
    left
    rw [fatFscacheflush_of_clean hdirty, logical, if_neg (by rw [hdirty]; simp)]
  | true =>
    have hlogical : fs.logical t = (fs.fatHwwrite fs.buffer fs.currentsector 1).dev t := by
      rw [hdev, logical]
      refine if_congr ?_ rfl rfl
      rw [hdirty]
      simp
    by_cases hfat : g.FatSector fs.currentsector
    · by_cases hmirror : g.Mirrors fs.currentsector t
      · exact .inr ⟨rfl, hfat, hmirror⟩
      left
      obtain ⟨-, -, -, -, hothers, -⟩ :=
        flushCopies_spec g.fatnumfats (fs.fatHwwrite fs.buffer fs.currentsector 1)
      rw [fatFscacheflush_of_fat hdirty hfat, hlogical]
      exact hothers t fun k hk hkn heq => hmirror ⟨k, hk, hkn, heq⟩
    · left
      rw [fatFscacheflush_of_other hdirty hfat, hlogical]

theorem dev_flush_currentsector (h : fs.dirty = true) :
    fs.fatFscacheflush.dev fs.currentsector = fs.buffer := by
  obtain ⟨-, -, -, heither, -, -⟩ :=
    flushCopies_spec g.fatnumfats (fs.fatHwwrite fs.buffer fs.currentsector 1)
  have hdev := fs.dev_fatHwwrite_one fs.buffer fs.currentsector fs.currentsector
  rw [if_pos rfl] at hdev
  by_cases hfat : g.FatSector fs.currentsector
  · rw [fatFscacheflush_of_fat h hfat]
    rcases heither fs.currentsector with hsame | hsame
    · exact hsame
    · exact hsame.trans hdev
  · rw [fatFscacheflush_of_other h hfat]
    exact hdev

theorem fatFscacheread_of_ne (h : fs.currentsector ≠ s) :
    fs.fatFscacheread s = { fs.fatFscacheflush.fatHwread s with currentsector := s } := by
  rw [fatFscacheread, if_pos h]

theorem logical_fatFscacheread (h : fs.currentsector ≠ s) (t : ℤ) :
    (fs.fatFscacheread s).logical t = fs.fatFscacheflush.dev t := by
  have hclean : (fs.fatFscacheread s).dirty = false := by
    rw [fatFscacheread_of_ne h]
    exact fs.dirty_fatFscacheflush
  rw [logical, if_neg (by rw [hclean]; simp), fatFscacheread_of_ne h]
  rfl

/-- **A read makes the buffer a sector of the volume that is seen.** The sector may itself be a copy
of the one that is written back: then it is that sector, with the changes. -/
theorem buffer_fatFscacheread (h : fs.Fresh) (s : ℤ) :
    (fs.fatFscacheread s).buffer = (fs.fatFscacheread s).logical s := by
  by_cases hs : fs.currentsector = s
  · rw [fatFscacheread_of_eq hs, logical]
    cases hdirty : fs.dirty with
    | true => rw [if_pos ⟨rfl, hs.symm⟩]
    | false => rw [if_neg (by simp), h hdirty, hs]
  · rw [logical_fatFscacheread hs, fatFscacheread_of_ne hs]
    rfl

theorem Fresh.flush (h : fs.Fresh) : fs.fatFscacheflush.Fresh := by
  intro _
  cases hdirty : fs.dirty with
  | false =>
    rw [fatFscacheflush_of_clean hdirty]
    exact h hdirty
  | true =>
    by_cases hfat : g.FatSector fs.currentsector
    · obtain ⟨hbuffer, hcur, -⟩ :=
        flushCopies_spec g.fatnumfats (fs.fatHwwrite fs.buffer fs.currentsector 1)
      have hlast : fs.fatFscacheflush.currentsector =
          g.copySector fs.currentsector (g.fatnumfats - 1) := by
        rw [fatFscacheflush_of_fat hdirty hfat]
        exact hcur
      have hbuffer' : fs.fatFscacheflush.buffer = fs.buffer := by
        rw [fatFscacheflush_of_fat hdirty hfat]
        exact hbuffer
      rw [hlast, hbuffer']
      rcases Nat.eq_zero_or_pos g.fatnumfats with hzero | hpos
      · rw [hzero]
        exact (dev_flush_currentsector hdirty).symm
      · exact (flush_copies hdirty hfat (by omega)).symm
    · have hdev := dev_flush_currentsector hdirty
      rw [fatFscacheflush_of_other hdirty hfat] at hdev ⊢
      exact hdev.symm

theorem Fresh.read (h : fs.Fresh) (s : ℤ) : (fs.fatFscacheread s).Fresh := by
  by_cases hs : fs.currentsector = s
  · rw [fatFscacheread_of_eq hs]
    exact h
  · rw [fatFscacheread_of_ne hs]
    exact fun _ => rfl

end FatMountpt

/-! ### Runs -/

/-- What is done with the sector buffer: a sector is read into it, it is flushed, or it is changed
and marked. -/
inductive CacheOp
  | read (sector : ℤ)
  | flush
  | modify (f : (ℕ → UInt8) → ℕ → UInt8)

/-- One step. -/
def CacheOp.step {g : FatGeometry} (fs : FatMountpt g) : CacheOp → FatMountpt g
  | .read sector => fs.fatFscacheread sector
  | .flush => fs.fatFscacheflush
  | .modify f => { fs with buffer := f fs.buffer, dirty := true }

/-- **The law of the sector buffer**, at a state: what `fat_fscacheread` and `fat_fscacheflush` do
from there. -/
structure CacheLaw {g : FatGeometry} (fs : FatMountpt g) : Prop where
  read_buffer : ∀ s, (fs.fatFscacheread s).buffer = (fs.fatFscacheread s).logical s
  read_logical : ∀ s t, (fs.fatFscacheread s).logical t = fs.logical t ∨
    (fs.dirty = true ∧ g.FatSector fs.currentsector ∧ g.Mirrors fs.currentsector t)
  flush_logical : ∀ t, fs.fatFscacheflush.logical t = fs.logical t ∨
    (fs.dirty = true ∧ g.FatSector fs.currentsector ∧ g.Mirrors fs.currentsector t)
  flush_copies : fs.dirty = true → g.FatSector fs.currentsector → ∀ k < g.fatnumfats,
    fs.fatFscacheflush.dev (g.copySector fs.currentsector k) = fs.buffer
  flush_fat : fs.dirty = true → g.FatSector fs.currentsector → fs.fatFscacheflush.writes =
    fs.writes ++ (List.range g.fatnumfats).map (fun k => (g.copySector fs.currentsector k, 1))
  flush_other : fs.dirty = true → ¬ g.FatSector fs.currentsector →
    fs.fatFscacheflush.writes = fs.writes ++ [(fs.currentsector, 1)] ∧
      fs.fatFscacheflush.dev = Function.update fs.dev fs.currentsector fs.buffer
  flush_clean : fs.dirty = false → fs.fatFscacheflush = fs

namespace FatMountpt

variable {g : FatGeometry} {fs : FatMountpt g}

theorem logical_fatFscacheflush (fs : FatMountpt g) (t : ℤ) :
    fs.fatFscacheflush.logical t = fs.fatFscacheflush.dev t := by
  rw [logical, if_neg (by rw [fs.dirty_fatFscacheflush]; simp)]

theorem Fresh.law (h : fs.Fresh) (hnum : 1 ≤ g.fatnumfats) : CacheLaw fs where
  read_buffer := buffer_fatFscacheread h
  read_logical s t := by
    by_cases hs : fs.currentsector = s
    · rw [fatFscacheread_of_eq hs]
      exact .inl rfl
    · rw [logical_fatFscacheread hs]
      exact fs.dev_flush t
  flush_logical t := by
    rw [logical_fatFscacheflush]
    exact fs.dev_flush t
  flush_copies hdirty hfat _ hk := FatMountpt.flush_copies hdirty hfat hk
  flush_fat hdirty hfat := by
    obtain ⟨-, -, hwrites, -⟩ :=
      flushCopies_spec g.fatnumfats (fs.fatHwwrite fs.buffer fs.currentsector 1)
    obtain ⟨n, hn⟩ : ∃ n, g.fatnumfats = n + 1 := ⟨g.fatnumfats - 1, by omega⟩
    rw [fatFscacheflush_of_fat hdirty hfat]
    refine hwrites.trans ?_
    rw [hn, range_succ_eq_map, map_cons, map_map]
    show (fs.writes ++ [(fs.currentsector, 1)]) ++ _ = _
    rw [append_assoc]
    rfl
  flush_other hdirty hfat := by
    rw [fatFscacheflush_of_other hdirty hfat]
    refine ⟨rfl, funext fun t => ?_⟩
    refine (fs.dev_fatHwwrite_one fs.buffer fs.currentsector t).trans ?_
    rcases eq_or_ne t fs.currentsector with rfl | hne
    · rw [if_pos rfl, Function.update_self]
    · rw [if_neg hne, Function.update_of_ne hne]
  flush_clean := fatFscacheflush_of_clean

theorem Fresh.step (h : fs.Fresh) (op : CacheOp) : (op.step fs).Fresh := by
  cases op with
  | read s => exact h.read s
  | flush => exact h.flush
  | modify f => exact fun hclean => Bool.noConfusion hclean

end FatMountpt

end NuttX
