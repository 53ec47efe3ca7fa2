import NuttX.Fat.Cache
import NuttX.Fat.Runs

/-!
# Reading a file

The bytes of a file are those of the sectors of its chain, in order: `NuttX.fileByte`. Nothing but
`fat_read` is called on a file here, and so its buffer has at any time what is on the device
(`NuttX.FatIo.Clean`); a call returns the bytes of the file from the position on, and moves the
position by their number.

There is one exception. The loop of `fat_read` goes on to the next cluster as soon as the current
one has been read, also if nothing is left to read; and so a call that ends with the last cluster
of the chain fails with `EINVAL`, after it has delivered all bytes and moved the position. It has
to be a file whose chain has no more clusters than it needs, and whose size is a multiple of their
size (`NuttX.readRun_law_iff`, `NuttX.readRun_whole_cluster`).
-/

namespace NuttX

open FatMountpt List

/-- The byte `n` of a file with the chain `l`, on a device with the contents `f`. -/
def fileByte (vol : FatVolume) (f : ℤ → ℕ → UInt8) (l : List ℕ) (n : ℕ) : UInt8 :=
  f (vol.fatCluster2sector (l.getD (n / FatIo.clustersize vol) 0) +
      (n % FatIo.clustersize vol / vol.hwsectorsize : ℕ)) (n % vol.hwsectorsize)

/-! ### The buffer of the volume -/

namespace FatVolume

variable {vol : FatVolume} {k t : ℤ} {c : ℕ}

/-- The copies of a sector of the table are before the data. -/
theorem copySector_lt (h : vol.FatSector t) {j : ℕ} (hj : j < vol.fatnumfats) :
    vol.copySector t j = t + (j * vol.nfatsects : ℕ) ∧
      t + (j * vol.nfatsects : ℕ) < vol.database := by
  have hzero := vol.fatbase_nonneg
  have hlow := h.1
  have hbound : ∀ j, j < vol.fatnumfats → t + (j * vol.nfatsects : ℕ) < vol.database := by
    intro j hj
    have hdata := vol.fat_before_data
    have hle : (j + 1) * vol.nfatsects ≤ vol.fatnumfats * vol.nfatsects :=
      Nat.mul_le_mul_right _ hj
    have hhigh := h.2
    rw [Nat.succ_mul] at hle
    omega
  refine ⟨?_, hbound j hj⟩
  induction j with
  | zero => rw [FatGeometry.copySector, Nat.zero_mul, Nat.cast_zero, Int.add_zero]
  | succ j ih =>
    have hfit := vol.sectors_fit
    have hlt := hbound j.succ hj
    rw [FatGeometry.copySector, ih (by omega), Int.add_assoc, ← Nat.cast_add, ← Nat.succ_mul]
    exact offT_of_lt (by omega) (by omega)

theorem Holds.not_mirrors (h : vol.Holds c k) (hc : vol.links.Valid c) (ht : vol.FatSector t) :
    ¬ vol.Mirrors t k := by
  rintro ⟨j, -, hj, rfl⟩
  obtain ⟨heq, hlt⟩ := copySector_lt ht hj
  obtain ⟨hsector, -⟩ := fatCluster2sector_of_valid hc
  have hlow := h.1
  omega

end FatVolume

namespace FatMountpt

variable {vol : FatVolume} {fs : FatMountpt vol} {D : Set ℤ}

/-- The sector in the buffer of the volume is not one of these, or it need not be written. -/
def Spares (fs : FatMountpt vol) (D : Set ℤ) : Prop := fs.dirty = true → fs.currentsector ∉ D

/-- These are sectors of clusters. -/
def DataSectors (vol : FatVolume) (D : Set ℤ) : Prop :=
  ∀ k ∈ D, ∃ c, vol.links.Valid c ∧ vol.Holds c k

theorem Spares.fatFscacheread (h : fs.Spares D) (hD : DataSectors vol D) (sector : ℤ) :
    (fs.fatFscacheread sector).Spares D ∧ ∀ k ∈ D, (fs.fatFscacheread sector).dev k = fs.dev k := by
  by_cases hsame : fs.currentsector = sector
  · rw [fatFscacheread_of_eq hsame]
    exact ⟨h, fun _ _ => rfl⟩
  rw [fatFscacheread_of_ne hsame]
  refine ⟨fun hdirty => ?_, fun k hk => ?_⟩
  · have hclean := fs.dirty_fatFscacheflush
    exact absurd (hclean.symm.trans hdirty) Bool.false_ne_true
  show fs.fatFscacheflush.dev k = fs.dev k
  rcases fs.dev_flush k with hseen | ⟨-, hfat, hmirror⟩
  · rw [hseen, logical, if_neg]
    rintro ⟨hdirty, rfl⟩
    exact h hdirty hk
  · obtain ⟨c, hc, hholds⟩ := hD k hk
    exact absurd hmirror (hholds.not_mirrors hc hfat)

/-- Looking up an entry of the table leaves the data alone. -/
theorem Spares.fatGetcluster (h : fs.Spares D) (hD : DataSectors vol D) (c : ℕ) :
    (fs.fatGetcluster c).1.Spares D ∧ ∀ k ∈ D, (fs.fatGetcluster c).1.dev k = fs.dev k := by
  unfold FatMountpt.fatGetcluster
  by_cases hrange : 2 ≤ c ∧ c < vol.nclusters
  · rw [if_pos hrange]
    cases ht : vol.type with
    | fat12 =>
      dsimp only
      obtain ⟨hspares, hdev⟩ := h.fatFscacheread hD (vol.fatsector (c * 3 / 2))
      rw [nextByte]
      split_ifs
      · obtain ⟨hspares', hdev'⟩ := hspares.fatFscacheread hD
          (offT (vol.fatsector (c * 3 / 2) + 1))
        exact ⟨hspares', fun k hk => (hdev' k hk).trans (hdev k hk)⟩
      · exact ⟨hspares, hdev⟩
    | fat16 | fat32 => exact h.fatFscacheread hD _
  · rw [if_neg hrange]
    exact ⟨h, fun _ _ => rfl⟩

end FatMountpt

namespace FatIo

variable {vol : FatVolume} {io io' : FatIo vol} {S : Set ℕ} {s i off n : ℕ} {l : List ℕ}
  {f : ℤ → ℕ → UInt8} {sector : ℤ}

/-! ### The buffer of the file -/

def chainSectors (vol : FatVolume) (l : List ℕ) : Set ℤ := {k | ∃ c ∈ l, vol.Holds c k}

/-- **The device has the contents `f`** in the sectors of the chain, the buffer of the file has the
same, and the buffer of the volume will not be written over them. -/
structure Clean (io : FatIo vol) (l : List ℕ) (f : ℤ → ℕ → UInt8) : Prop where
  dev : ∀ k ∈ chainSectors vol l, io.fs.dev k = f k
  volume : io.fs.Spares (chainSectors vol l)
  buffer : io.ff.bflags = 0 ∨ (io.ff.bflags = 1 ∧ io.ff.buffer = f io.ff.cachesector)

namespace Clean

section

variable (h : io.Clean l f)

include h

/-- Flushing the buffer writes what is there. -/
theorem flush : io.fatFfcacheflush.Clean l f ∧ io.fatFfcacheflush.ff.bflags = io.ff.bflags := by
  unfold fatFfcacheflush
  split_ifs with hwrite
  · obtain ⟨hflags, hbuffer⟩ := h.buffer.resolve_left hwrite.2
    have hand : io.ff.bflags &&& 0xfd = io.ff.bflags := by
      rw [hflags]
      decide
    refine ⟨⟨fun k hk => ?_, h.volume, ?_⟩, hand⟩
    · show (io.fs.fatHwwrite io.ff.buffer io.ff.cachesector 1).dev k = f k
      rw [dev_fatHwwrite_one]
      split_ifs with heq
      · rw [heq]
        exact hbuffer
      · exact h.dev k hk
    · exact .inr ⟨hand.trans hflags, hbuffer⟩
  · exact ⟨h, rfl⟩

theorem invalidate : io.fatFfcacheinvalidate.Clean l f := by
  unfold fatFfcacheinvalidate
  split_ifs with hvalid
  · obtain ⟨hclean, hflags⟩ := h.flush
    refine ⟨hclean.dev, hclean.volume, .inl ?_⟩
    obtain ⟨hone, -⟩ := h.buffer.resolve_left fun hzero => by
      rw [hzero] at hvalid
      exact hvalid (by decide)
    show io.fatFfcacheflush.ff.bflags &&& 0xfe = 0
    rw [hflags, hone]
    decide
  · exact h

theorem read (hsector : sector ∈ chainSectors vol l) :
    (io.fatFfcacheread sector).Clean l f ∧ (io.fatFfcacheread sector).ff.buffer = f sector := by
  unfold fatFfcacheread
  split_ifs with hload
  · obtain ⟨hclean, hflags⟩ := h.flush
    have hdev := hclean.dev sector hsector
    refine ⟨⟨hclean.dev, hclean.volume, .inr ⟨?_, hdev⟩⟩, hdev⟩
    show io.fatFfcacheflush.ff.bflags ||| 1 = 1
    rw [hflags]
    rcases h.buffer with hzero | ⟨hone, -⟩
    · rw [hzero]
      decide
    · rw [hone]
      decide
  · rw [not_or, not_not] at hload
    refine ⟨h, ?_⟩
    obtain ⟨-, hbuffer⟩ := h.buffer.resolve_left fun hzero => by
      rw [hzero] at hload
      exact hload.2 (by decide)
    rw [hbuffer, hload.1]

theorem congr (hfs : io'.fs = io.fs) (hflags : io'.ff.bflags = io.ff.bflags)
    (hcache : io'.ff.cachesector = io.ff.cachesector) (hbuffer : io'.ff.buffer = io.ff.buffer) :
    io'.Clean l f := by
  refine ⟨hfs ▸ h.dev, hfs ▸ h.volume, ?_⟩
  rw [hflags, hcache, hbuffer]
  exact h.buffer

theorem getcluster (hpath : vol.links.Path io.fs.link s l) (c : ℕ) :
    FatIo.Clean { io with fs := (io.fs.fatGetcluster c).1 } l f := by
  have hD : DataSectors vol (chainSectors vol l) := fun _ ⟨c, hc, hk⟩ =>
    ⟨c, hpath.valid hc, hk⟩
  obtain ⟨hspares, hdev⟩ := h.volume.fatGetcluster hD c
  exact ⟨fun k hk => (hdev k hk).trans (h.dev k hk), hspares, h.buffer⟩

end

end Clean

/-! ### One round of the loop of `fat_read` -/

theorem Cursor.fileByte_eq (h : io.Cursor l i off) (f : ℤ → ℕ → UInt8) {j : ℕ}
    (hj : off + j < clustersize vol) :
    fileByte vol f l (i * clustersize vol + off + j) =
      f (vol.fatCluster2sector io.ff.currentcluster + ((off + j) / vol.hwsectorsize : ℕ))
        ((off + j) % vol.hwsectorsize) := by
  have hdiv : (i * clustersize vol + (off + j)) / clustersize vol = i := by
    rw [Nat.mul_comm, Nat.mul_add_div (clustersize_pos vol), Nat.div_eq_of_lt hj, Nat.add_zero]
  have hmod : (i * clustersize vol + (off + j)) % clustersize vol = off + j := by
    rw [Nat.mul_add_mod', Nat.mod_eq_of_lt hj]
  have hsector : (i * clustersize vol + (off + j)) % vol.hwsectorsize =
      (off + j) % vol.hwsectorsize := by
    rw [clustersize, ← Nat.mul_assoc, Nat.mul_add_mod']
  rw [fileByte, Nat.add_assoc, hdiv, hmod, hsector, getD_eq_getElem?_getD, h.cluster,
    Option.getD_some]

theorem Cursor.sector_mem (h : io.Cursor l i off) {k : ℕ} (hk : off / vol.hwsectorsize + k <
    vol.fatsecperclus) : io.ff.currentsector + k ∈ chainSectors vol l := by
  have hleft := h.left
  exact h.aimed.holds (Int.le_add_of_nonneg_right (Int.natCast_nonneg k)) (by omega)

/-- A round for whole sectors reads them from the device. -/
theorem readSectors_spec (h : io.Sound S s l) (hc : io.Cursor l i off)
    (hn : n ≤ io.ff.sectorsincluster) (hindex : io.sectorindex = 0)
    (hlt : io.ff.pos + (n * vol.hwsectorsize : ℕ) < 2 ^ 31) :
    ((io.readSectors n).advance (n * vol.hwsectorsize)).Sound S s l ∧
      ((io.readSectors n).advance (n * vol.hwsectorsize)).Cursor l i (off + n * vol.hwsectorsize) ∧
      (io.Clean l f → ((io.readSectors n).advance (n * vol.hwsectorsize)).Clean l f ∧
        io.fatFfcacheinvalidate.hwBytes io.ff.currentsector n =
          (range (n * vol.hwsectorsize)).map
            fun j => fileByte vol f l (i * clustersize vol + off + j)) := by
  have hss := vol.hwsectorsize_pos
  obtain ⟨b, k, hff⟩ := io.fatFfcacheinvalidate_ff
  have hsound := h.invalidate
  refine ⟨hsound.congr hsound.coherent rfl rfl rfl rfl, ?_, fun hclean => ⟨?_, ?_⟩⟩
  · refine hc.whole h.path hn hindex hlt ?_ rfl rfl ?_
    · simp only [advance, readSectors, hff]
    · simp only [advance, readSectors, hff]
  · exact hclean.invalidate.congr rfl rfl rfl rfl
  rw [hc.sectorindex_eq] at hindex
  refine map_congr_left fun j hj => ?_
  have hj := mem_range.mp hj
  have hjn : j / vol.hwsectorsize < n := (Nat.div_lt_iff_lt_mul hss).2 hj
  have hleft := hc.left
  have hle := add_sectors_le hindex (show off / vol.hwsectorsize + n ≤ vol.fatsecperclus by omega)
  have hoff := Nat.div_add_mod' off vol.hwsectorsize
  have hsum : off + j = j + off / vol.hwsectorsize * vol.hwsectorsize := by omega
  have hdiv : (off + j) / vol.hwsectorsize = off / vol.hwsectorsize + j / vol.hwsectorsize := by
    rw [hsum, Nat.add_mul_div_right _ _ hss, Nat.add_comm]
  have hmod : (off + j) % vol.hwsectorsize = j % vol.hwsectorsize := by
    rw [hsum, Nat.add_mul_mod_self_right]
  rw [hc.fileByte_eq f (lt_of_lt_of_le (Nat.add_lt_add_left hj off) hle),
    hclean.invalidate.dev _ (hc.sector_mem (by omega)), hdiv, hmod, hc.sector, Nat.cast_add,
    Int.add_assoc]

/-- A round for a part of a sector copies it from the buffer of the file. -/
theorem readPart_spec (h : io.Sound S s l) (hc : io.Cursor l i off) (hoff : off < clustersize vol)
    (buflen : ℕ) (hlt : io.ff.pos + (min (vol.hwsectorsize - io.sectorindex) buflen : ℕ) < 2 ^ 31) :
    ((io.readPart buflen).advance (min (vol.hwsectorsize - io.sectorindex) buflen)).Sound S s l ∧
      ((io.readPart buflen).advance (min (vol.hwsectorsize - io.sectorindex) buflen)).Cursor l i
        (off + min (vol.hwsectorsize - io.sectorindex) buflen) ∧
      (io.Clean l f →
        ((io.readPart buflen).advance (min (vol.hwsectorsize - io.sectorindex) buflen)).Clean l f ∧
        ((range (min (vol.hwsectorsize - io.sectorindex) buflen)).map fun j =>
            (io.fatFfcacheread io.ff.currentsector).ff.buffer (io.sectorindex + j)) =
          (range (min (vol.hwsectorsize - io.sectorindex) buflen)).map
            fun j => fileByte vol f l (i * clustersize vol + off + j)) := by
  have hss := vol.hwsectorsize_pos
  obtain ⟨b, k, q, hff⟩ := io.fatFfcacheread_ff io.ff.currentsector
  have hlast : off / vol.hwsectorsize < vol.fatsecperclus := (Nat.div_lt_iff_lt_mul hss).2 hoff
  have hmem : io.ff.currentsector ∈ chainSectors vol l := by
    have hmem := hc.sector_mem (k := 0) hlast
    rwa [Nat.cast_zero, Int.add_zero] at hmem
  have hsound := h.read hmem
  refine ⟨hsound.congr hsound.coherent rfl rfl rfl rfl, ?_, fun hclean => ?_⟩
  · refine hc.part h.path hoff hlt ?_ ?_ ?_ ?_ <;> simp only [advance, readPart, hff]
  obtain ⟨hread, hbuffer⟩ := hclean.read hmem
  refine ⟨hread.congr rfl rfl rfl rfl, map_congr_left fun j hj => ?_⟩
  have hj := mem_range.mp hj
  have hindex := hc.sectorindex_eq
  have hjs : j < vol.hwsectorsize - off % vol.hwsectorsize := by omega
  have hend : (off / vol.hwsectorsize + 1) * vol.hwsectorsize ≤ clustersize vol :=
    sector_end_le hss hoff
  have hrest := sector_rest off hss
  have hmod : (off + j) % vol.hwsectorsize = off % vol.hwsectorsize + j := by
    rw [← Nat.mod_add_mod, Nat.mod_eq_of_lt (by omega)]
  rw [hc.fileByte_eq f (by omega), div_add_of_lt hjs, hmod, hbuffer, hindex, hc.sector]

/-- **Bytes of the file have been read**, from `off` bytes into the cluster number `i` to `off'`
bytes into the cluster number `i'`. -/
structure Fetched (io io' : FatIo vol) (S : Set ℕ) (s : ℕ) (l : List ℕ) (i off i' off' : ℕ)
    (bytes : List UInt8) : Prop where
  sound : io'.Sound S s l
  cursor : io'.Cursor l i' off'
  rdok : io'.ff.rdok = io.ff.rdok
  size : io'.ff.size = io.ff.size
  place : i' * clustersize vol + off' = i * clustersize vol + off + bytes.length
  clean : ∀ f, io.Clean l f → io'.Clean l f
  bytes : ∀ f, io.Clean l f → bytes = (List.range bytes.length).map
    fun j => fileByte vol f l (i * clustersize vol + off + j)

namespace Fetched

variable {io₁ io₂ : FatIo vol} {i₁ off₁ i₂ off₂ : ℕ} {b₁ b₂ : List UInt8}

theorem refl (h : io.Sound S s l) (hc : io.Cursor l i off) : io.Fetched io S s l i off i off [] :=
  ⟨h, hc, rfl, rfl, rfl, fun _ hclean => hclean, fun _ _ => rfl⟩

theorem trans (h : io.Fetched io₁ S s l i off i₁ off₁ b₁)
    (h' : io₁.Fetched io₂ S s l i₁ off₁ i₂ off₂ b₂) :
    io.Fetched io₂ S s l i off i₂ off₂ (b₁ ++ b₂) where
  sound := h'.sound
  cursor := h'.cursor
  rdok := h'.rdok.trans h.rdok
  size := h'.size.trans h.size
  place := by rw [h'.place, h.place, length_append, Nat.add_assoc]
  clean f hclean := h'.clean f (h.clean f hclean)
  bytes f hclean := by
    have hfirst := h.bytes f hclean
    have hsecond := h'.bytes f (h.clean f hclean)
    rw [length_append, range_add, map_append, map_map, ← hfirst]
    refine congrArg (b₁ ++ ·) (hsecond.trans (map_congr_left fun j _ => ?_))
    rw [h.place, Function.comp_apply, Nat.add_assoc _ _ j]

end Fetched

/-- **One round of the loop of `fat_read`.** With a sector left in the cluster, it reads
something. -/
theorem fetch_spec (h : io.Sound S s l) (hc : io.Cursor l i off) {buflen : ℕ} (hpos : 0 < buflen)
    (hleft : off < clustersize vol ∨ vol.hwsectorsize ≤ buflen)
    (hlt : io.ff.pos + buflen < 2 ^ 31) :
    io.Fetched ((io.fetch buflen).1.advance (io.fetch buflen).2.length) S s l i off i
        (off + (io.fetch buflen).2.length) (io.fetch buflen).2 ∧
      (io.fetch buflen).2.length ≤ buflen ∧
      (off < clustersize vol → 0 < (io.fetch buflen).2.length) := by
  have hss := vol.hwsectorsize_pos
  have hindex := io.sectorindex_lt
  unfold fetch
  by_cases hwhole : 0 < buflen / vol.hwsectorsize ∧ io.sectorindex = 0
  · rw [if_pos hwhole]
    have hlen : (io.fatFfcacheinvalidate.hwBytes io.ff.currentsector (io.nsectors buflen)).length =
        io.nsectors buflen * vol.hwsectorsize := by
      rw [hwBytes, length_map, length_range]
    obtain ⟨b, k, hff⟩ := io.fatFfcacheinvalidate_ff
    have hn : io.nsectors buflen ≤ io.ff.sectorsincluster := Nat.min_le_right ..
    have hle := io.nsectors_mul_le buflen
    have hspec := fun f => readSectors_spec (f := f) h hc hn hwhole.2 (by omega)
    refine ⟨⟨?_, ?_, ?_, ?_, Nat.add_assoc .. ▸ rfl, ?_, ?_⟩, hlen ▸ hle, fun hoff => ?_⟩
    · rw [hlen]
      exact (hspec fun _ _ => 0).1
    · rw [hlen]
      exact (hspec fun _ _ => 0).2.1
    · simp only [advance, readSectors, hff]
    · simp only [advance, readSectors, hff]
    · rw [hlen]
      exact fun f hclean => ((hspec f).2.2 hclean).1
    · rw [hlen]
      exact fun f hclean => ((hspec f).2.2 hclean).2
    have hne : io.ff.sectorsincluster ≠ 0 := fun hzero => by
      rw [hc.left_eq_zero_iff.1 hzero] at hoff
      exact Nat.lt_irrefl _ hoff
    rw [hlen]
    exact Nat.mul_pos (Nat.lt_min.2 ⟨hwhole.1, Nat.pos_of_ne_zero hne⟩) hss
  · rw [if_neg hwhole]
    rw [length_map, length_range]
    obtain ⟨b, k, q, hff⟩ := io.fatFfcacheread_ff io.ff.currentsector
    have hoff := hc.off_lt hleft hwhole
    have hspec := fun f => readPart_spec (f := f) h hc hoff buflen (by omega)
    refine ⟨⟨(hspec fun _ _ => 0).1, (hspec fun _ _ => 0).2.1, ?_, ?_, ?_,
      fun f hclean => ((hspec f).2.2 hclean).1, fun f hclean => ?_⟩, Nat.min_le_right ..,
      fun _ => by omega⟩
    · simp only [advance, readPart, hff]
    · simp only [advance, readPart, hff]
    · rw [length_map, length_range, Nat.add_assoc]
    · rw [length_map, length_range]
      exact ((hspec f).2.2 hclean).2

/-! ### The loop of `fat_read` -/

theorem Cursor.next (h : io.Sound S s l) (hc : io.Cursor l i off) (hend : off = clustersize vol)
    (hlink : vol.links.Valid (io.fs.link io.ff.currentcluster)) :
    io.Fetched (io.enterCluster (io.fs.fatGetcluster io.ff.currentcluster).1
      (io.fs.link io.ff.currentcluster)) S s l i off (i + 1) 0 [] := by
  have hvalid := h.path.valid (mem_of_getElem? hc.cluster)
  obtain ⟨hreads, -⟩ := fatGetcluster_spec h.coherent hvalid
  refine ⟨?_, hc.enterCluster hend (h.path.getElem?_succ hc.cluster hlink), rfl, rfl, ?_,
    fun f hclean => ?_, fun _ _ => rfl⟩
  · exact h.congr hreads.coherent (hreads.link_eq h.coherent) rfl rfl rfl
  · rw [hend, Nat.succ_mul]
    rfl
  · exact (hclean.getcluster h.path io.ff.currentcluster).congr rfl rfl rfl rfl

/-- **The loop of `fat_read`** returns. Either it has read all bytes, and is not at the end of a
cluster if it was not, or it has come to the end of the chain. -/
theorem readLoop_spec (fuel : ℕ) (h : io.Sound S s l) (hc : io.Cursor l i off) (buflen : ℕ)
    (out : List UInt8) (hleft : off < clustersize vol ∨ buflen = 0 ∨ vol.hwsectorsize ≤ buflen)
    (hlt : io.ff.pos + buflen < 2 ^ 31)
    (hfuel : buflen + (if off < clustersize vol then 1 else 2) ≤ fuel) :
    ∃ io' bytes r i' off', io.readLoop buflen out fuel = some (io', out ++ bytes, r) ∧
      io.Fetched io' S s l i off i' off' bytes ∧ bytes.length ≤ buflen ∧
      ((r = offT (out.length + buflen : ℕ) ∧ bytes.length = buflen ∧
          (off < clustersize vol ∨ 0 < buflen → off' < clustersize vol)) ∨
        (r = -eINVAL ∧ i' + 1 = l.length ∧ off' = clustersize vol)) := by
  induction fuel generalizing io i off buflen out with
  | zero => split_ifs at hfuel <;> omega
  | succ fuel ih =>
    rcases Nat.eq_zero_or_pos buflen with rfl | hpos
    · refine ⟨io, [], _, i, off, ?_, .refl h hc, Nat.le_refl _, .inl ⟨rfl, rfl, ?_⟩⟩
      · rw [readLoop, if_pos rfl, append_nil]
        rfl
      · exact fun hor => hor.resolve_right (Nat.lt_irrefl 0)
    obtain ⟨hround, hle, hsome⟩ := fetch_spec h hc hpos (by omega) hlt
    rw [readLoop, if_neg (by omega)]
    dsimp only
    generalize (io.fetch buflen).2 = bytes at hround hle hsome ⊢
    generalize (io.fetch buflen).1.advance bytes.length = io₁ at hround ⊢
    -- The loop goes on from a place that is not the end of a cluster.
    have hgo : ∀ (io₂ : FatIo vol) (i₂ off₂ : ℕ), io.Fetched io₂ S s l i off i₂ off₂ bytes →
        off₂ < clustersize vol →
        ∃ io' bytes' r i' off', io₂.readLoop (buflen - bytes.length) (out ++ bytes) fuel =
            some (io', out ++ bytes', r) ∧
          io.Fetched io' S s l i off i' off' bytes' ∧ bytes'.length ≤ buflen ∧
          ((r = offT (out.length + buflen : ℕ) ∧ bytes'.length = buflen ∧
              (off < clustersize vol ∨ 0 < buflen → off' < clustersize vol)) ∨
            (r = -eINVAL ∧ i' + 1 = l.length ∧ off' = clustersize vol)) := by
      intro io₂ i₂ off₂ hso hoff2
      have hplace := hc.pos
      have hplace₂ := hso.cursor.pos
      have hat := hso.place
      obtain ⟨io', rest, r, i', off', hrun, hrest, hlen, hret⟩ :=
        ih hso.sound hso.cursor (buflen - bytes.length) (out ++ bytes) (.inl hoff2) (by omega) (by
          rw [if_pos hoff2]
          split_ifs at hfuel with hoff
          · omega
          · omega)
      refine ⟨io', bytes ++ rest, r, i', off', by rw [hrun, append_assoc], hso.trans hrest,
        by rw [length_append]; omega, ?_⟩
      rcases hret with ⟨hr, hall, hoff'⟩ | hfail
      · left
        rw [length_append] at hr ⊢
        refine ⟨?_, by omega, fun _ => hoff' (.inl hoff2)⟩
        rw [hr, Nat.add_assoc, Nat.add_sub_cancel' hle]
      · exact .inr hfail
    have hmove := hround.cursor
    by_cases hlast : io₁.ff.sectorsincluster = 0
    · rw [if_pos (by omega)]
      have hend := hmove.left_eq_zero_iff.1 hlast
      have hvalid := hround.sound.path.valid (mem_of_getElem? hmove.cluster)
      rw [fatGetcluster_snd hround.sound.coherent hvalid]
      by_cases hlink : vol.links.Valid (io₁.fs.link io₁.ff.currentcluster)
      · have hrange : 2 ≤ io₁.fs.link io₁.ff.currentcluster ∧
          io₁.fs.link io₁.ff.currentcluster < vol.nclusters := hlink
        have hnext := hround.trans (hmove.next hround.sound hend hlink)
        rw [append_nil] at hnext
        rw [if_neg (by omega)]
        exact hgo _ (i + 1) 0 hnext (clustersize_pos vol)
      -- The chain ends here.
      have hmark :=
        hround.sound.path.end_of_not_valid (mem_of_getElem? hmove.cluster) hlink
      have hrange : vol.nclusters ≤ io₁.fs.link io₁.ff.currentcluster := hmark.2
      obtain ⟨hreads, -⟩ := fatGetcluster_spec hround.sound.coherent hvalid
      have hlook := hreads.link_eq hround.sound.coherent
      rw [if_pos (by omega)]
      refine ⟨_, bytes, _, i, off + bytes.length, rfl, ⟨?_, ?_, hround.rdok, hround.size,
        hround.place, fun f hclean => ?_, hround.bytes⟩, hle, .inr ⟨rfl, ?_, hend⟩⟩
      · exact hround.sound.congr hreads.coherent hlook rfl rfl rfl
      · exact hmove.congr rfl rfl rfl rfl
      · exact (hround.clean f hclean).getcluster hround.sound.path _
      · exact (hround.sound.path.length_of_end hmove.cluster hmark).symm
    · rw [if_neg (by omega)]
      refine hgo io₁ i (off + bytes.length) hround (lt_of_le_of_ne hmove.off_le fun hend => ?_)
      exact hlast (hmove.left_eq_zero_iff.2 hend)

/-! ### Calls of `fat_read` -/

/-- The bytes that a call of `fat_read` should return. -/
def readLength (io : FatIo vol) (n : ℕ) : ℕ := min n (io.ff.size - io.ff.pos).toNat

/-- **What a call of `fat_read` should do**, on a device with the contents `f`: it returns the bytes
of the file from the position on, and moves the position by their number. -/
def ReadLaw (io : FatIo vol) (l : List ℕ) (f : ℤ → ℕ → UInt8) (n : ℕ) : Prop :=
  ∃ io' : FatIo vol, io.fatRead n = some (io',
      (List.range (io.readLength n)).map fun j => fileByte vol f l (io.ff.pos.toNat + j),
      ((io.readLength n : ℕ) : ℤ)) ∧
    io'.ff.pos = io.ff.pos + io.readLength n

/-- What is between the calls: the file has no cluster and no bytes, or the cursor belongs to the
position, or the cursor has not been set yet. -/
structure Reading (io : FatIo vol) (S : Set ℕ) (l : List ℕ) (f : ℤ → ℕ → UInt8) : Prop where
  rdok : io.ff.rdok = true
  size_le : io.ff.size ≤ (l.length * clustersize vol : ℕ)
  size_lt : io.ff.size < 2 ^ 31
  pos_nonneg : 0 ≤ io.ff.pos
  pos_le : io.ff.pos ≤ io.ff.size
  state : l = [] ∨ ∃ s, io.Sound S s l ∧ io.Clean l f ∧
    ((io.ff.currentsector = 0 ∧ io.ff.pos = 0 ∧ io.ff.currentcluster = s) ∨
      ∃ i off, io.Cursor l i off ∧ off < clustersize vol)

/-- The result of a call: the bytes of the file from the position on, and an error if they end with
the last cluster of the chain. -/
def Delivers (io : FatIo vol) (S : Set ℕ) (l : List ℕ) (f : ℤ → ℕ → UInt8) (n : ℕ)
    (result : Option (FatIo vol × List UInt8 × ℤ)) : Prop :=
  ∃ io' r, result = some (io',
      (List.range (io.readLength n)).map fun j => fileByte vol f l (io.ff.pos.toNat + j), r) ∧
    io'.ff.pos = io.ff.pos + io.readLength n ∧
    ((r = io.readLength n ∧ io'.Reading S l f ∧
        ¬ (0 < io.readLength n ∧ io.ff.pos + io.readLength n = (l.length * clustersize vol : ℕ))) ∨
      (r = -eINVAL ∧ 0 < io.readLength n ∧
        io.ff.pos + io.readLength n = (l.length * clustersize vol : ℕ)))

namespace Reading

theorem bits32_left (h : io.Reading S l f) :
    bits32 (io.ff.size - io.ff.pos) = (io.ff.size - io.ff.pos).toNat := by
  have hlow := h.pos_nonneg
  have hle := h.pos_le
  have hlt := h.size_lt
  unfold bits32
  omega

/-- A call on a file without clusters has nothing to read. -/
theorem read_nil (h : io.Reading S [] f) (n : ℕ) :
    io.readLength n = 0 ∧ ∃ io', io.fatRead n = some (io', [], 0) ∧ io'.ff.pos = io.ff.pos ∧
      io'.Reading S [] f := by
  have hlow := h.pos_nonneg
  have hsize := h.size_le
  rw [length_nil, Nat.zero_mul] at hsize
  have hzero : io.readLength n = 0 := by
    unfold readLength
    omega
  have hclip : min n (bits32 (io.ff.size - io.ff.pos)) = 0 := by
    rw [h.bits32_left]
    exact hzero
  have hpos : io.ff.pos ≤ io.ff.size := h.pos_le
  refine ⟨hzero, ?_⟩
  rw [fatRead, if_neg (by rw [h.rdok]; decide)]
  rw [hclip]
  by_cases hsector : io.ff.currentsector = 0
  · rw [if_pos hsector, fatCurrentsector, if_pos hpos, if_neg (Int.lt_irrefl 0)]
    exact ⟨_, rfl, rfl, h.rdok, h.size_le, h.size_lt, h.pos_nonneg, h.pos_le, .inl rfl⟩
  · rw [if_neg hsector]
    exact ⟨io, rfl, rfl, h⟩

/-- A call of `fat_read` whose cursor is set. -/
theorem read_cursor (h : io.Reading S l f) (hsound : io.Sound S s l) (hclean : io.Clean l f)
    (hc : io.Cursor l i off) (hoff : off < clustersize vol) (n : ℕ) :
    io.Delivers S l f n (io.readLoop (io.readLength n) [] (io.readLength n + 2)) := by
  have hpos := hc.pos
  have hle := h.pos_le
  have hlt := h.size_lt
  have hsize := h.size_le
  have hm : (io.readLength n : ℤ) ≤ io.ff.size - io.ff.pos := by
    unfold readLength
    omega
  obtain ⟨io', bytes, r, i', off', hrun, hfetch, hlen, hret⟩ := readLoop_spec
    (io.readLength n + 2) hsound hc (io.readLength n) [] (.inl hoff) (by omega) (by
      rw [if_pos hoff]
      omega)
  rw [Delivers]
  generalize io.readLength n = m at hm hrun hlen hret ⊢
  rw [List.nil_append] at hrun
  have hplace := hfetch.place
  have hpos' := hfetch.cursor.pos
  have hbytes := hfetch.bytes f hclean
  have hat : io.ff.pos.toNat = i * clustersize vol + off := by omega
  -- The end of the chain is not before the end of the file.
  have hall : bytes.length = m := by
    rcases hret with ⟨-, hall, -⟩ | ⟨-, hi, hend⟩
    · exact hall
    · rw [← hi, Nat.succ_mul] at hsize
      omega
  rw [hall] at hbytes hplace
  rw [hat]
  refine ⟨io', r, by rw [hrun, hbytes], by omega, ?_⟩
  rcases hret with ⟨hr, -, hoff'⟩ | ⟨hr, hi, hend⟩
  · left
    have hoff1 := hoff' (.inl hoff)
    obtain ⟨hi, -⟩ := List.getElem?_eq_some_iff.mp hfetch.cursor.cluster
    have hin : (i' + 1) * clustersize vol ≤ l.length * clustersize vol := Nat.mul_le_mul_right _ hi
    rw [Nat.succ_mul] at hin
    refine ⟨?_, ⟨hfetch.rdok.trans h.rdok, ?_, ?_, by omega, ?_, .inr ⟨s, hfetch.sound,
      hfetch.clean f hclean, .inr ⟨i', off', hfetch.cursor, hoff1⟩⟩⟩, by omega⟩
    · rw [hr, List.length_nil, Nat.zero_add]
      exact offT_of_lt (by omega) (by omega)
    · rw [hfetch.size]
      exact hsize
    · rw [hfetch.size]
      exact hlt
    · rw [hfetch.size]
      omega
  · right
    obtain ⟨hin, -⟩ := List.getElem?_eq_some_iff.mp hc.cluster
    have hle : (i + 1) * clustersize vol ≤ l.length * clustersize vol := Nat.mul_le_mul_right _ hin
    rw [← hi, Nat.succ_mul, Nat.succ_mul] at hle
    rw [← hi, Nat.succ_mul]
    exact ⟨hr, by omega, by omega⟩

/-- **A call of `fat_read`** delivers the bytes and moves the position; and it fails if it ends with
the last cluster of the chain. -/
theorem read (h : io.Reading S l f) (n : ℕ) :
    io.Delivers S l f n (io.fatRead n) := by
  rcases h.state with rfl | ⟨s, hsound, hclean, hstate⟩
  · obtain ⟨hzero, io', hrun, hpos, hreading⟩ := h.read_nil n
    rw [Delivers, hzero]
    exact ⟨io', 0, hrun, by rw [hpos]; exact (Int.add_zero _).symm, .inl ⟨rfl, hreading,
      fun hand => Nat.lt_irrefl 0 hand.1⟩⟩
  rw [fatRead, if_neg (by rw [h.rdok]; decide)]
  rw [h.bits32_left]
  change io.Delivers S l f n (if io.ff.currentsector = 0 then
    if (io.fatCurrentsector io.ff.pos).2 < 0 then _
    else (io.fatCurrentsector io.ff.pos).1.readLoop (io.readLength n) [] (io.readLength n + 2)
    else io.readLoop (io.readLength n) [] (io.readLength n + 2))
  rcases hstate with ⟨hsector, hpos, hcluster⟩ | ⟨i, off, hc, hoff⟩
  · have hfirst : l[0]? = some io.ff.currentcluster := by
      rw [hcluster]
      exact hsound.path.getElem?_zero
    obtain ⟨io₁, hcur, hsound₁, hc1, hfs, sector, left, hff⟩ := fatCurrentsector_cursor hsound
      hfirst (clustersize_pos vol) (by rw [hpos, Nat.zero_mul]; rfl) (by rw [hpos]; decide) h.pos_le
    rw [if_pos hsector, hcur, if_neg (Int.lt_irrefl 0)]
    have hreading : io₁.Reading S l f := by
      refine ⟨?_, ?_, ?_, ?_, ?_, .inr ⟨s, hsound₁, hclean.congr hfs ?_ ?_ ?_, .inr ⟨0, 0, hc1,
        clustersize_pos vol⟩⟩⟩
      · rw [hff]
        exact h.rdok
      · rw [hff]
        exact h.size_le
      · rw [hff]
        exact h.size_lt
      · rw [hff]
        exact h.pos_nonneg
      · rw [hff]
        exact h.pos_le
      · rw [hff]
      · rw [hff]
      · rw [hff]
    have hlength : io₁.readLength n = io.readLength n := by
      rw [readLength, readLength, hff]
    have hsame : io₁.ff.pos = io.ff.pos := by rw [hff]
    rw [Delivers, ← hlength, ← hsame]
    obtain ⟨-, hsound', hclean', -⟩ := hreading.state.resolve_left hsound.path.ne_nil
    exact hreading.read_cursor hsound₁ hclean' hc1 (clustersize_pos vol) n
  · have hne : io.ff.currentsector ≠ 0 := (hc.sector_pos hsound.path).ne'
    rw [if_neg hne]
    exact h.read_cursor hsound hclean hc hoff n

end Reading

end FatIo

/-! ### Runs -/

variable {vol : FatVolume} {io io₀ : FatIo vol} {S : Set ℕ} {l : List ℕ}

/-- The file has just been opened for reading, on a volume whose table is well formed for the chains
from `S`. Its chain is `l`, which has at least the clusters that the size asks for, and a file of no
bytes may have none. -/
structure FatReadable (io : FatIo vol) (S : Set ℕ) (l : List ℕ) : Prop where
  coherent : io.fs.Coherent
  wf : vol.links.WellFormed io.fs.link S
  rdok : io.ff.rdok = true
  chain : (io.ff.startcluster = 0 ∧ l = []) ∨
    ∃ s ∈ S, io.ff.startcluster = (s : ℕ) ∧ vol.links.Path io.fs.link s l
  cluster : io.ff.startcluster = io.ff.currentcluster
  sector : io.ff.currentsector = 0
  cache : io.ff.cachesector = 0
  bflags : io.ff.bflags = 0
  pos : io.ff.pos = 0
  size_nonneg : 0 ≤ io.ff.size
  size_le : io.ff.size ≤ (l.length * FatIo.clustersize vol : ℕ)
  size_lt : io.ff.size < 2 ^ 31
  volume : io.fs.Spares (FatIo.chainSectors vol l)
  log : io.log = []

/-- Successful calls of `fat_read`. -/
inductive ReadRun (io₀ : FatIo vol) : FatIo vol → Prop
  | start : ReadRun io₀ io₀
  | step {io io' : FatIo vol} {n : ℕ} {bytes : List UInt8} {r : ℤ} :
    ReadRun io₀ io → io.fatRead n = some (io', bytes, r) → 0 ≤ r → ReadRun io₀ io'

theorem FatReadable.reading (h : FatReadable io S l) : io.Reading S l io.fs.dev where
  rdok := h.rdok
  size_le := h.size_le
  size_lt := h.size_lt
  pos_nonneg := h.pos.ge
  pos_le := h.pos.trans_le h.size_nonneg
  state := by
    refine h.chain.imp (fun hnone => hnone.2) ?_
    rintro ⟨s, hs, hstart, hpath⟩
    have hcluster : io.ff.currentcluster = s := Int.ofNat.inj (h.cluster.symm.trans hstart)
    refine ⟨s, ⟨h.coherent, h.wf, hs, hstart, hpath, .inl h.cache, ?_⟩,
      ⟨fun _ _ => rfl, h.volume, .inl h.bflags⟩, .inl ⟨h.sector, h.pos, hcluster⟩⟩
    rw [h.log]
    exact fun _ he => absurd he not_mem_nil

theorem ReadRun.reading (hopen : FatReadable io₀ S l) (hrun : ReadRun io₀ io) :
    io.Reading S l io₀.fs.dev := by
  induction hrun with
  | start => exact hopen.reading
  | @step io io' n bytes r _ hcall hret ih =>
    obtain ⟨io₁, r1, hr, -, hcases⟩ := ih.read n
    have heq := Option.some.inj (hcall.symm.trans hr)
    obtain ⟨rfl, hrest⟩ := Prod.mk.inj heq
    cases hrest
    rcases hcases with ⟨-, hreading, -⟩ | ⟨hfail, -, -⟩
    · exact hreading
    · rw [hfail] at hret
      exact absurd hret (by decide)

/-- **`fat_read` returns the file**, at every position that is reached by successful calls and for
every length, if and only if the call does not read the last byte of the last cluster of the chain.
Such a call fails. -/
theorem readRun_law_iff (hopen : FatReadable io₀ S l) (hrun : ReadRun io₀ io) (n : ℕ) :
    (0 ≤ io.ff.pos ∧ io.ff.pos ≤ io.ff.size) ∧
      (io.ReadLaw l io₀.fs.dev n ↔
        ¬ (0 < io.readLength n ∧
          io.ff.pos + io.readLength n = (l.length * FatIo.clustersize vol : ℕ))) := by
  have hreading := hrun.reading hopen
  refine ⟨⟨hreading.pos_nonneg, hreading.pos_le⟩, ?_⟩
  obtain ⟨io', r, hr, hpos, ⟨rfl, -, hnot⟩ | ⟨rfl, hend⟩⟩ := hreading.read n
  · exact iff_of_true ⟨io', hr, hpos⟩ hnot
  refine iff_of_false (fun hlaw => ?_) (not_not.2 hend)
  obtain ⟨io₁, hr₁, -⟩ := hlaw
  obtain ⟨-, hrest⟩ := Prod.mk.inj (Option.some.inj (hr.symm.trans hr₁))
  have hneg : -eINVAL = ((io.readLength n : ℕ) : ℤ) := (Prod.mk.inj hrest).2
  unfold eINVAL at hneg
  omega

/-- A file on the small volume with the chain of the clusters 2 and 3. -/
def smallFile (size : ℤ) : FatIo smallVolume :=
  { emptyFile smallMount with
    ff := { (emptyFile smallMount).ff with
      startcluster := 2
      currentcluster := 2
      size := size } }

theorem fatReadable_smallFile {size : ℤ} (hnonneg : 0 ≤ size) (hle : size ≤ 1024) :
    FatReadable (smallFile size) {2} [2, 3] where
  coherent := coherent_smallMount
  wf := wellFormed_smallMount
  rdok := rfl
  chain := .inr ⟨2, rfl, rfl, path_smallMount⟩
  cluster := rfl
  sector := rfl
  cache := rfl
  bflags := rfl
  pos := rfl
  size_nonneg := hnonneg
  size_le := hle
  size_lt := Int.lt_of_le_of_lt hle (by decide)
  volume := fun hdirty => absurd (show smallMount.dirty = true from hdirty) (by decide)
  log := rfl

theorem readRun_law_iff_ten : (smallFile 600).ReadLaw [2, 3] smallMount.dev 10 := by
  have hopen : FatReadable (smallFile 600) {2} [2, 3] :=
    fatReadable_smallFile (by decide) (by decide)
  exact (readRun_law_iff hopen .start 10).2.2 (by decide +kernel)

/-- **Reading a whole file of two full clusters fails**, with all its bytes in the user's buffer. -/
theorem readRun_whole_cluster :
    FatReadable (smallFile 1024) {2} [2, 3] ∧
      ((smallFile 1024).fatRead 1024).map (fun r => (r.2.1.length, r.2.2)) = some (1024, -22) ∧
      ¬ (smallFile 1024).ReadLaw [2, 3] smallMount.dev 1024 := by
  have hret : ((smallFile 1024).fatRead 1024).map (fun r => (r.2.1.length, r.2.2)) =
      some (1024, -22) := by decide +kernel
  refine ⟨fatReadable_smallFile (by decide) (by decide), hret, ?_⟩
  rintro ⟨io', hrun, -⟩
  rw [hrun] at hret
  have hneg := (Prod.mk.inj (Option.some.inj hret)).2
  dsimp only at hneg
  omega

end NuttX
