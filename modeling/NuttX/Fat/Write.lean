import NuttX.Fat.File

/-!
# Where a file is written

A file that is written through `fat_write` and `fat_seek` keeps to the clusters of its own chain as
long as three things do not happen: a file without a cluster is written on a full volume, a write of
less than a sector follows a write that ended with a cluster and found no other one, and `fat_seek`
leaves a position behind the end of the file after a sector of the file has been used.

`NuttX.FatIo.Sound` is what the calls preserve whatever the current sector is: the file has a
chain in a well formed table, its current cluster and the sector in its buffer are on the chain,
and so is everything that has been noted. `NuttX.FatIo.Aimed` says that the current sector and the
sectors that are left belong to the current cluster. `fat_write` starts from both of them and
keeps both, from one round of its loop to the next (`NuttX.FatIo.transfer_spec`).
-/

namespace NuttX

open Function FatMountpt List

namespace FatVolume

variable {vol : FatVolume} {c : ℕ} {k : ℤ}

def Holds (vol : FatVolume) (c : ℕ) (k : ℤ) : Prop :=
  vol.fatCluster2sector c ≤ k ∧ k < vol.fatCluster2sector c + vol.fatsecperclus

theorem fatsecperclus_pos : 0 < vol.fatsecperclus := by
  obtain ⟨k, -, hk⟩ := vol.fatsecperclus_eq
  rw [hk]
  exact Nat.two_pow_pos k

theorem fatsecperclus_le : vol.fatsecperclus ≤ 128 := by
  obtain ⟨k, hle, hk⟩ := vol.fatsecperclus_eq
  rw [hk]
  exact Nat.pow_le_pow_right (by omega) hle

theorem nclusters_lt_two_pow (vol : FatVolume) : vol.nclusters < 2 ^ 28 := by
  have hlt := vol.nclusters_lt
  cases ht : vol.type with
  | fat12 | fat16 | fat32 =>
    simp only [ht, FatType.bits] at hlt
    omega

/-- The first sector of a cluster, which is a number of `off_t`. -/
theorem fatCluster2sector_of_valid (hc : vol.links.Valid c) :
    vol.fatCluster2sector c = vol.database + ((c - 2) * vol.fatsecperclus : ℕ) ∧
      vol.fatCluster2sector c + vol.fatsecperclus < 2 ^ 31 := by
  have hrange : 2 ≤ c ∧ c < vol.nclusters := hc
  have hlt := vol.nclusters_lt_two_pow
  have hfit := vol.sectors_fit
  have hmul : (c - 2 + 1) * vol.fatsecperclus ≤ vol.nclusters * vol.fatsecperclus :=
    Nat.mul_le_mul_right _ (by omega)
  rw [Nat.succ_mul] at hmul
  have hbound : vol.database + ((c - 2) * vol.fatsecperclus : ℕ) + vol.fatsecperclus < 2 ^ 31 := by
    omega
  generalize hm : (c - 2) * vol.fatsecperclus = m at hbound
  have hbase := vol.database_nonneg
  have heq : vol.fatCluster2sector c = vol.database + m := by
    have hc' : (c + 0xfffffffe) % 0x100000000 = c - 2 := by omega
    have hn : (vol.nclusters + 0xfffffffe) % 0x100000000 = vol.nclusters - 2 := by omega
    rw [FatGeometry.fatCluster2sector, hc', hn, if_neg (by omega), hm, Int.add_comm]
    exact offT_of_lt (by omega) (by omega)
  refine ⟨heq, ?_⟩
  omega

theorem Holds.bounds (h : vol.Holds c k) (hc : vol.links.Valid c) :
    0 < k ∧ k < 2 ^ 31 ∧ ¬ vol.FatSector k := by
  obtain ⟨heq, hlt⟩ := fatCluster2sector_of_valid hc
  obtain ⟨hlow, hhigh⟩ := h
  have hdata := vol.fat_before_data
  have hcopies : vol.nfatsects ≤ vol.fatnumfats * vol.nfatsects :=
    Nat.le_mul_of_pos_left _ vol.one_le_fatnumfats
  have hfatbase := vol.fatbase_nonneg
  -- The table has entries, and so it has a sector.
  have hpos : 0 < vol.nfatsects := by
    have hin : vol.InFat 0 := inFat_entry hc.2 (by
      cases vol.type <;> simp only [FatType.nibbles] <;> omega)
    rcases Nat.eq_zero_or_pos vol.nfatsects with hzero | hpos
    · rw [InFat, hzero, Nat.zero_mul] at hin
      omega
    · exact hpos
  refine ⟨by omega, by omega, fun hfat => ?_⟩
  have hupper := hfat.2
  omega

end FatVolume

variable {n : ℕ}

namespace FatMountpt

variable {vol : FatVolume} {fs : FatMountpt vol}

theorem fatHwwrite_link {sector : ℤ} (h : fs.Coherent) (buffer : ℕ → UInt8)
    (hdata : ∀ k, sector ≤ k → k < sector + n → ¬ vol.FatSector k) :
    (fs.fatHwwrite buffer sector n).Coherent ∧ (fs.fatHwwrite buffer sector n).link = fs.link := by
  have hdev : ∀ k, vol.FatSector k → (fs.fatHwwrite buffer sector n).dev k = fs.dev k :=
    fun k hk => if_neg fun hrange => hdata k hrange.1 hrange.2 hk
  have hcoh : (fs.fatHwwrite buffer sector n).Coherent := by
    intro hclean hfat
    rw [hdev _ hfat]
    exact h hclean hfat
  refine ⟨hcoh, Reads.link_eq h ⟨hcoh, fun i hi => ?_, rfl, rfl⟩⟩
  rw [fatByte, fatByte, hdev _ hi.fatSector]
  rfl

end FatMountpt

/-! ### What is noted -/

def FatEvent.Owned (vol : FatVolume) (e : FatEvent) : Prop :=
  ∃ (s : ℕ) (l : List ℕ), e.start = s ∧ vol.links.Path e.link s l ∧
    ∀ k, e.sector ≤ k → k < e.sector + e.nsectors → ∃ c ∈ l, vol.Holds c k

namespace FatIo

variable {vol : FatVolume} {io io' : FatIo vol} {S : Set ℕ} {s : ℕ} {l : List ℕ} {sector : ℤ}

/-- The file has the chain `l`, from the cluster `s`, and has kept to it. -/
structure Sound (io : FatIo vol) (S : Set ℕ) (s : ℕ) (l : List ℕ) : Prop where
  coherent : io.fs.Coherent
  wf : vol.links.WellFormed io.fs.link S
  mem : s ∈ S
  start : io.ff.startcluster = s
  path : vol.links.Path io.fs.link s l
  cache : io.ff.cachesector = 0 ∨ ∃ c ∈ l, vol.Holds c io.ff.cachesector
  log : ∀ e ∈ io.log, e.Owned vol

namespace Sound

section

variable (h : io.Sound S s l)

include h

theorem congr (hcoh : io'.fs.Coherent) (hlink : io'.fs.link = io.fs.link)
    (hstart : io'.ff.startcluster = io.ff.startcluster)
    (hcache : io'.ff.cachesector = io.ff.cachesector) (hlog : io'.log = io.log) :
    io'.Sound S s l where
  coherent := hcoh
  wf := hlink ▸ h.wf
  mem := h.mem
  start := hstart.trans h.start
  path := hlink ▸ h.path
  cache := hcache ▸ h.cache
  log := hlog ▸ h.log

theorem owned (hs : ∀ k, sector ≤ k → k < sector + n → ∃ c ∈ l, vol.Holds c k) :
    ∀ e ∈ (io.note sector n).log, e.Owned vol := by
  intro e he
  rcases mem_append.mp he with he | he
  · exact h.log e he
  · rw [mem_singleton.mp he]
    exact ⟨s, l, h.start, h.path, hs⟩

theorem hwwrite (buffer : ℕ → UInt8) (sector : ℤ)
    (hs : ∀ k, sector ≤ k → k < sector + n → ∃ c ∈ l, vol.Holds c k) :
    (io.hwwrite buffer sector n).Sound S s l := by
  have hdata : ∀ k, sector ≤ k → k < sector + n → ¬ vol.FatSector k := by
    intro k hlow hhigh
    obtain ⟨c, hc, hk⟩ := hs k hlow hhigh
    exact (hk.bounds (h.path.valid hc)).2.2
  obtain ⟨hcoh, hlink⟩ := fatHwwrite_link h.coherent buffer hdata
  exact ⟨hcoh, hlink ▸ h.wf, h.mem, h.start, hlink ▸ h.path, h.cache, h.owned hs⟩

theorem setCachesector (hs : ∃ c ∈ l, vol.Holds c sector) :
    (io.setCachesector sector).Sound S s l := by
  refine ⟨h.coherent, h.wf, h.mem, h.start, h.path, .inr hs, h.owned fun k hlow hhigh => ?_⟩
  obtain rfl : k = sector := by omega
  exact hs

end

end Sound

theorem fatFfcacheflush_ff (io : FatIo vol) :
    ∃ b, io.fatFfcacheflush.ff = { io.ff with bflags := b } := by
  unfold fatFfcacheflush
  split_ifs
  · exact ⟨_, rfl⟩
  · exact ⟨_, rfl⟩

namespace Sound

section

variable (h : io.Sound S s l)

include h

theorem flush : io.fatFfcacheflush.Sound S s l := by
  unfold fatFfcacheflush
  split_ifs with hwrite
  · have hcache := h.cache.resolve_left hwrite.1
    have hwritten := h.hwwrite (n := 1) io.ff.buffer io.ff.cachesector
      fun k hlow hhigh => by
        obtain rfl : k = io.ff.cachesector := by omega
        exact hcache
    exact hwritten.congr hwritten.coherent rfl rfl rfl rfl
  · exact h

theorem readSector (hs : ∃ c ∈ l, vol.Holds c sector) : (io.readSector sector).Sound S s l := by
  have hset := h.setCachesector hs
  exact hset.congr hset.coherent rfl rfl rfl rfl

theorem read (hs : ∃ c ∈ l, vol.Holds c sector) : (io.fatFfcacheread sector).Sound S s l := by
  unfold fatFfcacheread
  split_ifs
  · exact h.flush.readSector hs
  · exact h

theorem invalidate : io.fatFfcacheinvalidate.Sound S s l := by
  unfold fatFfcacheinvalidate
  split_ifs
  · exact { h.flush with cache := .inl rfl }
  · exact h

end

end Sound

/-! ### Positions -/

theorem clustersize_pos (vol : FatVolume) : 0 < clustersize vol :=
  Nat.mul_pos vol.fatsecperclus_pos vol.hwsectorsize_pos

theorem bits32_offT (x : ℤ) : bits32 (offT x) = bits32 x := by
  unfold bits32 offT
  rw [Int.bmod_def]
  omega

theorem bits32_add (x : ℤ) (n : ℕ) : bits32 (x + n) = (bits32 x + n) % 0x100000000 := by
  unfold bits32
  omega

theorem hwsectorsize_dvd (vol : FatVolume) : vol.hwsectorsize ∣ 0x100000000 := by
  obtain ⟨k, hk⟩ := vol.hwsectorsize_eq
  have hlt := vol.hwsectorsize_lt
  rw [hk] at hlt
  have hle : k + 2 ≤ 32 := by
    have := (Nat.pow_lt_pow_iff_right (by omega)).mp hlt
    omega
  rw [hk]
  exact Nat.pow_dvd_pow 2 hle

theorem sectorindex_eq (io : FatIo vol) : io.sectorindex = bits32 io.ff.pos % vol.hwsectorsize := by
  obtain ⟨k, hk⟩ := vol.hwsectorsize_eq
  rw [sectorindex, FatGeometry.secNdxmask, hk, Nat.and_two_pow_sub_one_eq_mod]

theorem sectorindex_lt (io : FatIo vol) : io.sectorindex < vol.hwsectorsize := by
  rw [sectorindex_eq]
  exact Nat.mod_lt _ vol.hwsectorsize_pos

theorem sectorindex_advance (io : FatIo vol) (n : ℕ) :
    (io.advance n).sectorindex = (io.sectorindex + n) % vol.hwsectorsize := by
  rw [sectorindex_eq, sectorindex_eq]
  show bits32 (offT (io.ff.pos + n)) % _ = _
  rw [bits32_offT, bits32_add, Nat.mod_mod_of_dvd _ (hwsectorsize_dvd vol), Nat.mod_add_mod]

theorem sectoroffset_lt (vol : FatVolume) (position : ℤ) :
    sectoroffset vol position < vol.fatsecperclus := by
  obtain ⟨k, -, hk⟩ := vol.fatsecperclus_eq
  rw [sectoroffset, FatGeometry.clusNdxmask, hk, Nat.and_two_pow_sub_one_eq_mod]
  exact Nat.mod_lt _ (Nat.two_pow_pos k)

/-! ### One round of the loop of `fat_write` -/

/-- The current sector, and the sectors that are left, are those of the current cluster. When none
is left, the last one has been filled. -/
structure Aimed (io : FatIo vol) (l : List ℕ) : Prop where
  cluster : io.ff.currentcluster ∈ l
  low : vol.fatCluster2sector io.ff.currentcluster ≤ io.ff.currentsector
  left : io.ff.currentsector + io.ff.sectorsincluster =
    vol.fatCluster2sector io.ff.currentcluster + vol.fatsecperclus
  aligned : io.ff.sectorsincluster = 0 → io.sectorindex = 0

theorem Aimed.holds (h : io.Aimed l) {k : ℤ} (hlow : io.ff.currentsector ≤ k)
    (hhigh : k < io.ff.currentsector + io.ff.sectorsincluster) : ∃ c ∈ l, vol.Holds c k := by
  have hcur := h.low
  have hleft := h.left
  exact ⟨_, h.cluster, by omega, by omega⟩

theorem Aimed.sectorsincluster_le (h : io.Aimed l) :
    io.ff.sectorsincluster ≤ vol.fatsecperclus := by
  have hcur := h.low
  have hleft := h.left
  omega

theorem Aimed.offT_eq (h : io.Aimed l) (hpath : vol.links.Path io.fs.link s l)
    (hn : n ≤ io.ff.sectorsincluster) :
    offT (io.ff.currentsector + n) = io.ff.currentsector + n := by
  have hvalid := hpath.valid h.cluster
  obtain ⟨heq, hlt⟩ := FatVolume.fatCluster2sector_of_valid hvalid
  have hcur := h.low
  have hleft := h.left
  have hbase : 0 ≤ vol.fatCluster2sector io.ff.currentcluster := by
    have hzero := vol.database_nonneg
    omega
  exact offT_of_lt (by omega) (by omega)

theorem fatFfcacheinvalidate_ff (io : FatIo vol) :
    ∃ b k, io.fatFfcacheinvalidate.ff = { io.ff with bflags := b, cachesector := k } := by
  obtain ⟨b, hb⟩ := io.fatFfcacheflush_ff
  unfold fatFfcacheinvalidate
  split_ifs
  · exact ⟨_, 0, by rw [hb]⟩
  · exact ⟨_, _, rfl⟩

theorem loadSector_ff (io : FatIo vol) :
    ∃ b k p, io.loadSector.ff = { io.ff with bflags := b, cachesector := k, buffer := p } := by
  obtain ⟨b, hb⟩ := io.fatFfcacheflush_ff
  unfold loadSector fatFfcacheread
  split_ifs
  · exact ⟨_, _, _, by simp only [readSector, hb]; rfl⟩
  · exact ⟨_, _, _, rfl⟩
  · exact ⟨_, _, _, by simp only [setCachesector, hb]; rfl⟩

theorem Sound.load (h : io.Sound S s l) (hs : ∃ c ∈ l, vol.Holds c io.ff.currentsector) :
    io.loadSector.Sound S s l := by
  unfold loadSector
  split_ifs
  · exact h.read hs
  · exact h.flush.setCachesector hs

theorem sectorindex_congr (hpos : io'.ff.pos = io.ff.pos) : io'.sectorindex = io.sectorindex := by
  rw [sectorindex, sectorindex, hpos]

theorem Aimed.move (h : io.Aimed l) (hn : n ≤ io.ff.sectorsincluster)
    (hcluster : io'.ff.currentcluster = io.ff.currentcluster)
    (hsector : io'.ff.currentsector = io.ff.currentsector + n)
    (hleft : io'.ff.sectorsincluster = io.ff.sectorsincluster - n)
    (haligned : io'.ff.sectorsincluster = 0 → io'.sectorindex = 0) : io'.Aimed l := by
  have hold := h.left
  have hlow := h.low
  refine ⟨hcluster ▸ h.cluster, ?_, ?_, haligned⟩
  · rw [hcluster, hsector]
    omega
  · rw [hcluster, hsector, hleft]
    omega

section

variable (h : io.Sound S s l) (ha : io.Aimed l) (p : ℕ → UInt8)

include h ha p

/-- Whole sectors are written to the current cluster. -/
theorem writeSectors_spec (hn : n ≤ io.ff.sectorsincluster) (hindex : io.sectorindex = 0) :
    ((io.writeSectors p n).advance (n * vol.hwsectorsize)).Sound S s l ∧
      ((io.writeSectors p n).advance (n * vol.hwsectorsize)).Aimed l ∧
      (io.writeSectors p n).ff.sectorsincluster = io.ff.sectorsincluster - n := by
  obtain ⟨b, k, hff⟩ := io.fatFfcacheinvalidate_ff
  have hwritten : (io.fatFfcacheinvalidate.hwwrite p io.ff.currentsector n).Sound S s l :=
    h.invalidate.hwwrite p _ fun k hlow hhigh => ha.holds hlow (by omega)
  have hnext := ha.offT_eq h.path hn
  have hsame : (io.writeSectors p n).ff = { io.ff with
      bflags := b ||| 0x04
      cachesector := k
      sectorsincluster := io.ff.sectorsincluster - n
      currentsector := io.ff.currentsector + n } := by
    simp only [writeSectors, hff, hnext]
  refine ⟨hwritten.congr hwritten.coherent rfl rfl rfl rfl, ?_, rfl⟩
  refine ha.move hn ?_ hnext rfl fun _ => ?_
  · show (io.writeSectors p n).ff.currentcluster = _
    rw [hsame]
  · have hpos : (io.writeSectors p n).ff.pos = io.ff.pos := by rw [hsame]
    rw [sectorindex_advance, sectorindex_congr hpos, hindex, Nat.zero_add, Nat.mul_mod_left]

/-- A part of a sector is written to the buffer. -/
theorem writePart_spec (buflen : ℕ) (hleft : io.ff.sectorsincluster ≠ 0) :
    ((io.writePart p buflen).advance (min (vol.hwsectorsize - io.sectorindex) buflen)).Sound S s l ∧
      ((io.writePart p buflen).advance
        (min (vol.hwsectorsize - io.sectorindex) buflen)).Aimed l := by
  obtain ⟨b, k, q, hff⟩ := io.loadSector_ff
  have hloaded : io.loadSector.Sound S s l :=
    h.load (ha.holds (Int.le_refl _) (by omega))
  have hle := ha.sectorsincluster_le
  have hspc := vol.fatsecperclus_le
  have hindex := io.sectorindex_lt
  have hpos : (io.writePart p buflen).ff.pos = io.ff.pos := by simp only [writePart, hff]
  have hcluster : (io.writePart p buflen).ff.currentcluster = io.ff.currentcluster := by
    simp only [writePart, hff]
  refine ⟨hloaded.congr hloaded.coherent rfl rfl rfl rfl, ?_⟩
  by_cases hfull : vol.hwsectorsize - io.sectorindex ≤ buflen
  · have hnext := ha.offT_eq h.path (n := 1) (by omega)
    have hsector : (io.writePart p buflen).ff.currentsector = io.ff.currentsector + 1 := by
      simp only [writePart, hff, if_pos hfull]
      exact hnext
    have hsic : (io.writePart p buflen).ff.sectorsincluster = io.ff.sectorsincluster - 1 := by
      simp only [writePart, hff, if_pos hfull]
      omega
    refine ha.move (n := 1) (by omega) hcluster hsector hsic fun _ => ?_
    rw [sectorindex_advance, sectorindex_congr hpos, Nat.min_eq_left hfull,
      Nat.add_sub_cancel' (Nat.le_of_lt hindex), Nat.mod_self]
  · have hsector : (io.writePart p buflen).ff.currentsector = io.ff.currentsector + (0 : ℕ) := by
      simp only [writePart, hff, if_neg hfull]
      exact (Int.add_zero _).symm
    have hsic : (io.writePart p buflen).ff.sectorsincluster = io.ff.sectorsincluster := by
      simp only [writePart, hff, if_neg hfull]
    refine ha.move (by omega) hcluster hsector hsic fun hzero => ?_
    exact absurd (hsic.symm.trans hzero) hleft

/-- **One round of the loop of `fat_write`** keeps to the current cluster, and writes something if
a sector is left in it. A round without a sector is one for whole sectors. -/
theorem transfer_spec {buflen : ℕ} (hpos : 0 < buflen)
    (hleft : io.ff.sectorsincluster ≠ 0 ∨ vol.hwsectorsize ≤ buflen) :
    ((io.transfer p buflen).1.advance (io.transfer p buflen).2).Sound S s l ∧
      ((io.transfer p buflen).1.advance (io.transfer p buflen).2).Aimed l ∧
      (io.transfer p buflen).2 ≤ buflen ∧
      (io.ff.sectorsincluster ≠ 0 → 0 < (io.transfer p buflen).2) ∧
      (io.ff.sectorsincluster = 0 →
        ((io.transfer p buflen).1.advance (io.transfer p buflen).2).ff.sectorsincluster = 0) := by
  have hss := vol.hwsectorsize_pos
  have hindex := io.sectorindex_lt
  unfold transfer
  split_ifs with hwhole
  · have hn : io.nsectors buflen ≤ io.ff.sectorsincluster := Nat.min_le_right ..
    have hn' : io.nsectors buflen ≤ buflen / vol.hwsectorsize := Nat.min_le_left ..
    obtain ⟨hsound, haimed, hsic⟩ := writeSectors_spec h ha p hn hwhole.2
    refine ⟨hsound, haimed, ?_, fun hne => ?_, fun hzero => ?_⟩
    · calc io.nsectors buflen * vol.hwsectorsize
          ≤ buflen / vol.hwsectorsize * vol.hwsectorsize := Nat.mul_le_mul_right _ hn'
        _ ≤ buflen := Nat.div_mul_le_self ..
    · have hone : 0 < io.nsectors buflen := by
        unfold nsectors
        omega
      exact Nat.mul_pos hone hss
    · show (io.writeSectors p (io.nsectors buflen)).ff.sectorsincluster = 0
      omega
  · -- Without a sector the position is at the beginning of one, and whole sectors are written.
    have hne : io.ff.sectorsincluster ≠ 0 := by
      intro hzero
      refine hwhole ⟨Nat.div_pos (hleft.resolve_left (not_not.mpr hzero)) hss, ha.aligned hzero⟩
    obtain ⟨hsound, haimed⟩ := writePart_spec h ha p buflen hne
    exact ⟨hsound, haimed, Nat.min_le_right .., fun _ => by omega, fun hzero => absurd hzero hne⟩

end

theorem transfer_keep (io : FatIo vol) (p : ℕ → UInt8) (buflen : ℕ) :
    ∃ io1, (io.transfer p buflen).1.advance (io.transfer p buflen).2 = io1 ∧
      io1.ff.wrok = io.ff.wrok ∧ io1.ff.size = io.ff.size := by
  obtain ⟨b, k, hff⟩ := io.fatFfcacheinvalidate_ff
  obtain ⟨b', k', q, hff'⟩ := io.loadSector_ff
  refine ⟨_, rfl, ?_⟩
  unfold transfer
  split_ifs
  · simp only [advance, writeSectors, hff, and_self]
  · simp only [advance, writePart, hff', and_self]

/-! ### Going on to the next cluster -/

/-- **The next cluster of the chain**, or a new one; or there is none, and nothing has changed. -/
theorem Sound.extend_at {cluster i : ℕ} (h : io.Sound S s l) (hi : l[i]? = some cluster) :
    ∃ fs r, io.fs.fatExtendchain cluster = some (fs, r) ∧
      ((r = 0 ∧ l.length = i + 1 ∧ FatIo.Sound { io with fs := fs } S s l) ∨
        ∃ (c : ℕ) (l' : List ℕ), r = c ∧ l'[i + 1]? = some c ∧ l <+: l' ∧
          FatIo.Sound { io with fs := fs } S s l') := by
  have hc : cluster ∈ l := mem_of_getElem? hi
  have hvalid := h.path.valid hc
  have hrange : 2 ≤ cluster ∧ cluster < vol.nclusters := hvalid
  by_cases hend : vol.links.End (io.fs.link cluster)
  · have hlen := h.path.length_of_end hi hend
    obtain ⟨fs, r, hr, hcases⟩ :=
      fatExtendchain_spec cluster h.coherent (.inr ⟨hvalid, hend⟩)
    refine ⟨fs, r, hr, ?_⟩
    rcases hcases with ⟨rfl, -, hreads⟩ | ⟨c, rfl, hfresh, hfree, htakes⟩
    · exact .inl ⟨rfl, hlen, h.congr hreads.coherent (hreads.link_eq h.coherent) rfl rfl rfl⟩
    have hlink : fs.link = update (update io.fs.link c (endMark vol)) cluster c := by
      rw [htakes.link, linked, if_neg (by omega)]
    obtain ⟨hwf, hpath⟩ := h.wf.extend h.mem h.path (h.path.getLast?_of_end hc hend) hfresh hfree
      (end_endMark vol)
    rw [← hlink] at hwf hpath
    refine .inr ⟨c, l ++ [c], rfl, ?_, prefix_append .., htakes.coherent, hwf, h.mem, h.start,
      hpath, ?_, h.log⟩
    · rw [← hlen, getElem?_concat_length]
    · exact h.cache.imp_right (Exists.imp fun x hx => hx.imp_left (mem_append_left _))
  · -- The cluster is followed by another one, and that is returned.
    have hnext : vol.links.Valid (io.fs.link cluster) := by
      obtain ⟨l1, l2, -, hpath⟩ := h.path.suffix hc
      cases hpath with
      | last _ hlast => exact absurd hlast hend
      | cons _ htail => exact htail.valid_start
    have hrange' : 2 ≤ io.fs.link cluster ∧ io.fs.link cluster < vol.nclusters := hnext
    obtain ⟨hreads, -⟩ := fatGetcluster_spec h.coherent hvalid
    have hret := fatGetcluster_snd h.coherent hvalid
    refine ⟨_, (io.fs.fatGetcluster cluster).2, ?_, .inr ⟨_, l, hret, h.path.getElem?_succ hi hnext,
      prefix_refl l, h.congr hreads.coherent (hreads.link_eq h.coherent) rfl rfl rfl⟩⟩
    rw [fatExtendchain, if_neg (by omega)]
    dsimp only
    rw [if_neg (by omega), if_neg (by omega), if_pos (by omega)]

theorem aimed_enterCluster {fs : FatMountpt vol} {c : ℕ} (hc : c ∈ l) :
    (io.enterCluster fs c).Aimed l := by
  have hspc := vol.fatsecperclus_pos
  rw [enterCluster, Int.toNat_natCast]
  refine ⟨hc, ?_, ?_, fun hzero => absurd hzero (Nat.pos_iff_ne_zero.mp hspc)⟩
  · dsimp only
    exact Int.le_refl _
  · dsimp only

/-! ### The calls -/

/-- The file has no cluster yet, and no sector. -/
structure NoChain (io : FatIo vol) (S : Set ℕ) : Prop where
  coherent : io.fs.Coherent
  wf : vol.links.WellFormed io.fs.link S
  start : io.ff.startcluster = 0
  sector : io.ff.currentsector = 0
  cache : io.ff.cachesector = 0
  log : ∀ e ∈ io.log, e.Owned vol

/-- The file has a chain. If it has a current sector, that is one of its current cluster. -/
structure HasChain (io : FatIo vol) (S : Set ℕ) (s : ℕ) (l : List ℕ) : Prop where
  sound : io.Sound S s l
  cluster : io.ff.currentcluster ∈ l
  aimed : io.ff.currentsector = 0 ∨ io.Aimed l

/-- **What every call keeps**: the file is open for writing, and it has no cluster or a chain of
its own. -/
def Kept (io : FatIo vol) : Prop :=
  io.ff.wrok = true ∧ ∃ S, io.NoChain S ∨ ∃ s l, io.HasChain S s l

theorem bits32_natCast (h : n < 0x100000000) : bits32 n = n := by
  unfold bits32
  omega

/-- The sector that `fat_currentsector` finds for a position that is not behind the end. -/
theorem fatCurrentsector_of_le (hc : vol.links.Valid io.ff.currentcluster) {position : ℤ}
    (hpos : position ≤ io.ff.size) :
    io.fatCurrentsector position = ({ io with ff := { io.ff with
      currentsector := vol.fatCluster2sector io.ff.currentcluster + sectoroffset vol position
      sectorsincluster := vol.fatsecperclus - sectoroffset vol position } }, 0) := by
  have hoff := sectoroffset_lt vol position
  have hspc := vol.fatsecperclus_le
  obtain ⟨heq, hlt⟩ := FatVolume.fatCluster2sector_of_valid hc
  have hbase : 0 ≤ vol.fatCluster2sector io.ff.currentcluster := by
    have hzero := vol.database_nonneg
    rw [heq]
    omega
  have hsector : offT (vol.fatCluster2sector io.ff.currentcluster + sectoroffset vol position) =
      vol.fatCluster2sector io.ff.currentcluster + sectoroffset vol position :=
    offT_of_lt (by omega) (by omega)
  have hsic : (vol.fatsecperclus - sectoroffset vol position) % 256 =
      vol.fatsecperclus - sectoroffset vol position := Nat.mod_eq_of_lt (by omega)
  rw [fatCurrentsector, if_pos hpos, hsector, hsic]

theorem fatCurrentsector_spec (h : io.Sound S s l) (hc : io.ff.currentcluster ∈ l) (position : ℤ) :
    ((io.fatCurrentsector position).1.Sound S s l ∧ (io.fatCurrentsector position).1.Aimed l ∧
        (io.fatCurrentsector position).1.ff.sectorsincluster ≠ 0 ∧
        (io.fatCurrentsector position).2 = 0) ∨
      ((io.fatCurrentsector position).1 = io ∧ (io.fatCurrentsector position).2 = -28 ∧
        io.ff.size < position) := by
  have hoff := sectoroffset_lt vol position
  by_cases hpos : position ≤ io.ff.size
  · left
    rw [fatCurrentsector_of_le (h.path.valid hc) hpos]
    refine ⟨h.congr h.coherent rfl rfl rfl rfl, ⟨hc, ?_, ?_, fun hzero => ?_⟩, ?_, rfl⟩
    · dsimp only
      omega
    · dsimp only
      omega
    · dsimp only at hzero
      omega
    · dsimp only
      omega
  · right
    rw [fatCurrentsector, if_neg hpos]
    exact ⟨rfl, rfl, by omega⟩

theorem NoChain.create (h : io.NoChain S) :
    ∃ fs r, io.fs.fatCreatechain = some (fs, r) ∧
      ((r = 0 ∧ (∀ c, vol.links.Valid c → io.fs.link c ≠ 0) ∧ NoChain { io with fs := fs } S) ∨
        ∃ c : ℕ, r = c ∧ 2 ≤ c ∧ c < vol.nclusters ∧ Sound { io with
          fs := fs
          ff := { io.ff with startcluster := r } } (insert c S) c [c]) := by
  obtain ⟨fs, r, hr, hcases⟩ :=
    fatExtendchain_spec 0 h.coherent (.inl rfl)
  refine ⟨fs, r, hr, ?_⟩
  rcases hcases with ⟨rfl, hnone, hreads⟩ | ⟨c, rfl, hc, hfree, htakes⟩
  · exact .inl ⟨rfl, hnone, hreads.coherent, hreads.link_eq h.coherent ▸ h.wf, h.start, h.sector,
      h.cache, h.log⟩
  have hrange : 2 ≤ c ∧ c < vol.nclusters := hc
  have hlink : fs.link = update io.fs.link c (endMark vol) := htakes.link
  have hwf := h.wf.create hc hfree (end_endMark vol)
  have hpath : vol.links.Path (update io.fs.link c (endMark vol)) c [c] := by
    refine .last hc ?_
    rw [update_self]
    exact end_endMark vol
  rw [← hlink] at hwf hpath
  exact .inr ⟨c, rfl, hrange.1, hrange.2, htakes.coherent, hwf, Set.mem_insert .., rfl, hpath,
    .inl h.cache, h.log⟩

/-- What keeps a call of `fat_write` on the chain of the file: there is a cluster for a file that
has none, and a file whose last cluster is full is not written with less than a sector. -/
structure WriteCareful (io : FatIo vol) (buflen : ℕ) : Prop where
  space : io.ff.currentsector = 0 → io.ff.startcluster = 0 →
    ∃ c, vol.links.Valid c ∧ io.fs.link c = 0
  whole : io.ff.currentsector ≠ 0 → io.ff.sectorsincluster = 0 →
    buflen = 0 ∨ vol.hwsectorsize ≤ buflen

theorem NoChain.startChain (h : io.NoChain S) (hspace : ∃ c, vol.links.Valid c ∧ io.fs.link c = 0) :
    ∃ io1 c, io.startChain = some io1 ∧ io1.Sound (insert c S) c [c] ∧ io1.ff = { io.ff with
      startcluster := c
      currentcluster := c
      sectorsincluster := vol.fatsecperclus } := by
  rw [FatIo.startChain, if_pos h.start]
  obtain ⟨fs, r, hr, ⟨-, hnone, -⟩ | ⟨c, rfl, hlow, hhigh, hsound⟩⟩ := h.create
  · obtain ⟨c, hc, hfree⟩ := hspace
    exact absurd hfree (hnone c hc)
  have hlt := vol.nclusters_lt_two_pow
  rw [hr]
  dsimp only
  rw [bits32_natCast (n := c) (by omega)]
  exact ⟨_, c, rfl, hsound.congr hsound.coherent rfl rfl rfl rfl, rfl⟩

/-- A file has a chain before its first sector is written. -/
theorem startChain_spec (h : io.Kept) (hsector : io.ff.currentsector = 0)
    (hspace : io.ff.startcluster = 0 → ∃ c, vol.links.Valid c ∧ io.fs.link c = 0) :
    ∃ io1 S s l, io.startChain = some io1 ∧ io1.Sound S s l ∧ io1.ff.currentcluster ∈ l ∧
      io1.ff.wrok = true ∧ io1.ff.currentsector = 0 := by
  obtain ⟨hwrok, S, hno | ⟨s, l, hhas⟩⟩ := h
  · obtain ⟨io1, c, hstart, hsound, hff⟩ := hno.startChain (hspace hno.start)
    refine ⟨io1, insert c S, c, [c], hstart, hsound, ?_, ?_, ?_⟩
    · rw [hff]
      exact mem_cons_self
    · rw [hff]
      exact hwrok
    · rw [hff]
      exact hsector
  · have hrange : 2 ≤ s ∧ s < vol.nclusters := hhas.sound.path.valid_start
    have hne : io.ff.startcluster ≠ 0 := by
      rw [hhas.sound.start]
      omega
    rw [startChain, if_neg hne]
    exact ⟨io, S, s, l, rfl, hhas.sound, hhas.cluster, hwrok, hsector⟩

end FatIo

end NuttX
