import NuttX.Fat.Write

/-!
# The cursor of a file

An open file has a position, and next to it a current cluster, a current sector and the number of
sectors that are left in the cluster. `NuttX.FatIo.Cursor` says that the three belong to the
position: they are so many bytes into so-and-so-many-th cluster of the chain. The bytes may be all
bytes of the cluster: that is how `fat_read` and `fat_write` leave a file when there is no other
cluster, and it is not how they leave it when they succeed.
-/

namespace NuttX

/-! ### Sectors of a cluster -/

section Arithmetic

variable {ss spc off n : ℕ}

theorem sector_end_le (hss : 0 < ss) (h : off < spc * ss) : (off / ss + 1) * ss ≤ spc * ss :=
  Nat.mul_le_mul_right _ ((Nat.div_lt_iff_lt_mul hss).2 h)

theorem sector_rest (off : ℕ) (hss : 0 < ss) : off + (ss - off % ss) = (off / ss + 1) * ss := by
  have hmod := Nat.mod_lt off hss
  have hdiv := Nat.div_add_mod' off ss
  rw [Nat.succ_mul]
  omega

theorem add_sectors_le (h : off % ss = 0) (hn : off / ss + n ≤ spc) : off + n * ss ≤ spc * ss := by
  have hdiv := Nat.div_add_mod' off ss
  have hle : (off / ss + n) * ss ≤ spc * ss := Nat.mul_le_mul_right _ hn
  rw [Nat.add_mul] at hle
  omega

theorem div_add_of_lt (h : n < ss - off % ss) : (off + n) / ss = off / ss := by
  have hdiv := Nat.div_add_mod' off ss
  refine Nat.div_eq_of_lt_le ?_ ?_
  · omega
  · rw [Nat.succ_mul]
    omega

end Arithmetic

namespace FatIo

variable {vol : FatVolume} {io io' : FatIo vol} {S : Set ℕ} {s i off n : ℕ} {l : List ℕ}

/-- **The file is `off` bytes into the cluster number `i` of its chain.** -/
structure Cursor (io : FatIo vol) (l : List ℕ) (i off : ℕ) : Prop where
  cluster : l[i]? = some io.ff.currentcluster
  off_le : off ≤ clustersize vol
  sector : io.ff.currentsector =
    vol.fatCluster2sector io.ff.currentcluster + (off / vol.hwsectorsize : ℕ)
  left : io.ff.sectorsincluster + off / vol.hwsectorsize = vol.fatsecperclus
  pos : io.ff.pos = (i * clustersize vol + off : ℕ)
  pos_lt : io.ff.pos < 2 ^ 31

namespace Cursor

section

variable (h : io.Cursor l i off)

include h

theorem sectorindex_eq : io.sectorindex = off % vol.hwsectorsize := by
  have hpos := h.pos
  have hlt := h.pos_lt
  have hcs : i * clustersize vol = i * vol.fatsecperclus * vol.hwsectorsize := by
    rw [clustersize, Nat.mul_assoc]
  rw [FatIo.sectorindex_eq, hpos, bits32_natCast (by omega), hcs, Nat.mul_add_mod']

theorem left_eq_zero_iff : io.ff.sectorsincluster = 0 ↔ off = clustersize vol := by
  have hleft := h.left
  have hle := h.off_le
  refine ⟨fun hzero => ?_, fun hend => ?_⟩
  · have hmul := Nat.div_mul_le_self off vol.hwsectorsize
    rw [show off / vol.hwsectorsize = vol.fatsecperclus by omega] at hmul
    exact Nat.le_antisymm hle hmul
  · rw [hend, clustersize, Nat.mul_div_cancel _ vol.hwsectorsize_pos] at hleft
    omega

theorem lt_of_left (hleft : io.ff.sectorsincluster ≠ 0) : off < clustersize vol :=
  lt_of_le_of_ne h.off_le fun hend => hleft (h.left_eq_zero_iff.2 hend)

theorem aimed : io.Aimed l := by
  refine ⟨List.mem_of_getElem? h.cluster, ?_, ?_, fun hzero => ?_⟩
  · rw [h.sector]
    exact Int.le_add_of_nonneg_right (Int.natCast_nonneg _)
  · rw [h.sector, Int.add_assoc, ← Nat.cast_add, Nat.add_comm, h.left]
  · rw [h.sectorindex_eq, h.left_eq_zero_iff.1 hzero, clustersize, Nat.mul_mod_left]

theorem sector_pos (hpath : vol.links.Path io.fs.link s l) : 0 < io.ff.currentsector := by
  have hspc := vol.fatsecperclus_pos
  have hfirst : vol.Holds io.ff.currentcluster (vol.fatCluster2sector io.ff.currentcluster) :=
    ⟨le_rfl, Int.lt_add_of_pos_right _ (Int.natCast_pos.2 hspc)⟩
  have hpos := (hfirst.bounds (hpath.valid (List.mem_of_getElem? h.cluster))).1
  rw [h.sector]
  exact Int.add_pos_of_pos_of_nonneg hpos (Int.natCast_nonneg _)

theorem congr (hcluster : io'.ff.currentcluster = io.ff.currentcluster)
    (hsector : io'.ff.currentsector = io.ff.currentsector)
    (hleft : io'.ff.sectorsincluster = io.ff.sectorsincluster) (hpos : io'.ff.pos = io.ff.pos) :
    io'.Cursor l i off := by
  refine ⟨hcluster ▸ h.cluster, h.off_le, ?_, hleft ▸ h.left, hpos ▸ h.pos, hpos ▸ h.pos_lt⟩
  rw [hcluster, hsector]
  exact h.sector

theorem move {w k : ℕ} (hw : off + w ≤ clustersize vol)
    (hk : (off + w) / vol.hwsectorsize = off / vol.hwsectorsize + k)
    (hcluster : io'.ff.currentcluster = io.ff.currentcluster)
    (hsector : io'.ff.currentsector = io.ff.currentsector + k)
    (hleft : io'.ff.sectorsincluster = io.ff.sectorsincluster - k)
    (hpos : io'.ff.pos = offT (io.ff.pos + w)) (hlt : io.ff.pos + w < 2 ^ 31) :
    io'.Cursor l i (off + w) := by
  have hend : (off + w) / vol.hwsectorsize ≤ vol.fatsecperclus :=
    (Nat.div_le_div_right hw).trans_eq (Nat.mul_div_cancel _ vol.hwsectorsize_pos)
  have hpos' : io'.ff.pos = (i * clustersize vol + (off + w) : ℕ) := by
    rw [h.pos] at hpos hlt
    rw [hpos, offT_of_lt (by omega) hlt, ← Nat.cast_add, Nat.add_assoc]
  have hlt' : io'.ff.pos < 2 ^ 31 := by
    rw [h.pos] at hlt
    omega
  have hleft' : io'.ff.sectorsincluster + (off + w) / vol.hwsectorsize = vol.fatsecperclus := by
    have hold := h.left
    omega
  refine ⟨hcluster ▸ h.cluster, hw, ?_, hleft', hpos', hlt'⟩
  rw [hcluster, hsector, hk, h.sector, Nat.cast_add, Int.add_assoc]

theorem enterCluster {fs : FatMountpt vol} {c : ℕ} (hend : off = clustersize vol) {l' : List ℕ}
    (hc : l'[i + 1]? = some c) : (io.enterCluster fs c).Cursor l' (i + 1) 0 := by
  have hpos := h.pos
  have hlt := h.pos_lt
  rw [FatIo.enterCluster, Int.toNat_natCast]
  refine ⟨hc, Nat.zero_le _, ?_, ?_, ?_, hlt⟩
  · rw [Nat.zero_div, Nat.cast_zero, Int.add_zero]
  · rw [Nat.zero_div]
    rfl
  · rw [hpos, hend, Nat.succ_mul, Nat.add_zero]

end

end Cursor

/-! ### The first sector -/

theorem sectoroffset_eq (hoff : off < clustersize vol) (hlt : i * clustersize vol + off < 2 ^ 31) :
    sectoroffset vol (i * clustersize vol + off : ℕ) = off / vol.hwsectorsize := by
  have hss := vol.hwsectorsize_pos
  have hsector : (i * clustersize vol + off) / vol.hwsectorsize =
      i * vol.fatsecperclus + off / vol.hwsectorsize := by
    rw [clustersize, ← Nat.mul_assoc, Nat.add_comm, Nat.add_mul_div_right _ _ hss, Nat.add_comm]
  have hle := Nat.div_le_self (i * clustersize vol + off) vol.hwsectorsize
  obtain ⟨k, -, hk⟩ := vol.fatsecperclus_eq
  rw [sectoroffset, ← Int.ofNat_tdiv, bits32_natCast (by omega), hsector, FatGeometry.clusNdxmask,
    hk, Nat.and_two_pow_sub_one_eq_mod, Nat.mul_add_mod', Nat.mod_eq_of_lt]
  rw [← hk]
  exact (Nat.div_lt_iff_lt_mul hss).2 hoff

/-- **`fat_currentsector` sets the cursor**, for a position in the current cluster that is not
behind the end of the file. -/
theorem fatCurrentsector_cursor (h : io.Sound S s l) (hc : l[i]? = some io.ff.currentcluster)
    (hoff : off < clustersize vol) (hpos : io.ff.pos = (i * clustersize vol + off : ℕ))
    (hlt : io.ff.pos < 2 ^ 31) (hsize : io.ff.pos ≤ io.ff.size) :
    ∃ io', io.fatCurrentsector io.ff.pos = (io', 0) ∧ io'.Sound S s l ∧ io'.Cursor l i off ∧
      io'.fs = io.fs ∧ ∃ sector left, io'.ff = { io.ff with
        currentsector := sector
        sectorsincluster := left } := by
  have hoffset : sectoroffset vol io.ff.pos = off / vol.hwsectorsize := by
    rw [hpos, sectoroffset_eq hoff (by omega)]
  have hplace := sectoroffset_lt vol io.ff.pos
  refine ⟨_, fatCurrentsector_of_le (h.path.valid (List.mem_of_getElem? hc)) hsize,
    h.congr h.coherent rfl rfl rfl rfl, ⟨hc, Nat.le_of_lt hoff, ?_, ?_, hpos, hlt⟩, rfl, _, _, rfl⟩
  · rw [hoffset]
  · rw [hoffset] at hplace ⊢
    exact Nat.sub_add_cancel (Nat.le_of_lt hplace)

/-! ### Rounds -/

theorem Cursor.whole (h : io.Cursor l i off) (hpath : vol.links.Path io.fs.link s l)
    (hn : n ≤ io.ff.sectorsincluster) (hindex : io.sectorindex = 0)
    (hlt : io.ff.pos + (n * vol.hwsectorsize : ℕ) < 2 ^ 31)
    (hcluster : io'.ff.currentcluster = io.ff.currentcluster)
    (hsector : io'.ff.currentsector = offT (io.ff.currentsector + n))
    (hleft : io'.ff.sectorsincluster = io.ff.sectorsincluster - n)
    (hpos : io'.ff.pos = offT (io.ff.pos + (n * vol.hwsectorsize : ℕ))) :
    io'.Cursor l i (off + n * vol.hwsectorsize) := by
  have hold := h.left
  rw [h.sectorindex_eq] at hindex
  refine h.move (add_sectors_le hindex (by omega)) ?_ hcluster ?_ hleft hpos hlt
  · exact Nat.add_mul_div_right _ _ vol.hwsectorsize_pos
  · rw [hsector, h.aimed.offT_eq hpath hn]

/-- A round for a part of a sector. -/
theorem Cursor.part {buflen : ℕ} (h : io.Cursor l i off) (hpath : vol.links.Path io.fs.link s l)
    (hoff : off < clustersize vol)
    (hlt : io.ff.pos + (min (vol.hwsectorsize - io.sectorindex) buflen : ℕ) < 2 ^ 31)
    (hcluster : io'.ff.currentcluster = io.ff.currentcluster)
    (hsector : io'.ff.currentsector = if vol.hwsectorsize - io.sectorindex ≤ buflen then
      offT (io.ff.currentsector + 1) else io.ff.currentsector)
    (hleft : io'.ff.sectorsincluster = if vol.hwsectorsize - io.sectorindex ≤ buflen then
      (io.ff.sectorsincluster + 255) % 256 else io.ff.sectorsincluster)
    (hpos : io'.ff.pos = offT (io.ff.pos + (min (vol.hwsectorsize - io.sectorindex) buflen : ℕ))) :
    io'.Cursor l i (off + min (vol.hwsectorsize - io.sectorindex) buflen) := by
  have hss := vol.hwsectorsize_pos
  have hne : io.ff.sectorsincluster ≠ 0 := fun hzero => by
    rw [h.left_eq_zero_iff.1 hzero] at hoff
    exact Nat.lt_irrefl _ hoff
  have hle := h.aimed.sectorsincluster_le
  have hspc := vol.fatsecperclus_le
  have hrest := sector_rest off hss
  have hend : (off / vol.hwsectorsize + 1) * vol.hwsectorsize ≤ clustersize vol :=
    sector_end_le hss hoff
  rw [h.sectorindex_eq] at hlt hsector hleft hpos ⊢
  by_cases hfull : vol.hwsectorsize - off % vol.hwsectorsize ≤ buflen
  · rw [if_pos hfull] at hsector hleft
    rw [Nat.min_eq_left hfull] at hlt hpos ⊢
    refine h.move (k := 1) (by omega) ?_ hcluster ?_ (by omega) hpos hlt
    · rw [hrest, Nat.mul_div_cancel _ hss]
    · rw [hsector]
      exact h.aimed.offT_eq hpath (n := 1) (by omega)
  · rw [if_neg hfull] at hsector hleft
    refine h.move (k := 0) (by omega) ?_ hcluster ?_ hleft hpos hlt
    · exact div_add_of_lt (by omega)
    · rw [hsector]
      exact (Int.add_zero _).symm

theorem nsectors_mul_le (io : FatIo vol) (buflen : ℕ) :
    io.nsectors buflen * vol.hwsectorsize ≤ buflen :=
  (Nat.mul_le_mul_right _ (Nat.min_le_left ..)).trans (Nat.div_mul_le_self ..)

theorem Cursor.off_lt (hc : io.Cursor l i off) {buflen : ℕ}
    (hleft : off < clustersize vol ∨ vol.hwsectorsize ≤ buflen)
    (hpart : ¬ (0 < buflen / vol.hwsectorsize ∧ io.sectorindex = 0)) : off < clustersize vol := by
  rcases hleft with hoff | hmany
  · exact hoff
  · refine lt_of_le_of_ne hc.off_le fun hend => hpart ⟨?_, ?_⟩
    · exact Nat.div_pos hmany vol.hwsectorsize_pos
    · exact hc.aimed.aligned (hc.left_eq_zero_iff.2 hend)

/-- **One round of the loop of `fat_write`** moves the cursor by the bytes that are written. -/
theorem transfer_cursor (h : io.Sound S s l) (hc : io.Cursor l i off) (p : ℕ → UInt8)
    {buflen : ℕ} (hleft : off < clustersize vol ∨ vol.hwsectorsize ≤ buflen)
    (hlt : io.ff.pos + buflen < 2 ^ 31) :
    ((io.transfer p buflen).1.advance (io.transfer p buflen).2).Cursor l i
      (off + (io.transfer p buflen).2) := by
  unfold transfer
  split_ifs with hwhole
  · obtain ⟨b, k, hff⟩ := io.fatFfcacheinvalidate_ff
    have hn : io.nsectors buflen ≤ io.ff.sectorsincluster := Nat.min_le_right ..
    have hle := io.nsectors_mul_le buflen
    refine hc.whole h.path hn hwhole.2 (by omega) ?_ rfl rfl ?_ <;>
      simp only [advance, writeSectors, hff]
  · obtain ⟨b, k, q, hff⟩ := io.loadSector_ff
    have hoff := hc.off_lt hleft hwhole
    refine hc.part h.path hoff (by omega) ?_ ?_ ?_ ?_ <;> simp only [advance, writePart, hff]

/-! ### The loop of `fat_write` -/

/-- What is left when `fat_write` returns: the file has a chain that contains the old one. -/
structure Wrote (io io' : FatIo vol) (S : Set ℕ) (s : ℕ) (l : List ℕ) : Prop where
  sound : io'.Sound S s l
  aimed : io'.Aimed l
  wrok : io'.ff.wrok = io.ff.wrok

/-- **The loop of `fat_write`.** It ends since every round writes something, apart from a first one
that has no sector left, and every round keeps to the chain. If there is a cursor, it stays, and the
file is not left at the end of a cluster unless the loop fails. -/
theorem writeLoop_spec (fuel : ℕ) (h : io.Sound S s l) (ha : io.Aimed l) (p : ℕ → UInt8)
    (buflen byteswritten : ℕ)
    (hleft : io.ff.sectorsincluster ≠ 0 ∨ buflen = 0 ∨ vol.hwsectorsize ≤ buflen)
    (hfuel : buflen + (if io.ff.sectorsincluster = 0 then 2 else 1) ≤ fuel) :
    ∃ io' r l', io.writeLoop p buflen byteswritten fuel = some (io', r) ∧ io.Wrote io' S s l' ∧
      ∀ i off, io.Cursor l i off → io.ff.size < 2 ^ 31 → io.ff.pos + buflen < 2 ^ 31 →
        off < clustersize vol ∨ vol.hwsectorsize ≤ buflen →
        io'.ff.size < 2 ^ 31 ∧ ∃ i' off', io'.Cursor l' i' off' ∧
          (0 ≤ r → off' < clustersize vol) := by
  have hss := vol.hwsectorsize_pos
  induction fuel generalizing io l p buflen byteswritten with
  | zero => split_ifs at hfuel <;> omega
  | succ fuel ih =>
    rcases Nat.eq_zero_or_pos buflen with rfl | hpos
    · refine ⟨io.updateSize, _, l, if_pos rfl, ?_⟩
      unfold updateSize
      split_ifs
      · refine ⟨⟨h.congr h.coherent rfl rfl rfl rfl, ⟨ha.cluster, ha.low, ha.left, ha.aligned⟩,
          rfl⟩, fun i off hc _ _ hoff => ⟨hc.pos_lt, i, off, hc.congr rfl rfl rfl rfl, ?_⟩⟩
        omega
      · exact ⟨⟨h, ha, rfl⟩, fun i off hc hsize _ hoff => ⟨hsize, i, off, hc, by omega⟩⟩
    obtain ⟨hsound, haimed, hle, hsome, hstay⟩ := transfer_spec h ha p hpos (by omega)
    obtain ⟨io1, hio1, hwrok, hsize1⟩ := io.transfer_keep p buflen
    have hmove : ∀ i off, io.Cursor l i off → io.ff.pos + buflen < 2 ^ 31 →
        off < clustersize vol ∨ vol.hwsectorsize ≤ buflen →
        io1.Cursor l i (off + (io.transfer p buflen).2) ∧
          io1.ff.pos + (buflen - (io.transfer p buflen).2 : ℕ) < 2 ^ 31 := by
      intro i off hc hlt hoff
      have hmoved := transfer_cursor h hc p hoff hlt
      rw [hio1] at hmoved
      have hposs := hc.pos
      have hposs' := hmoved.pos
      exact ⟨hmoved, by omega⟩
    rw [writeLoop, if_neg (by omega)]
    dsimp only
    rw [hio1] at hsound haimed hstay ⊢
    generalize (io.transfer p buflen).2 = w at hle hsome hmove ⊢
    by_cases hlast : io1.ff.sectorsincluster = 0
    · rw [if_pos (by omega)]
      obtain ⟨i, hi⟩ := List.mem_iff_getElem?.mp haimed.cluster
      obtain ⟨fs, r, hr, hcases⟩ := hsound.extend_at hi
      rw [hr]
      dsimp only
      rcases hcases with ⟨rfl, -, hsound'⟩ | ⟨c, l', rfl, hnext, -, hsound'⟩
      · exact ⟨_, _, l, rfl, ⟨hsound', ⟨haimed.cluster, haimed.low, haimed.left, haimed.aligned⟩,
          hwrok⟩, fun i off hc hsize hlt hoff => ⟨hsize1.trans_lt hsize, i, _,
            (hmove i off hc hlt hoff).1.congr rfl rfl rfl rfl, fun hret => absurd hret (by decide)⟩⟩
      have hc := List.mem_of_getElem? hnext
      have hrange : 2 ≤ c ∧ c < vol.nclusters := hsound'.path.valid hc
      rw [if_neg (by omega), if_neg (by omega)]
      have hsound₂ : (io1.enterCluster fs c).Sound S s l' :=
        hsound'.congr hsound'.coherent rfl rfl rfl rfl
      have hspc : (io1.enterCluster fs c).ff.sectorsincluster ≠ 0 :=
        Nat.pos_iff_ne_zero.mp vol.fatsecperclus_pos
      obtain ⟨io', r, l'', hrun, hwrote, hcursor⟩ := ih hsound₂ (aimed_enterCluster hc)
        (fun i => p (i + w)) (buflen - w) (byteswritten + w) (.inl hspc) (by
          rw [if_neg hspc]
          split_ifs at hfuel <;> omega)
      refine ⟨io', r, l'', hrun, ⟨hwrote.sound, hwrote.aimed, hwrote.wrok.trans hwrok⟩,
        fun j off hc hsize hlt hoff => ?_⟩
      obtain ⟨hmoved, hlt'⟩ := hmove j off hc hlt hoff
      obtain rfl : i = j := (List.getElem?_inj (List.getElem?_eq_some_iff.mp hi).1
        hsound.path.nodup).mp (hi.trans hmoved.cluster.symm)
      exact hcursor _ 0 (hmoved.enterCluster (hmoved.left_eq_zero_iff.1 hlast) hnext)
        (hsize1.trans_lt hsize) hlt' (.inl (clustersize_pos vol))
    · rw [if_neg (by omega)]
      obtain ⟨io', r, l'', hrun, hwrote, hcursor⟩ := ih hsound haimed (fun i => p (i + w))
        (buflen - w) (byteswritten + w) (.inl hlast) (by
          have hne : io.ff.sectorsincluster ≠ 0 := fun hzero => hlast (hstay hzero)
          rw [if_neg hne] at hfuel
          rw [if_neg hlast]
          omega)
      refine ⟨io', r, l'', hrun, ⟨hwrote.sound, hwrote.aimed, hwrote.wrok.trans hwrok⟩,
        fun i off hc hsize hlt hoff => ?_⟩
      obtain ⟨hmoved, hlt'⟩ := hmove i off hc hlt hoff
      exact hcursor i _ hmoved (hsize1.trans_lt hsize) hlt' (.inl (hmoved.lt_of_left hlast))

end FatIo

end NuttX
