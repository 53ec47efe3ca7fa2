import NuttX.Fat.Dirent
import NuttX.Fat.Read

/-!
# The device behind the sector buffer

What counts on a device whose sectors are changed in a buffer is what it will have once the buffer
has been written: `NuttX.FatMountpt.settled`. Reading sectors and looking up entries of the table
leave it alone (`NuttX.FatMountpt.Looks`), and what is read is a sector of it. Setting an entry
changes it in the table and its copies only, and clearing a cluster in the sectors of that cluster
only.
-/

namespace NuttX

variable {vol : FatVolume}

/-- The sector comes after all copies of the table. -/
def FatVolume.BehindFat (vol : FatVolume) (t : ℤ) : Prop :=
  vol.fatbase + (vol.fatnumfats * vol.nfatsects : ℕ) ≤ t

theorem FatVolume.BehindFat.not_fatSector {t : ℤ} (h : vol.BehindFat t) : ¬ vol.FatSector t := by
  intro hfat
  have hhigh := hfat.2
  have hle : 1 * vol.nfatsects ≤ vol.fatnumfats * vol.nfatsects :=
    Nat.mul_le_mul_right _ vol.one_le_fatnumfats
  unfold BehindFat at h
  omega

theorem FatVolume.BehindFat.not_mirrors {s t : ℤ} (h : vol.BehindFat t) (hs : vol.FatSector s) :
    ¬ vol.Mirrors s t := by
  rintro ⟨j, -, hj, rfl⟩
  have heq := (copySector_lt hs hj).1
  have hhigh := hs.2
  have hle : (j + 1) * vol.nfatsects ≤ vol.fatnumfats * vol.nfatsects := Nat.mul_le_mul_right _ hj
  rw [Nat.succ_mul] at hle
  unfold BehindFat at h
  omega

namespace FatMountpt

variable {fs fs' fs'' : FatMountpt vol} {s t : ℤ} {c : ℕ}

def settled {g : FatGeometry} (fs : FatMountpt g) : ℤ → ℕ → UInt8 := fs.fatFscacheflush.dev

theorem settled_of_clean (h : fs.dirty = false) : fs.settled = fs.dev := by
  rw [settled, fatFscacheflush_of_clean h]

theorem settled_currentsector (h : fs.Fresh) : fs.settled fs.currentsector = fs.buffer := by
  cases hdirty : fs.dirty with
  | true => exact dev_flush_currentsector hdirty
  | false =>
    rw [settled_of_clean hdirty]
    exact (h hdirty).symm

theorem Fresh.coherent (h : fs.Fresh) : fs.Coherent := fun hclean _ => h hclean

/-! ### Reading -/

/-- Only the sector in the buffer is another one. -/
structure Looks (fs fs' : FatMountpt vol) : Prop where
  fresh : fs'.Fresh
  settled : fs'.settled = fs.settled

theorem Looks.refl (h : fs.Fresh) : fs.Looks fs := ⟨h, rfl⟩

theorem Looks.trans (h : fs.Looks fs') (h' : fs'.Looks fs'') : fs.Looks fs'' :=
  ⟨h'.fresh, h'.settled.trans h.settled⟩

section

variable (h : fs.Fresh)

include h

theorem looks_fatFscacheread (s : ℤ) : fs.Looks (fs.fatFscacheread s) := by
  refine ⟨h.read s, ?_⟩
  by_cases hs : fs.currentsector = s
  · rw [fatFscacheread_of_eq hs]
  have hclean : (fs.fatFscacheread s).dirty = false := by
    rw [fatFscacheread_of_ne hs]
    exact fs.dirty_fatFscacheflush
  rw [settled_of_clean hclean, fatFscacheread_of_ne hs]
  rfl

theorem buffer_read_eq_settled (s : ℤ) : (fs.fatFscacheread s).buffer = fs.settled s := by
  have hlooks := looks_fatFscacheread h s
  rw [← settled_currentsector hlooks.fresh, currentsector_fatFscacheread, hlooks.settled]

theorem looks_nextByte (fatsector : ℤ) (fatindex : ℕ) :
    fs.Looks (fs.nextByte fatsector fatindex).1 := by
  unfold nextByte
  split_ifs
  · exact looks_fatFscacheread h _
  · exact .refl h

theorem looks_fatGetcluster (c : ℕ) : fs.Looks (fs.fatGetcluster c).1 := by
  unfold fatGetcluster
  by_cases hrange : 2 ≤ c ∧ c < vol.nclusters
  · rw [if_pos hrange]
    cases vol.type with
    | fat12 =>
      have hfirst := looks_fatFscacheread h (vol.fatsector (c * 3 / 2))
      exact hfirst.trans (looks_nextByte hfirst.fresh _ _)
    | fat16 | fat32 => exact looks_fatFscacheread h _
  · rw [if_neg hrange]
    exact .refl h

/-! ### The table -/

theorem fatByte_eq_settled {i : ℕ} (hi : vol.InFat i) :
    fs.fatByte i = fs.settled (vol.fatsector i) (vol.fatindex i) := by
  rw [settled, dev_fatFscacheflush hi.fatSector, fatByte]
  by_cases hcur : fs.currentsector = vol.fatsector i
  · rw [if_pos hcur]
    cases hdirty : fs.dirty with
    | true => rw [if_pos ⟨rfl, hcur.symm⟩]
    | false => rw [if_neg (by simp), h hdirty, hcur]
  · rw [if_neg hcur, if_neg fun hsame => hcur hsame.2.symm]

theorem link_eq_of_settled (h' : fs'.Fresh)
    (heq : ∀ s, vol.FatSector s → ∀ i < vol.hwsectorsize, fs'.settled s i = fs.settled s i) :
    fs'.link = fs.link := by
  funext c
  by_cases hc : vol.links.Valid c
  · rw [link_of_valid h'.coherent hc, link_of_valid h.coherent hc]
    refine vol.type.entry_congr fun k hk => ?_
    have hin := inFat_entry hc.2 hk
    rw [fatByte_eq_settled h' hin, fatByte_eq_settled h hin]
    refine heq _ hin.fatSector _ ?_
    rw [vol.fatindex_eq]
    exact Nat.mod_lt _ vol.hwsectorsize_pos
  · rw [link_of_not_valid _ hc, link_of_not_valid _ hc]

theorem Looks.link_eq (hlooks : fs.Looks fs') : fs'.link = fs.link :=
  link_eq_of_settled h hlooks.fresh fun _ _ _ _ => by rw [hlooks.settled]

end

theorem settled_of_fatSector (hcur : vol.FatSector fs.currentsector) (ht : vol.BehindFat t) :
    fs.settled t = fs.dev t := by
  rcases fs.dev_flush t with hseen | ⟨-, hfat, hmirror⟩
  · rw [settled, hseen, logical, if_neg]
    rintro ⟨-, rfl⟩
    exact ht.not_fatSector hcur
  · exact absurd hmirror (ht.not_mirrors hfat)

/-- Only the table has changed, and one of its sectors is in the buffer. -/
structure Tabled (fs fs' : FatMountpt vol) : Prop where
  fresh : fs'.Fresh
  sector : vol.FatSector fs'.currentsector
  behind : ∀ t, vol.BehindFat t → fs'.settled t = fs.settled t

theorem Looks.tabled (h : fs.Looks fs') (hs : vol.FatSector fs'.currentsector) : fs.Tabled fs' :=
  ⟨h.fresh, hs, fun _ _ => by rw [h.settled]⟩

theorem Tabled.read (h : fs.Tabled fs') (hs : vol.FatSector s) :
    fs.Tabled (fs'.fatFscacheread s) := by
  have hlooks := looks_fatFscacheread h.fresh s
  refine ⟨hlooks.fresh, ?_, fun t ht => ?_⟩
  · rw [currentsector_fatFscacheread]
    exact hs
  · rw [hlooks.settled]
    exact h.behind t ht

theorem Tabled.change (h : fs.Tabled fs') (buffer : ℕ → UInt8) :
    fs.Tabled { fs' with buffer := buffer, dirty := true } := by
  refine ⟨fun hclean => (Bool.false_ne_true hclean.symm).elim, h.sector, fun t ht => ?_⟩
  rw [← h.behind t ht, settled_of_fatSector h.sector ht]
  exact settled_of_fatSector h.sector ht

theorem tabled_fatPutcluster (h : fs.Fresh) (hc : vol.links.Valid c) (v : ℕ) :
    fs.Tabled (fs.fatPutcluster c v).1 := by
  have hrange : 2 ≤ c ∧ c < vol.nclusters := hc
  have hin : ∀ k, 2 * k < (c + 1) * vol.type.nibbles → vol.InFat k := fun _ => inFat_entry hrange.2
  have hread : ∀ k, 2 * k < (c + 1) * vol.type.nibbles →
      fs.Tabled (fs.fatFscacheread (vol.fatsector k)) := by
    intro k hk
    refine (looks_fatFscacheread h _).tabled ?_
    rw [currentsector_fatFscacheread]
    exact (hin k hk).fatSector
  rw [fatPutcluster, if_pos (.inr hrange)]
  cases ht : vol.type with
  | fat12 =>
    simp only [ht, FatType.nibbles] at hin hread
    rw [fatPutcluster12_eq fs v (hin _ (by omega)) _ _ rfl rfl]
    exact (((hread _ (by omega)).change _).read (hin _ (by omega)).fatSector).change _
  | fat16 | fat32 =>
    simp only [ht, FatType.nibbles] at hread
    exact (hread _ (by omega)).change _

theorem Tabled.trans (h : fs.Tabled fs') (h' : fs'.Tabled fs'') : fs.Tabled fs'' :=
  ⟨h'.fresh, h'.sector, fun t ht => (h'.behind t ht).trans (h.behind t ht)⟩

theorem Tabled.congr (h : fs.Tabled fs') (hdev : fs''.dev = fs'.dev)
    (hbuffer : fs''.buffer = fs'.buffer) (hcur : fs''.currentsector = fs'.currentsector)
    (hdirty : fs''.dirty = fs'.dirty) : fs.Tabled fs'' := by
  have hsector : vol.FatSector fs''.currentsector := hcur ▸ h.sector
  refine ⟨?_, hsector, fun t ht => ?_⟩
  · unfold Fresh
    rw [hdev, hbuffer, hcur, hdirty]
    exact h.fresh
  · rw [settled_of_fatSector hsector ht, hdev, ← settled_of_fatSector h.sector ht]
    exact h.behind t ht

/-- A free cluster is linked. -/
theorem tabled_linkCluster {cluster : ℕ} (h : fs.Fresh) (hc : vol.links.Valid c)
    (hcluster : cluster = 0 ∨ vol.links.Valid cluster) :
    fs.Tabled (fs.linkCluster cluster c).1 := by
  have hput := tabled_fatPutcluster h hc 0x0fffffff
  have hret := (fatPutcluster_spec h.coherent hc 0x0fffffff).2
  have hcount : ∀ {fs1 : FatMountpt vol} {next : UInt32}, fs.Tabled fs1 →
      fs.Tabled (countTaken { fs1 with fsinextfree := next }) := by
    intro fs1 next hfs1
    unfold countTaken
    split_ifs
    · exact hfs1.congr rfl rfl rfl rfl
    · exact hfs1.congr rfl rfl rfl rfl
  unfold linkCluster
  rw [if_neg (by omega)]
  by_cases hzero : cluster = 0
  · rw [if_neg (not_not.mpr hzero), if_neg (Int.lt_irrefl 0)]
    exact hcount hput
  · have hvalid := hcluster.resolve_left hzero
    have hret' := (fatPutcluster_spec hput.fresh.coherent hvalid c).2
    rw [if_pos hzero, if_neg (by omega)]
    exact hcount (hput.trans (tabled_fatPutcluster hput.fresh hvalid c))

/-- What the search of `fat_extendchain` leaves: nothing has changed, or a cluster is linked. -/
theorem extendLoop_inv {cluster start k fuel : ℕ} {r : ℤ} (h : fs.Fresh)
    (hcluster : cluster = 0 ∨ vol.links.Valid cluster)
    (hrun : fs.extendLoop cluster start k fuel = some (fs', r)) :
    r ≤ 0 ∧ fs.Looks fs' ∨ 0 < r ∧ fs.Tabled fs' := by
  induction fuel generalizing fs k with
  | zero => exact nomatch hrun
  | succ fuel ih =>
    rw [extendLoop] at hrun
    by_cases hend : vol.nclusters ≤ k + 1 ∧ start < 2
    · rw [if_pos hend] at hrun
      cases hrun
      exact .inl ⟨Int.le_refl 0, .refl h⟩
    rw [if_neg hend] at hrun
    generalize (if vol.nclusters ≤ k + 1 then 2 else k + 1) = x at hrun
    have hlooks := looks_fatGetcluster h x
    by_cases hfree : (fs.fatGetcluster x).2 = 0
    · -- an entry that is free is one of the table
      have hx : vol.links.Valid x := by
        by_contra hx
        have hrange : ¬ (2 ≤ x ∧ x < vol.nclusters) := hx
        have hinval : -eINVAL ≠ 0 := by decide
        rw [fatGetcluster, if_neg hrange] at hfree
        exact hinval hfree
      rw [if_pos hfree] at hrun
      have hret := (linkCluster_spec hlooks.fresh.coherent hx hcluster).2
      have htabled := tabled_linkCluster hlooks.fresh hx hcluster
      have hrun' := Option.some.inj hrun
      rw [hrun'] at hret htabled
      have hpos : 2 ≤ x := hx.1
      refine .inr ⟨?_, htabled.fresh, htabled.sector, fun t ht => ?_⟩
      · omega
      · rw [htabled.behind t ht, hlooks.settled]
    rw [if_neg hfree] at hrun
    by_cases hneg : (fs.fatGetcluster x).2 < 0
    · rw [if_pos hneg] at hrun
      rw [Option.some.inj hrun] at hneg hlooks
      exact .inl ⟨Int.le_of_lt hneg, hlooks⟩
    rw [if_neg hneg] at hrun
    by_cases hlast : x = start
    · rw [if_pos hlast] at hrun
      cases hrun
      exact .inl ⟨Int.le_refl 0, hlooks⟩
    rw [if_neg hlast] at hrun
    rcases ih hlooks.fresh hrun with ⟨hr, hlooks'⟩ | ⟨hr, htabled⟩
    · exact .inl ⟨hr, hlooks.trans hlooks'⟩
    · exact .inr ⟨hr, htabled.fresh, htabled.sector, fun t ht => by
        rw [htabled.behind t ht, hlooks.settled]⟩

theorem fatExtendchain_inv {cluster : ℕ} {r : ℤ} (h : fs.Fresh) (hcluster : vol.links.Valid cluster)
    (hend : vol.links.End (fs.link cluster))
    (hrun : fs.fatExtendchain cluster = some (fs', r)) :
    r ≤ 0 ∧ fs.Looks fs' ∨ 0 < r ∧ fs.Tabled fs' := by
  have hlooks := looks_fatGetcluster h cluster
  have hret := fatGetcluster_snd h.coherent hcluster
  have hrange : 2 ≤ cluster ∧ cluster < vol.nclusters := hcluster
  have hmark : 0 < fs.link cluster ∧ vol.nclusters ≤ fs.link cluster := hend
  rw [fatExtendchain, if_neg (by omega)] at hrun
  rw [if_neg (by omega), if_neg (by omega), if_neg (by omega)] at hrun
  rcases extendLoop_inv hlooks.fresh (.inr hcluster) hrun with ⟨hr, hlooks'⟩ | ⟨hr, htabled⟩
  · exact .inl ⟨hr, hlooks.trans hlooks'⟩
  · exact .inr ⟨hr, htabled.fresh, htabled.sector, fun t ht => by
      rw [htabled.behind t ht, hlooks.settled]⟩

/-! ### Clearing a cluster -/

theorem offT_of_mem {x : ℤ} (h0 : -2 ^ 31 ≤ x) (h : x < 2 ^ 31) : offT x = x := by
  exact Int.bmod_eq_of_le (by omega) (by omega)

theorem clearLoop_spec (n : ℕ) (fs : FatMountpt vol) (sector : ℤ) (hlow : -2 ^ 31 ≤ sector)
    (hhigh : sector + n < 2 ^ 31) :
    (fs.clearLoop sector n).buffer = fs.buffer ∧
      (fs.clearLoop sector n).currentsector = fs.currentsector ∧
      (fs.clearLoop sector n).dirty = fs.dirty ∧
      ∀ s, (fs.clearLoop sector n).dev s =
        if sector ≤ s ∧ s < sector + n then fs.buffer else fs.dev s := by
  induction n generalizing fs sector with
  | zero =>
    refine ⟨rfl, rfl, rfl, fun s => ?_⟩
    rw [if_neg (by omega)]
    rfl
  | succ n ih =>
    have hnext : offT (sector + 1) = sector + 1 := offT_of_mem (by omega) (by omega)
    obtain ⟨hbuffer, hcur, hdirty, hdev⟩ :=
      ih (fs.fatHwwrite fs.buffer sector 1) (sector + 1) (by omega) (by omega)
    rw [clearLoop, hnext]
    refine ⟨hbuffer, hcur, hdirty, fun s => ?_⟩
    rw [hdev, dev_fatHwwrite_one]
    by_cases hs : s = sector
    · rw [if_neg (by omega), if_pos hs, if_pos (by omega)]
    · rw [if_neg hs]
      exact if_congr (by omega) rfl rfl

/-- **The sectors that `fat_allocatedirentry` clears are zero afterwards, and no others change.** -/
theorem clearCluster_spec (fs : FatMountpt vol) (hlow : -2 ^ 31 ≤ vol.fatCluster2sector c)
    (hhigh : vol.fatCluster2sector c + vol.fatsecperclus < 2 ^ 31) :
    (fs.clearCluster c).Fresh ∧
      (∀ s, ¬ (vol.fatCluster2sector c ≤ s ∧ s < vol.fatCluster2sector c + vol.fatsecperclus) →
        (fs.clearCluster c).settled s = fs.settled s) ∧
      ∀ s, vol.fatCluster2sector c ≤ s ∧ s < vol.fatCluster2sector c + vol.fatsecperclus →
        ∀ i < vol.hwsectorsize, (fs.clearCluster c).settled s i = 0 := by
  obtain ⟨fs2, hfs2⟩ : ∃ fs2 : FatMountpt vol, fs2 = { fs.fatFscacheflush with
    currentsector := vol.fatCluster2sector c
    buffer := fun i => if i < vol.hwsectorsize then 0 else fs.fatFscacheflush.buffer i } := ⟨_, rfl⟩
  have hcur2 : fs2.currentsector = vol.fatCluster2sector c := by rw [hfs2]
  have hclear : fs.clearCluster c = fs2.clearLoop (vol.fatCluster2sector c) vol.fatsecperclus := by
    simp only [clearCluster, hfs2]
  obtain ⟨hbuffer, hcur, hdirty, hdev⟩ :=
    clearLoop_spec vol.fatsecperclus fs2 (vol.fatCluster2sector c) hlow hhigh
  rw [← hclear] at hbuffer hcur hdirty hdev
  have hclean : (fs.clearCluster c).dirty = false := by
    rw [hdirty, hfs2]
    exact fs.dirty_fatFscacheflush
  have hpos : 0 < vol.fatsecperclus := by
    obtain ⟨k, -, hk⟩ := vol.fatsecperclus_eq
    rw [hk]
    exact Nat.two_pow_pos k
  refine ⟨fun _ => ?_, fun s hs => ?_, fun s hs i hi => ?_⟩
  · rw [hbuffer, hcur, hcur2, hdev, if_pos ⟨Int.le_refl _, by omega⟩]
  · rw [settled_of_clean hclean, hdev, if_neg hs, hfs2]
    rfl
  · rw [settled_of_clean hclean, hdev, if_pos hs, hfs2]
    exact if_pos hi

end FatMountpt

end NuttX
