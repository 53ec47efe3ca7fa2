import NuttX.Fat.Boot
import NuttX.Fat.Cache
import NuttX.Fat.Faults

/-!
# The FSINFO sector

A `fat32` volume keeps its free count and the hint for the next free cluster in a sector of its own.
`fat_updatefsinfo` writes it and `fat_checkfsinfo` reads it when the volume is mounted again, with
the two fields exchanged (`NuttX.FatMountpt.fsinfo_kept_iff`).
-/

namespace NuttX.FatMountpt

variable {g : FatGeometry}

/-- `fat_updatefsinfo`, when the transfers succeed. -/
def fatUpdatefsinfo (fs : FatMountpt g) (fsinfo : ℤ) : FatMountpt g :=
  let fs₁ := fs.fatFscacheflush
  if g.type = .fat32 ∧ fs₁.fsidirty = true then
    { (show FatMountpt g from { fs₁ with
        buffer := FatM.fsinfoSector fs₁
        currentsector := fsinfo
        dirty := true }).fatFscacheflush with fsidirty := false }
  else fs₁

/-- `fat_checkfsinfo`, when the transfers succeed. -/
def fatCheckfsinfo (fs : FatMountpt g) (fsinfo : ℤ) : FatMountpt g × ℤ :=
  let fs₁ := fs.fatFscacheread fsinfo
  if fatGetfat32 fs₁.buffer 0 = 0x41615252 ∧ fatGetfat32 fs₁.buffer 484 = 0x61417272 ∧
      fatGetfat32 fs₁.buffer 508 = 0xaa550000 then
    ({ fs₁ with
      fsinextfree := .ofNat (fatGetfat32 fs₁.buffer 488)
      fsifreecount := .ofNat (fatGetfat32 fs₁.buffer 492) }, 0)
  else (fs₁, -eNODEV)

/-- The volume is mounted again: nothing of it is in the buffer. -/
structure Remounts (fs fs' : FatMountpt g) (fsinfo : ℤ) : Prop where
  dev : fs'.dev fsinfo = (fs.fatUpdatefsinfo fsinfo).dev fsinfo
  currentsector : fs'.currentsector ≠ fsinfo
  clean : fs'.dirty = false

variable {fs fs' : FatMountpt g} {fsinfo : ℤ}

/-- What is read is what was written, exchanged. -/
theorem Remounts.fatCheckfsinfo_eq (h : Remounts fs fs' fsinfo) (htype : g.type = .fat32)
    (hdirty : fs.fsidirty = true) :
    (fs'.fatCheckfsinfo fsinfo).2 = 0 ∧
      (fs'.fatCheckfsinfo fsinfo).1.fsinextfree = fs.fsifreecount ∧
      (fs'.fatCheckfsinfo fsinfo).1.fsifreecount = fs.fsinextfree := by
  have hdev : fs'.dev fsinfo = FatM.fsinfoSector fs := by
    obtain ⟨hfree, hnext, hfsi⟩ := fs.fatFscacheflush_keep
    rw [h.dev, fatUpdatefsinfo, if_pos ⟨htype, hfsi.trans hdirty⟩]
    refine (dev_flush_currentsector rfl).trans ?_
    rw [FatM.fsinfoSector, FatM.fsinfoSector, hfree, hnext]
  have hbuffer : (fs'.fatFscacheread fsinfo).buffer = FatM.fsinfoSector fs := by
    rw [fatFscacheread_of_ne h.currentsector, fatFscacheflush_of_clean h.clean]
    exact hdev
  simp [fatCheckfsinfo, hbuffer, FatM.fsinfoSector, FatType.fatGetfat32_of_disjoint,
    FatType.fatGetfat32_fatPutfat32, fs.fsifreecount.toNat_lt, fs.fsinextfree.toNat_lt]

/-- **The free count and the hint are kept over a mount** if and only if they are equal. -/
theorem fsinfo_kept_iff (h : Remounts fs fs' fsinfo) (htype : g.type = .fat32)
    (hdirty : fs.fsidirty = true) :
    (fs'.fatCheckfsinfo fsinfo).1.fsifreecount = fs.fsifreecount ∧
        (fs'.fatCheckfsinfo fsinfo).1.fsinextfree = fs.fsinextfree ↔
      fs.fsifreecount = fs.fsinextfree := by
  obtain ⟨-, hnext, hfree⟩ := h.fatCheckfsinfo_eq htype hdirty
  rw [hnext, hfree]
  exact ⟨fun heq => heq.2, fun heq => ⟨heq.symm, heq⟩⟩

/-- A volume with so many free clusters, the next one of which is the cluster 9. -/
def fsinfoMount (dev : ℤ → ℕ → UInt8) (free : UInt32) :
    FatMountpt ⟨.fat32, 512, 1, 32, 8, 1, 40, 100⟩ :=
  ⟨dev, fun _ => 0, 0, false, free, 9, true, []⟩

/-- The same volume, mounted again after its FSINFO sector has been written. -/
def fsinfoRemount (free : UInt32) : FatMountpt ⟨.fat32, 512, 1, 32, 8, 1, 40, 100⟩ :=
  fsinfoMount ((fsinfoMount 0 free).fatUpdatefsinfo 1).dev 0

theorem remounts_fsinfoMount (free : UInt32) :
    Remounts (fsinfoMount 0 free) (fsinfoRemount free) 1 :=
  ⟨rfl, (by decide : (0 : ℤ) ≠ 1), rfl⟩

theorem fsinfo_kept_iff_nine : ((fsinfoRemount 9).fatCheckfsinfo 1).1.fsifreecount = 9 ∧
    ((fsinfoRemount 9).fatCheckfsinfo 1).1.fsinextfree = 9 :=
  (fsinfo_kept_iff (remounts_fsinfoMount 9) rfl rfl).mpr rfl

/-- Seven free clusters become the hint. -/
theorem fsinfo_exchanged : ((fsinfoRemount 7).fatCheckfsinfo 1).1.fsinextfree = 7 :=
  ((remounts_fsinfoMount 7).fatCheckfsinfo_eq rfl rfl).2.1

end NuttX.FatMountpt
