import NuttX.Fat.Model

/-!
# The boot record

`fat_checkbootrecord` decides whether a sector is the boot record of a FAT volume, and works out the
geometry of the volume from it: `NuttX.fatCheckbootrecord`, with the unsigned arithmetic of the
source. What every later access to the volume relies on is `NuttX.FatBoot.Laws`: the entries of the
table are in each copy of it, the areas of the volume are disjoint, and the sectors of the clusters
are in the data area and on the volume.

The record is not trusted, and it is checked incompletely. `NuttX.FatBoot.Sane` are the comparisons
that are missing, and `NuttX.fatCheckbootrecord_law_iff` says that nothing else is: no division by
zero and a geometry as it should be, exactly if the record has sectors in a cluster and the missing
comparisons hold.
-/

namespace NuttX

def eNODEV : ℤ := 19

/-- What `fat_checkbootrecord` leaves in the mounted volume. -/
structure FatBoot extends FatGeometry where
  rootentcnt : ℕ
  fattotsec : ℕ
  fatresvdseccount : ℕ
  fsinfo : ℤ
  rootbase : ℤ
  fsifreecount : UInt32

/-- What can become of a check: it divides by zero, it returns an error or it returns `OK`. -/
inductive BootCheck
  | divideError
  | error (err : ℤ)
  | ok (fs : FatBoot)

/-! ### The fields of the record -/

section Fields

variable (p : ℕ → UInt8) (hwsectorsize : ℕ)

def mbrGetrootentcnt : ℕ := fatGetfat16 p 17

def mbrGetresvdseccount : ℕ := fatGetfat16 p 14

def mbrGetnumfats : ℕ := (p 16).toNat

def mbrGetsecperclus : ℕ := (p 13).toNat

/-- The sectors of a table, from `MBR_GETFATSZ16` or else from `MBR_GETFATSZ32`. -/
def bootNfatsects : ℕ := if fatGetfat16 p 22 ≠ 0 then fatGetfat16 p 22 else fatGetfat32 p 36

/-- The sectors of the volume, from `MBR_GETTOTSEC16` or else from `MBR_GETTOTSEC32`. -/
def bootFattotsec : ℕ := if fatGetfat16 p 19 ≠ 0 then fatGetfat16 p 19 else fatGetfat32 p 32

def bootNotfat32 : Bool :=
  decide (mbrGetrootentcnt p ≠ 0) || decide (fatGetfat16 p 22 ≠ 0) || decide (fatGetfat16 p 19 ≠ 0)

/-- `rootdirsectors`. -/
def bootRootdirsectors : ℕ :=
  if mbrGetrootentcnt p ≠ 0 then
    (32 * mbrGetrootentcnt p + hwsectorsize - 1) / hwsectorsize % 0x10000
  else 0

def bootNtotalfatsects : ℕ := mbrGetnumfats p * bootNfatsects p % 0x100000000

def bootNdatasectors : ℕ :=
  bits32 ((bootFattotsec p : ℤ) - mbrGetresvdseccount p - bootNtotalfatsects p -
    bootRootdirsectors p hwsectorsize)

def dirsecNdirs : ℕ := hwsectorsize >>> 5

end Fields

/-! ### The check -/

section Check

variable (p : ℕ → UInt8) (hwsectorsize : ℕ) (hwnsectors fatbase : Int32)

/-- The comparisons that come before the number of clusters is worked out. Those of the 32-bit
fields are unsigned, and that of the reserved sectors is signed. -/
def BootScreen : Prop :=
  (fatGetfat16 p 510 = 0xaa55 ∧ fatGetfat16 p 11 = hwsectorsize) ∧
    (bootNfatsects p ≠ 0 ∧ bootNfatsects p < bits32 hwnsectors.toInt) ∧
    (bootFattotsec p ≠ 0 ∧ bootFattotsec p ≤ bits32 hwnsectors.toInt) ∧
    (mbrGetresvdseccount p : ℤ) ≤ hwnsectors.toInt ∧
    bootNdatasectors p hwsectorsize ≤ bits32 hwnsectors.toInt

instance : Decidable (BootScreen p hwsectorsize hwnsectors) := inferInstanceAs (Decidable (_ ∧ _))

def bootNclusters : ℕ := bootNdatasectors p hwsectorsize / mbrGetsecperclus p

/-- What is saved once the type is known. -/
def bootSave (type : FatType) : FatBoot :=
  let base := offT (fatbase.toInt + mbrGetresvdseccount p)
  { type := type
    hwsectorsize := hwsectorsize
    fatsecperclus := mbrGetsecperclus p
    fatbase := base
    nfatsects := bootNfatsects p
    fatnumfats := mbrGetnumfats p
    database :=
      offT (base + bootNtotalfatsects p + (mbrGetrootentcnt p / dirsecNdirs hwsectorsize : ℕ))
    nclusters := bootNclusters p hwsectorsize
    rootentcnt := mbrGetrootentcnt p
    fattotsec := bootFattotsec p
    fatresvdseccount := mbrGetresvdseccount p
    fsinfo := if type = .fat32 then offT (fatbase.toInt + fatGetfat16 p 48) else 0
    rootbase :=
      if type = .fat32 then offT (fatGetfat32 p 44) else offT (base + bootNtotalfatsects p)
    fsifreecount := 0xffffffff }

/-- The end of the check, with the division by `DIRSEC_NDIRS`. -/
def bootFinish (type : FatType) : BootCheck :=
  if dirsecNdirs hwsectorsize = 0 then .divideError else .ok (bootSave p hwsectorsize fatbase type)

/-- `fat_checkbootrecord`, of the sector in the buffer and for a volume that starts at the sector
`fatbase`. -/
def fatCheckbootrecord : BootCheck :=
  if fatGetfat16 p 510 ≠ 0xaa55 ∨ fatGetfat16 p 11 ≠ hwsectorsize then .error (-eNODEV)
  else if mbrGetrootentcnt p ≠ 0 ∧ hwsectorsize = 0 then .divideError
  else if bootNfatsects p = 0 ∨ bits32 hwnsectors.toInt ≤ bootNfatsects p then .error (-eNODEV)
  else if bootFattotsec p = 0 ∨ bits32 hwnsectors.toInt < bootFattotsec p then .error (-eNODEV)
  else if hwnsectors.toInt < mbrGetresvdseccount p then .error (-eNODEV)
  else if bits32 hwnsectors.toInt < bootNdatasectors p hwsectorsize then .error (-eNODEV)
  else if mbrGetsecperclus p = 0 then .divideError
  -- `FAT_MAXCLUST12` and `FAT_MAXCLUST16`
  else if bootNclusters p hwsectorsize ≤ 2 ^ 12 - 16 then bootFinish p hwsectorsize fatbase .fat12
  else if bootNclusters p hwsectorsize ≤ 2 ^ 16 - 16 then bootFinish p hwsectorsize fatbase .fat16
  else if bootNotfat32 p = false then bootFinish p hwsectorsize fatbase .fat32
  else .error (-eNODEV)

end Check

/-! ### What a geometry has to be -/

namespace FatBoot

variable (fs : FatBoot)

/-- The byte `k` of the table is one of the bytes of the entry of the cluster `c`. -/
def EntryByte (c k : ℕ) : Prop :=
  c * fs.type.nibbles < 2 * (k + 1) ∧ 2 * k < (c + 1) * fs.type.nibbles

def copy (i : ℕ) : Set ℤ :=
  Set.Ico (fs.fatbase + (i * fs.nfatsects : ℕ)) (fs.fatbase + ((i + 1) * fs.nfatsects : ℕ))

def tableSectors : ℕ := fs.fatnumfats * fs.nfatsects

def rootSectors : ℕ :=
  if fs.type = .fat32 then 0 else (32 * fs.rootentcnt + fs.hwsectorsize - 1) / fs.hwsectorsize

def dataSectors : ℕ := (fs.nclusters - 2) * fs.fatsecperclus

/-- So many sectors from a sector on. -/
def area (start : ℤ) (n : ℕ) : Set ℤ := Set.Ico start (start + n)

/-- **What later accesses rely on**: `start` is the first sector of the volume. -/
structure Laws (start : ℤ) : Prop where
  entry : ∀ c k, 2 ≤ c → c < fs.nclusters → fs.EntryByte c k →
    k / fs.hwsectorsize < fs.nfatsects ∧ k / fs.hwsectorsize < fs.tableSectors
  copies : ∀ i j, i ≠ j → Disjoint (fs.copy i) (fs.copy j)
  table_root : Disjoint (area fs.fatbase fs.tableSectors) (area fs.rootbase fs.rootSectors)
  table_data : Disjoint (area fs.fatbase fs.tableSectors) (area fs.database fs.dataSectors)
  root_data : Disjoint (area fs.rootbase fs.rootSectors) (area fs.database fs.dataSectors)
  sectors : ∀ c i, 2 ≤ c → c < fs.nclusters → i < fs.fatsecperclus →
    fs.database ≤ fs.fatCluster2sector c + i ∧ fs.fatCluster2sector c + i < start + fs.fattotsec

/-- One of two areas is empty, or ends before the other one starts. -/
def Apart (a : ℤ) (m : ℕ) (b : ℤ) (n : ℕ) : Prop := m = 0 ∨ n = 0 ∨ a + m ≤ b ∨ b + n ≤ a

/-- **The comparisons that are missing**: the entries have room in the table, the areas do not
overlap and the last cluster ends on the volume. -/
structure Sane (start : ℤ) : Prop where
  entries : fs.nclusters ≤ 2 ∨
    (1 ≤ fs.fatnumfats ∧ fs.nclusters * fs.type.nibbles ≤ 2 * (fs.nfatsects * fs.hwsectorsize))
  table_root : Apart fs.fatbase fs.tableSectors fs.rootbase fs.rootSectors
  table_data : Apart fs.fatbase fs.tableSectors fs.database fs.dataSectors
  root_data : Apart fs.rootbase fs.rootSectors fs.database fs.dataSectors
  sectors : fs.nclusters ≤ 2 ∨
    (fs.database + ((fs.nclusters - 3) * fs.fatsecperclus : ℕ) < 2 ^ 31 ∧
      fs.database + fs.dataSectors ≤ start + fs.fattotsec)

variable {fs}

theorem disjoint_area_iff {a b : ℤ} {m n : ℕ} :
    Disjoint (area a m) (area b n) ↔ Apart a m b n := by
  rw [area, area, Set.Ico_disjoint_Ico]
  unfold Apart
  omega

theorem disjoint_copy {i j : ℕ} (h : i ≠ j) : Disjoint (fs.copy i) (fs.copy j) := by
  rw [copy, copy, Set.Ico_disjoint_Ico]
  rcases Nat.lt_or_gt_of_ne h with hlt | hlt
  · have hle : (i + 1) * fs.nfatsects ≤ j * fs.nfatsects := Nat.mul_le_mul_right _ hlt
    omega
  · have hle : (j + 1) * fs.nfatsects ≤ i * fs.nfatsects := Nat.mul_le_mul_right _ hlt
    omega

/-- The entries have room in the table if the last one has. -/
theorem entry_iff (hss : 0 < fs.hwsectorsize) :
    (∀ c k, 2 ≤ c → c < fs.nclusters → fs.EntryByte c k →
        k / fs.hwsectorsize < fs.nfatsects ∧ k / fs.hwsectorsize < fs.tableSectors) ↔
      fs.nclusters ≤ 2 ∨
        (1 ≤ fs.fatnumfats ∧
          fs.nclusters * fs.type.nibbles ≤ 2 * (fs.nfatsects * fs.hwsectorsize)) := by
  have hnib : 3 ≤ fs.type.nibbles := by cases fs.type <;> decide
  refine ⟨fun h => ?_, fun h c k hc hlt hk => ?_⟩
  · rcases Nat.lt_or_ge 2 fs.nclusters with hmany | hfew
    · right
      -- the last byte of the last entry
      have hlast : fs.nclusters - 1 + 1 = fs.nclusters := by omega
      have hmul := Nat.succ_mul (fs.nclusters - 1) fs.type.nibbles
      rw [Nat.succ_eq_add_one, hlast] at hmul
      obtain ⟨hin, htable⟩ := h (fs.nclusters - 1) ((fs.nclusters * fs.type.nibbles - 1) / 2)
        (by omega) (by omega) ⟨by omega, by rw [hlast]; omega⟩
      refine ⟨?_, ?_⟩
      · rcases Nat.eq_zero_or_pos fs.fatnumfats with hzero | hpos
        · rw [tableSectors, hzero, Nat.zero_mul] at htable
          exact absurd htable (Nat.not_lt_zero _)
        · exact hpos
      · rw [Nat.div_lt_iff_lt_mul hss] at hin
        omega
    · exact .inl hfew
  · rcases h with hfew | ⟨hnum, hfit⟩
    · omega
    have hle : (c + 1) * fs.type.nibbles ≤ fs.nclusters * fs.type.nibbles :=
      Nat.mul_le_mul_right _ hlt
    have hupper := hk.2
    have hin : k / fs.hwsectorsize < fs.nfatsects := (Nat.div_lt_iff_lt_mul hss).2 (by omega)
    exact ⟨hin, hin.trans_le (Nat.le_mul_of_pos_left _ hnum)⟩

theorem fatCluster2sector_eq {c : ℕ} (hc : 2 ≤ c) (hlt : c < fs.nclusters)
    (hn : fs.nclusters < 2 ^ 31) :
    fs.fatCluster2sector c = offT (((c - 2) * fs.fatsecperclus : ℕ) + fs.database) := by
  have hc' : (c + 0xfffffffe) % 0x100000000 = c - 2 := by omega
  have hn' : (fs.nclusters + 0xfffffffe) % 0x100000000 = fs.nclusters - 2 := by omega
  rw [FatGeometry.fatCluster2sector, hc', hn', if_neg (by omega)]

theorem offT_add_of_lt {m : ℕ} {b : ℤ} (hlow : -2 ^ 31 ≤ b) (h : b + m < 2 ^ 31) :
    offT (m + b) = b + m := by
  unfold offT
  rw [Int.bmod_def]
  omega

theorem offT_add_of_le {m : ℕ} {b : ℤ} (hhigh : b < 2 ^ 31) (hm : m < 2 ^ 31)
    (h : 2 ^ 31 ≤ b + m) : offT (m + b) + 2 ^ 31 < b := by
  unfold offT
  rw [Int.bmod_def]
  omega

/-- The sectors of the clusters are on the volume if those of the last cluster are. -/
theorem sectors_iff {start : ℤ} (hspc : 0 < fs.fatsecperclus)
    (hn : fs.nclusters * fs.fatsecperclus < 2 ^ 31) (hlow : -2 ^ 31 ≤ fs.database)
    (hhigh : fs.database < 2 ^ 31) :
    (∀ c i, 2 ≤ c → c < fs.nclusters → i < fs.fatsecperclus →
        fs.database ≤ fs.fatCluster2sector c + i ∧
          fs.fatCluster2sector c + i < start + fs.fattotsec) ↔
      fs.nclusters ≤ 2 ∨
        (fs.database + ((fs.nclusters - 3) * fs.fatsecperclus : ℕ) < 2 ^ 31 ∧
          fs.database + fs.dataSectors ≤ start + fs.fattotsec) := by
  have hn' : fs.nclusters < 2 ^ 31 := (Nat.le_mul_of_pos_right _ hspc).trans_lt hn
  have hbound : ∀ c, c ≤ fs.nclusters → c * fs.fatsecperclus < 2 ^ 31 := fun c hc =>
    (Nat.mul_le_mul_right _ hc).trans_lt hn
  refine ⟨fun h => ?_, fun h c i hc hlt hi => ?_⟩
  · rcases Nat.lt_or_ge 2 fs.nclusters with hmany | hfew
    · right
      have hlast := h (fs.nclusters - 1) (fs.fatsecperclus - 1) (by omega) (by omega) (by omega)
      rw [fatCluster2sector_eq (by omega) (by omega) hn',
        show fs.nclusters - 1 - 2 = fs.nclusters - 3 by omega] at hlast
      have hmul : fs.dataSectors = (fs.nclusters - 3) * fs.fatsecperclus + fs.fatsecperclus := by
        rw [dataSectors, ← Nat.succ_mul]
        congr 1
        omega
      have hm := hbound (fs.nclusters - 3) (by omega)
      rw [hmul]
      generalize (fs.nclusters - 3) * fs.fatsecperclus = m at hlast hm ⊢
      rcases lt_or_ge (fs.database + m) (2 ^ 31) with hfit | hwrap
      · rw [offT_add_of_lt hlow hfit] at hlast
        exact ⟨hfit, by omega⟩
      · have hless := offT_add_of_le hhigh hm hwrap
        have hone := hbound 1 (by omega)
        omega
    · exact .inl hfew
  · rcases h with hfew | ⟨hfit, hvol⟩
    · omega
    have hle : (c - 2) * fs.fatsecperclus ≤ (fs.nclusters - 3) * fs.fatsecperclus :=
      Nat.mul_le_mul_right _ (by omega)
    have hle' : (c - 2 + 1) * fs.fatsecperclus ≤ fs.dataSectors :=
      Nat.mul_le_mul_right _ (by omega)
    rw [Nat.succ_mul] at hle'
    rw [fatCluster2sector_eq hc hlt hn', offT_add_of_lt hlow (by omega)]
    exact ⟨by omega, by omega⟩

end FatBoot

/-! ### What the check accepts -/

section Accepted

variable {p : ℕ → UInt8} {hwnsectors fatbase : Int32} {fs : FatBoot}

theorem fatCheckbootrecord_of_screen (fatbase : Int32) (h : BootScreen p 512 hwnsectors) :
    fatCheckbootrecord p 512 hwnsectors fatbase =
      if mbrGetsecperclus p = 0 then .divideError
      else if bootNclusters p 512 ≤ 2 ^ 12 - 16 then .ok (bootSave p 512 fatbase .fat12)
      else if bootNclusters p 512 ≤ 2 ^ 16 - 16 then .ok (bootSave p 512 fatbase .fat16)
      else if bootNotfat32 p = false then .ok (bootSave p 512 fatbase .fat32)
      else .error (-eNODEV) := by
  obtain ⟨⟨hsig, hsize⟩, hfat, htot, hresvd, hdata⟩ := h
  rw [fatCheckbootrecord, if_neg (not_or.2 ⟨not_not.2 hsig, not_not.2 hsize⟩),
    if_neg (fun hroot => absurd hroot.2 (by decide)), if_neg (by omega), if_neg (by omega),
    if_neg (not_lt.2 hresvd), if_neg (not_lt.2 hdata)]
  rfl

theorem of_ite_eq {c : Prop} [Decidable c] {x y z : BootCheck} (h : (if c then x else y) = z)
    (hx : x ≠ z) : ¬ c ∧ y = z := by
  split at h
  · exact absurd h hx
  · exact ⟨‹_›, h⟩

/-- A check that does not return an error has passed the comparisons. -/
theorem screen_of_eq {n : ℕ} {z : BootCheck} (h : fatCheckbootrecord p n hwnsectors fatbase = z)
    (hz : .error (-eNODEV) ≠ z) (hn : n ≠ 0 ∨ .divideError ≠ z) :
    BootScreen p n hwnsectors ∧ (mbrGetsecperclus p = 0 → .divideError = z) ∧
      (mbrGetsecperclus p ≠ 0 → ∃ type, bootFinish p n fatbase type = z) := by
  obtain ⟨hsig, h⟩ := of_ite_eq h hz
  have hroot : ∀ {y}, (if mbrGetrootentcnt p ≠ 0 ∧ n = 0 then BootCheck.divideError else y) = z →
      y = z := fun h => by
    rcases hn with hn | hn
    · rwa [if_neg (fun hc => hn hc.2)] at h
    · exact (of_ite_eq h hn).2
  obtain ⟨hfat, h⟩ := of_ite_eq (hroot h) hz
  obtain ⟨htot, h⟩ := of_ite_eq h hz
  obtain ⟨hresvd, h⟩ := of_ite_eq h hz
  obtain ⟨hdata, h⟩ := of_ite_eq h hz
  refine ⟨⟨by omega, by omega, by omega, not_lt.1 hresvd, not_lt.1 hdata⟩, fun hspc => ?_,
    fun hspc => ?_⟩
  · rwa [if_pos hspc] at h
  rw [if_neg hspc] at h
  split_ifs at h
  · exact ⟨_, h⟩
  · exact ⟨_, h⟩
  · exact ⟨_, h⟩
  · exact absurd h hz

theorem divideError_iff :
    fatCheckbootrecord p 512 hwnsectors fatbase = .divideError ↔
      BootScreen p 512 hwnsectors ∧ mbrGetsecperclus p = 0 := by
  constructor
  · intro h
    obtain ⟨hscreen, -, hfinish⟩ := screen_of_eq h nofun (.inl (by decide))
    refine ⟨hscreen, by_contra fun hspc => ?_⟩
    obtain ⟨type, h⟩ := hfinish hspc
    cases h
  · rintro ⟨hscreen, hspc⟩
    rw [fatCheckbootrecord_of_screen fatbase hscreen, if_pos hspc]

theorem saved_of_ok {n : ℕ} (h : fatCheckbootrecord p n hwnsectors fatbase = .ok fs) :
    BootScreen p n hwnsectors ∧ mbrGetsecperclus p ≠ 0 ∧
      ∃ type, fs = bootSave p n fatbase type := by
  obtain ⟨hscreen, hzero, hfinish⟩ := screen_of_eq h nofun (.inr nofun)
  have hspc : mbrGetsecperclus p ≠ 0 := fun hspc => absurd (hzero hspc) nofun
  obtain ⟨type, h⟩ := hfinish hspc
  exact ⟨hscreen, hspc, type, (BootCheck.ok.inj (of_ite_eq h nofun).2).symm⟩

/-- The clusters are those of the data sectors, which are counted by the device. -/
theorem nclusters_lt {n : ℕ} (h : BootScreen p n hwnsectors) :
    bootNclusters p n * mbrGetsecperclus p < 2 ^ 31 := by
  obtain ⟨-, -, -, hresvd, hdata⟩ := h
  have hlt := hwnsectors.toInt_lt
  refine ((Nat.div_mul_le_self ..).trans hdata).trans_lt ?_
  unfold bits32
  omega

theorem offT_bounds (x : ℤ) : -2 ^ 31 ≤ offT x ∧ offT x < 2 ^ 31 := by
  unfold offT
  rw [Int.bmod_def]
  omega

/-- **An accepted geometry is as it should be if and only if it is sane.** -/
theorem laws_iff_sane (h : fatCheckbootrecord p 512 hwnsectors fatbase = .ok fs) (start : ℤ) :
    fs.Laws start ↔ fs.Sane start := by
  obtain ⟨hscreen, hspc, type, rfl⟩ := saved_of_ok h
  have hn := nclusters_lt hscreen
  have hbase := offT_bounds
    (offT (fatbase.toInt + mbrGetresvdseccount p) + bootNtotalfatsects p +
      (mbrGetrootentcnt p / dirsecNdirs 512 : ℕ))
  have hentry := @FatBoot.entry_iff (bootSave p 512 fatbase type) (show 0 < 512 by decide)
  have hsectors := @FatBoot.sectors_iff (bootSave p 512 fatbase type) start
    (Nat.pos_of_ne_zero hspc) hn hbase.1 hbase.2
  refine ⟨fun hl => ?_, fun hs => ?_⟩
  · exact ⟨hentry.1 hl.entry, FatBoot.disjoint_area_iff.1 hl.table_root,
      FatBoot.disjoint_area_iff.1 hl.table_data, FatBoot.disjoint_area_iff.1 hl.root_data,
      hsectors.1 hl.sectors⟩
  · exact ⟨hentry.2 hs.entries, fun _ _ => FatBoot.disjoint_copy,
      FatBoot.disjoint_area_iff.2 hs.table_root, FatBoot.disjoint_area_iff.2 hs.table_data,
      FatBoot.disjoint_area_iff.2 hs.root_data, hsectors.2 hs.sectors⟩

/-- A boot record with one reserved sector, one table of one sector and 1000 sectors in all. -/
def smallRecord (secperclus : UInt8) : ℕ → UInt8
  | 12 => 2
  | 13 => secperclus
  | 14 => 1
  | 16 => 1
  | 19 => 0xe8
  | 20 => 3
  | 22 => 1
  | 510 => 0x55
  | 511 => 0xaa
  | _ => 0

theorem fatCheckbootrecord_smallRecord :
    fatCheckbootrecord (smallRecord 1) 512 1000 0 = .ok (bootSave (smallRecord 1) 512 0 .fat12) := by
  rw [fatCheckbootrecord_of_screen 0 (by decide +kernel), if_neg (by decide +kernel),
    if_pos (by decide +kernel)]

/-- **The clusters of a volume are not those that are accepted.** The last two are refused; if
there are less than two, numbers are accepted that stand for none. -/
theorem not_clusters_accepted {n : ℕ} (h : fatCheckbootrecord p n hwnsectors fatbase = .ok fs) :
    ¬ ∀ c < 2 ^ 32, fs.fatCluster2sector c ≠ -eINVAL ↔ 2 ≤ c ∧ c ≤ fs.nclusters + 1 := by
  obtain ⟨hscreen, hspc, type, heq⟩ := saved_of_ok h
  have hspc' : fs.fatsecperclus = (p 13).toNat := by rw [heq]; rfl
  have hn : fs.nclusters < 2 ^ 31 := by
    rw [heq]
    exact (Nat.le_mul_of_pos_right _ (Nat.pos_of_ne_zero hspc)).trans_lt (nclusters_lt hscreen)
  have hlt := (p 13).toNat_lt
  intro hall
  rcases Nat.lt_or_ge fs.nclusters 2 with hfew | hmany
  · have h3 := hall 3 (by decide)
    have h4 := hall 4 (by decide)
    rw [FatGeometry.fatCluster2sector, if_neg (by omega), offT, Int.bmod_def] at h3 h4
    unfold mbrGetsecperclus at hspc
    omega
  · refine (hall (fs.nclusters + 1) (by omega)).mpr ⟨by omega, le_rfl⟩ ?_
    rw [FatGeometry.fatCluster2sector, if_pos (by omega)]

theorem not_clusters_accepted_small :
    fatCheckbootrecord (smallRecord 1) 512 1000 0 = .ok (bootSave (smallRecord 1) 512 0 .fat12) ∧
      ¬ ∀ c < 2 ^ 32, (bootSave (smallRecord 1) 512 0 .fat12).fatCluster2sector c ≠ -eINVAL ↔
        2 ≤ c ∧ c ≤ (bootSave (smallRecord 1) 512 0 .fat12).nclusters + 1 :=
  ⟨fatCheckbootrecord_smallRecord, not_clusters_accepted fatCheckbootrecord_smallRecord⟩

/-- The last cluster of a volume with 998 clusters is the cluster 999. -/
theorem fatCluster2sector_last :
    fatCheckbootrecord (smallRecord 1) 512 1000 0 = .ok (bootSave (smallRecord 1) 512 0 .fat12) ∧
      (bootSave (smallRecord 1) 512 0 .fat12).nclusters = 998 ∧
      (bootSave (smallRecord 1) 512 0 .fat12).fatCluster2sector 999 = -eINVAL :=
  ⟨fatCheckbootrecord_smallRecord, by decide +kernel, by decide +kernel⟩

end Accepted

end NuttX
