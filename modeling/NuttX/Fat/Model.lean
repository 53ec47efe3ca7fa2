import Mathlib

/-!
# The file allocation table

The table of a FAT volume is read and written through a buffer of one sector, which is written
back only when another sector is needed. `NuttX.FatGeometry` is what mounting a volume finds out
about it and does not change later, `NuttX.FatVolume` such a geometry whose parts fit together,
and `NuttX.FatMountpt` the rest of the mounted volume with its device. The functions of this
module are those that read and write entries of the table and that make, lengthen and remove
chains of clusters. Block I/O always succeeds here, and so the functions of the sector buffer do
not return a status.
-/

namespace NuttX

open Function

/-- A value converted to the 32 bits of `off_t`. -/
def offT (x : ℤ) : ℤ := Int.bmod x 0x100000000

/-- The bits of an `off_t`. -/
def bits32 (x : ℤ) : ℕ := (x % 0x100000000).toNat

/-- `FSTYPE_FAT12`, `FSTYPE_FAT16` and `FSTYPE_FAT32`. -/
inductive FatType
  | fat12
  | fat16
  | fat32
  deriving DecidableEq, Repr

/-- The half bytes of an entry of the table. -/
def FatType.nibbles : FatType → ℕ
  | .fat12 => 3
  | .fat16 => 4
  | .fat32 => 8

/-- The bits of an entry that hold a cluster number; an entry of `fat32` has four unused bits. -/
def FatType.bits : FatType → ℕ
  | .fat12 => 12
  | .fat16 => 16
  | .fat32 => 28

/-- What mounting a volume finds out about it. -/
structure FatGeometry where
  type : FatType
  hwsectorsize : ℕ
  fatsecperclus : ℕ
  fatbase : ℤ
  nfatsects : ℕ
  fatnumfats : ℕ
  database : ℤ
  nclusters : ℕ

/-- The geometry of a volume whose parts fit together. -/
structure FatVolume extends FatGeometry where
  hwsectorsize_eq : ∃ k, hwsectorsize = 2 ^ (k + 2)
  hwsectorsize_lt : hwsectorsize < 2 ^ 16
  fatsecperclus_eq : ∃ k ≤ 7, fatsecperclus = 2 ^ k
  entries_fit : nclusters * type.nibbles ≤ 2 * (nfatsects * hwsectorsize)
  nclusters_lt : nclusters < 2 ^ type.bits
  fatbase_nonneg : 0 ≤ fatbase
  fat_before_data : fatbase + (fatnumfats * nfatsects : ℕ) ≤ database
  one_le_fatnumfats : 1 ≤ fatnumfats
  sectors_fit : database + (nclusters * fatsecperclus : ℕ) < 2 ^ 31

instance : Coe FatVolume FatGeometry := ⟨FatVolume.toFatGeometry⟩

/-- A mounted volume, with the contents of its device. -/
structure FatMountpt (vol : FatGeometry) where
  dev : ℤ → ℕ → UInt8
  buffer : ℕ → UInt8
  currentsector : ℤ
  dirty : Bool
  fsifreecount : UInt32
  fsinextfree : UInt32
  fsidirty : Bool
  writes : List (ℤ × ℕ)

def eINVAL : ℤ := 22

def eNOSPC : ℤ := 28

namespace FatGeometry

variable (vol : FatGeometry)

def secNsectors (n : ℕ) : ℕ := n / vol.hwsectorsize

def secNdxmask : ℕ := vol.hwsectorsize - 1

def fatsector (fatoffset : ℕ) : ℤ := offT (vol.fatbase + vol.secNsectors fatoffset)

def fatindex (fatoffset : ℕ) : ℕ := fatoffset &&& vol.secNdxmask

def fatCluster2sector (cluster : ℕ) : ℤ :=
  if (vol.nclusters + 0xfffffffe) % 0x100000000 ≤ (cluster + 0xfffffffe) % 0x100000000 then -eINVAL
  else offT (((cluster + 0xfffffffe) % 0x100000000 * vol.fatsecperclus : ℕ) + vol.database)

end FatGeometry

/-! ### Accessors -/

/-- `FAT_GETFAT16`, the little-endian value of two bytes. -/
def fatGetfat16 (p : ℕ → UInt8) (i : ℕ) : ℕ := (p (i + 1)).toNat <<< 8 ||| (p i).toNat

def fatPutfat16 (p : ℕ → UInt8) (i v : ℕ) : ℕ → UInt8 :=
  update (update p i (UInt8.ofNat v)) (i + 1) (UInt8.ofNat (v >>> 8))

def fatGetfat32 (p : ℕ → UInt8) (i : ℕ) : ℕ := fatGetfat16 p (i + 2) <<< 16 ||| fatGetfat16 p i

def fatPutfat32 (p : ℕ → UInt8) (i v : ℕ) : ℕ → UInt8 :=
  fatPutfat16 (fatPutfat16 p i (v &&& 0xffff)) (i + 2) (v >>> 16)

namespace FatMountpt

variable {vol : FatGeometry}

/-! ### The sector buffer -/

/-- `fat_hwread` of one sector into `fs_buffer`. -/
def fatHwread (fs : FatMountpt vol) (sector : ℤ) : FatMountpt vol :=
  { fs with buffer := fs.dev sector }

def fatHwwrite (fs : FatMountpt vol) (buffer : ℕ → UInt8) (sector : ℤ) (nsectors : ℕ) :
    FatMountpt vol :=
  { fs with
    writes := fs.writes ++ [(sector, nsectors)]
    dev := fun s => if sector ≤ s ∧ s < sector + nsectors then
        fun i => buffer ((s - sector).toNat * vol.hwsectorsize + i)
      else fs.dev s }

/-- The loop of `fat_fscacheflush` over the copies of the table; `i` copies are left, with the one
that has been written. -/
def flushCopies (fs : FatMountpt vol) : ℕ → FatMountpt vol
  | i + 2 =>
    flushCopies (fatHwwrite { fs with currentsector := offT (fs.currentsector + vol.nfatsects) }
      fs.buffer (offT (fs.currentsector + vol.nfatsects)) 1) (i + 1)
  | _ => fs

def fatFscacheflush (fs : FatMountpt vol) : FatMountpt vol :=
  if fs.dirty then
    if vol.fatbase ≤ fs.currentsector ∧ fs.currentsector < vol.fatbase + vol.nfatsects then
      { flushCopies (fs.fatHwwrite fs.buffer fs.currentsector 1) vol.fatnumfats with
        dirty := false }
    else { fs.fatHwwrite fs.buffer fs.currentsector 1 with dirty := false }
  else fs

def fatFscacheread (fs : FatMountpt vol) (sector : ℤ) : FatMountpt vol :=
  if fs.currentsector ≠ sector then
    { fs.fatFscacheflush.fatHwread sector with currentsector := sector }
  else fs

/-! ### Entries of the table -/

/-- The second byte of an entry of `fat12` may lie in the next sector. -/
def nextByte (fs : FatMountpt vol) (fatsector : ℤ) (fatindex : ℕ) : FatMountpt vol × ℕ :=
  if vol.hwsectorsize ≤ fatindex + 1 then (fs.fatFscacheread (offT (fatsector + 1)), 0)
  else (fs, fatindex + 1)

def fatGetcluster (fs : FatMountpt vol) (clusterno : ℕ) : FatMountpt vol × ℤ :=
  if 2 ≤ clusterno ∧ clusterno < vol.nclusters then
    match vol.type with
    | .fat12 =>
      let fatoffset := clusterno * 3 / 2
      let fs₁ := fs.fatFscacheread (vol.fatsector fatoffset)
      let fs₂ := fs₁.nextByte (vol.fatsector fatoffset) (vol.fatindex fatoffset)
      let cluster := (fs₁.buffer (vol.fatindex fatoffset)).toNat |||
        (fs₂.1.buffer fs₂.2).toNat <<< 8
      (fs₂.1, if clusterno &&& 1 ≠ 0 then ((cluster >>> 4 : ℕ) : ℤ)
        else ((cluster &&& 0x0fff : ℕ) : ℤ))
    | .fat16 =>
      let fs₁ := fs.fatFscacheread (vol.fatsector (2 * clusterno))
      (fs₁, fatGetfat16 fs₁.buffer (vol.fatindex (2 * clusterno)))
    | .fat32 =>
      let fs₁ := fs.fatFscacheread (vol.fatsector (4 * clusterno))
      (fs₁, ((fatGetfat32 fs₁.buffer (vol.fatindex (4 * clusterno)) &&& 0x0fffffff : ℕ) : ℤ))
  else (fs, -eINVAL)

/-- The first byte of an entry of `fat12` that `fat_putcluster` writes. -/
def fat12First (clusterno nextcluster : ℕ) (old : UInt8) : UInt8 :=
  if clusterno &&& 1 ≠ 0 then UInt8.ofNat ((old.toNat &&& 0x0f) ||| nextcluster <<< 4)
  else UInt8.ofNat nextcluster

/-- The second byte of an entry of `fat12` that `fat_putcluster` writes. -/
def fat12Second (clusterno nextcluster : ℕ) (old : UInt8) : UInt8 :=
  if clusterno &&& 1 ≠ 0 then UInt8.ofNat (nextcluster >>> 4)
  else UInt8.ofNat ((old.toNat &&& 0xf0) ||| (nextcluster >>> 8 &&& 0x0f))

/-- The part of `fat_putcluster` for an entry of `fat12`. The sector of the first byte is marked as
dirty before the next sector is read. -/
def fatPutcluster12 (fs : FatMountpt vol) (clusterno nextcluster : ℕ) : FatMountpt vol :=
  let fatoffset := clusterno * 3 / 2
  let fatindex := vol.fatindex fatoffset
  let fs₁ := fs.fatFscacheread (vol.fatsector fatoffset)
  let fs₂ : FatMountpt vol := { fs₁ with
    buffer := update fs₁.buffer fatindex (fat12First clusterno nextcluster (fs₁.buffer fatindex)) }
  let fs₃ := if vol.hwsectorsize ≤ fatindex + 1 then { fs₂ with dirty := true } else fs₂
  let fs₄ := fs₃.nextByte (vol.fatsector fatoffset) fatindex
  { fs₄.1 with
    buffer := update fs₄.1.buffer fs₄.2 (fat12Second clusterno nextcluster (fs₄.1.buffer fs₄.2)) }

def fatPutcluster (fs : FatMountpt vol) (clusterno nextcluster : ℕ) : FatMountpt vol × ℤ :=
  if clusterno = 0 ∨ (2 ≤ clusterno ∧ clusterno < vol.nclusters) then
    match vol.type with
    | .fat12 => ({ fs.fatPutcluster12 clusterno nextcluster with dirty := true }, 0)
    | .fat16 =>
      let fs₁ := fs.fatFscacheread (vol.fatsector (2 * clusterno))
      ({ fs₁ with
        buffer := fatPutfat16 fs₁.buffer (vol.fatindex (2 * clusterno)) (nextcluster &&& 0xffff)
        dirty := true }, 0)
    | .fat32 =>
      let fs₁ := fs.fatFscacheread (vol.fatsector (4 * clusterno))
      ({ fs₁ with
        buffer := fatPutfat32 fs₁.buffer (vol.fatindex (4 * clusterno)) (nextcluster &&& 0x0fffffff)
        dirty := true }, 0)
  else (fs, -eINVAL)

/-! ### Chains of clusters -/

/-- One more cluster is free: `fs_fsifreecount` is counted up, if it is known. -/
def countFreed (fs : FatMountpt vol) : FatMountpt vol :=
  if fs.fsifreecount ≠ 0xffffffff then
    { fs with fsifreecount := fs.fsifreecount + 1, fsidirty := true }
  else fs

/-- One cluster less is free: `fs_fsifreecount` is counted down, if it is known. -/
def countTaken (fs : FatMountpt vol) : FatMountpt vol :=
  if fs.fsifreecount ≠ 0xffffffff then
    { fs with fsifreecount := fs.fsifreecount - 1, fsidirty := true }
  else fs

/-- The loop of `fat_removechain`; there is no result when it has not ended after the given number
of clusters. -/
def removeLoop (fs : FatMountpt vol) (cluster : ℕ) : ℕ → Option (FatMountpt vol × ℤ)
  | 0 => none
  | fuel + 1 =>
    if 2 ≤ cluster ∧ cluster < vol.nclusters then
      let next := fs.fatGetcluster cluster
      if next.2 < 0 then some next
      else
        let put := next.1.fatPutcluster cluster 0
        if put.2 < 0 then some put
        else put.1.countFreed.removeLoop next.2.toNat fuel
    else some (fs, 0)

def fatRemovechain (fs : FatMountpt vol) (cluster : ℕ) : Option (FatMountpt vol × ℤ) :=
  fs.removeLoop cluster (vol.nclusters + 1)

/-- The end of `fat_extendchain`, once a free cluster has been found. -/
def linkCluster (fs : FatMountpt vol) (cluster newcluster : ℕ) : FatMountpt vol × ℤ :=
  let put := fs.fatPutcluster newcluster 0x0fffffff
  if put.2 < 0 then put
  else
    let link := if cluster ≠ 0 then put.1.fatPutcluster cluster newcluster else (put.1, 0)
    if link.2 < 0 then link
    else
      (countTaken { link.1 with fsinextfree := UInt32.ofNat newcluster }, newcluster)

/-- The loop of `fat_extendchain` that looks for a free cluster after `newcluster`. -/
def extendLoop (fs : FatMountpt vol) (cluster startcluster newcluster : ℕ) :
    ℕ → Option (FatMountpt vol × ℤ)
  | 0 => none
  | fuel + 1 =>
    -- At the end of the table the search goes on at its beginning, but not past where it started.
    if vol.nclusters ≤ newcluster + 1 ∧ startcluster < 2 then some (fs, 0)
    else
      let candidate := if vol.nclusters ≤ newcluster + 1 then 2 else newcluster + 1
      let start := fs.fatGetcluster candidate
      if start.2 = 0 then some (start.1.linkCluster cluster candidate)
      else if start.2 < 0 then some start
      else if candidate = startcluster then some (start.1, 0)
      else start.1.extendLoop cluster startcluster candidate fuel

def fatExtendchain (fs : FatMountpt vol) (cluster : ℕ) : Option (FatMountpt vol × ℤ) :=
  if cluster = 0 then
    let start := if fs.fsinextfree = 0 ∨ vol.nclusters ≤ fs.fsinextfree.toNat then 1
      else fs.fsinextfree.toNat
    fs.extendLoop 0 start start (vol.nclusters + 1)
  else
    let next := fs.fatGetcluster cluster
    if next.2 < 0 then some next
    else if next.2 < 2 then some (next.1, 0)
    else if next.2 < vol.nclusters then some next
    else next.1.extendLoop cluster cluster cluster (vol.nclusters + 1)

def fatCreatechain (fs : FatMountpt vol) : Option (FatMountpt vol × ℤ) := fs.fatExtendchain 0

end FatMountpt

end NuttX
