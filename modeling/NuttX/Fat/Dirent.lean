import NuttX.Fat.Cache

/-!
# Directory entries

A directory of a FAT volume is a chain of clusters, or the fixed area of the root directory of
`fat12` and `fat16`, which is known by the cluster number zero. Its sectors are divided into slots
of 32 bytes, and the name of a file needs one of them, or several in a row if it is a long one.
`NuttX.FatMountpt.fatAllocatedirentry` looks for free slots and appends a cluster of zeros to the
chain if there are none. Block I/O always succeeds here, and long file names are configured.
-/

namespace NuttX

/-- Where the root directory is. -/
structure FatRoot where
  rootbase : ℤ
  rootentcnt : ℕ

/-- A position in a directory, `struct fs_fatdir_s`. -/
structure FatDir where
  startcluster : ℕ
  currcluster : ℕ
  currsector : ℤ
  index : ℕ

/-- The place of the slots of a name, `struct fat_dirseq_s`. -/
structure FatDirseq where
  sector : ℤ
  offset : ℕ
  cluster : ℕ
  startsector : ℤ
  lfnsector : ℤ
  lfnoffset : ℕ
  lfncluster : ℕ

/-- What is known about a name, `struct fat_dirinfo_s`. -/
structure FatDirinfo where
  dir : FatDir
  seq : FatDirseq
  lfname : List UInt8

def FatDirseq.recordSfn (seq : FatDirseq) (sector : ℤ) (offset cluster : ℕ) : FatDirseq :=
  { seq with sector := sector, offset := offset, cluster := cluster }

/-- The first slot of a name is recorded, with the first sector of the directory. -/
def FatDirseq.recordLfn (seq : FatDirseq) (sector : ℤ) (offset cluster : ℕ) (startsector : ℤ) :
    FatDirseq :=
  { seq with
    lfnsector := sector
    lfnoffset := offset
    lfncluster := cluster
    startsector := startsector }

namespace FatGeometry

variable (vol : FatGeometry)

/-- `DIRSEC_NDIRS`, the number of slots of a sector. -/
def dirsecNdirs : ℕ := vol.hwsectorsize >>> 5

def dirsecNdxmask : ℕ := (vol.hwsectorsize - 1) >>> 5

/-- The offset of a slot in its sector, a `uint16_t`. -/
def diroffset (index : ℕ) : ℕ := (index &&& vol.dirsecNdxmask) * 32 % 0x10000

end FatGeometry

/-- The first byte of a slot says that it is free: `DIR0_ALLEMPTY` or `DIR0_EMPTY`. -/
def dirEmpty (ch : UInt8) : Bool := ch = 0x00 ∨ ch = 0xe5

/-- The slots that `fat_allocatelfnentry` looks for: 13 characters in each, and one for the short
file name. -/
def lfnEntries (namelen : ℕ) : ℕ :=
  (namelen / 13 + if 0 < namelen - namelen / 13 * 13 then 1 else 0) + 1

namespace FatMountpt

variable {vol : FatGeometry}

def fatNextdirentry (fs : FatMountpt vol) (root : FatRoot) (dir : FatDir) :
    FatMountpt vol × FatDir × ℤ :=
  let ndx := (dir.index + 1) % 0x100000000
  if ndx &&& (vol.dirsecNdirs - 1) = 0 then
    let dir₁ : FatDir := { dir with currsector := offT (dir.currsector + 1) }
    if dir.currcluster = 0 then
      if root.rootentcnt ≤ ndx then (fs, dir₁, -eNOSPC) else (fs, { dir₁ with index := ndx }, 0)
    else if ndx / vol.dirsecNdirs &&& (vol.fatsecperclus - 1) = 0 then
      let next := fs.fatGetcluster dir.currcluster
      let cluster := bits32 next.2
      if cluster < 2 ∨ vol.nclusters ≤ cluster then (next.1, dir₁, -eNOSPC)
      else
        (next.1, { dir with
          currcluster := cluster
          currsector := vol.fatCluster2sector cluster
          index := ndx }, 0)
    else (fs, { dir₁ with index := ndx }, 0)
  else (fs, { dir with index := ndx }, 0)

/-- The loop of `fat_allocatesfnentry`. -/
def sfnLoop (fs : FatMountpt vol) (root : FatRoot) (info : FatDirinfo) (startsector : ℤ) :
    ℕ → Option (FatMountpt vol × FatDirinfo × ℤ)
  | 0 => none
  | fuel + 1 =>
    let fs₁ := fs.fatFscacheread info.dir.currsector
    let diroffset := vol.diroffset info.dir.index
    if dirEmpty (fs₁.buffer diroffset) then
      -- The slot is the first one of the name, too.
      some (fs₁, { info with
        seq := (info.seq.recordSfn fs₁.currentsector diroffset info.dir.currcluster).recordLfn
          fs₁.currentsector diroffset info.dir.currcluster startsector }, 0)
    else
      let next := fs₁.fatNextdirentry root info.dir
      if next.2.2 < 0 then some (next.1, { info with dir := next.2.1 }, next.2.2)
      else next.1.sfnLoop root { info with dir := next.2.1 } startsector fuel

/-- The loop of `fat_allocatelfnentry`; `needed` slots of `nentries` are still to be found. -/
def lfnLoop (fs : FatMountpt vol) (root : FatRoot) (info : FatDirinfo) (startsector : ℤ)
    (nentries needed : ℕ) : ℕ → Option (FatMountpt vol × FatDirinfo × ℤ)
  | 0 => none
  | fuel + 1 =>
    let fs₁ := fs.fatFscacheread info.dir.currsector
    let diroffset := vol.diroffset info.dir.index
    let empty := dirEmpty (fs₁.buffer diroffset)
    let seq₁ := if empty = true ∧ needed = nentries then
        info.seq.recordLfn fs₁.currentsector diroffset info.dir.currcluster startsector
      else info.seq
    if empty = true ∧ needed ≤ 1 then
      some (fs₁, { info with
        seq := seq₁.recordSfn fs₁.currentsector diroffset info.dir.currcluster }, 0)
    else
      -- A slot that is not free resets the search.
      let next := fs₁.fatNextdirentry root info.dir
      if next.2.2 < 0 then some (next.1, { info with dir := next.2.1, seq := seq₁ }, next.2.2)
      else
        next.1.lfnLoop root { info with dir := next.2.1, seq := seq₁ } startsector nentries
          (if empty then needed - 1 else nentries) fuel

/-- More rounds than a directory has slots. -/
def slotFuel (vol : FatGeometry) (root : FatRoot) : ℕ :=
  vol.nclusters * (vol.fatsecperclus * vol.dirsecNdirs) + root.rootentcnt + vol.dirsecNdirs + 1

def fatAllocatesfnentry (fs : FatMountpt vol) (root : FatRoot) (info : FatDirinfo) :
    Option (FatMountpt vol × FatDirinfo × ℤ) :=
  fs.sfnLoop root info info.dir.currsector (slotFuel vol root)

def fatAllocatelfnentry (fs : FatMountpt vol) (root : FatRoot) (info : FatDirinfo) :
    Option (FatMountpt vol × FatDirinfo × ℤ) :=
  fs.lfnLoop root info info.dir.currsector (lfnEntries info.lfname.length)
    (lfnEntries info.lfname.length) (slotFuel vol root)

/-- The loop of `fat_allocatedirentry` that clears the sectors of a new cluster. -/
def clearLoop (fs : FatMountpt vol) (sector : ℤ) : ℕ → FatMountpt vol
  | 0 => fs
  | i + 1 => (fs.fatHwwrite fs.buffer sector 1).clearLoop (offT (sector + 1)) i

/-- The new cluster of a directory is cleared, by way of the sector buffer. -/
def clearCluster (fs : FatMountpt vol) (cluster : ℕ) : FatMountpt vol :=
  let fs₁ := fs.fatFscacheflush
  let fs₂ : FatMountpt vol := { fs₁ with
    currentsector := vol.fatCluster2sector cluster
    buffer := fun i => if i < vol.hwsectorsize then 0 else fs₁.buffer i }
  fs₂.clearLoop fs₂.currentsector vol.fatsecperclus

/-- The position at which a round of `fat_allocatedirentry` starts. The root directory of a fixed
size has no cluster, and then `fd_currcluster` stays what it was. -/
def startDir (vol : FatGeometry) (root : FatRoot) (dir : FatDir) (cluster : ℕ) : FatDir :=
  if cluster ≠ 0 then
    { dir with
      currcluster := cluster
      currsector := vol.fatCluster2sector cluster
      index := 0 }
  else { dir with currsector := root.rootbase, index := 0 }

/-- The search for slots: for a long file name, or for a short one. -/
def searchSlots (fs : FatMountpt vol) (root : FatRoot) (info : FatDirinfo) :
    Option (FatMountpt vol × FatDirinfo × ℤ) :=
  if info.lfname ≠ [] then fs.fatAllocatelfnentry root info else fs.fatAllocatesfnentry root info

/-- The loop of `fat_allocatedirentry`. The zero of `fat_extendchain`, which says that no cluster is
free, is the next cluster that is tried. -/
def allocateLoop (fs : FatMountpt vol) (root : FatRoot) (info : FatDirinfo) (cluster : ℕ) :
    ℕ → Option (FatMountpt vol × FatDirinfo × ℤ)
  | 0 => none
  | fuel + 1 =>
    match fs.searchSlots root { info with dir := startDir vol root info.dir cluster } with
    | none => none
    | some (fs₁, info₁, ret) =>
      if ret = 0 ∨ ret ≠ -eNOSPC then some (fs₁, info₁, ret)
      else if cluster = 0 then some (fs₁, info₁, -eNOSPC)
      else
        match fs₁.fatExtendchain info₁.dir.currcluster with
        | none => none
        | some (fs₂, next) =>
          if next < 0 then some (fs₂, info₁, next)
          else (fs₂.clearCluster next.toNat).allocateLoop root info₁ next.toNat fuel

def fatAllocatedirentry (fs : FatMountpt vol) (root : FatRoot) (info : FatDirinfo) :
    Option (FatMountpt vol × FatDirinfo × ℤ) :=
  fs.allocateLoop root info info.dir.startcluster (vol.nclusters + 3)

end FatMountpt

end NuttX
