import NuttX.Fat.File
import NuttX.Lib.Frame

/-!
# File operations with block I/O that may fail

In the other modules a sector that is read or written is read or written. Here the block driver
may answer anything to any transfer, and the functions of the volume and of the file are modelled
with their error paths: `fat_read`, `fat_write`, `fat_seek` and `fat_sync`, from the moment when
the semaphore of the volume is taken, with the functions that they call. `NuttX.FatM` are
computations on `NuttX.FatWorld`, which has the volume, the file, what is going to become of the
transfers, and how often the semaphore has been taken and given.
-/

namespace NuttX

/-- What becomes of a transfer: all sectors are transferred, or the driver answers something else,
and leaves anything in the buffer or on the device. -/
inductive BlockOutcome
  | done
  | fails (ret : ℤ) (buffer : ℕ → ℕ → UInt8) (dev : ℤ → ℕ → UInt8)

/-- `ENODEV`, for a driver that transfers too few sectors. -/
def shortTransfer : ℤ := -19

/-- A volume with an open file, and the block driver under it. -/
structure FatWorld (vol : FatGeometry) where
  fs : FatMountpt vol
  ff : FatFile
  dirsector : ℤ
  dirindex : ℕ
  fsinfo : ℤ
  mounted : Bool
  available : Bool
  outcomes : ℕ → BlockOutcome
  takes : ℕ
  gives : ℕ

/-- Computations on a volume with an open file. A loop may run out of rounds. -/
abbrev FatM (vol : FatGeometry) := StateT (FatWorld vol) Option

namespace FatM

variable {vol : FatGeometry}

def getFs : FatM vol (FatMountpt vol) := do
  return (← get).fs

def getFf : FatM vol FatFile := do
  return (← get).ff

def modifyFs (f : FatMountpt vol → FatMountpt vol) : FatM vol Unit :=
  modify fun w => { w with fs := f w.fs }

def modifyFf (f : FatFile → FatFile) : FatM vol Unit :=
  modify fun w => { w with ff := f w.ff }

/-- The rest is done if the first part has not failed. -/
def check (first rest : FatM vol ℤ) : FatM vol ℤ := do
  let ret ← first
  if ret < 0 then return ret else rest

/-- A part of a function, with another value for its errors. -/
def checkWith (err : ℤ) (first rest : FatM vol ℤ) : FatM vol ℤ := do
  let ret ← first
  if ret < 0 then return err else rest

/-! ### The block driver and the semaphore -/

def fatSemtake : FatM vol Unit := modify fun w => { w with takes := w.takes + 1 }

def fatSemgive : FatM vol Unit := modify fun w => { w with gives := w.gives + 1 }

/-- A function ends, and gives the semaphore. -/
def giving {α : Type} (m : FatM vol α) : FatM vol α := do
  let r ← m
  fatSemgive
  return r

def fatCheckmount : FatM vol ℤ := do
  let w ← get
  if w.mounted = true ∧ w.available = true then return 0
  else
    modify fun w => { w with mounted := false }
    return shortTransfer

/-- What becomes of the next transfer. -/
def nextOutcome : FatM vol BlockOutcome := do
  let w ← get
  set { w with outcomes := fun n => w.outcomes (n + 1) }
  return w.outcomes 0

/-- The value of `fat_hwread` and `fat_hwwrite` for an answer of the driver. -/
def transferError (ret : ℤ) : ℤ := if ret < 0 then ret else shortTransfer

/-- `fat_hwread`, with the sectors that are read. -/
def fatHwread (sector : ℤ) : FatM vol (ℤ × (ℕ → ℕ → UInt8)) := do
  let outcome ← nextOutcome
  let fs ← getFs
  match outcome with
  | .done => return (0, fun k => fs.dev (sector + k))
  | .fails ret buffer _ => return (transferError ret, buffer)

def fatHwwrite (buffer : ℕ → UInt8) (sector : ℤ) (nsectors : ℕ) : FatM vol ℤ := do
  let outcome ← nextOutcome
  match outcome with
  | .done =>
    modifyFs fun fs => fs.fatHwwrite buffer sector nsectors
    return 0
  | .fails ret _ dev =>
    modifyFs fun fs => { fs with dev := dev }
    return transferError ret

/-! ### The buffer of the volume -/

/-- The loop of `fat_fscacheflush` over the copies of the table. -/
def flushCopies : ℕ → FatM vol ℤ
  | n + 2 => do
    modifyFs fun fs => { fs with currentsector := offT (fs.currentsector + vol.nfatsects) }
    let fs ← getFs
    check (fatHwwrite fs.buffer fs.currentsector 1) (flushCopies (n + 1))
  | _ => return 0

def fatFscacheflush : FatM vol ℤ := do
  let fs ← getFs
  if fs.dirty then
    check (fatHwwrite fs.buffer fs.currentsector 1) (check
      (if vol.fatbase ≤ fs.currentsector ∧ fs.currentsector < vol.fatbase + vol.nfatsects then
        flushCopies vol.fatnumfats
      else return 0) (do
        modifyFs fun fs => { fs with dirty := false }
        return 0))
  else return 0

def fatFscacheread (sector : ℤ) : FatM vol ℤ := do
  let fs ← getFs
  if fs.currentsector ≠ sector then
    check fatFscacheflush (do
      let read ← fatHwread sector
      modifyFs fun fs => { fs with buffer := read.2 0 }
      if read.1 < 0 then return read.1
      else
        modifyFs fun fs => { fs with currentsector := sector }
        return 0)
  else return 0

/-! ### The table -/

/-- The second byte of an entry of `fat12`: its index, once its sector has been read. -/
def nextByte (fatsector : ℤ) (fatindex : ℕ) : FatM vol (ℤ × ℕ) := do
  if vol.hwsectorsize ≤ fatindex + 1 then
    let ret ← fatFscacheread (offT (fatsector + 1))
    return (ret, 0)
  else return (0, fatindex + 1)

/-- `fat_getcluster`. An entry that cannot be read is `EINVAL`. -/
def fatGetcluster (clusterno : ℕ) : FatM vol ℤ := do
  if 2 ≤ clusterno ∧ clusterno < vol.nclusters then
    match vol.type with
    | .fat12 =>
      let fatoffset := clusterno * 3 / 2
      checkWith (-eINVAL) (fatFscacheread (vol.fatsector fatoffset)) (do
        let first := (← getFs).buffer (vol.fatindex fatoffset)
        let next ← nextByte (vol.fatsector fatoffset) (vol.fatindex fatoffset)
        if next.1 < 0 then return -eINVAL
        else
          let cluster := first.toNat ||| ((← getFs).buffer next.2).toNat <<< 8
          if clusterno &&& 1 ≠ 0 then return ((cluster >>> 4 : ℕ) : ℤ)
          else return ((cluster &&& 0x0fff : ℕ) : ℤ))
    | .fat16 =>
      checkWith (-eINVAL) (fatFscacheread (vol.fatsector (2 * clusterno))) (do
        return fatGetfat16 (← getFs).buffer (vol.fatindex (2 * clusterno)))
    | .fat32 =>
      checkWith (-eINVAL) (fatFscacheread (vol.fatsector (4 * clusterno))) (do
        return ((fatGetfat32 (← getFs).buffer (vol.fatindex (4 * clusterno)) &&& 0x0fffffff :
          ℕ) : ℤ))
  else return -eINVAL

/-- The part of `fat_putcluster` for an entry of `fat12`. -/
def fatPutcluster12 (clusterno nextcluster : ℕ) : FatM vol Unit := do
  let fatoffset := clusterno * 3 / 2
  let fatindex := vol.fatindex fatoffset
  let ret ← fatFscacheread (vol.fatsector fatoffset)
  if ret < 0 then return ()
  else
    modifyFs fun fs => { fs with
      buffer := Function.update fs.buffer fatindex
        (FatMountpt.fat12First clusterno nextcluster (fs.buffer fatindex)) }
    modifyFs fun fs => if vol.hwsectorsize ≤ fatindex + 1 then { fs with dirty := true } else fs
    let next ← nextByte (vol.fatsector fatoffset) fatindex
    if next.1 < 0 then return ()
    else
      modifyFs fun fs => { fs with
        buffer := Function.update fs.buffer next.2
          (FatMountpt.fat12Second clusterno nextcluster (fs.buffer next.2)) }

/-- The part of `fat_putcluster` for an entry of `fat16` or `fat32`, which `put` sets. -/
def putEntry (fatoffset : ℕ) (put : (ℕ → UInt8) → ℕ → ℕ → UInt8) : FatM vol Unit := do
  let ret ← fatFscacheread (vol.fatsector fatoffset)
  if ret < 0 then return ()
  else modifyFs fun fs => { fs with buffer := put fs.buffer (vol.fatindex fatoffset) }

/-- `fat_putcluster`. A sector that cannot be read is not an error of its own: the buffer is marked
as dirty, and the function succeeds. -/
def fatPutcluster (clusterno nextcluster : ℕ) : FatM vol ℤ := do
  if clusterno = 0 ∨ (2 ≤ clusterno ∧ clusterno < vol.nclusters) then
    match vol.type with
    | .fat12 => fatPutcluster12 clusterno nextcluster
    | .fat16 => putEntry (2 * clusterno) fun p i => fatPutfat16 p i (nextcluster &&& 0xffff)
    | .fat32 => putEntry (4 * clusterno) fun p i => fatPutfat32 p i (nextcluster &&& 0x0fffffff)
    modifyFs fun fs => { fs with dirty := true }
    return 0
  else return -eINVAL

/-- The end of `fat_extendchain`, once a free cluster has been found. -/
def linkCluster (cluster newcluster : ℕ) : FatM vol ℤ :=
  check (fatPutcluster newcluster 0x0fffffff) (check
    (if cluster ≠ 0 then fatPutcluster cluster newcluster else return 0) (do
      modifyFs fun fs =>
        FatMountpt.countTaken { fs with fsinextfree := UInt32.ofNat newcluster }
      return newcluster))

/-- The loop of `fat_extendchain` that looks for a free cluster after `newcluster`. -/
def extendLoop (cluster startcluster newcluster : ℕ) : ℕ → FatM vol ℤ
  | 0 => fun _ => none
  | fuel + 1 => do
    if vol.nclusters ≤ newcluster + 1 ∧ startcluster < 2 then return 0
    else
      let candidate := if vol.nclusters ≤ newcluster + 1 then 2 else newcluster + 1
      let start ← fatGetcluster candidate
      if start = 0 then linkCluster cluster candidate
      else if start < 0 then return start
      else if candidate = startcluster then return 0
      else extendLoop cluster startcluster candidate fuel

def fatExtendchain (cluster : ℕ) : FatM vol ℤ := do
  if cluster = 0 then
    let fs ← getFs
    let start := if fs.fsinextfree = 0 ∨ vol.nclusters ≤ fs.fsinextfree.toNat then 1
      else fs.fsinextfree.toNat
    extendLoop 0 start start (vol.nclusters + 1)
  else
    let next ← fatGetcluster cluster
    if next < 0 then return next
    else if next < 2 then return 0
    else if next < vol.nclusters then return next
    else extendLoop cluster cluster cluster (vol.nclusters + 1)

def fatCreatechain : FatM vol ℤ := fatExtendchain 0

/-! ### The buffer of the file -/

def fatFfcacheflush : FatM vol ℤ := do
  let ff ← getFf
  if ff.cachesector ≠ 0 ∧ ff.bflags ≠ 0 then
    check (fatHwwrite ff.buffer ff.cachesector 1) (do
      modifyFf fun ff => { ff with bflags := ff.bflags &&& 0xfd }
      return 0)
  else return 0

def fatFfcacheread (sector : ℤ) : FatM vol ℤ := do
  let ff ← getFf
  if ff.cachesector ≠ sector ∨ ff.bflags &&& 0x01 = 0 then
    check fatFfcacheflush (do
      let read ← fatHwread sector
      modifyFf fun ff => { ff with buffer := read.2 0 }
      if read.1 < 0 then return read.1
      else
        modifyFf fun ff => { ff with cachesector := sector, bflags := ff.bflags ||| 0x01 }
        return 0)
  else return 0

def fatFfcacheinvalidate : FatM vol ℤ := do
  let ff ← getFf
  if ff.bflags &&& 0x01 ≠ 0 then
    check fatFfcacheflush (do
      modifyFf fun ff => { ff with bflags := ff.bflags &&& 0xfe, cachesector := 0 }
      return 0)
  else return 0

def fatCurrentsector (position : ℤ) : FatM vol ℤ := do
  let ff ← getFf
  if position ≤ ff.size then
    modifyFf fun ff => { ff with
      currentsector :=
        offT (vol.fatCluster2sector ff.currentcluster + FatIo.sectoroffset vol position)
      sectorsincluster := (vol.fatsecperclus - FatIo.sectoroffset vol position) % 256 }
    return 0
  else return -eNOSPC

def sectorindex (vol : FatGeometry) (ff : FatFile) : ℕ := bits32 ff.pos &&& vol.secNdxmask

/-- A new current cluster. -/
def enterCluster (cluster : ℤ) : FatM vol Unit :=
  modifyFf fun ff => { ff with
    currentcluster := cluster.toNat
    sectorsincluster := vol.fatsecperclus
    currentsector := vol.fatCluster2sector cluster.toNat }

/-- The current sector is left if it ends with the bytes that have been transferred. -/
def leaveSector (full : Bool) : FatM vol Unit :=
  modifyFf fun ff =>
    if full then
      { ff with
        sectorsincluster := (ff.sectorsincluster + 255) % 256
        currentsector := offT (ff.currentsector + 1) }
    else ff

/-- Whole sectors are left. -/
def skipSectors (nsectors : ℕ) : FatM vol Unit :=
  modifyFf fun ff => { ff with
    sectorsincluster := ff.sectorsincluster - nsectors
    currentsector := offT (ff.currentsector + nsectors) }

def advance (n : ℕ) : FatM vol Unit :=
  modifyFf fun ff => { ff with pos := offT (ff.pos + n) }

/-! ### Reading -/

/-- One round of the loop of `fat_read`, before the position is moved: its status and the bytes. -/
def fetch (buflen : ℕ) : FatM vol (ℤ × List UInt8) := do
  let ff ← getFf
  let index := sectorindex vol ff
  if 0 < buflen / vol.hwsectorsize ∧ index = 0 then
    let nsectors := min (buflen / vol.hwsectorsize) ff.sectorsincluster
    let _ ← fatFfcacheinvalidate
    let read ← fatHwread ff.currentsector
    if read.1 < 0 then return (read.1, [])
    else
      skipSectors nsectors
      return (0, (List.range (nsectors * vol.hwsectorsize)).map fun i =>
        read.2 (i / vol.hwsectorsize) (i % vol.hwsectorsize))
  else
    let ret ← fatFfcacheread ff.currentsector
    if ret < 0 then return (ret, [])
    else
      leaveSector (vol.hwsectorsize - index ≤ buflen)
      let ff ← getFf
      return (0, (List.range (min (vol.hwsectorsize - index) buflen)).map fun i =>
        ff.buffer (index + i))

/-- The loop of `fat_read`. -/
def readLoop (buflen : ℕ) (userbuffer : List UInt8) : ℕ → FatM vol (List UInt8 × ℤ)
  | 0 => fun _ => none
  | fuel + 1 => do
    if buflen = 0 then return (userbuffer, offT userbuffer.length)
    else
      let round ← fetch buflen
      if round.1 < 0 then return (userbuffer, round.1)
      else
        advance round.2.length
        let ff ← getFf
        if ff.sectorsincluster < 1 then
          let cluster ← fatGetcluster ff.currentcluster
          if cluster < 2 ∨ vol.nclusters ≤ cluster then return (userbuffer ++ round.2, -eINVAL)
          else
            enterCluster cluster
            readLoop (buflen - round.2.length) (userbuffer ++ round.2) fuel
        else readLoop (buflen - round.2.length) (userbuffer ++ round.2) fuel

/-- `fat_read`. When the current sector is refused it returns with the semaphore. -/
def fatRead (buflen fuel : ℕ) : FatM vol (List UInt8 × ℤ) := do
  fatSemtake
  let ret ← fatCheckmount
  if ret ≠ 0 then giving (return ([], ret))
  else
    let ff ← getFf
    if ff.rdok = false then giving (return ([], -eACCES))
    else
      let buflen := min buflen (bits32 (ff.size - ff.pos))
      if ff.currentsector = 0 then
        let ret ← fatCurrentsector ff.pos
        if ret < 0 then return ([], ret) else giving (readLoop buflen [] fuel)
      else giving (readLoop buflen [] fuel)

/-! ### Writing -/

/-- The buffer is set up for the current sector. -/
def loadSector : FatM vol ℤ := do
  let ff ← getFf
  if ff.pos < ff.size ∨ sectorindex vol ff ≠ 0 then fatFfcacheread ff.currentsector
  else
    check fatFfcacheflush (do
      modifyFf fun ff => { ff with cachesector := ff.currentsector }
      return 0)

/-- One round of the loop of `fat_write`, before the position is moved: its status and the number of
bytes. -/
def transfer (userbuffer : ℕ → UInt8) (buflen : ℕ) : FatM vol (ℤ × ℕ) := do
  let ff ← getFf
  let index := sectorindex vol ff
  if 0 < buflen / vol.hwsectorsize ∧ index = 0 then
    let nsectors := min (buflen / vol.hwsectorsize) ff.sectorsincluster
    let _ ← fatFfcacheinvalidate
    let ret ← fatHwwrite userbuffer ff.currentsector nsectors
    if ret < 0 then return (ret, 0)
    else
      skipSectors nsectors
      modifyFf fun ff => { ff with bflags := ff.bflags ||| 0x04 }
      return (0, nsectors * vol.hwsectorsize)
  else
    let ret ← loadSector
    if ret < 0 then return (ret, 0)
    else
      let writesize := min (vol.hwsectorsize - index) buflen
      leaveSector (vol.hwsectorsize - index ≤ buflen)
      modifyFf fun ff => { ff with
        buffer := fun i => if index ≤ i ∧ i < index + writesize then userbuffer (i - index)
          else ff.buffer i
        bflags := ff.bflags ||| 0x07 }
      return (0, writesize)

/-- The loop of `fat_write`. -/
def writeLoop (userbuffer : ℕ → UInt8) (buflen byteswritten : ℕ) : ℕ → FatM vol ℤ
  | 0 => fun _ => none
  | fuel + 1 => do
    if buflen = 0 then
      modifyFf fun ff => if ff.size < ff.pos then { ff with size := ff.pos } else ff
      return offT byteswritten
    else
      let round ← transfer userbuffer buflen
      if round.1 < 0 then return round.1
      else
        advance round.2
        let ff ← getFf
        if ff.sectorsincluster < 1 then
          let cluster ← fatExtendchain ff.currentcluster
          if cluster < 0 then return cluster
          else if cluster < 2 ∨ vol.nclusters ≤ cluster then return -eNOSPC
          else
            enterCluster cluster
            writeLoop (fun i => userbuffer (i + round.2)) (buflen - round.2)
              (byteswritten + round.2) fuel
        else
          writeLoop (fun i => userbuffer (i + round.2)) (buflen - round.2)
            (byteswritten + round.2) fuel

/-- A chain for a file that has none. -/
def startChain : FatM vol Unit := do
  let ff ← getFf
  if ff.startcluster = 0 then
    let cluster ← fatCreatechain
    modifyFf fun ff => { ff with
      startcluster := cluster
      currentcluster := bits32 cluster
      sectorsincluster := vol.fatsecperclus }
  else return ()

/-- `fat_write`. When the current sector is refused it returns with the semaphore. -/
def fatWrite (userbuffer : ℕ → UInt8) (buflen fuel : ℕ) : FatM vol ℤ := do
  fatSemtake
  let ret ← fatCheckmount
  if ret ≠ 0 then giving (return ret)
  else
    let ff ← getFf
    if ff.wrok = false then giving (return -eACCES)
    else if (bits32 ff.size + buflen) % 0x100000000 < bits32 ff.size then giving (return -eFBIG)
    else if ff.currentsector = 0 then
      startChain
      let ret ← fatCurrentsector ff.pos
      if ret < 0 then return ret else giving (writeLoop userbuffer buflen 0 fuel)
    else giving (writeLoop userbuffer buflen 0 fuel)

/-! ### Seeking -/

/-- The next cluster in `fat_seek`. -/
def nextCluster (cluster : ℤ) : FatM vol ℤ := do
  let ff ← getFf
  if ff.wrok then fatExtendchain (bits32 cluster) else fatGetcluster (bits32 cluster)

/-- The loop of `fat_seek`. It ends with what is left of the position, or with an error. -/
def seekLoop (cluster position : ℤ) : ℕ → FatM vol (Except ℤ ℤ)
  | 0 => fun _ => none
  | fuel + 1 => do
    modifyFf fun ff => { ff with currentcluster := bits32 cluster }
    if bits32 position < FatIo.clustersize vol then return .ok position
    else
      let next ← nextCluster cluster
      if next < 0 then return .error next
      else if next = 0 then return .ok (FatIo.clustersize vol)
      else if vol.nclusters ≤ next then return .error (-eNOSPC)
      else
        modifyFf fun ff => { ff with pos := offT (ff.pos + FatIo.clustersize vol) }
        seekLoop next (offT (position - FatIo.clustersize vol)) fuel

/-- The end of `fat_seek`: the file has become longer. -/
def seekSize : FatM vol ℤ := do
  modifyFf fun ff =>
    if ff.wrok = true ∧ ff.size < ff.pos then
      { ff with size := ff.pos, bflags := ff.bflags ||| 0x04 }
    else ff
  return 0

/-- The part of `fat_seek` for a file that has a chain. -/
def seekFollow (cluster position : ℤ) (fuel : ℕ) : FatM vol ℤ := do
  match ← seekLoop cluster position fuel with
  | .error ret => return ret
  | .ok rest =>
    advance (bits32 rest)
    let ff ← getFf
    let _ ← fatCurrentsector ff.pos
    let ff ← getFf
    check (if bits32 rest &&& vol.secNdxmask ≠ 0 then fatFfcacheread ff.currentsector else return 0)
      seekSize

/-- `fat_seek` to a position, with the semaphore. -/
def seekTo (position : ℤ) (fuel : ℕ) : FatM vol ℤ := do
  check fatFfcacheflush (do
    let ff ← getFf
    let position := if ff.size < position ∧ ff.wrok = false then ff.size else position
    modifyFf fun ff => { ff with pos := 0, sectorsincluster := vol.fatsecperclus }
    if ff.startcluster = 0 ∧ 0 < position then
      let cluster ← fatCreatechain
      if cluster < 0 then return cluster
      else
        modifyFf fun ff => { ff with startcluster := cluster }
        if cluster = 0 then seekSize else seekFollow cluster position fuel
    else if ff.startcluster = 0 then seekSize
    else seekFollow ff.startcluster position fuel)

/-- The position that `fat_seek` is asked for. -/
def seekPosition (ff : FatFile) (offset : ℤ) : Whence → Option ℤ
  | .set => some offset
  | .cur => some (offT (offset + ff.pos))
  | .fromEnd => some (offT (offset + ff.size))
  | .other => none

def fatSeek (offset : ℤ) (whence : Whence) (fuel : ℕ) : FatM vol ℤ := do
  let ff ← getFf
  match seekPosition ff offset whence with
  | none => return -eINVAL
  | some position =>
    fatSemtake
    giving (do
      let ret ← fatCheckmount
      if ret ≠ 0 then return ret else seekTo position fuel)

/-! ### Synchronizing -/

/-- The image of the FSINFO sector. -/
def fsinfoSector (fs : FatMountpt vol) : ℕ → UInt8 :=
  fatPutfat32 (fatPutfat32 (fatPutfat32 (fatPutfat32 (fatPutfat32 (fun _ => 0)
    0 0x41615252) 484 0x61417272) 488 fs.fsifreecount.toNat) 492 fs.fsinextfree.toNat)
    508 0xaa550000

def fatUpdatefsinfo : FatM vol ℤ := do
  let ret ← fatFscacheflush
  if ret = 0 then
    let w ← get
    if vol.type = .fat32 ∧ w.fs.fsidirty = true then
      modifyFs fun fs => { fs with
        buffer := fsinfoSector fs
        currentsector := w.fsinfo
        dirty := true }
      let ret ← fatFscacheflush
      modifyFs fun fs => { fs with fsidirty := false }
      return ret
    else return ret
  else return ret

/-- The directory entry of the file is brought up to date in the buffer of the volume. Without
`CONFIG_FS_FATTIME` there is no time to write. -/
def updateEntry (p : ℕ → UInt8) (ff : FatFile) (entry : ℕ) : ℕ → UInt8 :=
  let p₁ := Function.update p (entry + 11) (p (entry + 11) ||| 0x20)
  let p₂ := fatPutfat32 p₁ (entry + 28) (bits32 ff.size)
  let p₃ := fatPutfat16 p₂ (entry + 26) (bits32 ff.startcluster % 0x10000)
  let p₄ := fatPutfat16 p₃ (entry + 20) (bits32 (ff.startcluster / 0x10000) % 0x10000)
  fatPutfat16 (fatPutfat16 p₄ (entry + 22) 0) (entry + 24) 0

def fatSync : FatM vol ℤ := do
  fatSemtake
  giving (do
    let ret ← fatCheckmount
    if ret ≠ 0 then return ret
    else
      let ff ← getFf
      if ff.bflags &&& 0x04 ≠ 0 then
        check fatFfcacheflush (do
          let w ← get
          check (fatFscacheread w.dirsector) (do
            let entry := (w.dirindex &&& (vol.hwsectorsize - 1) >>> 5) * 32
            let ff ← getFf
            modifyFs fun fs => { fs with buffer := updateEntry fs.buffer ff entry }
            modifyFf fun ff => { ff with bflags := ff.bflags &&& 0xfb }
            modifyFs fun fs => { fs with dirty := true }
            fatUpdatefsinfo))
      else return ret)

end FatM

end NuttX
