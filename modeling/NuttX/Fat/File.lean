import NuttX.Fat.Chains

/-!
# Reading and writing a file on a FAT volume

An open file has a buffer of one sector of its own and remembers a current cluster and a current
sector. `fat_write` writes whole sectors directly and parts of sectors through the buffer, and
goes on to the next cluster of the chain, or to a new one, when a cluster is full; `fat_read`
reads in the same way, but goes on to the next cluster also when there is nothing left to read.
`fat_seek` follows the chain from its start, and makes it longer where it ends too early.

The functions of this module note what they do: `NuttX.FatIo.log` has an entry for every data sector
that is handed to `fat_hwwrite` and for every sector that becomes the one in the buffer of the file,
with the table and the start of the file's chain at that moment.
-/

namespace NuttX

def eACCES : ℤ := 13

def eFBIG : ℤ := 27

/-- An open file, with its position. -/
structure FatFile where
  bflags : UInt8
  rdok : Bool
  wrok : Bool
  sectorsincluster : ℕ
  currentcluster : ℕ
  size : ℤ
  startcluster : ℤ
  currentsector : ℤ
  cachesector : ℤ
  buffer : ℕ → UInt8
  pos : ℤ

/-- Some sectors are written or become the ones in the buffer. -/
structure FatEvent where
  link : ℕ → ℕ
  start : ℤ
  sector : ℤ
  nsectors : ℕ

/-- A mounted volume, a file that is open on it, and what has been done with its sectors. -/
structure FatIo (vol : FatGeometry) where
  fs : FatMountpt vol
  ff : FatFile
  locked : Bool
  log : List FatEvent

/-- `SEEK_SET`, `SEEK_CUR`, `SEEK_END` and the other values. -/
inductive Whence
  | set
  | cur
  | fromEnd
  | other
  deriving DecidableEq, Repr

def FatGeometry.clusNdxmask (vol : FatGeometry) : ℕ := vol.fatsecperclus - 1

namespace FatIo

variable {vol : FatGeometry}

/-! ### The buffer of the file -/

/-- An entry for the log. -/
def note (io : FatIo vol) (sector : ℤ) (nsectors : ℕ) : FatIo vol :=
  { io with log := io.log ++ [⟨io.fs.link, io.ff.startcluster, sector, nsectors⟩] }

/-- `fat_hwwrite` of data of the file. -/
def hwwrite (io : FatIo vol) (buffer : ℕ → UInt8) (sector : ℤ) (nsectors : ℕ) : FatIo vol :=
  { io.note sector nsectors with fs := io.fs.fatHwwrite buffer sector nsectors }

/-- A sector becomes the one in the buffer. -/
def setCachesector (io : FatIo vol) (sector : ℤ) : FatIo vol :=
  { io.note sector 1 with ff := { io.ff with cachesector := sector } }

/-- `fat_ffcacheflush`. The condition of the source compares two constants, and so a buffer that has
any flag is written. -/
def fatFfcacheflush (io : FatIo vol) : FatIo vol :=
  if io.ff.cachesector ≠ 0 ∧ io.ff.bflags ≠ 0 then
    { io.hwwrite io.ff.buffer io.ff.cachesector 1 with
      ff := { io.ff with bflags := io.ff.bflags &&& 0xfd } }
  else io

/-- The end of `fat_ffcacheread`: the sector is read. -/
def readSector (io : FatIo vol) (sector : ℤ) : FatIo vol :=
  { io.setCachesector sector with
    ff := { io.ff with
      buffer := io.fs.dev sector
      cachesector := sector
      bflags := io.ff.bflags ||| 0x01 } }

def fatFfcacheread (io : FatIo vol) (sector : ℤ) : FatIo vol :=
  if io.ff.cachesector ≠ sector ∨ io.ff.bflags &&& 0x01 = 0 then
    io.fatFfcacheflush.readSector sector
  else io

def fatFfcacheinvalidate (io : FatIo vol) : FatIo vol :=
  if io.ff.bflags &&& 0x01 ≠ 0 then
    { io.fatFfcacheflush with
      ff := { io.fatFfcacheflush.ff with
        bflags := io.fatFfcacheflush.ff.bflags &&& 0xfe
        cachesector := 0 } }
  else io

/-! ### The current sector -/

/-- The sector of a position in its cluster. The division of the source is that of signed
numbers. -/
def sectoroffset (vol : FatGeometry) (position : ℤ) : ℕ :=
  bits32 (Int.tdiv position vol.hwsectorsize) &&& vol.clusNdxmask

def fatCurrentsector (io : FatIo vol) (position : ℤ) : FatIo vol × ℤ :=
  if position ≤ io.ff.size then
    ({ io with ff := { io.ff with
      currentsector :=
        offT (vol.fatCluster2sector io.ff.currentcluster + sectoroffset vol position)
      sectorsincluster := (vol.fatsecperclus - sectoroffset vol position) % 256 } }, 0)
  else (io, -eNOSPC)

def sectorindex (io : FatIo vol) : ℕ := bits32 io.ff.pos &&& vol.secNdxmask

/-! ### Writing -/

/-- The branch of `fat_write` for whole sectors: they are written from the user's buffer. -/
def writeSectors (io : FatIo vol) (userbuffer : ℕ → UInt8) (nsectors : ℕ) : FatIo vol :=
  { io.fatFfcacheinvalidate.hwwrite userbuffer io.ff.currentsector nsectors with
    ff := { io.fatFfcacheinvalidate.ff with
      sectorsincluster := io.ff.sectorsincluster - nsectors
      currentsector := offT (io.ff.currentsector + nsectors)
      bflags := io.fatFfcacheinvalidate.ff.bflags ||| 0x04 } }

/-- The buffer is set up for the current sector. It need not be read when the file is extended at
the beginning of a sector. -/
def loadSector (io : FatIo vol) : FatIo vol :=
  if io.ff.pos < io.ff.size ∨ io.sectorindex ≠ 0 then io.fatFfcacheread io.ff.currentsector
  else io.fatFfcacheflush.setCachesector io.ff.currentsector

/-- The branch of `fat_write` for a part of a sector: `writesize` bytes go into the buffer, and the
current sector is left if it ends there. -/
def writePart (io : FatIo vol) (userbuffer : ℕ → UInt8) (buflen : ℕ) : FatIo vol :=
  let loaded := io.loadSector
  let writesize := min (vol.hwsectorsize - io.sectorindex) buflen
  let full := vol.hwsectorsize - io.sectorindex ≤ buflen
  { loaded with ff := { loaded.ff with
    sectorsincluster := if full then (loaded.ff.sectorsincluster + 255) % 256
      else loaded.ff.sectorsincluster
    currentsector := if full then offT (loaded.ff.currentsector + 1) else loaded.ff.currentsector
    buffer := fun i => if io.sectorindex ≤ i ∧ i < io.sectorindex + writesize then
        userbuffer (i - io.sectorindex)
      else loaded.ff.buffer i
    bflags := loaded.ff.bflags ||| 0x07 } }

/-- The sectors that are written at a time: not more than the cluster has. -/
def nsectors (io : FatIo vol) (buflen : ℕ) : ℕ :=
  min (buflen / vol.hwsectorsize) io.ff.sectorsincluster

/-- One round of the loop of `fat_write`, before the position is moved, and the number of bytes. -/
def transfer (io : FatIo vol) (userbuffer : ℕ → UInt8) (buflen : ℕ) : FatIo vol × ℕ :=
  if 0 < buflen / vol.hwsectorsize ∧ io.sectorindex = 0 then
    (io.writeSectors userbuffer (io.nsectors buflen), io.nsectors buflen * vol.hwsectorsize)
  else (io.writePart userbuffer buflen, min (vol.hwsectorsize - io.sectorindex) buflen)

def advance (io : FatIo vol) (writesize : ℕ) : FatIo vol :=
  { io with ff := { io.ff with pos := offT (io.ff.pos + writesize) } }

/-- A new current cluster. -/
def enterCluster (io : FatIo vol) (fs : FatMountpt vol) (cluster : ℤ) : FatIo vol :=
  { io with
    fs := fs
    ff := { io.ff with
      currentcluster := cluster.toNat
      sectorsincluster := vol.fatsecperclus
      currentsector := vol.fatCluster2sector cluster.toNat } }

/-- The end of `fat_write`: the size of the file is brought up to date. -/
def updateSize (io : FatIo vol) : FatIo vol :=
  if io.ff.size < io.ff.pos then { io with ff := { io.ff with size := io.ff.pos } } else io

/-- The loop of `fat_write`. -/
def writeLoop (io : FatIo vol) (userbuffer : ℕ → UInt8) (buflen byteswritten : ℕ) :
    ℕ → Option (FatIo vol × ℤ)
  | 0 => none
  | fuel + 1 =>
    if buflen = 0 then some (io.updateSize, offT byteswritten)
    else
      let writesize := (io.transfer userbuffer buflen).2
      let io₁ := (io.transfer userbuffer buflen).1.advance writesize
      if io₁.ff.sectorsincluster < 1 then
        match io₁.fs.fatExtendchain io₁.ff.currentcluster with
        | none => none
        | some (fs, cluster) =>
          if cluster < 0 then some ({ io₁ with fs := fs }, cluster)
          else if cluster < 2 ∨ vol.nclusters ≤ cluster then some ({ io₁ with fs := fs }, -eNOSPC)
          else
            writeLoop (io₁.enterCluster fs cluster) (fun i => userbuffer (i + writesize))
              (buflen - writesize) (byteswritten + writesize) fuel
      else
        writeLoop io₁ (fun i => userbuffer (i + writesize)) (buflen - writesize)
          (byteswritten + writesize) fuel

/-- A chain for a file that has none. What `fat_createchain` returns is not looked at. -/
def startChain (io : FatIo vol) : Option (FatIo vol) :=
  if io.ff.startcluster = 0 then
    match io.fs.fatCreatechain with
    | none => none
    | some (fs, cluster) =>
      some { io with
        fs := fs
        ff := { io.ff with
          startcluster := cluster
          currentcluster := bits32 cluster
          sectorsincluster := vol.fatsecperclus } }
  else some io

/-- `fat_write`, without `fat_checkmount`. When the current sector is refused it returns with the
semaphore. -/
def fatWrite (io : FatIo vol) (userbuffer : ℕ → UInt8) (buflen : ℕ) : Option (FatIo vol × ℤ) :=
  if io.ff.wrok = false then some (io, -eACCES)
  else if (bits32 io.ff.size + buflen) % 0x100000000 < bits32 io.ff.size then some (io, -eFBIG)
  else if io.ff.currentsector = 0 then
    match io.startChain with
    | none => none
    | some io₁ =>
      let current := io₁.fatCurrentsector io₁.ff.pos
      if current.2 < 0 then some ({ current.1 with locked := true }, current.2)
      else current.1.writeLoop userbuffer buflen 0 (buflen + 2)
  else io.writeLoop userbuffer buflen 0 (buflen + 2)

/-! ### Reading -/

/-- The bytes that `fat_hwread` finds in some sectors. -/
def hwBytes (io : FatIo vol) (sector : ℤ) (nsectors : ℕ) : List UInt8 :=
  (List.range (nsectors * vol.hwsectorsize)).map fun i =>
    io.fs.dev (sector + (i / vol.hwsectorsize : ℕ)) (i % vol.hwsectorsize)

/-- The branch of `fat_read` for whole sectors: they are read into the user's buffer. -/
def readSectors (io : FatIo vol) (nsectors : ℕ) : FatIo vol :=
  { io.fatFfcacheinvalidate with
    ff := { io.fatFfcacheinvalidate.ff with
      sectorsincluster := io.ff.sectorsincluster - nsectors
      currentsector := offT (io.ff.currentsector + nsectors) } }

/-- The branch of `fat_read` for a part of a sector: it is copied from the buffer of the file, and
the current sector is left if it ends there. -/
def readPart (io : FatIo vol) (buflen : ℕ) : FatIo vol :=
  let loaded := io.fatFfcacheread io.ff.currentsector
  let full := vol.hwsectorsize - io.sectorindex ≤ buflen
  { loaded with ff := { loaded.ff with
    sectorsincluster := if full then (loaded.ff.sectorsincluster + 255) % 256
      else loaded.ff.sectorsincluster
    currentsector :=
      if full then offT (loaded.ff.currentsector + 1) else loaded.ff.currentsector } }

/-- One round of the loop of `fat_read`, before the position is moved, and the bytes. -/
def fetch (io : FatIo vol) (buflen : ℕ) : FatIo vol × List UInt8 :=
  if 0 < buflen / vol.hwsectorsize ∧ io.sectorindex = 0 then
    (io.readSectors (io.nsectors buflen),
      io.fatFfcacheinvalidate.hwBytes io.ff.currentsector (io.nsectors buflen))
  else
    (io.readPart buflen,
      (List.range (min (vol.hwsectorsize - io.sectorindex) buflen)).map fun i =>
        (io.fatFfcacheread io.ff.currentsector).ff.buffer (io.sectorindex + i))

/-- The loop of `fat_read`, with what is in the user's buffer; `readsize` is its length. -/
def readLoop (io : FatIo vol) (buflen : ℕ) (userbuffer : List UInt8) :
    ℕ → Option (FatIo vol × List UInt8 × ℤ)
  | 0 => none
  | fuel + 1 =>
    if buflen = 0 then some (io, userbuffer, offT userbuffer.length)
    else
      let bytes := (io.fetch buflen).2
      let io₁ := (io.fetch buflen).1.advance bytes.length
      if io₁.ff.sectorsincluster < 1 then
        let next := io₁.fs.fatGetcluster io₁.ff.currentcluster
        if next.2 < 2 ∨ vol.nclusters ≤ next.2 then
          some ({ io₁ with fs := next.1 }, userbuffer ++ bytes, -eINVAL)
        else
          readLoop (io₁.enterCluster next.1 next.2) (buflen - bytes.length)
            (userbuffer ++ bytes) fuel
      else readLoop io₁ (buflen - bytes.length) (userbuffer ++ bytes) fuel

/-- `fat_read`, without `fat_checkmount`. When the current sector is refused it returns with the
semaphore. -/
def fatRead (io : FatIo vol) (buflen : ℕ) : Option (FatIo vol × List UInt8 × ℤ) :=
  if io.ff.rdok = false then some (io, [], -eACCES)
  else
    let buflen := min buflen (bits32 (io.ff.size - io.ff.pos))
    if io.ff.currentsector = 0 then
      let current := io.fatCurrentsector io.ff.pos
      if current.2 < 0 then some ({ current.1 with locked := true }, [], current.2)
      else current.1.readLoop buflen [] (buflen + 2)
    else io.readLoop buflen [] (buflen + 2)

/-! ### Seeking -/

def clustersize (vol : FatGeometry) : ℕ := vol.fatsecperclus * vol.hwsectorsize

/-- The position that `fat_seek` is asked for. -/
def seekPosition (io : FatIo vol) (offset : ℤ) : Whence → Option ℤ
  | .set => some offset
  | .cur => some (offT (offset + io.ff.pos))
  | .fromEnd => some (offT (offset + io.ff.size))
  | .other => none

/-- The next cluster in `fat_seek`: a file that is open for writing gets a longer chain. -/
def nextCluster (io : FatIo vol) (cluster : ℤ) : Option (FatMountpt vol × ℤ) :=
  if io.ff.wrok then io.fs.fatExtendchain (bits32 cluster)
  else some (io.fs.fatGetcluster (bits32 cluster))

/-- The loop of `fat_seek` over the clusters before the position. It ends with what is left of the
position, or with an error. -/
def seekLoop (io : FatIo vol) (cluster position : ℤ) : ℕ → Option (FatIo vol × Except ℤ ℤ)
  | 0 => none
  | fuel + 1 =>
    let io₁ : FatIo vol := { io with ff := { io.ff with currentcluster := bits32 cluster } }
    if bits32 position < clustersize vol then some (io₁, .ok position)
    else
      match io₁.nextCluster cluster with
      | none => none
      | some (fs, next) =>
        if next < 0 then some ({ io₁ with fs := fs }, .error next)
        else if next = 0 then some ({ io₁ with fs := fs }, .ok (clustersize vol))
        else if vol.nclusters ≤ next then some ({ io₁ with fs := fs }, .error (-eNOSPC))
        else
          seekLoop { io₁ with
            fs := fs
            ff := { io₁.ff with pos := offT (io₁.ff.pos + clustersize vol) } }
            next (offT (position - clustersize vol)) fuel

/-- The part of `fat_seek` after the loop. -/
def seekSector (io : FatIo vol) (position : ℤ) : FatIo vol :=
  let io₁ : FatIo vol := { io with ff := { io.ff with pos := offT (io.ff.pos + position) } }
  let io₂ := (io₁.fatCurrentsector io₁.ff.pos).1
  if bits32 position &&& vol.secNdxmask ≠ 0 then io₂.fatFfcacheread io₂.ff.currentsector else io₂

/-- The end of `fat_seek`: the file has become longer. -/
def seekSize (io : FatIo vol) : FatIo vol :=
  if io.ff.wrok = true ∧ io.ff.size < io.ff.pos then
    { io with ff := { io.ff with size := io.ff.pos, bflags := io.ff.bflags ||| 0x04 } }
  else io

/-- The chain for `fat_seek`, and its first cluster or an error. -/
def seekChain (io : FatIo vol) (position : ℤ) : Option (FatIo vol × Except ℤ ℤ) :=
  if io.ff.startcluster = 0 ∧ 0 < position then
    match io.fs.fatCreatechain with
    | none => none
    | some (fs, cluster) =>
      if cluster < 0 then some ({ io with fs := fs }, .error cluster)
      else some ({ io with fs := fs, ff := { io.ff with startcluster := cluster } }, .ok cluster)
  else some (io, .ok io.ff.startcluster)

/-- The part of `fat_seek` for a file that has a chain. -/
def seekFollow (io : FatIo vol) (cluster position : ℤ) : Option (FatIo vol × ℤ) :=
  match io.seekLoop cluster position (bits32 position / clustersize vol + 1) with
  | none => none
  | some (io₁, .error ret) => some (io₁, ret)
  | some (io₁, .ok rest) => some ((io₁.seekSector rest).seekSize, 0)

/-- `fat_seek` to a position, once the buffer has been flushed. -/
def seekTo (io : FatIo vol) (position : ℤ) : Option (FatIo vol × ℤ) :=
  match seekChain { io with
    ff := { io.ff with pos := 0, sectorsincluster := vol.fatsecperclus } } position with
  | none => none
  | some (io₁, .error ret) => some (io₁, ret)
  | some (io₁, .ok cluster) =>
    if cluster = 0 then some (io₁.seekSize, 0)
    else io₁.seekFollow cluster position

/-- `fat_seek`, without `fat_checkmount`. -/
def fatSeek (io : FatIo vol) (offset : ℤ) (whence : Whence) : Option (FatIo vol × ℤ) :=
  match io.seekPosition offset whence with
  | none => some (io, -eINVAL)
  | some position =>
    io.fatFfcacheflush.seekTo
      (if io.ff.size < position ∧ io.ff.wrok = false then io.ff.size else position)

end FatIo

end NuttX
