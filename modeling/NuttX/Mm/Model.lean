import Mathlib

/-!
# The memory manager

The model of `mm/`, in the default configuration of a 32 bit machine: a chunk has a header of eight
bytes, its size and the size of the chunk before it, and bit 31 of the latter says that the chunk is
allocated; a free chunk also holds the two pointers of a doubly linked list, and so needs 16 bytes.
The list is sorted into 19 buckets by size. It runs through the elements of the array `g_nodelist`,
which stand in it as nodes of size zero where the buckets begin.

Memory is a function from addresses to words, and the functions of the source are functions from
memory to memory. `none` is what a loop gives that does not come to its end. The sizes that a caller
asks for are 32 bit numbers and wrap; pointers, and the sums of sizes of chunks that lie side by
side, are numbers.
-/

namespace NuttX

open Function

/-! ### Memory -/

/-- The words in memory, by their addresses. -/
abbrev MmMem := ℕ → ℕ

namespace MmMem

def size (m : MmMem) (node : ℕ) : ℕ := m node

def preceding (m : MmMem) (node : ℕ) : ℕ := m (node + 4)

def flink (m : MmMem) (node : ℕ) : ℕ := m (node + 8)

def blink (m : MmMem) (node : ℕ) : ℕ := m (node + 12)

def setSize (m : MmMem) (node v : ℕ) : MmMem := update m node v

def setPreceding (m : MmMem) (node v : ℕ) : MmMem := update m (node + 4) v

def setFlink (m : MmMem) (node v : ℕ) : MmMem := update m (node + 8) v

def setBlink (m : MmMem) (node v : ℕ) : MmMem := update m (node + 12) v

/-- `memcpy` of whole words, from an address to a lower one or to somewhere else. -/
def memcpy (m : MmMem) (dest src n : ℕ) : MmMem :=
  fun a => if dest ≤ a ∧ a < dest + n then m (src + (a - dest)) else m a

end MmMem

/-! ### Constants (`mm_internal.h`) -/

/-- Arithmetic of `size_t`. -/
def wrap32 (n : ℕ) : ℕ := n % 0x100000000

/-- Subtraction of `size_t`. -/
def wrapSub (a b : ℕ) : ℕ := wrap32 (a + 0x100000000 - b)

def mmAllocBit : ℕ := 0x80000000

def mmSizeMask : ℕ := 0x7fffffff

def sizeofAllocnode : ℕ := 8

def sizeofFreenode : ℕ := 16

def mmMinChunk : ℕ := 16

def mmMaxChunk : ℕ := 0x400000

def mmNnodes : ℕ := 19

def mmAlignUp (a : ℕ) : ℕ := wrap32 (a + 15) &&& 0xfffffff0

def mmAlignDown (a : ℕ) : ℕ := a &&& 0xfffffff0

/-- More than any list of nodes has elements. -/
def mmRounds : ℕ := 0x100000000

/-! ### The list of free chunks -/

/-- `&g_nodelist[ndx]`, for an array that lies at `nodelist`. -/
def nodeHook (nodelist ndx : ℕ) : ℕ := nodelist + 16 * ndx

/-- The loop of `mm_size2ndx`: how often the size can be halved until it is at most 1. -/
def size2ndxLoop : ℕ → ℕ → ℕ → ℕ
  | 0, ndx, _ => ndx
  | rounds + 1, ndx, size =>
    if 1 < size then size2ndxLoop rounds (ndx + 1) (size >>> 1) else ndx

def mmSize2ndx (size : ℕ) : ℕ :=
  if mmMaxChunk ≤ size then mmNnodes - 1 else size2ndxLoop 32 0 (size >>> 4)

/-- The removal of a node from the list, which is written out wherever it is needed. -/
def mmUnlink (m : MmMem) (node : ℕ) : MmMem :=
  let m := m.setFlink (m.blink node) (m.flink node)
  if m.flink node ≠ 0 then m.setBlink (m.flink node) (m.blink node) else m

/-- The loop of `mm_addfreechunk`: the two nodes that a chunk of the given size goes between. -/
def findSpot (m : MmMem) (size : ℕ) : ℕ → ℕ → ℕ → Option (ℕ × ℕ)
  | 0, _, _ => none
  | rounds + 1, prev, next =>
    if next ≠ 0 ∧ m.size next ≠ 0 ∧ m.size next < size then
      findSpot m size rounds next (m.flink next)
    else some (prev, next)

def mmAddfreechunk (nodelist : ℕ) (m : MmMem) (node : ℕ) : Option MmMem := do
  let hook := nodeHook nodelist (mmSize2ndx (m.size node))
  let (prev, next) ← findSpot m (m.size node) mmRounds hook (m.flink hook)
  let m := m.setFlink prev node
  let m := m.setBlink node prev
  let m := m.setFlink node next
  return if next ≠ 0 then m.setBlink next node else m

/-! ### `malloc` -/

/-- The loop of `malloc`: the first node that is large enough, or 0. -/
def findFit (m : MmMem) (size : ℕ) : ℕ → ℕ → Option ℕ
  | 0, _ => none
  | rounds + 1, node =>
    if node ≠ 0 ∧ m.size node < size then findFit m size rounds (m.flink node) else some node

/-- `malloc` cuts a chunk that has been taken off the list, if enough remains. -/
def splitChunk (nodelist : ℕ) (m : MmMem) (node size : ℕ) : Option MmMem :=
  let remaining := m.size node - size
  if sizeofFreenode ≤ remaining then
    let next := node + m.size node
    let remainder := node + size
    let m := m.setSize remainder remaining
    let m := m.setPreceding remainder size
    let m := m.setSize node size
    let m := m.setPreceding next (remaining ||| (m.preceding next &&& mmAllocBit))
    mmAddfreechunk nodelist m remainder
  else some m

/-- `malloc` while it holds the semaphore, for a size that has been rounded. -/
def mallocChunk (nodelist : ℕ) (m : MmMem) (size : ℕ) : Option (MmMem × ℕ) := do
  let ndx := if mmMaxChunk ≤ size then mmNnodes - 1 else mmSize2ndx size
  let node ← findFit m size mmRounds (m.flink (nodeHook nodelist ndx))
  if node ≠ 0 then
    let m ← splitChunk nodelist (mmUnlink m node) node size
    return (m.setPreceding node (m.preceding node ||| mmAllocBit), node + sizeofAllocnode)
  else return (m, 0)

/-- The size of a chunk with room for `size` bytes. -/
def chunkSize (size : ℕ) : ℕ := mmAlignUp (wrap32 (size + sizeofAllocnode))

def mmMalloc (nodelist : ℕ) (m : MmMem) (size : ℕ) : Option (MmMem × ℕ) :=
  if size = 0 then some (m, 0) else mallocChunk nodelist m (chunkSize size)

/-! ### `free` -/

/-- `free` merges the next chunk, if it is free: the memory, and the chunk that now comes next. -/
def mergeNext (m : MmMem) (node : ℕ) : MmMem × ℕ :=
  let next := node + m.size node
  if m.preceding next &&& mmAllocBit = 0 then
    let andbeyond := next + m.size next
    let m := mmUnlink m next
    let m := m.setSize node (m.size node + m.size next)
    let m := m.setPreceding andbeyond (m.size node ||| (m.preceding andbeyond &&& mmAllocBit))
    (m, andbeyond)
  else (m, next)

/-- `free` merges the chunk into the previous one, if that is free: the memory, and the chunk. -/
def mergePrev (m : MmMem) (node next : ℕ) : MmMem × ℕ :=
  let prev := node - m.preceding node
  if m.preceding prev &&& mmAllocBit = 0 then
    let m := mmUnlink m prev
    let m := m.setSize prev (m.size prev + m.size node)
    let m := m.setPreceding next (m.size prev ||| (m.preceding next &&& mmAllocBit))
    (m, prev)
  else (m, node)

/-- `free`. -/
def mmFree (nodelist : ℕ) (m : MmMem) (mem : ℕ) : Option MmMem :=
  if mem = 0 then some m
  else
    let node := mem - sizeofAllocnode
    let m := m.setPreceding node (m.preceding node &&& mmSizeMask)
    let (m, next) := mergeNext m node
    let (m, node) := mergePrev m node next
    mmAddfreechunk nodelist m node

/-! ### `realloc` -/

def mmShrinkchunk (nodelist : ℕ) (m : MmMem) (node size : ℕ) : Option MmMem :=
  let next := node + m.size node
  if m.preceding next &&& mmAllocBit = 0 then
    let andbeyond := next + m.size next
    let m := mmUnlink m next
    let newnode := node + size
    let m := m.setSize newnode (m.size next + m.size node - size)
    let m := m.setPreceding newnode size
    let m := m.setSize node size
    let m := m.setPreceding andbeyond (m.size newnode ||| (m.preceding andbeyond &&& mmAllocBit))
    mmAddfreechunk nodelist m newnode
  else if size + sizeofFreenode ≤ m.size node then
    let newnode := node + size
    let m := m.setSize newnode (m.size node - size)
    let m := m.setPreceding newnode size
    let m := m.setSize node size
    let m := m.setPreceding next (m.size newnode ||| mmAllocBit)
    mmAddfreechunk nodelist m newnode
  else some m

/-- How much `realloc` takes from the previous and from the next chunk, whose sizes are zero if they
are not free. -/
def reallocTakes (needed prevsize nextsize : ℕ) : ℕ × ℕ :=
  if 0 < prevsize ∧ (prevsize ≤ nextsize ∨ nextsize = 0) then
    if prevsize < needed then (prevsize, needed - prevsize) else (needed, 0)
  else if 0 < nextsize ∧ needed ≠ 0 then
    if nextsize < needed then (needed - nextsize, nextsize) else (0, needed)
  else (0, 0)

/-- `realloc` extends a chunk into the previous one: the memory and the chunk. -/
def extendPrev (nodelist : ℕ) (m : MmMem) (oldnode prev next takeprev : ℕ) :
    Option (MmMem × ℕ) := do
  let oldsize := m.size oldnode
  let prevsize := m.size prev
  let m := mmUnlink m prev
  let newnode := oldnode - takeprev
  let m ←
    if takeprev < prevsize then
      let m := m.setSize prev (m.size prev - takeprev)
      let m := m.setSize newnode (oldsize + takeprev)
      let m := m.setPreceding newnode (m.size prev ||| mmAllocBit)
      let m := m.setPreceding next (m.size newnode ||| (m.preceding next &&& mmAllocBit))
      mmAddfreechunk nodelist m prev
    else
      let m := m.setSize newnode (m.size newnode + oldsize)
      let m := m.setPreceding newnode (m.preceding newnode ||| mmAllocBit)
      some (m.setPreceding next (m.size newnode ||| (m.preceding next &&& mmAllocBit)))
  let newmem := newnode + sizeofAllocnode
  return (m.memcpy newmem (oldnode + sizeofAllocnode) (m.size newnode - sizeofAllocnode), newnode)

/-- `realloc` extends a chunk into the next one. -/
def extendNext (nodelist : ℕ) (m : MmMem) (oldnode next takenext : ℕ) : Option MmMem :=
  let oldsize := m.size oldnode
  let nextsize := m.size next
  let andbeyond := next + nextsize
  let m := mmUnlink m next
  let m := m.setSize oldnode (oldsize + takenext)
  let newnode := oldnode + m.size oldnode
  if takenext < nextsize then
    let m := m.setSize newnode (nextsize - takenext)
    let m := m.setPreceding newnode (m.size oldnode)
    let m := m.setPreceding andbeyond (m.size newnode ||| (m.preceding andbeyond &&& mmAllocBit))
    mmAddfreechunk nodelist m newnode
  else
    some (m.setPreceding andbeyond (m.size oldnode ||| (m.preceding andbeyond &&& mmAllocBit)))

/-- `realloc` while it holds the semaphore, for a size that has been rounded: the memory, and the
address that it returns, or `none` if the chunk cannot be extended where it is. -/
def reallocChunk (nodelist : ℕ) (m : MmMem) (oldmem size : ℕ) : Option (MmMem × Option ℕ) := do
  let oldnode := oldmem - sizeofAllocnode
  let oldsize := m.size oldnode
  if size ≤ oldsize then
    let m ← if size < oldsize then mmShrinkchunk nodelist m oldnode size else some m
    return (m, some oldmem)
  else
    let next := oldnode + m.size oldnode
    let nextsize := if m.preceding next &&& mmAllocBit = 0 then m.size next else 0
    let prev := oldnode - (m.preceding oldnode &&& mmSizeMask)
    let prevsize := if m.preceding prev &&& mmAllocBit = 0 then m.size prev else 0
    if size ≤ nextsize + prevsize + oldsize then
      let (takeprev, takenext) := reallocTakes (size - oldsize) prevsize nextsize
      let (m, oldnode) ←
        if takeprev ≠ 0 then extendPrev nodelist m oldnode prev next takeprev
        else some (m, oldnode)
      let m ← if takenext ≠ 0 then extendNext nodelist m oldnode next takenext else some m
      return (m, some (oldnode + sizeofAllocnode))
    else return (m, none)

/-- `realloc`. -/
def mmRealloc (nodelist : ℕ) (m : MmMem) (oldmem size : ℕ) : Option (MmMem × ℕ) :=
  if oldmem = 0 then mmMalloc nodelist m size
  else if size = 0 then do
    let m ← mmFree nodelist m oldmem
    return (m, 0)
  else do
    let oldsize := m.size (oldmem - sizeofAllocnode)
    let (m, ret) ← reallocChunk nodelist m oldmem (chunkSize size)
    match ret with
    | some newmem => return (m, newmem)
    | none =>
      -- the size that is passed on has already been rounded, and is rounded again
      let (m, newmem) ← mmMalloc nodelist m (chunkSize size)
      if newmem ≠ 0 then
        let m ← mmFree nodelist (m.memcpy newmem oldmem oldsize) oldmem
        return (m, newmem)
      else return (m, 0)

/-! ### `memalign` -/

/-- `memalign` while it holds the semaphore: the chunk at `rawchunk`, which `malloc` has returned for
`allocsize` bytes, is cut down to `size` aligned bytes. The memory and the address. -/
def alignChunk (nodelist : ℕ) (m : MmMem) (alignment size allocsize rawchunk : ℕ) :
    Option (MmMem × ℕ) := do
  let mask := alignment - 1
  let node := rawchunk - sizeofAllocnode
  let alignedchunk := wrap32 (rawchunk + mask) &&& (0xffffffff - mask)
  let (m, node, alignedchunk, allocsize) ←
    if alignedchunk ≠ rawchunk then do
      let next := node + m.size node
      let alignedchunk :=
        if alignedchunk - sizeofAllocnode - node < sizeofFreenode then alignedchunk + alignment
        else alignedchunk
      let newnode := alignedchunk - sizeofAllocnode
      let precedingsize := newnode - node
      let m := m.setSize newnode (next - newnode)
      let m := m.setPreceding newnode (precedingsize ||| mmAllocBit)
      let m := m.setSize node precedingsize
      let m := m.setPreceding node (m.preceding node &&& mmSizeMask)
      let m := m.setPreceding next (m.size newnode ||| (m.preceding next &&& mmAllocBit))
      let allocsize := m.size newnode - sizeofAllocnode
      let m ← mmAddfreechunk nodelist m node
      pure (m, newnode, alignedchunk, allocsize)
    else pure (m, node, alignedchunk, allocsize)
  let m ←
    if size < allocsize then mmShrinkchunk nodelist m node (size + sizeofAllocnode) else some m
  return (m, alignedchunk)

/-- `memalign`. -/
def mmMemalign (nodelist : ℕ) (m : MmMem) (alignment size : ℕ) : Option (MmMem × ℕ) :=
  if alignment ≤ mmMinChunk then mmMalloc nodelist m size
  else do
    let size := mmAlignUp size
    let allocsize := wrap32 (size + 2 * alignment)
    let (m, rawchunk) ← mmMalloc nodelist m allocsize
    if rawchunk = 0 then return (m, 0)
    else alignChunk nodelist m alignment size allocsize rawchunk

/-! ### Regions (`mm_initialize.c`) and statistics (`mm_mallinfo.c`) -/

/-- Memory, and the global variables that describe the regions of the heap. -/
structure MmHeap where
  mem : MmMem
  heapsize : ℕ
  heapstart : List ℕ
  heapend : List ℕ

def mmAddregion (nodelist : ℕ) (h : MmHeap) (heapstart heapsize : ℕ) : Option MmHeap := do
  let heapbase := mmAlignUp heapstart
  let heapend := mmAlignDown (wrap32 (heapstart + heapsize))
  let heapsize := wrapSub heapend heapbase
  let m := h.mem.setSize heapbase sizeofAllocnode
  let m := m.setPreceding heapbase mmAllocBit
  let node := heapbase + sizeofAllocnode
  let m := m.setSize node (heapsize - 2 * sizeofAllocnode)
  let m := m.setPreceding node sizeofAllocnode
  let last := wrapSub heapend sizeofAllocnode
  let m := m.setSize last sizeofAllocnode
  let m := m.setPreceding last (m.size node ||| mmAllocBit)
  let m ← mmAddfreechunk nodelist m node
  return { mem := m
           heapsize := wrap32 (h.heapsize + heapsize)
           heapstart := h.heapstart ++ [heapbase]
           heapend := h.heapend ++ [last] }

/-- The array `g_nodelist` after the loop of `mm_initialize`. -/
def initNodelist (nodelist : ℕ) (m : MmMem) : MmMem :=
  (List.range (mmNnodes - 1)).foldl
    (fun m i =>
      let m := m.setFlink (nodeHook nodelist i) (nodeHook nodelist (i + 1))
      m.setBlink (nodeHook nodelist (i + 1)) (nodeHook nodelist i))
    (fun a => if nodelist ≤ a ∧ a < nodelist + 16 * mmNnodes then 0 else m a)

def mmInitialize (nodelist : ℕ) (m : MmMem) (heapstart heapsize : ℕ) : Option MmHeap :=
  mmAddregion nodelist ⟨initNodelist nodelist m, 0, [], []⟩ heapstart heapsize

structure Mallinfo where
  arena : ℕ
  ordblks : ℕ
  mxordblk : ℕ
  uordblks : ℕ
  fordblks : ℕ
deriving DecidableEq, Repr

/-- The loop of `mallinfo` over a region. At its end it must be at the last node. -/
def mallinfoLoop (m : MmMem) (heapend : ℕ) : ℕ → ℕ → Mallinfo → Option Mallinfo
  | 0, _, _ => none
  | rounds + 1, node, info =>
    if node < heapend then
      mallinfoLoop m heapend rounds (node + m.size node)
        (if m.preceding node &&& mmAllocBit ≠ 0 then
          { info with uordblks := wrap32 (info.uordblks + m.size node) }
        else
          { info with
            ordblks := info.ordblks + 1
            fordblks := wrap32 (info.fordblks + m.size node)
            mxordblk := if info.mxordblk < m.size node then m.size node else info.mxordblk })
    else if node = heapend then
      some { info with uordblks := wrap32 (info.uordblks + sizeofAllocnode) }
    else none

def mallinfo (h : MmHeap) : Option Mallinfo :=
  (h.heapstart.zip h.heapend).foldlM
    (fun info region => mallinfoLoop h.mem region.2 mmRounds region.1 info)
    ⟨h.heapsize, 0, 0, 0, 0⟩

end NuttX
