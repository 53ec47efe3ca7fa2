import NuttX.Mm.Runs

/-!
# What a caller is given

The list of free chunks ascends (`NuttX.Nodelist.ascending`), and `malloc` begins its search in the
bucket of the size that it needs. So it takes a smallest one of the free chunks that are large
enough, and fails only if there is none (`NuttX.mmMalloc_bestFit`), or if it is asked for nothing.

A pointer that is returned belongs to a chunk with at least as many bytes as have been asked for
(`NuttX.request_honoured`), unless the size wraps on the way: `malloc` adds the header and rounds,
`calloc` multiplies, `memalign` adds twice the alignment, and none of them looks at the result.
-/

namespace NuttX

variable {nl size : ℕ} {m : MmMem} {L : MmLayout}

/-! ### Best fit -/

/-- **Best fit**: the call returns; it returns the null pointer exactly if `fails` says so or no free
chunk is large enough; and otherwise it has allocated from a smallest one of the chunks that are, the
rest of which is free if it has room for the pointers of the list. -/
def BestFit (nl : ℕ) (m : MmMem) (L : MmLayout) (size : ℕ) (fails : Prop) : Prop :=
  ∃ m' ret, mmMalloc nl m size = some (m', ret) ∧
    (ret = 0 ↔ fails ∨ ∀ x t, (x, (⟨t, false⟩ : Chunk)) ∈ L.bodies → t < chunkSize size) ∧
    (ret ≠ 0 → ∃ k s, L = MmCtx.fill k [⟨s, false⟩] ∧ ret = k.addr + sizeofAllocnode ∧
      L.LeastFit (chunkSize size) s ∧ HeapWhole nl m' (k.fill (allocated (chunkSize size) s)))

/-- **`malloc` is best fit**, for every size that does not wrap; it returns the null pointer if it is
asked for nothing. -/
theorem mmMalloc_bestFit (h : HeapWhole nl m L) (hsize : size + 23 < 0x100000000) :
    BestFit nl m L size (size = 0) := by
  by_cases hzero : size = 0
  · exact ⟨m, 0, if_pos hzero, ⟨fun _ => .inl hzero, fun _ => rfl⟩, fun hne => absurd rfl hne⟩
  have hcall : mmMalloc nl m size = mallocChunk nl m (chunkSize size) := if_neg hzero
  obtain ⟨hlarge, hdvd, -⟩ := chunkSize_spec hsize
  rw [BestFit, hcall]
  rcases mallocChunk_spec h ⟨hlarge, (by decide : 8 ∣ 16).trans hdvd⟩ with
    ⟨hnone, hfree⟩ | ⟨k, s, m', hL, hleast, hok, hwhole⟩
  · exact ⟨m, 0, hnone, ⟨fun _ => .inr hfree, fun _ => rfl⟩, fun hne => absurd rfl hne⟩
  have hne := add_sizeofAllocnode_ne_zero k.addr
  refine ⟨m', _, hok, ⟨fun heq => absurd heq hne, ?_⟩, fun _ => ⟨k, s, hL, rfl, hleast, hwhole⟩⟩
  rintro (heq | hfree)
  · exact absurd heq hzero
  -- the chunk that has been found is large enough
  have hmem : (k.addr, (⟨s, false⟩ : Chunk)) ∈ L.bodies := by
    rw [hL, MmCtx.mem_bodies_fill]
    exact .inr (by simp)
  exact absurd (hfree _ _ hmem) (not_lt.mpr hleast.1)

theorem exists_wholeHeap :
    ∃ h, smallHeap = some h ∧ HeapWhole 0x1000 h.mem [newRegion 0x10000 0x10200] := by
  obtain ⟨h, hinit, hshape⟩ := HeapShape.initialize (m := fun _ => 0) regionAt_small
    (by decide : 0 < 0x1000) (by decide) (by decide)
  exact ⟨h, hinit, hshape.whole⟩

theorem mmMalloc_bestFit_eight :
    ∃ m, BestFit 0x1000 m [newRegion 0x10000 0x10200] 8 (8 = 0) := by
  obtain ⟨h, -, hwhole⟩ := exists_wholeHeap
  exact ⟨h.mem, mmMalloc_bestFit hwhole (by decide)⟩

theorem malloc_zero_fails :
    ∃ m, HeapWhole 0x1000 m [newRegion 0x10000 0x10200] ∧
      ¬BestFit 0x1000 m [newRegion 0x10000 0x10200] 0 False := by
  obtain ⟨h, -, hwhole⟩ := exists_wholeHeap
  refine ⟨h.mem, hwhole, ?_⟩
  rintro ⟨m', ret, hcall, hiff, -⟩
  obtain rfl : ret = 0 := by
    cases hcall
    rfl
  have hfree := (hiff.mp rfl).resolve_left id
  exact absurd (hfree 0x10008 0x1f0 (by decide)) (by decide)

/-! ### The size that is asked for -/

/-- `memset` to zero, of whole words. -/
def MmMem.memset (m : MmMem) (dest n : ℕ) : MmMem :=
  fun a => if dest ≤ a ∧ a < dest + n then 0 else m a

def mmZalloc (nl : ℕ) (m : MmMem) (size : ℕ) : Option (MmMem × ℕ) := do
  let (m, alloc) ← mmMalloc nl m size
  if alloc ≠ 0 then return (m.memset alloc size, alloc) else return (m, alloc)

def mmCalloc (nl : ℕ) (m : MmMem) (n elemSize : ℕ) : Option (MmMem × ℕ) :=
  if 0 < n ∧ 0 < elemSize then mmZalloc nl m (wrap32 (n * elemSize)) else some (m, 0)

/-- A call, or one of `calloc`. -/
inductive MmRequest where
  | call (c : MmCall)
  | calloc (n elemSize : ℕ)

namespace MmRequest

def run (nl : ℕ) (m : MmMem) : MmRequest → Option (MmMem × ℕ)
  | call c => mmCall nl m c
  | calloc n elemSize => mmCalloc nl m n elemSize

/-- The number of bytes that are asked for, as a number. -/
def asked : MmRequest → ℕ
  | call c => c.asked
  | calloc n elemSize => n * elemSize

def OnLive (live : Set ℕ) : MmRequest → Prop
  | call c => c.OnLive live
  | calloc _ _ => True

/-- The size does not wrap, and `realloc` puts no chunk on the list that has no room for the
pointers. -/
def Fits (nl : ℕ) (m : MmMem) : MmRequest → Prop
  | call c => c.Fits ∧ c.NoSliver nl m
  | calloc n elemSize => n * elemSize + 23 < 0x100000000

end MmRequest

/-- **The pointer is that of an allocated chunk** inside of a region, with room for `n` bytes. -/
def AllocatedAt (m : MmMem) (spans : List (ℕ × ℕ)) (ret n : ℕ) : Prop :=
  ∃ r ∈ spans, ∃ node, Visited m r.1 r.2 node ∧ r.1 < node ∧ node + m.size node ≤ r.2 ∧
    ¬NodeFree m node ∧ ret = node + sizeofAllocnode ∧ n + sizeofAllocnode ≤ m.size node

/-- **The request is honoured**: it returns, the null pointer or one with room for the bytes. -/
def Honoured (nl : ℕ) (m : MmMem) (L : MmLayout) (r : MmRequest) : Prop :=
  ∃ m' ret, r.run nl m = some (m', ret) ∧ (ret ≠ 0 → AllocatedAt m' L.spans ret r.asked)

theorem HeapWhole.allocatedAt {ret n : ℕ} (h : HeapWhole nl m L) (hret : L.Holds ret n) :
    AllocatedAt m L.spans ret n := by
  obtain ⟨a, s, rfl, hused, hle⟩ := hret
  obtain ⟨R, hR, hbody⟩ := MmLayout.mem_bodies.mp hused
  have hplaced := MmRegion.mem_placed_of_mem_bodies hbody
  obtain ⟨hsize, hfree, -⟩ := h.node hR hplaced
  obtain ⟨hfirst, hlast⟩ := MmRegion.bodies_bounds hbody
  dsimp only at hsize hfirst hlast
  rw [← hsize] at hle hlast
  refine ⟨_, MmLayout.mem_spans.mpr ⟨R, hR, rfl⟩, a, (h.visited hR).mpr ⟨_, hplaced⟩, ?_, hlast,
    fun hnot => ?_, rfl, hle⟩
  · unfold sizeofAllocnode at hfirst
    omega
  · exact nomatch hfree.mp hnot

/-- **Every request that does not wrap is honoured.** -/
theorem request_honoured {r : MmRequest} (h : HeapWhole nl m L) (hlive : r.OnLive L.pointers)
    (hfits : r.Fits nl m) : Honoured nl m L r := by
  cases r with
  | call c =>
    obtain ⟨m', ret, L', A, hcall, -, hstep⟩ := h.call hlive hfits.1 hfits.2
    refine ⟨m', ret, hcall, fun hne => ?_⟩
    rw [← hstep.spans]
    exact hstep.whole.allocatedAt (hstep.fine hne)
  | calloc n elemSize =>
    rw [Honoured, MmRequest.run, mmCalloc]
    split_ifs
    · change n * elemSize + 23 < 0x100000000 at hfits
      rw [wrap32, Nat.mod_eq_of_lt (by omega), mmZalloc]
      obtain ⟨m', ret, L', A, hcall, -, hstep⟩ := h.call (c := .malloc _) trivial hfits trivial
      rw [mmCall] at hcall
      simp only [hcall, Option.bind_eq_bind, Option.bind_some]
      by_cases hne : ret = 0
      · rw [if_neg (not_not.mpr hne)]
        exact ⟨m', ret, rfl, fun hret => absurd hne hret⟩
      rw [if_pos hne]
      refine ⟨_, ret, rfl, fun _ => ?_⟩
      obtain ⟨a, s, rfl, hused, hle⟩ : L'.Holds ret (n * elemSize) := hstep.fine hne
      rw [← hstep.spans]
      -- what is written stays inside of the chunk
      refine (hstep.whole.payload hused fun w hw => ?_).allocatedAt ⟨a, s, rfl, hused, hle⟩
      exact if_neg (by omega)
    · exact ⟨m, 0, rfl, fun hne => absurd rfl hne⟩

theorem request_honoured_calloc :
    ∃ m, Honoured 0x1000 m [newRegion 0x10000 0x10200] (.calloc 3 5) := by
  obtain ⟨h, -, hwhole⟩ := exists_wholeHeap
  exact ⟨h.mem, request_honoured hwhole trivial (by decide : 3 * 5 + 23 < 0x100000000)⟩

/-- **`malloc` rounds 0xffffffff to a chunk of 16 bytes.** -/
theorem malloc_wraps :
    ∃ m, HeapWhole 0x1000 m [newRegion 0x10000 0x10200] ∧
      ¬Honoured 0x1000 m [newRegion 0x10000 0x10200] (.call (.malloc 0xffffffff)) := by
  obtain ⟨h, hinit, hwhole⟩ := exists_wholeHeap
  refine ⟨h.mem, hwhole, ?_⟩
  rintro ⟨m', ret, hcall, hret⟩
  have hrun : (smallHeap.bind fun h => mmMalloc 0x1000 h.mem 0xffffffff).map Prod.snd
      = some 65552 := by
    decide +kernel
  rw [hinit, Option.bind_some,
    show mmMalloc 0x1000 h.mem 0xffffffff = some (m', ret) from hcall] at hrun
  obtain rfl : ret = 65552 := Option.some.inj hrun
  obtain ⟨r, hr, node, -, -, hlast, -, -, hle⟩ := hret (by decide)
  obtain rfl := List.mem_singleton.mp hr
  change node + m'.size node ≤ 0x101f8 at hlast
  change 0xffffffff + 8 ≤ m'.size node at hle
  omega

end NuttX
