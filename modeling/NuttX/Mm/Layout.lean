import NuttX.Lib.Tiling
import NuttX.Mm.Model

/-!
# The layout of the heap

What the headers in memory say is a *layout*: for each region of the heap the chunks that lie
between its two guard nodes, with their sizes and whether they are in use. `NuttX.Headers` says that
memory has the headers of a list of chunks, and `NuttX.MmLayout.Sound` that the regions lie apart
from one another and from the array `g_nodelist`.

The functions of the memory manager change a layout at one place. `NuttX.MmCtx` is a layout with a
gap in it, and `NuttX.MmCtx.fill` fills the gap: a function that cuts, merges or marks chunks turns
`k.fill mid` into `k.fill mid'`, where `mid` and `mid'` take the same space.
-/

namespace NuttX

open List

/-! ### The bit of a used chunk -/

/-- The field `preceding` of a chunk that follows one of the given size. -/
def mark (size : ℕ) (used : Bool) : ℕ := if used then size + mmAllocBit else size

@[simp]
theorem mark_false (s : ℕ) : mark s false = s := rfl

@[simp]
theorem mark_true (s : ℕ) : mark s true = s + mmAllocBit := rfl

variable {s : ℕ}

theorem mark_and_allocBit (hs : s < mmAllocBit) (used : Bool) :
    mark s used &&& mmAllocBit = if used then mmAllocBit else 0 := by
  have h : mark s used &&& mmAllocBit = ((mark s used).testBit 31).toNat * mmAllocBit :=
    Nat.and_two_pow (mark s used) 31
  cases used with
  | false =>
    rw [mark_false, Nat.testBit_lt_two_pow hs] at h
    simpa using h
  | true =>
    have hbit : Nat.testBit (s + mmAllocBit) 31 = true := by
      rw [Nat.testBit_eq_decide_div_mod_eq]
      unfold mmAllocBit at hs ⊢
      rw [decide_eq_true_eq]
      omega
    rw [mark_true, hbit] at h
    simpa using h

@[simp]
theorem mark_and_allocBit_eq_zero (hs : s < mmAllocBit) (used : Bool) :
    mark s used &&& mmAllocBit = 0 ↔ used = false := by
  rw [mark_and_allocBit hs]
  cases used <;> simp [mmAllocBit]

theorem or_allocBit (hs : s < mmAllocBit) : s ||| mmAllocBit = mark s true := by
  have h := Nat.two_pow_add_eq_or_of_lt (i := 31) (b := s) hs 1
  rw [mark_true, Nat.add_comm]
  rw [Nat.or_comm]
  exact h.symm

theorem mark_and_sizeMask (hs : s < mmAllocBit) (used : Bool) : mark s used &&& mmSizeMask = s := by
  have h := Nat.and_two_pow_sub_one_eq_mod (mark s used) 31
  have hmod : mark s used % 2 ^ 31 = s := by
    unfold mmAllocBit at hs
    cases used <;> simp only [mark_true, mark_false, mmAllocBit] <;> omega
  exact h.trans hmod

theorem or_mark_and_allocBit {s t : ℕ} (hs : s < mmAllocBit) (ht : t < mmAllocBit)
    (used : Bool) : t ||| (mark s used &&& mmAllocBit) = mark t used := by
  rw [mark_and_allocBit hs]
  cases used with
  | false => simp
  | true => exact or_allocBit ht

theorem mark_or_allocBit (hs : s < mmAllocBit) (used : Bool) :
    mark s used ||| mmAllocBit = mark s true := by
  cases used with
  | false => exact or_allocBit hs
  | true => rw [← or_allocBit hs, Nat.or_assoc, Nat.or_self]

/-! ### Chunks and their headers -/

/-- A chunk, as the headers have it. -/
structure Chunk where
  size : ℕ
  used : Bool
deriving DecidableEq, Repr

def Chunk.guard : Chunk := ⟨sizeofAllocnode, true⟩

/-- A free chunk of the given size, or nothing if the size is zero. -/
def pad (r : ℕ) : List Chunk := if r = 0 then [] else [⟨r, false⟩]

/-- The size of a node if it is free, and zero if it is used. -/
def Chunk.freeSize (c : Chunk) : ℕ := if c.used then 0 else c.size

@[simp]
theorem extent_pad {r : ℕ} : extent Chunk.size (pad r) = r := by
  unfold pad
  split_ifs with hr
  · exact hr.symm
  · simp

theorem pad_of_pos {r : ℕ} (hr : 0 < r) : pad r = [⟨r, false⟩] := if_neg hr.ne'

theorem dvd_pad_iff {d r : ℕ} : (∀ c ∈ pad r, d ∣ c.size) ↔ d ∣ r := by
  unfold pad
  split_ifs with hr
  · simp [hr]
  · simp

/-- The size of the last one of some chunks that follow a chunk of size `p`. -/
def lastSize (p : ℕ) (cs : List Chunk) : ℕ := cs.foldl (fun _ c => c.size) p

@[simp]
theorem lastSize_nil (p : ℕ) : lastSize p [] = p := rfl

@[simp]
theorem lastSize_cons (p : ℕ) (c : Chunk) (cs : List Chunk) :
    lastSize p (c :: cs) = lastSize c.size cs := rfl

@[simp]
theorem lastSize_append (p : ℕ) (cs ds : List Chunk) :
    lastSize p (cs ++ ds) = lastSize (lastSize p cs) ds :=
  foldl_append

theorem lastSize_le (p : ℕ) (cs : List Chunk) : lastSize p cs ≤ p + extent Chunk.size cs := by
  induction cs generalizing p with
  | nil => simp
  | cons c cs ih =>
    rw [lastSize_cons, extent_cons]
    have := ih c.size
    omega

/-- Memory has the headers of the chunks that lie from `a` on, behind a chunk of size `p`. -/
def Headers (m : MmMem) : ℕ → ℕ → List Chunk → Prop
  | _, _, [] => True
  | a, p, c :: cs =>
    m.size a = c.size ∧ m.preceding a = mark p c.used ∧ Headers m (a + c.size) c.size cs

namespace Headers

variable {m m' : MmMem} {a p x : ℕ} {c : Chunk} {cs ds : List Chunk}

@[simp]
theorem nil : Headers m a p [] := trivial

@[simp]
theorem cons_iff :
    Headers m a p (c :: cs) ↔
      m.size a = c.size ∧ m.preceding a = mark p c.used ∧ Headers m (a + c.size) c.size cs :=
  Iff.rfl

theorem append_iff :
    Headers m a p (cs ++ ds) ↔
      Headers m a p cs ∧ Headers m (a + extent Chunk.size cs) (lastSize p cs) ds := by
  induction cs generalizing a p with
  | nil => simp
  | cons c cs ih =>
    rw [cons_append, cons_iff, cons_iff, ih, extent_cons, lastSize_cons, Nat.add_assoc]
    tauto

theorem congr (h : Headers m a p cs)
    (hm : ∀ x c, (x, c) ∈ place Chunk.size a cs → m' x = m x ∧ m' (x + 4) = m (x + 4)) :
    Headers m' a p cs := by
  induction cs generalizing a p with
  | nil => exact nil
  | cons c cs ih =>
    obtain ⟨hsize, hprec, htail⟩ := h
    have hc := hm a c mem_cons_self
    exact ⟨hc.1.trans hsize, hc.2.trans hprec, ih htail fun x d hd => hm x d (mem_cons_of_mem _ hd)⟩

theorem of_mem (h : Headers m a p cs) (hx : (x, c) ∈ place Chunk.size a cs) :
    m.size x = c.size ∧ ∃ q, m.preceding x = mark q c.used := by
  obtain ⟨l, r, rfl, rfl⟩ := exists_append_of_mem_place hx
  obtain ⟨-, hsize, hprec, -⟩ := append_iff.mp h
  exact ⟨hsize, _, hprec⟩

end Headers

/-! ### Regions -/

/-- A region of the heap: the chunks that lie between its guard nodes. -/
structure MmRegion where
  base : ℕ
  body : List Chunk

namespace MmRegion

/-- All nodes of a region, with the guard nodes. -/
def chunks (R : MmRegion) : List Chunk := .guard :: (R.body ++ [.guard])

/-- Where the guard node at the end of a region lies. -/
def last (R : MmRegion) : ℕ := R.base + sizeofAllocnode + extent Chunk.size R.body

def stop (R : MmRegion) : ℕ := R.last + sizeofAllocnode

def placed (R : MmRegion) : List (ℕ × Chunk) := place Chunk.size R.base R.chunks

/-- The chunks of a region that are not guard nodes, with their addresses. -/
def bodies (R : MmRegion) : List (ℕ × Chunk) :=
  place Chunk.size (R.base + sizeofAllocnode) R.body

/-- A region is a piece of a 32 bit address space, of less than half its size, and each of its
chunks has room for its header. -/
structure Fits (R : MmRegion) : Prop where
  room : ∀ c ∈ R.body, sizeofAllocnode ≤ c.size
  dvd : ∀ c ∈ R.body, 8 ∣ c.size
  aligned : 8 ∣ R.base
  small : extent Chunk.size R.body + 2 * sizeofAllocnode < mmAllocBit
  space : R.stop ≤ 0x100000000

def Apart (R R' : MmRegion) : Prop := R.stop ≤ R'.base ∨ R'.stop ≤ R.base

instance : Std.Symm Apart := ⟨fun _ _ => Or.symm⟩

variable {R : MmRegion} {x : ℕ} {c : Chunk}

theorem mem_placed_of_mem_bodies (h : (x, c) ∈ R.bodies) : (x, c) ∈ R.placed := by
  unfold placed chunks
  rw [place_cons, place_append]
  exact mem_cons_of_mem _ (mem_append_left _ h)

theorem placed_bounds (h : (x, c) ∈ R.placed) : R.base ≤ x ∧ x + c.size ≤ R.stop := by
  have hb := place_bounds h
  unfold chunks at hb
  simp only [extent_cons, extent_append, extent_nil, Chunk.guard] at hb
  unfold stop last
  omega

theorem bodies_bounds (h : (x, c) ∈ R.bodies) :
    R.base + sizeofAllocnode ≤ x ∧ x + c.size ≤ R.last :=
  place_bounds h

theorem Fits.room_placed (hR : R.Fits) (h : (x, c) ∈ R.placed) : sizeofAllocnode ≤ c.size := by
  have hc := mem_of_mem_place h
  rcases mem_cons.mp hc with rfl | hc
  · exact le_refl _
  · rcases mem_append.mp hc with hc | hc
    · exact hR.room c hc
    · rw [mem_singleton.mp hc]
      exact le_refl _

theorem Fits.size_pos (hR : R.Fits) : ∀ c ∈ Chunk.guard :: R.body, 0 < c.size :=
  forall_mem_cons.mpr ⟨by decide, fun c hc => lt_of_lt_of_le (by decide) (hR.room c hc)⟩

theorem base_add_extent : R.base + extent Chunk.size (Chunk.guard :: R.body) = R.last :=
  (Nat.add_assoc _ _ _).symm

end MmRegion

/-! ### Layouts -/

abbrev MmLayout := List MmRegion

def MmLayout.placed (L : MmLayout) : List (ℕ × Chunk) := L.flatMap MmRegion.placed

def MmLayout.bodies (L : MmLayout) : List (ℕ × Chunk) := L.flatMap MmRegion.bodies

def MmLayout.freeSet (L : MmLayout) : Set ℕ := {x | ∃ c, (x, c) ∈ L.bodies ∧ c.used = false}

/-- The size of the array `g_nodelist`. -/
def sizeofNodelist : ℕ := 16 * mmNnodes

/-- The regions lie apart from one another and from `g_nodelist`. -/
structure MmLayout.Sound (nl : ℕ) (L : MmLayout) : Prop where
  fits : ∀ R ∈ L, R.Fits
  apart : L.Pairwise MmRegion.Apart
  hooks : ∀ R ∈ L, R.stop ≤ nl ∨ nl + sizeofNodelist ≤ R.base
  pos : 0 < nl
  space : nl + sizeofNodelist ≤ 0x100000000

/-- What can be in the list of free chunks: the elements of `g_nodelist`, and free chunks that have
room for the pointers. -/
def IsNode (nl : ℕ) (L : MmLayout) (z : ℕ) : Prop :=
  (∃ i < mmNnodes, z = nodeHook nl i) ∨
    ∃ s, sizeofFreenode ≤ s ∧ (z, (⟨s, false⟩ : Chunk)) ∈ L.bodies

namespace MmLayout

variable {nl : ℕ} {L : MmLayout} {x y z : ℕ} {c d : Chunk}

theorem mem_placed : (x, c) ∈ L.placed ↔ ∃ R ∈ L, (x, c) ∈ R.placed :=
  mem_flatMap

theorem mem_bodies : (x, c) ∈ L.bodies ↔ ∃ R ∈ L, (x, c) ∈ R.bodies :=
  mem_flatMap

theorem mem_placed_of_mem_bodies (h : (x, c) ∈ L.bodies) : (x, c) ∈ L.placed := by
  obtain ⟨R, hR, hx⟩ := mem_bodies.mp h
  exact mem_placed.mpr ⟨R, hR, MmRegion.mem_placed_of_mem_bodies hx⟩

namespace Sound

section

variable (h : Sound nl L)

include h

section

variable (hx : (x, c) ∈ L.placed)

include hx

/-- **Two nodes are the same one or do not overlap.** -/
theorem placed_apart (hy : (y, d) ∈ L.placed) :
    x = y ∧ c = d ∨ x + c.size ≤ y ∨ y + d.size ≤ x := by
  obtain ⟨R, hR, hx⟩ := mem_placed.mp hx
  obtain ⟨R', hR', hy⟩ := mem_placed.mp hy
  by_cases heq : R = R'
  · subst heq
    exact place_apart hx hy
  have hapart : R.Apart R' := h.apart.forall hR hR' heq
  unfold MmRegion.Apart at hapart
  have hxb := MmRegion.placed_bounds hx
  have hyb := MmRegion.placed_bounds hy
  right
  omega

theorem room_placed : sizeofAllocnode ≤ c.size := by
  obtain ⟨R, hR, hx⟩ := mem_placed.mp hx
  exact (h.fits R hR).room_placed hx

theorem placed_hooks : x + c.size ≤ nl ∨ nl + sizeofNodelist ≤ x := by
  obtain ⟨R, hR, hx⟩ := mem_placed.mp hx
  have hb := MmRegion.placed_bounds hx
  rcases h.hooks R hR with hn | hn
  · left; omega
  · right; omega

theorem placed_unique (hy : (x, d) ∈ L.placed) : c = d := by
  have hc := h.room_placed hx
  have hd := h.room_placed hy
  unfold sizeofAllocnode at hc hd
  rcases h.placed_apart hx hy with ⟨-, hcd⟩ | hapart
  · exact hcd
  · omega

end

theorem bodies_unique (hx : (x, c) ∈ L.bodies) (hy : (x, d) ∈ L.bodies) : c = d :=
  h.placed_unique (mem_placed_of_mem_bodies hx) (mem_placed_of_mem_bodies hy)

theorem bodies_space (hx : (x, c) ∈ L.bodies) : 0 < x ∧ x + c.size ≤ 0x100000000 := by
  obtain ⟨R, hR, hx⟩ := mem_bodies.mp hx
  have hb := MmRegion.bodies_bounds hx
  have hspace := (h.fits R hR).space
  unfold MmRegion.stop at hspace
  unfold sizeofAllocnode at *
  omega

theorem isNode_space (hz : IsNode nl L z) : 0 < z ∧ z < 0x100000000 := by
  rcases hz with ⟨i, hi, rfl⟩ | ⟨s, hs, hz⟩
  · have hpos := h.pos
    have hspace := h.space
    unfold sizeofNodelist at hspace
    unfold nodeHook
    omega
  · have hb := h.bodies_space hz
    unfold sizeofFreenode at hs
    dsimp only at hb
    omega

/-- **Two nodes of the list are the same one or lie 16 bytes apart.** -/
theorem isNode_apart (hy : IsNode nl L y) (hz : IsNode nl L z) :
    y = z ∨ y + 16 ≤ z ∨ z + 16 ≤ y := by
  rcases hy with ⟨i, hi, rfl⟩ | ⟨s, hs, hy⟩ <;> rcases hz with ⟨j, hj, rfl⟩ | ⟨t, ht, hz⟩
  · unfold nodeHook
    omega
  · have hb := h.placed_hooks (mem_placed_of_mem_bodies hz)
    unfold sizeofNodelist sizeofFreenode nodeHook at *
    dsimp only at hb
    omega
  · have hb := h.placed_hooks (mem_placed_of_mem_bodies hy)
    unfold sizeofNodelist sizeofFreenode nodeHook at *
    dsimp only at hb
    omega
  · have hb := h.placed_apart (mem_placed_of_mem_bodies hy) (mem_placed_of_mem_bodies hz)
    unfold sizeofFreenode at hs ht
    dsimp only at hb
    omega

theorem isNode_header (hz : IsNode nl L z) (hx : (x, c) ∈ L.placed) :
    x + 8 ≤ z + 8 ∨ z + 16 ≤ x := by
  rcases hz with ⟨i, hi, rfl⟩ | ⟨s, hs, hz⟩
  · have hb := h.placed_hooks hx
    unfold sizeofNodelist nodeHook at *
    omega
  · have hb := h.placed_apart hx (mem_placed_of_mem_bodies hz)
    unfold sizeofFreenode at hs
    dsimp only at hb
    omega

end

end Sound

end MmLayout

/-! ### A layout with a gap -/

/-- A layout with a gap between the chunks `left` and `right` of one region. -/
structure MmCtx where
  before : List MmRegion
  after : List MmRegion
  base : ℕ
  left : List Chunk
  right : List Chunk

namespace MmCtx

variable {nl : ℕ} {k : MmCtx} {mid mid' : List Chunk} {x n : ℕ} {c : Chunk} {m : MmMem}
 {q : ℕ × Chunk}

def region (k : MmCtx) (mid : List Chunk) : MmRegion := ⟨k.base, k.left ++ (mid ++ k.right)⟩

def fill (k : MmCtx) (mid : List Chunk) : MmLayout := k.before ++ k.region mid :: k.after

def addr (k : MmCtx) : ℕ := k.base + sizeofAllocnode + extent Chunk.size k.left

def prev (k : MmCtx) : Chunk := k.left.getLastD .guard

def next (k : MmCtx) : Chunk := k.right.headD .guard

/-- The chunks outside of a gap of the given length. -/
def outer (k : MmCtx) (n : ℕ) : List (ℕ × Chunk) :=
  MmLayout.bodies k.before ++ MmLayout.bodies k.after ++
    place Chunk.size (k.base + sizeofAllocnode) k.left ++ place Chunk.size (k.addr + n) k.right

/-- The free chunks outside of a gap of the given length. -/
def outerFree (k : MmCtx) (n : ℕ) : Set ℕ := {x | ∃ c, (x, c) ∈ k.outer n ∧ c.used = false}

theorem forall_mem_fill {P : MmRegion → Prop} :
    (∀ R ∈ k.fill mid, P R) ↔ P (k.region mid) ∧ ∀ R ∈ k.before ++ k.after, P R := by
  simp only [fill, forall_mem_append, forall_mem_cons]
  tauto

theorem region_mem_fill : k.region mid ∈ k.fill mid := by
  simp [fill]

theorem forall_mem_region {P : Chunk → Prop} :
    (∀ c ∈ (k.region mid).body, P c) ↔
      (∀ c ∈ k.left, P c) ∧ (∀ c ∈ mid, P c) ∧ ∀ c ∈ k.right, P c := by
  simp only [region, forall_mem_append]

theorem mem_bodies_fill :
    q ∈ (k.fill mid).bodies ↔
      q ∈ k.outer (extent Chunk.size mid) ∨ q ∈ place Chunk.size k.addr mid := by
  simp only [fill, region, MmLayout.bodies, outer, MmRegion.bodies, addr, flatMap_append,
    flatMap_cons, place_append, mem_append]
  tauto

theorem exists_fill {L : MmLayout} (h : (x, c) ∈ L.bodies) :
    ∃ k : MmCtx, L = k.fill [c] ∧ x = k.addr := by
  obtain ⟨R, hR, hx⟩ := MmLayout.mem_bodies.mp h
  obtain ⟨before, after, rfl⟩ := append_of_mem hR
  obtain ⟨left, right, hbody, rfl⟩ := exists_append_of_mem_place hx
  refine ⟨⟨before, after, R.base, left, right⟩, ?_, rfl⟩
  unfold fill region
  rw [singleton_append, ← hbody]

theorem chunks_region (k : MmCtx) (mid : List Chunk) :
    (k.region mid).chunks = (Chunk.guard :: k.left) ++ (mid ++ (k.right ++ [.guard])) := by
  simp [MmRegion.chunks, region]

theorem base_add_left (k : MmCtx) : k.base + extent Chunk.size (Chunk.guard :: k.left) = k.addr := by
  exact (Nat.add_assoc _ _ _).symm

theorem next_placed (k : MmCtx) (mid : List Chunk) :
    (k.addr + extent Chunk.size mid, k.next) ∈ (k.fill mid).placed := by
  refine MmLayout.mem_placed.mpr ⟨k.region mid, region_mem_fill, ?_⟩
  rw [MmRegion.placed, chunks_region, place_append, place_append]
  refine mem_append_right _ (mem_append_right _ ?_)
  rw [show (k.region mid).base = k.base from rfl, base_add_left]
  cases hr : k.right <;> simp [next, hr]

theorem lastSize_left : lastSize sizeofAllocnode k.left = k.prev.size := by
  unfold prev
  rcases eq_nil_or_concat k.left with h | ⟨l, c, h⟩
  · rw [h]
    rfl
  · rw [h]
    simp

/-- **The headers of a region with a gap**: those before the gap, those in it, and those behind. -/
theorem headers_iff :
    Headers m k.base 0 (k.region mid).chunks ↔
      Headers m k.base 0 (.guard :: k.left) ∧ Headers m k.addr k.prev.size mid ∧
        m.size (k.addr + extent Chunk.size mid) = k.next.size ∧
        m.preceding (k.addr + extent Chunk.size mid) = mark (lastSize k.prev.size mid) k.next.used ∧
        Headers m (k.addr + extent Chunk.size mid + k.next.size) k.next.size
          (k.right ++ [Chunk.guard]).tail := by
  have hlast : lastSize 0 (Chunk.guard :: k.left) = k.prev.size := lastSize_left
  have hright : k.right ++ [Chunk.guard] = k.next :: (k.right ++ [Chunk.guard]).tail := by
    unfold next
    cases k.right <;> rfl
  rw [chunks_region, Headers.append_iff, base_add_left, hlast, Headers.append_iff]
  nth_rewrite 1 [hright]
  exact Iff.rfl

/-- **A gap can be filled with other chunks that take the same space.** -/
theorem sound_refill (h : (k.fill mid).Sound nl)
    (hext : extent Chunk.size mid' = extent Chunk.size mid)
    (hroom : ∀ c ∈ mid', sizeofAllocnode ≤ c.size) (hdvd : ∀ c ∈ mid', 8 ∣ c.size) :
    (k.fill mid').Sound nl := by
  have hlast : (k.region mid').last = (k.region mid).last := by
    simp [MmRegion.last, region, hext]
  have hstop : (k.region mid').stop = (k.region mid).stop := by
    unfold MmRegion.stop
    rw [hlast]
  have hbase : (k.region mid').base = (k.region mid).base := rfl
  obtain ⟨hfits, hothers⟩ := forall_mem_fill.mp h.fits
  obtain ⟨hhooks, hhooks'⟩ := forall_mem_fill.mp h.hooks
  refine ⟨forall_mem_fill.mpr ⟨?_, hothers⟩, ?_, forall_mem_fill.mpr ⟨?_, hhooks'⟩, h.pos, h.space⟩
  · obtain ⟨hleft, -, hright⟩ := forall_mem_region.mp hfits.room
    obtain ⟨hleft', -, hright'⟩ := forall_mem_region.mp hfits.dvd
    refine ⟨forall_mem_region.mpr ⟨hleft, hroom, hright⟩,
      forall_mem_region.mpr ⟨hleft', hdvd, hright'⟩, hfits.aligned, ?_, hstop ▸ hfits.space⟩
    have hsmall := hfits.small
    simp only [region, extent_append, hext] at hsmall ⊢
    exact hsmall
  · have hapart := h.apart
    unfold fill at hapart ⊢
    rw [pairwise_append, pairwise_cons] at hapart ⊢
    simp only [mem_cons, forall_eq_or_imp, MmRegion.Apart, hstop, hbase] at hapart ⊢
    exact hapart
  · rw [hstop, hbase]
    exact hhooks

theorem region_bounds (k : MmCtx) (mid : List Chunk) :
    (k.region mid).base + 8 ≤ k.addr ∧
      k.addr + extent Chunk.size mid + 8 ≤ (k.region mid).stop := by
  simp only [MmRegion.stop, MmRegion.last, region, addr, extent_append, sizeofAllocnode]
  omega

section

variable (h : (k.fill mid).Sound nl)

include h

theorem region_apart {R : MmRegion} (hR : R ∈ k.before ++ k.after) : R.Apart (k.region mid) := by
  have hapart := h.apart
  unfold fill at hapart
  rw [pairwise_append, pairwise_cons] at hapart
  rcases mem_append.mp hR with hR | hR
  · exact hapart.2.2 R hR _ mem_cons_self
  · exact Or.symm (hapart.2.1.1 R hR)

theorem outer_apart (hx : (x, c) ∈ k.outer (extent Chunk.size mid)) :
    x + c.size ≤ k.addr ∨ k.addr + extent Chunk.size mid ≤ x := by
  have hothers : (x, c) ∈ MmLayout.bodies (k.before ++ k.after) →
      x + c.size ≤ k.addr ∨ k.addr + extent Chunk.size mid ≤ x := by
    intro hx
    obtain ⟨R, hR, hx⟩ := MmLayout.mem_bodies.mp hx
    have hb := MmRegion.placed_bounds (MmRegion.mem_placed_of_mem_bodies hx)
    have hapart := region_apart h hR
    have hgap := region_bounds k mid
    unfold MmRegion.Apart at hapart
    omega
  simp only [outer, mem_append] at hx
  rcases hx with (hx | hx) | hx
  · exact hothers (by simpa [MmLayout.bodies] using hx)
  · exact .inl (place_bounds hx).2
  · exact .inr (place_bounds hx).1

/-- A chunk in the gap does not begin where one outside does. -/
theorem outer_ne {y : ℕ} {d : Chunk} (hx : (x, c) ∈ place Chunk.size k.addr mid)
    (hy : (y, d) ∈ k.outer (extent Chunk.size mid)) : x ≠ y := by
  have hb := place_bounds hx
  have hgap := outer_apart h hy
  have hc := h.room_placed (MmLayout.mem_placed_of_mem_bodies (mem_bodies_fill.mpr (.inr hx)))
  have hd := h.room_placed (MmLayout.mem_placed_of_mem_bodies (mem_bodies_fill.mpr (.inl hy)))
  unfold sizeofAllocnode at hc hd
  omega

end

/-! ### Neighbours of a gap -/

def pushRight (k : MmCtx) (c : Chunk) : MmCtx := { k with right := c :: k.right }

def pushLeft (k : MmCtx) (c : Chunk) : MmCtx := { k with left := k.left ++ [c] }

@[simp]
theorem fill_pushRight : (k.pushRight c).fill mid = k.fill (mid ++ [c]) := by
  simp [fill, region, pushRight]

@[simp]
theorem fill_pushLeft : (k.pushLeft c).fill mid = k.fill (c :: mid) := by
  simp [fill, region, pushLeft]

@[simp]
theorem addr_pushRight : (k.pushRight c).addr = k.addr := rfl

@[simp]
theorem addr_pushLeft : (k.pushLeft c).addr = k.addr + c.size := by
  simp [addr, pushLeft, Nat.add_assoc]

@[simp]
theorem next_pushRight : (k.pushRight c).next = c := rfl

@[simp]
theorem prev_pushLeft : (k.pushLeft c).prev = c := by
  simp [prev, pushLeft]

theorem mem_outer_pushRight :
    q ∈ (k.pushRight c).outer n ↔ q = (k.addr + n, c) ∨ q ∈ k.outer (n + c.size) := by
  simp only [outer, addr_pushRight, mem_append]
  simp only [pushRight, place_cons, mem_cons, Nat.add_assoc]
  tauto

theorem mem_outer_pushLeft :
    q ∈ (k.pushLeft c).outer n ↔ q = (k.addr, c) ∨ q ∈ k.outer (c.size + n) := by
  simp only [outer, addr_pushLeft, mem_append]
  simp only [pushLeft, place_append, place_cons, place_nil, mem_append, mem_singleton,
    Nat.add_assoc, addr]
  tauto

theorem eq_pushRight (k : MmCtx) (h : k.next.used = false) :
    ∃ (k' : MmCtx) (t : ℕ), k = k'.pushRight ⟨t, false⟩ := by
  obtain ⟨before, after, base, left, right⟩ := k
  cases right with
  | nil => cases h
  | cons c right =>
    obtain ⟨t, used⟩ := c
    cases used with
    | false => exact ⟨⟨before, after, base, left, right⟩, t, rfl⟩
    | true => cases h

theorem eq_pushLeft (k : MmCtx) (h : k.prev.used = false) :
    ∃ (k' : MmCtx) (t : ℕ), k = k'.pushLeft ⟨t, false⟩ := by
  obtain ⟨before, after, base, left, right⟩ := k
  rcases eq_nil_or_concat left with rfl | ⟨left, c, rfl⟩
  · cases h
  obtain ⟨t, used⟩ := c
  rw [concat_eq_append] at h ⊢
  cases used with
  | false => exact ⟨⟨before, after, base, left, right⟩, t, rfl⟩
  | true => simp [prev] at h

/-! ### Free neighbours -/

/-- The layout with a free chunk before the gap, or without if its size is zero. -/
def padLeft (k : MmCtx) (r : ℕ) : MmCtx := if r = 0 then k else k.pushLeft ⟨r, false⟩

/-- The layout with a free chunk behind the gap, or without if its size is zero. -/
def padRight (k : MmCtx) (r : ℕ) : MmCtx := if r = 0 then k else k.pushRight ⟨r, false⟩

variable {r r' : ℕ}

@[simp]
theorem padLeft_zero : k.padLeft 0 = k := rfl

@[simp]
theorem padRight_zero : k.padRight 0 = k := rfl

theorem padLeft_of_pos (hr : 0 < r) : k.padLeft r = k.pushLeft ⟨r, false⟩ := if_neg hr.ne'

theorem padRight_of_pos (hr : 0 < r) : k.padRight r = k.pushRight ⟨r, false⟩ := if_neg hr.ne'

@[simp]
theorem fill_padLeft : (k.padLeft r).fill mid = k.fill (pad r ++ mid) := by
  unfold padLeft pad
  split_ifs
  · rfl
  · exact fill_pushLeft

@[simp]
theorem fill_padRight : (k.padRight r).fill mid = k.fill (mid ++ pad r) := by
  unfold padRight pad
  split_ifs
  · rw [append_nil]
  · exact fill_pushRight

@[simp]
theorem addr_padLeft : (k.padLeft r).addr = k.addr + r := by
  unfold padLeft
  split_ifs with hr
  · rw [hr, Nat.add_zero]
  · exact addr_pushLeft

@[simp]
theorem addr_padRight : (k.padRight r).addr = k.addr := by
  unfold padRight
  split_ifs <;> rfl

theorem padRight_padLeft : (k.padRight r').padLeft r = (k.padLeft r).padRight r' := by
  unfold padRight padLeft
  split_ifs <;> rfl

@[simp]
theorem next_padLeft : (k.padLeft r).next = k.next := by
  unfold padLeft
  split_ifs <;> rfl

@[simp]
theorem prev_padRight : (k.padRight r).prev = k.prev := by
  unfold padRight
  split_ifs <;> rfl

theorem eq_padRight (k : MmCtx) (h : k.next.used = false → 0 < k.next.size) :
    ∃ k', k = padRight k' k.next.freeSize ∧ (k.next.freeSize = 0 → k'.next.used = true) := by
  cases hused : k.next.used with
  | true =>
    have hzero : k.next.freeSize = 0 := if_pos hused
    exact ⟨k, by rw [hzero, padRight_zero], fun _ => hused⟩
  | false =>
    obtain ⟨k', t, rfl⟩ := k.eq_pushRight hused
    have ht : 0 < t := h hused
    exact ⟨k', (padRight_of_pos ht).symm, fun hzero => absurd hzero ht.ne'⟩

theorem eq_padLeft (k : MmCtx) (h : k.prev.used = false → 0 < k.prev.size) :
    ∃ k', k = padLeft k' k.prev.freeSize ∧ (k.prev.freeSize = 0 → k'.prev.used = true) := by
  cases hused : k.prev.used with
  | true =>
    have hzero : k.prev.freeSize = 0 := if_pos hused
    exact ⟨k, by rw [hzero, padLeft_zero], fun _ => hused⟩
  | false =>
    obtain ⟨k', t, rfl⟩ := k.eq_pushLeft hused
    rw [prev_pushLeft] at h ⊢
    have ht : 0 < t := h rfl
    exact ⟨k', (padLeft_of_pos ht).symm, fun hzero => absurd hzero ht.ne'⟩

end MmCtx

end NuttX
