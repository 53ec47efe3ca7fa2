import NuttX.Lib.Partition

/-!
# Rectangles of the graphics library

`graphics/nxglib`: rectangles are given by two corners that belong to them, and are empty if the
corners are the wrong way round. A rectangle stands for its pixels, `NuttX.NxglRect.cells`, and the
functions of the library are read as operations on sets of pixels. The one with some geometry in it
is `nxgl_nonintersecting`: what is left of a rectangle outside another one is divided into four
parts, above, below, and at either side (`NuttX.nonintersecting_partitions`).

Coordinates are integers here. The ones of the source have 16 bits, and `NuttX.NxglRect.InRange`
says of a rectangle that the computations below do not leave these.
-/

namespace NuttX

@[ext]
structure NxglPoint where
  x : ℤ
  y : ℤ
  deriving DecidableEq

/-- `struct nxgl_rect_s`: both corners belong to the rectangle. -/
@[ext]
structure NxglRect where
  pt1 : NxglPoint
  pt2 : NxglPoint
  deriving DecidableEq

namespace NxglRect

def Has (r : NxglRect) (p : NxglPoint) : Prop :=
  (r.pt1.x ≤ p.x ∧ p.x ≤ r.pt2.x) ∧ r.pt1.y ≤ p.y ∧ p.y ≤ r.pt2.y

instance (r : NxglRect) (p : NxglPoint) : Decidable (r.Has p) :=
  inferInstanceAs (Decidable (_ ∧ _))

def cells (r : NxglRect) : Set NxglPoint := {p | r.Has p}

theorem mem_cells {r : NxglRect} {p : NxglPoint} :
    p ∈ r.cells ↔ (r.pt1.x ≤ p.x ∧ p.x ≤ r.pt2.x) ∧ r.pt1.y ≤ p.y ∧ p.y ≤ r.pt2.y :=
  Iff.rfl

instance (r : NxglRect) (p : NxglPoint) : Decidable (p ∈ r.cells) :=
  inferInstanceAs (Decidable (r.Has p))

/-- The coordinates, and those next to them, have 16 bits. -/
def InRange (r : NxglRect) : Prop :=
  (-0x8000 < r.pt1.x ∧ -0x8000 < r.pt1.y) ∧ r.pt2.x < 0x7fff ∧ r.pt2.y < 0x7fff

instance (r : NxglRect) : Decidable r.InRange :=
  inferInstanceAs (Decidable (_ ∧ _))

end NxglRect

def nxglNullrect (r : NxglRect) : Bool := r.pt1.x > r.pt2.x || r.pt1.y > r.pt2.y

def nxglRectoverlap (rect1 rect2 : NxglRect) : Bool :=
  rect1.pt1.x ≤ rect2.pt2.x && rect2.pt1.x ≤ rect1.pt2.x && rect1.pt1.y ≤ rect2.pt2.y &&
    rect2.pt1.y ≤ rect1.pt2.y

def nxglRectintersect (src1 src2 : NxglRect) : NxglRect :=
  ⟨⟨max src1.pt1.x src2.pt1.x, max src1.pt1.y src2.pt1.y⟩,
    ⟨min src1.pt2.x src2.pt2.x, min src1.pt2.y src2.pt2.y⟩⟩

/-- `nxgl_rectunion`: the smallest rectangle around both. -/
def nxglRectunion (src1 src2 : NxglRect) : NxglRect :=
  ⟨⟨min src1.pt1.x src2.pt1.x, min src1.pt1.y src2.pt1.y⟩,
    ⟨max src1.pt2.x src2.pt2.x, max src1.pt2.y src2.pt2.y⟩⟩

def nxglRectoffset (src : NxglRect) (dx dy : ℤ) : NxglRect :=
  ⟨⟨src.pt1.x + dx, src.pt1.y + dy⟩, ⟨src.pt2.x + dx, src.pt2.y + dy⟩⟩

/-- The index into the result of `nxgl_nonintersecting`: `NX_TOP_NDX`, `NX_LEFT_NDX`,
`NX_RIGHT_NDX` and `NX_BOTTOM_NDX`. -/
inductive NxSide where
  | top
  | left
  | right
  | bottom
  deriving DecidableEq

/-- `nxgl_nonintersecting`: what `rect1` has outside `rect2`, in four rectangles. -/
def nxglNonintersecting (rect1 rect2 : NxglRect) : NxSide → NxglRect :=
  let intersection := nxglRectintersect rect1 rect2
  fun
  | .top => ⟨rect1.pt1, ⟨rect1.pt2.x, intersection.pt1.y - 1⟩⟩
  | .bottom => ⟨⟨rect1.pt1.x, intersection.pt2.y + 1⟩, rect1.pt2⟩
  | .left => ⟨⟨rect1.pt1.x, intersection.pt1.y⟩, ⟨intersection.pt1.x - 1, intersection.pt2.y⟩⟩
  | .right => ⟨⟨intersection.pt2.x + 1, intersection.pt1.y⟩, ⟨rect1.pt2.x, intersection.pt2.y⟩⟩

/-! ### Their pixels -/

section Cells

variable {r r' : NxglRect} {p : NxglPoint}

theorem nxglNullrect_eq_false :
    nxglNullrect r = false ↔ r.pt1.x ≤ r.pt2.x ∧ r.pt1.y ≤ r.pt2.y := by
  simp [nxglNullrect]

theorem nxglNullrect_iff : nxglNullrect r = true ↔ r.cells = ∅ := by
  constructor
  · intro h
    rw [nxglNullrect, Bool.or_eq_true, decide_eq_true_iff, decide_eq_true_iff] at h
    refine Set.eq_empty_of_forall_notMem fun p hp => ?_
    rw [NxglRect.mem_cells] at hp
    omega
  · intro h
    by_contra hne
    obtain ⟨hx, hy⟩ := nxglNullrect_eq_false.mp (Bool.eq_false_iff.mpr hne)
    have hmem : r.pt1 ∈ r.cells := ⟨⟨Int.le_refl _, hx⟩, Int.le_refl _, hy⟩
    rw [h] at hmem
    exact hmem

theorem nxglRectoverlap_iff :
    nxglRectoverlap r r' = true ↔ (r.pt1.x ≤ r'.pt2.x ∧ r'.pt1.x ≤ r.pt2.x) ∧
      r.pt1.y ≤ r'.pt2.y ∧ r'.pt1.y ≤ r.pt2.y := by
  simp only [nxglRectoverlap, Bool.and_eq_true, decide_eq_true_eq, and_assoc]

theorem cells_rectintersect : (nxglRectintersect r r').cells = r.cells ∩ r'.cells := by
  ext p
  simp only [nxglRectintersect, Set.mem_inter_iff, NxglRect.mem_cells]
  omega

theorem cells_rectunion_left : r.cells ⊆ (nxglRectunion r r').cells := by
  intro p hp
  simp only [nxglRectunion, NxglRect.mem_cells] at hp ⊢
  omega

theorem cells_rectunion_right : r'.cells ⊆ (nxglRectunion r r').cells := by
  intro p hp
  simp only [nxglRectunion, NxglRect.mem_cells] at hp ⊢
  omega

theorem disjoint_of_not_overlap (h : nxglRectoverlap r r' = false) :
    Disjoint r.cells r'.cells := by
  refine Set.disjoint_left.mpr fun p hp hp' => ?_
  rw [← Bool.not_eq_true, nxglRectoverlap_iff] at h
  rw [NxglRect.mem_cells] at hp hp'
  omega

theorem nonintersecting_disjoint (hr' : nxglNullrect r' = false) {a b : NxSide} (hab : a ≠ b) :
    Disjoint (nxglNonintersecting r r' a).cells (nxglNonintersecting r r' b).cells := by
  obtain ⟨hx, hy⟩ := nxglNullrect_eq_false.mp hr'
  refine Set.disjoint_left.mpr fun p hp hp' => ?_
  rw [NxglRect.mem_cells] at hp hp'
  cases a <;> cases b <;>
    first
    | exact hab rfl
    | simp only [nxglNonintersecting, nxglRectintersect] at hp hp'
      omega

/-- The four parts are what the first rectangle has outside the second one. -/
theorem mem_nonintersecting (h : nxglRectoverlap r r' = true) :
    p ∈ r.cells \ r'.cells ↔ ∃ a, p ∈ (nxglNonintersecting r r' a).cells := by
  rw [nxglRectoverlap_iff] at h
  have hsides : (∃ a, p ∈ (nxglNonintersecting r r' a).cells) ↔
      (p ∈ (nxglNonintersecting r r' .top).cells ∨ p ∈ (nxglNonintersecting r r' .left).cells) ∨
      p ∈ (nxglNonintersecting r r' .right).cells ∨
      p ∈ (nxglNonintersecting r r' .bottom).cells := by
    constructor
    · rintro ⟨a, ha⟩
      cases a <;> simp [ha]
    · rintro ((h | h) | h | h) <;> exact ⟨_, h⟩
  rw [hsides, Set.mem_sdiff]
  simp only [NxglRect.mem_cells, nxglNonintersecting, nxglRectintersect]
  omega

/-- **What a rectangle has outside another one is divided into the four parts**, in whatever order
they are taken. -/
theorem nonintersecting_partitions (hr' : nxglNullrect r' = false)
    (h : nxglRectoverlap r r' = true) {sides : List NxSide} (hnodup : sides.Nodup)
    (hall : ∀ a, a ∈ sides) :
    Partitions ((sides.map (nxglNonintersecting r r')).map NxglRect.cells)
      (r.cells \ r'.cells) := by
  rw [List.map_map]
  constructor
  · rw [List.pairwise_map]
    exact hnodup.imp fun hab => nonintersecting_disjoint hr' hab
  intro p
  rw [mem_nonintersecting h]
  constructor
  · rintro ⟨a, ha⟩
    exact ⟨_, List.mem_map.mpr ⟨a, hall a, rfl⟩, ha⟩
  · rintro ⟨_, ht, hp⟩
    obtain ⟨a, -, rfl⟩ := List.mem_map.mp ht
    exact ⟨a, hp⟩

end Cells

end NuttX
