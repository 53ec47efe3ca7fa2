import NuttX.Nx.Rect
import NuttX.Lib.Slist

/-!
# Clipping a rectangle against the windows above it

`graphics/nxbe/nxbe_clipper.c`: the windows of a screen are linked from the bottom to the top, and
`nxbe_clipper` is given a rectangle and the lowest window that may hide a part of it. The rectangle
is compared with one window after the other. At the first one that overlaps it, the common part is
reported as obscured, and the rest, in at most four rectangles, is put on a stack, to be compared
with the windows above that one; a rectangle that overlaps none of them is reported as visible.

`NuttX.clipStep` is one round of the inner loop. What the whole loop reports is a recursion on the
list of windows, `NuttX.clipCalls` (`NuttX.clipLoop_cases`), and there the rectangles that are
reported make up the given one (`NuttX.clipCalls_visible`, `NuttX.clipCalls_obscured`). All of this
holds as long as the stack does. It is an array that is doubled when it is full, and its size is
kept in 16 bits: when 65536 entries have been allocated the size is stored as zero, and the next
rectangle is put behind the end of an array of 32 entries. Each window can leave three rectangles
on the stack, so 10922 windows are always few enough, and 10923 need not be
(`NuttX.clipper_partitions_iff`).
-/

namespace NuttX

open List

/-- The windows (`struct nxbe_window_s`) and the state of the back end (`struct nxbe_state_s`). -/
structure NxbeState where
  above : ℕ → Option ℕ
  below : ℕ → Option ℕ
  bounds : ℕ → NxglRect
  topwnd : ℕ
  bkgd : ℕ

/-- The order in which the parts of a rectangle are worked on: `NX_CLIPORDER_TLRB` and so on. -/
inductive ClipOrder where
  | tlrb
  | trlb
  | blrt
  | brlt
  deriving DecidableEq

def gNxcliporder : ClipOrder → List NxSide
  | .tlrb => [.top, .left, .right, .bottom]
  | .trlb => [.top, .right, .left, .bottom]
  | .blrt => [.bottom, .left, .right, .top]
  | .brlt => [.bottom, .right, .left, .top]

/-- A call of one of the functions in `struct nxbe_clipops_s`. -/
inductive ClipCall where
  | visible (rect : NxglRect)
  | obscured (rect : NxglRect)
  deriving DecidableEq

def ClipCall.visible? : ClipCall → Option NxglRect
  | .visible rect => some rect
  | .obscured _ => none

def ClipCall.obscured? : ClipCall → Option NxglRect
  | .visible _ => none
  | .obscured rect => some rect

/-- Why a function of the back end does not come to its end. -/
inductive ClipStop where
  | rounds
  | overrun
  | null
  deriving DecidableEq

def nxInitialStacksize : ℕ := 32

/-- `struct nxbe_clipstack_s`. The number of entries, `npushed`, is the length of the list; it does
not come to its own limit of 16 bits, because the array is overrun before. -/
structure ClipStack where
  stack : List (Option ℕ × NxglRect)
  mxrects : ℕ
  room : ℕ
  deriving DecidableEq

/-- The array is made larger if it is full, by a `realloc` that succeeds. -/
def clipGrow (s : ClipStack) : ClipStack :=
  if s.stack.length + 1 > s.mxrects then
    let mxrects := if s.mxrects ≠ 0 then 2 * s.mxrects else nxInitialStacksize
    { s with mxrects := mxrects % 0x10000, room := mxrects }
  else s

def nxbePushrectangle (s : ClipStack) (wnd : Option ℕ) (rect : NxglRect) :
    Except ClipStop ClipStack :=
  let s := clipGrow s
  if s.stack.length < s.room then .ok { s with stack := (wnd, rect) :: s.stack }
  else .error .overrun

/-- A part of a rectangle is pushed if it is not null. -/
def pushCandidate (wnd : Option ℕ) (s : ClipStack) (candidate : NxglRect) :
    Except ClipStop ClipStack :=
  if !nxglNullrect candidate then nxbePushrectangle s wnd candidate else .ok s

/-- The parts of a rectangle are pushed, the one that comes last in the order first. -/
def pushCandidates (order : ClipOrder) (nonoverlapped : NxSide → NxglRect) (wnd : Option ℕ)
    (s : ClipStack) : Except ClipStop ClipStack :=
  ((gNxcliporder order).map nonoverlapped).reverse.foldlM (pushCandidate wnd) s

/-- The variables of `nxbe_clipper`. -/
structure ClipState where
  currw : Option ℕ
  rect : NxglRect
  s : ClipStack
  deriving DecidableEq

def nxbePoprectangle (s : ClipStack) : Option ClipState :=
  match s.stack with
  | [] => none
  | (wnd, rect) :: stack => some ⟨wnd, rect, { s with stack := stack }⟩

/-- **A round of the inner loop**: the call that it makes, and how it goes on. -/
def clipStep (be : NxbeState) (order : ClipOrder) (st : ClipState) :
    Except ClipStop (Option ClipCall × Option ClipState) :=
  match st.currw with
  | some w =>
    if nxglRectoverlap st.rect (be.bounds w) then do
      let s ← pushCandidates order (nxglNonintersecting st.rect (be.bounds w)) (be.above w) st.s
      return (some (.obscured (nxglRectintersect st.rect (be.bounds w))), nxbePoprectangle s)
    else .ok (none, some { st with currw := be.above w })
  | none =>
    .ok (if !nxglNullrect st.rect then some (.visible st.rect) else none, nxbePoprectangle st.s)

/-- The rounds of both loops, as many as are given. -/
def clipLoop (be : NxbeState) (order : ClipOrder) :
    ℕ → ClipState → Except ClipStop (List ClipCall)
  | 0, _ => .error .rounds
  | rounds + 1, st => do
    let (call, next) ← clipStep be order st
    match next with
    | none => return call.toList
    | some st =>
      let calls ← clipLoop be order rounds st
      return call.toList ++ calls

/-- `nxbe_clipper`: the calls that it makes, in a number of rounds. -/
def nxbeClipper (be : NxbeState) (rounds : ℕ) (wnd : Option ℕ) (dest : NxglRect)
    (order : ClipOrder) : Except ClipStop (List ClipCall) :=
  clipLoop be order rounds ⟨wnd, dest, ⟨[], 0, 0⟩⟩

/-! ### What is reported -/

/-- The parts of a rectangle outside another one that are not null, in the order of the work. -/
def clipParts (order : ClipOrder) (rect bounds : NxglRect) : List NxglRect :=
  ((gNxcliporder order).map (nxglNonintersecting rect bounds)).filter fun r => !nxglNullrect r

/-- **What is reported of a rectangle**, as a recursion on the windows above it. -/
def clipCalls (bounds : ℕ → NxglRect) (order : ClipOrder) : List ℕ → NxglRect → List ClipCall
  | [], rect => if !nxglNullrect rect then [.visible rect] else []
  | w :: ws, rect =>
    if nxglRectoverlap rect (bounds w) then
      .obscured (nxglRectintersect rect (bounds w)) ::
        (clipParts order rect (bounds w)).flatMap (clipCalls bounds order ws)
    else clipCalls bounds order ws rect

/-- The pixels of the windows of a list. -/
def covered (bounds : ℕ → NxglRect) (ws : List ℕ) : Set NxglPoint :=
  {p | ∃ w ∈ ws, p ∈ (bounds w).cells}

section Calls

variable {bounds : ℕ → NxglRect} {order : ClipOrder} {ws : List ℕ} {w : ℕ} {rect b : NxglRect}

@[simp]
theorem covered_nil : covered bounds [] = ∅ := by
  simp [covered]

theorem covered_cons : covered bounds (w :: ws) = (bounds w).cells ∪ covered bounds ws := by
  ext p
  simp [covered]

theorem gNxcliporder_all (order : ClipOrder) :
    (gNxcliporder order).Nodup ∧ ∀ a, a ∈ gNxcliporder order := by
  cases order <;> exact ⟨by decide, fun a => by cases a <;> decide⟩

theorem nullrect_of_mem_parts {r : NxglRect} (hr : r ∈ clipParts order rect b) :
    nxglNullrect r = false := by
  simpa using (mem_filter.mp hr).2

theorem length_clipParts_le (order : ClipOrder) (rect b : NxglRect) :
    (clipParts order rect b).length ≤ 4 := by
  refine length_filter_le _ _ |>.trans ?_
  rw [length_map]
  cases order <;> decide

theorem clipParts_partitions (order : ClipOrder) (hb : nxglNullrect b = false)
    (h : nxglRectoverlap rect b = true) :
    Partitions ((clipParts order rect b).map NxglRect.cells) (rect.cells \ b.cells) := by
  obtain ⟨hnodup, hall⟩ := gNxcliporder_all order
  refine (nonintersecting_partitions hb h hnodup hall).filter fun r _ hr => ?_
  exact nxglNullrect_iff.mp (by simpa using hr)

/-- No rectangle without a pixel is reported as visible. -/
theorem nullrect_of_mem_visible {r : NxglRect}
    (hr : r ∈ (clipCalls bounds order ws rect).filterMap ClipCall.visible?) :
    nxglNullrect r = false := by
  induction ws generalizing rect with
  | nil =>
    unfold clipCalls at hr
    split_ifs at hr with hnull
    · obtain rfl : r = rect := by simpa [ClipCall.visible?] using hr
      simpa using hnull
    · exact nomatch hr
  | cons w ws ih =>
    unfold clipCalls at hr
    split_ifs at hr
    · rw [filterMap_cons_none rfl, filterMap_flatMap] at hr
      obtain ⟨part, -, hr⟩ := mem_flatMap.mp hr
      exact ih hr
    · exact ih hr

/-- **What is reported as visible** makes up the rectangle without the windows. -/
theorem clipCalls_visible (order : ClipOrder) (hrect : nxglNullrect rect = false)
    (hws : ∀ w ∈ ws, nxglNullrect (bounds w) = false) :
    Partitions (((clipCalls bounds order ws rect).filterMap ClipCall.visible?).map NxglRect.cells)
      (rect.cells \ covered bounds ws) := by
  induction ws generalizing rect with
  | nil =>
    simp only [clipCalls, hrect, Bool.not_false, if_true, covered_nil, Set.sdiff_empty]
    exact Partitions.single _
  | cons w ws ih =>
    have hws' : ∀ v ∈ ws, nxglNullrect (bounds v) = false :=
      fun v hv => hws v (mem_cons_of_mem w hv)
    rw [covered_cons, ← Set.sdiff_sdiff, clipCalls]
    cases hover : nxglRectoverlap rect (bounds w) with
    | true =>
      -- the parts are divided further, each by the windows that are left
      rw [if_pos rfl, filterMap_cons_none rfl, filterMap_flatMap, map_flatMap, Set.sdiff_eq]
      have hparts := clipParts_partitions order (hws w mem_cons_self) hover
      refine hparts.flatMap fun r hr => ?_
      exact ih (nullrect_of_mem_parts hr) hws'
    | false =>
      rw [if_neg Bool.false_ne_true, (disjoint_of_not_overlap hover).sdiff_eq_left]
      exact ih hrect hws'

/-- **What is reported as obscured** makes up the part of the rectangle that the windows hide. -/
theorem clipCalls_obscured (order : ClipOrder) (hrect : nxglNullrect rect = false)
    (hws : ∀ w ∈ ws, nxglNullrect (bounds w) = false) :
    Partitions (((clipCalls bounds order ws rect).filterMap ClipCall.obscured?).map NxglRect.cells)
      (rect.cells ∩ covered bounds ws) := by
  induction ws generalizing rect with
  | nil =>
    simp only [clipCalls, hrect, Bool.not_false, if_true, covered_nil, Set.inter_empty]
    exact Partitions.nil
  | cons w ws ih =>
    have hws' : ∀ v ∈ ws, nxglNullrect (bounds v) = false :=
      fun v hv => hws v (mem_cons_of_mem w hv)
    rw [covered_cons, clipCalls]
    cases hover : nxglRectoverlap rect (bounds w) with
    | true =>
      simp only [if_true, filterMap_cons, ClipCall.obscured?, map_cons,
        cells_rectintersect, filterMap_flatMap, map_flatMap]
      have hparts := clipParts_partitions order (hws w mem_cons_self) hover
      have hrest := hparts.flatMap fun r hr => ih (nullrect_of_mem_parts hr) hws'
      have hsplit : rect.cells ∩ ((bounds w).cells ∪ covered bounds ws) =
          rect.cells ∩ (bounds w).cells ∪ (rect.cells \ (bounds w).cells) ∩ covered bounds ws := by
        ext p
        simp only [Set.mem_inter_iff, Set.mem_union, Set.mem_sdiff]
        tauto
      rw [hsplit]
      refine hrest.cons (Set.disjoint_left.mpr ?_)
      rintro p ⟨-, hp⟩ ⟨⟨-, hnot⟩, -⟩
      exact hnot hp
    | false =>
      have hinter : rect.cells ∩ ((bounds w).cells ∪ covered bounds ws) =
          rect.cells ∩ covered bounds ws := by
        rw [Set.inter_union_distrib_left,
          Set.disjoint_iff_inter_eq_empty.mp (disjoint_of_not_overlap hover), Set.empty_union]
      rw [if_neg Bool.false_ne_true, hinter]
      exact ih hrect hws'

end Calls

/-! ### What the loop reports -/

/-- A rectangle that waits, with the windows that it is still to be compared with. -/
abbrev ClipEntry := List ℕ × NxglRect

/-- What is reported of the rectangles that wait. -/
def entryCalls (be : NxbeState) (order : ClipOrder) (es : List ClipEntry) : List ClipCall :=
  es.flatMap fun e => clipCalls be.bounds order e.1 e.2

/-- **A round of the loop**, as work on the first rectangle that waits. -/
def clipWork (be : NxbeState) (order : ClipOrder) :
    List ℕ → NxglRect → List ClipEntry → Option ClipCall × List ClipEntry
  | [], rect, es => (if !nxglNullrect rect then some (.visible rect) else none, es)
  | w :: ws, rect, es =>
    if nxglRectoverlap rect (be.bounds w) then
      (some (.obscured (nxglRectintersect rect (be.bounds w))),
        (clipParts order rect (be.bounds w)).map (fun r => (ws, r)) ++ es)
    else (none, (ws, rect) :: es)

/-- The entry of the stack for a rectangle that waits. -/
def clipEntry (e : ClipEntry) : Option ℕ × NxglRect := (e.1.head?, e.2)

/-- The variables of the loop, when these rectangles are left. -/
def clipState (mxrects room : ℕ) : List ClipEntry → Option ClipState
  | [] => none
  | e :: es => some ⟨e.1.head?, e.2, ⟨es.map clipEntry, mxrects, room⟩⟩

/-- The number of rounds for the rectangles that wait is at most this. -/
def clipCost (es : List ClipEntry) : ℕ := (es.map fun e => 5 ^ e.1.length).sum

/-- **The array has been doubled some times**, and there is memory for what its size says. -/
structure ClipStack.Grown (s : ClipStack) : Prop where
  room_eq : s.room = s.mxrects
  length_le : s.stack.length ≤ s.mxrects
  size : s.mxrects = 0 ∨ ∃ k ≤ 10, s.mxrects = 32 * 2 ^ k

/-- The rectangles that wait are few: below each one there are at most three for each window that
it is not compared with any more, of `n` windows. -/
def ClipLow (n : ℕ) : List ClipEntry → Prop
  | [] => True
  | e :: es => es.length + 3 * e.1.length ≤ 3 * n ∧ ClipLow n es

section Loop

variable {be : NxbeState} {order : ClipOrder} {s s' : ClipStack} {rounds rounds' : ℕ}
  {e : ClipEntry} {es : List ClipEntry} {ws : List ℕ} {w mxrects room n : ℕ} {rect : NxglRect}

@[simp]
theorem clipGrow_stack (s : ClipStack) : (clipGrow s).stack = s.stack := by
  unfold clipGrow
  split_ifs <;> rfl

theorem ClipStack.Grown.clipGrow (h : s.Grown) (hlen : s.stack.length < 0x8000) :
    (NuttX.clipGrow s).Grown ∧ s.stack.length < (NuttX.clipGrow s).room := by
  obtain ⟨hroom, hle, hsize⟩ := h
  unfold NuttX.clipGrow
  split_ifs with hfull hzero
  · -- the array is full, and it is not one of 32768 entries
    obtain ⟨k, hk, hmx⟩ := hsize.resolve_left hzero
    have hlt : k < 10 := by
      by_contra hge
      obtain rfl : k = 10 := by omega
      omega
    have hdouble : 2 * s.mxrects = 32 * 2 ^ (k + 1) := by
      omega
    have hmod : 2 * s.mxrects % 0x10000 = 2 * s.mxrects := Nat.mod_eq_of_lt (by omega)
    refine ⟨⟨hmod.symm, ?_, .inr ⟨k + 1, hlt, hmod.trans hdouble⟩⟩, ?_⟩
    · dsimp only
      omega
    · dsimp only
      omega
  · have hnil : s.stack.length = 0 := by omega
    refine ⟨⟨rfl, ?_, .inr ⟨0, by decide, rfl⟩⟩, ?_⟩
    · dsimp only
      rw [hnil]
      decide
    · dsimp only
      rw [hnil]
      decide
  · exact ⟨⟨hroom, hle, hsize⟩, by omega⟩

theorem pushrectangle_cases (s : ClipStack) (wnd : Option ℕ) (rect : NxglRect) :
    (nxbePushrectangle s wnd rect = .error .overrun ∧ (s.Grown → 0x8000 ≤ s.stack.length)) ∨
      ∃ s', nxbePushrectangle s wnd rect = .ok s' ∧ s'.stack = (wnd, rect) :: s.stack ∧
        (s.Grown → s.stack.length < 0x8000 → s'.Grown) := by
  unfold nxbePushrectangle
  dsimp only
  split_ifs with hroom
  · refine .inr ⟨_, rfl, by rw [clipGrow_stack], fun hs hlen => ?_⟩
    obtain ⟨hgrown, -⟩ := hs.clipGrow hlen
    exact ⟨hgrown.room_eq, hgrown.room_eq ▸ hroom, hgrown.size⟩
  · refine .inl ⟨rfl, fun hs => Nat.not_lt.mp fun hlen => hroom ?_⟩
    rw [clipGrow_stack]
    exact (hs.clipGrow hlen).2

theorem foldlM_pushCandidate_cases (wnd : Option ℕ) (candidates : List NxglRect) (s : ClipStack) :
    (candidates.foldlM (pushCandidate wnd) s = .error .overrun ∧
        (s.Grown → 0x8000 < s.stack.length + candidates.length)) ∨
      ∃ s', candidates.foldlM (pushCandidate wnd) s = .ok s' ∧
        s'.stack = (candidates.reverse.filter fun r => !nxglNullrect r).map
          (fun r => (wnd, r)) ++ s.stack ∧
        (s.Grown → s.stack.length + candidates.length ≤ 0x8000 → s'.Grown) := by
  induction candidates generalizing s with
  | nil => exact .inr ⟨s, rfl, rfl, fun hs _ => hs⟩
  | cons r candidates ih =>
    rw [foldlM_cons, reverse_cons, filter_append, map_append, length_cons]
    cases hnull : nxglNullrect r with
    | true =>
      have hpush : pushCandidate wnd s r = .ok s := by
        simp [pushCandidate, hnull]
      have hlast : ([r].filter fun r => !nxglNullrect r) = [] := by
        simp [hnull]
      rw [hpush, hlast, map_nil, append_nil]
      refine (ih s).imp (And.imp_right fun h hs => ?_) ?_
      · have := h hs
        omega
      · rintro ⟨s', hok, hstack, h⟩
        exact ⟨s', hok, hstack, fun hs hlen => h hs (by omega)⟩
    | false =>
      have hpush : pushCandidate wnd s r = nxbePushrectangle s wnd r := by
        simp [pushCandidate, hnull]
      have hlast : ([r].filter fun r => !nxglNullrect r) = [r] := by
        simp [hnull]
      rw [hpush, hlast, append_assoc]
      rcases pushrectangle_cases s wnd r with ⟨hover, hfull⟩ | ⟨s', hok, hstack, hgrown⟩
      · rw [hover]
        refine .inl ⟨rfl, fun hs => ?_⟩
        have := hfull hs
        omega
      · have hcases := ih s'
        rw [hstack, length_cons] at hcases
        rw [hok]
        refine hcases.imp (And.imp_right fun h hs => ?_) ?_
        · by_contra hlen
          have := h (hgrown hs (by omega))
          omega
        · rintro ⟨s'', hok, hstack, h⟩
          exact ⟨s'', hok, hstack, fun hs hlen => h (hgrown hs (by omega)) (by omega)⟩

/-- **The candidates come to lie on the stack in the order of the work**, unless it is overrun: not
if there is room for four rectangles. -/
theorem pushCandidates_cases (order : ClipOrder) (rect b : NxglRect) (wnd : Option ℕ)
    (s : ClipStack) :
    (pushCandidates order (nxglNonintersecting rect b) wnd s = .error .overrun ∧
        (s.Grown → 0x8000 < s.stack.length + 4)) ∨
      ∃ s', pushCandidates order (nxglNonintersecting rect b) wnd s = .ok s' ∧
        s'.stack = (clipParts order rect b).map (fun r => (wnd, r)) ++ s.stack ∧
        (s.Grown → s.stack.length + 4 ≤ 0x8000 → s'.Grown) := by
  have hcases := foldlM_pushCandidate_cases wnd
    ((gNxcliporder order).map (nxglNonintersecting rect b)).reverse s
  have hcount : ((gNxcliporder order).map (nxglNonintersecting rect b)).reverse.length = 4 := by
    cases order <;> rfl
  rwa [reverse_reverse, hcount] at hcases

theorem clipCost_cons (e : ClipEntry) (es : List ClipEntry) :
    clipCost (e :: es) = 5 ^ e.1.length + clipCost es := by
  simp [clipCost]

theorem clipCost_parts (parts : List NxglRect) (ws : List ℕ) (es : List ClipEntry) :
    clipCost (parts.map (fun r => (ws, r)) ++ es) = parts.length * 5 ^ ws.length + clipCost es := by
  induction parts with
  | nil => simp [clipCost]
  | cons r parts ih =>
    rw [map_cons, cons_append, clipCost_cons, ih, length_cons, Nat.succ_mul,
      ← Nat.add_assoc, Nat.add_comm (5 ^ ws.length)]

theorem entryCalls_cons (be : NxbeState) (order : ClipOrder) (ws : List ℕ) (rect : NxglRect)
    (es : List ClipEntry) :
    entryCalls be order ((ws, rect) :: es) =
      clipCalls be.bounds order ws rect ++ entryCalls be order es :=
  rfl

theorem clipCost_clipWork (be : NxbeState) (order : ClipOrder) (ws : List ℕ) (rect : NxglRect)
    (es : List ClipEntry) :
    clipCost (clipWork be order ws rect es).2 < clipCost ((ws, rect) :: es) := by
  rw [clipCost_cons]
  cases ws with
  | nil => simp [clipWork]
  | cons w ws =>
    have hpos : 0 < 5 ^ ws.length := Nat.pow_pos (by decide)
    rw [clipWork, length_cons, Nat.pow_succ]
    split_ifs
    · have hle := Nat.mul_le_mul_right (5 ^ ws.length)
        (length_clipParts_le order rect (be.bounds w))
      rw [clipCost_parts]
      omega
    · rw [clipCost_cons]
      dsimp only
      omega

theorem entryCalls_clipWork (be : NxbeState) (order : ClipOrder) (ws : List ℕ) (rect : NxglRect)
    (es : List ClipEntry) :
    entryCalls be order ((ws, rect) :: es) = (clipWork be order ws rect es).1.toList ++
      entryCalls be order (clipWork be order ws rect es).2 := by
  rw [entryCalls_cons]
  cases ws with
  | nil =>
    rw [clipCalls, clipWork]
    split_ifs <;> rfl
  | cons w ws =>
    rw [clipCalls, clipWork]
    split_ifs
    · simp [entryCalls, flatMap_map]
    · rfl

theorem linked_clipWork (order : ClipOrder)
    (h : ∀ e ∈ (ws, rect) :: es, Linked be.above e.1.head? e.1) :
    ∀ e ∈ (clipWork be order ws rect es).2, Linked be.above e.1.head? e.1 := by
  obtain ⟨hws, hes⟩ := forall_mem_cons.mp h
  cases ws with
  | nil => exact hes
  | cons w ws =>
    have hrest : Linked be.above ws.head? ws := hws.2.head? ▸ hws.2
    rw [clipWork]
    split_ifs
    · intro e he
      rcases mem_append.mp he with he | he
      · obtain ⟨r, -, rfl⟩ := mem_map.mp he
        exact hrest
      · exact hes e he
    · exact forall_mem_cons.mpr ⟨hrest, hes⟩

theorem poprectangle_eq (es : List ClipEntry) (mxrects room : ℕ) :
    nxbePoprectangle ⟨es.map clipEntry, mxrects, room⟩ = clipState mxrects room es := by
  cases es <;> rfl

theorem ClipStack.Grown.tail (h : Grown ⟨es.map clipEntry, mxrects, room⟩) :
    Grown ⟨es.tail.map clipEntry, mxrects, room⟩ := by
  have hle := h.length_le
  refine ⟨h.room_eq, ?_, h.size⟩
  simp only [length_map, length_tail] at hle ⊢
  omega

/-- **A round is work on the first rectangle that waits**, unless the stack is overrun. -/
theorem clipStep_cases (hws : Linked be.above ws.head? ws) (order : ClipOrder) (rect : NxglRect)
    (es : List ClipEntry) (mxrects room : ℕ) :
    (clipStep be order ⟨ws.head?, rect, ⟨es.map clipEntry, mxrects, room⟩⟩ = .error .overrun ∧
        (ClipStack.Grown ⟨es.map clipEntry, mxrects, room⟩ → ws ≠ [] ∧ 0x8000 < es.length + 4)) ∨
      ∃ mxrects' room', clipStep be order ⟨ws.head?, rect, ⟨es.map clipEntry, mxrects, room⟩⟩ =
          .ok ((clipWork be order ws rect es).1,
            clipState mxrects' room' (clipWork be order ws rect es).2) ∧
        (ClipStack.Grown ⟨es.map clipEntry, mxrects, room⟩ →
          (ws ≠ [] → es.length + 4 ≤ 0x8000) → ClipStack.Grown
            ⟨(clipWork be order ws rect es).2.tail.map clipEntry, mxrects', room'⟩) := by
  cases ws with
  | nil =>
    refine .inr ⟨mxrects, room, ?_, fun hs _ => hs.tail⟩
    rw [clipWork, ← poprectangle_eq]
    rfl
  | cons w ws =>
    have hhead : be.above w = ws.head? := hws.2.head?
    rw [clipWork]
    simp only [clipStep, head?_cons, hhead]
    cases hover : nxglRectoverlap rect (be.bounds w) with
    | true =>
      have hcases := pushCandidates_cases order rect (be.bounds w) ws.head?
        ⟨es.map clipEntry, mxrects, room⟩
      rw [length_map] at hcases
      rcases hcases with ⟨hover, hfull⟩ | ⟨⟨stack, mxrects', room'⟩, hok, hstack, hgrown⟩
      · rw [hover]
        exact .inl ⟨rfl, fun hs => ⟨cons_ne_nil w ws, hfull hs⟩⟩
      have hmap : stack = ((clipParts order rect (be.bounds w)).map (fun r => (ws, r)) ++ es).map
          clipEntry := by
        rw [map_append, map_map]
        exact hstack
      subst hmap
      refine .inr ⟨mxrects', room', ?_, fun hs hlen => ?_⟩
      · rw [hok, if_pos rfl, ← poprectangle_eq]
        rfl
      · exact (hgrown hs (hlen (cons_ne_nil w ws))).tail
    | false => exact .inr ⟨mxrects, room, rfl, fun hs _ => hs⟩

theorem clipLow_parts (parts : List NxglRect) (hes : ClipLow n es)
    (hlen : parts.length + es.length + 3 * ws.length ≤ 3 * n + 1) :
    ClipLow n (parts.map (fun r => (ws, r)) ++ es) := by
  induction parts with
  | nil => exact hes
  | cons r parts ih =>
    rw [length_cons] at hlen
    rw [map_cons, cons_append]
    refine ⟨?_, ih (by omega)⟩
    rw [length_append, length_map]
    dsimp only
    omega

theorem clipLow_clipWork (h : ClipLow n ((ws, rect) :: es)) (be : NxbeState)
    (order : ClipOrder) : ClipLow n (clipWork be order ws rect es).2 := by
  obtain ⟨hlen, hes⟩ := h
  cases ws with
  | nil => exact hes
  | cons w ws =>
    have hparts := length_clipParts_le order rect (be.bounds w)
    simp only [length_cons] at hlen
    rw [clipWork]
    split_ifs
    · exact clipLow_parts _ hes (by omega)
    · exact ⟨by dsimp only; omega, hes⟩

theorem clipLoop_of_error {st : ClipState} {stop : ClipStop}
    (h : clipStep be order st = .error stop) (rounds : ℕ) :
    clipLoop be order (rounds + 1) st = .error stop := by
  rw [clipLoop, h]
  rfl

theorem clipLoop_of_done {st : ClipState} {call : Option ClipCall}
    (h : clipStep be order st = .ok (call, none)) (rounds : ℕ) :
    clipLoop be order (rounds + 1) st = .ok call.toList := by
  rw [clipLoop, h]
  rfl

theorem clipLoop_of_step {st st' : ClipState} {call : Option ClipCall}
    (h : clipStep be order st = .ok (call, some st')) (rounds : ℕ) :
    clipLoop be order (rounds + 1) st =
      (clipLoop be order rounds st').map fun calls => call.toList ++ calls := by
  rw [clipLoop, h]
  rfl

/-- **The loop reports what the recursion says**, in enough rounds, unless the stack is overrun; it
is not when there are at most 10922 windows. -/
theorem clipLoop_cases (h : ∀ e ∈ (ws, rect) :: es, Linked be.above e.1.head? e.1)
    (order : ClipOrder) (mxrects room : ℕ) (hrounds : clipCost ((ws, rect) :: es) ≤ rounds) :
    (clipLoop be order rounds ⟨ws.head?, rect, ⟨es.map clipEntry, mxrects, room⟩⟩ =
        .error .overrun ∧ (ClipStack.Grown ⟨es.map clipEntry, mxrects, room⟩ →
          ¬ ClipLow 10922 ((ws, rect) :: es))) ∨
      clipLoop be order rounds ⟨ws.head?, rect, ⟨es.map clipEntry, mxrects, room⟩⟩ =
        .ok (entryCalls be order ((ws, rect) :: es)) := by
  induction rounds generalizing ws rect es mxrects room with
  | zero =>
    have hpos : 0 < 5 ^ ws.length := Nat.pow_pos (by decide)
    rw [clipCost_cons] at hrounds
    dsimp only at hrounds
    omega
  | succ rounds ih =>
    have hroom : ClipLow 10922 ((ws, rect) :: es) → ws ≠ [] → es.length + 4 ≤ 0x8000 := by
      intro hlow hne
      have hpos := length_pos_iff.mpr hne
      have hlen := hlow.1
      dsimp only at hlen
      omega
    rcases clipStep_cases (h _ mem_cons_self) order rect es mxrects room with
      ⟨hover, hfull⟩ | ⟨mxrects', room', hok, hgrown⟩
    · refine .inl ⟨clipLoop_of_error hover rounds, fun hs hlow => ?_⟩
      obtain ⟨hne, hlen⟩ := hfull hs
      exact absurd (hroom hlow hne) (by omega)
    have hcost := clipCost_clipWork be order ws rect es
    have hlinked := linked_clipWork order h
    have hlow' := fun hlow : ClipLow 10922 ((ws, rect) :: es) => clipLow_clipWork hlow be order
    rw [entryCalls_clipWork]
    generalize (clipWork be order ws rect es).2 = es' at *
    cases es' with
    | nil =>
      refine .inr ((clipLoop_of_done hok rounds).trans ?_)
      rw [entryCalls, flatMap_nil, append_nil]
    | cons e' es' =>
      obtain ⟨ws', rect'⟩ := e'
      rw [clipLoop_of_step hok rounds]
      rcases ih hlinked mxrects' room' (by omega) with ⟨hover, hfull⟩ | hcalls
      · refine .inl ⟨by rw [hover]; rfl, fun hs hlow => ?_⟩
        exact hfull (hgrown hs (hroom hlow)) (hlow' hlow)
      · exact .inr (by rw [hcalls]; rfl)

theorem clipLoop_mono {st : ClipState} (hle : rounds ≤ rounds')
    (h : clipLoop be order rounds st ≠ .error .rounds) :
    clipLoop be order rounds' st = clipLoop be order rounds st := by
  induction rounds generalizing rounds' st with
  | zero => exact absurd rfl h
  | succ rounds ih =>
    obtain ⟨rounds', rfl⟩ : ∃ r, rounds' = r + 1 := ⟨rounds' - 1, by omega⟩
    cases hstep : clipStep be order st with
    | error stop => rw [clipLoop_of_error hstep, clipLoop_of_error hstep]
    | ok r =>
      obtain ⟨call, next⟩ := r
      cases next with
      | none => rw [clipLoop_of_done hstep, clipLoop_of_done hstep]
      | some st' =>
        rw [clipLoop_of_step hstep] at h ⊢
        rw [clipLoop_of_step hstep, ih (Nat.le_of_succ_le_succ hle)]
        intro hstop
        rw [hstop] at h
        exact h rfl

end Loop

/-! ### The law -/

/-- What `nxbe_clipper` is given: the windows from `wnd` upwards are those of a list, no rectangle
is null, and the coordinates have 16 bits. -/
structure ClipInput (be : NxbeState) (wnd : Option ℕ) (ws : List ℕ) (dest : NxglRect) : Prop where
  linked : Linked be.above wnd ws
  dest_nonnull : nxglNullrect dest = false
  bounds_nonnull : ∀ w ∈ ws, nxglNullrect (be.bounds w) = false
  dest_inRange : dest.InRange
  bounds_inRange : ∀ w ∈ ws, (be.bounds w).InRange

/-- **The rectangle is divided**: the loop comes to its end, no rectangle without a pixel is
reported as visible, what is visible makes up the rectangle without the windows, and what is
obscured makes up the rest. -/
def ClipLaw (be : NxbeState) (wnd : Option ℕ) (ws : List ℕ) (dest : NxglRect)
    (order : ClipOrder) : Prop :=
  ∃ rounds calls, nxbeClipper be rounds wnd dest order = .ok calls ∧
    (∀ r ∈ calls.filterMap ClipCall.visible?, nxglNullrect r = false) ∧
    Partitions ((calls.filterMap ClipCall.visible?).map NxglRect.cells)
      (dest.cells \ covered be.bounds ws) ∧
    Partitions ((calls.filterMap ClipCall.obscured?).map NxglRect.cells)
      (dest.cells ∩ covered be.bounds ws)

def ClipFits (be : NxbeState) (wnd : Option ℕ) (dest : NxglRect) (order : ClipOrder) : Prop :=
  ∀ rounds, nxbeClipper be rounds wnd dest order ≠ .error .overrun

section Law

variable {be : NxbeState} {order : ClipOrder} {wnd : Option ℕ} {ws : List ℕ} {dest : NxglRect}
  {rounds : ℕ} {calls : List ClipCall}

theorem nxbeClipper_cases (h : Linked be.above wnd ws) (dest : NxglRect) (order : ClipOrder)
    (hrounds : 5 ^ ws.length ≤ rounds) :
    (nxbeClipper be rounds wnd dest order = .error .overrun ∧ 10922 < ws.length) ∨
      nxbeClipper be rounds wnd dest order = .ok (clipCalls be.bounds order ws dest) := by
  obtain rfl := h.head?
  have hentry : ∀ e ∈ [(ws, dest)], Linked be.above e.1.head? e.1 := by simpa using h
  have hcost : clipCost [(ws, dest)] ≤ rounds := by simpa [clipCost] using hrounds
  have hcases := clipLoop_cases hentry order 0 0 hcost
  rw [entryCalls, flatMap_cons, flatMap_nil, append_nil] at hcases
  refine hcases.imp_left (And.imp_right fun hlow => Nat.not_le.mp fun hlen => ?_)
  exact hlow ⟨rfl, Nat.le_refl 0, .inl rfl⟩ ⟨by simp; omega, trivial⟩

theorem nxbeClipper_mono {rounds' : ℕ} (hle : rounds ≤ rounds')
    (h : nxbeClipper be rounds wnd dest order ≠ .error .rounds) :
    nxbeClipper be rounds' wnd dest order = nxbeClipper be rounds wnd dest order :=
  clipLoop_mono hle h

/-- What comes to its end in some number of rounds does not overrun the stack in another one. -/
theorem not_overrun_of_ok {α : Type} {f : ℕ → Except ClipStop α} {a : α}
    (hmono : ∀ {r r'}, r ≤ r' → f r ≠ .error .rounds → f r' = f r) (h : f rounds = .ok a)
    (rounds' : ℕ) : f rounds' ≠ .error .overrun := by
  intro hover
  rcases Nat.le_total rounds rounds' with hle | hle
  · rw [hmono hle (by rw [h]; exact nofun), h] at hover
    exact nomatch hover
  · rw [hmono hle (by rw [hover]; exact nofun), hover] at h
    exact nomatch h

theorem clipFits_of_ok (h : nxbeClipper be rounds wnd dest order = .ok calls) :
    ClipFits be wnd dest order :=
  not_overrun_of_ok nxbeClipper_mono h

/-- **A rectangle is divided as long as the stack is not overrun.** -/
theorem clipLaw_iff_fits (h : ClipInput be wnd ws dest) :
    ClipLaw be wnd ws dest order ↔ ClipFits be wnd dest order := by
  constructor
  · rintro ⟨rounds, calls, hok, -⟩
    exact clipFits_of_ok hok
  intro hfits
  have hok := (nxbeClipper_cases h.linked dest order (Nat.le_refl _)).resolve_left
    fun hover => hfits _ hover.1
  exact ⟨_, _, hok, fun r hr => nullrect_of_mem_visible hr,
    clipCalls_visible order h.dest_nonnull h.bounds_nonnull,
    clipCalls_obscured order h.dest_nonnull h.bounds_nonnull⟩

theorem clipFits_of_length (h : Linked be.above wnd ws) (hlen : ws.length ≤ 10922) :
    ClipFits be wnd dest order := by
  rcases nxbeClipper_cases h dest order (Nat.le_refl _) with ⟨-, hmany⟩ | hok
  · omega
  · exact clipFits_of_ok hok

end Law

/-! ### Windows that fill the stack -/

/-- The row of a window, two further up for each window before it. -/
def stairRow (k : ℕ) : ℤ := 21845 - 2 * k

def stairBounds (k : ℕ) : NxglRect := ⟨⟨1, stairRow k⟩, ⟨1, stairRow k⟩⟩

/-- What is left of a rectangle three pixels wide above the windows before. -/
def stairRect (k : ℕ) : NxglRect := ⟨⟨0, 0⟩, ⟨2, stairRow k + 1⟩⟩

/-- The windows from 0 to 10922 are above each other, and each one is two rows further up. -/
structure Stairs (be : NxbeState) : Prop where
  above : ∀ k < 10922, be.above k = some (k + 1)
  bounds : ∀ k ≤ 10922, be.bounds k = stairBounds k

section Stairs

variable {be : NxbeState} {k : ℕ} {s : ClipStack}

theorem clipParts_stairs (hk : k ≤ 10922) :
    clipParts .tlrb (stairRect k) (stairBounds k) =
      [⟨⟨0, 0⟩, ⟨2, stairRow k - 1⟩⟩, ⟨⟨0, stairRow k⟩, ⟨0, stairRow k⟩⟩,
        ⟨⟨2, stairRow k⟩, ⟨2, stairRow k⟩⟩, ⟨⟨0, stairRow k + 1⟩, ⟨2, stairRow k + 1⟩⟩] := by
  have hrow : 1 ≤ stairRow k := by
    unfold stairRow
    omega
  have hinter : nxglRectintersect (stairRect k) (stairBounds k) = stairBounds k := by
    simp only [nxglRectintersect, stairRect, stairBounds, NxglRect.mk.injEq, NxglPoint.mk.injEq]
    omega
  simp only [clipParts, gNxcliporder, map_cons, map_nil, nxglNonintersecting, hinter]
  refine filter_eq_self.mpr fun r hr => ?_
  rw [Bool.not_eq_true', nxglNullrect_eq_false]
  simp only [stairRect, stairBounds, mem_cons, not_mem_nil, or_false] at hr
  rcases hr with rfl | rfl | rfl | rfl <;> dsimp only <;> omega

theorem overlap_stairs (hk : k ≤ 10922) :
    nxglRectoverlap (stairRect k) (stairBounds k) = true := by
  rw [nxglRectoverlap_iff]
  simp only [stairRect, stairBounds, stairRow]
  omega

/-- **Each window leaves three more rectangles on the stack.** -/
theorem clipStep_stairs (h : Stairs be) (hk : k < 10922) (hs : s.Grown)
    (hlen : s.stack.length = 3 * k) :
    ∃ call s', clipStep be .tlrb ⟨some k, stairRect k, s⟩ =
        .ok (call, some ⟨some (k + 1), stairRect (k + 1), s'⟩) ∧
      s'.Grown ∧ s'.stack.length = 3 * (k + 1) := by
  obtain ⟨-, hfull⟩ | ⟨⟨stack, mxrects, room⟩, hok, hstack, hgrown⟩ :=
    pushCandidates_cases .tlrb (stairRect k) (stairBounds k) (be.above k) s
  · have := hfull hs
    omega
  replace hgrown := hgrown hs (by omega)
  have hrow : stairRow k - 1 = stairRow (k + 1) + 1 := by
    unfold stairRow
    omega
  rw [clipParts_stairs hk.le, hrow, ← stairRect] at hstack
  obtain ⟨rest, hrest, hthree⟩ : ∃ rest, stack = (be.above k, stairRect (k + 1)) :: rest ∧
      rest.length = s.stack.length + 3 := ⟨_, hstack, rfl⟩
  subst hrest
  refine ⟨some (.obscured (nxglRectintersect (stairRect k) (stairBounds k))),
    ⟨rest, mxrects, room⟩, ?_, ⟨hgrown.room_eq,
      (Nat.le_succ _).trans hgrown.length_le, hgrown.size⟩, ?_⟩
  · simp only [clipStep, h.bounds k hk.le, overlap_stairs hk.le, if_true, hok]
    rw [h.above k hk]
    rfl
  · dsimp only
    omega

/-- Four rectangles are pushed onto a stack of 32766: the third one makes the array as large as its
size cannot say, and for the fourth one it is made too small. -/
theorem pushAll_overrun {wnd : Option ℕ} {a b c d : NxglRect} (hs : s.Grown)
    (hlen : s.stack.length = 32766) (hnull : ∀ r ∈ [a, b, c, d], nxglNullrect r = false) :
    [a, b, c, d].foldlM (pushCandidate wnd) s = .error .overrun := by
  obtain ⟨hroom, hle, hsize⟩ := hs
  have hmx : s.mxrects = 0x8000 := by
    obtain ⟨k, hk, hmx⟩ := hsize.resolve_left (by omega)
    obtain rfl : k = 10 := by
      by_contra hne
      have hpow : 2 ^ k ≤ 2 ^ 9 := Nat.pow_le_pow_right (by decide) (by omega)
      omega
    exact hmx
  simp only [forall_mem_cons] at hnull
  obtain ⟨ha, hb, hc, hd, -⟩ := hnull
  have hpush : ∀ r, nxglNullrect r = false → ∀ s, pushCandidate wnd s r =
      nxbePushrectangle s wnd r := by
    intro r hr s
    simp [pushCandidate, hr]
  obtain ⟨stack, mxrects, room⟩ := s
  dsimp only at *
  subst hmx hroom
  have h1 : nxbePushrectangle ⟨stack, 0x8000, 0x8000⟩ wnd a =
      .ok ⟨(wnd, a) :: stack, 0x8000, 0x8000⟩ := by
    simp [nxbePushrectangle, clipGrow, hlen]
  have h2 : nxbePushrectangle ⟨(wnd, a) :: stack, 0x8000, 0x8000⟩ wnd b =
      .ok ⟨(wnd, b) :: (wnd, a) :: stack, 0x8000, 0x8000⟩ := by
    simp [nxbePushrectangle, clipGrow, hlen]
  have h3 : nxbePushrectangle ⟨(wnd, b) :: (wnd, a) :: stack, 0x8000, 0x8000⟩ wnd c =
      .ok ⟨(wnd, c) :: (wnd, b) :: (wnd, a) :: stack, 0, 0x10000⟩ := by
    simp [nxbePushrectangle, clipGrow, hlen]
  have h4 : nxbePushrectangle ⟨(wnd, c) :: (wnd, b) :: (wnd, a) :: stack, 0, 0x10000⟩ wnd d =
      .error .overrun := by
    simp [nxbePushrectangle, clipGrow, hlen, nxInitialStacksize]
  rw [foldlM_cons, hpush a ha, h1]
  change [b, c, d].foldlM (pushCandidate wnd) _ = _
  rw [foldlM_cons, hpush b hb, h2]
  change [c, d].foldlM (pushCandidate wnd) _ = _
  rw [foldlM_cons, hpush c hc, h3]
  change [d].foldlM (pushCandidate wnd) _ = _
  rw [foldlM_cons, hpush d hd, h4]
  rfl

/-- **The last window overruns the stack.** -/
theorem clipStep_stairs_last (h : Stairs be) (hs : s.Grown) (hlen : s.stack.length = 32766) :
    clipStep be .tlrb ⟨some 10922, stairRect 10922, s⟩ = .error .overrun := by
  have hbounds := h.bounds 10922 (Nat.le_refl _)
  simp only [clipStep, hbounds, overlap_stairs (Nat.le_refl 10922), if_true]
  have hpush : pushCandidates .tlrb (nxglNonintersecting (stairRect 10922) (stairBounds 10922))
      (be.above 10922) s = .error .overrun := by
    refine pushAll_overrun hs hlen ?_
    intro r hr
    simp only [mem_cons, not_mem_nil, or_false] at hr
    rcases hr with rfl | rfl | rfl | rfl <;> decide
  rw [hpush]
  rfl

theorem clipLoop_stairs (h : Stairs be) (hk : k ≤ 10922) :
    ∃ calls s, s.Grown ∧ s.stack.length = 3 * k ∧ ∀ rounds,
      clipLoop be .tlrb (k + rounds) ⟨some 0, stairRect 0, ⟨[], 0, 0⟩⟩ =
        (clipLoop be .tlrb rounds ⟨some k, stairRect k, s⟩).map fun rest => calls ++ rest := by
  induction k with
  | zero =>
    refine ⟨[], ⟨[], 0, 0⟩, ⟨rfl, Nat.le_refl 0, .inl rfl⟩, rfl, fun rounds => ?_⟩
    rw [Nat.zero_add]
    cases clipLoop be .tlrb rounds ⟨some 0, stairRect 0, ⟨[], 0, 0⟩⟩ <;> rfl
  | succ k ih =>
    obtain ⟨calls, s, hs, hlen, hloop⟩ := ih (Nat.le_of_succ_le hk)
    obtain ⟨call, s', hstep, hs', hlen'⟩ := clipStep_stairs h hk hs hlen
    refine ⟨calls ++ call.toList, s', hs', hlen', fun rounds => ?_⟩
    rw [Nat.succ_add, ← Nat.add_succ, hloop, clipLoop_of_step hstep]
    cases clipLoop be .tlrb rounds ⟨some (k + 1), stairRect (k + 1), s'⟩ with
    | error stop => rfl
    | ok rest => exact congrArg Except.ok (append_assoc _ _ _).symm

/-- **10923 windows can overrun the stack.** -/
theorem not_clipFits_stairs (h : Stairs be) : ¬ClipFits be (some 0) (stairRect 0) .tlrb := by
  intro hfits
  obtain ⟨calls, s, hs, hlen, hloop⟩ := clipLoop_stairs h (Nat.le_refl 10922)
  refine hfits (10922 + 1) ((hloop 1).trans ?_)
  rw [clipLoop_of_error (clipStep_stairs_last h hs hlen)]
  rfl

end Stairs

/-- The numbers from `k` on are linked, each one to the next. -/
theorem linked_range {next : ℕ → Option ℕ} (j k : ℕ)
    (hnext : ∀ i, k ≤ i → i < k + j → next i = some (i + 1)) (hlast : next (k + j) = none) :
    Linked next (some k) (range' k (j + 1)) := by
  induction j generalizing k with
  | zero => exact ⟨rfl, hlast⟩
  | succ j ih =>
    refine ⟨rfl, ?_⟩
    rw [hnext k (Nat.le_refl k) (by omega)]
    rw [Nat.add_left_comm, Nat.add_comm] at hlast
    exact ih (k + 1) (fun i hk hi => hnext i (by omega) (by omega)) hlast

/-- A number of windows above each other, the first ones in a column of every other row. -/
def stairsState (n : ℕ) : NxbeState where
  above k := if k + 1 < n then some (k + 1) else none
  below k := if k = 0 then none else some (k - 1)
  bounds k := stairBounds (min k 10922)
  topwnd := n - 1
  bkgd := 0

theorem clipInput_stairsState {n : ℕ} (hn : 0 < n) :
    ClipInput (stairsState n) (some 0) (range' 0 n) (stairRect 0) := by
  obtain ⟨j, rfl⟩ : ∃ j, n = j + 1 := ⟨n - 1, by omega⟩
  have hrow : ∀ k, 1 ≤ stairRow (min k 10922) ∧ stairRow (min k 10922) ≤ 21845 := by
    intro k
    unfold stairRow
    omega
  refine ⟨?_, by decide, fun k _ => ?_, by decide, fun k _ => ?_⟩
  · exact linked_range j 0 (fun i _ hi => if_pos (by omega)) (if_neg (by omega))
  · rw [nxglNullrect_eq_false]
    exact ⟨Int.le_refl _, Int.le_refl _⟩
  · obtain ⟨hge, hle⟩ := hrow k
    simp only [NxglRect.InRange, stairsState, stairBounds]
    omega

theorem stairs_stairsState {n : ℕ} (hn : 10923 ≤ n) : Stairs (stairsState n) where
  above k hk := if_pos (by omega)
  bounds k hk := by simp only [stairsState, Nat.min_eq_left hk]

end NuttX
