import NuttX.Nx.Clipper

/-!
# What is painted again when the windows change

`graphics/nxbe`: a window is raised, lowered, moved, resized or closed. The functions change the
links or the rectangle of the window, and then ask windows to paint rectangles again. A window that
has been raised is asked for all of itself. In the other cases `nxbe_redrawbelow` goes down from a
window to the background, and asks each one for what can be seen of it in the region that the change
concerns.

The window that is seen at a pixel is the last one in the order from the background to the top,
`NuttX.topmost`. `NuttX.Repainted` says that the requests make up a set of pixels, and that each one
is addressed to the window that is seen there. For a walk down some windows this set is the part of
the region where one of these is seen (`NuttX.redrawLoop_cases`), and for each of the five functions
the pixels at which something else is seen than before are among them. So the functions do what they
are for, as long as the clipper does (`NuttX.repaint_iff`).
-/

namespace NuttX

open Function NxbeState List

/-- A request to a window to paint a rectangle: a call of `nxfe_redrawreq`. -/
abbrev RedrawReq := ℕ × NxglRect

namespace NxbeState

/-- `w->above = v`. -/
def setAbove (be : NxbeState) (w v : Option ℕ) : Except ClipStop NxbeState :=
  match w with
  | none => .error .null
  | some w => .ok { be with above := update be.above w v }

/-- `w->below = v`. -/
def setBelow (be : NxbeState) (w v : Option ℕ) : Except ClipStop NxbeState :=
  match w with
  | none => .error .null
  | some w => .ok { be with below := update be.below w v }

/-- `be->topwnd = w`, for a pointer that is not null. -/
def setTopwnd (be : NxbeState) (w : Option ℕ) : Except ClipStop NxbeState :=
  match w with
  | none => .error .null
  | some w => .ok { be with topwnd := w }

def setBounds (be : NxbeState) (w : ℕ) (rect : NxglRect) : NxbeState :=
  { be with bounds := update be.bounds w rect }

end NxbeState

/-- `nxbe_redraw`, with one colour plane. -/
def nxbeRedraw (be : NxbeState) (rounds wnd : ℕ) (rect : NxglRect) :
    Except ClipStop (List RedrawReq) :=
  let remaining := nxglRectintersect (nxglRectintersect rect (be.bounds be.bkgd)) (be.bounds wnd)
  if !nxglNullrect remaining then do
    let calls ← nxbeClipper be rounds (be.above wnd) remaining .tlrb
    return (calls.filterMap ClipCall.visible?).map fun r => (wnd, r)
  else .ok []

/-- The loop of `nxbe_redrawbelow`. -/
def redrawLoop (be : NxbeState) (rounds : ℕ) (rect : NxglRect) :
    ℕ → Option ℕ → Except ClipStop (List RedrawReq)
  | 0, _ => .error .rounds
  | _ + 1, none => .ok []
  | walk + 1, some currwnd => do
    let reqs ← nxbeRedraw be rounds currwnd rect
    let rest ← redrawLoop be rounds rect walk (be.below currwnd)
    return reqs ++ rest

def nxbeRedrawbelow (be : NxbeState) (rounds : ℕ) (wnd : Option ℕ) (rect : NxglRect) :
    Except ClipStop (List RedrawReq) :=
  redrawLoop be rounds rect rounds wnd

def nxbeRaise (be : NxbeState) (wnd : ℕ) : Except ClipStop (NxbeState × List RedrawReq) :=
  match be.above wnd with
  | none => .ok (be, [])
  | some _ => do
    let be ← be.setBelow (be.above wnd) (be.below wnd)
    let be ← be.setAbove (be.below wnd) (be.above wnd)
    let be ← be.setAbove (some wnd) none
    let be ← be.setBelow (some wnd) (some be.topwnd)
    let be ← be.setAbove (some be.topwnd) (some wnd)
    let be ← be.setTopwnd (some wnd)
    return (be, [(wnd, be.bounds wnd)])

/-- `nxbe_lower` takes the window out of the list. -/
def lowerRemove (be : NxbeState) (wnd : ℕ) : Except ClipStop NxbeState := do
  let be ← be.setAbove (be.below wnd) (be.above wnd)
  match be.above wnd with
  | some above => be.setBelow (some above) (be.below wnd)
  | none => do
    let be ← be.setTopwnd (be.below wnd)
    be.setAbove (some be.topwnd) none

/-- `nxbe_lower` puts the window back above the background. The window that was the lowest one
keeps its link to the background. -/
def lowerInsert (be : NxbeState) (wnd : ℕ) : Except ClipStop NxbeState := do
  let be ← be.setBelow (some wnd) (some be.bkgd)
  let be ← be.setAbove (some wnd) (be.above be.bkgd)
  be.setAbove (some be.bkgd) (some wnd)

def nxbeLower (be : NxbeState) (rounds wnd : ℕ) : Except ClipStop (NxbeState × List RedrawReq) :=
  if be.below wnd = none ∨ be.below wnd = some be.bkgd then .ok (be, [])
  else do
    let be ← lowerRemove be wnd
    let below := be.below wnd
    let be ← lowerInsert be wnd
    let reqs ← nxbeRedrawbelow be rounds below (be.bounds wnd)
    return (be, reqs)

/-- The rectangle of a window that is moved. -/
def movedBounds (bounds : NxglRect) (pos : NxglPoint) : NxglRect :=
  nxglRectoffset (nxglRectoffset bounds (-bounds.pt1.x) (-bounds.pt1.y)) pos.x pos.y

def nxbeSetposition (be : NxbeState) (rounds wnd : ℕ) (pos : NxglPoint) :
    Except ClipStop (NxbeState × List RedrawReq) := do
  let before := be.bounds wnd
  let be := be.setBounds wnd (movedBounds before pos)
  let rect := nxglRectintersect (nxglRectunion before (be.bounds wnd)) (be.bounds be.bkgd)
  let reqs ← nxbeRedrawbelow be rounds (some wnd) rect
  return (be, reqs)

/-- `struct nxgl_size_s`. -/
structure NxglSize where
  w : ℤ
  h : ℤ
  deriving DecidableEq

/-- The rectangle of a window that is resized, clipped to the background. -/
def resizedBounds (bounds bkgd : NxglRect) (size : NxglSize) : NxglRect :=
  nxglRectintersect ⟨bounds.pt1, ⟨bounds.pt1.x + size.w - 1, bounds.pt1.y + size.h - 1⟩⟩ bkgd

def nxbeSetsize (be : NxbeState) (rounds wnd : ℕ) (size : NxglSize) :
    Except ClipStop (NxbeState × List RedrawReq) := do
  let bounds := be.bounds wnd
  let be := be.setBounds wnd (resizedBounds bounds (be.bounds be.bkgd) size)
  let reqs ← nxbeRedrawbelow be rounds (some wnd) (nxglRectunion bounds (be.bounds wnd))
  return (be, reqs)

/-- What `nxbe_closewindow` does to the links. -/
def closeLinks (be : NxbeState) (wnd : ℕ) : Except ClipStop NxbeState := do
  let be ← match be.above wnd with
    | some above => be.setBelow (some above) (be.below wnd)
    | none => be.setTopwnd (be.below wnd)
  be.setAbove (be.below wnd) (be.above wnd)

def nxbeClosewindow (be : NxbeState) (rounds wnd : ℕ) :
    Except ClipStop (NxbeState × List RedrawReq) := do
  let be ← closeLinks be wnd
  let reqs ← nxbeRedrawbelow be rounds (be.below wnd) (be.bounds wnd)
  return (be, reqs)

/-- A call for a window. -/
inductive NxOp where
  | raise
  | lower
  | setposition (pos : NxglPoint)
  | setsize (size : NxglSize)
  | closewindow
  deriving DecidableEq

/-- The call: the state after it, and the requests that it makes. -/
def nxOp (be : NxbeState) (rounds wnd : ℕ) : NxOp → Except ClipStop (NxbeState × List RedrawReq)
  | .raise => nxbeRaise be wnd
  | .lower => nxbeLower be rounds wnd
  | .setposition pos => nxbeSetposition be rounds wnd pos
  | .setsize size => nxbeSetsize be rounds wnd size
  | .closewindow => nxbeClosewindow be rounds wnd

/-- The rectangle of the window after the call. -/
def NxOp.boundsAfter (be : NxbeState) (wnd : ℕ) : NxOp → NxglRect
  | .setposition pos => movedBounds (be.bounds wnd) pos
  | .setsize size => resizedBounds (be.bounds wnd) (be.bounds be.bkgd) size
  | .raise | .lower | .closewindow => be.bounds wnd

/-! ### What is seen -/

/-- **The window that is seen at a pixel**, of windows from the bottom to the top. -/
def topmost (bounds : ℕ → NxglRect) (l : List ℕ) (p : NxglPoint) : Option ℕ :=
  l.reverse.find? fun w => decide (p ∈ (bounds w).cells)

section Topmost

variable {bounds bounds' : ℕ → NxglRect} {l m pre post : List ℕ} {w : ℕ} {p : NxglPoint}

theorem topmost_append :
    topmost bounds (l ++ m) p = (topmost bounds m p).or (topmost bounds l p) := by
  rw [topmost, reverse_append, find?_append]
  rfl

theorem topmost_singleton :
    topmost bounds [w] p = if p ∈ (bounds w).cells then some w else none := by
  by_cases hp : p ∈ (bounds w).cells <;> simp [topmost, hp]

theorem topmost_cons :
    topmost bounds (w :: l) p =
      (topmost bounds l p).or (if p ∈ (bounds w).cells then some w else none) := by
  rw [← topmost_singleton, ← topmost_append]
  rfl

theorem topmost_middle :
    topmost bounds (l ++ w :: m) p = (topmost bounds m p).or
      ((if p ∈ (bounds w).cells then some w else none).or (topmost bounds l p)) := by
  rw [topmost_append, topmost_cons, Option.or_assoc]

theorem topmost_eq_none : topmost bounds l p = none ↔ p ∉ covered bounds l := by
  simp [topmost, covered]

theorem mem_of_topmost (h : topmost bounds l p = some w) : w ∈ l ∧ p ∈ (bounds w).cells := by
  refine ⟨mem_reverse.mp (mem_of_find?_eq_some h), ?_⟩
  simpa using find?_some h

theorem exists_topmost (h : p ∈ covered bounds l) : ∃ w ∈ l, topmost bounds l p = some w := by
  cases htop : topmost bounds l p with
  | none => exact absurd h (topmost_eq_none.mp htop)
  | some w => exact ⟨w, (mem_of_topmost htop).1, rfl⟩

theorem topmost_congr (h : ∀ w ∈ l, bounds' w = bounds w) :
    topmost bounds' l p = topmost bounds l p := by
  induction l with
  | nil => rfl
  | cons w l ih =>
    rw [topmost_cons, topmost_cons, h w mem_cons_self, ih fun v hv => h v (mem_cons_of_mem w hv)]

/-- What is below is seen where nothing above is. -/
theorem or_ne_or {o o₁ o₂ : Option ℕ} (h : o.or o₁ ≠ o.or o₂) : o = none ∧ o₁ ≠ o₂ := by
  cases o with
  | none => exact ⟨rfl, h⟩
  | some v => exact absurd rfl h

/-- A window is seen where no window above it is. -/
theorem topmost_eq_some (hnodup : (pre ++ w :: post).Nodup) :
    topmost bounds (pre ++ w :: post) p = some w ↔ p ∈ (bounds w).cells \ covered bounds post := by
  rw [topmost_append, topmost_cons, Set.mem_sdiff, ← topmost_eq_none]
  have hne : ∀ {l}, w ∉ l → topmost bounds l p ≠ some w :=
    fun hw h => hw (mem_of_topmost h).1
  obtain ⟨hpost, hpre⟩ : w ∉ post ∧ w ∉ pre := by
    obtain ⟨hw, -⟩ := nodup_cons.mp (nodup_middle.mp hnodup)
    exact ⟨fun h => hw (mem_append_right _ h), fun h => hw (mem_append_left _ h)⟩
  have hpost' := hne hpost
  have hpre' := hne hpre
  cases htop : topmost bounds post p with
  | none =>
    by_cases hp : p ∈ (bounds w).cells
    · simp [hp]
    · simpa [hp] using hpre'
  | some v =>
    rw [htop] at hpost'
    simpa using hpost'

end Topmost

/-! ### What is painted -/

/-- **The requests make up a set of pixels**, and each one is addressed to the window that is seen
there. -/
structure Repainted (bounds : ℕ → NxglRect) (l : List ℕ) (reqs : List RedrawReq)
    (s : Set NxglPoint) : Prop where
  parts : Partitions (reqs.map fun q => q.2.cells) s
  seen : ∀ q ∈ reqs, ∀ p ∈ q.2.cells, topmost bounds l p = some q.1

def seenIn (be : NxbeState) (l : List ℕ) (rect : NxglRect) (ds : List ℕ) : Set NxglPoint :=
  {p ∈ rect.cells ∩ (be.bounds be.bkgd).cells | ∃ w ∈ ds, topmost be.bounds l p = some w}

section Redraw

variable {be : NxbeState} {l ds pre post : List ℕ} {reqs reqs' : List RedrawReq}
  {s s' : Set NxglPoint} {bounds : ℕ → NxglRect} {rect : NxglRect} {wnd w rounds rounds' : ℕ}
  {start : Option ℕ}

theorem mem_seenIn {p : NxglPoint} :
    p ∈ seenIn be l rect ds ↔ (p ∈ rect.cells ∧ p ∈ (be.bounds be.bkgd).cells) ∧
      ∃ w ∈ ds, topmost be.bounds l p = some w :=
  Iff.rfl

theorem seenIn_nil : seenIn be l rect [] = ∅ := by
  ext p
  simp [mem_seenIn]

theorem seenIn_cons : seenIn be l rect (w :: ds) = seenIn be l rect [w] ∪ seenIn be l rect ds := by
  ext p
  simp [mem_seenIn, ← and_or_left]

theorem Repainted.nil : Repainted bounds l [] ∅ :=
  ⟨Partitions.nil, fun _ hq => nomatch hq⟩

theorem Repainted.append (h : Repainted bounds l reqs s) (h' : Repainted bounds l reqs' s')
    (hdisj : Disjoint s s') : Repainted bounds l (reqs ++ reqs') (s ∪ s') := by
  refine ⟨?_, fun q hq => ?_⟩
  · rw [map_append]
    exact h.parts.append h'.parts hdisj
  · rcases mem_append.mp hq with hq | hq
    · exact h.seen q hq
    · exact h'.seen q hq

/-- **`nxbe_redraw` asks the window for what is seen of it**, unless the clipper fails. -/
theorem redraw_cases (habove : Linked be.above (some wnd) (wnd :: post))
    (hnodup : (pre ++ wnd :: post).Nodup)
    (hnull : ∀ w ∈ post, nxglNullrect (be.bounds w) = false)
    (hrounds : 5 ^ post.length ≤ rounds) (rect : NxglRect) :
    (nxbeRedraw be rounds wnd rect = .error .overrun ∧ 10922 < post.length) ∨
      ∃ reqs, nxbeRedraw be rounds wnd rect = .ok reqs ∧
        Repainted be.bounds (pre ++ wnd :: post) reqs
          (seenIn be (pre ++ wnd :: post) rect [wnd]) := by
  unfold nxbeRedraw
  dsimp only
  set remaining := nxglRectintersect (nxglRectintersect rect (be.bounds be.bkgd)) (be.bounds wnd)
    with hremaining
  have hseen : seenIn be (pre ++ wnd :: post) rect [wnd] =
      remaining.cells \ covered be.bounds post := by
    ext p
    simp only [mem_seenIn, mem_singleton, exists_eq_left, topmost_eq_some hnodup, hremaining,
      cells_rectintersect, Set.mem_inter_iff, Set.mem_sdiff, and_assoc]
  rw [hseen]
  cases hrem : nxglNullrect remaining with
  | true =>
    refine .inr ⟨[], rfl, ?_⟩
    rw [nxglNullrect_iff.mp hrem, Set.empty_sdiff]
    exact Repainted.nil
  | false =>
    rcases nxbeClipper_cases habove.2 remaining .tlrb hrounds with ⟨hover, hlen⟩ | hok
    · rw [hover]
      exact .inl ⟨rfl, hlen⟩
    rw [hok]
    have hparts := clipCalls_visible .tlrb hrem hnull
    refine .inr ⟨_, rfl, ⟨?_, fun q hq p hp => ?_⟩⟩
    · rw [map_map]
      exact hparts
    obtain ⟨r, hr, rfl⟩ := mem_map.mp hq
    have hmem := hparts.subset (mem_map.mpr ⟨r, hr, rfl⟩) hp
    rw [topmost_eq_some hnodup]
    rw [hremaining, cells_rectintersect] at hmem
    exact ⟨hmem.1.2, hmem.2⟩

/-- **`nxbe_redrawbelow` asks for what is seen of the windows on the way down**, unless the clipper
fails. -/
theorem redrawLoop_cases {walk : ℕ} (hl : Linked be.above (some be.bkgd) l)
    (hnull : ∀ w ∈ l, nxglNullrect (be.bounds w) = false) (hrounds : 5 ^ l.length ≤ rounds)
    (hbelow : Linked be.below start ds) (hds : ∀ w ∈ ds, w ∈ l) (hwalk : ds.length < walk) :
    (redrawLoop be rounds rect walk start = .error .overrun ∧ 10923 < l.length) ∨
      ∃ reqs, redrawLoop be rounds rect walk start = .ok reqs ∧
        Repainted be.bounds l reqs (seenIn be l rect ds) := by
  induction ds generalizing start walk with
  | nil =>
    obtain ⟨walk, rfl⟩ : ∃ k, walk = k + 1 := ⟨walk - 1, by omega⟩
    rw [Linked.nil_iff.mp hbelow]
    refine .inr ⟨[], rfl, ?_⟩
    rw [seenIn_nil]
    exact Repainted.nil
  | cons w ds ih =>
    obtain ⟨walk, rfl⟩ : ∃ k, walk = k + 1 := ⟨walk - 1, by omega⟩
    obtain ⟨rfl, hrest⟩ := hbelow
    obtain ⟨pre, post, rfl⟩ := append_of_mem (hds w mem_cons_self)
    have hw : w ∉ ds := (nodup_cons.mp (Linked.nodup ⟨rfl, hrest⟩)).1
    have hpow : 5 ^ post.length ≤ rounds := by
      refine (Nat.pow_le_pow_right (by decide) ?_).trans hrounds
      rw [length_append, length_cons]
      omega
    rw [redrawLoop]
    rcases redraw_cases ⟨rfl, hl.rest⟩ hl.nodup (fun v hv => hnull v (by simp [hv])) hpow rect with
      ⟨hover, hlen⟩ | ⟨reqs, hok, hreqs⟩
    · rw [hover]
      refine .inl ⟨rfl, ?_⟩
      rw [length_append, length_cons]
      omega
    rw [hok]
    rcases ih hrest (fun v hv => hds v (mem_cons_of_mem w hv)) (by simpa using hwalk) with
      ⟨hover, hlen⟩ | ⟨reqs', hok', hreqs'⟩
    · refine .inl ⟨?_, hlen⟩
      simp only [hover]
      rfl
    refine .inr ⟨reqs ++ reqs', ?_, ?_⟩
    · simp only [hok']
      rfl
    rw [seenIn_cons]
    refine hreqs.append hreqs' (Set.disjoint_left.mpr ?_)
    rintro p ⟨-, v, hv, htop⟩ ⟨-, v', hv', htop'⟩
    rw [mem_singleton.mp hv] at htop
    exact hw (Option.some.inj (htop.symm.trans htop') ▸ hv')

theorem ne_error_of_bind {α β : Type} {x : Except ClipStop α} {f : α → Except ClipStop β}
    {stop : ClipStop} (h : (x >>= f) ≠ .error stop) : x ≠ .error stop := by
  rintro rfl
  exact h rfl

theorem bind_mono {α β : Type} {x : Except ClipStop α} {f g : α → Except ClipStop β}
    {stop : ClipStop} (h : (x >>= f) ≠ .error stop)
    (hfg : ∀ a, f a ≠ .error stop → g a = f a) : (x >>= g) = (x >>= f) := by
  cases x with
  | error stop => rfl
  | ok a => exact hfg a h

theorem redraw_mono (hle : rounds ≤ rounds') (h : nxbeRedraw be rounds wnd rect ≠ .error .rounds) :
    nxbeRedraw be rounds' wnd rect = nxbeRedraw be rounds wnd rect := by
  unfold nxbeRedraw at h ⊢
  dsimp only at h ⊢
  split_ifs at h ⊢
  · rw [nxbeClipper_mono hle (ne_error_of_bind h)]
  · rfl

theorem redrawLoop_mono {walk walk' : ℕ} (hle : rounds ≤ rounds') (hwalk : walk ≤ walk')
    (h : redrawLoop be rounds rect walk start ≠ .error .rounds) :
    redrawLoop be rounds' rect walk' start = redrawLoop be rounds rect walk start := by
  induction walk generalizing walk' start with
  | zero => exact absurd rfl h
  | succ walk ih =>
    obtain ⟨walk', rfl⟩ : ∃ k, walk' = k + 1 := ⟨walk' - 1, by omega⟩
    cases start with
    | none => rfl
    | some w =>
      rw [redrawLoop, redraw_mono hle (ne_error_of_bind h)]
      refine bind_mono h fun reqs h => ?_
      rw [ih (Nat.le_of_succ_le_succ hwalk) (ne_error_of_bind h)]

theorem redrawbelow_mono (hle : rounds ≤ rounds')
    (h : nxbeRedrawbelow be rounds start rect ≠ .error .rounds) :
    nxbeRedrawbelow be rounds' start rect = nxbeRedrawbelow be rounds start rect :=
  redrawLoop_mono hle hle h

end Redraw

theorem nxOp_mono {be : NxbeState} {wnd rounds rounds' : ℕ} {op : NxOp} (hle : rounds ≤ rounds')
    (h : nxOp be rounds wnd op ≠ .error .rounds) :
    nxOp be rounds' wnd op = nxOp be rounds wnd op := by
  cases op with
  | raise => rfl
  | lower =>
    unfold nxOp nxbeLower at *
    split_ifs at h ⊢
    · rfl
    · refine bind_mono h fun be h => bind_mono h fun be h => ?_
      rw [redrawbelow_mono hle (ne_error_of_bind h)]
  | setposition pos | setsize size =>
    simp only [nxOp, nxbeSetposition, nxbeSetsize] at h ⊢
    rw [redrawbelow_mono hle (ne_error_of_bind h)]
  | closewindow =>
    refine bind_mono h fun be h => ?_
    rw [redrawbelow_mono hle (ne_error_of_bind h)]

/-! ### The law -/

/-- **The list of windows**: from the background to the window at the top, and back. -/
structure WindowList (be : NxbeState) (ws : List ℕ) : Prop where
  above : Linked be.above (some be.bkgd) (be.bkgd :: ws)
  below : Linked be.below (some be.topwnd) (be.bkgd :: ws).reverse

/-- What the functions are given: the windows are linked from the background to the top and back,
the background covers the screen, no window is without pixels before and after the call, and the
coordinates have 16 bits. -/
structure NxInput (be : NxbeState) (ws : List ℕ) (screen : Set NxglPoint) (wnd : ℕ) (op : NxOp) :
    Prop where
  above : Linked be.above (some be.bkgd) (be.bkgd :: ws)
  below : Linked be.below (some be.topwnd) (be.bkgd :: ws).reverse
  screen : screen ⊆ (be.bounds be.bkgd).cells
  mem : wnd ∈ ws
  nonnull : ∀ w ∈ be.bkgd :: ws, nxglNullrect (be.bounds w) = false
  nonnull_after : nxglNullrect (op.boundsAfter be wnd) = false
  inRange : ∀ w ∈ be.bkgd :: ws, (be.bounds w).InRange
  inRange_after : (op.boundsAfter be wnd).InRange

/-- The requests are right, for what is seen before and after: where something else is seen there
is exactly one request, to the window that is seen now, and no window is asked to paint where it is
not seen. -/
def RepaintRight (screen : Set NxglPoint) (reqs : List RedrawReq)
    (before after : NxglPoint → Option ℕ) : Prop :=
  ∀ p ∈ screen,
    (before p ≠ after p →
      ∃ q, reqs.filter (fun q => decide (p ∈ q.2.cells)) = [q] ∧ after p = some q.1) ∧
    ∀ q ∈ reqs, p ∈ q.2.cells → after p = some q.1

/-- **A call paints again what it has to**: it comes to its end, the windows are linked from the
background upwards, and the requests are right. -/
def RepaintLaw (be : NxbeState) (ws : List ℕ) (screen : Set NxglPoint) (wnd : ℕ) (op : NxOp) :
    Prop :=
  ∃ rounds be' reqs ws', nxOp be rounds wnd op = .ok (be', reqs) ∧
    Linked be'.above (some be'.bkgd) (be'.bkgd :: ws') ∧
    RepaintRight screen reqs (topmost be.bounds (be.bkgd :: ws))
      (topmost be'.bounds (be'.bkgd :: ws'))

def OpFits (be : NxbeState) (wnd : ℕ) (op : NxOp) : Prop :=
  ∀ rounds, nxOp be rounds wnd op ≠ .error .overrun

section Law

variable {be be' : NxbeState} {ws ws' l ds pre post : List ℕ} {screen s : Set NxglPoint}
  {wnd b rounds : ℕ} {op : NxOp} {reqs : List RedrawReq} {before after : NxglPoint → Option ℕ}
  {bounds : ℕ → NxglRect} {rect : NxglRect}

theorem RepaintRight.of_repainted (h : Repainted bounds l reqs s)
    (hchanged : ∀ p ∈ screen, before p ≠ topmost bounds l p → p ∈ s) :
    RepaintRight screen reqs before (topmost bounds l) := by
  intro p hp
  refine ⟨fun hne => ?_, fun q hq hpq => h.seen q hq p hpq⟩
  obtain ⟨q, hq, hpq, hfilter⟩ := h.parts.filter_eq_singleton (hchanged p hp hne)
  exact ⟨q, hfilter, h.seen q hq p hpq⟩

theorem RepaintRight.refl : RepaintRight screen [] before before :=
  fun _ _ => ⟨fun hne => absurd rfl hne, fun _ hq => nomatch hq⟩

/-- The windows below and above a window. -/
structure Placed (be : NxbeState) (ws pre post : List ℕ) (b wnd : ℕ) : Prop where
  eq : be.bkgd :: ws = (pre ++ [b]) ++ wnd :: post
  below_eq : be.below wnd = some b
  below : Linked be.below (some b) (b :: pre.reverse)
  above : Linked be.above (be.above wnd) post
  nodup : ((pre ++ [b]) ++ wnd :: post).Nodup

theorem WindowList.placed (h : WindowList be ws) (hmem : wnd ∈ ws) :
    ∃ pre b post, Placed be ws pre post b wnd := by
  obtain ⟨ws1, post, rfl⟩ := append_of_mem hmem
  -- the background is below the window, so there is a last one below it
  obtain ⟨pre, b, hb⟩ : ∃ pre b, be.bkgd :: ws1 = pre ++ [b] :=
    ⟨_, _, (dropLast_append_getLast (cons_ne_nil be.bkgd ws1)).symm⟩
  have heq : be.bkgd :: (ws1 ++ wnd :: post) = (pre ++ [b]) ++ wnd :: post := by
    rw [← hb]
    rfl
  have habove := h.above
  have hbelow := h.below
  rw [heq] at habove hbelow
  have hrev : ((pre ++ [b]) ++ wnd :: post).reverse =
      post.reverse ++ wnd :: (b :: pre.reverse) := by
    simp
  rw [hrev] at hbelow
  obtain ⟨hb', hpre⟩ := hbelow.rest
  exact ⟨pre, b, post, heq, hb', ⟨rfl, hpre⟩, habove.rest, habove.nodup⟩

theorem NxInput.list (h : NxInput be ws screen wnd op) : WindowList be ws :=
  ⟨h.above, h.below⟩

theorem NxInput.placed (h : NxInput be ws screen wnd op) :
    ∃ pre b post, Placed be ws pre post b wnd :=
  h.list.placed h.mem

section

variable (h : Placed be ws pre post b wnd)

include h

theorem Placed.bkgd_mem : be.bkgd ∈ pre ++ [b] := by
  have heq := h.eq
  cases pre with
  | nil | cons a pre =>
    rw [(cons.inj heq).1]
    exact mem_cons_self

theorem Placed.low_seen {p : NxglPoint} (hp : p ∈ (be.bounds be.bkgd).cells) :
    ∃ w ∈ b :: pre.reverse, topmost be.bounds (pre ++ [b]) p = some w := by
  have hcovered : p ∈ covered be.bounds (pre ++ [b]) := ⟨be.bkgd, h.bkgd_mem, hp⟩
  obtain ⟨w, hw, htop⟩ := exists_topmost hcovered
  refine ⟨w, ?_, htop⟩
  simp only [mem_append, mem_singleton] at hw
  simp only [mem_cons, mem_reverse]
  exact hw.symm

theorem Placed.ne_of_mem {w : ℕ} (hw : w ∈ pre ++ [b] ∨ w ∈ post) : w ≠ wnd := by
  rintro rfl
  have hnot := (nodup_cons.mp (nodup_middle.mp h.nodup)).1
  exact hnot (mem_append.mpr hw)

end

/-- **What a call has to do**, in enough rounds, if the clipper does not fail, as it may when there
are many windows. -/
def RepaintDone (be : NxbeState) (ws : List ℕ) (screen : Set NxglPoint)
    (x : Except ClipStop (NxbeState × List RedrawReq)) : Prop :=
  (x = .error .overrun ∧ 10922 < ws.length) ∨
    ∃ be' reqs ws', x = .ok (be', reqs) ∧ Linked be'.above (some be'.bkgd) (be'.bkgd :: ws') ∧
      RepaintRight screen reqs (topmost be.bounds (be.bkgd :: ws))
        (topmost be'.bounds (be'.bkgd :: ws'))

/-- **It is done by painting some windows again**, if one of these is seen wherever something else
is seen than before. -/
theorem repaintDone_redrawbelow (ws' ds : List ℕ)
    (habove : Linked be'.above (some be'.bkgd) (be'.bkgd :: ws'))
    (hnull : ∀ w ∈ be'.bkgd :: ws', nxglNullrect (be'.bounds w) = false)
    (hlen : ws'.length ≤ ws.length) (hrounds : 5 ^ (ws.length + 1) ≤ rounds)
    (hbelow : Linked be'.below start ds) (hds : ∀ w ∈ ds, w ∈ be'.bkgd :: ws')
    (hchanged : ∀ p ∈ screen, topmost be.bounds (be.bkgd :: ws) p ≠
      topmost be'.bounds (be'.bkgd :: ws') p → p ∈ seenIn be' (be'.bkgd :: ws') rect ds) :
    RepaintDone be ws screen (do
      let reqs ← nxbeRedrawbelow be' rounds start rect
      return (be', reqs)) := by
  have hpow : 5 ^ (be'.bkgd :: ws').length ≤ rounds :=
    (Nat.pow_le_pow_right (by decide) (Nat.succ_le_succ hlen)).trans hrounds
  -- the windows on the way are different ones of the list
  have hwalk : ds.length ≤ (be'.bkgd :: ws').length :=
    (subperm_of_subset hbelow.nodup hds).length_le
  have hlt : (be'.bkgd :: ws').length < 5 ^ (be'.bkgd :: ws').length := Nat.lt_pow_self (by decide)
  rw [nxbeRedrawbelow]
  rcases redrawLoop_cases habove hnull hpow hbelow hds (hwalk.trans_lt (hlt.trans_le hpow)) with
    ⟨hover, hmany⟩ | ⟨reqs, hok, hreqs⟩
  · rw [hover]
    rw [length_cons] at hmany
    exact .inl ⟨rfl, by omega⟩
  · rw [hok]
    exact .inr ⟨be', reqs, ws', rfl, habove, RepaintRight.of_repainted hreqs hchanged⟩

/-! ### The five functions -/

/-- **A window is given another rectangle**, and what both cover is painted again from it
downwards. -/
theorem repaintDone_setBounds (h : NxInput be ws screen wnd op)
    (hrounds : 5 ^ (ws.length + 1) ≤ rounds) {after : NxglRect}
    (hafter : nxglNullrect after = false)
    (hrect : ∀ p ∈ (be.bounds be.bkgd).cells,
      p ∈ (be.bounds wnd).cells ∪ after.cells → p ∈ rect.cells) :
    RepaintDone be ws screen (do
      let reqs ← nxbeRedrawbelow (be.setBounds wnd after) rounds (some wnd) rect
      return (be.setBounds wnd after, reqs)) := by
  obtain ⟨pre, b, post, hplaced⟩ := h.placed
  have hwnd : (be.setBounds wnd after).bounds wnd = after := update_self ..
  have hother : ∀ w, w ≠ wnd → (be.setBounds wnd after).bounds w = be.bounds w :=
    fun w hw => update_of_ne hw ..
  have hnull : ∀ w ∈ be.bkgd :: ws, nxglNullrect ((be.setBounds wnd after).bounds w) = false := by
    intro w hw
    by_cases heq : w = wnd
    · rw [heq, hwnd]
      exact hafter
    · rw [hother w heq]
      exact h.nonnull w hw
  have hwalk : Linked be.below (some wnd) (wnd :: b :: pre.reverse) :=
    ⟨rfl, hplaced.below_eq ▸ hplaced.below⟩
  have hds : ∀ w ∈ wnd :: b :: pre.reverse, w ∈ be.bkgd :: ws := by
    rw [hplaced.eq]
    simp +contextual
  refine repaintDone_redrawbelow _ _ h.above hnull (Nat.le_refl _) hrounds hwalk hds
    fun p hp hne => ?_
  have hbkgd : (be.setBounds wnd after).bounds be.bkgd = be.bounds be.bkgd :=
    hother _ (hplaced.ne_of_mem (.inl hplaced.bkgd_mem))
  have hpost : topmost (be.setBounds wnd after).bounds post p = topmost be.bounds post p :=
    topmost_congr fun w hw => hother w (hplaced.ne_of_mem (.inr hw))
  have hlow : topmost (be.setBounds wnd after).bounds (pre ++ [b]) p =
      topmost be.bounds (pre ++ [b]) p :=
    topmost_congr fun w hw => hother w (hplaced.ne_of_mem (.inl hw))
  obtain ⟨w, hw, htop⟩ := hplaced.low_seen (h.screen hp)
  have hon : p ∈ ((be.setBounds wnd after).bounds be.bkgd).cells := hbkgd ▸ h.screen hp
  change topmost be.bounds (be.bkgd :: ws) p ≠
    topmost (be.setBounds wnd after).bounds (be.bkgd :: ws) p at hne
  change p ∈ seenIn (be.setBounds wnd after) (be.bkgd :: ws) rect _
  rw [hplaced.eq, topmost_middle, topmost_middle (l := pre ++ [b]), hpost, hlow, hwnd, htop] at hne
  -- nothing above the window is seen, and it is there before or after
  obtain ⟨habove, hne⟩ := or_ne_or hne
  rw [mem_seenIn, hplaced.eq, topmost_middle, hpost, hlow, hwnd, htop, habove]
  by_cases hafter : p ∈ after.cells
  · refine ⟨⟨hrect p (h.screen hp) (.inr hafter), hon⟩, wnd, mem_cons_self, ?_⟩
    simp [hafter]
  · by_cases hbefore : p ∈ (be.bounds wnd).cells
    · refine ⟨⟨hrect p (h.screen hp) (.inl hbefore), hon⟩, w, mem_cons_of_mem wnd hw, ?_⟩
      simp [hafter]
    · exact absurd (by simp [hafter, hbefore]) hne

theorem mem_cells_rectunion {before after : NxglRect} {p : NxglPoint}
    (h : p ∈ before.cells ∪ after.cells) : p ∈ (nxglRectunion before after).cells :=
  h.elim (fun hp => cells_rectunion_left hp) fun hp => cells_rectunion_right hp

theorem repaintDone_setposition {pos : NxglPoint}
    (h : NxInput be ws screen wnd (.setposition pos)) (hrounds : 5 ^ (ws.length + 1) ≤ rounds) :
    RepaintDone be ws screen (nxbeSetposition be rounds wnd pos) := by
  obtain ⟨pre, b, post, hplaced⟩ := h.placed
  have hne : be.bkgd ≠ wnd := hplaced.ne_of_mem (.inl hplaced.bkgd_mem)
  refine repaintDone_setBounds h hrounds h.nonnull_after fun p hp hmem => ?_
  simp only [cells_rectintersect, setBounds, update_self, update_of_ne hne]
  exact ⟨mem_cells_rectunion hmem, hp⟩

theorem repaintDone_setsize {size : NxglSize}
    (h : NxInput be ws screen wnd (.setsize size)) (hrounds : 5 ^ (ws.length + 1) ≤ rounds) :
    RepaintDone be ws screen (nxbeSetsize be rounds wnd size) := by
  refine repaintDone_setBounds h hrounds h.nonnull_after fun p hp hmem => ?_
  simp only [setBounds, update_self]
  exact mem_cells_rectunion hmem

/-- What `be'` is when the window has been taken out of the list. -/
structure Unlinked (be be' : NxbeState) (post : List ℕ) (b wnd : ℕ) : Prop where
  above : be'.above = update be.above b (be.above wnd)
  below : ∀ w, w ∉ post → be'.below w = be.below w
  bounds : be'.bounds = be.bounds
  bkgd : be'.bkgd = be.bkgd

theorem Placed.wnd_ne_above {a : ℕ} (h : Placed be ws pre (a :: post) b wnd) : wnd ≠ a :=
  (h.ne_of_mem (.inr mem_cons_self)).symm

section

variable (h : Placed be ws pre post b wnd)

include h

theorem Placed.notMem_post {w : ℕ} (hw : w ∈ pre ++ [b] ∨ w = wnd) : w ∉ post := by
  intro hpost
  rcases hw with hw | rfl
  · exact (nodup_append.mp h.nodup).2.2 w hw w (mem_cons_of_mem wnd hpost) rfl
  · exact h.ne_of_mem (.inr hpost) rfl

theorem Placed.below_removed (hr : Unlinked be be' post b wnd) :
    Linked be'.below (be'.below wnd) (b :: pre.reverse) := by
  rw [hr.below wnd (h.notMem_post (.inr rfl)), h.below_eq]
  refine h.below.congr fun w hw => hr.below w (h.notMem_post (.inl ?_))
  simpa [or_comm] using hw

theorem Placed.exists_low : ∃ low, pre ++ [b] = be.bkgd :: low ∧ ws = low ++ wnd :: post := by
  have heq := h.eq
  cases pre with
  | nil =>
    obtain ⟨hb, hws⟩ := cons.inj heq
    exact ⟨[], by rw [hb]; rfl, hws⟩
  | cons a pre =>
    obtain ⟨ha, hws⟩ := cons.inj heq
    exact ⟨pre ++ [b], by rw [ha]; rfl, hws⟩

theorem Placed.erase_eq : be.bkgd :: ws.erase wnd = (pre ++ [b]) ++ post := by
  obtain ⟨low, hlow, rfl⟩ := h.exists_low
  have hnot : wnd ∉ low := fun hmem => h.ne_of_mem (.inl (hlow ▸ mem_cons_of_mem _ hmem)) rfl
  rw [erase_append_right _ hnot, erase_cons_head, hlow]
  rfl

theorem Placed.mem_of_erase : ∀ w ∈ be.bkgd :: ws.erase wnd, w ∈ be.bkgd :: ws := by
  rw [h.erase_eq, h.eq]
  intro w hw
  simp only [mem_append, mem_cons] at hw ⊢
  tauto

theorem Placed.above_removed (habove : Linked be.above (some be.bkgd) (be.bkgd :: ws)) :
    Linked (update be.above b (be.above wnd)) (some be.bkgd) (be.bkgd :: ws.erase wnd) := by
  have hnodup := h.nodup
  rw [h.eq, append_assoc] at habove
  rw [append_assoc] at hnodup
  have hpre : ∀ w ∈ pre, w ≠ b := fun w hw heq =>
    (nodup_append.mp hnodup).2.2 w hw b mem_cons_self heq
  have hpost : ∀ w ∈ post, w ≠ b := by
    rintro w hw rfl
    exact h.notMem_post (.inl (by simp)) hw
  rw [h.erase_eq, append_assoc]
  refine habove.splice (fun w hw => update_of_ne (hpre w hw) ..) ?_
  rw [update_self]
  exact h.above.congr fun w hw => update_of_ne (hpost w hw) ..

/-- **A window is taken out of the list.** -/
theorem Placed.closeLinks (hlist : WindowList be ws) :
    ∃ be', NuttX.closeLinks be wnd = .ok be' ∧ Unlinked be be' post b wnd ∧
      (∀ a ∈ post.head?, be'.below = update be.below a (some b) ∧ be'.topwnd = be.topwnd) ∧
      WindowList be' (ws.erase wnd) := by
  have hb := h.below_eq
  have habove := h.above_removed hlist.above
  cases post with
  | nil =>
    have ha : be.above wnd = none := h.above.head?
    rw [ha] at habove
    refine ⟨{ be with topwnd := b, above := update be.above b none }, ?_,
      ⟨by rw [ha], fun _ _ => rfl, rfl, rfl⟩, by simp, ⟨habove, ?_⟩⟩
    · simp [NuttX.closeLinks, setTopwnd, setAbove, ha, hb, bind, Except.bind]
    · rw [h.erase_eq]
      simpa using h.below
  | cons a post =>
    have ha : be.above wnd = some a := h.above.head?
    have hne : wnd ≠ a := h.wnd_ne_above
    rw [ha] at habove
    refine ⟨{ be with
        below := update be.below a (some b)
        above := update be.above b (some a) }, ?_, ⟨by rw [ha], fun w hw => ?_, rfl, rfl⟩,
      fun _ hmem => Option.some.inj hmem ▸ ⟨rfl, rfl⟩, ⟨habove, ?_⟩⟩
    · simp [NuttX.closeLinks, setBelow, setAbove, ha, hb, bind, Except.bind, update_of_ne hne]
    · have hwa : w ≠ a := fun heq => hw (by rw [heq]; exact mem_cons_self)
      exact update_of_ne hwa ..
    -- the window above the one that is taken out is linked to the one below
    have hbelow := hlist.below
    have hrev : (be.bkgd :: ws).reverse = post.reverse ++ a :: (wnd :: b :: pre.reverse) := by
      rw [h.eq]
      simp
    rw [hrev] at hbelow
    have hrest : ∀ w ∈ post.reverse, w ≠ a := by
      rintro w hw rfl
      exact (nodup_append.mp hbelow.nodup).2.2 w hw w mem_cons_self rfl
    have hlow : ∀ w ∈ b :: pre.reverse, w ≠ a := by
      rintro w hw rfl
      exact h.notMem_post (.inl (by simpa [or_comm] using hw)) mem_cons_self
    rw [h.erase_eq, reverse_append, reverse_cons, append_assoc]
    refine hbelow.splice (fun w hw => update_of_ne (hrest w hw) ..) ?_
    change Linked (update be.below a (some b)) (update be.below a (some b) a) (pre ++ [b]).reverse
    rw [update_self, reverse_append]
    exact h.below.congr fun w hw => update_of_ne (hlow w hw) ..

theorem Placed.lowerRemove_eq : lowerRemove be wnd = NuttX.closeLinks be wnd := by
  have hb := h.below_eq
  have hwb : wnd ≠ b := (h.ne_of_mem (.inl (by simp))).symm
  cases post with
  | nil =>
    have ha : be.above wnd = none := h.above.head?
    simp [lowerRemove, NuttX.closeLinks, setTopwnd, setAbove, ha, hb, bind,
      Except.bind, update_of_ne hwb]
  | cons a post =>
    have ha : be.above wnd = some a := h.above.head?
    have hne : wnd ≠ a := h.wnd_ne_above
    simp [lowerRemove, NuttX.closeLinks, setBelow, setAbove, ha, hb, bind,
      Except.bind, update_of_ne hwb, update_of_ne hne]

end

/-- **A window is put at the top.** -/
theorem WindowList.push (h : WindowList be ws) (hwnd : wnd ∉ be.bkgd :: ws) :
    WindowList { be with
      above := update (update be.above wnd none) be.topwnd (some wnd)
      below := update be.below wnd (some be.topwnd)
      topwnd := wnd } (ws ++ [wnd]) := by
  obtain ⟨low, t, hlow⟩ : ∃ low t, be.bkgd :: ws = low ++ [t] :=
    ⟨_, _, (dropLast_append_getLast (cons_ne_nil be.bkgd ws)).symm⟩
  have htop : be.topwnd = t := by
    have hhead := h.below.head?
    rw [hlow] at hhead
    simpa using hhead
  have habove := h.above
  have hne : ∀ w ∈ be.bkgd :: ws, w ≠ wnd := fun w hw heq => hwnd (heq ▸ hw)
  constructor
  · rw [← cons_append, hlow, append_assoc]
    rw [hlow] at habove hne
    refine habove.splice (fun w hw => ?_) ?_
    · have hwt : w ≠ t := by
        rintro rfl
        exact (nodup_append.mp habove.nodup).2.2 w hw w mem_cons_self rfl
      dsimp only
      rw [htop, update_of_ne hwt, update_of_ne (hne w (by simp [hw]))]
    · dsimp only
      rw [htop, update_self]
      exact ⟨rfl, by rw [update_of_ne (hne t (by simp)).symm, update_self]; rfl⟩
  · rw [← cons_append, reverse_append]
    refine ⟨rfl, ?_⟩
    dsimp only
    rw [update_self]
    exact h.below.congr fun w hw => update_of_ne (hne w (mem_reverse.mp hw)) ..

/-- **A window that is not at the top is raised.** -/
theorem Placed.raise_eq {a : ℕ} (h : Placed be ws pre (a :: post) b wnd)
    (hlist : WindowList be ws) :
    ∃ be', nxbeRaise be wnd = .ok (be', [(wnd, be.bounds wnd)]) ∧ be'.bounds = be.bounds ∧
      be'.bkgd = be.bkgd ∧ WindowList be' (ws.erase wnd ++ [wnd]) := by
  have ha : be.above wnd = some a := h.above.head?
  have hb := h.below_eq
  have hne : wnd ≠ a := h.wnd_ne_above
  obtain ⟨be1, -, hr, hrest, hlist1⟩ := h.closeLinks hlist
  obtain ⟨hbelow, htop⟩ := hrest a rfl
  have hnot : wnd ∉ be1.bkgd :: ws.erase wnd := by
    rw [hr.bkgd, h.erase_eq]
    exact fun hmem => h.ne_of_mem (mem_append.mp hmem) rfl
  have hpush := hlist1.push hnot
  rw [hr.above, hbelow, htop, ha, hr.bkgd] at hpush
  refine ⟨{ be with
      above := update (update (update be.above b (some a)) wnd none) be.topwnd (some wnd)
      below := update (update be.below a (some b)) wnd (some be.topwnd)
      topwnd := wnd }, ?_, rfl, rfl, ⟨hpush.above, hpush.below⟩⟩
  unfold nxbeRaise
  simp only [setBelow, setAbove, setTopwnd, bind, Except.bind, hb, update_of_ne hne, ha]
  rfl

theorem repaintDone_closewindow (h : NxInput be ws screen wnd .closewindow)
    (hrounds : 5 ^ (ws.length + 1) ≤ rounds) :
    RepaintDone be ws screen (nxbeClosewindow be rounds wnd) := by
  obtain ⟨pre, b, post, hplaced⟩ := h.placed
  obtain ⟨be', hclose, hr, -, hlist⟩ := hplaced.closeLinks h.list
  have hmem := hplaced.mem_of_erase
  rw [← hr.bkgd] at hmem
  rw [nxbeClosewindow, hclose]
  refine repaintDone_redrawbelow _ (b :: pre.reverse) hlist.above ?_ length_erase_le hrounds
    (hplaced.below_removed hr) ?_ fun p hp hne => ?_
  · rw [hr.bounds]
    exact fun w hw => h.nonnull w (hr.bkgd ▸ hmem w hw)
  · rw [hr.bkgd, hplaced.erase_eq]
    simp +contextual
  obtain ⟨w, hw, htop⟩ := hplaced.low_seen (h.screen hp)
  rw [hr.bounds, hr.bkgd, hplaced.eq, hplaced.erase_eq, topmost_middle,
    topmost_append (l := pre ++ [b]), htop] at hne
  obtain ⟨habove, hne⟩ := or_ne_or hne
  rw [mem_seenIn, hr.bounds, hr.bkgd, hplaced.erase_eq, topmost_append, htop, habove]
  by_cases hwnd : p ∈ (be.bounds wnd).cells
  · exact ⟨⟨hwnd, h.screen hp⟩, w, hw, rfl⟩
  · exact absurd (by simp [hwnd]) hne

theorem lowerInsert_eq (be : NxbeState) (wnd : ℕ) :
    lowerInsert be wnd = .ok { be with
      below := update be.below wnd (some be.bkgd)
      above := update (update be.above wnd (be.above be.bkgd)) be.bkgd (some wnd) } := by
  simp [lowerInsert, setBelow, setAbove, bind, Except.bind]

theorem mem_walk_iff {low : List ℕ} (hlow : pre ++ [b] = be.bkgd :: low) {w : ℕ} :
    w ∈ b :: pre.reverse ↔ w ∈ be.bkgd :: low := by
  rw [← hlow]
  simp only [mem_cons, mem_reverse, mem_append, not_mem_nil, or_false]
  exact or_comm

theorem repaintDone_lower (h : NxInput be ws screen wnd .lower)
    (hrounds : 5 ^ (ws.length + 1) ≤ rounds) :
    RepaintDone be ws screen (nxbeLower be rounds wnd) := by
  obtain ⟨pre, b, post, hplaced⟩ := h.placed
  unfold nxbeLower
  split_ifs
  · exact .inr ⟨be, [], ws, rfl, h.above, RepaintRight.refl⟩
  obtain ⟨be1, hclose, hr, -, hlist⟩ := hplaced.closeLinks h.list
  obtain ⟨low, hlow, rfl⟩ := hplaced.exists_low
  have hbelow := hplaced.below_removed hr
  have habove := hlist.above
  rw [hr.bkgd, hplaced.erase_eq, hlow, cons_append] at habove
  have hbkgd : be.bkgd ≠ wnd := hplaced.ne_of_mem (.inl hplaced.bkgd_mem)
  have hrest : ∀ w ∈ low ++ post, w ≠ be.bkgd ∧ w ≠ wnd := by
    intro w hw
    refine ⟨fun heq => (nodup_cons.mp habove.nodup).1 (heq ▸ hw), hplaced.ne_of_mem ?_⟩
    rw [hlow]
    simp only [mem_cons]
    exact (mem_append.mp hw).imp_left .inr
  have hwalk : ∀ w ∈ b :: pre.reverse, w ≠ wnd := by
    intro w hw
    rw [mem_walk_iff hlow, ← hlow] at hw
    exact hplaced.ne_of_mem (.inl hw)
  rw [hplaced.lowerRemove_eq, hclose]
  simp only [bind, Except.bind, lowerInsert_eq, hr.bkgd, hr.bounds]
  refine repaintDone_redrawbelow (wnd :: (low ++ post)) (b :: pre.reverse) ⟨rfl, ?_, ?_⟩ ?_
    (by simp only [length_cons, length_append]; omega) hrounds
    (hbelow.congr fun w hw => update_of_ne (hwalk w hw) ..) ?_ fun p hp hne => ?_
  · exact update_self ..
  · -- the window is linked to the one that was the lowest
    dsimp only
    rw [update_of_ne hbkgd.symm, update_self]
    refine habove.2.congr fun w hw => ?_
    rw [update_of_ne (hrest w hw).1, update_of_ne (hrest w hw).2]
  · intro w hw
    refine h.nonnull w ?_
    simp only [mem_cons, mem_append] at hw ⊢
    tauto
  · intro w hw
    rw [mem_walk_iff hlow] at hw
    simp only [mem_cons, mem_append] at hw ⊢
    tauto
  · have hon := h.screen hp
    rw [← cons_append, topmost_middle, topmost_cons, topmost_cons,
      topmost_cons, topmost_append, if_pos hon] at hne
    rw [mem_seenIn]
    rw [topmost_cons, topmost_cons, topmost_append, if_pos hon]
    -- nothing above is seen, but something that was below and is above now, and in the rectangle
    cases hpost : topmost be.bounds post p with
    | some v =>
      rw [hpost] at hne
      exact absurd rfl hne
    | none =>
      cases htop : topmost be.bounds low p with
      | none =>
        rw [hpost, htop] at hne
        exact absurd (by simp) hne
      | some v =>
        by_cases hwnd : p ∈ (be.bounds wnd).cells
        · refine ⟨⟨hwnd, hon⟩, v, (mem_walk_iff hlow).mpr ?_, rfl⟩
          exact mem_cons_of_mem _ (mem_of_topmost htop).1
        · exact absurd (by simp [hwnd]) hne

theorem repaintDone_raise (h : NxInput be ws screen wnd .raise) :
    RepaintDone be ws screen (nxbeRaise be wnd) := by
  obtain ⟨pre, b, post, hplaced⟩ := h.placed
  cases post with
  | nil =>
    have ha : be.above wnd = none := hplaced.above.head?
    rw [nxbeRaise, ha]
    exact .inr ⟨be, [], ws, rfl, h.above, RepaintRight.refl⟩
  | cons a post =>
    obtain ⟨be', hraise, hbounds, hbkgd, hlist⟩ := hplaced.raise_eq h.list
    have hseen : ∀ p, topmost be.bounds (be.bkgd :: (ws.erase wnd ++ [wnd])) p =
        (if p ∈ (be.bounds wnd).cells then some wnd else none).or
          ((topmost be.bounds (a :: post) p).or (topmost be.bounds (pre ++ [b]) p)) := by
      intro p
      rw [← cons_append, hplaced.erase_eq, topmost_append, topmost_singleton, topmost_append]
    rw [hraise]
    refine .inr ⟨be', _, _, rfl, hlist.above, ?_⟩
    rw [hbounds, hbkgd]
    refine RepaintRight.of_repainted
      ⟨Partitions.single _, fun q hq p hp => ?_⟩ fun p hp hchanged => ?_
    · obtain rfl := mem_singleton.mp hq
      rw [hseen, if_pos hp]
      rfl
    · by_contra hnot
      rw [hseen, hplaced.eq, topmost_middle, if_neg hnot] at hchanged
      exact hchanged rfl

theorem repaintDone_nxOp (h : NxInput be ws screen wnd op)
    (hrounds : 5 ^ (ws.length + 1) ≤ rounds) :
    RepaintDone be ws screen (nxOp be rounds wnd op) := by
  cases op with
  | raise => exact repaintDone_raise h
  | lower => exact repaintDone_lower h hrounds
  | setposition pos => exact repaintDone_setposition h hrounds
  | setsize size => exact repaintDone_setsize h hrounds
  | closewindow => exact repaintDone_closewindow h hrounds

theorem RepaintLaw.opFits (h : RepaintLaw be ws screen wnd op) : OpFits be wnd op := by
  obtain ⟨rounds, be', reqs, ws', hok, -⟩ := h
  exact not_overrun_of_ok nxOp_mono hok

theorem opFits_of_length (h : NxInput be ws screen wnd op) (hlen : ws.length ≤ 10922) :
    OpFits be wnd op := by
  rcases repaintDone_nxOp h (Nat.le_refl _) with ⟨-, hmany⟩ | hlaw
  · omega
  · exact RepaintLaw.opFits ⟨_, hlaw⟩

end Law

/-- A background with two windows that overlap. -/
def twoWindows : NxbeState where
  above w := if w < 2 then some (w + 1) else none
  below w := if w = 0 then none else some (w - 1)
  bounds w :=
    if w = 0 then ⟨⟨0, 0⟩, ⟨9, 9⟩⟩ else if w = 1 then ⟨⟨0, 0⟩, ⟨5, 5⟩⟩ else ⟨⟨3, 3⟩, ⟨8, 8⟩⟩
  topwnd := 2
  bkgd := 0

theorem nxInput_twoWindows :
    NxInput twoWindows [1, 2] (twoWindows.bounds 0).cells 2 .lower where
  above := ⟨rfl, rfl, rfl, rfl⟩
  below := ⟨rfl, rfl, rfl, rfl⟩
  screen := fun _ hp => hp
  mem := by decide
  nonnull := by decide
  nonnull_after := by decide
  inRange := by decide
  inRange_after := by decide

/-- The windows of `NuttX.stairsState` above one that covers the screen, which is above the
background. -/
def crowdedState (n : ℕ) : NxbeState where
  above w := if w = n then some (n + 1) else if w = n + 1 then some 0 else
    if w + 1 < n then some (w + 1) else none
  below w := if w = n then none else if w = n + 1 then some n else if w = 0 then some (n + 1) else
    some (w - 1)
  bounds w := if w < n then stairBounds (min w 10922) else stairRect 0
  topwnd := n - 1
  bkgd := n

section Crowded

variable {n : ℕ}

theorem crowdedState_wnd :
    (crowdedState n).above (n + 1) = some 0 ∧ (crowdedState n).below (n + 1) = some n := by
  simp [crowdedState]

theorem crowdedState_below {k : ℕ} (hk : k < n) :
    Linked (crowdedState n).below (some k) ((range' 0 (k + 1)).reverse ++ [n + 1, n]) := by
  induction k with
  | zero =>
    have hfirst : (crowdedState n).below 0 = some (n + 1) := by
      simp only [crowdedState]
      rw [if_neg (by omega), if_neg (by omega), if_pos trivial]
    exact ⟨rfl, hfirst, crowdedState_wnd.2, if_pos rfl⟩
  | succ k ih =>
    have hnext : (crowdedState n).below (k + 1) = some k := by
      simp only [crowdedState]
      rw [if_neg (by omega), if_neg (by omega), if_neg (by omega), Nat.add_sub_cancel]
    have hrange : (range' 0 (k + 1 + 1)).reverse = (k + 1) :: (range' 0 (k + 1)).reverse := by
      rw [range'_concat, reverse_append]
      simp
    rw [hrange]
    refine ⟨rfl, ?_⟩
    rw [hnext]
    exact ih (by omega)

theorem nxInput_crowdedState (hn : 0 < n) :
    NxInput (crowdedState n) ((n + 1) :: range' 0 n) (stairRect 0).cells (n + 1) .closewindow := by
  obtain ⟨j, rfl⟩ : ∃ j, n = j + 1 := ⟨n - 1, by omega⟩
  have hbkgd : (crowdedState (j + 1)).bounds (j + 1) = stairRect 0 := if_neg (by omega)
  have hwnd : (crowdedState (j + 1)).bounds (j + 1 + 1) = stairRect 0 := if_neg (by omega)
  have hstair : ∀ w ∈ range' 0 (j + 1),
      (crowdedState (j + 1)).bounds w = stairBounds (min w 10922) := by
    intro w hw
    refine if_pos ?_
    simpa using mem_range'_1.mp hw
  have hsmall : ∀ w, nxglNullrect (stairBounds (min w 10922)) = false ∧
      (stairBounds (min w 10922)).InRange := by
    intro w
    rw [nxglNullrect_eq_false]
    simp only [NxglRect.InRange, stairBounds, stairRow]
    omega
  have hall : ∀ w ∈ (j + 1) :: (j + 1 + 1) :: range' 0 (j + 1),
      nxglNullrect ((crowdedState (j + 1)).bounds w) = false ∧
        ((crowdedState (j + 1)).bounds w).InRange := by
    simp only [forall_mem_cons]
    refine ⟨by rw [hbkgd]; decide, by rw [hwnd]; decide, fun w hw => ?_⟩
    rw [hstair w hw]
    exact hsmall w
  constructor
  · refine ⟨rfl, if_pos rfl, ?_⟩
    rw [crowdedState_wnd.1]
    refine linked_range j 0 (fun i _ hi => ?_) ?_
    · simp only [crowdedState]
      rw [if_neg (by omega), if_neg (by omega), if_pos (by omega)]
    · simp only [crowdedState]
      rw [if_neg (by omega), if_neg (by omega), if_neg (by omega)]
  · have hlinked := crowdedState_below (Nat.lt_succ_self j)
    rw [reverse_cons, reverse_cons, append_assoc]
    exact hlinked
  · intro p hp
    exact hbkgd ▸ hp
  · exact mem_cons_self
  · exact fun w hw => (hall w hw).1
  · exact (hall (j + 1 + 1) (by simp)).1
  · exact fun w hw => (hall w hw).2
  · exact (hall (j + 1 + 1) (by simp)).2

/-- When the window is closed, the background is clipped by the windows that fill the stack. -/
theorem not_opFits_crowdedState (hn : 10923 ≤ n) :
    ¬OpFits (crowdedState n) (n + 1) .closewindow := by
  intro hfits
  obtain ⟨habove, hbelow⟩ := crowdedState_wnd (n := n)
  set be' : NxbeState := { crowdedState n with
    below := update (crowdedState n).below 0 (some n)
    above := update (crowdedState n).above n (some 0) } with hbe'
  have hclose : closeLinks (crowdedState n) (n + 1) = .ok be' := by
    simp [closeLinks, setBelow, setAbove, habove, hbelow, bind, Except.bind, hbe']
  have hbkgd : be'.bounds be'.bkgd = stairRect 0 := if_neg (by simp [hbe', crowdedState])
  have hwnd : be'.bounds (n + 1) = stairRect 0 := if_neg (by omega)
  have hstairs : Stairs be' := by
    constructor
    · intro k hk
      have hkn : k ≠ n := by omega
      simp only [hbe', update_of_ne hkn, crowdedState]
      rw [if_neg hkn, if_neg (by omega), if_pos (by omega)]
    · intro k hk
      simp only [hbe', crowdedState]
      rw [if_pos (by omega), Nat.min_eq_left hk]
  obtain ⟨rounds, hover⟩ : ∃ rounds, nxbeClipper be' rounds (some 0) (stairRect 0) .tlrb =
      .error .overrun := by
    simpa [ClipFits] using not_clipFits_stairs hstairs
  have hpos : rounds ≠ 0 := by
    rintro rfl
    cases hover
  obtain ⟨walk, hwalk⟩ : ∃ walk, rounds = walk + 1 := ⟨rounds - 1, by omega⟩
  have hself : nxglRectintersect (stairRect 0) (stairRect 0) = stairRect 0 := by decide
  have hredraw : nxbeRedraw be' rounds n (stairRect 0) = .error .overrun := by
    have hfirst : be'.above n = some 0 := update_self ..
    have hn' : be'.bounds n = stairRect 0 := hbkgd
    unfold nxbeRedraw
    rw [hbkgd, hn', hself, hself, hfirst]
    dsimp only
    rw [hover]
    rfl
  have hloop : nxbeRedrawbelow be' rounds (some n) (stairRect 0) = .error .overrun := by
    unfold nxbeRedrawbelow
    rw [hwalk, redrawLoop, ← hwalk, hredraw]
    rfl
  have hstart : be'.below (n + 1) = some n := by
    simp only [hbe', update_of_ne (Nat.succ_ne_zero n), hbelow]
  refine hfits rounds ?_
  rw [nxOp, nxbeClosewindow, hclose]
  change (nxbeRedrawbelow be' rounds (be'.below (n + 1)) (be'.bounds (n + 1)) >>= _) = _
  rw [hstart, hwnd, hloop]
  rfl

end Crowded

end NuttX
