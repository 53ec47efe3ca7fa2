import NuttX.Nx.Stacking

/-!
# The list of windows

`nxbe_raise`, `nxbe_lower` and `nxbe_closewindow` change the links between the windows before they
paint anything. A window that is closed is taken out of the list (`NuttX.Placed.closeLinks`), and one
that is raised is also put back at the top (`NuttX.WindowList.push`). `nxbe_lower` does not tell the
window that was at the bottom that another one is below it now, so the list is not well formed after
it, unless the window was there already (`NuttX.lower_loses_below`).
-/

namespace NuttX

open Function

/-- A call that changes the order of the windows. -/
inductive ListOp where
  | raise (wnd : ℕ)
  | lower (wnd : ℕ)
  | closewindow (wnd : ℕ)
  deriving DecidableEq

namespace ListOp

def wnd : ListOp → ℕ
  | raise wnd | lower wnd | closewindow wnd => wnd

/-- The links after the call. -/
def links (be : NxbeState) : ListOp → Except ClipStop NxbeState
  | raise wnd => (nxbeRaise be wnd).map Prod.fst
  | lower wnd =>
    if be.below wnd = none ∨ be.below wnd = some be.bkgd then .ok be
    else lowerRemove be wnd >>= fun be => lowerInsert be wnd
  | closewindow wnd => closeLinks be wnd

/-- The call as one of those that paint. -/
def nxOp : ListOp → NxOp
  | raise _ => .raise
  | lower _ => .lower
  | closewindow _ => .closewindow

/-- The windows above the background after the call, from the bottom to the top. -/
def after (ws : List ℕ) : ListOp → List ℕ
  | raise wnd => ws.erase wnd ++ [wnd]
  | lower wnd => wnd :: ws.erase wnd
  | closewindow wnd => ws.erase wnd

/-- A window is not lowered unless it is the lowest one. -/
def KeepsLowest (be : NxbeState) : ListOp → Prop
  | lower wnd => be.below wnd = some be.bkgd
  | raise _ | closewindow _ => True

end ListOp

/-- Calls that satisfy `P`, for windows above the background: the links, and the windows that there
should be. -/
inductive ListRun (P : NxbeState → ListOp → Prop) (be₀ : NxbeState) (ws₀ : List ℕ) :
    NxbeState → List ℕ → Prop
  | init : ListRun P be₀ ws₀ be₀ ws₀
  | step {be be' : NxbeState} {ws : List ℕ} (op : ListOp) (h : ListRun P be₀ ws₀ be ws)
      (hwnd : op.wnd ∈ ws) (hP : P be op) (hok : op.links be = .ok be') :
      ListRun P be₀ ws₀ be' (op.after ws)

variable {be be' : NxbeState} {ws ws' pre post : List ℕ} {wnd b rounds : ℕ} {op : ListOp}

/-- What a call paints does not change the links. -/
theorem links_of_nxOp {reqs : List RedrawReq}
    (hok : nxOp be rounds op.wnd op.nxOp = .ok (be', reqs)) : op.links be = .ok be' := by
  cases op with
  | raise wnd =>
    rw [ListOp.links, show nxbeRaise be wnd = .ok (be', reqs) from hok]
    rfl
  | lower wnd =>
    change nxbeLower be rounds wnd = _ at hok
    unfold nxbeLower at hok
    rw [ListOp.links]
    split_ifs at hok ⊢
    · cases hok
      rfl
    cases hremove : lowerRemove be wnd with
    | error stop => rw [hremove] at hok; cases hok
    | ok be1 =>
      simp only [hremove, bind, Except.bind, lowerInsert_eq] at hok ⊢
      split at hok
      · cases hok
      · cases hok
        rfl
  | closewindow wnd =>
    change nxbeClosewindow be rounds wnd = _ at hok
    unfold nxbeClosewindow at hok
    change closeLinks be wnd = _
    cases hclose : closeLinks be wnd with
    | error stop => rw [hclose] at hok; cases hok
    | ok be1 =>
      simp only [hclose, bind, Except.bind] at hok
      split at hok
      · cases hok
      · cases hok
        rfl

theorem Placed.erase_concat (h : Placed be ws pre [] b wnd) : ws.erase wnd ++ [wnd] = ws := by
  have herase := h.erase_eq
  rw [List.append_nil] at herase
  have heq := h.eq
  rw [← herase, List.cons_append] at heq
  exact (List.cons.inj heq).2.symm

theorem Placed.raise (h : Placed be ws pre post b wnd) (hlist : WindowList be ws) :
    ∃ be', (nxbeRaise be wnd).map Prod.fst = .ok be' ∧ be'.bkgd = be.bkgd ∧
      WindowList be' (ws.erase wnd ++ [wnd]) := by
  cases post with
  | nil =>
    have ha : be.above wnd = none := h.above.head?
    rw [nxbeRaise, ha, h.erase_concat]
    exact ⟨be, rfl, rfl, hlist⟩
  | cons a post =>
    obtain ⟨be', hraise, -, hbkgd, hlist'⟩ := h.raise_eq hlist
    rw [hraise]
    exact ⟨be', rfl, hbkgd, hlist'⟩

theorem WindowList.cons_erase (h : WindowList be ws) (hwnd : wnd ∈ ws)
    (hlow : be.below wnd = some be.bkgd) : wnd :: ws.erase wnd = ws := by
  obtain ⟨pre, b, post, hplaced⟩ := h.placed hwnd
  obtain rfl : b = be.bkgd := Option.some.inj (hplaced.below_eq.symm.trans hlow)
  have hpre : pre = [] := by
    cases pre with
    | nil => rfl
    | cons a pre =>
      -- the background would be there twice
      have hnodup := hplaced.nodup
      rw [(List.cons.inj hplaced.eq).1] at hnodup
      simp at hnodup
  subst hpre
  have herase := (List.cons.inj hplaced.erase_eq).2
  rw [herase]
  exact (List.cons.inj hplaced.eq).2.symm

/-- **A call keeps the list**, if it does not lower a window. -/
theorem WindowList.links (h : WindowList be ws) (hwnd : op.wnd ∈ ws) (hkeeps : op.KeepsLowest be) :
    ∃ be', op.links be = .ok be' ∧ be'.bkgd = be.bkgd ∧ WindowList be' (op.after ws) := by
  obtain ⟨pre, b, post, hplaced⟩ := h.placed hwnd
  cases op with
  | raise wnd => exact hplaced.raise h
  | lower wnd =>
    refine ⟨be, if_pos (.inr hkeeps), rfl, ?_⟩
    have herase : wnd :: ws.erase wnd = ws := h.cons_erase hwnd hkeeps
    rw [ListOp.after, herase]
    exact h
  | closewindow wnd =>
    obtain ⟨be', hclose, hr, -, hlist⟩ := hplaced.closeLinks h
    exact ⟨be', hclose, hr.bkgd, hlist⟩

/-- **The list of windows stays well formed** in every run in which no window is lowered that is not
the lowest one already: in every state that is reached the links are those of the windows that have
not been closed, in the order that the calls have given them, and the next such call returns. -/
theorem listRun_windowList {be₀ : NxbeState} {ws₀ : List ℕ} (h : WindowList be₀ ws₀)
    (hrun : ListRun (fun be op => op.KeepsLowest be) be₀ ws₀ be ws) :
    be.bkgd = be₀.bkgd ∧ WindowList be ws ∧
      ∀ op : ListOp, op.wnd ∈ ws → op.KeepsLowest be → ∃ be', op.links be = .ok be' := by
  suffices hlist : be.bkgd = be₀.bkgd ∧ WindowList be ws by
    refine ⟨hlist.1, hlist.2, fun op hwnd hkeeps => ?_⟩
    obtain ⟨be', hok, -⟩ := hlist.2.links hwnd hkeeps
    exact ⟨be', hok⟩
  induction hrun with
  | init => exact ⟨rfl, h⟩
  | step op hrun hwnd hkeeps hok ih =>
    obtain ⟨be', hok', hbkgd, hlist⟩ := ih.2.links hwnd hkeeps
    obtain rfl := Except.ok.inj (hok.symm.trans hok')
    exact ⟨hbkgd.trans ih.1, hlist⟩

theorem windowList_twoWindows : WindowList twoWindows [1, 2] :=
  ⟨nxInput_twoWindows.above, nxInput_twoWindows.below⟩

theorem listRun_windowList_raise : ∃ be, (ListOp.raise 1).links twoWindows = .ok be ∧
    WindowList be [2, 1] := by
  obtain ⟨be, hok⟩ : ∃ be, (ListOp.raise 1).links twoWindows = .ok be := ⟨_, rfl⟩
  exact ⟨be, hok, (listRun_windowList windowList_twoWindows
    (ListRun.init.step (.raise 1) (by decide) trivial hok)).2.1⟩

/-- **The list is not well formed after `nxbe_lower`**, whatever the windows above the background
are: a window that has been lowered is not below the one that was the lowest. -/
theorem lower_loses_below (h : WindowList be ws) (hwnd : wnd ∈ ws)
    (hbkgd : be.below wnd ≠ some be.bkgd) (hok : (ListOp.lower wnd).links be = .ok be') :
    ¬WindowList be' ws' := by
  obtain ⟨pre, b, post, hplaced⟩ := h.placed hwnd
  obtain ⟨be1, hclose, hr, -, -⟩ := hplaced.closeLinks h
  obtain ⟨low, hlow, rfl⟩ := hplaced.exists_low
  have hne : be.bkgd ≠ wnd := hplaced.ne_of_mem (.inl hplaced.bkgd_mem)
  -- there is another window above the background
  obtain ⟨c, low, rfl⟩ : ∃ c low', low = c :: low' := by
    cases low with
    | nil =>
      have hb : b = be.bkgd := by
        cases pre with
        | nil => exact (List.cons.inj hlow).1
        | cons a pre => simp at hlow
      rw [hplaced.below_eq, hb] at hbkgd
      exact absurd rfl hbkgd
    | cons c low => exact ⟨c, low, rfl⟩
  have hfirst : be1.above be.bkgd = some c := by
    have hlinked := hplaced.above_removed h.above
    rw [← hr.above, hplaced.erase_eq, hlow] at hlinked
    exact hlinked.2.1
  have hbelow : be.below c = some be.bkgd := by
    have hlinked := h.below
    have hrev : (be.bkgd :: (c :: low ++ wnd :: post)).reverse =
        (low ++ wnd :: post).reverse ++ c :: [be.bkgd] := by
      simp
    rw [hrev] at hlinked
    exact hlinked.rest.1
  have hc : c ∈ pre ++ [b] := by
    rw [hlow]
    simp
  have hif : ¬(be.below wnd = none ∨ be.below wnd = some be.bkgd) := by
    rw [hplaced.below_eq] at hbkgd ⊢
    simpa using hbkgd
  rw [ListOp.links, if_neg hif, hplaced.lowerRemove_eq, hclose] at hok
  simp only [bind, Except.bind, lowerInsert_eq, hr.bkgd] at hok
  cases hok
  rintro ⟨habove', hlinked⟩
  -- the window and the one that was the lowest are the first two above the background
  have habove := habove'.2
  dsimp only at habove hlinked
  rw [update_self] at habove
  obtain ⟨ws', rfl, hsecond⟩ := habove.exists_cons
  rw [update_of_ne hne.symm, update_self, hfirst] at hsecond
  obtain ⟨ws', rfl, -⟩ := hsecond.exists_cons
  have hrev : (be.bkgd :: wnd :: c :: ws').reverse = ws'.reverse ++ c :: [wnd, be.bkgd] := by
    simp
  rw [hrev] at hlinked
  have hcw := hlinked.rest.1
  rw [update_of_ne (hplaced.ne_of_mem (.inl hc)),
    hr.below c (hplaced.notMem_post (.inl hc)), hbelow] at hcw
  exact hne (Option.some.inj hcw)

theorem lower_breaks_list : WindowList twoWindows [1, 2] ∧
    ∃ be, (ListOp.lower 2).links twoWindows = .ok be ∧ ∀ ws, ¬WindowList be ws := by
  obtain ⟨be, hok⟩ : ∃ be, (ListOp.lower 2).links twoWindows = .ok be := ⟨_, rfl⟩
  exact ⟨windowList_twoWindows, be, hok, fun ws =>
    lower_loses_below windowList_twoWindows (by decide) (by decide) hok⟩

end NuttX
