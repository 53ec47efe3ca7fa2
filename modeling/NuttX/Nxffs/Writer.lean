import NuttX.Lib.Semaphore

/-!
# The writer of an NXFFS volume

`nxffs_open.c` and `nxffs_pack.c`, at the granularity of their semaphore calls. `wrsem` is taken by
`nxffs_wropen` and kept until the file is closed, so that a volume has one writer at most. What the
functions find on the volume between two semaphore calls is left open.

`nxffs_wrclose` gives `wrsem` back at its end; but `nxffs_wrinode`, which writes the inode header for
it, gives it back as well, and also when it is called by `nxffs_wrinodehdr` to pack a file of which
the header lies in an erase block that has been written already. So the count of `wrsem` and the
writers add up to one exactly in the runs in which `nxffs_wrinode` has not been called
(`NuttX.nxffsRun_oneWriter_iff`), and no file that has been written survives in those.
-/

namespace NuttX

open Function Option

/-! ### The code -/

inductive NxffsSem
  | wrsem
  | exclsem
  deriving DecidableEq, Repr

/-- Where a task is: outside; in `nxffs_wropen`; in `nxffs_close` of a file that is open for writing;
or in another function, which takes `exclsem` only and may pack the volume. -/
inductive NxffsPc
  | user
  | wrsemWait
  | wropenTake
  | wropenWait
  | wropen
  | erroutWithExclsem
  | erroutWithWrsem
  | closeWait
  | wrclose
  | wrcloseErrout
  | packWait
  | pack
  | giveExclsem
  deriving DecidableEq, Repr

/-- The task is ready to run again with the count that it has waited for. -/
def NxffsPc.wake : NxffsPc → NxffsPc
  | wrsemWait => wropenTake
  | wropenWait => wropen
  | closeWait => wrclose
  | packWait => pack
  | pc => pc

/-- A volume and the tasks that use it. -/
structure Nxffs (τ : Type*) where
  sem : Sems NxffsSem τ
  pc : τ → NxffsPc
  /-- How many files are open for writing. -/
  files : ℕ

inductive NxffsEvent
  | wrinode
  | internal
  deriving DecidableEq, Repr

/-- The steps: the calls; a task goes on, with what it has found in between; it packs an inode of
which the header is in `ioblock`; and a signal ends the wait of a task. -/
inductive NxffsOp (τ : Type*)
  | wropen (t : τ)
  | close (t : τ)
  | lock (t : τ)
  | run (t : τ) (ok : Bool) (w : Option τ)
  | wrinodehdr (t : τ) (ioblock block0 : ℕ) (w : Option τ)
  | interrupt (t : τ)

namespace Nxffs

variable {τ : Type*} [DecidableEq τ]

def init : Nxffs τ := ⟨Sems.init fun _ => 1, fun _ => .user, 0⟩

/-- The semaphores change and the task `t` goes on at `pc`. -/
def move (b : Nxffs τ) (S : Sems NxffsSem τ) (t : τ) (pc : NxffsPc) : Nxffs τ :=
  { b with sem := S, pc := update b.pc t pc }

/-- `sem_wait`: the task goes on at `got`, or is blocked at `blocked`. -/
def wait (b : Nxffs τ) (t : τ) (s : NxffsSem) (got blocked : NxffsPc) : Nxffs τ :=
  b.move (b.sem.wait t s).1 t (if (b.sem.wait t s).2 then got else blocked)

/-- `sem_post`, which selects `w`. -/
def post (b : Nxffs τ) (s : NxffsSem) (w : Option τ) : Option (Nxffs τ) :=
  (b.sem.post s w).map fun S =>
    match w with
    | none => { b with sem := S }
    | some w => b.move S w (b.pc w).wake

/-- `sem_post`, after which the task `t` goes on at `pc`. -/
def postGoto (b : Nxffs τ) (s : NxffsSem) (w : Option τ) (t : τ) (pc : NxffsPc) :
    Option (Nxffs τ) :=
  (b.post s w).map fun b => b.move b.sem t pc

end Nxffs

namespace NxffsOp

variable {τ : Type*} [DecidableEq τ]

/-- The code of a step. -/
def step : NxffsOp τ → Nxffs τ → Option (Nxffs τ × NxffsEvent)
  | wropen t, b =>
    if b.pc t = .user then some (b.wait t .wrsem .wropenTake .wrsemWait, .internal) else none
  | close t, b =>
    if b.pc t = .user ∧ 0 < b.files then
      some ({ b with files := b.files - 1 }.wait t .exclsem .wrclose .closeWait, .internal)
    else none
  | lock t, b =>
    if b.pc t = .user then some (b.wait t .exclsem .pack .packWait, .internal) else none
  | run t ok w, b =>
    match b.pc t with
    | .wropenTake => some (b.wait t .exclsem .wropen .wropenWait, .internal)
    | .wropen =>
      if ok then some ({ b with files := b.files + 1 }.move b.sem t .giveExclsem, .internal)
      else some (b.move b.sem t .erroutWithExclsem, .internal)
    | .erroutWithExclsem => (b.postGoto .exclsem w t .erroutWithWrsem).map (·, .internal)
    | .erroutWithWrsem => (b.postGoto .wrsem w t .user).map (·, .internal)
    -- the last data block, the removal of the old file, and then `nxffs_wrinode`
    | .wrclose =>
      if ok then (b.postGoto .wrsem w t .wrcloseErrout).map (·, .wrinode)
      else some (b.move b.sem t .wrcloseErrout, .internal)
    | .wrcloseErrout => (b.postGoto .wrsem w t .giveExclsem).map (·, .internal)
    | .pack => some (b.move b.sem t .giveExclsem, .internal)
    | .giveExclsem => (b.postGoto .exclsem w t .user).map (·, .internal)
    | _ => none
  | wrinodehdr t ioblock block0 w, b =>
    if b.pc t = .wropen ∨ b.pc t = .pack then
      if ioblock < block0 then (b.post .wrsem w).map (·, .wrinode) else some (b, .internal)
    else none
  | interrupt t, b =>
    match b.pc t with
    | .wrsemWait => some (b.move (b.sem.leave t .wrsem) t .user, .internal)
    | .wropenWait => some (b.move (b.sem.leave t .exclsem) t .erroutWithWrsem, .internal)
    | .closeWait =>
      some ({ b with files := b.files + 1 }.move (b.sem.leave t .exclsem) t .user, .internal)
    | .packWait => some (b.move (b.sem.leave t .exclsem) t .user, .internal)
    | _ => none

end NxffsOp

/-- The runs, with what the steps have shown, the latest first. -/
inductive NxffsRun {τ : Type*} [DecidableEq τ] : List NxffsEvent → Nxffs τ → Prop
  | init : NxffsRun [] .init
  | step {tr : List NxffsEvent} {b b' : Nxffs τ} {ev : NxffsEvent} (op : NxffsOp τ) :
      NxffsRun tr b → op.step b = some (b', ev) → NxffsRun (ev :: tr) b'

/-! ### The count and the writers -/

/-- The task opens or closes a file for writing: it has begun to wait for `wrsem`, or has taken over
the file that it closes, and has not come to its own `sem_post` of `wrsem`. -/
def NxffsPc.writing : NxffsPc → ℕ
  | user | packWait | pack | giveExclsem => 0
  | _ => 1

theorem NxffsPc.writing_wake (pc : NxffsPc) : pc.wake.writing = pc.writing := by
  cases pc <;> rfl

namespace Nxffs

variable {τ : Type*} [DecidableEq τ] [Fintype τ] {b b' : Nxffs τ} {s : NxffsSem} {t : τ}
  {p q : NxffsPc} {w : Option τ}

/-- The files that are open for writing, and those that are being opened or closed. -/
def writers (b : Nxffs τ) : ℕ := b.files + ∑ t, (b.pc t).writing

/-- **There is one writer**, or none and the semaphore is free. -/
def OneWriter (b : Nxffs τ) : Prop := b.sem.count .wrsem + b.writers = 1

/-- What is to be one. -/
def balance (b : Nxffs τ) : ℤ := b.sem.count .wrsem + b.writers

theorem balance_move {S : Sems NxffsSem τ} : (b.move S t p).balance =
    b.balance + (S.count .wrsem - b.sem.count .wrsem) + (p.writing - (b.pc t).writing) := by
  have hrest : ∑ u ∈ Finset.univ.erase t, (update b.pc t p u).writing =
      ∑ u ∈ Finset.univ.erase t, (b.pc u).writing := by
    refine Finset.sum_congr rfl fun u hu => ?_
    rw [update_of_ne (Finset.ne_of_mem_erase hu)]
  have hsum : ∀ pc : τ → NxffsPc, ∑ u, (pc u).writing =
      (pc t).writing + ∑ u ∈ Finset.univ.erase t, (pc u).writing :=
    fun pc => (Finset.add_sum_erase _ _ (Finset.mem_univ t)).symm
  simp only [balance, writers, move]
  rw [hsum, hsum b.pc, hrest, update_self]
  omega

omit [DecidableEq τ] in
theorem balance_setFiles {n : ℕ} :
    ({ b with files := n } : Nxffs τ).balance = b.balance + (n - b.files) := by
  simp only [balance, writers]
  omega

theorem balance_wait : (b.wait t s p q).balance = b.balance - (if s = .wrsem then 1 else 0) +
    ((if (b.sem.wait t s).2 then p.writing else q.writing) - (b.pc t).writing) := by
  rw [wait, balance_move, apply_ite NxffsPc.writing, Sems.wait]
  cases s <;> split <;> simp <;> omega

theorem balance_post (h : b.post s w = some b') :
    b'.balance = b.balance + (if s = .wrsem then 1 else 0) ∧
      ∀ t, (b'.pc t).writing = (b.pc t).writing := by
  obtain ⟨S, hS, rfl⟩ := map_eq_some_iff.mp h
  cases w with
  | none =>
    rw [Sems.post, ite_none_left_eq_some] at hS
    cases hS.2
    refine ⟨?_, fun _ => rfl⟩
    cases s with
    | wrsem =>
      simp [balance, writers]
      omega
    | exclsem => simp [balance, writers]
  | some w =>
    rw [Sems.post, ite_none_right_eq_some] at hS
    cases hS.2
    refine ⟨?_, fun t => ?_⟩
    · rw [balance_move, NxffsPc.writing_wake]
      cases s <;> simp
    show (update b.pc w (b.pc w).wake t).writing = _
    rw [update_apply]
    split
    · rename_i ht
      rw [ht, NxffsPc.writing_wake]
    · rfl

theorem balance_postGoto {ev ev' : NxffsEvent}
    (h : (b.postGoto s w t p).map (·, ev) = some (b', ev')) :
    ev = ev' ∧ b'.balance =
      b.balance + (if s = .wrsem then 1 else 0) + (p.writing - (b.pc t).writing) := by
  obtain ⟨b1, hgoto, heq⟩ := map_eq_some_iff.mp h
  obtain ⟨b2, hpost, rfl⟩ := map_eq_some_iff.mp hgoto
  obtain ⟨rfl, rfl⟩ := Prod.mk.inj heq
  obtain ⟨hbal, hpc⟩ := balance_post hpost
  rw [balance_move, hbal, hpc]
  exact ⟨rfl, by omega⟩

end Nxffs

variable {τ : Type*} [DecidableEq τ] [Fintype τ] {b b' : Nxffs τ} {ev : NxffsEvent}
  {tr : List NxffsEvent} {op : NxffsOp τ}

/-- **A step** adds one to the sum exactly if it calls `nxffs_wrinode`. -/
theorem NxffsOp.step_balance (h : op.step b = some (b', ev)) :
    b'.balance = b.balance + if ev = .wrinode then 1 else 0 := by
  cases op with
  | wropen t | lock t =>
    rw [step, ite_none_right_eq_some] at h
    obtain ⟨ht, h⟩ := h
    cases h
    rw [Nxffs.balance_wait, ht]
    simp [NxffsPc.writing]
  | close t =>
    rw [step, ite_none_right_eq_some] at h
    obtain ⟨⟨ht, hfiles⟩, h⟩ := h
    cases h
    rw [Nxffs.balance_wait, Nxffs.balance_setFiles, ht]
    simp [NxffsPc.writing]
    omega
  | run t ok w =>
    rw [step] at h
    split at h
    case h_1 ht =>
      cases h
      rw [Nxffs.balance_wait, ht]
      simp [NxffsPc.writing]
    case h_2 ht =>
      split at h <;> cases h
      · rw [Nxffs.balance_move, Nxffs.balance_setFiles, ht]
        simp [NxffsPc.writing]
      · rw [Nxffs.balance_move, ht]
        simp [NxffsPc.writing]
    case h_5 ht =>
      split at h
      · obtain ⟨rfl, hbal⟩ := Nxffs.balance_postGoto h
        rw [hbal, ht]
        simp [NxffsPc.writing]
      · cases h
        rw [Nxffs.balance_move, ht]
        simp [NxffsPc.writing]
    case h_7 ht =>
      cases h
      rw [Nxffs.balance_move, ht]
      simp [NxffsPc.writing]
    case h_9 => cases h
    all_goals
      rename_i ht
      obtain ⟨rfl, hbal⟩ := Nxffs.balance_postGoto h
      rw [hbal, ht]
      simp [NxffsPc.writing]
  | wrinodehdr t ioblock block0 w =>
    rw [step, ite_none_right_eq_some] at h
    obtain ⟨-, h⟩ := h
    split at h
    · obtain ⟨b1, hpost, heq⟩ := map_eq_some_iff.mp h
      cases heq
      exact (Nxffs.balance_post hpost).1
    · cases h
      simp
  | interrupt t =>
    rw [step] at h
    split at h <;> cases h
    all_goals
      rename_i ht
      simp [Nxffs.balance_move, Nxffs.balance_setFiles, ht, NxffsPc.writing]

theorem NxffsRun.balance (h : NxffsRun tr b) : b.balance = 1 + tr.count .wrinode := by
  induction h with
  | init => simp [Nxffs.balance, Nxffs.init, Nxffs.writers, Sems.init, NxffsPc.writing]
  | @step tr b b' ev op _ hstep ih =>
    rw [NxffsOp.step_balance hstep, ih, List.count_cons]
    cases ev with
    | wrinode =>
      simp
      omega
    | internal => simp

/-- **There is one writer exactly if `nxffs_wrinode` has not been called.** -/
theorem nxffsRun_oneWriter_iff (h : NxffsRun tr b) : b.OneWriter ↔ .wrinode ∉ tr := by
  rw [Nxffs.OneWriter, ← Nxffs.balance, h.balance, ← List.count_eq_zero]
  omega

/-- A file is open, and another task waits to open one. -/
theorem nxffsRun_oneWriter_wait :
    ∃ (tr : List NxffsEvent) (b : Nxffs (Fin 2)), NxffsRun tr b ∧ b.files = 1 ∧
      b.sem.count .wrsem = -1 ∧ (b.OneWriter ↔ .wrinode ∉ tr) := by
  have h₀ : NxffsRun [] (.init : Nxffs (Fin 2)) := .init
  have h₁ := h₀.step (.wropen 0) rfl
  have h₂ := h₁.step (.run 0 true none) rfl
  have h₃ := h₂.step (.run 0 true none) rfl
  have h₄ := h₃.step (.wropen 1) rfl
  exact ⟨_, _, h₄, rfl, rfl, nxffsRun_oneWriter_iff h₄⟩

/-- A file is opened and closed: `wrsem` then has the count two. -/
theorem nxffs_close_posts_twice :
    ∃ (tr : List NxffsEvent) (b : Nxffs (Fin 1)), NxffsRun tr b ∧ b.sem.count .wrsem = 2 ∧
      ¬ b.OneWriter := by
  have h₀ : NxffsRun [] (.init : Nxffs (Fin 1)) := .init
  have h₁ := h₀.step (.wropen 0) rfl
  have h₂ := h₁.step (.run 0 true none) rfl
  have h₃ := h₂.step (.run 0 true none) rfl
  have h₄ := h₃.step (.run 0 true none) rfl
  have h₅ := h₄.step (.close 0) rfl
  have h₆ := h₅.step (.run 0 true none) rfl
  have h₇ := h₆.step (.run 0 true none) rfl
  refine ⟨_, _, h₇, rfl, fun hone => ?_⟩
  revert hone
  unfold Nxffs.OneWriter
  decide

end NuttX
