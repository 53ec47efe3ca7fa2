import NuttX.Kernel.Accounts

/-!
# Semaphores lose no counts

Over a whole run the counts of a semaphore balance: what was there at the start and what was posted
is either still there or was given to a task, where a waiter that `sem_post` selects counts as a
task that was given the count. `NuttX.semRun_conserved` states this together with the number of the
waiters and the choice that `sem_post` makes among them.

The choice is a matter of the order in `g_waitingforsemaphore`: by priority, and among equal
priorities in the order in which the tasks began to wait. `sched_setpriority` gives a waiting task
another place, so that it is not among the steps here.
-/

namespace NuttX

open Function Waiters

/-! ### What a run has shown -/

def KEvent.gives (s : SemId) : KEvent → Bool
  | took _ sem | posted sem (some _) => decide (sem = s)
  | _ => false

def KEvent.posts (s : SemId) : KEvent → Bool
  | posted sem _ => decide (sem = s)
  | _ => false

def successes (s : SemId) (tr : List KEvent) : ℕ := tr.countP (KEvent.gives s)

def posts (s : SemId) (tr : List KEvent) : ℕ := tr.countP (KEvent.posts s)

/-- The number of the step in which the task last began to wait for a semaphore. -/
def blockedAt (t : Tid) : List KEvent → ℕ
  | [] => 0
  | .waits c _ :: tr => if c = t then tr.length + 1 else blockedAt t tr
  | _ :: tr => blockedAt t tr

/-- The step neither changes a priority nor deletes or restarts a task that waits. -/
def KOp.Steady (op : KOp) (k : Kernel) : Prop :=
  op.SparesWaiters k ∧ ∀ t p, op ≠ .sched (.setPriority t p)

variable {cfg : SchedConfig} {op : KOp} {k k' : Kernel} {v v' : Waits} {ev : KEvent}
  {tr : List KEvent} {s : SemId} {n : SemId → ℕ} {maxmsgs : MqId → ℤ} {maxmsgsize : MqId → ℕ}

/-! ### The counts balance -/

/-- What was posted is there, or was given to a task. -/
def Balanced (n : SemId → ℕ) (tr : List KEvent) (v : Waits) : Prop :=
  ∀ s, (successes s tr : ℤ) = n s + posts s tr - max (v.semcount s) 0

theorem successes_cons :
    successes s (ev :: tr) = successes s tr + if ev.gives s = true then 1 else 0 :=
  List.countP_cons

theorem posts_cons : posts s (ev :: tr) = posts s tr + if ev.posts s = true then 1 else 0 :=
  List.countP_cons

theorem KEvent.gives_of_sem (h : ev.sem = none) : ev.gives s = false ∧ ev.posts s = false := by
  cases ev <;> first | exact ⟨rfl, rfl⟩ | cases h

theorem Balanced.step (hv : WaitsInv v) (h : Balanced n tr v) (hs : WaitStep op v v' ev) :
    Balanced n (ev :: tr) v' := by
  intro s
  have hold := h s
  have hsilent : ∀ {ev : KEvent}, ev.sem = none →
      successes s (ev :: tr) = successes s tr ∧ posts s (ev :: tr) = posts s tr := by
    intro ev hev
    obtain ⟨h1, h2⟩ := KEvent.gives_of_sem (s := s) hev
    rw [successes_cons, posts_cons, h1, h2]
    exact ⟨rfl, rfl⟩
  cases hs with
  | keep silent _ count _ =>
    rw [(hsilent silent).1, (hsilent silent).2, count]
    exact hold
  | take r s' _ pos count _ | post s' _ nonneg count _ =>
    rw [successes_cons, posts_cons, count]
    rcases eq_or_ne s s' with rfl | hs
    · simp only [KEvent.gives, KEvent.posts, decide_true, if_true, update_self]
      simp only [Bool.false_eq_true, if_false]
      omega
    · simpa [KEvent.gives, KEvent.posts, Ne.symm hs, update_of_ne hs] using hold
  | wake s' w _ left _ =>
    rw [successes_cons, posts_cons, left.semcount]
    rcases eq_or_ne s s' with rfl | hs
    · -- somebody waits, so that the count is negative
      have hpos := count_pos_of_mem left.mem left.waits
      have hcount := hv.sem s
      simp only [KEvent.gives, KEvent.posts, decide_true, if_true, update_self]
      omega
    · simpa [KEvent.gives, KEvent.posts, Ne.symm hs, update_of_ne hs] using hold
  | cancel s' w left _ =>
    rw [(hsilent rfl).1, (hsilent rfl).2, left.semcount]
    rcases eq_or_ne s s' with rfl | hs
    · have hpos := count_pos_of_mem left.mem left.waits
      have hcount := hv.sem s
      rw [update_self]
      omega
    · rw [update_of_ne hs]
      exact hold
  | join r s' joined _ =>
    rw [successes_cons, posts_cons, joined.semcount]
    have hneg := joined.nonpos
    rcases eq_or_ne s s' with rfl | hs
    · simp only [KEvent.gives, KEvent.posts, update_self]
      simp only [Bool.false_eq_true, if_false]
      omega
    · simpa [KEvent.gives, KEvent.posts, update_of_ne hs] using hold
  | mqLeave _ _ _ _ count _ | mqJoin _ _ _ _ count _ | reorder _ _ _ _ _ count _ _ =>
    rw [(hsilent rfl).1, (hsilent rfl).2, count]
    exact hold

/-! ### The order of the waiters -/

/-- Among equal priorities the list has the order in which the tasks began to wait. -/
structure Fifo (tr : List KEvent) (v : Waits) : Prop where
  order : v.semList.Pairwise fun a b =>
    v.sched.prio a = v.sched.prio b → blockedAt a tr < blockedAt b tr
  past : ∀ a ∈ v.semList, blockedAt a tr ≤ tr.length

theorem blockedAt_cons_of_ne {t : Tid} (h : ∀ s, ev ≠ .waits t s) :
    blockedAt t (ev :: tr) = blockedAt t tr := by
  cases ev with
  | waits c s =>
    rw [blockedAt, if_neg]
    rintro rfl
    exact h s rfl
  | _ => rfl

theorem Fifo.of_sublist (h : Fifo tr v) (hev : ∀ t s, ev ≠ .waits t s)
    (hl : v'.semList.Sublist v.semList)
    (hp : ∀ c ∈ v.semList, v'.sched.prio c = v.sched.prio c) : Fifo (ev :: tr) v' := by
  refine ⟨(h.order.sublist hl).imp_of_mem fun {a b} ha hb hab => ?_, fun a ha => ?_⟩
  · rw [blockedAt_cons_of_ne (hev a), blockedAt_cons_of_ne (hev b), hp a (hl.subset ha),
      hp b (hl.subset hb)]
    exact hab
  · rw [blockedAt_cons_of_ne (hev a), List.length_cons]
    exact (h.past a (hl.subset ha)).trans (Nat.le_succ _)

/-- A task begins to wait, behind everybody of its priority. -/
theorem Fifo.joined {r : Tid} (h : Fifo tr v) (hv : SchedInv v.sched) (hj : SemJoined v v' r s) :
    Fifo (.waits r s :: tr) v' := by
  have hself : blockedAt r (.waits r s :: tr) = tr.length + 1 := by rw [blockedAt, if_pos rfl]
  have hother : ∀ b ∈ v.semList, blockedAt b (.waits r s :: tr) = blockedAt b tr := by
    intro b hb
    rw [blockedAt, if_neg]
    rintro rfl
    exact hj.notMem hb
  refine ⟨?_, fun a ha => ?_⟩
  · rw [hj.list, hj.prio]
    refine (hv.sorted _ rfl).pairwise_insert ?_ (fun b hb _ _ => ?_) fun b hb hlt heq => ?_
    · refine h.order.imp_of_mem fun {a b} ha hb hab => ?_
      rw [hother a ha, hother b hb]
      exact hab
    · rw [hself, hother b hb]
      exact Nat.lt_succ_of_le (h.past b hb)
    · omega
  · rw [hj.list, Prio.mem_insert] at ha
    rcases ha with rfl | ha
    · rw [hself]
      rfl
    · rw [hother a ha, List.length_cons]
      exact (h.past a ha).trans (Nat.le_succ _)

theorem Fifo.step (h : Fifo tr v) (hv : SchedInv v.sched) (hs : WaitStep op v v' ev)
    (hop : ∀ t p, op ≠ .sched (.setPriority t p)) : Fifo (ev :: tr) v' := by
  have hkept : ∀ {ev : KEvent}, (∀ t s, ev ≠ .waits t s) → SemKept v v' → Fifo (ev :: tr) v' :=
    fun hev hk => h.of_sublist hev (by rw [hk.list]) hk.prio
  cases hs with
  | keep silent sem _ _ =>
    refine hkept ?_ sem
    rintro t s rfl
    cases silent
  | take _ _ sem _ _ _ | post _ sem _ _ _ | mqLeave _ _ _ sem _ _ | mqJoin _ _ _ sem _ _ =>
    exact hkept nofun sem
  | wake s w _ left _ | cancel s w left _ =>
    exact h.of_sublist nofun (by rw [left.list]; exact List.erase_sublist) fun c _ => by
      rw [left.prio]
  | join r s joined _ => exact h.joined hv joined
  | reorder t p eq _ _ _ _ _ => exact absurd eq (hop t p)

/-! ### The property of the semaphores -/

/-- What is to hold after a run that has shown `tr`, when the semaphores were initialised to `n`. -/
structure SemConserved (cfg : SchedConfig) (n : SemId → ℕ) (tr : List KEvent) (k : Kernel) :
    Prop where
  negative : ∀ s, k.semcount s < 0 →
    -(k.semcount s) = Waiters.count k.waitsem s (k.sched.list .waitingforsemaphore)
  nonnegative : ∀ s, 0 ≤ k.semcount s →
    ∀ t ∈ k.sched.list .waitingforsemaphore, k.waitsem t ≠ some s
  conserved : ∀ s, (successes s tr : ℤ) = n s + posts s tr - max (k.semcount s) 0
  selects : ∀ s k' sel, semPost cfg k s = .ok (k', sel) →
    (sel.isSome ↔ ∃ t ∈ k.sched.list .waitingforsemaphore, k.waitsem t = some s)
  longest : ∀ s k' w, semPost cfg k s = .ok (k', some w) →
    w ∈ k.sched.list .waitingforsemaphore ∧ k.waitsem w = some s ∧
      ∀ c ∈ k.sched.list .waitingforsemaphore, k.waitsem c = some s →
        k.sched.prio c ≤ k.sched.prio w ∧
          (c ≠ w → k.sched.prio c = k.sched.prio w → blockedAt w tr < blockedAt c tr)

theorem KRun.semInv (h : KRun cfg KOp.Steady (Kernel.boot n maxmsgs maxmsgsize) tr k) :
    WaitsInv k.waits ∧ Balanced n tr k.waits ∧ Fifo tr k.waits := by
  induction h with
  | boot =>
    refine ⟨WaitsInv.boot, fun s => ?_, List.Pairwise.nil, nofun⟩
    have hsem : (Kernel.boot n maxmsgs maxmsgsize).waits.semcount s = n s := rfl
    rw [hsem, successes, posts, List.countP_nil, List.countP_nil]
    omega
  | step op _ hlegal hsteady hrun ih =>
    obtain ⟨hinv, hbal, hfifo⟩ := ih
    have hstep := op.step hinv hlegal hsteady.1 hrun
    exact ⟨hinv.step hstep, hbal.step hinv hstep.wait, hfifo.step hinv.sched hstep.wait hsteady.2⟩

/-- **Semaphores lose no counts**, and `sem_post` wakes the right task, in every run. -/
theorem semRun_conserved (h : KRun cfg KOp.Steady (Kernel.boot n maxmsgs maxmsgsize) tr k) :
    SemConserved cfg n tr k := by
  obtain ⟨hinv, hbal, hfifo⟩ := h.semInv
  have hcount : ∀ s, (count k.waitsem s (k.sched.list .waitingforsemaphore) : ℤ) =
    max (-(k.semcount s)) 0 := hinv.sem
  have hnone : ∀ s, 0 ≤ k.semcount s →
      ∀ t ∈ k.sched.list .waitingforsemaphore, k.waitsem t ≠ some s := by
    intro s hs t ht hw
    have hpos := count_pos_of_mem ht hw
    have := hcount s
    omega
  refine ⟨fun s hs => ?_, hnone, hbal, fun s k' sel hrun => ?_, fun s k' w hrun => ?_⟩
  · rw [hcount s]
    omega
  · have hwait : WaitStep (.semPost s) k.waits k'.waits (.posted s sel) :=
      (semPost_step hinv hrun).wait
    cases hwait with
    | keep silent _ _ _ => cases silent
    | post _ _ nonneg _ _ =>
      refine ⟨nofun, fun hex => ?_⟩
      obtain ⟨t, ht, hw⟩ := hex
      exact absurd hw (hnone s nonneg t ht)
    | wake _ w first _ _ =>
      exact ⟨fun _ => ⟨w, mem_of_first first, on_of_first first⟩, fun _ => rfl⟩
  · have hwait : WaitStep (.semPost s) k.waits k'.waits (.posted s (some w)) :=
      (semPost_step hinv hrun).wait
    cases hwait with
    | keep silent _ _ _ => cases silent
    | wake _ _ first _ _ =>
      refine ⟨mem_of_first first, on_of_first first, fun c hc hw => ?_⟩
      constructor
      · rcases first_before (hinv.sched.sorted _ rfl) first hc hw with rfl | hle
        · exact le_rfl
        · exact hle
      · intro hne heq
        rcases first_before hfifo.order first hc hw with rfl | hlt
        · exact absurd rfl hne
        · exact hlt heq.symm

theorem semRun_conserved_post :
    ∃ k, KRun ⟨0, 10⟩ KOp.Steady (Kernel.boot (fun _ => 0) (fun _ => 0) fun _ => 0)
        [.posted 7 (some 1), .waits 1 7, .internal, .internal] k ∧
      SemConserved ⟨0, 10⟩ (fun _ => 0)
        [.posted 7 (some 1), .waits 1 7, .internal, .internal] k := by
  have h₀ : KRun ⟨0, 10⟩ KOp.Steady (Kernel.boot (fun _ => 0) (fun _ => 0) fun _ => 0) []
    (Kernel.boot (fun _ => 0) (fun _ => 0) fun _ => 0) := .boot
  have h₁ := h₀.step (.taskCreate 1 100 false)
    ⟨fun _ _ => rfl, by decide, rfl, by decide, by decide⟩ ⟨trivial, nofun⟩ rfl
  have h₂ := h₁.step (.sched (.unblock 1)) rfl ⟨trivial, nofun⟩ rfl
  have h₃ := h₂.step (.semWait 7) (fun r hr => by cases hr; rfl) ⟨trivial, nofun⟩ rfl
  have h₄ := h₃.step (.semPost 7) trivial ⟨trivial, nofun⟩ rfl
  exact ⟨_, h₄, semRun_conserved h₄⟩

end NuttX
