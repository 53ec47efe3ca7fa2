import NuttX.Kernel.Model

/-!
# The pre-emption lock

While the running task has called `sched_lock` it should stay the running task, whatever it and the
interrupt handlers do, until it blocks, exits or calls `sched_unlock` for the last time.
`sched_addreadytorun` sees to this for the tasks that become ready, and `sched_process_timeslice`
looks at the lock as well. `sched_setpriority` does not: when the running task gets a priority that
is not above the one of the next task, `up_reprioritize_rtr` takes it from the head of
`g_readytorun` and puts it back behind. `NuttX.LockedOp.head_eq_iff` says that this is the only way
to lose the processor, and `NuttX.lockedRun_head` that in the runs in which it does not happen the
running task stays the same.
-/

namespace NuttX

open Function List

variable {cfg : SchedConfig} {s s' : Sched} {k k' k₀ : Kernel} {r t next : Tid} {l : List Tid}
  {x : Status} {p : ℤ}

/-! ### The running task gets another priority -/

def Outranks (s : Sched) (p : ℤ) : Prop :=
  ∀ next ∈ (s.list .readytorun).tail.head?, (s.prio next : ℤ) < p

/-- Once the running task has been put behind `next`, it does not come back to the head: the tasks
that have been waiting for the lock are above `next`, if they are put before it. -/
theorem head_ne_of_mergeIfPending (h : ListInv s) (hl : s.list .readytorun = next :: l)
    (hr : r ≠ next) (hle : s.prio r ≤ s.prio next) (hrun : mergeIfPending s = .ok s') :
    (s'.list .readytorun).head? ≠ some r := by
  rw [mergeIfPending] at hrun
  split at hrun
  · obtain rfl := Except.ok.inj hrun
    rw [hl, head?_cons]
    exact fun hc => hr (Option.some.inj hc).symm
  obtain ⟨⟨s1, b⟩, hmerge, hrun⟩ := bind_ok.mp hrun
  obtain rfl := Except.ok.inj hrun
  have hm := schedMergepending_spec h hl hmerge
  intro hhead
  by_cases hpend : ∀ a ∈ s.list .pendingtasks, s.prio a ≤ s.prio next
  · exact hr (Option.some.inj (hhead.symm.trans (hm.head_eq_iff.mpr hpend)))
  push Not at hpend
  obtain ⟨a, ha, hlt⟩ := hpend
  obtain ⟨m, hm'⟩ := head?_eq_some_iff.mp hhead
  -- the list is sorted, so that `a` cannot be behind `r`
  have hmem : a ∈ s1.list .readytorun := (hm.mem_ready a).mpr (Or.inl ha)
  have hsort := hm.inv.sorted .readytorun rfl
  rw [hm'] at hmem hsort
  rcases mem_cons.mp hmem with rfl | hmem
  · omega
  · have hra := (pairwise_cons.mp hsort).1 a hmem
    rw [hm.frame.prio] at hra
    omega

/-- **The running task keeps the processor if and only if its new priority is above the next.** -/
theorem schedSetpriority_self_head_iff (h : SchedInv s) (hr : (s.list .readytorun).head? = some r)
    (hp : LegalPriority p) (hrun : schedSetpriority s r p = .ok (s', x)) :
    (s'.list .readytorun).head? = some r ↔ Outranks s p := by
  obtain ⟨l, hl⟩ := head?_eq_some_iff.mp hr
  obtain ⟨hp1, hp2⟩ := hp
  rw [schedSetpriority, if_neg (by simp only [schedPriorityMin, schedPriorityMax]; omega)] at hrun
  simp only [(h.running_iff r).mpr hr, hl] at hrun
  cases l with
  | nil => cases hrun
  | cons next l =>
    have hout : Outranks s p ↔ (s.prio next : ℤ) < p := by simp [Outranks, hl]
    simp only [flink_head] at hrun
    rw [hout]
    split at hrun
    · refine iff_of_false ?_ (by omega)
      obtain ⟨s0, hrep, hrun⟩ := bind_ok.mp hrun
      cases hrun
      have hmem : r ∈ s.list .readytorun := mem_of_mem_head? hr
      rw [upReprioritizeRtr, if_pos ⟨h.ready_iff.mp hmem, by rw [schedPriorityMin]; omega⟩] at hrep
      obtain ⟨⟨s1, b⟩, hrem, hrep⟩ := bind_ok.mp hrep
      obtain ⟨⟨s2, b'⟩, hadd, hrep⟩ := bind_ok.mp hrep
      obtain ⟨hrm, r1, l1, hl1, hrt, ha, -⟩ := readd_spec h hmem hrem hadd
      obtain ⟨rfl, rfl⟩ : r1 = next ∧ l1 = l := by
        have herase := hrm.ready
        rw [hl1, hl, erase_cons_head] at herase
        exact cons.inj herase
      have hprio : s2.prio = update s.prio r p.toNat := by
        rw [ha.frame.prio, Sched.prio_setPrio, hrm.frame.prio]
      -- the task is taken from the head and put back behind the next one
      obtain rfl : b = true := hrm.changed_iff.mpr hr
      have hb' := ha.changed_iff
      have hlists := ha.lists
      simp only [Sched.prio_setPrio, update_self, update_of_ne hrt,
        hrm.frame.prio, Sched.list_setPrio, Sched.lockcount_setPrio] at hlists hb'
      rw [if_neg (by omega)] at hlists
      obtain rfl : b' = false := by
        rw [Bool.eq_false_iff, ne_eq, hb']
        omega
      obtain ⟨m, hm⟩ : ∃ m, s2.list .readytorun = r1 :: m := by
        rw [← head?_eq_some_iff, hlists.1, hl1, Prio.head?_insert,
          if_neg (Prio.ahead_cons_ne_nil ?_), head?_cons]
        rw [update_self, update_of_ne hrt]
        omega
      refine head_ne_of_mergeIfPending ha.inv hm hrt.symm ?_ hrep
      rw [hprio, update_self, update_of_ne hrt]
      omega
    · cases hrun
      refine iff_of_true ?_ (by omega)
      rw [Sched.list_setPrio, hl, head?_cons]

/-! ### Operations under the lock -/

/-- What the running task may do while pre-emption is locked, and what interrupt handlers may do. -/
inductive LockedOp
  | unblock (t : Tid)
  | semPost (sem : SemId)
  | setPriority (t : Tid) (priority : ℤ)
  | yield
  | timeslice
  | lock (irq : Bool)
  | unlock (irq : Bool)
  deriving DecidableEq, Repr

namespace LockedOp

def onSched (k : Kernel) (run : Sched → Os Sched) : Os Kernel := do
  let s ← run k.sched
  .ok { k with sched := s }

/-- The code of an operation. -/
def run (cfg : SchedConfig) : LockedOp → Kernel → Os Kernel
  | unblock t, k => onSched k fun s => upUnblockTask cfg s t
  | semPost sem, k => do
    let (k, _) ← NuttX.semPost cfg k sem
    .ok k
  | setPriority t priority, k => onSched k fun s => do
    let (s, _) ← schedSetpriority s t priority
    .ok s
  | yield, k => onSched k fun s => do
    let (s, _) ← schedYield s
    .ok s
  | timeslice, k => onSched k (schedProcessTimeslice cfg)
  | lock irq, k => onSched k (schedLock irq)
  | unlock irq, k => onSched k (schedUnlock irq)

/-- When an operation may be taken: tasks that exist are reprioritized, blocked ones are unblocked,
and `sched_unlock` does not bring the count to zero. -/
def Legal : LockedOp → Kernel → Prop
  | unblock t, k => (k.sched.state t).isBlocked = true
  | setPriority t _, k => k.sched.state t ≠ .invalid
  | unlock irq, k => irq = false → ∀ r ∈ (k.sched.list .readytorun).head?, 1 < k.sched.lockcount r
  | semPost _, _ | yield, _ | timeslice, _ | lock _, _ => True

/-- The operation does not give the running task a priority that is not above the next one. -/
def StaysAhead : LockedOp → Kernel → Prop
  | setPriority t priority, k =>
    (k.sched.list .readytorun).head? = some t → LegalPriority priority → Outranks k.sched priority
  | yield, k => ∀ r ∈ (k.sched.list .readytorun).head?, LegalPriority (k.sched.prio r) →
    Outranks k.sched (k.sched.prio r)
  | _, _ => True

end LockedOp

/-- The running task is the task `r`, and pre-emption is locked. -/
structure Locked (s : Sched) (r : Tid) : Prop where
  inv : SchedInv s
  head : (s.list .readytorun).head? = some r
  lock : 0 < s.lockcount r

theorem Locked.unblock (h : Locked s r) (ht : (s.state t).isBlocked = true)
    (hrun : upUnblockTask cfg s t = .ok s') : Locked s' r := by
  have hu := upUnblockTask_spec h.inv ht hrun
  obtain ⟨l, hl⟩ := head?_eq_some_iff.mp h.head
  refine ⟨hu.inv, ?_, by rw [hu.lockcount]; exact h.lock⟩
  have hlists := hu.lists r l hl
  split at hlists
  · rw [hlists.1, hl, head?_cons]
  -- the task is not above the running one
  rename_i hcond
  have hle : s.prio t ≤ s.prio r := by
    by_contra hlt
    exact hcond ⟨h.lock, by omega⟩
  rw [hlists.1, hl, Prio.head?_insert, if_neg (Prio.ahead_cons_ne_nil hle), head?_cons]

theorem Locked.semPost {sem : SemId} {w : Option Tid} (h : Locked k.sched r)
    (hrun : semPost cfg k sem = .ok (k', w)) : Locked k'.sched r := by
  obtain ⟨-, -, hrun⟩ := bind_ok.mp hrun
  split at hrun
  · cases hrun
    exact h
  rename_i stcb hsome
  obtain ⟨s, hunblock, hrun⟩ := bind_ok.mp hrun
  cases hrun
  have hfirst : Waiters.first k.waitsem sem (k.sched.list .waitingforsemaphore) = some stcb := by
    split at hsome
    · exact hsome
    · cases hsome
  have hstate := (h.inv.mem_iff stcb _).mp (Waiters.mem_of_first hfirst)
  exact h.unblock (TaskState.isBlocked_eq hstate) hunblock

/-- Under the lock a time slice that has expired is left alone. -/
theorem Locked.timeslice (h : Locked s r) (hrun : schedProcessTimeslice cfg s = .ok s') :
    Locked s' r := by
  obtain ⟨hq, hlock, -⟩ := schedProcessTimeslice_spec h.inv hrun
  refine ⟨hq.inv, ?_, by rw [hlock]; exact h.lock⟩
  obtain ⟨l, hl⟩ := head?_eq_some_iff.mp h.head
  have hne : s.lockcount r ≠ 0 := Nat.ne_of_gt h.lock
  simp only [schedProcessTimeslice, hl, if_neg hne] at hrun
  split at hrun
  · cases hrun
    exact h.head
  split at hrun
  · split at hrun
    · cases hrun
      exact h.head
    · cases hrun
      exact h.head
  · cases hrun
    exact h.head

theorem Locked.lock_again {irq : Bool} (h : Locked s r) (hrun : schedLock irq s = .ok s') :
    Locked s' r := by
  obtain ⟨l, hl⟩ := head?_eq_some_iff.mp h.head
  obtain ⟨hq, hlist, -, hlock⟩ := schedLock_spec h.inv hl hrun
  refine ⟨hq.inv, by rw [hlist]; exact h.head, ?_⟩
  rw [hlock]
  split
  · exact h.lock
  · rw [update_self]
    omega

theorem Locked.unlock {irq : Bool} (h : Locked s r) (hcount : irq = false → 1 < s.lockcount r)
    (hrun : schedUnlock irq s = .ok s') : Locked s' r := by
  obtain ⟨l, hl⟩ := head?_eq_some_iff.mp h.head
  cases irq with
  | true =>
    simp only [schedUnlock, hl, if_true] at hrun
    cases hrun
    exact h
  | false =>
    have hgt := hcount rfl
    obtain ⟨hq, hlock, -⟩ := schedUnlock_spec h.inv hl hrun
    refine ⟨hq.inv, ?_, ?_⟩
    · have hpos : s.lockcount r - 1 ≠ 0 := by omega
      simp only [schedUnlock, hl, Bool.false_eq_true, if_false, Sched.lockcount_setLock,
        update_self, hpos, false_and] at hrun
      cases hrun
      exact h.head
    · rw [hlock]
      simp only [Bool.false_eq_true, if_false, update_self]
      omega

theorem Locked.setpriority (h : Locked s r) (hrun : schedSetpriority s t p = .ok (s', x)) :
    SchedInv s' ∧ 0 < s'.lockcount r ∧ ((s'.list .readytorun).head? = some r ↔
      (r = t → LegalPriority p → Outranks s p)) := by
  by_cases hp : LegalPriority p
  · have hr := (schedSetpriority_spec h.inv hp hrun).1
    refine ⟨hr.inv, by rw [hr.lockcount]; exact h.lock, ?_⟩
    by_cases hrt : r = t
    · subst hrt
      rw [schedSetpriority_self_head_iff h.inv h.head hp hrun]
      simp [hp]
    · refine iff_of_true ?_ fun hc => absurd hc hrt
      exact schedSetpriority_head h.inv h.head (Ne.symm hrt) (Or.inr (Or.inr h.lock)) hrun
  · -- the call returns with an error
    have hrange : p < schedPriorityMin ∨ schedPriorityMax < p := by
      rw [LegalPriority] at hp
      simp only [schedPriorityMin, schedPriorityMax]
      omega
    rw [schedSetpriority, if_pos hrange] at hrun
    cases hrun
    exact ⟨h.inv, h.lock, iff_of_true h.head fun _ hc => absurd hc hp⟩

theorem LockedOp.onSched_ok {f : Sched → Os Sched} (hrun : LockedOp.onSched k f = .ok k') :
    f k.sched = .ok k'.sched := by
  obtain ⟨s, hs, hrun⟩ := bind_ok.mp hrun
  cases hrun
  exact hs

variable {op : LockedOp}

/-- **The running task keeps the processor under the lock if and only if it stays ahead.** -/
theorem LockedOp.head_eq_iff (h : Locked k.sched r) (hlegal : op.Legal k)
    (hrun : op.run cfg k = .ok k') :
    SchedInv k'.sched ∧ 0 < k'.sched.lockcount r ∧
      ((k'.sched.list .readytorun).head? = some r ↔ op.StaysAhead k) := by
  have done : Locked k'.sched r → SchedInv k'.sched ∧ 0 < k'.sched.lockcount r ∧
      ((k'.sched.list .readytorun).head? = some r ↔ True) :=
    fun h' => ⟨h'.inv, h'.lock, iff_of_true h'.head trivial⟩
  cases op with
  | unblock t =>
    rw [LockedOp.run] at hrun
    exact done (h.unblock hlegal (onSched_ok hrun))
  | semPost sem =>
    obtain ⟨⟨k1, w⟩, hpost, hrun⟩ := bind_ok.mp hrun
    cases hrun
    exact done (h.semPost hpost)
  | timeslice => exact done (h.timeslice (onSched_ok hrun))
  | lock irq => exact done (h.lock_again (onSched_ok hrun))
  | unlock irq => exact done (h.unlock (fun hirq => hlegal hirq r h.head) (onSched_ok hrun))
  | setPriority t priority =>
    rw [LockedOp.run] at hrun
    obtain ⟨⟨s1, x⟩, hset, hrest⟩ := bind_ok.mp (onSched_ok hrun)
    cases hrest
    obtain ⟨hinv, hlock, hhead⟩ := h.setpriority hset
    refine ⟨hinv, hlock, hhead.trans ?_⟩
    rw [LockedOp.StaysAhead, h.head, Option.some.injEq]
  | yield =>
    rw [LockedOp.run] at hrun
    obtain ⟨⟨s1, x⟩, hset, hrest⟩ := bind_ok.mp (onSched_ok hrun)
    cases hrest
    obtain ⟨l, hl⟩ := head?_eq_some_iff.mp h.head
    rw [schedYield, hl] at hset
    obtain ⟨hinv, hlock, hhead⟩ := h.setpriority hset
    refine ⟨hinv, hlock, hhead.trans ?_⟩
    simp [LockedOp.StaysAhead, hl]

/-! ### Runs under the lock -/

/-- The states that are reached from `k₀` by operations that all satisfy `P`. -/
inductive LockedRun (cfg : SchedConfig) (P : LockedOp → Kernel → Prop) (k₀ : Kernel) : Kernel → Prop
  | start : LockedRun cfg P k₀ k₀
  | step {k k' : Kernel} (op : LockedOp) : LockedRun cfg P k₀ k → op.Legal k → P op k →
      op.run cfg k = .ok k' → LockedRun cfg P k₀ k'

/-- **`sched_lock` excludes every other task**: when the scheduler is in a state that it can reach
and the running task has locked pre-emption, then it is the running task in every state that is
reached by operations which do not give it a priority that is not above that of the next task. -/
theorem lockedRun_head {P : SchedOp → Sched → Prop} {live : List Tid}
    (hreach : SchedRun cfg P live k₀.sched) (hr : (k₀.sched.list .readytorun).head? = some r)
    (hlock : 0 < k₀.sched.lockcount r) (hrun : LockedRun cfg LockedOp.StaysAhead k₀ k) :
    (k.sched.list .readytorun).head? = some r := by
  -- the lock is not released either
  suffices hl : Locked k.sched r from hl.head
  induction hrun with
  | start => exact ⟨hreach.inv.1, hr, hlock⟩
  | step op _ hlegal hahead hrun ih =>
    obtain ⟨hinv, hlock, hhead⟩ := LockedOp.head_eq_iff ih hlegal hrun
    exact ⟨hinv, hhead.mpr hahead, hlock⟩

theorem lockedRun_head_unblock :
    ∃ live k₀ k, SchedRun ⟨0, 10⟩ (fun _ _ => True) live k₀.sched ∧
      (k₀.sched.list .readytorun).head? = some 1 ∧ 0 < k₀.sched.lockcount 1 ∧
      LockedRun ⟨0, 10⟩ LockedOp.StaysAhead k₀ k ∧ k.sched.list .pendingtasks = [2] ∧
      (k.sched.list .readytorun).head? = some 1 := by
  have h₀ : SchedRun ⟨0, 10⟩ (fun _ _ => True) [idle] osStart := .boot
  have h₁ := h₀.step (.create false 1 100 false) ⟨rfl, by decide⟩ trivial rfl
  have h₂ := h₁.step (.unblock 1) rfl trivial rfl
  have h₃ := h₂.step (.create false 2 200 false) ⟨rfl, by decide⟩ trivial rfl
  have h₄ := h₃.step (.lock false) trivial trivial rfl
  have h₅ : SchedRun ⟨0, 10⟩ (fun _ _ => True) _
    (Kernel.sched { Kernel.boot (fun _ => 0) (fun _ => 1) (fun _ => 8) with sched := _ }) := h₄
  exact ⟨_, _, _, h₅, rfl, by decide, LockedRun.start.step (.unblock 2) rfl trivial rfl, rfl,
    lockedRun_head h₅ rfl (by decide) (LockedRun.start.step (.unblock 2) rfl trivial rfl)⟩

theorem lockedRun_yield_switches :
    ∃ live k₀ k, SchedRun ⟨0, 10⟩ (fun _ _ => True) live k₀.sched ∧
      (k₀.sched.list .readytorun).head? = some 1 ∧ 0 < k₀.sched.lockcount 1 ∧
      LockedRun ⟨0, 10⟩ (fun _ _ => True) k₀ k ∧ (k.sched.list .readytorun).head? = some 2 := by
  have h₀ : SchedRun ⟨0, 10⟩ (fun _ _ => True) [idle] osStart := .boot
  have h₁ := h₀.step (.create false 1 100 false) ⟨rfl, by decide⟩ trivial rfl
  have h₂ := h₁.step (.unblock 1) rfl trivial rfl
  have h₃ := h₂.step (.create false 2 100 false) ⟨rfl, by decide⟩ trivial rfl
  have h₄ := h₃.step (.unblock 2) rfl trivial rfl
  have h₅ := h₄.step (.lock false) trivial trivial rfl
  exact ⟨_, { Kernel.boot (fun _ => 0) (fun _ => 1) (fun _ => 8) with sched := _ }, _, h₅, rfl,
    by decide, LockedRun.start.step .yield trivial trivial rfl, rfl⟩

end NuttX
