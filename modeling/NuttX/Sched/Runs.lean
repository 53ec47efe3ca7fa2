import NuttX.Sched.Invariant

/-!
# Runs of the scheduler

A run starts in the boot state, with the idle task alone in `g_readytorun`, and is any sequence of
the scheduler's operations: setting up and activating tasks, blocking the running task, unblocking
a blocked one, locking and unlocking, changing priorities, and the tick of the time slice.

`NuttX.SchedRun.inv` holds in every run: whatever has returned has left the lists in order. That
the idle task stays at the end of `g_readytorun`, and that no assertion fires, needs a condition,
because `sched_setpriority` takes the idle task like any other and nothing keeps the idle task from
blocking. `NuttX.schedRun_schedulerOk` is the property under that condition, and
`NuttX.not_schedulerOk_of_idle_reprioritized` a run that breaks it.
-/

namespace NuttX

open Function TaskState List

/-- The operations of the scheduler. -/
inductive SchedOp
  | create (irq : Bool) (t : Tid) (priority : ℤ) (roundRobin : Bool)
  | block (st : TaskState)
  | unblock (t : Tid)
  | lock (irq : Bool)
  | unlock (irq : Bool)
  | setPriority (t : Tid) (priority : ℤ)
  | timeslice
  deriving DecidableEq, Repr

namespace SchedOp

/-- The code of an operation. -/
def run (cfg : SchedConfig) : SchedOp → Sched → Os Sched
  | create irq t priority roundRobin, s => taskSchedsetup irq s t priority roundRobin
  | block st, s =>
    match s.list .readytorun with
    | [] => .error .nullDeref
    | rtcb :: _ => upBlockTask s rtcb st
  | unblock t, s => upUnblockTask cfg s t
  | lock irq, s => schedLock irq s
  | unlock irq, s => schedUnlock irq s
  | setPriority t priority, s => do
    let (s, _) ← schedSetpriority s t priority
    .ok s
  | timeslice, s => schedProcessTimeslice cfg s

/-- The arguments that the operation may be called with. -/
def Legal : SchedOp → Sched → Prop
  | create _ t priority _, s => s.state t = .invalid ∧ LegalPriority priority
  | block st, _ => st.isBlocked = true
  | unblock t, s => (s.state t).isBlocked = true
  | setPriority t priority, s => s.state t ≠ .invalid ∧ LegalPriority priority
  | _, _ => True

/-- The operation neither blocks the idle task nor changes its priority. -/
def SparesIdle : SchedOp → Sched → Prop
  | block _, s => (s.list .readytorun).head? ≠ some idle
  | setPriority t _, _ => t ≠ idle
  | _, _ => True

/-- The operation calls `sched_lock`, which asserts that the lock count has room. -/
def Locks : SchedOp → Prop
  | create irq _ _ _ => irq = false
  | lock irq => irq = false
  | _ => False

/-- The live tasks once the operation has returned. -/
def live : SchedOp → List Tid → List Tid
  | create _ t _ _, ts => t :: ts
  | _, ts => ts

end SchedOp

/-- The runs whose steps all satisfy `P`, with the tasks that have been set up. -/
inductive SchedRun (cfg : SchedConfig) (P : SchedOp → Sched → Prop) : List Tid → Sched → Prop
  | boot : SchedRun cfg P [idle] osStart
  | step {live : List Tid} {s s' : Sched} (op : SchedOp) : SchedRun cfg P live s → op.Legal s →
      P op s → op.run cfg s = .ok s' → SchedRun cfg P (op.live live) s'

variable {cfg : SchedConfig} {P : SchedOp → Sched → Prop} {live : List Tid} {s s' : Sched}
  {op : SchedOp} {t : Tid} {p : ℕ} {st : TaskState} {l : List Tid}

/-! ### The lists stay in order -/

theorem SchedInv.osStart : SchedInv osStart := by
  refine ⟨⟨fun L => ?_, fun t L => ?_, fun L _ => ?_⟩, ⟨fun t => ?_, by simp [NuttX.osStart]⟩,
    by simp [NuttX.osStart]⟩
  · cases L <;> simp [NuttX.osStart]
  · by_cases ht : t = idle
    · cases L <;> simp [NuttX.osStart, Sched.state, list, ht]
    · cases L <;> simp [NuttX.osStart, Sched.state, list, ht]
  · cases L <;> simp [NuttX.osStart, Prio.Desc]
  · by_cases ht : t = idle
    · simp [NuttX.osStart, Sched.state, ht]
    · simp [NuttX.osStart, Sched.state, ht, Ne.symm ht]

/-- One operation keeps the invariant and the set of live tasks. -/
theorem SchedInv.step (h : SchedInv s) (hlegal : op.Legal s) (hrun : op.run cfg s = .ok s') :
    SchedInv s' ∧ ∀ c, s'.state c ≠ .invalid ↔ c ∈ op.live [] ∨ s.state c ≠ .invalid := by
  cases op with
  | create irq t priority rr =>
    have hc := taskSchedsetup_spec h hlegal.1 hlegal.2 hrun
    refine ⟨hc.inv, fun c => ?_⟩
    rw [ne_eq, hc.live, SchedOp.live, mem_singleton]
    tauto
  | block st =>
    obtain ⟨r, l, hl⟩ := h.exists_head
    simp only [SchedOp.run, hl] at hrun
    have hb := upBlockTask_spec h (by rw [hl]; rfl) hrun
    exact ⟨hb.inv, fun c => by simp [SchedOp.live, hb.live c]⟩
  | unblock t =>
    have hu := upUnblockTask_spec h hlegal hrun
    exact ⟨hu.inv, fun c => by simp [SchedOp.live, hu.live c]⟩
  | lock irq =>
    obtain ⟨r, l, hl⟩ := h.exists_head
    have hq := (schedLock_spec h hl hrun).1
    exact ⟨hq.inv, fun c => by simp [SchedOp.live, hq.live c]⟩
  | unlock irq =>
    obtain ⟨r, l, hl⟩ := h.exists_head
    have hq := (schedUnlock_spec h hl hrun).1
    exact ⟨hq.inv, fun c => by simp [SchedOp.live, hq.live c]⟩
  | setPriority t priority =>
    obtain ⟨⟨s1, r⟩, hset, hrest⟩ := bind_ok.mp hrun
    cases hrest
    have hr := (schedSetpriority_spec h hlegal.2 hset).1
    exact ⟨hr.inv, fun c => by simp [SchedOp.live, hr.live c]⟩
  | timeslice =>
    have hq := (schedProcessTimeslice_spec h hrun).1
    exact ⟨hq.inv, fun c => by simp [SchedOp.live, hq.live c]⟩

theorem SchedOp.mem_live {c : Tid} : c ∈ op.live live ↔ c ∈ op.live [] ∨ c ∈ live := by
  cases op <;> simp [SchedOp.live]

/-- **Every state of every run satisfies the invariant**, and the live tasks are those that have
been set up. -/
theorem SchedRun.inv (h : SchedRun cfg P live s) :
    SchedInv s ∧ ∀ c, s.state c ≠ .invalid ↔ c ∈ live := by
  induction h with
  | boot =>
    refine ⟨SchedInv.osStart, fun c => ?_⟩
    simp [osStart, Sched.state]
  | step op _ hlegal _ hrun ih =>
    obtain ⟨hinv, hlive⟩ := ih.1.step hlegal hrun
    refine ⟨hinv, fun c => ?_⟩
    rw [hlive c, ih.2 c, ← SchedOp.mem_live]

/-! ### The idle task stays last -/

/-- The idle task is at the end of `g_readytorun`, below every other task. -/
structure IdleInv (s : Sched) : Prop where
  last : (s.list .readytorun).getLast? = some idle
  prio_idle : s.prio idle = 0
  prio_pos : ∀ c, c ≠ idle → s.state c ≠ .invalid → 1 ≤ s.prio c

section

variable (hi : IdleInv s)

include hi

theorem IdleInv.mem : idle ∈ s.list .readytorun :=
  mem_of_mem_getLast? hi.last

theorem IdleInv.ready (h : ListInv s) :
    (s.state idle).list = some .readytorun := (h.mem_iff idle _).mp hi.mem

theorem IdleInv.ne_idle (h : ListInv s) {L : TaskList} (hL : t ∈ s.list L) (hne : L ≠ .readytorun) :
    t ≠ idle := by
  rintro rfl
  rw [h.mem_iff, hi.ready h] at hL
  exact hne (Option.some.inj hL).symm

theorem IdleInv.lt_pending (h : ListInv s) :
    ∀ a ∈ s.list .pendingtasks, s.prio idle < s.prio a := by
  intro a ha
  have hne := hi.ne_idle h ha (by simp)
  have := hi.prio_pos a hne (h.live ha)
  rw [hi.prio_idle]
  omega

theorem IdleInv.congr (hlast : (s'.list .readytorun).getLast? = (s.list .readytorun).getLast?)
    (hprio : s'.prio = s.prio) (hlive : ∀ c, s'.state c = .invalid ↔ s.state c = .invalid) :
    IdleInv s' :=
  ⟨hlast.trans hi.last, by rw [hprio]; exact hi.prio_idle, fun c hc hst => by
    rw [hprio]
    exact hi.prio_pos c hc fun h => hst ((hlive c).mpr h)⟩

theorem IdleInv.ne_singleton (hne : t ≠ idle) : s.list .readytorun ≠ [t] := by
  intro hl
  have := hi.mem
  rw [hl, mem_singleton] at this
  exact hne this.symm

theorem IdleInv.pos_of_isBlocked (h : SchedInv s) (ht : (s.state t).isBlocked = true) :
    1 ≤ s.prio t := by
  obtain ⟨L, hL, hLb⟩ := exists_list ht
  have hmem := (h.mem_iff t L).mpr hL
  exact hi.prio_pos t (hi.ne_idle h.toListInv hmem (TaskList.ne_readytorun hLb)) (h.live hmem)

theorem IdleInv.exists_next (hl : s.list .readytorun = t :: l) (ht : t ≠ idle) :
    ∃ next l', l = next :: l' := by
  cases l with
  | nil =>
    have := hi.last
    rw [hl] at this
    exact absurd (Option.some.inj this) ht
  | cons next l' => exact ⟨next, l', rfl⟩

/-- One operation that spares the idle task leaves it at the end. -/
theorem IdleInv.step (h : SchedInv s) (hlegal : op.Legal s) (hspare : op.SparesIdle s)
    (hrun : op.run cfg s = .ok s') : IdleInv s' := by
  cases op with
  | create irq t priority rr =>
    have hc := taskSchedsetup_spec h hlegal.1 hlegal.2 hrun
    obtain ⟨hp1, -⟩ := hlegal.2
    have hne : idle ≠ t := by
      rintro rfl
      have := hi.ready h.toListInv
      rw [hlegal.1] at this
      cases this
    refine ⟨hc.last.trans hi.last, by rw [hc.prio, update_of_ne hne]; exact hi.prio_idle,
      fun c hci hst => ?_⟩
    rw [hc.prio]
    rcases eq_or_ne c t with rfl | hct
    · rw [update_self]
      omega
    · rw [update_of_ne hct]
      exact hi.prio_pos c hci fun hinv => hst ((hc.live c).mpr ⟨hct, hinv⟩)
  | block st =>
    obtain ⟨r, l, hl⟩ := h.exists_head
    simp only [SchedOp.run, hl] at hrun
    have hb := upBlockTask_spec h (by rw [hl]; rfl) hrun
    exact hi.congr hb.last hb.prio hb.live
  | unblock t =>
    have hu := upUnblockTask_spec h hlegal hrun
    have hpos := hi.pos_of_isBlocked h hlegal
    obtain ⟨r, l, hl⟩ := h.exists_head
    refine hi.congr ?_ hu.prio hu.live
    have hlists := hu.lists r l hl
    split at hlists
    · rw [hlists.1]
    · rw [hlists.1, Prio.getLast?_insert]
      refine Prio.behind_ne_nil hi.mem ?_
      rw [hi.prio_idle]
      omega
  | lock irq =>
    obtain ⟨r, l, hl⟩ := h.exists_head
    obtain ⟨hq, hlist, -⟩ := schedLock_spec h hl hrun
    exact hi.congr (by rw [hlist]) hq.prio hq.live
  | unlock irq =>
    obtain ⟨r, l, hl⟩ := h.exists_head
    obtain ⟨hq, -, hlast⟩ := schedUnlock_spec h hl hrun
    exact hi.congr hlast hq.prio hq.live
  | setPriority t priority =>
    obtain ⟨⟨s1, r⟩, hset, hrest⟩ := bind_ok.mp hrun
    cases hrest
    have hr := (schedSetpriority_spec h hlegal.2 hset).1
    obtain ⟨hp1, -⟩ := hlegal.2
    have hne : idle ≠ t := Ne.symm hspare
    refine ⟨hr.last idle hne (by rw [hi.prio_idle]; omega) hi.last,
      by rw [hr.prio, update_of_ne hne]; exact hi.prio_idle, fun c hci hst => ?_⟩
    rw [hr.prio]
    rcases eq_or_ne c t with rfl | hct
    · rw [update_self]
      omega
    · rw [update_of_ne hct]
      exact hi.prio_pos c hci fun hinv => hst ((hr.live c).mpr hinv)
  | timeslice =>
    obtain ⟨hq, -, hlast⟩ := schedProcessTimeslice_spec h hrun
    obtain ⟨r, l, hl⟩ := h.exists_head
    refine hi.congr ?_ hq.prio hq.live
    rw [hi.last]
    refine hlast idle r (by rw [hl]; rfl) ?_ hi.last
    by_cases hr : idle = r
    · exact Or.inl hr
    · right
      have := hi.prio_pos r (Ne.symm hr) (h.live (by rw [hl]; exact mem_cons_self))
      rw [hi.prio_idle]
      omega

end

/-! ### No assertion fires -/

section

variable (h : SchedInv s) (hi : IdleInv s)

include h hi

/-- A ready task can be taken out and put back. -/
theorem exists_readd (ht : t ∈ s.list .readytorun) (hne : t ≠ idle) (hp : 1 ≤ p) :
    ∃ s1 b s2 b', schedRemovereadytorun s t = .ok (s1, b) ∧
      schedAddreadytorun (s1.setPrio t p) t = .ok (s2, b') := by
  obtain ⟨s1, b, hrem⟩ := exists_schedRemovereadytorun (hi.ne_singleton hne)
  have hr := schedRemovereadytorun_spec h.toListInv ht hrem
  obtain ⟨r, l, hl⟩ := exists_cons_of_ne_nil hr.ne_nil
  obtain ⟨s2, b', hadd⟩ := exists_schedAddreadytorun (s := s1.setPrio t p) hl
    (by rw [Sched.prio_setPrio, update_self]; exact hp)
  exact ⟨s1, b, s2, b', hrem, hadd⟩

theorem exists_upReprioritizeRtr (ht : t ∈ s.list .readytorun) (hne : t ≠ idle) (hp : 1 ≤ p) :
    ∃ s', upReprioritizeRtr s t p = .ok s' := by
  obtain ⟨s1, b, s2, b', hrem, hadd⟩ := exists_readd h hi ht hne hp
  obtain ⟨hr, _, _, -, -, ha, -⟩ := readd_spec h ht hrem hadd
  rw [upReprioritizeRtr, if_pos ⟨h.ready_iff.mp ht, hp⟩, hrem, ok_bind]
  simp only
  rw [hadd, ok_bind]
  split
  · -- the idle task is still below everything that is pending
    have hidle1 : idle ∈ s1.list .readytorun := by
      rw [hr.ready, mem_erase_of_ne (Ne.symm hne)]
      exact hi.mem
    have hlow1 : ∀ a ∈ s1.list .pendingtasks, s.prio idle < s.prio a := by
      rw [hr.pending]
      exact hi.lt_pending h.toListInv
    have hprio2 : s2.prio = update s.prio t p := by
      rw [ha.frame.prio, Sched.prio_setPrio, hr.frame.prio]
    have hnp : t ∉ s1.list .pendingtasks := hr.inv.notMem hr.state
    have hlow2 : ∀ a ∈ s1.list .pendingtasks, s2.prio idle < s2.prio a := by
      intro a ham
      have hat : a ≠ t := fun hat => hnp (hat ▸ ham)
      rw [hprio2, update_of_ne (Ne.symm hne), update_of_ne hat]
      exact hlow1 a ham
    have hlt : s2.prio idle < s2.prio t := by
      rw [hprio2, update_of_ne (Ne.symm hne), update_self, hi.prio_idle]
      omega
    refine exists_mergeIfPending ⟨idle, ?_, fun a ham => ?_⟩
    · have hlists := ha.lists
      split at hlists
      · rw [hlists.1]
        exact hidle1
      · rw [hlists.1]
        exact Prio.mem_insert.mpr (Or.inr hidle1)
    · have hlists := ha.lists
      split at hlists
      · rw [hlists.2] at ham
        rcases Prio.mem_insert.mp ham with rfl | ham
        · exact hlt
        · exact hlow2 a ham
      · rw [hlists.2] at ham
        exact hlow2 a ham
  · exact ⟨_, rfl⟩

theorem exists_upBlockTask (hl : s.list .readytorun = t :: l) (hne : t ≠ idle)
    (hst : st.isBlocked = true) : ∃ s', upBlockTask s t st = .ok s' := by
  have ht : t ∈ s.list .readytorun := by rw [hl]; simp
  obtain ⟨s1, b, hrem⟩ := exists_schedRemovereadytorun (hi.ne_singleton hne)
  have hr := schedRemovereadytorun_spec h.toListInv ht hrem
  obtain ⟨s2, hadd⟩ := exists_schedAddblocked hst
    (by rw [hr.frame.prio]; exact hi.prio_pos t hne (h.live ht))
  obtain ⟨-, hprio2, -, -, -, L, -, hLb, hlist2⟩ := schedAddblocked_spec hr.inv hr.state hadd
  rw [upBlockTask, if_pos (h.ready_iff.mp ht), hrem, ok_bind]
  simp only
  rw [hadd, ok_bind]
  refine exists_mergeIfPending ⟨idle, ?_, ?_⟩
  · rw [hlist2, update_of_ne (TaskList.ne_readytorun hLb).symm, hr.ready,
      mem_erase_of_ne (Ne.symm hne)]
    exact hi.mem
  · rw [hlist2, update_of_ne (TaskList.ne_pendingtasks hLb).symm, hr.pending, hprio2, hr.frame.prio]
    exact hi.lt_pending h.toListInv

theorem exists_schedSetpriority (hne : t ≠ idle) {q : ℤ} (hq : LegalPriority q) :
    ∃ s' r, schedSetpriority s t q = .ok (s', r) := by
  obtain ⟨hq1, hq2⟩ := hq
  have hp : 1 ≤ q.toNat := by omega
  rw [schedSetpriority, if_neg (by simp only [schedPriorityMin, schedPriorityMax]; omega)]
  cases hst : s.state t with
  | running =>
    obtain ⟨l, hl⟩ := h.eq_head hst
    obtain ⟨next, l, rfl⟩ := hi.exists_next hl hne
    simp only [hl, flink_head]
    split
    · obtain ⟨s', hrun⟩ := exists_upReprioritizeRtr h hi (by rw [hl]; simp) hne hp
      exact ⟨s', .ok, by rw [hrun, ok_bind]⟩
    · exact ⟨_, _, rfl⟩
  | readyToRun =>
    have ht : t ∈ s.list .readytorun := (h.mem_iff t _).mpr (by rw [hst]; rfl)
    obtain ⟨rtcb, l, hl⟩ := h.exists_head
    simp only [hl, head?_cons]
    split
    · obtain ⟨s', hrun⟩ := exists_upReprioritizeRtr h hi ht hne hp
      exact ⟨s', .ok, by rw [hrun, ok_bind]⟩
    -- the task is not the head, and its new priority does not make it the head
    have hneq : t ≠ rtcb := by
      rintro rfl
      have hhd := (h.running_iff t).mpr (by rw [hl]; rfl)
      rw [hst] at hhd
      cases hhd
    obtain ⟨s1, b, s2, b', hrem, hadd⟩ := exists_readd h hi ht hne hp
    obtain ⟨rfl, rfl, -⟩ :=
      readd_head h (by rw [hl]; rfl) hneq ht (Or.inl (by omega)) hrem hadd
    refine ⟨s2, .ok, ?_⟩
    rw [hrem, ok_bind]
    simp only [osAssert, Bool.not_false, if_true, ok_bind, hadd]
  | pending | waitSem | waitMqNotEmpty | waitMqNotFull =>
    simp only [prioritized, list, if_true]
    rw [schedAddprioritized_ok.mpr ⟨by simpa using hp, rfl, rfl⟩, ok_bind]
    exact ⟨_, _, rfl⟩
  | invalid | inactive | waitSig =>
    exact ⟨_, _, rfl⟩

end

/-- A legal operation that spares the idle task returns. -/
theorem IdleInv.exists_run (hi : IdleInv s) (h : SchedInv s) (hlegal : op.Legal s)
    (hspare : op.SparesIdle s)
    (hlock : op.Locks → ∀ r ∈ (s.list .readytorun).head?, s.lockcount r < maxLockCount) :
    ∃ s', op.run cfg s = .ok s' := by
  obtain ⟨r, l, hl⟩ := h.exists_head
  cases op with
  | create irq t priority rr =>
    obtain ⟨ht, hp⟩ := hlegal
    have hnot : ∀ L, t ∉ s.list L := fun L => h.notMem ht
    have hrt : r ≠ t := by
      rintro rfl
      exact hnot .readytorun (by rw [hl]; simp)
    have hit : idle ≠ t := fun hit => hnot .readytorun (hit ▸ hi.mem)
    rw [SchedOp.run, taskSchedsetup_eq]
    obtain ⟨s1, hlock1⟩ := exists_schedLock (s := s.setup t priority rr) hl
      fun hirq : irq = false => by
        rw [Sched.lockcount_setup hrt]
        exact hlock hirq r (by rw [hl]; rfl)
    obtain ⟨hq1, hlist1, -⟩ := schedLock_spec (h.setup ht hp) hl hlock1
    rw [hlock1, ok_bind]
    refine exists_schedUnlock ⟨idle, ?_, fun a ha => ?_⟩
    · simpa [Sched.addInactive, hlist1, Sched.setup] using hi.mem
    have ha' : a ∈ s.list .pendingtasks := by
      simpa [Sched.addInactive, hlist1, Sched.setup] using ha
    have hat : a ≠ t := fun hat => hnot .pendingtasks (hat ▸ ha')
    simpa [Sched.addInactive, hq1.prio, Sched.prio_setup hp, update_of_ne hit,
      update_of_ne hat] using hi.lt_pending h.toListInv a ha'
  | block st =>
    have hne : r ≠ idle := by
      rintro rfl
      exact hspare (by rw [hl]; rfl)
    simp only [SchedOp.run, hl]
    exact exists_upBlockTask h hi hl hne hlegal
  | unblock t =>
    have hpos := hi.pos_of_isBlocked h hlegal
    obtain ⟨L, hL, hLb⟩ := exists_list hlegal
    obtain ⟨s1, hlist1, -, hprio1, -, heq⟩ := upUnblockTask_eq cfg hlegal hL
    obtain ⟨s', b, hadd⟩ := exists_schedAddreadytorun
      (show s1.list .readytorun = r :: l by
        simp [hlist1, (TaskList.ne_readytorun hLb).symm, hl])
      (show 1 ≤ s1.prio t by rw [hprio1]; exact hpos)
    exact ⟨s', by rw [SchedOp.run, heq, hadd, ok_bind]⟩
  | lock irq => exact exists_schedLock hl fun hirq => hlock hirq r (by rw [hl]; rfl)
  | unlock irq => exact exists_schedUnlock ⟨idle, hi.mem, hi.lt_pending h.toListInv⟩
  | setPriority t priority =>
    obtain ⟨s', q, hrun⟩ := exists_schedSetpriority h hi hspare hlegal.2
    exact ⟨s', by rw [SchedOp.run, hrun, ok_bind]⟩
  | timeslice =>
    simp only [SchedOp.run, schedProcessTimeslice, hl]
    split
    · exact ⟨_, rfl⟩
    split
    swap
    · exact ⟨_, rfl⟩
    split
    swap
    · exact ⟨_, rfl⟩
    split
    swap
    · exact ⟨_, rfl⟩
    cases l with
    | nil => exact ⟨_, rfl⟩
    | cons next l =>
      simp only
      split
      swap
      · exact ⟨_, rfl⟩
      -- the first of two tasks is not the idle task, which is the last
      have hlast := hi.last
      have hne : r ≠ idle := by
        rintro rfl
        have hnd := h.nodup .readytorun
        rw [hl] at hnd hlast
        exact (nodup_cons.mp hnd).1 (mem_of_mem_getLast? hlast)
      have hs : SchedInv (s.setTimeslice r (cfg.rrInterval / cfg.msecPerTick)) :=
        h.of_eq rfl (by simp) (by simp) (by simpa using h.locked)
      refine exists_upReprioritizeRtr hs (hi.congr rfl (by simp) (by simp))
        (by rw [Sched.list_setTimeslice, hl]; simp) hne ?_
      rw [Sched.prio_setTimeslice]
      exact hi.prio_pos r hne (h.live (by rw [hl]; exact mem_cons_self))

/-! ### The property of the scheduler -/

/-- What is to hold in every state of a run whose steps satisfy `P`. -/
structure SchedulerOk (cfg : SchedConfig) (P : SchedOp → Sched → Prop) (live : List Tid)
    (s : Sched) : Prop where
  ready_sorted : Prio.Desc s.prio (s.list .readytorun)
  idle_last : (s.list .readytorun).getLast? = some idle
  running_iff : ∀ t, s.state t = .running ↔ (s.list .readytorun).head? = some t
  one_list : ∀ t ∈ live, ∃ L, (s.state t).list = some L ∧
    ∀ M, (s.list M).count t = if M = L then 1 else 0
  prioritized_sorted : ∀ st L, st.prioritized = true → TaskState.list st = some L →
    Prio.Desc s.prio (s.list L)
  pending_locked : s.list .pendingtasks ≠ [] → ∀ h ∈ (s.list .readytorun).head?, 0 < s.lockcount h
  no_crash : ∀ op : SchedOp, op.Legal s → P op s →
    (op.Locks → ∀ r ∈ (s.list .readytorun).head?, s.lockcount r < maxLockCount) →
    ∃ s', op.run cfg s = .ok s'

theorem IdleInv.osStart : IdleInv osStart :=
  ⟨rfl, rfl, fun c hc hst => by simp [NuttX.osStart, Sched.state, hc] at hst⟩

theorem SchedRun.idle (h : SchedRun cfg SchedOp.SparesIdle live s) : IdleInv s := by
  induction h with
  | boot => exact IdleInv.osStart
  | step op hrun hlegal hspare hop ih => exact ih.step hrun.inv.1 hlegal hspare hop

/-- **The scheduler keeps its lists in order** in every run in which the idle task is neither
blocked nor reprioritized. -/
theorem schedRun_schedulerOk (h : SchedRun cfg SchedOp.SparesIdle live s) :
    SchedulerOk cfg SchedOp.SparesIdle live s := by
  obtain ⟨hinv, hlive⟩ := h.inv
  have hi := h.idle
  refine ⟨hinv.sorted _ rfl, hi.last, hinv.running_iff, fun t ht => ?_, fun st L hst hL => ?_,
    hinv.locked, fun op hlegal hspare hlock => hi.exists_run hinv hlegal hspare hlock⟩
  · obtain ⟨L, hL⟩ : ∃ L, (s.state t).list = some L := by
      rw [← Option.isSome_iff_exists, Option.isSome_iff_ne_none, ne_eq, ← TaskState.eq_invalid_iff]
      exact (hlive t).mpr ht
    refine ⟨L, hL, fun M => ?_⟩
    simp only [(hinv.nodup M).count, hinv.mem_iff, hL, Option.some.injEq, eq_comm]
  · rw [TaskState.prioritized_eq hL] at hst
    exact hinv.sorted L hst

theorem schedRun_schedulerOk_task :
    ∃ s, SchedRun ⟨200, 10⟩ SchedOp.SparesIdle [1, idle] s ∧
      SchedulerOk ⟨200, 10⟩ SchedOp.SparesIdle [1, idle] s := by
  have h₀ : SchedRun ⟨200, 10⟩ SchedOp.SparesIdle [idle] osStart := .boot
  have h₁ := h₀.step (.create false 1 100 true) ⟨rfl, by decide, by decide⟩ trivial rfl
  have h₂ := h₁.step (.unblock 1) rfl trivial rfl
  have h₃ := h₂.step .timeslice trivial trivial rfl
  exact ⟨_, h₃, schedRun_schedulerOk h₃⟩

/-- **The idle task is reprioritized**: boosted above the task that is running, it takes over the
head of `g_readytorun`, and the list ends in the other task. Alone in the list, it makes
`sched_setpriority` follow a null `flink`. -/
theorem not_schedulerOk_of_idle_reprioritized :
    (∃ s, SchedRun ⟨0, 10⟩ (fun _ _ => True) [1, idle] s ∧ (s.list .readytorun).getLast? = some 1 ∧
      ¬ SchedulerOk ⟨0, 10⟩ (fun _ _ => True) [1, idle] s) ∧
    (SchedOp.setPriority idle 200).run ⟨0, 10⟩ osStart = .error .nullDeref := by
  refine ⟨?_, rfl⟩
  have h₀ : SchedRun ⟨0, 10⟩ (fun _ _ => True) [idle] osStart := .boot
  have h₁ := h₀.step (.create false 1 100 false) ⟨rfl, by decide, by decide⟩ trivial rfl
  have h₂ := h₁.step (.unblock 1) rfl trivial rfl
  have h₃ := h₂.step (.setPriority idle 200) ⟨by decide, by decide, by decide⟩ trivial rfl
  refine ⟨_, h₃, rfl, fun hok => ?_⟩
  have hlast := hok.idle_last
  revert hlast
  decide

end NuttX
