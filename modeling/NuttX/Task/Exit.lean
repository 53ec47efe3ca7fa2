import NuttX.Sched.Runs

/-!
# Exiting tasks and their pre-emption locks

`task_deletecurrent` takes the running task off `g_readytorun`, deletes it, and leaves the context
switch to the caller. While the deletion runs the new head of the list is not really running, so
pre-emption is locked on its behalf: `sched_lock` before, `sched_unlock` after. Both act on
whichever task is the head at that moment, and between the two calls the pending tasks are merged.

`NuttX.taskDeletecurrent_lockcount` says exactly when the two calls cancel: no task that was
pending, or was made ready by the exit processing, is above the new head. Otherwise such a task has
become the head, `sched_unlock` works on it, and the lock stays with the task it was taken for.
-/

namespace NuttX

open Function TaskList Sched List

/-- The list manipulation of `task_delete`. -/
def taskDeleteLists (s : Sched) (dtcb : Tid) : Os Sched := do
  let s ← schedLock false s
  if s.state dtcb = .running then .error (.panic .badDeleteState)
  else
    match (s.state dtcb).list with
    | none => .error .nullDeref
    | some L => schedUnlock false ((s.dqRem dtcb L).setState dtcb .invalid)

/-- The tasks that the exit processing makes ready, one after the other. -/
def unblockAll (cfg : SchedConfig) : List Tid → Sched → Os Sched
  | [], s => .ok s
  | w :: ws, s => do
    let s ← upUnblockTask cfg s w
    unblockAll cfg ws s

/-- `task_delete`. The process ID of the running task, and the process ID zero, which belongs to
the idle task, stand for the caller. What `task_exithook` and `sched_releasetcb` do to the task
lists is to make the tasks `wakes` ready. -/
def taskDelete (cfg : SchedConfig) (s : Sched) (dtcb : Tid) (wakes : List Tid) : Os Sched :=
  if dtcb = idle ∨ (s.list .readytorun).head? = some dtcb then .error .exit
  else do
    let s ← taskDeleteLists s dtcb
    unblockAll cfg wakes s

/-- `task_deletecurrent`, where the exit processing makes the tasks `wakes` ready. -/
def taskDeletecurrent (cfg : SchedConfig) (s : Sched) (wakes : List Tid) : Os Sched :=
  match s.list .readytorun with
  | [] => .error .nullDeref
  | dtcb :: _ => do
    let (s, _) ← schedRemovereadytorun s dtcb
    match s.list .readytorun with
    | [] => .error .nullDeref
    | rtcb :: _ =>
      let s ← schedLock false s
      let s := s.setState rtcb .readyToRun
      let s ← schedAddblocked s dtcb .inactive
      let s ← taskDelete cfg s dtcb wakes
      let s := s.setState rtcb .running
      let s ← mergeIfPending s
      schedUnlock false s

variable {cfg : SchedConfig} {P : SchedOp → Sched → Prop} {live : List Tid} {s s' : Sched}
  {t c rtcb dtcb w : Tid} {l wakes : List Tid}

/-! ### The exit processing -/

/-- The states in which the exit processing runs: the new head `rtcb` is locked, and everything
that is above it has been held back. -/
structure Exiting (s : Sched) (rtcb : Tid) : Prop where
  inv : ListInv s
  head : (s.list .readytorun).head? = some rtcb
  locked : 0 < s.lockcount rtcb

/-- One task made ready during the exit processing does not become the head. -/
theorem Exiting.unblock (h : Exiting s rtcb) (hrun : upUnblockTask cfg s w = .ok s') :
    Exiting s' rtcb ∧ s'.prio = s.prio ∧ s'.lockcount = s.lockcount ∧
      (∀ a, a ∈ s'.list .pendingtasks ↔ a ∈ s.list .pendingtasks ∨ a = w ∧ s.prio rtcb < s.prio a) ∧
      (∀ a ∈ s.list .readytorun, a ∈ s'.list .readytorun) ∧
      ∀ a, a ≠ w → (s.state a).isBlocked = true → (s'.state a).isBlocked = true := by
  have hb : (s.state w).isBlocked = true := by
    by_contra hb
    rw [upUnblockTask, if_neg hb] at hrun
    cases hrun
  obtain ⟨L, hL, hLb⟩ := TaskState.exists_list hb
  obtain ⟨s1, hlist1, hstate₁, hprio1, hlock1, heq⟩ := upUnblockTask_eq cfg hb hL
  rw [heq] at hrun
  obtain ⟨⟨s2, b⟩, hadd, hrest⟩ := bind_ok.mp hrun
  obtain rfl := Except.ok.inj hrest
  obtain ⟨l, hl⟩ := head?_eq_some_iff.mp h.head
  have hready₁ : s1.list .readytorun = rtcb :: l := by
    simp [hlist1, (ne_readytorun hLb).symm, hl]
  have hpend1 : s1.list .pendingtasks = s.list .pendingtasks := by
    simp [hlist1, (ne_pendingtasks hLb).symm]
  have ha := schedAddreadytorun_spec
    ((h.inv.remove hL).of_eq hlist1 hstate₁ (by rw [hprio1]; simp)) (by simp [hstate₁]) hready₁ hadd
  have hlists := ha.lists
  rw [hprio1, hlock1, hpend1, hready₁] at hlists
  have hprio : s2.prio = s.prio := by rw [ha.frame.prio, hprio1]
  have hlock : s2.lockcount = s.lockcount := by rw [ha.frame.lockcount, hlock1]
  have hblk : ∀ a, a ≠ w → (s.state a).isBlocked = true → (s2.state a).isBlocked = true := by
    intro a haw hab
    obtain ⟨M, hM, hMb⟩ := TaskState.exists_list hab
    have hmem : a ∈ s2.list M := by
      rw [ha.frame.blocked M hMb, hlist1, list_setState, list_dqRem]
      rcases eq_or_ne M L with rfl | hML
      · rw [update_self, mem_erase_of_ne haw]
        exact (h.inv.mem_iff a M).mpr hM
      · rw [update_of_ne hML]
        exact (h.inv.mem_iff a M).mpr hM
    rw [TaskState.isBlocked_eq ((ha.inv.mem_iff a M).mp hmem)]
    exact hMb
  by_cases hhigh : s.prio rtcb < s.prio w
  · rw [if_pos ⟨h.locked, hhigh⟩] at hlists
    refine ⟨⟨ha.inv, by rw [hlists.1]; rfl, by rw [hlock]; exact h.locked⟩, hprio, hlock,
      fun a => ?_, fun a ham => by rw [hlists.1, ← hl]; exact ham, hblk⟩
    rw [hlists.2, Prio.mem_insert]
    refine or_comm.trans (or_congr_right ⟨?_, And.left⟩)
    rintro rfl
    exact ⟨rfl, hhigh⟩
  · rw [if_neg fun hc => hhigh hc.2] at hlists
    refine ⟨⟨ha.inv, ?_, by rw [hlock]; exact h.locked⟩, hprio, hlock, fun a => ?_,
      fun a ham => by rw [hlists.1, Prio.mem_insert, ← hl]; exact Or.inr ham, hblk⟩
    · rw [hlists.1, Prio.head?_insert, if_neg (Prio.ahead_cons_ne_nil (not_lt.mp hhigh))]
      rfl
    rw [hlists.2]
    refine (or_iff_left ?_).symm
    rintro ⟨rfl, hlt⟩
    exact hhigh hlt

theorem Exiting.unblockAll : ∀ {wakes : List Tid} {s : Sched}, Exiting s rtcb →
    unblockAll cfg wakes s = .ok s' →
    Exiting s' rtcb ∧ s'.prio = s.prio ∧ s'.lockcount = s.lockcount ∧
      (∀ a, a ∈ s'.list .pendingtasks ↔
        a ∈ s.list .pendingtasks ∨ a ∈ wakes ∧ s.prio rtcb < s.prio a) ∧
      ∀ a ∈ s.list .readytorun, a ∈ s'.list .readytorun
  | [], s, h, hrun => by
    cases hrun
    exact ⟨h, rfl, rfl, by simp, fun _ ha => ha⟩
  | w :: ws, s, h, hrun => by
    obtain ⟨s1, hw, hrest⟩ := bind_ok.mp hrun
    obtain ⟨h1, hprio1, hlock1, hpend1, hready₁, -⟩ := h.unblock hw
    obtain ⟨h2, hprio2, hlock2, hpend2, hready₂⟩ := h1.unblockAll hrest
    refine ⟨h2, hprio2.trans hprio1, hlock2.trans hlock1, fun a => ?_,
      fun a ha => hready₂ a (hready₁ a ha)⟩
    rw [hpend2, hpend1, hprio1, mem_cons]
    tauto

/-! ### Before and after -/

theorem schedLock_false_ok (hl : s.list .readytorun = rtcb :: l) :
    schedLock false s = .ok s' ↔
      s.lockcount rtcb < maxLockCount ∧ s' = s.setLock rtcb (s.lockcount rtcb + 1) := by
  simp only [schedLock, hl, Bool.false_eq_true, if_false, bind_ok, osAssert_ok, decide_eq_true_eq,
    exists_const, Except.ok.injEq, eq_comm (a := s')]

theorem schedUnlock_false_eq (hl : s.list .readytorun = rtcb :: l)
    (hcond : s.lockcount rtcb - 1 = 0 → s.list .pendingtasks = []) :
    schedUnlock false s = .ok (s.setLock rtcb (s.lockcount rtcb - 1)) := by
  simp only [schedUnlock, hl, Bool.false_eq_true, if_false]
  rw [if_neg]
  rintro ⟨h0, hne⟩
  rw [lockcount_setLock, update_self] at h0
  exact hne (hcond h0)

/-- The state in which `task_deletecurrent` calls `task_delete`: the exiting task is inactive, and
the new head of `g_readytorun` has been locked once. -/
structure Leaving (s s' : Sched) (dtcb rtcb : Tid) (l : List Tid) : Prop where
  inv : ListInv s'
  ready : s'.list .readytorun = rtcb :: l
  pending : s'.list .pendingtasks = s.list .pendingtasks
  prio : s'.prio = s.prio
  lockcount : s'.lockcount = update s.lockcount rtcb (s.lockcount rtcb + 1)
  state : s'.state dtcb = .inactive
  blocked : ∀ L, L.isBlocked = true → (s'.list L).erase dtcb = s.list L

theorem SchedInv.head_ne (h : SchedInv s) (hl : s.list .readytorun = dtcb :: rtcb :: l) :
    dtcb ≠ rtcb := by
  rintro rfl
  have hnodup := h.nodup .readytorun
  rw [hl] at hnodup
  simp at hnodup

theorem Leaving.intro (h : SchedInv s) (hl : s.list .readytorun = dtcb :: rtcb :: l)
    {s1 s2 s3 : Sched} {b : Bool} (hrem : schedRemovereadytorun s dtcb = .ok (s1, b))
    (hlock : schedLock false s1 = .ok s2)
    (hadd : schedAddblocked (s2.setState rtcb .readyToRun) dtcb .inactive = .ok s3) :
    Leaving s s3 dtcb rtcb l := by
  have hr := schedRemovereadytorun_spec h.toListInv (by rw [hl]; simp) hrem
  have hready₁ : s1.list .readytorun = rtcb :: l := by rw [hr.ready, hl, erase_cons_head]
  obtain ⟨-, rfl⟩ := (schedLock_false_ok hready₁).mp hlock
  have hrl : (s1.state rtcb).list = some .readytorun :=
    (hr.inv.mem_iff rtcb _).mp (by rw [hready₁]; simp)
  have hinv1 : ListInv (s1.setLock rtcb (s1.lockcount rtcb + 1)) :=
    hr.inv.of_eq rfl (by simp) (by simp)
  have hinv2 : ListInv ((s1.setLock rtcb (s1.lockcount rtcb + 1)).setState rtcb .readyToRun) := by
    refine hinv1.setState ?_
    rw [state_setLock, hrl]
    rfl
  obtain ⟨hinv3, hprio3, hlock3, hstate₃, -, L, hL, -, hlist3⟩ := schedAddblocked_spec hinv2
    (by simp [update_of_ne (h.head_ne hl), hr.state]) hadd
  obtain rfl : inactivetasks = L := Option.some.inj hL
  refine ⟨hinv3, by simp [hlist3, hready₁], by simp [hlist3, hr.pending],
    by simp [hprio3, hr.frame.prio], by simp [hlock3, hr.frame.lockcount],
    by rw [hstate₃, update_self], fun L hLb => ?_⟩
  have hnot : ∀ M, M.isBlocked = true → dtcb ∉ s.list M := by
    intro M hM hm
    rw [h.mem_iff, (h.mem_iff dtcb .readytorun).mp (by rw [hl]; simp)] at hm
    exact ne_readytorun hM (Option.some.inj hm).symm
  rcases eq_or_ne L .inactivetasks with rfl | hLi
  · have hlist : s3.list .inactivetasks = s.list .inactivetasks ++ [dtcb] := by
      simp [hlist3, prioritized, hr.frame.blocked _ hLb]
    rw [hlist, erase_append_right _ (hnot _ hLb)]
    simp
  · have hlist : s3.list L = s.list L := by
      simp [hlist3, update_of_ne hLi, hr.frame.blocked L hLb]
    rw [hlist, erase_of_not_mem (hnot L hLb)]

/-- The lock taken by `task_delete` is the second one, so its release has no effect. -/
theorem Leaving.taskDeleteLists_ok {s3 s4 : Sched} (h : Leaving s s3 dtcb rtcb l) :
    taskDeleteLists s3 dtcb = .ok s4 ↔ s.lockcount rtcb + 1 < maxLockCount ∧
      s4 = (((s3.setLock rtcb (s.lockcount rtcb + 2)).dqRem dtcb .inactivetasks).setState dtcb
        .invalid).setLock rtcb (s.lockcount rtcb + 1) := by
  have hn : s3.lockcount rtcb = s.lockcount rtcb + 1 := by rw [h.lockcount, update_self]
  have hrest : schedUnlock false (((s3.setLock rtcb (s.lockcount rtcb + 2)).dqRem dtcb
      .inactivetasks).setState dtcb .invalid) =
        .ok ((((s3.setLock rtcb (s.lockcount rtcb + 2)).dqRem dtcb .inactivetasks).setState dtcb
          .invalid).setLock rtcb (s.lockcount rtcb + 1)) := by
    have hready : (((s3.setLock rtcb (s.lockcount rtcb + 2)).dqRem dtcb
      .inactivetasks).setState dtcb .invalid).list .readytorun = rtcb :: l := by simp [h.ready]
    rw [schedUnlock_false_eq hready fun h0 => absurd h0 (by simp)]
    simp
  rw [taskDeleteLists, bind_ok]
  simp only [schedLock_false_ok h.ready, hn]
  constructor
  · rintro ⟨s5, ⟨hroom, rfl⟩, hrun⟩
    simp only [state_setLock, h.state, reduceCtorEq, if_false, TaskState.list] at hrun
    rw [hrest] at hrun
    exact ⟨hroom, (Except.ok.inj hrun).symm⟩
  · rintro ⟨hroom, rfl⟩
    refine ⟨_, ⟨hroom, rfl⟩, ?_⟩
    simp only [state_setLock, h.state, reduceCtorEq, if_false, TaskState.list]
    exact hrest

theorem Leaving.exiting {s3 s4 : Sched} (h : Leaving s s3 dtcb rtcb l)
    (hdel : taskDeleteLists s3 dtcb = .ok s4) :
    Exiting s4 rtcb ∧ s4.prio = s.prio ∧
      s4.lockcount = update s.lockcount rtcb (s.lockcount rtcb + 1) ∧
      s4.list .pendingtasks = s.list .pendingtasks ∧ s4.list .readytorun = rtcb :: l ∧
      ∀ L, L.isBlocked = true → s4.list L = s.list L := by
  obtain ⟨-, rfl⟩ := h.taskDeleteLists_ok.mp hdel
  have hinv3 : ListInv (s3.setLock rtcb (s.lockcount rtcb + 2)) :=
    h.inv.of_eq rfl (by simp) (by simp)
  have hinv4 : ListInv (((s3.setLock rtcb (s.lockcount rtcb + 2)).dqRem dtcb
      .inactivetasks).setState dtcb .invalid) := by
    refine hinv3.remove ?_
    rw [state_setLock, h.state]
    rfl
  refine ⟨⟨hinv4.of_eq rfl (by simp) (by simp), by simp [h.ready], by simp⟩, by simp [h.prio],
    by simp [h.lockcount], by simp [h.pending], by simp [h.ready], fun L hL => ?_⟩
  rcases eq_or_ne L .inactivetasks with rfl | hLi
  · simpa using h.blocked _ hL
  have hnot : dtcb ∉ s3.list L := by
    rw [h.inv.mem_iff, h.state]
    exact fun hcon => hLi (Option.some.inj hcon).symm
  have hb := h.blocked L hL
  rw [erase_of_not_mem hnot] at hb
  simp [update_of_ne hLi, hb]

/-- The merge at the end leaves a head. -/
theorem Exiting.merged (h : Exiting s rtcb)
    (hmerge : mergeIfPending (s.setState rtcb .running) = .ok s') :
    Merged (s.setState rtcb .running) s' rtcb ∧ ∃ head l, s'.list .readytorun = head :: l := by
  obtain ⟨l, hl⟩ := head?_eq_some_iff.mp h.head
  have hinv : ListInv (s.setState rtcb .running) := by
    refine h.inv.setState ?_
    rw [(h.inv.mem_iff rtcb _).mp (by rw [hl]; simp)]
    rfl
  have hm := mergeIfPending_spec hinv hl hmerge
  refine ⟨hm, exists_cons_of_ne_nil fun hnil => ?_⟩
  have hmem := (hm.mem_ready rtcb).mpr (Or.inr (by simp [hl]))
  rw [hnil] at hmem
  cases hmem

/-- **What `task_deletecurrent` does to the lock counts**: it releases the lock of the head that
the merge leaves, and has taken the lock of the head before the merge. -/
theorem taskDeletecurrent_spec (h : SchedInv s) (hl : s.list .readytorun = dtcb :: rtcb :: l)
    (hrun : taskDeletecurrent cfg s wakes = .ok s') :
    ∃ head, s'.lockcount = update (update s.lockcount rtcb (s.lockcount rtcb + 1)) head
        (update s.lockcount rtcb (s.lockcount rtcb + 1) head - 1) ∧
      (head = rtcb ↔ ∀ a ∈ s.list .pendingtasks ++ wakes, s.prio a ≤ s.prio rtcb) := by
  simp only [taskDeletecurrent, hl] at hrun
  obtain ⟨⟨s1, b⟩, hrem, hrun⟩ := bind_ok.mp hrun
  have hr := schedRemovereadytorun_spec h.toListInv (by rw [hl]; simp) hrem
  have hready₁ : s1.list .readytorun = rtcb :: l := by rw [hr.ready, hl, erase_cons_head]
  simp only [hready₁] at hrun
  obtain ⟨s2, hlock, hrun⟩ := bind_ok.mp hrun
  obtain ⟨s3, hadd, hrun⟩ := bind_ok.mp hrun
  obtain ⟨s5, hdel, hrun⟩ := bind_ok.mp hrun
  rw [taskDelete] at hdel
  split at hdel
  · cases hdel
  obtain ⟨s4, hlists, hwake⟩ := bind_ok.mp hdel
  obtain ⟨s6, hmerge, hunlock⟩ := bind_ok.mp hrun
  obtain ⟨he4, hprio4, hlock4, hpend4, -⟩ := (Leaving.intro h hl hrem hlock hadd).exiting hlists
  obtain ⟨he5, hprio5, hlock5, hpend5, -⟩ := he4.unblockAll hwake
  obtain ⟨hm, head, l6, hl6⟩ := he5.merged hmerge
  rw [schedUnlock_false_eq hl6 fun _ => hm.pending] at hunlock
  cases hunlock
  have hlock6 : s6.lockcount = update s.lockcount rtcb (s.lockcount rtcb + 1) := by
    rw [hm.frame.lockcount, lockcount_setState, hlock5, hlock4]
  refine ⟨head, by rw [lockcount_setLock, hlock6], ?_⟩
  have hhead := hm.head_eq_iff
  rw [hl6, head?_cons, Option.some.injEq] at hhead
  rw [hhead]
  simp only [list_setState, prio_setState, hpend5, hpend4, hprio5, hprio4, mem_append]
  constructor
  · rintro hlow a (ha | ha)
    · exact hlow a (Or.inl ha)
    · by_contra hlt
      exact hlt (hlow a (Or.inr ⟨ha, not_le.mp hlt⟩))
  · rintro hlow a (ha | ⟨ha, -⟩)
    · exact hlow a (Or.inl ha)
    · exact hlow a (Or.inr ha)

/-! ### The call returns -/

theorem Exiting.exists_unblockAll (cfg : SchedConfig) :
    ∀ {wakes : List Tid} {s : Sched}, Exiting s rtcb →
    wakes.Nodup → (∀ w ∈ wakes, (s.state w).isBlocked = true ∧ 1 ≤ s.prio w) →
    ∃ s', NuttX.unblockAll cfg wakes s = .ok s'
  | [], s, _, _, _ => ⟨s, rfl⟩
  | w :: ws, s, h, hnd, hall => by
    obtain ⟨hb, hp⟩ := hall w (by simp)
    obtain ⟨hw, hnd⟩ := nodup_cons.mp hnd
    obtain ⟨L, hL, hLb⟩ := TaskState.exists_list hb
    obtain ⟨l, hl⟩ := head?_eq_some_iff.mp h.head
    obtain ⟨s1, hlist1, -, hprio1, -, heq⟩ := upUnblockTask_eq cfg hb hL
    obtain ⟨s2, b, hadd⟩ := exists_schedAddreadytorun
      (show s1.list .readytorun = rtcb :: l by
        simp [hlist1, (ne_readytorun hLb).symm, hl])
      (show 1 ≤ s1.prio w by rw [hprio1]; exact hp)
    have hrun : upUnblockTask cfg s w = .ok s2 := by rw [heq, hadd, ok_bind]
    obtain ⟨h2, hprio2, -, -, -, hblk2⟩ := h.unblock hrun
    obtain ⟨s', hrest⟩ := h2.exists_unblockAll cfg hnd fun a ha => by
      refine ⟨hblk2 a ?_ (hall a (by simp [ha])).1, by rw [hprio2]; exact (hall a (by simp [ha])).2⟩
      rintro rfl
      exact hw ha
    exact ⟨s', by rw [NuttX.unblockAll, hrun, ok_bind, hrest]⟩

/-- `task_deletecurrent` returns when the idle task is in its place, the lock count of the new head
has room for two more locks and the exit processing wakes blocked tasks. -/
theorem exists_taskDeletecurrent (h : SchedInv s) (hi : IdleInv s)
    (hl : s.list .readytorun = dtcb :: rtcb :: l) (hroom : s.lockcount rtcb + 2 ≤ maxLockCount)
    (hnd : wakes.Nodup) (hwakes : ∀ w ∈ wakes, (s.state w).isBlocked = true) :
    ∃ s', taskDeletecurrent cfg s wakes = .ok s' := by
  have hdi : dtcb ≠ idle := by
    rintro rfl
    have hlast := hi.last
    have hnodup := h.nodup .readytorun
    rw [hl] at hnodup
    rw [hl, getLast?_cons_cons] at hlast
    exact (nodup_cons.mp hnodup).1 (mem_of_mem_getLast? hlast)
  have hdlive := h.live (by rw [hl]; exact mem_cons_self)
  obtain ⟨s1, b, hrem⟩ := exists_schedRemovereadytorun (t := dtcb) (by rw [hl]; simp)
  have hr := schedRemovereadytorun_spec h.toListInv (by rw [hl]; simp) hrem
  have hready₁ : s1.list .readytorun = rtcb :: l := by rw [hr.ready, hl, erase_cons_head]
  have hlock := (schedLock_false_ok hready₁).mpr ⟨by rw [hr.frame.lockcount]; omega, rfl⟩
  obtain ⟨s3, hadd⟩ : ∃ s3, schedAddblocked
      ((s1.setLock rtcb (s1.lockcount rtcb + 1)).setState rtcb .readyToRun) dtcb .inactive =
        .ok s3 :=
    exists_schedAddblocked rfl (by simpa [hr.frame.prio] using hi.prio_pos dtcb hdi hdlive)
  have hleave := Leaving.intro h hl hrem hlock hadd
  have hdel := hleave.taskDeleteLists_ok.mpr ⟨by omega, rfl⟩
  obtain ⟨he4, hprio4, -, hpend4, hready₄, hblk4⟩ := hleave.exiting hdel
  -- the tasks that are to be woken are blocked in this state too
  have hwpos : ∀ w ∈ wakes, 1 ≤ s.prio w := fun w hw => hi.pos_of_isBlocked h (hwakes w hw)
  obtain ⟨s5, hwake⟩ := he4.exists_unblockAll cfg hnd fun w hw => by
    obtain ⟨L, hL, hLb⟩ := TaskState.exists_list (hwakes w hw)
    have hm := (h.mem_iff w L).mpr hL
    rw [← hblk4 L hLb, he4.inv.mem_iff] at hm
    exact ⟨by rw [TaskState.isBlocked_eq hm]; exact hLb, by rw [hprio4]; exact hwpos w hw⟩
  obtain ⟨he5, hprio5, -, hpend5, hready₅⟩ := he4.unblockAll hwake
  have hidle : idle ∈ rtcb :: l := by
    have := hi.mem
    rw [hl] at this
    exact (mem_cons.mp this).resolve_left (Ne.symm hdi)
  obtain ⟨s6, hmerge⟩ : ∃ s6, mergeIfPending (s5.setState rtcb .running) = .ok s6 := by
    refine exists_mergeIfPending ⟨idle, hready₅ idle (by rw [hready₄]; exact hidle), fun a ha => ?_⟩
    rw [list_setState, hpend5, hpend4] at ha
    rw [prio_setState, hprio5, hprio4]
    rcases ha with ha | ⟨ha, -⟩
    · exact hi.lt_pending h.toListInv a ha
    · have := hwpos a ha
      rw [hi.prio_idle]
      omega
  obtain ⟨hm, head, l6, hl6⟩ := he5.merged hmerge
  refine ⟨s6.setLock head (s6.lockcount head - 1), ?_⟩
  simp only [taskDeletecurrent, hl]
  rw [hrem, ok_bind]
  simp only [hready₁]
  rw [hlock, ok_bind, hadd, ok_bind, taskDelete,
    if_neg (by simp [hleave.ready, hdi, (h.head_ne hl).symm]), hdel, ok_bind, hwake, ok_bind,
    hmerge, ok_bind]
  exact schedUnlock_false_eq hl6 fun _ => hm.pending

/-- **The lock counts of the surviving tasks are their own** after `task_deletecurrent` exactly when
nothing that was pending, or was made ready by the exit processing, is above the new head of
`g_readytorun`; and the call returns in every run that spares the idle task, as long as the lock
count of the new head has room. -/
theorem taskDeletecurrent_lockcount (h : SchedRun cfg P live s)
    (hl : s.list .readytorun = dtcb :: rtcb :: l) (wakes : List Tid) :
    (∀ s', taskDeletecurrent cfg s wakes = .ok s' →
      ((∀ c ∈ live, c ≠ dtcb → s'.lockcount c = s.lockcount c) ↔
        ∀ a ∈ s.list .pendingtasks ++ wakes, s.prio a ≤ s.prio rtcb)) ∧
    (IdleInv s → s.lockcount rtcb + 2 ≤ maxLockCount → wakes.Nodup →
      (∀ w ∈ wakes, (s.state w).isBlocked = true) →
      ∃ s', taskDeletecurrent cfg s wakes = .ok s') := by
  obtain ⟨hinv, hlive⟩ := h.inv
  refine ⟨fun s' hrun => ?_, fun hi hroom hnd hw =>
    exists_taskDeletecurrent hinv hi hl hroom hnd hw⟩
  obtain ⟨head, hlock, hhead⟩ := taskDeletecurrent_spec hinv hl hrun
  rw [← hhead]
  constructor
  · intro hkeep
    -- the new head of the list before the merge survives, so its lock has been released
    have hrl : rtcb ∈ live := by
      rw [← hlive]
      exact hinv.live (by rw [hl]; simp)
    by_contra hne
    have := hkeep rtcb hrl (hinv.head_ne hl).symm
    rw [hlock, update_of_ne (Ne.symm hne), update_self] at this
    omega
  · rintro rfl c - -
    rw [hlock]
    rcases eq_or_ne c head with rfl | hc
    · simp
    · simp [update_of_ne hc]

theorem taskDeletecurrent_lockcount_two :
    ∃ s s', SchedRun ⟨0, 10⟩ SchedOp.SparesIdle [2, 1, idle] s ∧
      taskDeletecurrent ⟨0, 10⟩ s [] = .ok s' ∧
      ∀ c ∈ [2, 1, idle], c ≠ 1 → s'.lockcount c = s.lockcount c := by
  have h₀ : SchedRun ⟨0, 10⟩ SchedOp.SparesIdle [idle] osStart := .boot
  have h₁ := h₀.step (.create false 1 100 false) ⟨rfl, by decide, by decide⟩ trivial rfl
  have h₂ := h₁.step (.unblock 1) rfl trivial rfl
  have h₃ := h₂.step (.create false 2 50 false) ⟨rfl, by decide, by decide⟩ trivial rfl
  have h₄ := h₃.step (.unblock 2) rfl trivial rfl
  exact ⟨_, _, h₄, rfl, ((taskDeletecurrent_lockcount h₄ rfl []).1 _ rfl).mpr (by decide)⟩

/-- **A lock is left behind**: a task of priority 100 exits with pre-emption locked, while a task
of priority 120 is pending and a task of priority 50 is ready to run. The pending task becomes the
head, and the lock taken on behalf of the other one is never released. -/
theorem taskDeletecurrent_leaves_lock :
    ∃ s s', SchedRun ⟨0, 10⟩ SchedOp.SparesIdle [3, 2, 1, idle] s ∧
      taskDeletecurrent ⟨0, 10⟩ s [] = .ok s' ∧ s.lockcount 2 = 0 ∧ s'.lockcount 2 = 1 := by
  have h₀ : SchedRun ⟨0, 10⟩ SchedOp.SparesIdle [idle] osStart := .boot
  have h₁ := h₀.step (.create false 1 100 false) ⟨rfl, by decide, by decide⟩ trivial rfl
  have h₂ := h₁.step (.unblock 1) rfl trivial rfl
  have h₃ := h₂.step (.create false 2 50 false) ⟨rfl, by decide, by decide⟩ trivial rfl
  have h₄ := h₃.step (.unblock 2) rfl trivial rfl
  have h₅ := h₄.step (.create false 3 120 false) ⟨rfl, by decide, by decide⟩ trivial rfl
  have h₆ := h₅.step (.lock false) trivial trivial rfl
  have h₇ := h₆.step (.unblock 3) rfl trivial rfl
  exact ⟨_, _, h₇, rfl, rfl, rfl⟩

end NuttX
