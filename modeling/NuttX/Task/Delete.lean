import NuttX.Kernel.Accounts

/-!
# Deleting and restarting a task that waits

`task_delete` and `task_restart` take a task out of whatever list it is in. If the task waits for a
semaphore or a message queue, the object still counts it as a waiter: `sem_waitirq` and `mq_waitirq`
adjust the count when a wait is cut short, these two do not. `NuttX.taskDelete_repaired_iff` says
that the counts are right after the call exactly when the task was not waiting, and
`NuttX.taskDelete_leaves_waiter` shows what happens otherwise: the next post finds nobody, and the
next message makes `mq_dosend` panic.

The error returns of `task_restart` forget the pre-emption lock that it has taken:
`NuttX.taskRestart_failed_lock`.
-/

namespace NuttX

open Waiters

/-- The numbers that semaphores and message queues store of their waiters are those of the tasks in
the lists. -/
structure Repaired (k : Kernel) : Prop where
  sem : ∀ s, k.semcount s < 0 →
    -(k.semcount s) = Waiters.count k.waitsem s (k.sched.list .waitingforsemaphore)
  notEmpty : ∀ q, (k.mq q).nwaitnotempty =
    Waiters.count k.msgwaitq q (k.sched.list .waitingformqnotempty)
  notFull : ∀ q, (k.mq q).nwaitnotfull =
    Waiters.count k.msgwaitq q (k.sched.list .waitingformqnotfull)

variable {cfg : SchedConfig} {op : KOp} {k k' : Kernel} {ev : KEvent} {tr : List KEvent} {t : Tid}
  {n : SemId → ℕ} {maxmsgs : MqId → ℤ} {maxmsgsize : MqId → ℕ}

theorem WaitsInv.repaired (h : WaitsInv k.waits) : Repaired k := by
  refine ⟨fun s hs => ?_, h.mq .notEmpty, h.mq .notFull⟩
  have hcount : (count k.waitsem s (k.sched.list .waitingforsemaphore) : ℤ) =
    max (-(k.semcount s)) 0 := h.sem s
  omega

theorem Repaired.mq (h : Repaired k) (e : MqEvent) (q : MqId) :
    (k.mq q).nwait e = count k.msgwaitq q (k.sched.list e.list) := by
  cases e with
  | notEmpty => exact h.notEmpty q
  | notFull => exact h.notFull q

/-- A waiter that is taken out of its list is still counted. -/
theorem KDropped.not_repaired (h : WaitsInv k.waits) (hd : KDropped k k' t)
    (hw : k.Waiting t) : ¬ Repaired k' := by
  intro hrep
  obtain ⟨L, hL, hwait⟩ := Kernel.waiting_iff.mp hw
  have hm : t ∈ k.sched.list L := (h.sched.mem_iff t L).mpr hL
  have hmq : ∀ e : MqEvent, e.list = L → False := by
    rintro e rfl
    obtain ⟨q, hq⟩ := Option.isSome_iff_exists.mp (h.msgwaitq_isSome e t hm)
    have hold : (k.mq q).nwait e = count k.msgwaitq q (k.sched.list e.list) := h.mq e q
    have hleave : count k.msgwaitq q ((k.sched.list e.list).erase t) +
        (if q = q then 1 else 0) = count k.msgwaitq q (k.sched.list e.list) :=
      count_erase hm hq
    have hnew := hrep.mq e q
    rw [hd.mq, hd.msgwaitq, hd.sched.list _ e.isWait, hold] at hnew
    rw [if_pos rfl] at hleave
    omega
  cases L with
  | waitingforsemaphore =>
    obtain ⟨s, hs⟩ := Option.isSome_iff_exists.mp (h.waitsem_isSome t hm)
    have hold : (count k.waitsem s (k.sched.list .waitingforsemaphore) : ℤ) =
      max (-(k.semcount s)) 0 := h.sem s
    have hleave : count k.waitsem s ((k.sched.list .waitingforsemaphore).erase t) +
        (if s = s then 1 else 0) = count k.waitsem s (k.sched.list .waitingforsemaphore) :=
      count_erase hm hs
    rw [if_pos rfl] at hleave
    have hnew := hrep.sem s (by rw [hd.semcount]; omega)
    rw [hd.semcount, hd.waitsem, hd.sched.list _ rfl] at hnew
    omega
  | waitingformqnotempty => exact hmq .notEmpty rfl
  | waitingformqnotfull => exact hmq .notFull rfl
  | readytorun | pendingtasks | inactivetasks | waitingforsignal => cases hwait

/-- **Deleting or restarting a task repairs nothing**: in every run in which this has only happened
to tasks that were not waiting the counts are right, and after the call for a task other than the
caller they are right exactly when that task is not waiting. -/
theorem taskDelete_repaired_iff
    (h : KRun cfg KOp.SparesWaiters (Kernel.boot n maxmsgs maxmsgsize) tr k)
    (hop : op = .taskDelete t ∨ op = .taskRestart t) (ht : t ∈ k.tasks) (hidle : t ≠ idle)
    (hhead : (k.sched.list .readytorun).head? ≠ some t) (hrun : op.run cfg k = .ok (k', ev)) :
    Repaired k ∧ (Repaired k' ↔ ¬ k.Waiting t) := by
  have hinv := h.waitsInv (fun _ _ hp => hp) WaitsInv.boot
  have hd : KDropped k k' t := by
    rcases hop with rfl | rfl
    · exact k.taskDelete_dropped hinv.sched ht (internal_ok.mp hrun).1
    · exact taskRestart_dropped hinv.sched ht hidle hhead (internal_ok.mp hrun).1
  refine ⟨hinv.repaired, fun hrep hw => hd.not_repaired hinv hw hrep, fun hw => ?_⟩
  have hs : KStep op k k' .internal := hd.step hinv.sched hw
  exact (hinv.step hs).repaired

theorem taskDelete_repaired_iff_ready :
    ∃ tr k k', KRun ⟨0, 10⟩ KOp.SparesWaiters (Kernel.boot (fun _ => 0) (fun _ => 0) fun _ => 0)
        tr k ∧ (KOp.taskDelete 1).run ⟨0, 10⟩ k = .ok (k', .internal) ∧ ¬ k.Waiting 1 ∧
      Repaired k' := by
  have h := KRun.replay ⟨0, 10⟩ KOp.SparesWaiters (Kernel.boot (fun _ => 0) (fun _ => 0) fun _ => 0)
    [.taskCreate 2 100 false, .sched (.unblock 2), .taskCreate 1 50 false, .sched (.unblock 1)]
    (by decide +kernel)
  refine ⟨_, _, _, h, rfl, by decide +kernel, ?_⟩
  exact (taskDelete_repaired_iff (t := 1) h (Or.inl rfl) (by decide +kernel) (by decide)
    (by decide +kernel) rfl).2.mpr (by decide +kernel)

/-- **A waiting task is deleted**: the semaphore keeps a count of -1 without a waiter, so that the
next post is lost. **A waiting task is restarted**: the message queue still counts it, and the next
message makes `mq_dosend` panic. -/
theorem taskDelete_leaves_waiter :
    (∃ tr k k' k'', KRun ⟨0, 10⟩ KOp.SparesWaiters
        (Kernel.boot (fun _ => 0) (fun _ => 0) fun _ => 0) tr k ∧
      (KOp.taskDelete 1).run ⟨0, 10⟩ k = .ok (k', .internal) ∧ ¬ Repaired k' ∧
      semPost ⟨0, 10⟩ k' 7 = .ok (k'', none) ∧ k''.semcount 7 = 0) ∧
    ∃ tr k k', KRun ⟨0, 10⟩ KOp.SparesWaiters
        (Kernel.boot (fun _ => 0) (fun _ => 4) fun _ => 8) tr k ∧
      (KOp.taskRestart 1).run ⟨0, 10⟩ k = .ok (k', .internal) ∧ ¬ Repaired k' ∧
      mqWake ⟨0, 10⟩ k' 3 = .error (.panic .mqNonEmptyCount) := by
  constructor
  · refine ⟨_, _, _, _, .replay _ _ _
      [.taskCreate 1 100 false, .sched (.unblock 1), .taskCreate 2 50 false, .sched (.unblock 2),
        .semWait 7] (by decide +kernel), rfl, fun hrep => ?_, rfl, rfl⟩
    have hsem := hrep.sem 7 (by decide +kernel)
    revert hsem
    decide +kernel
  · refine ⟨_, _, _, .replay _ _ _
      [.taskCreate 1 100 false, .sched (.unblock 1), .taskCreate 2 50 false, .sched (.unblock 2),
        .mqReceive ⟨3, true, false, false⟩ 8 .none, .resume] (by decide +kernel), rfl, fun hrep => ?_,
      rfl⟩
    have hmq := hrep.notEmpty 3
    revert hmq
    decide +kernel

/-! ### A restart that fails -/

/-- **A restart that fails leaves the caller locked**: whenever `task_restart` returns `ERROR`
because the task is the idle task, the caller or no task at all, it has counted up the lock of the
caller and changed nothing else, and so it never leaves the state it was called in. -/
theorem taskRestart_failed_lock
    (hfail : t = idle ∨ (k.sched.list .readytorun).head? = some t ∨ t ∉ k.tasks)
    (hrun : taskRestart cfg k t = .ok k') :
    ∃ rtcb, (k.sched.list .readytorun).head? = some rtcb ∧
      k' = { k with sched := k.sched.setLock rtcb (k.sched.lockcount rtcb + 1) } ∧ k' ≠ k := by
  obtain ⟨rtcb, hrtcb, hrest⟩ := bind_ok.mp hrun
  obtain ⟨s, hlock, hrest⟩ := bind_ok.mp hrest
  have hhead := Kernel.rtcb_ok.mp hrtcb
  obtain ⟨l, hl⟩ := List.head?_eq_some_iff.mp hhead
  obtain ⟨-, rfl⟩ := (schedLock_false_ok hl).mp hlock
  rw [hhead, Option.some.injEq, eq_comm (a := rtcb)] at hfail
  rw [if_pos hfail] at hrest
  obtain rfl := Except.ok.inj hrest
  refine ⟨rtcb, hhead, rfl, ?_⟩
  intro heq
  have hcount := congrArg (fun k : Kernel => k.sched.lockcount rtcb) heq
  simp at hcount

/-- The idle task restarts itself: the call returns with the pre-emption lock taken. -/
theorem taskRestart_failed_lock_idle :
    ∃ k', taskRestart ⟨0, 10⟩ (Kernel.boot (fun _ => 0) (fun _ => 0) fun _ => 0) idle = .ok k' ∧
      k' ≠ Kernel.boot (fun _ => 0) (fun _ => 0) fun _ => 0 := by
  obtain ⟨k', hrun⟩ : ∃ k', taskRestart ⟨0, 10⟩
    (Kernel.boot (fun _ => 0) (fun _ => 0) fun _ => 0) idle = .ok k' := ⟨_, rfl⟩
  obtain ⟨-, -, -, hne⟩ := taskRestart_failed_lock (Or.inl rfl) hrun
  exact ⟨k', hrun, hne⟩

/-- The idle task restarts itself after the start: its lock count was 0, and is 1 when the call has
failed. -/
theorem taskRestart_leaks :
    ∃ k k' tr, KRun ⟨0, 10⟩ (fun _ _ => True) (Kernel.boot (fun _ => 0) (fun _ => 0) fun _ => 0)
        tr k ∧ taskRestart ⟨0, 10⟩ k idle = .ok k' ∧ k.sched.lockcount idle = 0 ∧
      k'.sched.lockcount idle = 1 :=
  ⟨_, _, _, .boot, rfl, rfl, rfl⟩

end NuttX
