import NuttX.Mq.Flight

/-!
# Message queues lose no wake-ups

Every step keeps the invariant of credits `NuttX.MqInv`, whatever tasks and interrupt handlers do to
the queues, as long as no task is deleted or restarted. `NuttX.mqRun_noLostWakeups` draws the
conclusion: the counts of messages and of waiters are right, and while a task waits for a message,
there are at most as many messages in the queue as there are receivers that `mq_dosend` has
unblocked and senders that have inserted a message and not yet looked for a receiver; and the same
for free slots.

The senders and receivers in the middle of a call belong into the count. `mq_dosend` inserts its
message in one section with interrupts disabled and looks for a waiter in another one, and
`mq_doreceive` looks for a waiter after `mq_waitreceive` has removed the message:
`NuttX.mqRun_between` is a state in between. When no such call is in flight the count is that of the
unblocked tasks alone.
-/

namespace NuttX

open Function Kernel Waiters List

variable {cfg : SchedConfig} {op : KOp} {k k' : Kernel} {ev : KEvent} {tr : List KEvent}
  {r t w : Tid} {e : MqEvent} {q : MqId} {x : Errno} {pc : Pc} {s : Sched} {msg : Mqmsg}
  {sem : SemId} {d : Mqdes} {a : Abstime} {l : List Mqmsg}

/-! ### Places -/

theorem paidAt_of_busyAt (pc : Pc) {p : MqEvent × MqId} (h : pc.busyAt = some p) :
    paidAt (x, pc) = some p := by
  rw [paidAt]
  cases pc with
  | recvWait _ | sendWait _ _ => cases h
  | _ => split <;> exact h

theorem paidAt_of_idle (hw : pc.waitsAt = none) (hb : pc.busyAt = none) :
    paidAt (x, pc) = none := by
  simp [paidAt, hw, hb]

/-- A place that pays, if at all, for the event `e` at the queue `q`. -/
def PaysOnly (e : MqEvent) (q : MqId) (f : Errno × Pc) : Prop :=
  paidAt f = none ∨ paidAt f = some (e, q)

theorem PaysOnly.toll_le {f : Errno × Pc} (h : PaysOnly e q f) (e' : MqEvent) (q' : MqId) :
    toll e' q' f ≤ if (e, q) = (e', q') then 1 else 0 := by
  rcases h with h | h
  · rw [toll_eq_zero h]
    exact Nat.zero_le _
  · rw [toll_eq, h]
    simp only [Option.some.injEq, le_refl]

/-! ### The scheduler -/

theorem MqInv.quiet (h : MqInv k) (hq : Quiet k.sched s) : MqInv { k with sched := s } :=
  h.calm hq.calm hq.live

section

variable (h : MqInv k) (hr : AtHead k r)

include h hr

theorem MqInv.move (htail : ∀ c, pc ≠ .deleteTail c) (hpay : paidAt (k.pterrno r, k.pc r) = none ∨
      paidAt (k.pterrno r, k.pc r) = paidAt (k.pterrno r, pc)) : MqInv (k.goto r pc) := by
  have hgoto := h.goto_of_paidAt hr htail hpay
  rw [setErrno_self] at hgoto
  exact hgoto

theorem MqInv.quiet_goto (hq : Quiet k.sched s) (htail : ∀ c, pc ≠ .deleteTail c)
    (hpay : paidAt (k.pterrno r, k.pc r) = none ∨
      paidAt (k.pterrno r, k.pc r) = paidAt (k.pterrno r, pc)) :
    MqInv ({ k with sched := s }.goto r pc) :=
  (h.quiet hq).move (hr.calm hq.calm) htail hpay

theorem MqInv.errno (hw : (k.pc r).waitsAt = none) (hb : (k.pc r).busyAt = none) :
    MqInv (k.setErrno r x) := by
  have hgoto : MqInv ((k.setErrno r x).goto r (k.pc r)) := h.goto_of_paidAt hr
    (h.tail r (k.pterrno r, k.pc r) mem_cons_self) (Or.inl (paidAt_of_idle hw hb))
  rw [Kernel.goto, show (k.setErrno r x).pc = k.pc from rfl, update_eq_self] at hgoto
  exact hgoto

theorem MqInv.errno_of_user (hpc : k.pc r = .user) : MqInv (k.setErrno r x) :=
  h.errno hr (by rw [hpc]; rfl) (by rw [hpc]; rfl)

end

theorem MqInv.schedOp {sop : SchedOp} (h : MqInv k) (hinv : SchedInv k.sched)
    (hlegal : (KOp.sched sop).Legal k) (hrun : sop.run cfg k.sched = .ok s) :
    MqInv { k with sched := s } := by
  obtain ⟨r, l, hl⟩ := hinv.exists_head
  cases sop with
  | create irq t priority rr => exact hlegal.elim
  | block st =>
    obtain ⟨-, rfl⟩ := hlegal
    rw [SchedOp.run, hl] at hrun
    have hb := upBlockTask_spec hinv (by rw [hl]; rfl) hrun
    exact h.calm (hb.calm rfl rfl) hb.live
  | unblock t =>
    obtain ⟨hu, hcalm⟩ := upUnblockTask_calm hinv (Or.inl hlegal) hrun
    exact h.calm hcalm hu.live
  | lock irq => exact h.quiet (schedLock_quiet hinv hrun)
  | unlock irq => exact h.quiet (schedUnlock_quiet hinv hrun)
  | timeslice => exact h.quiet (schedProcessTimeslice_spec hinv hrun).1
  | setPriority t priority =>
    obtain ⟨⟨s1, x⟩, hset, hrest⟩ := bind_ok.mp hrun
    obtain rfl := Except.ok.inj hrest
    have hr := (schedSetpriority_spec hinv hlegal.2 hset).1
    have hmem : ∀ L, L.isWait = true → ∀ c, c ∈ s1.list L ↔ c ∈ k.sched.list L := by
      intro L hL c
      rw [hr.list L (TaskList.isBlocked_of_isWait hL)]
      split
      · rename_i hin
        have ht := (hinv.mem_iff t L).mpr hin.1
        exact (Prio.insert_perm.trans (perm_cons_erase ht).symm).mem_iff
      · exact Iff.rfl
    exact h.withSched (fun e => hmem _ e.isWait) (fun c => mt (hr.live c).mpr)
      fun c hc => h.sem c ((hmem _ rfl c).mp hc)

/-! ### Counts and wake-ups -/

theorem Woken.of_unblock (hinv : SchedInv k.sched) (hw : w ∈ k.sched.list e.list)
    (hon : k.msgwaitq w = some q) (hrun : upUnblockTask cfg k.sched w = .ok s) :
    Woken k (({ k with
      sched := s
      msgwaitq := update k.msgwaitq w none }.addWait e q (-1)).setErrno w x) w e q x := by
  have hst := (hinv.mem_iff w _).mp hw
  have hu := upUnblockTask_spec hinv (by rw [TaskState.isBlocked_eq hst]; exact e.isBlocked) hrun
  exact ⟨hw, hon, hu, rfl, rfl, rfl, rfl, rfl, rfl, rfl⟩

theorem Owes.mqUnblock (h : Owes k e q) (hinv : SchedInv k.sched)
    (hrun : mqUnblock cfg k e q = .ok k') : MqInv k' := by
  rw [NuttX.mqUnblock] at hrun
  split at hrun
  · cases hrun
  rename_i w hfirst
  obtain ⟨s, hunblock, hrun⟩ := bind_ok.mp hrun
  cases hrun
  have hwoken := Woken.of_unblock (x := k.pterrno w) hinv (mem_of_first hfirst)
    (on_of_first hfirst) hunblock
  refine h.wake hinv (w := w) ?_
  rw [show k.pterrno w = (({ k with
    sched := s
    msgwaitq := update k.msgwaitq w none }.addWait e q (-1)).pterrno w) from rfl,
    setErrno_self] at hwoken
  exact hwoken

theorem Owes.mqWake (h : Owes k .notEmpty q) (hinv : SchedInv k.sched)
    (hrun : mqWake cfg k q = .ok k') : MqInv k' := by
  rw [NuttX.mqWake] at hrun
  split at hrun
  · exact h.mqUnblock hinv hrun
  · rename_i hnone
    cases hrun
    exact h.settled (Int.not_lt.mp hnone)

theorem Kernel.avail_setMq {n : ℤ} {q' : MqId} :
    ((k.setMq q { k.mq q with msglist := l, nmsgs := n }).mq q').avail e =
      if q' = q then (match e with | .notEmpty => n | .notFull => (k.mq q).maxmsgs - n)
      else (k.mq q').avail e := by
  rcases eq_or_ne q' q with rfl | hq
  · cases e <;> simp [setMq, Msgq.avail]
  · simp [setMq, hq]

theorem Kernel.nwait_setMq {n : ℤ} (q' : MqId) :
    ((k.setMq q { k.mq q with msglist := l, nmsgs := n }).mq q').nwait = (k.mq q').nwait := by
  rcases eq_or_ne q' q with rfl | hq
  · simp [setMq]
  · simp [setMq, hq]

section

variable (h : MqInv k)

include h

theorem MqInv.length_setMq {n : ℤ} (hn : n = l.length) (q' : MqId) :
    ((k.setMq q { k.mq q with msglist := l, nmsgs := n }).mq q').nmsgs =
      ((k.setMq q { k.mq q with msglist := l, nmsgs := n }).mq q').msglist.length := by
  rcases eq_or_ne q' q with rfl | hq
  · simp [setMq, hn]
  · simpa [setMq, hq] using h.length q'

theorem MqInv.length_insert :
    (k.mq q).nmsgs + 1 = (Prio.insert Mqmsg.priority msg (k.mq q).msglist).length := by
  rw [Prio.insert_perm.length_eq, h.length q, length_cons]
  rfl

theorem MqInv.goto_setMq (hr : AtHead k r) {n : ℤ} (hn : n = l.length)
    (htail : ∀ c, pc ≠ .deleteTail c)
    (hpay : ∀ e q',
      (if q' = q then (match e with | .notEmpty => n | .notFull => (k.mq q).maxmsgs - n)
        else (k.mq q').avail e) + toll e q' (k.pterrno r, k.pc r) ≤
      (k.mq q').avail e + toll e q' (k.pterrno r, pc)) :
    MqInv ((k.setMq q { k.mq q with msglist := l, nmsgs := n }).goto r pc) := by
  have hgoto : MqInv (((k.setMq q { k.mq q with msglist := l, nmsgs := n }).setErrno r
      (k.pterrno r)).goto r pc) := by
    refine h.goto hr htail nwait_setMq (h.length_setMq hn) fun e q' _ => ?_
    have havail : ((k.setMq q { k.mq q with msglist := l, nmsgs := n }).mq q').avail e = _ :=
      avail_setMq
    exact (congrArg (· + (toll e q' (k.pterrno r, k.pc r) : ℤ)) havail).trans_le (hpay e q')
  rw [setErrno, show (k.setMq q { k.mq q with msglist := l, nmsgs := n }).pterrno =
    k.pterrno from rfl, update_eq_self] at hgoto
  exact hgoto

theorem mqInsert_mqInv (hr : AtHead k r) (hpc : k.pc r = .sendInsert q msg) :
    MqInv ((mqInsert k q msg).goto r (.sendNotify q)) := by
  refine h.goto_setMq hr h.length_insert (by simp) fun e q' => ?_
  rw [toll_eq, toll_eq, hpc, paidAt_of_busyAt (.sendInsert q msg) rfl,
    paidAt_of_busyAt (.sendNotify q) rfl]
  rcases eq_or_ne q' q with rfl | hq
  · cases e <;> simp [Msgq.avail]
  · simp [hq, hq.symm]

theorem mqSendIrq_mqInv {mail : List UInt8} {prio : ℤ} {alloc : Bool} :
    MqInv (mqSendIrq k d mail prio alloc) := by
  rw [mqSendIrq]
  split
  · exact h
  split
  swap
  · exact h
  refine ⟨⟨h.nodup, h.live, h.sem, h.mq, h.tail⟩, h.length_setMq h.length_insert, fun e q hw => ?_⟩
  have hold := h.credit e q (by rw [← nwait_setMq]; exact hw)
  show ((mqInsert k d.msgq ⟨prio.toNat, mail⟩).mq q).avail e ≤ ((k.inFlight (pays e q) + _ : ℕ) : ℤ)
  rw [mqInsert, avail_setMq]
  rw [credit] at hold
  rcases eq_or_ne q d.msgq with rfl | hq
  · cases e <;> simp [irqBusy, Msgq.avail] at hold ⊢ <;> omega
  · cases e <;> simpa [irqBusy, hq, hq.symm] using hold

theorem mqDoreceive_mqInv (hr : AtHead k r) (hpc : k.pc r = .recvDone q msg) :
    MqInv (mqDoreceive k r q) := by
  have hpaid : paidAt (k.pterrno r, k.pc r) = some (.notFull, q) := by
    rw [hpc]
    exact paidAt_of_busyAt _ rfl
  rw [mqDoreceive]
  split
  · exact h.move hr (by simp) (Or.inr (hpaid.trans (paidAt_of_busyAt _ rfl).symm))
  · rename_i hnone
    exact (h.owes (.unlock 1) hr hpaid (by simp)).settled (Int.not_lt.mp hnone)

theorem MqInv.takeCount : MqInv (k.takeCount r sem) :=
  h.withSched (fun _ _ => Iff.rfl) (fun _ => id) h.sem

end

/-! ### Semaphores -/

section

variable (h : MqInv k) (hinv : SchedInv k.sched)

include h hinv

theorem MqInv.endWait (hw : w ∈ k.sched.list .waitingforsemaphore) (hu : Unblocked k.sched s w) :
    MqInv ({ k with sched := s }.endWait w sem) := by
  refine h.withSched (fun e t => ?_) (fun c => mt (hu.live c).mpr) fun t ht => ?_
  · rw [hu.list_of_notMem e.isBlocked (hinv.toListInv.notMem_of_ne hw e.list_ne_sem)]
  · rw [hu.list _ rfl] at ht
    exact h.sem t (mem_of_mem_erase ht)

section

variable (huser : KOp.AtUser k)

include huser

theorem semTrywait_mqInv (hrun : semTrywait k sem = .ok (k', ev)) :
    MqInv k' ∧ k'.sched = k.sched ∧ k'.pc = k.pc := by
  obtain ⟨r, hr, hrun⟩ := bind_ok.mp hrun
  rw [rtcb_ok] at hr
  have hpc : k.pc r = .user := huser r hr
  have hhead := h.atHead hinv hr
  split at hrun
  · cases hrun
    exact ⟨(h.takeCount).errno_of_user ⟨hhead.mem, hhead.notQueue, hhead.notSem⟩ hpc, rfl, rfl⟩
  · cases hrun
    exact ⟨h.errno_of_user hhead hpc, rfl, rfl⟩

theorem semWait_mqInv (hrun : semWait k sem = .ok (k', ev)) : MqInv k' := by
  obtain ⟨r, hr, hrun⟩ := bind_ok.mp hrun
  rw [rtcb_ok] at hr
  have hpc : k.pc r = .user := huser r hr
  have hhead := h.atHead hinv hr
  split at hrun
  · cases hrun
    exact (h.takeCount).errno_of_user ⟨hhead.mem, hhead.notQueue, hhead.notSem⟩ hpc
  split at hrun
  · cases hrun
  obtain ⟨s, hblock, hrun⟩ := bind_ok.mp hrun
  cases hrun
  have hb := upBlockTask_spec hinv hr hblock
  -- the task is first moved to the place behind the call, and then to the list
  have hgoto : MqInv ((k.setErrno r .ok).goto r (.semWait sem)) :=
    h.goto_of_paidAt hhead (by simp) (Or.inl (by rw [hpc]; exact paidAt_of_idle rfl rfl))
  refine hgoto.withSched (fun e t => ?_) (fun c => mt (hb.live c).mpr) fun t ht => ?_
  · rw [hb.list_of_ne rfl e.isBlocked e.list_ne_sem]
    rfl
  rw [hb.list_eq rfl, Sched.mem_blockList] at ht
  show ∃ i, update k.pc r (.semWait sem) t = .semWait i
  rcases eq_or_ne t r with rfl | htr
  · exact ⟨sem, update_self ..⟩
  · rw [update_of_ne htr]
    exact h.sem t (ht.resolve_left htr)

theorem semTimedwait_mqInv {abstime : Abstime} (hrun : semTimedwait k sem abstime = .ok (k', ev)) :
    MqInv k' := by
  obtain ⟨r, hr, hrun⟩ := bind_ok.mp hrun
  rw [rtcb_ok] at hr
  obtain ⟨⟨k1, ev1⟩, htry, hrun⟩ := bind_ok.mp hrun
  obtain ⟨h1, hsched, hpcs⟩ := semTrywait_mqInv h hinv huser htry
  have hinv1 : SchedInv k1.sched := by rw [hsched]; exact hinv
  have huser1 : KOp.AtUser k1 := by rw [KOp.AtUser, hsched, hpcs]; exact huser
  have hr1 : (k1.sched.list .readytorun).head? = some r := by rw [hsched]; exact hr
  simp only at hrun
  split at hrun
  · cases hrun
    exact h1
  cases abstime with
  | invalid | expired =>
    cases hrun
    exact h1.errno_of_user (h1.atHead hinv1 hr1) (huser1 r hr1)
  | ahead | none => exact semWait_mqInv h1 hinv1 huser1 hrun

end

theorem semPost_mqInv {sel : Option Tid} (hrun : semPost cfg k sem = .ok (k', sel)) : MqInv k' := by
  obtain ⟨-, -, hrun⟩ := bind_ok.mp hrun
  split at hrun
  · cases hrun
    exact h.withSched (fun _ _ => Iff.rfl) (fun _ => id) h.sem
  rename_i w hsome
  obtain ⟨s, hunblock, hrun⟩ := bind_ok.mp hrun
  cases hrun
  have hw : w ∈ k.sched.list .waitingforsemaphore := by
    split at hsome
    · exact mem_of_first hsome
    · cases hsome
  exact h.endWait hinv hw (upUnblockTask_spec hinv
    (by rw [TaskState.isBlocked_eq ((hinv.mem_iff w _).mp hw)]; rfl) hunblock)

theorem semWaitirq_mqInv (hrun : semWaitirq cfg k w x = .ok k') : MqInv k' := by
  rw [semWaitirq] at hrun
  split at hrun
  swap
  · cases hrun
    exact h
  rename_i hst
  split at hrun
  · cases hrun
  obtain ⟨s, hunblock, hrun⟩ := bind_ok.mp hrun
  cases hrun
  have hw : w ∈ k.sched.list .waitingforsemaphore := (hinv.mem_iff w _).mpr (by rw [hst]; rfl)
  have hu := upUnblockTask_spec hinv (by rw [hst]; rfl) hunblock
  obtain ⟨i, hpc⟩ := h.sem w hw
  refine (h.endWait hinv hw hu).errno ⟨h.mem_of_mem hinv hw, fun e => ?_, ?_⟩
    (show (k.pc w).waitsAt = none by rw [hpc]; rfl) (show (k.pc w).busyAt = none by rw [hpc]; rfl)
  · show w ∉ s.list e.list
    rw [hu.list _ e.isBlocked]
    exact (hinv.nodup _).not_mem_erase
  · show w ∉ s.list .waitingforsemaphore
    rw [hu.list _ rfl]
    exact (hinv.nodup _).not_mem_erase

/-! ### Waiting for a message queue -/

theorem mqWaitirq_mqInv (hrun : mqWaitirq cfg k w x = .ok k') : MqInv k' := by
  rw [mqWaitirq] at hrun
  split at hrun
  · cases hrun
    exact h
  rename_i e hst
  rw [MqEvent.ofState_eq] at hst
  split at hrun
  · cases hrun
  rename_i q hon
  obtain ⟨s, hunblock, hrun⟩ := bind_ok.mp hrun
  cases hrun
  have hw : w ∈ k.sched.list e.list := (hinv.mem_iff w _).mpr (by rw [hst]; exact e.state_list)
  exact h.cutShort hinv (Woken.of_unblock hinv hw hon hunblock)

/-! ### Sending and receiving -/

section

variable (hr : (k.sched.list .readytorun).head? = some r)

include hr

theorem mqBlock_mqInv (hpc : pc.waitsAt = some (e, q)) (havail : (k.mq q).avail e ≤ 0)
    (hpaid : PaysOnly e q (k.pterrno r, k.pc r)) (hrun : mqBlock k r e q pc = .ok k') :
    MqInv k' := by
  obtain ⟨s, hblock, hrun⟩ := bind_ok.mp hrun
  cases hrun
  have hb := upBlockTask_spec hinv hr hblock
  refine h.joined (h.atHead hinv hr) ⟨hb, rfl, rfl, rfl, ?_, fun t ht => ?_,
    fun t ht => ?_, rfl, rfl⟩ havail fun e' q' hne => ?_
  · show woken e q (update k.pterrno r .ok r, update k.pc r pc r) = true
    simp [woken, hpc]
  · exact update_of_ne ht _ _
  · exact update_of_ne ht _ _
  · have hle := hpaid.toll_le e' q'
    rw [if_neg (fun heq => hne ⟨(Prod.mk.inj heq).2.symm, (Prod.mk.inj heq).1.symm⟩)] at hle
    exact Nat.le_zero.mp hle

theorem mqWaitsendLoop_mqInv (hpaid : PaysOnly .notFull q (k.pterrno r, k.pc r))
    (hrun : mqWaitsendLoop k r q msg = .ok k') : MqInv k' := by
  rw [mqWaitsendLoop] at hrun
  split at hrun
  · refine mqBlock_mqInv h hinv hr rfl ?_ hpaid hrun
    rw [Msgq.avail]
    omega
  · cases hrun
    refine h.move (h.atHead hinv hr) (by simp) ?_
    rw [paidAt_of_busyAt (.sendAlloc q msg) rfl]
    exact hpaid

theorem mqSendLocked_mqInv (hpaid : paidAt (k.pterrno r, k.pc r) = none)
    (hrun : mqSendLocked k r d msg a = .ok k') : MqInv k' := by
  have hhead := h.atHead hinv hr
  rw [mqSendLocked] at hrun
  split at hrun
  · cases hrun
    exact h.move hhead (by simp) (Or.inl hpaid)
  split at hrun
  · cases hrun
    exact h.goto_of_paidAt hhead (by simp) (Or.inl hpaid)
  rw [mqWaitsend] at hrun
  split at hrun
  · cases hrun
    exact h.goto_of_paidAt hhead (by simp) (Or.inl hpaid)
  · exact mqWaitsendLoop_mqInv h hinv hr (Or.inl hpaid) hrun

theorem mqWaitsendTail_mqInv (hpc : k.pc r = .sendWait q msg)
    (hrun : mqWaitsendTail k r q msg = .ok k') : MqInv k' := by
  rw [mqWaitsendTail] at hrun
  split at hrun
  · rename_i hx
    cases hrun
    refine h.move (h.atHead hinv hr) (by simp) (Or.inl ?_)
    rw [hpc]
    exact paidAt_of_errno hx rfl
  · rename_i hx
    refine mqWaitsendLoop_mqInv h hinv hr (Or.inr ?_) hrun
    rw [hpc, not_ne_iff.mp hx]
    rfl

theorem mqWaitreceive_mqInv {nonblock : Bool} (hpaid : PaysOnly .notEmpty q (k.pterrno r, k.pc r))
    (hnon : nonblock = true → paidAt (k.pterrno r, k.pc r) = none)
    (hrun : mqWaitreceive k r q nonblock = .ok k') : MqInv k' := by
  have hhead := h.atHead hinv hr
  have hlen := h.length
  rw [mqWaitreceive] at hrun
  split at hrun
  · rename_i rcvmsg rest hlist
    cases hrun
    refine h.goto_setMq hhead (by rw [hlen, hlist, length_cons]; omega) (by simp) fun e q' => ?_
    have hle := hpaid.toll_le e q'
    rw [toll_eq (k.pterrno r, .recvDone q rcvmsg), paidAt_of_busyAt (.recvDone q rcvmsg) rfl]
    rcases eq_or_ne q' q with rfl | hq
    · cases e <;> simp [Msgq.avail] at hle ⊢ <;> omega
    · simp [hq, hq.symm] at hle ⊢
      omega
  rename_i hempty
  split at hrun
  · rename_i hnb
    cases hrun
    exact h.goto_of_paidAt hhead (by simp) (Or.inl (hnon hnb))
  · refine mqBlock_mqInv h hinv hr rfl ?_ hpaid hrun
    rw [Msgq.avail, hlen, hempty]
    exact Int.le_refl _

theorem mqReceiveLocked_mqInv (hpaid : paidAt (k.pterrno r, k.pc r) = none)
    (hrun : mqReceiveLocked k r d a = .ok k') : MqInv k' := by
  rw [mqReceiveLocked] at hrun
  split at hrun
  · cases hrun
    exact h.goto_of_paidAt (h.atHead hinv hr) (by simp) (Or.inl hpaid)
  · exact mqWaitreceive_mqInv h hinv hr (Or.inl hpaid) (fun _ => hpaid) hrun

theorem mqWaitreceiveTail_mqInv (hpc : k.pc r = .recvWait q)
    (hrun : mqWaitreceiveTail k r q = .ok k') : MqInv k' := by
  rw [mqWaitreceiveTail] at hrun
  split at hrun
  · rename_i hx
    cases hrun
    refine h.move (h.atHead hinv hr) (by simp) (Or.inl ?_)
    rw [hpc]
    exact paidAt_of_errno hx rfl
  · rename_i hx
    refine mqWaitreceive_mqInv h hinv hr (Or.inr ?_) (fun hnb => by cases hnb) hrun
    rw [hpc, not_ne_iff.mp hx]
    rfl

end

section

variable (huser : KOp.AtUser k)

include huser

theorem mqSend_mqInv {mail : List UInt8} {prio : ℤ} (hrun : mqSend k d mail prio a = .ok k') :
    MqInv k' := by
  obtain ⟨r, hr, hrun⟩ := bind_ok.mp hrun
  rw [rtcb_ok] at hr
  have hpc : k.pc r = .user := huser r hr
  have hhead := h.atHead hinv hr
  split at hrun
  · cases hrun
    exact h.errno_of_user hhead hpc
  split at hrun
  · cases hrun
    exact h.errno_of_user hhead hpc
  obtain ⟨s, hlock, hrun⟩ := bind_ok.mp hrun
  cases hrun
  refine h.quiet_goto hhead (schedLock_quiet hinv hlock) (by simp) (Or.inl ?_)
  rw [hpc]
  exact paidAt_of_idle rfl rfl

theorem mqReceive_mqInv {n : ℕ} (hrun : mqReceive k d n a = .ok k') : MqInv k' := by
  obtain ⟨r, hr, hrun⟩ := bind_ok.mp hrun
  rw [rtcb_ok] at hr
  have hpc : k.pc r = .user := huser r hr
  have hhead := h.atHead hinv hr
  split at hrun
  · cases hrun
    exact h.errno_of_user hhead hpc
  split at hrun
  · cases hrun
    exact h.errno_of_user hhead hpc
  obtain ⟨s, hlock, hrun⟩ := bind_ok.mp hrun
  cases hrun
  refine h.quiet_goto hhead (schedLock_quiet hinv hlock) (by simp) (Or.inl ?_)
  rw [hpc]
  exact paidAt_of_idle rfl rfl

end

theorem resume_mqInv (hrun : resume cfg k = .ok (k', ev)) : MqInv k' := by
  obtain ⟨r, hr, hrun⟩ := bind_ok.mp hrun
  rw [rtcb_ok] at hr
  have hhead := h.atHead hinv hr
  generalize hpc : k.pc r = pc at hrun
  cases pc with
  | user =>
    cases hrun
    exact h
  | semWait _ =>
    cases hrun
    exact h.move hhead (by simp) (Or.inl (by rw [hpc]; exact paidAt_of_idle rfl rfl))
  | sendLocked d msg a =>
    obtain ⟨hstep, rfl⟩ := internal_ok.mp hrun
    exact mqSendLocked_mqInv h hinv hr (by rw [hpc]; exact paidAt_of_idle rfl rfl) hstep
  | sendWait q msg =>
    obtain ⟨hstep, rfl⟩ := internal_ok.mp hrun
    exact mqWaitsendTail_mqInv h hinv hr hpc hstep
  | sendAlloc q msg =>
    obtain ⟨s, hlock, hrun⟩ := bind_ok.mp hrun
    cases hrun
    refine h.quiet_goto hhead (schedLock_quiet hinv hlock) (by simp) (Or.inr ?_)
    rw [hpc, paidAt_of_busyAt (.sendAlloc q msg) rfl, paidAt_of_busyAt (.sendInsert q msg) rfl]
  | sendInsert q msg =>
    cases hrun
    exact mqInsert_mqInv h hhead hpc
  | sendNotify q =>
    obtain ⟨hstep, rfl⟩ := internal_ok.mp hrun
    exact (h.owes (.unlock 2) hhead (by rw [hpc]; exact paidAt_of_busyAt _ rfl) (by simp)).mqWake
      hinv hstep
  | recvLocked d a =>
    obtain ⟨hstep, rfl⟩ := internal_ok.mp hrun
    exact mqReceiveLocked_mqInv h hinv hr (by rw [hpc]; exact paidAt_of_idle rfl rfl) hstep
  | recvWait q =>
    obtain ⟨hstep, rfl⟩ := internal_ok.mp hrun
    exact mqWaitreceiveTail_mqInv h hinv hr hpc hstep
  | recvDone q msg =>
    cases hrun
    exact mqDoreceive_mqInv h hhead hpc
  | recvUnblock q =>
    obtain ⟨hstep, rfl⟩ := internal_ok.mp hrun
    exact (h.owes (.unlock 1) hhead (by rw [hpc]; exact paidAt_of_busyAt _ rfl) (by simp)).mqUnblock
      hinv hstep
  | unlock n =>
    have hpaid : paidAt (k.pterrno r, k.pc r) = none := by
      rw [hpc]
      exact paidAt_of_idle rfl rfl
    cases n with
    | zero =>
      cases hrun
      exact h.move hhead (by simp) (Or.inl hpaid)
    | succ n =>
      obtain ⟨s, hunlock, hrun⟩ := bind_ok.mp hrun
      cases hrun
      exact h.quiet_goto hhead (schedUnlock_quiet hinv hunlock) (by simp) (Or.inl hpaid)
  | deleteTail c => exact absurd hpc (h.tail r (k.pterrno r, k.pc r) mem_cons_self c)

/-! ### Signals and new tasks -/

theorem sigReceived_mqInv {masked waited : Bool}
    (hrun : sigReceived cfg k t masked waited = .ok k') : MqInv k' := by
  rw [sigReceived] at hrun
  split at hrun
  · rename_i hst
    split at hrun
    · cases hrun
      exact h
    · obtain ⟨s, hunblock, hrun⟩ := bind_ok.mp hrun
      cases hrun
      obtain ⟨hu, hcalm⟩ := upUnblockTask_calm hinv (Or.inr hst) hunblock
      exact h.calm hcalm hu.live
  · split at hrun
    · cases hrun
      exact h
    · exact semWaitirq_mqInv h hinv hrun
  · split at hrun
    · cases hrun
      exact h
    · exact mqWaitirq_mqInv h hinv hrun
  · split at hrun
    · cases hrun
      exact h
    · exact mqWaitirq_mqInv h hinv hrun
  · cases hrun
    exact h

end

theorem MqInv.restack (h : MqInv k) (hr : AtHead k r) (hs : Stepped k k' r) (hmq : k'.mq = k.mq)
    (hirq : k'.irqNotify = k.irqNotify)
    (hpay : ∀ e q, (k'.stack r).countP (pays e q) = (k.stack r).countP (pays e q)) : MqInv k' := by
  refine h.stepped hr hs (fun q => by rw [hmq]) (fun q => by rw [hmq]; exact h.length q)
    fun e q _ => ?_
  have hbusy : k'.irqBusy q e = k.irqBusy q e := by
    cases e
    · rw [irqBusy, irqBusy, hirq]
    · rfl
  simp only [hmq, hbusy, hpay e q, Int.le_refl]

theorem countP_user {l : List (Errno × Pc)} :
    ((x, Pc.user) :: l).countP (pays e q) = l.countP (pays e q) :=
  countP_cons_of_neg (by simp [pays, woken, busy, Pc.waitsAt, Pc.busyAt])

section

variable (h : MqInv k) (hinv : SchedInv k.sched)

include h hinv

theorem sigDeliver_mqInv (hrun : sigDeliver k = .ok k') : MqInv k' := by
  obtain ⟨r, hr, hrun⟩ := bind_ok.mp hrun
  rw [rtcb_ok] at hr
  obtain ⟨s, hlock, hrun⟩ := bind_ok.mp hrun
  cases hrun
  have hq := schedLock_quiet hinv hlock
  have hstack : (({ k with
      sched := s
      saved := update k.saved r ((k.pterrno r, k.pc r) :: k.saved r) } : Kernel).goto
        r .user).stack r = (k.pterrno r, .user) :: k.stack r := by
    simp [stack, goto]
  refine (h.quiet hq).restack ((h.atHead hinv hr).calm hq.calm)
    ⟨rfl, rfl, rfl, fun t htr => ?_, fun f hf => ?_⟩ rfl rfl fun e q => ?_
  · simp [stack, goto, update_of_ne htr]
  · rw [hstack] at hf
    rcases mem_cons.mp hf with rfl | hf
    · simp
    · exact h.tail r f hf
  · rw [hstack, countP_user]
    rfl

theorem sigReturn_mqInv (huser : KOp.AtUser k) (hrun : sigReturn k = .ok k') : MqInv k' := by
  obtain ⟨r, hr, hrun⟩ := bind_ok.mp hrun
  rw [rtcb_ok] at hr
  have hpc : k.pc r = .user := huser r hr
  split at hrun
  · cases hrun
    exact h
  rename_i x pc saved hsaved
  obtain ⟨s, hunlock, hrun⟩ := bind_ok.mp hrun
  cases hrun
  have hq := schedUnlock_quiet hinv hunlock
  have hstack : k.stack r = (k.pterrno r, .user) :: (x, pc) :: saved := by
    rw [stack, hpc, hsaved]
  have hstack' : ((({ k with
      sched := s
      saved := update k.saved r saved } : Kernel).setErrno r x).goto r pc).stack r =
        (x, pc) :: saved := by
    simp [stack, goto, setErrno]
  refine (h.quiet hq).restack ((h.atHead hinv hr).calm hq.calm)
    ⟨rfl, rfl, rfl, fun t htr => ?_, fun f hf => ?_⟩ rfl rfl fun e q => ?_
  · simp [stack, goto, setErrno, update_of_ne htr]
  · rw [hstack'] at hf
    exact h.tail r f (by rw [hstack]; exact mem_cons_of_mem _ hf)
  · show _ = (k.stack r).countP _
    rw [hstack', hstack, countP_user]

/-- A new task is in no call. -/
theorem taskCreate_mqInv (hnew : t ∉ k.tasks) (ht : k.sched.state t = .invalid) {priority : ℤ}
    (hp : LegalPriority priority) {rr : Bool} (hrun : taskCreate k t priority rr = .ok k') :
    MqInv k' := by
  obtain ⟨s, hsetup, hrun⟩ := bind_ok.mp hrun
  cases hrun
  have hc := taskSchedsetup_spec hinv ht hp hsetup
  have hne : ∀ L, ∀ c ∈ k.sched.list L, c ≠ t := by
    rintro L c hm rfl
    exact hinv.notMem ht hm
  have hlist : ∀ L, L.isWait = true → s.list L = k.sched.list L := by
    intro L hL
    rw [hc.list L (TaskList.isBlocked_of_isWait hL), if_neg]
    rintro rfl
    cases hL
  set k1 : Kernel := { k with
    sched := s
    tasks := t :: k.tasks
    initPriority := update k.initPriority t (priority % 256).toNat
    waitsem := update k.waitsem t none
    msgwaitq := update k.msgwaitq t none
    saved := update k.saved t [] }.setErrno t .ok |>.goto t .user with hk1
  have hself : k1.stack t = [(.ok, .user)] := by
    simp [hk1, stack, goto, setErrno]
  have hstack : ∀ c, c ≠ t → k1.stack c = k.stack c := by
    intro c hct
    simp [hk1, stack, goto, setErrno, update_of_ne hct]
  have htop : ∀ c, c ≠ t → (k1.pterrno c, k1.pc c) = (k.pterrno c, k.pc c) :=
    fun c hct => (cons.inj (hstack c hct)).1
  have hon : ∀ c, k1.OnQueue c ↔ k.OnQueue c := by
    intro c
    simp only [onQueue_iff]
    exact exists_congr fun e => by rw [show k1.sched.list e.list = _ from hlist _ e.isWait]
  have hnot : ¬ k1.OnQueue t := by
    rw [hon, onQueue_iff]
    rintro ⟨e, hm⟩
    exact hne _ t hm rfl
  refine ⟨⟨h.nodup.cons hnew, fun c hlive => ?_, fun c hm => ?_, fun e q c hm hwait => ?_,
    fun c f hf => ?_⟩, h.length, fun e q hw => ?_⟩
  · by_cases hct : c = t
    · exact hct ▸ mem_cons_self
    · exact mem_cons_of_mem _ (h.live c fun hcon => hlive ((hc.live c).mpr ⟨hct, hcon⟩))
  · rw [show k1.sched.list .waitingforsemaphore = _ from hlist _ rfl] at hm
    rw [(Prod.mk.inj (htop c (hne _ c hm))).2]
    exact h.sem c hm
  · rw [show k1.sched.list e.list = _ from hlist _ e.isWait] at hm
    have hct := hne _ c hm
    have hsame : k1.msgwaitq c = k.msgwaitq c := update_of_ne hct _ _
    rw [htop c hct]
    exact h.mq e q c hm (hsame.symm.trans hwait)
  · by_cases hct : c = t
    · rw [hct, hself, mem_singleton] at hf
      subst hf
      simp
    · rw [hstack c hct] at hf
      exact h.tail c f hf
  · have hflight : k1.inFlight (pays e q) = k.inFlight (pays e q) := by
      have hother : ∀ c ∈ k.tasks, (k1.frames c).countP (pays e q) =
          (k.frames c).countP (pays e q) := by
        intro c hm
        rw [frames_congr (hon c) (hstack c fun hct => hnew (hct ▸ hm))]
      calc k1.inFlight (pays e q)
          = (k1.frames t).countP (pays e q) +
              total (fun c => (k1.frames c).countP (pays e q)) k.tasks := by
            rw [inFlight, show k1.tasks = t :: k.tasks from rfl, total_cons]
        _ = total (fun c => (k1.frames c).countP (pays e q)) k.tasks := by
            rw [frames_of_not hnot, hself, countP_user, countP_nil, Nat.zero_add]
        _ = k.inFlight (pays e q) := total_congr hother
    have hold := h.credit e q hw
    rw [credit] at hold ⊢
    rw [hflight]
    exact hold

end

/-! ### Runs -/

/-- No task is deleted or restarted. -/
def KOp.NoDelete : KOp → Kernel → Prop
  | taskDelete _, _ | taskRestart _, _ => False
  | _, _ => True

instance (k : Kernel) : (op : KOp) → Decidable (op.NoDelete k)
  | .taskDelete _ | .taskRestart _ => inferInstanceAs (Decidable False)
  | .semWait _ | .semTrywait _ | .semTimedwait _ _ | .semPost _ | .mqSend _ _ _ _
  | .mqReceive _ _ _ | .resume | .mqSendIrq _ _ _ _ | .mqWakeIrq _ | .sigReceived _ _ _
  | .sigDeliver | .sigReturn | .semTimeout _ | .mqTimeout _ _ | .sched _ | .taskCreate _ _ _ =>
    inferInstanceAs (Decidable True)

theorem KOp.NoDelete.sparesWaiters (h : op.NoDelete k) : op.SparesWaiters k := by
  cases op with
  | taskDelete t | taskRestart t => exact h.elim
  | _ => trivial

/-- **Every step keeps the message queues in credit.** -/
theorem KOp.mqInv (h : MqInv k) (hinv : SchedInv k.sched) (hlegal : op.Legal k)
    (hno : op.NoDelete k) (hrun : op.run cfg k = .ok (k', ev)) : MqInv k' := by
  cases op with
  | semWait sem => exact semWait_mqInv h hinv hlegal hrun
  | semTrywait sem => exact (semTrywait_mqInv h hinv hlegal hrun).1
  | semTimedwait sem abstime => exact semTimedwait_mqInv h hinv hlegal hrun
  | semPost sem =>
    obtain ⟨⟨k1, sel⟩, hstep, hrun⟩ := bind_ok.mp hrun
    cases hrun
    exact semPost_mqInv h hinv hstep
  | mqSend mqdes mail prio abstime =>
    obtain ⟨hstep, rfl⟩ := internal_ok.mp hrun
    exact mqSend_mqInv h hinv hlegal hstep
  | mqReceive mqdes n abstime =>
    obtain ⟨hstep, rfl⟩ := internal_ok.mp hrun
    exact mqReceive_mqInv h hinv hlegal hstep
  | resume => exact resume_mqInv h hinv hrun
  | mqSendIrq mqdes mail prio alloc =>
    cases hrun
    exact mqSendIrq_mqInv h
  | mqWakeIrq q =>
    obtain ⟨hstep, rfl⟩ := internal_ok.mp hrun
    exact h.owes_irq.mqWake hinv hstep
  | sigReceived t masked waited =>
    obtain ⟨hstep, rfl⟩ := internal_ok.mp hrun
    exact sigReceived_mqInv h hinv hstep
  | sigDeliver =>
    obtain ⟨hstep, rfl⟩ := internal_ok.mp hrun
    exact sigDeliver_mqInv h hinv hstep
  | sigReturn =>
    obtain ⟨hstep, rfl⟩ := internal_ok.mp hrun
    exact sigReturn_mqInv h hinv hlegal hstep
  | semTimeout t =>
    obtain ⟨hstep, rfl⟩ := internal_ok.mp hrun
    rw [NuttX.semTimeout] at hstep
    split at hstep
    · exact semWaitirq_mqInv h hinv hstep
    · cases hstep
      exact h
  | mqTimeout e t =>
    obtain ⟨hstep, rfl⟩ := internal_ok.mp hrun
    rw [NuttX.mqTimeout] at hstep
    split at hstep
    · exact mqWaitirq_mqInv h hinv hstep
    · cases hstep
      exact h
  | sched sop =>
    obtain ⟨s, hstep, hrun⟩ := bind_ok.mp hrun
    cases hrun
    exact h.schedOp hinv hlegal hstep
  | taskCreate t priority rr =>
    obtain ⟨hstep, rfl⟩ := internal_ok.mp hrun
    exact taskCreate_mqInv h hinv hlegal.2.1 hlegal.2.2.1 hlegal.2.2.2 hstep
  | taskDelete t | taskRestart t => exact hno.elim

theorem MqInv.boot {n : SemId → ℕ} {maxmsgs : MqId → ℤ} {maxmsgsize : MqId → ℕ} :
    MqInv (Kernel.boot n maxmsgs maxmsgsize) := by
  refine ⟨⟨nodup_singleton idle, fun t ht => ?_, nofun, fun e => ?_, fun t f hf => ?_⟩,
    fun q => rfl, fun e q hw => ?_⟩
  · show t ∈ [idle]
    rw [mem_singleton]
    by_contra hne
    exact ht (by simp [Kernel.boot, osStart, Sched.state, hne])
  · cases e <;> simp [Kernel.boot, osStart, MqEvent.list]
  · obtain rfl : f = (.ok, .user) := mem_singleton.mp hf
    simp
  · exact absurd hw (Int.lt_irrefl 0)

/-- **In every run the counts of the message queues are right, and while a task waits, what it could
use is paid for.** -/
theorem KRun.mqInv {n : SemId → ℕ} {maxmsgs : MqId → ℤ} {maxmsgsize : MqId → ℕ}
    (h : KRun cfg KOp.NoDelete (Kernel.boot n maxmsgs maxmsgsize) tr k) :
    WaitsInv k.waits ∧ MqInv k := by
  induction h with
  | boot => exact ⟨WaitsInv.boot, MqInv.boot⟩
  | step op _ hlegal hno hrun ih =>
    obtain ⟨hw, hmq⟩ := ih
    exact ⟨hw.step (op.step hw hlegal hno.sparesWaiters hrun),
      KOp.mqInv hmq hw.sched hlegal hno hrun⟩

/-! ### No wake-up is lost -/

theorem Kernel.inFlight_pays :
    k.inFlight (pays e q) = k.inFlight (woken e q) + k.inFlight (busy e q) := by
  have hplace : ∀ f : Errno × Pc, ¬ (woken e q f = true ∧ busy e q f = true) := by
    rintro ⟨x, pc⟩ ⟨hw, hb⟩
    simp only [woken, busy, decide_eq_true_eq] at hw hb
    cases pc <;> simp [Pc.waitsAt, Pc.busyAt] at hw hb
  have hcount : ∀ l : List (Errno × Pc),
      l.countP (pays e q) = l.countP (woken e q) + l.countP (busy e q) := by
    intro l
    induction l with
    | nil => rfl
    | cons f l ih =>
      rw [countP_cons, countP_cons, countP_cons, ih, pays]
      cases hw : woken e q f <;> cases hb : busy e q f <;> simp_all <;> omega
  rw [inFlight, inFlight, inFlight, ← total_add]
  exact total_congr fun t _ => hcount (k.frames t)

/-- What is promised of the message queue `q`. -/
structure NoLostWakeups (k : Kernel) (q : MqId) : Prop where
  nmsgs : (k.mq q).nmsgs = (k.mq q).msglist.length
  nwaitnotempty : (k.mq q).nwaitnotempty =
    Waiters.count k.msgwaitq q (k.sched.list .waitingformqnotempty)
  nwaitnotfull : (k.mq q).nwaitnotfull =
    Waiters.count k.msgwaitq q (k.sched.list .waitingformqnotfull)
  notEmpty : (∃ t ∈ k.sched.list .waitingformqnotempty, k.msgwaitq t = some q) →
    (k.mq q).nmsgs ≤ k.inFlight (woken .notEmpty q) + k.inFlight (busy .notEmpty q) +
      k.irqNotify.count q
  notFull : (∃ t ∈ k.sched.list .waitingformqnotfull, k.msgwaitq t = some q) →
    (k.mq q).maxmsgs - (k.mq q).nmsgs ≤ k.inFlight (woken .notFull q) + k.inFlight (busy .notFull q)

/-- **Message queues lose no wake-ups**, in every run in which no task is deleted or restarted. -/
theorem mqRun_noLostWakeups {n : SemId → ℕ} {maxmsgs : MqId → ℤ} {maxmsgsize : MqId → ℕ}
    (h : KRun cfg KOp.NoDelete (Kernel.boot n maxmsgs maxmsgsize) tr k) (q : MqId) :
    NoLostWakeups k q := by
  obtain ⟨hw, hmq⟩ := h.mqInv
  have hcount : ∀ e, (k.mq q).nwait e = Waiters.count k.msgwaitq q (k.sched.list e.list) :=
    fun e => hw.mq e q
  have hcredit : ∀ e : MqEvent, (∃ t ∈ k.sched.list e.list, k.msgwaitq t = some q) →
      (k.mq q).avail e ≤ k.inFlight (woken e q) + k.inFlight (busy e q) + k.irqBusy q e := by
    rintro e ⟨t, ht, hon⟩
    have hpos := Waiters.count_pos_of_mem ht hon
    have hle := hmq.credit e q (by rw [hcount]; omega)
    rw [Kernel.credit, Kernel.inFlight_pays] at hle
    exact hle
  refine ⟨hmq.length q, hcount .notEmpty, hcount .notFull, hcredit .notEmpty, fun hex => ?_⟩
  have hle := hcredit .notFull hex
  rw [Msgq.avail, Kernel.irqBusy] at hle
  omega

/-- Two tasks wait for a message, and a third one sends a message and wakes the first of them. -/
theorem mqRun_noLostWakeups_wake :
    ∃ tr k, KRun ⟨0, 10⟩ KOp.NoDelete (Kernel.boot (fun _ => 0) (fun _ => 1) fun _ => 8) tr k ∧
      k.sched.list .waitingformqnotempty = [2] ∧ (k.mq 5).nmsgs = 1 ∧ NoLostWakeups k 5 := by
  have h := KRun.replay ⟨0, 10⟩ KOp.NoDelete (Kernel.boot (fun _ => 0) (fun _ => 1) fun _ => 8)
    [.taskCreate 1 100 false, .sched (.unblock 1), .mqReceive ⟨5, true, true, false⟩ 8 .none,
      .resume, .taskCreate 2 90 false, .sched (.unblock 2),
      .mqReceive ⟨5, true, true, false⟩ 8 .none, .resume, .taskCreate 3 80 false,
      .sched (.unblock 3), .mqSend ⟨5, true, true, false⟩ [7] 0 .none, .resume, .resume, .resume,
      .resume] (by decide +kernel)
  exact ⟨_, _, h, rfl, rfl, mqRun_noLostWakeups h 5⟩

/-- A sender has inserted its message and not yet looked for the task that waits for it: there is a
message, a task that waits, and nobody has been unblocked. -/
theorem mqRun_between :
    ∃ tr k, KRun ⟨0, 10⟩ KOp.NoDelete (Kernel.boot (fun _ => 0) (fun _ => 1) fun _ => 8) tr k ∧
      (∃ t ∈ k.sched.list .waitingformqnotempty, k.msgwaitq t = some 5) ∧
      ¬ (k.mq 5).nmsgs ≤ k.inFlight (woken .notEmpty 5) := by
  exact ⟨_, _, .replay _ _ _
    [.taskCreate 1 100 false, .sched (.unblock 1), .mqReceive ⟨5, true, true, false⟩ 8 .none,
      .resume, .taskCreate 2 90 false, .sched (.unblock 2),
      .mqSend ⟨5, true, true, false⟩ [7] 0 .none, .resume, .resume, .resume] (by decide +kernel),
    ⟨1, by decide +kernel, rfl⟩, by decide +kernel⟩

/-- **A task in a list of waiters is at the wait**, and has met no error. -/
theorem mqRun_place {n : SemId → ℕ} {maxmsgs : MqId → ℤ} {maxmsgsize : MqId → ℕ}
    (h : KRun cfg KOp.NoDelete (Kernel.boot n maxmsgs maxmsgsize) tr k)
    (ht : t ∈ k.sched.list e.list) (hq : k.msgwaitq t = some q) :
    k.pterrno t = .ok ∧ (k.pc t).waitsAt = some (e, q) :=
  of_decide_eq_true (h.mqInv.2.mq e q t ht hq)

theorem mqRun_place_receive : ∃ k : Kernel, (k.pc 1).waitsAt = some (.notEmpty, 5) :=
  ⟨_, (mqRun_place (.replay ⟨0, 10⟩ _ (.boot (fun _ => 0) (fun _ => 1) fun _ => 8)
    [.taskCreate 1 100 false, .sched (.unblock 1), .mqReceive ⟨5, true, true, false⟩ 8 .none,
      .resume] (by decide +kernel)) (by decide +kernel) rfl).2⟩

end NuttX
