import NuttX.Kernel.Runs

/-!
# What the steps do to the waiting tasks

Each function of the kernel is sorted into the ways of `NuttX.WaitStep`, and `NuttX.KOp.step` puts
them together, so that an invariant of the waiting tasks has to be looked at once for each way and
not once for each function.
-/

namespace NuttX

open Function Kernel TaskList Waiters

variable {cfg : SchedConfig} {op : KOp} {k k' : Kernel} {v v' : Waits} {ev : KEvent}
  {s s' : Sched} {t c r w : Tid} {sem : SemId} {q : MqId} {e : MqEvent} {l : List Tid}
  {L : TaskList} {mqdes : Mqdes} {msg : Mqmsg}

/-! ### Reading the lists -/

theorem TaskList.isBlocked_of_isWait (h : L.isWait = true) : L.isBlocked = true := by
  cases L <;> first | rfl | cases h

theorem MqEvent.isWait (e : MqEvent) : e.list.isWait = true := by cases e <;> rfl

theorem MqEvent.isBlocked (e : MqEvent) : e.list.isBlocked = true := by cases e <;> rfl

theorem MqEvent.list_ne_sem (e : MqEvent) : e.list ≠ .waitingforsemaphore := by cases e <;> nofun

theorem MqEvent.list_injective {e e' : MqEvent} (h : e.list = e'.list) : e = e' := by
  cases e <;> cases e' <;> first | rfl | cases h

theorem MqEvent.state_list (e : MqEvent) : e.state.list = some e.list := by cases e <;> rfl

theorem MqEvent.ofState_eq {st : TaskState} : MqEvent.ofState st = some e ↔ st = e.state := by
  cases st <;> cases e <;> simp [MqEvent.ofState, MqEvent.state]

theorem Kernel.rtcb_ok : k.rtcb = .ok r ↔ (k.sched.list .readytorun).head? = some r := by
  rw [rtcb]
  cases k.sched.list .readytorun <;> simp

theorem ListInv.notMem_of_ne (h : ListInv s) {L M : TaskList} (ht : t ∈ s.list L) (hne : M ≠ L) :
    t ∉ s.list M := by
  intro hM
  rw [h.mem_iff] at ht hM
  exact hne (Option.some.inj (hM.symm.trans ht))

theorem SchedInv.head_notMem (h : SchedInv s) (hr : (s.list .readytorun).head? = some r)
    (hL : L.isBlocked = true) : r ∉ s.list L :=
  h.toListInv.notMem_of_ne (List.mem_of_mem_head? hr) (ne_readytorun hL)

/-! ### Steps that move no waiting task -/

/-- Nothing changes for the tasks that wait for semaphores and message queues. -/
structure Calm (s s' : Sched) : Prop where
  inv : SchedInv s'
  list : ∀ L, L.isWait = true → s'.list L = s.list L
  prio : ∀ L, L.isWait = true → ∀ c ∈ s.list L, s'.prio c = s.prio c

theorem Calm.refl (h : SchedInv s) : Calm s s := ⟨h, fun _ _ => rfl, fun _ _ _ _ => rfl⟩

theorem Calm.trans {s1 s2 s3 : Sched} (h : Calm s1 s2) (h' : Calm s2 s3) : Calm s1 s3 := by
  refine ⟨h'.inv, fun L hL => (h'.list L hL).trans (h.list L hL), fun L hL c hc => ?_⟩
  rw [h'.prio L hL c (by rw [h.list L hL]; exact hc), h.prio L hL c hc]

theorem Quiet.calm (h : Quiet s s') : Calm s s' :=
  ⟨h.inv, fun L hL => h.blocked L (isBlocked_of_isWait hL), fun _ _ _ _ => by rw [h.prio]⟩

theorem Blocked.calm {st : TaskState} (h : Blocked s s' t st) (hL : st.list = some L)
    (hnot : L.isWait = false) : Calm s s' := by
  refine ⟨h.inv, fun M hM => ?_, fun _ _ _ _ => by rw [h.prio]⟩
  refine h.list_of_ne hL (isBlocked_of_isWait hM) ?_
  rintro rfl
  rw [hnot] at hM
  cases hM

theorem Unblocked.calm (h : Unblocked s s' t) (hnot : ∀ L, L.isWait = true → t ∉ s.list L) :
    Calm s s' :=
  ⟨h.inv, fun L hL => h.list_of_notMem (isBlocked_of_isWait hL) (hnot L hL),
    fun _ _ _ _ => by rw [h.prio]⟩

theorem SchedInv.notMem_of_state (h : SchedInv s) (ht : (s.state t).list ≠ some L) :
    t ∉ s.list L := fun hm => ht ((h.mem_iff t L).mp hm)

/-- A task is unblocked that waits neither for a semaphore nor for a message queue. -/
theorem upUnblockTask_calm {cfg : SchedConfig} (h : SchedInv s)
    (ht : s.state t = .inactive ∨ s.state t = .waitSig) (hrun : upUnblockTask cfg s t = .ok s') :
    Unblocked s s' t ∧ Calm s s' := by
  obtain ⟨L, hL, hb, hnot⟩ :
      ∃ L, (s.state t).list = some L ∧ L.isBlocked = true ∧ L.isWait = false := by
    rcases ht with ht | ht <;> rw [ht]
    exacts [⟨_, rfl, rfl, rfl⟩, ⟨_, rfl, rfl, rfl⟩]
  have hu := upUnblockTask_spec h ((TaskState.isBlocked_eq hL).trans hb) hrun
  refine ⟨hu, hu.calm fun M hM => h.notMem_of_state ?_⟩
  rw [hL]
  rintro ⟨⟩
  rw [hnot] at hM
  cases hM

theorem schedLock_quiet (h : SchedInv s) {irq : Bool} (hrun : schedLock irq s = .ok s') :
    Quiet s s' := by
  obtain ⟨r, l, hl⟩ := h.exists_head
  exact (schedLock_spec h hl hrun).1

theorem schedUnlock_quiet (h : SchedInv s) {irq : Bool} (hrun : schedUnlock irq s = .ok s') :
    Quiet s s' := by
  obtain ⟨r, l, hl⟩ := h.exists_head
  exact (schedUnlock_spec h hl hrun).1

theorem SemKept.of_calm (h : Calm v.sched v'.sched) (hw : v'.waitsem = v.waitsem) :
    SemKept v v' :=
  ⟨h.list _ rfl, h.prio _ rfl, fun _ _ => by rw [hw]⟩

theorem MqKept.of_calm (h : Calm v.sched v'.sched) (hw : v'.msgwaitq = v.msgwaitq)
    (hn : v'.nwait = v.nwait) : MqKept v v' :=
  ⟨fun e => h.list _ e.isWait, fun _ _ _ => by rw [hw], hn⟩

/-- What a step of the kernel does to the scheduler and to the waiting tasks. -/
structure KStep (op : KOp) (k k' : Kernel) (ev : KEvent) : Prop where
  inv : SchedInv k'.sched
  wait : WaitStep op k.waits k'.waits ev

theorem KStep.shift {k1 k2 : Kernel} (h : KStep op k1 k2 ev) (h1 : k.waits = k1.waits)
    (h2 : k'.waits = k2.waits) : KStep op k k' ev := by
  refine ⟨?_, by rw [h1, h2]; exact h.wait⟩
  rw [show k'.sched = k2.sched from congrArg Waits.sched h2]
  exact h.inv

theorem KStep.of_calm (hev : ev.sem = none) (h : Calm k.sched k'.sched)
    (hw : k'.waitsem = k.waitsem) (hc : k'.semcount = k.semcount)
    (hm : k'.msgwaitq = k.msgwaitq) (hn : k'.waits.nwait = k.waits.nwait) : KStep op k k' ev :=
  ⟨h.inv, .keep hev (.of_calm h hw) hc (.of_calm h hm hn)⟩

theorem KStep.of_eq (h : WaitsInv k.waits) (hev : ev.sem = none) (heq : k'.waits = k.waits) :
    KStep op k k' ev := by
  have hs : k'.waits.sched = k.waits.sched := by rw [heq]
  have hc : Calm k.sched k'.sched := by
    rw [show k'.sched = k.sched from hs]
    exact Calm.refl h.sched
  refine .of_calm hev hc ?_ ?_ ?_ (by rw [heq])
  · exact congrArg Waits.waitsem heq
  · exact congrArg Waits.semcount heq
  · exact congrArg Waits.msgwaitq heq

theorem Kernel.nwait_addWait {q' : MqId} {e' : MqEvent} {d : ℤ} :
    ((k.addWait e q d).mq q').nwait e' = (k.mq q').nwait e' + if q' = q ∧ e' = e then d else 0 := by
  rcases eq_or_ne q' q with rfl | hq
  · rcases eq_or_ne e' e with rfl | he
    · simp [addWait, setMq]
    · simp [addWait, setMq, he]
  · simp [addWait, setMq, hq]

theorem Kernel.waits_goto {pc : Pc} : (k.goto t pc).waits = k.waits := rfl

theorem Kernel.waits_setMq {m : Msgq} (hm : m.nwait = (k.mq q).nwait) :
    (k.setMq q m).waits = k.waits := by
  have hmq : (fun q' => ((k.setMq q m).mq q').nwait) = fun q' => (k.mq q').nwait := by
    funext q'
    rcases eq_or_ne q' q with rfl | hq
    · simp [setMq, hm]
    · simp [setMq, hq]
  simp only [waits, hmq]
  rfl

theorem waits_mqInsert : (mqInsert k q msg).waits = k.waits := waits_setMq rfl

theorem waits_mqSendIrq {mail : List UInt8} {prio : ℤ} {alloc : Bool} :
    (mqSendIrq k mqdes mail prio alloc).waits = k.waits := by
  rw [mqSendIrq]
  split
  · rfl
  split
  · show (mqInsert k mqdes.msgq _).waits = _
    exact waits_mqInsert
  · rfl

theorem internal_ok {x : Os Kernel} :
    (do let k ← x; .ok (k, KEvent.internal)) = Except.ok (k', ev) ↔
      x = .ok k' ∧ ev = .internal := by
  rw [bind_ok]
  constructor
  · rintro ⟨k1, hx, heq⟩
    cases heq
    exact ⟨hx, rfl⟩
  · rintro ⟨hx, rfl⟩
    exact ⟨k', hx, rfl⟩

/-! ### Semaphores -/

section

variable (h : WaitsInv k.waits) {abstime : Abstime}

include h

theorem KStep.of_takeCount (hr : (k.sched.list .readytorun).head? = some r)
    (hpos : 0 < k.semcount sem) : KStep op k (k.takeCount r sem) (.took r sem) := by
  refine ⟨h.sched, .take r sem ⟨rfl, fun _ _ => rfl, fun c hc => ?_⟩ hpos rfl
    (.of_calm (Calm.refl h.sched) rfl rfl)⟩
  refine update_of_ne ?_ _ _
  rintro rfl
  exact h.sched.head_notMem hr rfl hc

theorem semTrywait_step (hrun : semTrywait k sem = .ok (k', ev)) : KStep op k k' ev := by
  obtain ⟨r, hr, hrun⟩ := bind_ok.mp hrun
  rw [rtcb_ok] at hr
  split at hrun
  · rename_i hpos
    cases hrun
    exact (KStep.of_takeCount h hr hpos).shift rfl rfl
  · cases hrun
    exact .of_eq h rfl rfl

theorem semWait_step (hrun : semWait k sem = .ok (k', ev)) : KStep op k k' ev := by
  obtain ⟨r, hr, hrun⟩ := bind_ok.mp hrun
  rw [rtcb_ok] at hr
  split at hrun
  · rename_i hpos
    cases hrun
    exact (KStep.of_takeCount h hr hpos).shift rfl rfl
  rename_i hpos
  split at hrun
  · cases hrun
  obtain ⟨s, hblock, hrun⟩ := bind_ok.mp hrun
  cases hrun
  have hb := upBlockTask_spec h.sched hr hblock
  exact ⟨hb.inv, .join r sem ⟨h.sched.head_notMem hr rfl, hb.list_eq rfl, hb.prio, rfl,
    Int.not_lt.mp hpos, rfl⟩ ⟨fun e => hb.list_of_ne rfl e.isBlocked e.list_ne_sem,
      fun _ _ _ => rfl, rfl⟩⟩

theorem semTimedwait_step (hrun : semTimedwait k sem abstime = .ok (k', ev)) :
    KStep op k k' ev := by
  obtain ⟨r, hr, hrun⟩ := bind_ok.mp hrun
  obtain ⟨⟨k1, ev1⟩, htry, hrun⟩ := bind_ok.mp hrun
  simp only at hrun
  split at hrun
  · cases hrun
    exact semTrywait_step h htry
  -- the semaphore was not available, so that `sem_trywait` has only set the error number
  rename_i hev
  obtain rfl : k1 = k.setErrno r .eagain := by
    rw [semTrywait, hr, ok_bind] at htry
    split at htry
    · cases htry
      exact absurd (by simp) hev
    · exact (Prod.mk.inj (Except.ok.inj htry)).1.symm
  cases abstime with
  | invalid | expired =>
    cases hrun
    exact .of_eq h rfl rfl
  | ahead | none =>
    exact (semWait_step (k := k.setErrno r .eagain) h hrun).shift rfl rfl

theorem SemLeft.of_unblock (hw : w ∈ k.sched.list .waitingforsemaphore)
    (hon : k.waitsem w = some sem) (hrun : upUnblockTask cfg k.sched w = .ok s) :
    SchedInv s ∧ SemLeft k.waits ({ k with sched := s }.endWait w sem).waits w sem ∧
      MqKept k.waits ({ k with sched := s }.endWait w sem).waits := by
  have hst := (h.sched.mem_iff w _).mp hw
  have hu := upUnblockTask_spec h.sched (by rw [TaskState.isBlocked_eq hst]; rfl) hrun
  refine ⟨hu.inv, ⟨hw, hon, hu.list _ rfl, hu.prio, rfl, rfl⟩, fun e => ?_, fun _ _ _ => rfl, rfl⟩
  exact hu.list_of_notMem e.isBlocked (h.sched.toListInv.notMem_of_ne hw e.list_ne_sem)

theorem semPost_step {sel : Option Tid} (hrun : semPost cfg k sem = .ok (k', sel)) :
    KStep op k k' (.posted sem sel) := by
  obtain ⟨-, -, hrun⟩ := bind_ok.mp hrun
  split at hrun
  · rename_i hnone
    cases hrun
    refine ⟨h.sched, .post sem ⟨rfl, fun _ _ => rfl, fun _ _ => rfl⟩ ?_ rfl
      (.of_calm (Calm.refl h.sched) rfl rfl)⟩
    -- a negative count has a waiter
    have hcount : (count k.waitsem sem (k.sched.list .waitingforsemaphore) : ℤ) =
      max (-(k.semcount sem)) 0 := h.sem sem
    by_contra hneg
    have hneg' : ¬ 0 ≤ k.semcount sem := hneg
    obtain ⟨a, ha⟩ := exists_first (show 0 < count k.waitsem sem
      (k.sched.list .waitingforsemaphore) by omega)
    rw [if_pos (by omega), ha] at hnone
    cases hnone
  · rename_i w hsome
    obtain ⟨s, hunblock, hrun⟩ := bind_ok.mp hrun
    cases hrun
    have hfirst : first k.waitsem sem (k.sched.list .waitingforsemaphore) = some w := by
      split at hsome
      · exact hsome
      · cases hsome
    obtain ⟨hinv, hleft, hmq⟩ := SemLeft.of_unblock h (mem_of_first hfirst)
      (on_of_first hfirst) hunblock
    exact ⟨hinv, .wake sem w hfirst hleft hmq⟩

theorem semWaitirq_step {x : Errno} (hrun : semWaitirq cfg k w x = .ok k') :
    KStep op k k' .internal := by
  rw [semWaitirq] at hrun
  split at hrun
  swap
  · cases hrun
    exact .of_eq h rfl rfl
  rename_i hst
  split at hrun
  · cases hrun
  rename_i sem hon
  obtain ⟨s, hunblock, hrun⟩ := bind_ok.mp hrun
  cases hrun
  have hw : w ∈ k.sched.list .waitingforsemaphore := (h.sched.mem_iff w _).mpr (by
    show (k.sched.state w).list = _
    rw [hst]
    rfl)
  obtain ⟨hinv, hleft, hmq⟩ := SemLeft.of_unblock h hw hon hunblock
  exact ⟨hinv, .cancel sem w hleft hmq⟩

theorem semTimeout_step (hrun : semTimeout cfg k t = .ok k') : KStep op k k' .internal := by
  rw [semTimeout] at hrun
  split at hrun
  · exact semWaitirq_step h hrun
  · cases hrun
    exact .of_eq h rfl rfl

/-! ### Message queues -/

theorem mqBlock_step (hr : (k.sched.list .readytorun).head? = some r) {pc : Pc}
    (hrun : mqBlock k r e q pc = .ok k') : KStep op k k' .internal := by
  obtain ⟨s, hblock, hrun⟩ := bind_ok.mp hrun
  cases hrun
  have hb := upBlockTask_spec h.sched hr hblock
  have hlist : s.list e.list = Prio.insert k.sched.prio r (k.sched.list e.list) := by
    rw [hb.list_eq e.state_list, Sched.blockList, if_pos (by cases e <;> rfl)]
    rfl
  refine ⟨hb.inv, .mqJoin r e q ⟨hb.list_of_ne e.state_list rfl e.list_ne_sem.symm,
    fun c _ => congrFun hb.prio c, fun _ _ => rfl⟩ rfl
    ⟨fun e' => h.sched.head_notMem hr e'.isBlocked, ?_, fun e' he' => ?_, rfl,
      fun q' e' => nwait_addWait⟩⟩
  · show (s.list e.list).Perm _
    rw [hlist]
    exact Prio.insert_perm
  · exact hb.list_of_ne e.state_list e'.isBlocked fun hl => he' (MqEvent.list_injective hl)

theorem KStep.of_mqLeft (hw : w ∈ k.sched.list e.list) (hon : k.msgwaitq w = some q)
    (hrun : upUnblockTask cfg k.sched w = .ok s) :
    KStep op k ({ k with
      sched := s
      msgwaitq := update k.msgwaitq w none }.addWait e q (-1)) .internal := by
  have hst := (h.sched.mem_iff w _).mp hw
  have hu := upUnblockTask_spec h.sched (by rw [TaskState.isBlocked_eq hst]; exact e.isBlocked) hrun
  refine ⟨hu.inv, .mqLeave w e q ⟨hu.list_of_notMem rfl ?_, fun c _ => congrFun hu.prio c,
    fun _ _ => rfl⟩ rfl ⟨hw, hon, fun e' => hu.list _ e'.isBlocked, rfl, fun _ _ => nwait_addWait⟩⟩
  exact h.sched.toListInv.notMem_of_ne hw e.list_ne_sem.symm

theorem mqUnblock_step (hrun : mqUnblock cfg k e q = .ok k') : KStep op k k' .internal := by
  rw [mqUnblock] at hrun
  split at hrun
  · cases hrun
  rename_i w hfirst
  obtain ⟨s, hunblock, hrun⟩ := bind_ok.mp hrun
  cases hrun
  exact KStep.of_mqLeft h (mem_of_first hfirst) (on_of_first hfirst) hunblock

theorem mqWaitirq_step {x : Errno} (hrun : mqWaitirq cfg k w x = .ok k') :
    KStep op k k' .internal := by
  rw [mqWaitirq] at hrun
  split at hrun
  · cases hrun
    exact .of_eq h rfl rfl
  rename_i e hst
  rw [MqEvent.ofState_eq] at hst
  split at hrun
  · cases hrun
  rename_i q hon
  obtain ⟨s, hunblock, hrun⟩ := bind_ok.mp hrun
  cases hrun
  have hw : w ∈ k.sched.list e.list := (h.sched.mem_iff w _).mpr (by
    show (k.sched.state w).list = _
    rw [hst]
    exact e.state_list)
  exact (KStep.of_mqLeft h hw hon hunblock).shift rfl rfl

theorem mqTimeout_step (hrun : mqTimeout cfg k e t = .ok k') : KStep op k k' .internal := by
  rw [mqTimeout] at hrun
  split at hrun
  · exact mqWaitirq_step h hrun
  · cases hrun
    exact .of_eq h rfl rfl

theorem mqWake_step (hrun : mqWake cfg k q = .ok k') : KStep op k k' .internal := by
  rw [mqWake] at hrun
  split at hrun
  · exact mqUnblock_step h hrun
  · cases hrun
    exact .of_eq h rfl rfl

section

variable (hr : (k.sched.list .readytorun).head? = some r)

include hr

theorem mqWaitsendLoop_step (hrun : mqWaitsendLoop k r q msg = .ok k') :
    KStep op k k' .internal := by
  rw [mqWaitsendLoop] at hrun
  split at hrun
  · exact mqBlock_step h hr hrun
  · cases hrun
    exact .of_eq h rfl rfl

theorem mqSendLocked_step (hrun : mqSendLocked k r mqdes msg abstime = .ok k') :
    KStep op k k' .internal := by
  rw [mqSendLocked] at hrun
  split at hrun
  · cases hrun
    exact .of_eq h rfl rfl
  split at hrun
  · cases hrun
    exact .of_eq h rfl rfl
  rw [mqWaitsend] at hrun
  split at hrun
  · cases hrun
    exact .of_eq h rfl rfl
  · exact mqWaitsendLoop_step h hr hrun

theorem mqWaitsendTail_step (hrun : mqWaitsendTail k r q msg = .ok k') :
    KStep op k k' .internal := by
  rw [mqWaitsendTail] at hrun
  split at hrun
  · cases hrun
    exact .of_eq h rfl rfl
  · exact mqWaitsendLoop_step h hr hrun

theorem mqWaitreceive_step {nonblock : Bool} (hrun : mqWaitreceive k r q nonblock = .ok k') :
    KStep op k k' .internal := by
  rw [mqWaitreceive] at hrun
  split at hrun
  · cases hrun
    refine .of_eq h rfl ?_
    rw [waits_goto]
    exact waits_setMq rfl
  split at hrun
  · cases hrun
    exact .of_eq h rfl rfl
  · exact mqBlock_step h hr hrun

theorem mqWaitreceiveTail_step (hrun : mqWaitreceiveTail k r q = .ok k') :
    KStep op k k' .internal := by
  rw [mqWaitreceiveTail] at hrun
  split at hrun
  · cases hrun
    exact .of_eq h rfl rfl
  · exact mqWaitreceive_step h hr hrun

theorem mqReceiveLocked_step (hrun : mqReceiveLocked k r mqdes abstime = .ok k') :
    KStep op k k' .internal := by
  rw [mqReceiveLocked] at hrun
  split at hrun
  · cases hrun
    exact .of_eq h rfl rfl
  · exact mqWaitreceive_step h hr hrun

end

theorem mqSend_step {mail : List UInt8} {prio : ℤ}
    (hrun : mqSend k mqdes mail prio abstime = .ok k') : KStep op k k' .internal := by
  obtain ⟨r, hr, hrun⟩ := bind_ok.mp hrun
  split at hrun
  · cases hrun
    exact .of_eq h rfl rfl
  split at hrun
  · cases hrun
    exact .of_eq h rfl rfl
  obtain ⟨s, hlock, hrun⟩ := bind_ok.mp hrun
  cases hrun
  exact .of_calm rfl (schedLock_quiet h.sched hlock).calm rfl rfl rfl rfl

theorem mqReceive_step {n : ℕ} (hrun : mqReceive k mqdes n abstime = .ok k') :
    KStep op k k' .internal := by
  obtain ⟨r, hr, hrun⟩ := bind_ok.mp hrun
  split at hrun
  · cases hrun
    exact .of_eq h rfl rfl
  split at hrun
  · cases hrun
    exact .of_eq h rfl rfl
  obtain ⟨s, hlock, hrun⟩ := bind_ok.mp hrun
  cases hrun
  exact .of_calm rfl (schedLock_quiet h.sched hlock).calm rfl rfl rfl rfl

theorem resume_step (hrun : resume cfg k = .ok (k', ev)) : KStep op k k' ev := by
  obtain ⟨r, hr, hrun⟩ := bind_ok.mp hrun
  rw [rtcb_ok] at hr
  generalize hpc : k.pc r = pc at hrun
  cases pc with
  | user | semWait _ | deleteTail _ =>
    cases hrun
    exact .of_eq h rfl rfl
  | sendLocked mqdes msg abstime =>
    obtain ⟨hstep, rfl⟩ := internal_ok.mp hrun
    exact mqSendLocked_step h hr hstep
  | sendWait q msg =>
    obtain ⟨hstep, rfl⟩ := internal_ok.mp hrun
    exact mqWaitsendTail_step h hr hstep
  | sendAlloc q msg =>
    obtain ⟨s, hlock, hrun⟩ := bind_ok.mp hrun
    cases hrun
    exact .of_calm rfl (schedLock_quiet h.sched hlock).calm rfl rfl rfl rfl
  | sendInsert q msg =>
    cases hrun
    exact .of_eq h rfl (by rw [waits_goto, waits_mqInsert])
  | sendNotify q =>
    obtain ⟨hstep, rfl⟩ := internal_ok.mp hrun
    exact (mqWake_step (k := k.goto r (.unlock 2)) h hstep).shift rfl rfl
  | recvLocked mqdes abstime =>
    obtain ⟨hstep, rfl⟩ := internal_ok.mp hrun
    exact mqReceiveLocked_step h hr hstep
  | recvWait q =>
    obtain ⟨hstep, rfl⟩ := internal_ok.mp hrun
    exact mqWaitreceiveTail_step h hr hstep
  | recvDone q msg =>
    cases hrun
    refine .of_eq h rfl ?_
    rw [mqDoreceive]
    split <;> rfl
  | recvUnblock q =>
    obtain ⟨hstep, rfl⟩ := internal_ok.mp hrun
    exact (mqUnblock_step (k := k.goto r (.unlock 1)) h hstep).shift rfl rfl
  | unlock n =>
    cases n with
    | zero =>
      cases hrun
      exact .of_eq h rfl rfl
    | succ n =>
      obtain ⟨s, hunlock, hrun⟩ := bind_ok.mp hrun
      cases hrun
      exact .of_calm rfl (schedUnlock_quiet h.sched hunlock).calm rfl rfl rfl rfl

/-! ### Signals -/

theorem sigReceived_step {masked waited : Bool}
    (hrun : sigReceived cfg k t masked waited = .ok k') : KStep op k k' .internal := by
  rw [sigReceived] at hrun
  split at hrun
  · rename_i hst
    split at hrun
    · cases hrun
      exact .of_eq h rfl rfl
    · obtain ⟨s, hunblock, hrun⟩ := bind_ok.mp hrun
      cases hrun
      exact .of_calm rfl (upUnblockTask_calm h.sched (Or.inr hst) hunblock).2 rfl rfl rfl rfl
  · split at hrun
    · cases hrun
      exact .of_eq h rfl rfl
    · exact semWaitirq_step h hrun
  · split at hrun
    · cases hrun
      exact .of_eq h rfl rfl
    · exact mqWaitirq_step h hrun
  · split at hrun
    · cases hrun
      exact .of_eq h rfl rfl
    · exact mqWaitirq_step h hrun
  · cases hrun
    exact .of_eq h rfl rfl

theorem sigDeliver_step (hrun : sigDeliver k = .ok k') : KStep op k k' .internal := by
  obtain ⟨r, hr, hrun⟩ := bind_ok.mp hrun
  obtain ⟨s, hlock, hrun⟩ := bind_ok.mp hrun
  cases hrun
  exact .of_calm rfl (schedLock_quiet h.sched hlock).calm rfl rfl rfl rfl

theorem sigReturn_step (hrun : sigReturn k = .ok k') : KStep op k k' .internal := by
  obtain ⟨r, hr, hrun⟩ := bind_ok.mp hrun
  split at hrun
  · cases hrun
    exact .of_eq h rfl rfl
  · obtain ⟨s, hunlock, hrun⟩ := bind_ok.mp hrun
    cases hrun
    exact .of_calm rfl (schedUnlock_quiet h.sched hunlock).calm rfl rfl rfl rfl

end

/-! ### Tasks -/

theorem Kernel.waiting_iff :
    k.Waiting t ↔ ∃ L, (k.sched.state t).list = some L ∧ L.isWait = true := by
  rw [Waiting]
  cases k.sched.state t <;> simp [TaskState.list, isWait]

/-- The operations of the scheduler, without those that the other steps make. -/
theorem SchedOp.step {sop : SchedOp} (h : WaitsInv k.waits) (hlegal : (KOp.sched sop).Legal k)
    (hrun : sop.run cfg k.sched = .ok s) :
    KStep (.sched sop) k { k with sched := s } .internal := by
  obtain ⟨r, l, hl⟩ := h.sched.exists_head
  cases sop with
  | create irq t priority rr => exact hlegal.elim
  | block st =>
    obtain ⟨-, rfl⟩ := hlegal
    rw [SchedOp.run, show k.sched.list .readytorun = r :: l from hl] at hrun
    have hb := upBlockTask_spec h.sched (by rw [hl]; rfl) hrun
    exact .of_calm rfl (hb.calm rfl rfl) rfl rfl rfl rfl
  | unblock t =>
    exact .of_calm rfl (upUnblockTask_calm h.sched (Or.inl hlegal) hrun).2 rfl rfl rfl rfl
  | lock irq => exact .of_calm rfl (schedLock_quiet h.sched hrun).calm rfl rfl rfl rfl
  | unlock irq => exact .of_calm rfl (schedUnlock_quiet h.sched hrun).calm rfl rfl rfl rfl
  | timeslice => exact .of_calm rfl (schedProcessTimeslice_spec h.sched hrun).1.calm rfl rfl rfl rfl
  | setPriority t priority =>
    obtain ⟨⟨s1, x⟩, hset, hrest⟩ := bind_ok.mp hrun
    obtain rfl := Except.ok.inj hrest
    have hr := (schedSetpriority_spec h.sched hlegal.2 hset).1
    refine ⟨hr.inv, .reorder t priority rfl (fun L hL => ?_) rfl rfl rfl rfl⟩
    show (s1.list L).Perm _
    rw [hr.list L (isBlocked_of_isWait hL)]
    split
    · rename_i hmem
      have ht := (h.sched.mem_iff t L).mpr hmem.1
      exact Prio.insert_perm.trans (List.perm_cons_erase ht).symm
    · exact List.Perm.refl _

theorem taskCreate_step (h : WaitsInv k.waits) (ht : k.sched.state t = .invalid) {priority : ℤ}
    (hp : LegalPriority priority) {rr : Bool} (hrun : taskCreate k t priority rr = .ok k') :
    KStep op k k' .internal := by
  obtain ⟨s, hsetup, hrun⟩ := bind_ok.mp hrun
  cases hrun
  have hc := taskSchedsetup_spec h.sched ht hp hsetup
  have hne : ∀ L, ∀ c ∈ k.sched.list L, c ≠ t := by
    rintro L c hm rfl
    exact h.sched.notMem ht hm
  have hlist : ∀ L, L.isWait = true → s.list L = k.sched.list L := by
    intro L hL
    rw [hc.list L (isBlocked_of_isWait hL), if_neg]
    · rfl
    · rintro rfl
      cases hL
  refine ⟨hc.inv, .keep rfl ⟨hlist _ rfl, fun c hm => ?_, fun c hm => ?_⟩ rfl
    ⟨fun e => hlist _ e.isWait, fun e c hm => ?_, rfl⟩⟩
  · show s.prio c = _
    rw [hc.prio, update_of_ne (hne _ c hm)]
  · exact update_of_ne (hne _ c hm) _ _
  · exact update_of_ne (hne _ c hm) _ _

/-- The task `t` is taken out of the list it waits in, if it waits. -/
structure Dropped (s s' : Sched) (t : Tid) : Prop where
  inv : SchedInv s'
  list : ∀ L, L.isWait = true → s'.list L = (s.list L).erase t
  prio : ∀ c, c ≠ t → s'.prio c = s.prio c

theorem Dropped.calm (h : Dropped s s' t) (ht : ∀ L, L.isWait = true → t ∉ s.list L) :
    Calm s s' := by
  refine ⟨h.inv, fun L hL => ?_, fun L hL c hc => h.prio c ?_⟩
  · rw [h.list L hL, List.erase_of_not_mem (ht L hL)]
  · rintro rfl
    exact ht L hL hc

theorem Dropped.locked {s1 s2 : Sched} (h : SchedInv s) (hlock : schedLock false s = .ok s1)
    (hd : SchedInv s1 → s1.state = s.state → Dropped s1 s2 t)
    (hunlock : schedUnlock false s2 = .ok s') : Dropped s s' t := by
  obtain ⟨r, l, hl⟩ := h.exists_head
  obtain ⟨hq, hlist, hst, -⟩ := schedLock_spec h hl hlock
  obtain ⟨hinv, hlist2, hprio2⟩ := hd hq.inv hst
  obtain ⟨r2, l2, hl2⟩ := hinv.exists_head
  have hq' := (schedUnlock_spec hinv hl2 hunlock).1
  refine ⟨hq'.inv, fun L hL => ?_, fun c hc => ?_⟩
  · rw [hq'.blocked L (isBlocked_of_isWait hL), hlist2 L hL, hlist]
  · rw [hq'.prio, hprio2 c hc, hq.prio]

theorem SchedInv.dropped (h : SchedInv s) (hL : (s.state t).list = some L)
    (hrun : s.state t ≠ .running) : Dropped s ((s.dqRem t L).setState t .invalid) t := by
  refine ⟨h.remove hL hrun, fun M hM => ?_, fun c hc => by simp⟩
  rw [Sched.list_setState, Sched.list_dqRem]
  rcases eq_or_ne M L with rfl | hML
  · rw [update_self]
  · rw [update_of_ne hML, List.erase_of_not_mem]
    exact h.toListInv.notMem_of_ne ((h.mem_iff t L).mpr hL) hML

theorem taskDeleteLists_dropped (h : SchedInv s) (hrun : taskDeleteLists s t = .ok s') :
    Dropped s s' t := by
  obtain ⟨s1, hlock, hrun⟩ := bind_ok.mp hrun
  split at hrun
  · cases hrun
  rename_i hnr
  split at hrun
  · cases hrun
  rename_i L hL
  exact Dropped.locked h hlock (fun hinv _ => hinv.dropped hL hnr) hrun

/-- A task that does not run is restarted. -/
theorem taskRestartLists_dropped (h : SchedInv s) {p : ℕ} (hrun : s.state t ≠ .running)
    (hstart : taskRestartLists cfg s t p = .ok s') : Dropped s s' t := by
  rw [taskRestartLists] at hstart
  split at hstart
  · cases hstart
  rename_i L hL
  have hd := h.dropped hL hrun
  have hst : (((s.dqRem t L).setState t .invalid).setPrio t p).state t = .invalid := by simp
  have hnot : ∀ M, t ∉ ((s.dqRem t L).setState t .invalid).list M :=
    fun M => hd.inv.notMem (by simp)
  have h2 : SchedInv (((s.dqRem t L).setState t .invalid).setPrio t p) :=
    ⟨hd.inv.setPrio fun M _ => hnot M, hd.inv.toHeadInv.of_eq rfl Sched.state_setPrio,
      by simpa using hd.inv.locked⟩
  have hu := upUnblockTask_spec (h2.addInactive hst)
    (by simp [Sched.addInactive, TaskState.isBlocked]) hstart
  have hlist : ∀ M, M.isWait = true →
      ((((s.dqRem t L).setState t .invalid).setPrio t p).addInactive t).list M =
        ((s.dqRem t L).setState t .invalid).list M := by
    intro M hM
    have hne : M ≠ .inactivetasks := by
      rintro rfl
      cases hM
    simp [Sched.addInactive, update_of_ne hne]
  refine ⟨hu.inv, fun M hM => ?_, fun c hc => ?_⟩
  · rw [← hd.list M hM, ← hlist M hM]
    refine hu.list_of_notMem (isBlocked_of_isWait hM) ?_
    rw [hlist M hM]
    exact hnot M
  · rw [hu.prio]
    simp [Sched.addInactive, update_of_ne hc]

/-- The task `t` is taken out of the list it waits in, and nothing else is done about it. -/
structure KDropped (k k' : Kernel) (t : Tid) : Prop where
  sched : Dropped k.sched k'.sched t
  waitsem : k'.waitsem = k.waitsem
  semcount : k'.semcount = k.semcount
  msgwaitq : k'.msgwaitq = k.msgwaitq
  mq : k'.mq = k.mq

theorem KDropped.step (h : KDropped k k' t) (hinv : SchedInv k.sched) (hw : ¬ k.Waiting t) :
    KStep op k k' .internal := by
  refine .of_calm rfl (h.sched.calm fun L hL hm => hw ?_) h.waitsem h.semcount h.msgwaitq ?_
  · exact waiting_iff.mpr ⟨L, (hinv.mem_iff t L).mp hm, hL⟩
  · funext q
    show (k'.mq q).nwait = _
    rw [h.mq]
    rfl

theorem Kernel.taskDelete_dropped (h : SchedInv k.sched) (ht : t ∈ k.tasks)
    (hrun : k.taskDelete t = .ok k') : KDropped k k' t := by
  obtain ⟨r, hr, hrun⟩ := bind_ok.mp hrun
  split at hrun
  · cases hrun
  obtain ⟨s, hdel, hrun⟩ := bind_ok.mp hrun
  cases hrun
  exact ⟨taskDeleteLists_dropped h hdel, rfl, rfl, rfl, rfl⟩

theorem Kernel.taskDelete_step (h : WaitsInv k.waits) (hw : ¬ k.Waiting t)
    (hrun : k.taskDelete t = .ok k') : KStep op k k' .internal := by
  by_cases ht : t ∈ k.tasks
  · exact (k.taskDelete_dropped h.sched ht hrun).step h.sched hw
  obtain ⟨r, hr, hrun⟩ := bind_ok.mp hrun
  split at hrun
  · cases hrun
  obtain ⟨s1, hlock, hrun⟩ := bind_ok.mp hrun
  obtain ⟨s2, hunlock, hrun⟩ := bind_ok.mp hrun
  cases hrun
  have hc := (schedLock_quiet h.sched hlock).calm
  exact .of_calm rfl (hc.trans (schedUnlock_quiet hc.inv hunlock).calm) rfl rfl rfl rfl

theorem taskRestart_dropped (h : SchedInv k.sched) (ht : t ∈ k.tasks) (hidle : t ≠ idle)
    (hhead : (k.sched.list .readytorun).head? ≠ some t) (hrun : taskRestart cfg k t = .ok k') :
    KDropped k k' t := by
  obtain ⟨r, hr, hrun⟩ := bind_ok.mp hrun
  obtain ⟨s1, hlock, hrun⟩ := bind_ok.mp hrun
  rw [rtcb_ok] at hr
  rw [if_neg (by
    rintro (hcon | rfl | hcon)
    · exact hidle hcon
    · exact hhead hr
    · exact hcon ht)] at hrun
  obtain ⟨s2, hlists, hrun⟩ := bind_ok.mp hrun
  obtain ⟨s3, hunlock, hrun⟩ := bind_ok.mp hrun
  cases hrun
  refine ⟨Dropped.locked h hlock (fun hinv hst => taskRestartLists_dropped hinv ?_ hlists) hunlock,
    rfl, rfl, rfl, rfl⟩
  rw [hst, ne_eq, h.running_iff]
  exact hhead

theorem taskRestart_step (h : WaitsInv k.waits) (hw : ¬ k.Waiting t)
    (hrun : taskRestart cfg k t = .ok k') : KStep op k k' .internal := by
  by_cases hother : t = idle ∨ (k.sched.list .readytorun).head? = some t ∨ t ∉ k.tasks
  · obtain ⟨r, hr, hrun⟩ := bind_ok.mp hrun
    obtain ⟨s1, hlock, hrun⟩ := bind_ok.mp hrun
    rw [rtcb_ok] at hr
    rw [if_pos (hother.imp_right fun h' => h'.imp_left fun hhd =>
      Option.some.inj (hhd.symm.trans hr))] at hrun
    cases hrun
    exact .of_calm rfl (schedLock_quiet h.sched hlock).calm rfl rfl rfl rfl
  · push Not at hother
    exact (taskRestart_dropped h.sched hother.2.2 hother.1 hother.2.1 hrun).step h.sched hw

/-- **The steps sorted into what they do to the waiting tasks.** -/
theorem KOp.step (h : WaitsInv k.waits) (hlegal : op.Legal k) (hspare : op.SparesWaiters k)
    (hrun : op.run cfg k = .ok (k', ev)) : KStep op k k' ev := by
  cases op with
  | semWait sem => exact semWait_step h hrun
  | semTrywait sem => exact semTrywait_step h hrun
  | semTimedwait sem abstime => exact semTimedwait_step h hrun
  | semPost sem =>
    obtain ⟨⟨k1, sel⟩, hstep, hrun⟩ := bind_ok.mp hrun
    cases hrun
    exact semPost_step h hstep
  | mqSend mqdes mail prio abstime =>
    obtain ⟨hstep, rfl⟩ := internal_ok.mp hrun
    exact mqSend_step h hstep
  | mqReceive mqdes n abstime =>
    obtain ⟨hstep, rfl⟩ := internal_ok.mp hrun
    exact mqReceive_step h hstep
  | resume => exact resume_step h hrun
  | mqSendIrq mqdes mail prio alloc =>
    cases hrun
    exact .of_eq h rfl waits_mqSendIrq
  | mqWakeIrq q =>
    obtain ⟨hstep, rfl⟩ := internal_ok.mp hrun
    exact (mqWake_step (k := { k with irqNotify := k.irqNotify.erase q }) h hstep).shift rfl rfl
  | sigReceived t masked waited =>
    obtain ⟨hstep, rfl⟩ := internal_ok.mp hrun
    exact sigReceived_step h hstep
  | sigDeliver =>
    obtain ⟨hstep, rfl⟩ := internal_ok.mp hrun
    exact sigDeliver_step h hstep
  | sigReturn =>
    obtain ⟨hstep, rfl⟩ := internal_ok.mp hrun
    exact sigReturn_step h hstep
  | semTimeout t =>
    obtain ⟨hstep, rfl⟩ := internal_ok.mp hrun
    exact semTimeout_step h hstep
  | mqTimeout e t =>
    obtain ⟨hstep, rfl⟩ := internal_ok.mp hrun
    exact mqTimeout_step h hstep
  | sched sop =>
    obtain ⟨s, hstep, hrun⟩ := bind_ok.mp hrun
    cases hrun
    exact SchedOp.step h hlegal hstep
  | taskCreate t priority rr =>
    obtain ⟨hstep, rfl⟩ := internal_ok.mp hrun
    exact taskCreate_step h hlegal.2.2.1 hlegal.2.2.2 hstep
  | taskDelete t =>
    obtain ⟨hstep, rfl⟩ := internal_ok.mp hrun
    exact taskDelete_step h hspare hstep
  | taskRestart t =>
    obtain ⟨hstep, rfl⟩ := internal_ok.mp hrun
    exact taskRestart_step h hspare hstep

end NuttX
