import NuttX.Kernel.Accounts

/-!
# Calls in flight at a message queue

Between the moment at which a message is inserted or removed and the moment at which the task that
waits for it goes on, somebody still has something to do: the sender has to look for a waiter, or
the waiter that was found has to run. `NuttX.Kernel.inFlight` counts the calls at such places, over
all tasks and over the calls that signal handlers have interrupted.

`NuttX.MqInv` is the invariant that the counts carry. It is an invariant of credits: as long as a
task waits for a message, every message in the queue is paid for by a call in flight, and as long as
a task waits for a free slot, every free slot is. The lemmas say how it is kept when the running
task goes on, when the scheduler moves tasks, when the running task blocks, and when a task is
woken.
-/

namespace NuttX

open Function Kernel List

/-! ### Places -/

def Kernel.OnQueue (k : Kernel) (t : Tid) : Prop :=
  t ∈ k.sched.list .waitingformqnotempty ∨ t ∈ k.sched.list .waitingformqnotfull

instance (k : Kernel) (t : Tid) : Decidable (k.OnQueue t) := inferInstanceAs (Decidable (_ ∨ _))

/-- The places in the calls that a task is in, with the error numbers they will find. -/
def Kernel.stack (k : Kernel) (t : Tid) : List (Errno × Pc) := (k.pterrno t, k.pc t) :: k.saved t

/-- The places at which the calls of a task go on. The call in which the task is blocked at a
message queue does not. -/
def Kernel.frames (k : Kernel) (t : Tid) : List (Errno × Pc) :=
  if k.OnQueue t then k.saved t else k.stack t

/-- The number of calls that go on at a place. -/
def Kernel.inFlight (k : Kernel) (place : Errno × Pc → Bool) : ℕ :=
  Waiters.total (fun t => (k.frames t).countP place) k.tasks

/-- The event that a call waits for, and the queue. -/
def Pc.waitsAt : Pc → Option (MqEvent × MqId)
  | recvWait q => some (.notEmpty, q)
  | sendWait q _ => some (.notFull, q)
  | _ => none

/-- The event that a call is about to make use of or to announce, and the queue: a sender that has
inserted its message will look for a receiver; a sender that has seen a free slot will use it, and a
receiver that has removed a message will look for a sender. -/
def Pc.busyAt : Pc → Option (MqEvent × MqId)
  | sendNotify q => some (.notEmpty, q)
  | sendAlloc q _ | sendInsert q _ | recvDone q _ | recvUnblock q => some (.notFull, q)
  | _ => none

/-- The place of a receiver that `mq_dosend` has unblocked, or of a sender that `mq_doreceive` has
unblocked, and that has not yet resumed. A wait that was cut short has another error number. -/
def woken (e : MqEvent) (q : MqId) (f : Errno × Pc) : Bool :=
  decide (f.1 = .ok ∧ f.2.waitsAt = some (e, q))

/-- The place of a call between a message and the search for a waiter. -/
def busy (e : MqEvent) (q : MqId) (f : Errno × Pc) : Bool := decide (f.2.busyAt = some (e, q))

def pays (e : MqEvent) (q : MqId) (f : Errno × Pc) : Bool := woken e q f || busy e q f

def toll (e : MqEvent) (q : MqId) (f : Errno × Pc) : ℕ := if pays e q f = true then 1 else 0

def Msgq.avail (m : Msgq) : MqEvent → ℤ
  | .notEmpty => m.nmsgs
  | .notFull => m.maxmsgs - m.nmsgs

/-- The interrupt handlers that have inserted a message and not yet looked for a waiter. -/
def Kernel.irqBusy (k : Kernel) (q : MqId) : MqEvent → ℕ
  | .notEmpty => k.irqNotify.count q
  | .notFull => 0

/-- What pays for the messages, or the free slots, of a queue. -/
def Kernel.credit (k : Kernel) (e : MqEvent) (q : MqId) : ℕ := k.inFlight (pays e q) + k.irqBusy q e

variable {k k' : Kernel} {r t w : Tid} {e : MqEvent} {q : MqId} {p : Errno × Pc → Bool} {x : Errno}
 {pc : Pc} {s : Sched} {f : Errno × Pc}

theorem Kernel.onQueue_iff : k.OnQueue t ↔ ∃ e : MqEvent, t ∈ k.sched.list e.list := by
  constructor
  · rintro (h | h)
    · exact ⟨.notEmpty, h⟩
    · exact ⟨.notFull, h⟩
  · rintro ⟨e, h⟩
    cases e with
    | notEmpty => exact Or.inl h
    | notFull => exact Or.inr h

theorem Kernel.frames_of_not (h : ¬ k.OnQueue t) : k.frames t = k.stack t := if_neg h

theorem Kernel.frames_of_onQueue (h : k.OnQueue t) : k.frames t = k.saved t := if_pos h

theorem Kernel.frames_congr (hon : k'.OnQueue t ↔ k.OnQueue t) (hs : k'.stack t = k.stack t) :
    k'.frames t = k.frames t := by
  have hsaved : k'.saved t = k.saved t := (cons.inj hs).2
  rw [frames, frames, hs, hsaved]
  simp only [hon]

theorem Kernel.countP_stack : (k.stack t).countP (pays e q) =
    (k.saved t).countP (pays e q) + toll e q (k.pterrno t, k.pc t) := by
  rw [stack, countP_cons]
  rfl

theorem Kernel.inFlight_change (hnd : k.tasks.Nodup) (hr : r ∈ k.tasks) (ht : k'.tasks = k.tasks)
    (hother : ∀ t, t ≠ r → k'.frames t = k.frames t) :
    k'.inFlight p + (k.frames r).countP p = k.inFlight p + (k'.frames r).countP p := by
  rw [inFlight, inFlight, ht]
  exact Waiters.total_change hr hnd
    (show ∀ t, t ≠ r → (k'.frames t).countP p = (k.frames t).countP p from
      fun t htr => by rw [hother t htr])

theorem Kernel.inFlight_congr (ht : k'.tasks = k.tasks) (hf : ∀ t, k'.frames t = k.frames t) :
    k'.inFlight p = k.inFlight p := by
  rw [inFlight, inFlight, ht]
  exact Waiters.total_congr fun t _ => by rw [hf t]

theorem Kernel.irqBusy_congr (e : MqEvent) (q : MqId) (h : k'.irqNotify = k.irqNotify) :
    k'.irqBusy q e = k.irqBusy q e := by
  cases e
  · rw [irqBusy, irqBusy, h]
  · rfl

/-! ### What a place pays -/

/-- What a place pays for. -/
def paidAt (f : Errno × Pc) : Option (MqEvent × MqId) :=
  if f.1 = .ok then f.2.waitsAt <|> f.2.busyAt else f.2.busyAt

theorem toll_eq (f : Errno × Pc) : toll e q f = if paidAt f = some (e, q) then 1 else 0 := by
  obtain ⟨x, pc⟩ := f
  by_cases hx : x = .ok <;> cases pc <;>
    simp [toll, pays, woken, busy, paidAt, hx, Pc.waitsAt, Pc.busyAt]

theorem toll_eq_zero (h : paidAt f = none) : toll e q f = 0 := by
  rw [toll_eq, h, if_neg nofun]

theorem paidAt_of_errno (hx : x ≠ .ok) (hpc : pc.busyAt = none) : paidAt (x, pc) = none := by
  rw [paidAt, if_neg hx, hpc]

theorem paidAt_of_woken (h : woken e q f = true) : paidAt f = some (e, q) := by
  obtain ⟨hx, hw⟩ := of_decide_eq_true h
  rw [paidAt, if_pos hx, hw]
  rfl

theorem not_deleteTail_of_woken (h : woken e q f = true) (c : Tid) : f.2 ≠ .deleteTail c := by
  obtain ⟨-, hw⟩ := of_decide_eq_true h
  intro hc
  rw [hc] at hw
  cases hw

/-! ### The invariant -/

/-- A blocked task is where its wait has put it, and the tasks are known. -/
structure PlaceInv (k : Kernel) : Prop where
  nodup : k.tasks.Nodup
  live : ∀ t, k.sched.state t ≠ .invalid → t ∈ k.tasks
  sem : ∀ t ∈ k.sched.list .waitingforsemaphore, ∃ s, k.pc t = .semWait s
  mq : ∀ e q, ∀ t ∈ k.sched.list (MqEvent.list e), k.msgwaitq t = some q →
    woken e q (k.pterrno t, k.pc t) = true
  tail : ∀ t, ∀ f ∈ k.stack t, ∀ c, f.2 ≠ .deleteTail c

/-- The messages are counted, and while a task waits, what it could use is paid for. -/
structure Paid (k : Kernel) : Prop where
  length : ∀ q, (k.mq q).nmsgs = (k.mq q).msglist.length
  credit : ∀ e q, 0 < (k.mq q).nwait e → (k.mq q).avail e ≤ k.credit e q

/-- The invariant of the message queues. -/
structure MqInv (k : Kernel) : Prop extends PlaceInv k, Paid k

/-- What is known of the running task. -/
structure AtHead (k : Kernel) (r : Tid) : Prop where
  mem : r ∈ k.tasks
  notQueue : ∀ e : MqEvent, r ∉ k.sched.list e.list
  notSem : r ∉ k.sched.list .waitingforsemaphore

theorem AtHead.not_onQueue (h : AtHead k r) : ¬ k.OnQueue r := by
  rw [onQueue_iff, not_exists]
  exact h.notQueue

theorem PlaceInv.mem_of_mem (h : PlaceInv k) (hs : SchedInv k.sched) {L : TaskList}
    (ht : t ∈ k.sched.list L) : t ∈ k.tasks :=
  h.live t (hs.toListInv.live ht)

theorem PlaceInv.atHead (h : PlaceInv k) (hs : SchedInv k.sched)
    (hr : (k.sched.list .readytorun).head? = some r) : AtHead k r :=
  ⟨h.mem_of_mem hs (mem_of_mem_head? hr), fun e => hs.head_notMem hr e.isBlocked,
    hs.head_notMem hr rfl⟩

/-! ### The scheduler moves tasks -/

/-- The scheduler moves tasks, but none into or out of the lists of the message queues. -/
theorem MqInv.withSched (h : MqInv k)
    (hl : ∀ e : MqEvent, ∀ t, t ∈ s.list e.list ↔ t ∈ k.sched.list e.list)
    (hlive : ∀ t, s.state t ≠ .invalid → k.sched.state t ≠ .invalid)
    (hsem : ∀ t ∈ s.list .waitingforsemaphore, ∃ i, k.pc t = .semWait i)
    {ws : Tid → Option SemId} {sc : SemId → ℤ} :
    MqInv { k with sched := s, waitsem := ws, semcount := sc } := by
  have hon : ∀ t, OnQueue { k with sched := s, waitsem := ws, semcount := sc } t ↔ k.OnQueue t := by
    intro t
    rw [onQueue_iff, onQueue_iff]
    exact exists_congr fun e => hl e t
  refine ⟨⟨h.nodup, fun t ht => h.live t (hlive t ht), hsem,
    fun e q t ht => h.mq e q t ((hl e t).mp ht), h.tail⟩, h.length, fun e q hw => ?_⟩
  have hflight : inFlight { k with sched := s, waitsem := ws, semcount := sc } (pays e q) =
    k.inFlight (pays e q) := inFlight_congr rfl fun t => frames_congr (hon t) rfl
  have hold := h.credit e q hw
  rw [credit] at hold ⊢
  rw [hflight]
  exact hold

theorem MqInv.calm (h : MqInv k) (hc : Calm k.sched s)
    (hlive : ∀ t, s.state t = .invalid ↔ k.sched.state t = .invalid) :
    MqInv { k with sched := s } :=
  h.withSched (fun e t => by rw [hc.list _ e.isWait]) (fun t => mt (hlive t).mpr) fun t ht =>
    h.sem t (by
      rw [← hc.list _ rfl]
      exact ht)

theorem AtHead.calm (h : AtHead k r) (hc : Calm k.sched s) : AtHead { k with sched := s } r := by
  refine ⟨h.mem, fun e => ?_, ?_⟩
  · rw [hc.list _ e.isWait]
    exact h.notQueue e
  · rw [hc.list _ rfl]
    exact h.notSem

/-! ### The running task goes on -/

/-- The calls of the running task, and of nobody else, are at other places. -/
structure Stepped (k k' : Kernel) (r : Tid) : Prop where
  sched : k'.sched = k.sched
  tasks : k'.tasks = k.tasks
  msgwaitq : k'.msgwaitq = k.msgwaitq
  other : ∀ t, t ≠ r → k'.stack t = k.stack t
  tail : ∀ f ∈ k'.stack r, ∀ c, f.2 ≠ .deleteTail c

theorem Stepped.onQueue (hs : Stepped k k' r) : k'.OnQueue t ↔ k.OnQueue t := by
  rw [OnQueue, OnQueue, hs.sched]

theorem Stepped.place (hs : Stepped k k' r) (hr : AtHead k r) (h : PlaceInv k) : PlaceInv k' := by
  have htop : ∀ t, t ≠ r → (k'.pterrno t, k'.pc t) = (k.pterrno t, k.pc t) :=
    fun t htr => (cons.inj (hs.other t htr)).1
  refine ⟨by rw [hs.tasks]; exact h.nodup, by rw [hs.tasks, hs.sched]; exact h.live,
    fun t ht => ?_, fun e q t ht hon => ?_, fun t f hf => ?_⟩
  · rw [hs.sched] at ht
    have htr : t ≠ r := by
      rintro rfl
      exact hr.notSem ht
    rw [(Prod.mk.inj (htop t htr)).2]
    exact h.sem t ht
  · rw [hs.sched] at ht
    rw [hs.msgwaitq] at hon
    have htr : t ≠ r := by
      rintro rfl
      exact hr.notQueue e ht
    rw [htop t htr]
    exact h.mq e q t ht hon
  · rcases eq_or_ne t r with rfl | htr
    · exact hs.tail f hf
    · rw [hs.other t htr] at hf
      exact h.tail t f hf

theorem Stepped.inFlight (hs : Stepped k k' r) (hr : AtHead k r) (hnd : k.tasks.Nodup) :
    k'.inFlight p + (k.stack r).countP p = k.inFlight p + (k'.stack r).countP p := by
  rw [← frames_of_not hr.not_onQueue, ← frames_of_not (mt hs.onQueue.mp hr.not_onQueue)]
  exact inFlight_change hnd hr.mem hs.tasks fun t htr => frames_congr hs.onQueue (hs.other t htr)

/-- The running task goes on, and whatever becomes available is paid for. -/
theorem MqInv.stepped (h : MqInv k) (hr : AtHead k r) (hs : Stepped k k' r)
    (hnw : ∀ q, (k'.mq q).nwait = (k.mq q).nwait)
    (hlen : ∀ q, (k'.mq q).nmsgs = (k'.mq q).msglist.length)
    (hpay : ∀ e q, 0 < (k.mq q).nwait e →
      (k'.mq q).avail e + k.irqBusy q e + (k.stack r).countP (pays e q) ≤
        (k.mq q).avail e + k'.irqBusy q e + (k'.stack r).countP (pays e q)) :
    MqInv k' := by
  refine ⟨hs.place hr h.toPlaceInv, hlen, fun e q hw => ?_⟩
  rw [hnw q] at hw
  have hold := h.credit e q hw
  have hstep := hpay e q hw
  have hflight := hs.inFlight (p := pays e q) hr h.nodup
  rw [credit] at hold ⊢
  omega

theorem Stepped.of_goto (h : PlaceInv k) (hsched : k'.sched = k.sched) (htasks : k'.tasks = k.tasks)
    (hmsg : k'.msgwaitq = k.msgwaitq) (hx : k'.pterrno = update k.pterrno r x)
    (hpc : k'.pc = update k.pc r pc) (hsaved : k'.saved = k.saved)
    (htail : ∀ c, pc ≠ .deleteTail c) : Stepped k k' r := by
  refine ⟨hsched, htasks, hmsg, fun t htr => ?_, fun f hf => ?_⟩
  · rw [stack, stack, hx, hpc, hsaved, update_of_ne htr, update_of_ne htr]
  · rw [stack, hpc, hsaved, update_self] at hf
    rcases mem_cons.mp hf with rfl | hf
    · exact htail
    · exact h.tail r f (mem_cons_of_mem _ hf)

theorem MqInv.goto (h : MqInv k) (hr : AtHead k r) {m : MqId → Msgq}
    (htail : ∀ c, pc ≠ .deleteTail c)
    (hnw : ∀ q, (m q).nwait = (k.mq q).nwait) (hlen : ∀ q, (m q).nmsgs = (m q).msglist.length)
    (hpay : ∀ e q, 0 < (k.mq q).nwait e →
      (m q).avail e + toll e q (k.pterrno r, k.pc r) ≤ (k.mq q).avail e + toll e q (x, pc)) :
    MqInv (({ k with mq := m }.setErrno r x).goto r pc) := by
  refine h.stepped hr (.of_goto h.toPlaceInv rfl rfl rfl rfl rfl rfl htail) hnw hlen
    fun e q hw => ?_
  have hle := hpay e q hw
  have hirq : (({ k with mq := m }.setErrno r x).goto r pc).irqBusy q e = k.irqBusy q e := rfl
  have havail : ((({ k with mq := m }.setErrno r x).goto r pc).mq q).avail e = (m q).avail e := rfl
  have hx : (({ k with mq := m }.setErrno r x).goto r pc).pterrno r = x := update_self ..
  have hpc : (({ k with mq := m }.setErrno r x).goto r pc).pc r = pc := update_self ..
  have hsaved : (({ k with mq := m }.setErrno r x).goto r pc).saved r = k.saved r := rfl
  rw [countP_stack, countP_stack, hirq, havail, hx, hpc, hsaved]
  omega

theorem Kernel.setErrno_self : k.setErrno r (k.pterrno r) = k := by
  rw [setErrno, update_eq_self]

theorem MqInv.goto_of_paidAt (h : MqInv k) (hr : AtHead k r) (htail : ∀ c, pc ≠ .deleteTail c)
    (hpay : paidAt (k.pterrno r, k.pc r) = none ∨ paidAt (k.pterrno r, k.pc r) = paidAt (x, pc)) :
    MqInv ((k.setErrno r x).goto r pc) := by
  refine h.goto hr htail (fun _ => rfl) h.length fun e q _ => ?_
  rw [toll_eq, toll_eq]
  rcases hpay with hnone | heq
  · rw [hnone, if_neg nofun]
    omega
  · simp only [heq, Int.le_refl]

/-! ### The running task blocks -/

/-- The running task has begun to wait for the event `e` at the queue `q`. -/
structure Joined (k k' : Kernel) (r : Tid) (e : MqEvent) (q : MqId) : Prop where
  sched : Blocked k.sched k'.sched r e.state
  tasks : k'.tasks = k.tasks
  msgwaitq : k'.msgwaitq = update k.msgwaitq r (some q)
  mq : k'.mq = (k.addWait e q 1).mq
  place : woken e q (k'.pterrno r, k'.pc r) = true
  pterrno : ∀ t, t ≠ r → k'.pterrno t = k.pterrno t
  pc : ∀ t, t ≠ r → k'.pc t = k.pc t
  saved : k'.saved = k.saved
  irqNotify : k'.irqNotify = k.irqNotify

theorem Blocked.mem_mqList (hb : Blocked k.sched s r e.state) {e' : MqEvent} :
    t ∈ s.list e'.list ↔ (t = r ∧ e' = e) ∨ t ∈ k.sched.list e'.list := by
  rcases eq_or_ne e' e with rfl | he
  · rw [hb.list_eq e'.state_list, Sched.mem_blockList]
    simp
  · rw [hb.list_of_ne e.state_list e'.isBlocked fun hl => he (MqEvent.list_injective hl)]
    simp [he]

theorem Kernel.mq_addWait {q' : MqId} {d : ℤ} :
    ((k.addWait e q d).mq q').msglist = (k.mq q').msglist ∧
      ((k.addWait e q d).mq q').nmsgs = (k.mq q').nmsgs ∧
      ∀ e', ((k.addWait e q d).mq q').avail e' = (k.mq q').avail e' := by
  rcases eq_or_ne q' q with rfl | hq
  · simp only [addWait, setMq, update_self, true_and]
    intro e'
    cases e' <;> rfl
  · simp [addWait, setMq, hq]

theorem MqInv.joined (h : MqInv k) (hr : AtHead k r) (hj : Joined k k' r e q)
    (havail : (k.mq q).avail e ≤ 0)
    (htoll : ∀ e' q', ¬ (q' = q ∧ e' = e) → toll e' q' (k.pterrno r, k.pc r) = 0) : MqInv k' := by
  have hon : ∀ t, t ≠ r → (k'.OnQueue t ↔ k.OnQueue t) := by
    intro t htr
    simp only [onQueue_iff, hj.sched.mem_mqList, htr, false_and, false_or]
  have hother : ∀ t, t ≠ r → k'.frames t = k.frames t := by
    intro t htr
    refine frames_congr (hon t htr) ?_
    rw [stack, stack, hj.pterrno t htr, hj.pc t htr, hj.saved]
  have hblocked : k'.OnQueue r :=
    onQueue_iff.mpr ⟨e, hj.sched.mem_mqList.mpr (Or.inl ⟨rfl, rfl⟩)⟩
  refine ⟨⟨by rw [hj.tasks]; exact h.nodup, fun t ht => ?_, fun t ht => ?_,
    fun e' q' t ht hq => ?_, fun t f hf => ?_⟩, fun q' => ?_, fun e' q' hw => ?_⟩
  · rw [hj.tasks]
    exact h.live t fun hinv => ht ((hj.sched.live t).mpr hinv)
  · rw [hj.sched.list_of_ne e.state_list rfl e.list_ne_sem.symm] at ht
    have htr : t ≠ r := by
      rintro rfl
      exact hr.notSem ht
    rw [hj.pc t htr]
    exact h.sem t ht
  · rw [hj.msgwaitq] at hq
    rcases hj.sched.mem_mqList.mp ht with ⟨rfl, rfl⟩ | ht
    · rw [update_self] at hq
      cases hq
      exact hj.place
    have htr : t ≠ r := by
      rintro rfl
      exact hr.notQueue e' ht
    rw [update_of_ne htr] at hq
    rw [hj.pterrno t htr, hj.pc t htr]
    exact h.mq e' q' t ht hq
  · rcases eq_or_ne t r with rfl | htr
    · rw [stack, hj.saved] at hf
      rcases mem_cons.mp hf with rfl | hf
      · exact not_deleteTail_of_woken hj.place
      · exact h.tail t f (mem_cons_of_mem _ hf)
    · rw [stack, hj.pterrno t htr, hj.pc t htr, hj.saved] at hf
      exact h.tail t f hf
  · rw [hj.mq, mq_addWait.1, mq_addWait.2.1]
    exact h.length q'
  · rw [hj.mq, nwait_addWait] at hw
    rw [hj.mq, mq_addWait.2.2]
    by_cases heq : q' = q ∧ e' = e
    · obtain ⟨rfl, rfl⟩ := heq
      exact Int.le_trans havail (Int.natCast_nonneg _)
    rw [if_neg heq, Int.add_zero] at hw
    have hold := h.credit e' q' hw
    have hzero := htoll e' q' heq
    have hflight := inFlight_change (p := pays e' q') h.nodup hr.mem hj.tasks hother
    rw [frames_of_not hr.not_onQueue, frames_of_onQueue hblocked, hj.saved, countP_stack] at hflight
    have hirq := irqBusy_congr e' q' hj.irqNotify
    rw [credit] at hold ⊢
    omega

/-! ### A waiting task is woken -/

/-- The task `w` has stopped to wait for the event `e` at the queue `q`. -/
structure Woken (k k' : Kernel) (w : Tid) (e : MqEvent) (q : MqId) (x : Errno) : Prop where
  mem : w ∈ k.sched.list e.list
  waits : k.msgwaitq w = some q
  sched : Unblocked k.sched k'.sched w
  tasks : k'.tasks = k.tasks
  msgwaitq : k'.msgwaitq = update k.msgwaitq w none
  mq : k'.mq = (k.addWait e q (-1)).mq
  pterrno : k'.pterrno = update k.pterrno w x
  pc : k'.pc = k.pc
  saved : k'.saved = k.saved
  irqNotify : k'.irqNotify = k.irqNotify

section

variable (hw : Woken k k' w e q x) (hinv : SchedInv k.sched)

include hw hinv

theorem Woken.mem_mqList {e' : MqEvent} :
    t ∈ k'.sched.list e'.list ↔ t ∈ k.sched.list e'.list ∧ t ≠ w := by
  rw [hw.sched.list _ e'.isBlocked, (hinv.nodup e'.list).mem_erase_iff, and_comm]

theorem Woken.place (h : PlaceInv k) : PlaceInv k' := by
  refine ⟨by rw [hw.tasks]; exact h.nodup, fun t ht => ?_, fun t ht => ?_,
    fun e' q' t ht hq => ?_, fun t f hf => ?_⟩
  · rw [hw.tasks]
    exact h.live t fun hcon => ht ((hw.sched.live t).mpr hcon)
  · rw [hw.pc]
    rw [hw.sched.list _ rfl] at ht
    exact h.sem t (mem_of_mem_erase ht)
  · obtain ⟨ht, htw⟩ := (hw.mem_mqList hinv).mp ht
    rw [hw.msgwaitq, update_of_ne htw] at hq
    rw [hw.pc, hw.pterrno, update_of_ne htw]
    exact h.mq e' q' t ht hq
  · rw [stack, hw.pc, hw.saved] at hf
    rcases mem_cons.mp hf with rfl | hf
    · exact h.tail t (k.pterrno t, k.pc t) mem_cons_self
    · exact h.tail t f (mem_cons_of_mem _ hf)

/-- The woken task goes on where it was blocked, and pays from now on. -/
theorem Woken.credit (h : PlaceInv k) (e' : MqEvent) (q' : MqId) :
    k'.credit e' q' = k.credit e' q' + toll e' q' (x, k.pc w) := by
  have hon : ∀ t, t ≠ w → (k'.OnQueue t ↔ k.OnQueue t) := by
    intro t htw
    simp only [Kernel.onQueue_iff, hw.mem_mqList hinv, htw, ne_eq, not_false_eq_true, and_true]
  have hother : ∀ t, t ≠ w → k'.frames t = k.frames t := by
    intro t htw
    refine Kernel.frames_congr (hon t htw) ?_
    rw [Kernel.stack, Kernel.stack, hw.pterrno, hw.pc, hw.saved, update_of_ne htw]
  have hwas : k.OnQueue w := Kernel.onQueue_iff.mpr ⟨e, hw.mem⟩
  have hnot : ¬ k'.OnQueue w := by
    rw [Kernel.onQueue_iff]
    rintro ⟨e'', hm⟩
    exact ((hw.mem_mqList hinv).mp hm).2 rfl
  have hflight := Kernel.inFlight_change (p := pays e' q') h.nodup (h.mem_of_mem hinv hw.mem)
    hw.tasks hother
  rw [Kernel.frames_of_onQueue hwas, Kernel.frames_of_not hnot, Kernel.countP_stack, hw.pterrno,
    update_self, hw.pc, hw.saved] at hflight
  have hirq := Kernel.irqBusy_congr e' q' hw.irqNotify
  rw [Kernel.credit, Kernel.credit]
  omega

end

theorem MqInv.cutShort (h : MqInv k) (hinv : SchedInv k.sched) (hw : Woken k k' w e q x) :
    MqInv k' := by
  refine ⟨hw.place hinv h.toPlaceInv, fun q' => ?_, fun e' q' hpos => ?_⟩
  · rw [hw.mq, mq_addWait.1, mq_addWait.2.1]
    exact h.length q'
  · rw [hw.mq, nwait_addWait] at hpos
    rw [hw.mq, mq_addWait.2.2, hw.credit hinv h.toPlaceInv]
    have hold := h.credit e' q' (by split at hpos <;> omega)
    omega

/-- Everything is paid for, but for one unit at the queue `q`, which a waiter is to be woken for. -/
structure Owes (k : Kernel) (e : MqEvent) (q : MqId) : Prop extends PlaceInv k where
  length : ∀ q', (k.mq q').nmsgs = (k.mq q').msglist.length
  credit : ∀ e' q', 0 < (k.mq q').nwait e' →
    (k.mq q').avail e' ≤ k.credit e' q' + (if (e, q) = (e', q') then 1 else 0 : ℕ)

theorem Owes.wake (h : Owes k e q) (hinv : SchedInv k.sched) (hw : Woken k k' w e q (k.pterrno w)) :
    MqInv k' := by
  refine ⟨hw.place hinv h.toPlaceInv, fun q' => ?_, fun e' q' hpos => ?_⟩
  · rw [hw.mq, mq_addWait.1, mq_addWait.2.1]
    exact h.length q'
  rw [hw.mq, nwait_addWait] at hpos
  have hold := h.credit e' q' (by split at hpos <;> omega)
  rw [hw.mq, mq_addWait.2.2, hw.credit hinv h.toPlaceInv, toll_eq,
    paidAt_of_woken (h.mq e q w hw.mem hw.waits)]
  simp only [Option.some.injEq]
  omega

theorem Owes.settled (h : Owes k e q) (hnone : (k.mq q).nwait e ≤ 0) : MqInv k := by
  refine ⟨h.toPlaceInv, h.length, fun e' q' hpos => ?_⟩
  have hne : (e, q) ≠ (e', q') := by
    rintro heq
    cases heq
    omega
  have hold := h.credit e' q' hpos
  rw [if_neg hne] at hold
  omega

/-- The running task stops to pay. -/
theorem MqInv.owes (h : MqInv k) (pc : Pc) (hr : AtHead k r)
    (hpaid : paidAt (k.pterrno r, k.pc r) = some (e, q)) (htail : ∀ c, pc ≠ .deleteTail c) :
    Owes (k.goto r pc) e q := by
  have hs : Stepped k (k.goto r pc) r := .of_goto h.toPlaceInv rfl rfl rfl
    (update_eq_self r k.pterrno).symm rfl rfl htail
  refine ⟨hs.place hr h.toPlaceInv, h.length, fun e' q' hpos => ?_⟩
  have hold := h.credit e' q' hpos
  have hflight := hs.inFlight (p := pays e' q') hr h.nodup
  rw [countP_stack, countP_stack, toll_eq (k.pterrno r, k.pc r), hpaid] at hflight
  have hsaved : (k.goto r pc).saved r = k.saved r := rfl
  have hirq : (k.goto r pc).irqBusy q' e' = k.irqBusy q' e' := rfl
  have havail : ((k.goto r pc).mq q').avail e' = (k.mq q').avail e' := rfl
  simp only [Option.some.injEq] at hflight
  rw [credit] at hold ⊢
  rw [hsaved] at hflight
  omega

theorem MqInv.owes_irq (h : MqInv k) :
    Owes { k with irqNotify := k.irqNotify.erase q } .notEmpty q := by
  refine ⟨⟨h.nodup, h.live, h.sem, h.mq, h.tail⟩, h.length, fun e' q' hpos => ?_⟩
  have hold := h.credit e' q' hpos
  have hflight : inFlight { k with irqNotify := k.irqNotify.erase q } (pays e' q') =
    k.inFlight (pays e' q') := rfl
  have havail : (mq { k with irqNotify := k.irqNotify.erase q } q').avail e' =
    (k.mq q').avail e' := rfl
  rw [credit] at hold ⊢
  rw [hflight, havail]
  cases e' with
  | notFull => simpa [irqBusy] using hold
  | notEmpty =>
    simp only [irqBusy] at hold ⊢
    rcases eq_or_ne q q' with rfl | hne
    · have hcount := count_erase_self (a := q) (l := k.irqNotify)
      rw [if_pos rfl]
      omega
    · rw [count_erase_of_ne hne.symm]
      omega

end NuttX
