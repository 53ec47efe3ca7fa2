import NuttX.Lib.Waiters
import NuttX.Task.Exit

/-!
# Semaphores, message queues and the tasks that wait for them

The waiting part of the kernel, as it is built without priority inheritance: `sem_wait.c`,
`sem_trywait.c`, `sem_timedwait.c`, `sem_post.c`, `sem_waitirq.c`, `mq_sndinternal.c`, `mq_send.c`,
`mq_timedsend.c`, `mq_rcvinternal.c`, `mq_receive.c`, `mq_timedreceive.c`, `mq_waitirq.c`, the
wake-ups of `sig_received.c`, the frame of `sig_deliver.c`, `task_delete.c` and `task_restart.c`.

A step is what runs without another task or an interrupt handler coming in between: a section with
interrupts disabled, or a call that changes the scheduler's lists. A call that blocks, or that
enables interrupts half-way, leaves the place where it goes on in `NuttX.Kernel.pc`, and
`NuttX.resume` runs the next section once the task is at the head of `g_readytorun`. A signal
handler that interrupts a call runs on the same stack: `sig_deliver` saves the error number and the
place, and restores both.

Watchdogs are not in this model. A time-out may hit any task at any moment, which allows more than
the watchdogs of the timed calls do.
-/

namespace NuttX

open Function

abbrev SemId := ℕ

abbrev MqId := ℕ

def semValueMax : ℤ := 0x7fff

def mqPrioMax : ℤ := 255

/-- A message: `priority`, and the `msglen` bytes of `mail`. -/
structure Mqmsg where
  priority : ℕ
  mail : List UInt8
  deriving DecidableEq, Repr

/-- What a task can wait for at a message queue. -/
inductive MqEvent
  | notEmpty
  | notFull
  deriving DecidableEq, Repr

namespace MqEvent

def state : MqEvent → TaskState
  | notEmpty => .waitMqNotEmpty
  | notFull => .waitMqNotFull

def list : MqEvent → TaskList
  | notEmpty => .waitingformqnotempty
  | notFull => .waitingformqnotfull

def code : MqEvent → OsErr
  | notEmpty => .mqNonEmptyCount
  | notFull => .mqNotFullCount

/-- The event that a task in the state waits for. -/
def ofState : TaskState → Option MqEvent
  | .waitMqNotEmpty => some notEmpty
  | .waitMqNotFull => some notFull
  | _ => none

end MqEvent

/-- `struct msgq_s`. -/
structure Msgq where
  msglist : List Mqmsg
  maxmsgs : ℤ
  nmsgs : ℤ
  nwait : MqEvent → ℤ
  maxmsgsize : ℕ

def Msgq.nwaitnotempty (m : Msgq) : ℤ := m.nwait .notEmpty

def Msgq.nwaitnotfull (m : Msgq) : ℤ := m.nwait .notFull

/-- `struct mq_des`, with the flags of `oflags` that the calls test. -/
structure Mqdes where
  msgq : MqId
  rdok : Bool
  wrok : Bool
  nonblock : Bool
  deriving DecidableEq, Repr

/-- The `abstime` of a timed call. -/
inductive Abstime
  | none
  | invalid
  | expired
  | ahead
  deriving DecidableEq, Repr

/-- Where a task goes on when it runs next. -/
inductive Pc
  | user
  | semWait (sem : SemId)
  | sendLocked (mqdes : Mqdes) (msg : Mqmsg) (abstime : Abstime)
  | sendWait (q : MqId) (msg : Mqmsg)
  | sendAlloc (q : MqId) (msg : Mqmsg)
  | sendInsert (q : MqId) (msg : Mqmsg)
  | sendNotify (q : MqId)
  | recvLocked (mqdes : Mqdes) (abstime : Abstime)
  | recvWait (q : MqId)
  | recvDone (q : MqId) (msg : Mqmsg)
  | recvUnblock (q : MqId)
  | unlock (n : ℕ)
  | deleteTail (t : Tid)
  deriving DecidableEq, Repr

/-- The state of the kernel. -/
structure Kernel where
  sched : Sched
  tasks : List Tid
  initPriority : Tid → ℕ
  pterrno : Tid → Errno
  waitsem : Tid → Option SemId
  msgwaitq : Tid → Option MqId
  semcount : SemId → ℤ
  mq : MqId → Msgq
  pc : Tid → Pc
  saved : Tid → List (Errno × Pc)
  irqNotify : List MqId

/-- What a step shows to the outside. -/
inductive KEvent
  | took (t : Tid) (sem : SemId)
  | waits (t : Tid) (sem : SemId)
  | posted (sem : SemId) (selected : Option Tid)
  | received (t : Tid) (q : MqId) (msg : Mqmsg)
  | internal
  deriving DecidableEq, Repr

namespace Kernel

variable (k : Kernel)

/-- The task at the head of `g_readytorun`. -/
def rtcb : Os Tid :=
  match k.sched.list .readytorun with
  | [] => .error .nullDeref
  | rtcb :: _ => .ok rtcb

def setErrno (t : Tid) (e : Errno) : Kernel :=
  { k with pterrno := update k.pterrno t e }

def goto (t : Tid) (pc : Pc) : Kernel := { k with pc := update k.pc t pc }

def setMq (q : MqId) (m : Msgq) : Kernel := { k with mq := update k.mq q m }

end Kernel

/-! ### Semaphores -/

/-- The task takes a count of an available semaphore. -/
def Kernel.takeCount (k : Kernel) (t : Tid) (sem : SemId) : Kernel :=
  { k with
    semcount := update k.semcount sem (k.semcount sem - 1)
    waitsem := update k.waitsem t none }

/-- The task is given the count that `sem` has just received, or gives up to wait for it. -/
def Kernel.endWait (k : Kernel) (t : Tid) (sem : SemId) : Kernel :=
  { k with
    semcount := update k.semcount sem (k.semcount sem + 1)
    waitsem := update k.waitsem t none }

/-- `sem_post`, with the waiter that it selects. -/
def semPost (cfg : SchedConfig) (k : Kernel) (sem : SemId) : Os (Kernel × Option Tid) := do
  osAssert (decide (k.semcount sem < semValueMax))
  match
    if k.semcount sem + 1 ≤ 0 then
      Waiters.first k.waitsem sem (k.sched.list .waitingforsemaphore)
    else none
  with
  | none =>
    .ok ({ k with semcount := update k.semcount sem (k.semcount sem + 1) }, none)
  | some stcb => do
    let s ← upUnblockTask cfg k.sched stcb
    .ok ({ k with sched := s }.endWait stcb sem, some stcb)

/-- `sem_wait` up to `up_block_task`. -/
def semWait (k : Kernel) (sem : SemId) : Os (Kernel × KEvent) := do
  let rtcb ← k.rtcb
  if 0 < k.semcount sem then
    .ok ((k.takeCount rtcb sem).setErrno rtcb .einval, .took rtcb sem)
  else if k.waitsem rtcb ≠ none then .error (.panic .badWaitSem)
  else do
    let s ← upBlockTask k.sched rtcb .waitSem
    .ok (({ k with
      sched := s
      semcount := update k.semcount sem (k.semcount sem - 1)
      waitsem := update k.waitsem rtcb (some sem) }.setErrno rtcb .ok).goto rtcb
        (.semWait sem), .waits rtcb sem)

/-- `sem_wait` behind `up_block_task`. -/
def semWaitTail (k : Kernel) (rtcb : Tid) : Kernel × Status :=
  (k.goto rtcb .user,
    if k.pterrno rtcb ≠ .eintr ∧ k.pterrno rtcb ≠ .etimedout then .ok else .error)

def semTrywait (k : Kernel) (sem : SemId) : Os (Kernel × KEvent) := do
  let rtcb ← k.rtcb
  if 0 < k.semcount sem then
    .ok ((k.takeCount rtcb sem).setErrno rtcb .eagain, .took rtcb sem)
  else .ok (k.setErrno rtcb .eagain, .internal)

/-- `sem_timedwait`, up to the `up_block_task` of its `sem_wait`. -/
def semTimedwait (k : Kernel) (sem : SemId) (abstime : Abstime) : Os (Kernel × KEvent) := do
  let rtcb ← k.rtcb
  let (k, ev) ← semTrywait k sem
  if ev ≠ .internal then .ok (k, ev)
  else
    match abstime with
    | .invalid => .ok (k.setErrno rtcb .einval, .internal)
    | .expired => .ok (k.setErrno rtcb .etimedout, .internal)
    | .ahead | .none => semWait k sem

def semWaitirq (cfg : SchedConfig) (k : Kernel) (wtcb : Tid) (errcode : Errno) : Os Kernel :=
  if k.sched.state wtcb = .waitSem then
    match k.waitsem wtcb with
    | none => .error .nullDeref
    | some sem => do
      let s ← upUnblockTask cfg k.sched wtcb
      .ok (({ k with sched := s }.endWait wtcb sem).setErrno wtcb errcode)
  else .ok k

def semTimeout (cfg : SchedConfig) (k : Kernel) (pid : Tid) : Os Kernel :=
  if pid ∈ k.tasks ∧ k.sched.state pid = .waitSem then semWaitirq cfg k pid .etimedout
  else .ok k

/-! ### Waiting for a message queue -/

/-- One more, or one less, task waits for the event at the queue `q`. -/
def Kernel.addWait (k : Kernel) (ev : MqEvent) (q : MqId) (d : ℤ) : Kernel :=
  k.setMq q { k.mq q with nwait := update (k.mq q).nwait ev ((k.mq q).nwait ev + d) }

/-- The running task blocks until the event at the queue `q`, and goes on at `pc`. -/
def mqBlock (k : Kernel) (rtcb : Tid) (ev : MqEvent) (q : MqId) (pc : Pc) : Os Kernel := do
  let s ← upBlockTask k.sched rtcb ev.state
  .ok ((({ k with
    sched := s
    msgwaitq := update k.msgwaitq rtcb (some q) }.addWait ev q 1).setErrno rtcb .ok).goto rtcb pc)

/-- Unblock the highest priority task that waits for the event at the queue `q`. -/
def mqUnblock (cfg : SchedConfig) (k : Kernel) (ev : MqEvent) (q : MqId) : Os Kernel :=
  match Waiters.first k.msgwaitq q (k.sched.list ev.list) with
  | none => .error (.panic ev.code)
  | some btcb => do
    let s ← upUnblockTask cfg k.sched btcb
    .ok ({ k with
      sched := s
      msgwaitq := update k.msgwaitq btcb none }.addWait ev q (-1))

def mqWaitirq (cfg : SchedConfig) (k : Kernel) (wtcb : Tid) (errcode : Errno) : Os Kernel :=
  match MqEvent.ofState (k.sched.state wtcb) with
  | none => .ok k
  | some ev =>
    match k.msgwaitq wtcb with
    | none => .error .nullDeref
    | some q => do
      let s ← upUnblockTask cfg k.sched wtcb
      .ok (({ k with
        sched := s
        msgwaitq := update k.msgwaitq wtcb none }.addWait ev q (-1)).setErrno wtcb errcode)

/-- `mq_rcvtimeout` and `mq_sndtimeout`. -/
def mqTimeout (cfg : SchedConfig) (k : Kernel) (ev : MqEvent) (pid : Tid) : Os Kernel :=
  if pid ∈ k.tasks ∧ k.sched.state pid = ev.state then mqWaitirq cfg k pid .etimedout
  else .ok k

/-! ### Sending a message -/

/-- `mq_verifysend`: the error number, if the arguments are rejected. -/
def mqVerifysend (m : Msgq) (mqdes : Mqdes) (mail : List UInt8) (prio : ℤ) : Option Errno :=
  if prio < 0 ∨ mqPrioMax < prio then some .einval
  else if mqdes.wrok = false then some .eperm
  else if m.maxmsgsize < mail.length then some .emsgsize
  else none

/-- `mq_send` and `mq_timedsend` by a task, up to their `sched_lock`. -/
def mqSend (k : Kernel) (mqdes : Mqdes) (mail : List UInt8) (prio : ℤ) (abstime : Abstime) :
    Os Kernel := do
  let rtcb ← k.rtcb
  match mqVerifysend (k.mq mqdes.msgq) mqdes mail prio with
  | some e => .ok (k.setErrno rtcb e)
  | none =>
    if abstime = .invalid then .ok (k.setErrno rtcb .einval)
    else do
      let s ← schedLock false k.sched
      .ok ({ k with sched := s }.goto rtcb (.sendLocked mqdes ⟨prio.toNat, mail⟩ abstime))

/-- One turn of the loop of `mq_waitsend`. -/
def mqWaitsendLoop (k : Kernel) (rtcb : Tid) (q : MqId) (msg : Mqmsg) : Os Kernel :=
  if (k.mq q).maxmsgs ≤ (k.mq q).nmsgs then mqBlock k rtcb .notFull q (.sendWait q msg)
  else .ok (k.goto rtcb (.sendAlloc q msg))

/-- `mq_waitsend` up to `up_block_task`. -/
def mqWaitsend (k : Kernel) (rtcb : Tid) (mqdes : Mqdes) (msg : Mqmsg) : Os Kernel :=
  if (k.mq mqdes.msgq).maxmsgs ≤ (k.mq mqdes.msgq).nmsgs ∧ mqdes.nonblock = true then
    .ok ((k.setErrno rtcb .eagain).goto rtcb (.unlock 1))
  else mqWaitsendLoop k rtcb mqdes.msgq msg

/-- `mq_waitsend` behind `up_block_task`. -/
def mqWaitsendTail (k : Kernel) (rtcb : Tid) (q : MqId) (msg : Mqmsg) : Os Kernel :=
  if k.pterrno rtcb ≠ .ok then .ok (k.goto rtcb (.unlock 1))
  else mqWaitsendLoop k rtcb q msg

/-- `mq_send` and `mq_timedsend` with interrupts disabled. -/
def mqSendLocked (k : Kernel) (rtcb : Tid) (mqdes : Mqdes) (msg : Mqmsg) (abstime : Abstime) :
    Os Kernel :=
  if (k.mq mqdes.msgq).nmsgs < (k.mq mqdes.msgq).maxmsgs then
    .ok (k.goto rtcb (.sendAlloc mqdes.msgq msg))
  else if abstime = .expired then .ok ((k.setErrno rtcb .etimedout).goto rtcb (.unlock 1))
  else mqWaitsend k rtcb mqdes msg

/-- The insertion of the message in `mq_dosend`. -/
def mqInsert (k : Kernel) (q : MqId) (msg : Mqmsg) : Kernel :=
  k.setMq q { k.mq q with
    msglist := Prio.insert Mqmsg.priority msg (k.mq q).msglist
    nmsgs := (k.mq q).nmsgs + 1 }

/-- The wake-up of `mq_dosend`. -/
def mqWake (cfg : SchedConfig) (k : Kernel) (q : MqId) : Os Kernel :=
  if 0 < (k.mq q).nwaitnotempty then mqUnblock cfg k .notEmpty q else .ok k

/-- `mq_send` by an interrupt handler, up to the insertion of the message. When no message can be
allocated, nothing is sent. -/
def mqSendIrq (k : Kernel) (mqdes : Mqdes) (mail : List UInt8) (prio : ℤ) (alloc : Bool) : Kernel :=
  match mqVerifysend (k.mq mqdes.msgq) mqdes mail prio with
  | some _ => k
  | none =>
    if alloc then
      { mqInsert k mqdes.msgq ⟨prio.toNat, mail⟩ with irqNotify := mqdes.msgq :: k.irqNotify }
    else k

/-- `mq_send` by an interrupt handler, from the wake-up on. -/
def mqWakeIrq (cfg : SchedConfig) (k : Kernel) (q : MqId) : Os Kernel :=
  mqWake cfg { k with irqNotify := k.irqNotify.erase q } q

/-! ### Receiving a message -/

/-- `mq_verifyreceive`: the error number, if the arguments are rejected. -/
def mqVerifyreceive (m : Msgq) (mqdes : Mqdes) (msglen : ℕ) : Option Errno :=
  if mqdes.rdok = false then some .eperm
  else if msglen < m.maxmsgsize then some .emsgsize
  else none

/-- `mq_receive` and `mq_timedreceive` up to their `sched_lock`. -/
def mqReceive (k : Kernel) (mqdes : Mqdes) (msglen : ℕ) (abstime : Abstime) : Os Kernel := do
  let rtcb ← k.rtcb
  match mqVerifyreceive (k.mq mqdes.msgq) mqdes msglen with
  | some e => .ok (k.setErrno rtcb e)
  | none =>
    if abstime = .invalid then .ok (k.setErrno rtcb .einval)
    else do
      let s ← schedLock false k.sched
      .ok ({ k with sched := s }.goto rtcb (.recvLocked mqdes abstime))

/-- One turn of the loop of `mq_waitreceive`. -/
def mqWaitreceive (k : Kernel) (rtcb : Tid) (q : MqId) (nonblock : Bool) : Os Kernel :=
  match (k.mq q).msglist with
  | rcvmsg :: rest =>
    .ok ((k.setMq q { k.mq q with msglist := rest, nmsgs := (k.mq q).nmsgs - 1 }).goto rtcb
      (.recvDone q rcvmsg))
  | [] =>
    if nonblock then .ok ((k.setErrno rtcb .eagain).goto rtcb (.unlock 1))
    else mqBlock k rtcb .notEmpty q (.recvWait q)

/-- `mq_waitreceive` behind `up_block_task`. -/
def mqWaitreceiveTail (k : Kernel) (rtcb : Tid) (q : MqId) : Os Kernel :=
  if k.pterrno rtcb ≠ .ok then .ok (k.goto rtcb (.unlock 1))
  else mqWaitreceive k rtcb q false

/-- `mq_receive` and `mq_timedreceive` with interrupts disabled. -/
def mqReceiveLocked (k : Kernel) (rtcb : Tid) (mqdes : Mqdes) (abstime : Abstime) : Os Kernel :=
  if (k.mq mqdes.msgq).msglist = [] ∧ abstime = .expired then
    .ok ((k.setErrno rtcb .etimedout).goto rtcb (.unlock 1))
  else mqWaitreceive k rtcb mqdes.msgq mqdes.nonblock

/-- `mq_doreceive` up to the test of `nwaitnotfull`, which is made with interrupts enabled. -/
def mqDoreceive (k : Kernel) (rtcb : Tid) (q : MqId) : Kernel :=
  if 0 < (k.mq q).nwaitnotfull then k.goto rtcb (.recvUnblock q) else k.goto rtcb (.unlock 1)

/-! ### Signals -/

/-- The wake-ups of `sig_received`: `masked` is membership of the signal in `sigprocmask`, `waited`
in `sigwaitmask`. -/
def sigReceived (cfg : SchedConfig) (k : Kernel) (stcb : Tid) (masked waited : Bool) : Os Kernel :=
  match k.sched.state stcb with
  | .waitSig =>
    if masked && !waited then .ok k
    else do
      let s ← upUnblockTask cfg k.sched stcb
      .ok { k with sched := s }
  | .waitSem => if masked then .ok k else semWaitirq cfg k stcb .eintr
  | .waitMqNotEmpty | .waitMqNotFull => if masked then .ok k else mqWaitirq cfg k stcb .eintr
  | _ => .ok k

/-- `sig_deliver` up to the call of the signal handler. -/
def sigDeliver (k : Kernel) : Os Kernel := do
  let rtcb ← k.rtcb
  let s ← schedLock false k.sched
  .ok ({ k with
    sched := s
    saved := update k.saved rtcb ((k.pterrno rtcb, k.pc rtcb) :: k.saved rtcb) }.goto rtcb .user)

/-- `sig_deliver` behind the call of the signal handler. -/
def sigReturn (k : Kernel) : Os Kernel := do
  let rtcb ← k.rtcb
  match k.saved rtcb with
  | [] => .ok k
  | (e, pc) :: saved => do
    let s ← schedUnlock false k.sched
    .ok (({ k with
      sched := s
      saved := update k.saved rtcb saved }.setErrno rtcb e).goto rtcb pc)

/-! ### Tasks -/

/-- `task_create` up to the activation, on a zeroed TCB. -/
def taskCreate (k : Kernel) (t : Tid) (priority : ℤ) (roundRobin : Bool) : Os Kernel := do
  let s ← taskSchedsetup false k.sched t priority roundRobin
  .ok ({ k with
    sched := s
    tasks := t :: k.tasks
    initPriority := update k.initPriority t (priority % 256).toNat
    waitsem := update k.waitsem t none
    msgwaitq := update k.msgwaitq t none
    saved := update k.saved t [] }.setErrno t .ok |>.goto t .user)

/-- `task_delete` up to its `sched_unlock`. -/
def Kernel.taskDelete (k : Kernel) (pid : Tid) : Os Kernel := do
  let rtcb ← k.rtcb
  if pid = idle ∨ pid = rtcb then .error .exit
  else if pid ∈ k.tasks then do
    let s ← taskDeleteLists k.sched pid
    .ok ({ k with sched := s }.goto rtcb (.deleteTail pid))
  else do
    let s ← schedLock false k.sched
    let s ← schedUnlock false s
    .ok { k with sched := s }

/-- The lists while `task_restart` holds the pre-emption lock: the task leaves its list, gets its
initial priority, and is activated from `g_inactivetasks`. -/
def taskRestartLists (cfg : SchedConfig) (s : Sched) (tcb : Tid) (initPriority : ℕ) : Os Sched :=
  match (s.state tcb).list with
  | none => .error .nullDeref
  | some L =>
    let s := ((s.dqRem tcb L).setState tcb .invalid).setPrio tcb initPriority
    upUnblockTask cfg (s.addInactive tcb) tcb

/-- `task_restart`. The error returns leave the pre-emption lock taken. -/
def taskRestart (cfg : SchedConfig) (k : Kernel) (pid : Tid) : Os Kernel := do
  let rtcb ← k.rtcb
  let s ← schedLock false k.sched
  if pid = idle ∨ pid = rtcb ∨ pid ∉ k.tasks then .ok { k with sched := s }
  else do
    let s ← taskRestartLists cfg s pid (k.initPriority pid)
    let s ← schedUnlock false s
    .ok ({ k with sched := s, saved := update k.saved pid [] }.goto pid .user)

/-! ### Going on -/

/-- The running task runs the next section of the call it is in. -/
def resume (cfg : SchedConfig) (k : Kernel) : Os (Kernel × KEvent) := do
  let rtcb ← k.rtcb
  match k.pc rtcb with
  | .user => .ok (k, .internal)
  | .semWait _ => .ok ((semWaitTail k rtcb).1, .internal)
  | .sendLocked mqdes msg abstime => do
    let k ← mqSendLocked k rtcb mqdes msg abstime
    .ok (k, .internal)
  | .sendWait q msg => do
    let k ← mqWaitsendTail k rtcb q msg
    .ok (k, .internal)
  | .sendAlloc q msg => do
    let s ← schedLock false k.sched
    .ok ({ k with sched := s }.goto rtcb (.sendInsert q msg), .internal)
  | .sendInsert q msg => .ok ((mqInsert k q msg).goto rtcb (.sendNotify q), .internal)
  | .sendNotify q => do
    let k ← mqWake cfg (k.goto rtcb (.unlock 2)) q
    .ok (k, .internal)
  | .recvLocked mqdes abstime => do
    let k ← mqReceiveLocked k rtcb mqdes abstime
    .ok (k, .internal)
  | .recvWait q => do
    let k ← mqWaitreceiveTail k rtcb q
    .ok (k, .internal)
  | .recvDone q msg => .ok (mqDoreceive k rtcb q, .received rtcb q msg)
  | .recvUnblock q => do
    let k ← mqUnblock cfg (k.goto rtcb (.unlock 1)) .notFull q
    .ok (k, .internal)
  | .unlock 0 => .ok (k.goto rtcb .user, .internal)
  | .unlock (n + 1) => do
    let s ← schedUnlock false k.sched
    .ok ({ k with sched := s }.goto rtcb (.unlock n), .internal)
  | .deleteTail t => .ok ({ k with tasks := k.tasks.erase t }.goto rtcb .user, .internal)

/-- The kernel when `os_start` has added the idle task to the ready-to-run list: the semaphores have
the counts `v`, and the message queues are empty. -/
def Kernel.boot (v : SemId → ℕ) (maxmsgs : MqId → ℤ) (maxmsgsize : MqId → ℕ) : Kernel where
  sched := osStart
  tasks := [idle]
  initPriority _ := 0
  pterrno _ := .ok
  waitsem _ := none
  msgwaitq _ := none
  semcount s := v s
  mq q := ⟨[], maxmsgs q, 0, fun _ => 0, maxmsgsize q⟩
  pc _ := .user
  saved _ := []
  irqNotify := []

end NuttX
