import NuttX.Kernel.Model
import NuttX.Lib.Replay

/-!
# Runs of the kernel

A run is any interleaving of the steps of `NuttX.KOp`: calls of the running task, the sections with
which it goes on, and what interrupt handlers do in between. `NuttX.KRun` also records what each
step shows to the outside.

Whatever a step does, it touches the tasks that wait for semaphores and message queues in one of a
few ways: it takes or adds a count, a task joins one of the three lists, a task leaves one, or
nothing changes. `NuttX.WaitStep` lists the ways. `NuttX.WaitsInv` is the bookkeeping that is to
hold throughout: the number that an object stores of its waiters is the number of tasks in the list
that wait for it.
-/

namespace NuttX

open Function

/-! ### Runs -/

/-- The steps of the kernel. -/
inductive KOp
  | semWait (sem : SemId)
  | semTrywait (sem : SemId)
  | semTimedwait (sem : SemId) (abstime : Abstime)
  | semPost (sem : SemId)
  | mqSend (mqdes : Mqdes) (mail : List UInt8) (prio : ℤ) (abstime : Abstime)
  | mqReceive (mqdes : Mqdes) (msglen : ℕ) (abstime : Abstime)
  | resume
  | mqSendIrq (mqdes : Mqdes) (mail : List UInt8) (prio : ℤ) (alloc : Bool)
  | mqWakeIrq (q : MqId)
  | sigReceived (t : Tid) (masked waited : Bool)
  | sigDeliver
  | sigReturn
  | semTimeout (t : Tid)
  | mqTimeout (ev : MqEvent) (t : Tid)
  | sched (op : SchedOp)
  | taskCreate (t : Tid) (priority : ℤ) (roundRobin : Bool)
  | taskDelete (t : Tid)
  | taskRestart (t : Tid)
  deriving DecidableEq, Repr

namespace KOp

/-- The code of a step. -/
def run (cfg : SchedConfig) : KOp → Kernel → Os (Kernel × KEvent)
  | semWait sem, k => NuttX.semWait k sem
  | semTrywait sem, k => NuttX.semTrywait k sem
  | semTimedwait sem abstime, k => NuttX.semTimedwait k sem abstime
  | semPost sem, k => do
    let (k, stcb) ← NuttX.semPost cfg k sem
    .ok (k, .posted sem stcb)
  | mqSend mqdes mail prio abstime, k => do
    let k ← NuttX.mqSend k mqdes mail prio abstime
    .ok (k, .internal)
  | mqReceive mqdes msglen abstime, k => do
    let k ← NuttX.mqReceive k mqdes msglen abstime
    .ok (k, .internal)
  | resume, k => NuttX.resume cfg k
  | mqSendIrq mqdes mail prio alloc, k => .ok (NuttX.mqSendIrq k mqdes mail prio alloc, .internal)
  | mqWakeIrq q, k => do
    let k ← NuttX.mqWakeIrq cfg k q
    .ok (k, .internal)
  | sigReceived t masked waited, k => do
    let k ← NuttX.sigReceived cfg k t masked waited
    .ok (k, .internal)
  | sigDeliver, k => do
    let k ← NuttX.sigDeliver k
    .ok (k, .internal)
  | sigReturn, k => do
    let k ← NuttX.sigReturn k
    .ok (k, .internal)
  | semTimeout t, k => do
    let k ← NuttX.semTimeout cfg k t
    .ok (k, .internal)
  | mqTimeout ev t, k => do
    let k ← NuttX.mqTimeout cfg k ev t
    .ok (k, .internal)
  | sched op, k => do
    let s ← op.run cfg k.sched
    .ok ({ k with sched := s }, .internal)
  | taskCreate t priority roundRobin, k => do
    let k ← NuttX.taskCreate k t priority roundRobin
    .ok (k, .internal)
  | taskDelete t, k => do
    let k ← k.taskDelete t
    .ok (k, .internal)
  | taskRestart t, k => do
    let k ← NuttX.taskRestart cfg k t
    .ok (k, .internal)

/-- The running task is not inside a call. -/
def AtUser (k : Kernel) : Prop := ∀ r ∈ (k.sched.list .readytorun).head?, k.pc r = .user

/-- When a step may be taken: a task calls the kernel when it is not inside a call, and tasks are
set up with a free TCB. -/
def Legal : KOp → Kernel → Prop
  | semWait _, k | semTrywait _, k | semTimedwait _ _, k => AtUser k
  | mqSend _ _ _ _, k | mqReceive _ _ _, k | sigReturn, k => AtUser k
  | taskDelete _, k | taskRestart _, k => AtUser k
  | taskCreate t priority _, k =>
    AtUser k ∧ t ∉ k.tasks ∧ k.sched.state t = .invalid ∧ LegalPriority priority
  | mqWakeIrq q, k => q ∈ k.irqNotify
  | sched (.create _ _ _ _), _ => False
  | sched (.block st), k => AtUser k ∧ st = .waitSig
  | sched (.unblock t), k => k.sched.state t = .inactive
  | sched (.lock irq), k | sched (.unlock irq), k => irq = false → AtUser k
  | sched (.setPriority t priority), k => k.sched.state t ≠ .invalid ∧ LegalPriority priority
  | semPost _, _ | resume, _ | mqSendIrq _ _ _ _, _ | sigReceived _ _ _, _ | sigDeliver, _
  | semTimeout _, _ | mqTimeout _ _, _ | sched .timeslice, _ => True

instance (k : Kernel) : Decidable (AtUser k) := inferInstanceAs (Decidable (∀ r ∈ _, _))

instance (k : Kernel) : (op : KOp) → Decidable (op.Legal k)
  | semWait _ | semTrywait _ | semTimedwait _ _ | mqSend _ _ _ _ | mqReceive _ _ _ | sigReturn
  | taskDelete _ | taskRestart _ => inferInstanceAs (Decidable (AtUser k))
  | taskCreate _ _ _ | sched (.block _) | sched (.setPriority _ _) =>
    inferInstanceAs (Decidable (_ ∧ _))
  | mqWakeIrq q => inferInstanceAs (Decidable (q ∈ k.irqNotify))
  | sched (.create _ _ _ _) => inferInstanceAs (Decidable False)
  | sched (.unblock t) => inferInstanceAs (Decidable (k.sched.state t = .inactive))
  | sched (.lock _) | sched (.unlock _) => inferInstanceAs (Decidable (_ → AtUser k))
  | semPost _ | resume | mqSendIrq _ _ _ _ | sigReceived _ _ _ | sigDeliver | semTimeout _
  | mqTimeout _ _ | sched .timeslice => inferInstanceAs (Decidable True)

end KOp

/-- The task waits for a semaphore or a message queue. -/
def Kernel.Waiting (k : Kernel) (t : Tid) : Prop :=
  k.sched.state t = .waitSem ∨ k.sched.state t = .waitMqNotEmpty ∨ k.sched.state t = .waitMqNotFull

instance (k : Kernel) (t : Tid) : Decidable (k.Waiting t) :=
  inferInstanceAs (Decidable (_ ∨ _ ∨ _))

/-- The step does not delete or restart a task that waits. -/
def KOp.SparesWaiters : KOp → Kernel → Prop
  | taskDelete t, k | taskRestart t, k => ¬ k.Waiting t
  | _, _ => True

instance (k : Kernel) : (op : KOp) → Decidable (op.SparesWaiters k)
  | .taskDelete t | .taskRestart t => inferInstanceAs (Decidable (¬ k.Waiting t))
  | .semWait _ | .semTrywait _ | .semTimedwait _ _ | .semPost _ | .mqSend _ _ _ _
  | .mqReceive _ _ _ | .resume | .mqSendIrq _ _ _ _ | .mqWakeIrq _ | .sigReceived _ _ _
  | .sigDeliver | .sigReturn | .semTimeout _ | .mqTimeout _ _ | .sched _ | .taskCreate _ _ _ =>
    inferInstanceAs (Decidable True)

/-- The runs from `k₀` whose steps all satisfy `P`, with what the steps have shown, the latest
first. -/
inductive KRun (cfg : SchedConfig) (P : KOp → Kernel → Prop) (k₀ : Kernel) :
    List KEvent → Kernel → Prop
  | boot : KRun cfg P k₀ [] k₀
  | step {tr : List KEvent} {k k' : Kernel} {ev : KEvent} (op : KOp) : KRun cfg P k₀ tr k →
      op.Legal k → P op k → op.run cfg k = .ok (k', ev) → KRun cfg P k₀ (ev :: tr) k'

/-- A run that is given by its steps. -/
theorem KRun.replay (cfg : SchedConfig) (P : KOp → Kernel → Prop) [∀ op k, Decidable (P op k)]
    (k0 : Kernel) (ops : List KOp)
    (h : (NuttX.replay (fun op k => (op.run cfg k).toOption) List.cons
      (fun _ k op _ _ => op.Legal k ∧ P op k) ops [] k0).isSome) :
    KRun cfg P k0 (Option.get _ h).1 (Option.get _ h).2 :=
  replay_sound (fun op hrun hop hc => hrun.step op hc.1 hc.2 (toOption_eq_some.mp hop)) .boot
    (Option.some_get h).symm

/-! ### The bookkeeping -/

/-- The lists of the tasks that wait for semaphores and message queues. -/
def TaskList.isWait : TaskList → Bool
  | waitingforsemaphore | waitingformqnotempty | waitingformqnotfull => true
  | _ => false

/-- The semaphore that an event is about. -/
def KEvent.sem : KEvent → Option SemId
  | took _ sem | waits _ sem | posted sem _ => some sem
  | received _ _ _ | internal => none

/-- The part of the kernel that the waiting tasks are about. -/
structure Waits where
  sched : Sched
  waitsem : Tid → Option SemId
  semcount : SemId → ℤ
  msgwaitq : Tid → Option MqId
  nwait : MqId → MqEvent → ℤ

def Kernel.waits (k : Kernel) : Waits :=
  ⟨k.sched, k.waitsem, k.semcount, k.msgwaitq, fun q => (k.mq q).nwait⟩

def Waits.semList (v : Waits) : List Tid := v.sched.list .waitingforsemaphore

def Waits.mqList (v : Waits) (e : MqEvent) : List Tid := v.sched.list e.list

/-- The numbers that semaphores and message queues store of their waiters are right. -/
structure WaitsInv (v : Waits) : Prop where
  sched : SchedInv v.sched
  sem : ∀ s, (Waiters.count v.waitsem s v.semList : ℤ) = max (-(v.semcount s)) 0
  mq : ∀ e q, v.nwait q e = Waiters.count v.msgwaitq q (v.mqList e)
  waitsem_isSome : ∀ t ∈ v.semList, (v.waitsem t).isSome
  msgwaitq_isSome : ∀ e, ∀ t ∈ v.mqList e, (v.msgwaitq t).isSome

/-- Nothing changes for the tasks that wait for semaphores. -/
structure SemKept (v v' : Waits) : Prop where
  list : v'.semList = v.semList
  prio : ∀ c ∈ v.semList, v'.sched.prio c = v.sched.prio c
  waitsem : ∀ c ∈ v.semList, v'.waitsem c = v.waitsem c

/-- Nothing changes for the tasks that wait for message queues. -/
structure MqKept (v v' : Waits) : Prop where
  list : ∀ e, v'.mqList e = v.mqList e
  msgwaitq : ∀ e, ∀ c ∈ v.mqList e, v'.msgwaitq c = v.msgwaitq c
  nwait : v'.nwait = v.nwait

/-- The task `w` stops waiting for the semaphore `s`, which is given a count. -/
structure SemLeft (v v' : Waits) (w : Tid) (s : SemId) : Prop where
  mem : w ∈ v.semList
  waits : v.waitsem w = some s
  list : v'.semList = v.semList.erase w
  prio : v'.sched.prio = v.sched.prio
  waitsem : v'.waitsem = update v.waitsem w none
  semcount : v'.semcount = update v.semcount s (v.semcount s + 1)

/-- The task `r` begins to wait for the semaphore `s`. -/
structure SemJoined (v v' : Waits) (r : Tid) (s : SemId) : Prop where
  notMem : r ∉ v.semList
  list : v'.semList = Prio.insert v.sched.prio r v.semList
  prio : v'.sched.prio = v.sched.prio
  waitsem : v'.waitsem = update v.waitsem r (some s)
  nonpos : v.semcount s ≤ 0
  semcount : v'.semcount = update v.semcount s (v.semcount s - 1)

/-- The task `w` stops waiting for the event `e` at the message queue `q`. -/
structure MqLeft (v v' : Waits) (w : Tid) (e : MqEvent) (q : MqId) : Prop where
  mem : w ∈ v.mqList e
  waits : v.msgwaitq w = some q
  list : ∀ e', v'.mqList e' = (v.mqList e').erase w
  msgwaitq : v'.msgwaitq = update v.msgwaitq w none
  nwait : ∀ q' e', v'.nwait q' e' = v.nwait q' e' + if q' = q ∧ e' = e then -1 else 0

/-- The task `r` begins to wait for the event `e` at the message queue `q`. -/
structure MqJoined (v v' : Waits) (r : Tid) (e : MqEvent) (q : MqId) : Prop where
  notMem : ∀ e', r ∉ v.mqList e'
  list : (v'.mqList e).Perm (r :: v.mqList e)
  other : ∀ e', e' ≠ e → v'.mqList e' = v.mqList e'
  msgwaitq : v'.msgwaitq = update v.msgwaitq r (some q)
  nwait : ∀ q' e', v'.nwait q' e' = v.nwait q' e' + if q' = q ∧ e' = e then 1 else 0

/-- **What a step can do to the waiting tasks.** -/
inductive WaitStep (op : KOp) (v v' : Waits) : KEvent → Prop
  | keep {ev : KEvent} (silent : ev.sem = none) (sem : SemKept v v')
      (count : v'.semcount = v.semcount) (mq : MqKept v v') : WaitStep op v v' ev
  | take (r : Tid) (s : SemId) (sem : SemKept v v') (pos : 0 < v.semcount s)
      (count : v'.semcount = update v.semcount s (v.semcount s - 1))
      (mq : MqKept v v') : WaitStep op v v' (.took r s)
  | post (s : SemId) (sem : SemKept v v') (nonneg : 0 ≤ v.semcount s)
      (count : v'.semcount = update v.semcount s (v.semcount s + 1))
      (mq : MqKept v v') : WaitStep op v v' (.posted s none)
  | wake (s : SemId) (w : Tid) (first : Waiters.first v.waitsem s v.semList = some w)
      (left : SemLeft v v' w s) (mq : MqKept v v') : WaitStep op v v' (.posted s (some w))
  | cancel (s : SemId) (w : Tid) (left : SemLeft v v' w s) (mq : MqKept v v') :
      WaitStep op v v' .internal
  | join (r : Tid) (s : SemId) (joined : SemJoined v v' r s) (mq : MqKept v v') :
      WaitStep op v v' (.waits r s)
  | mqLeave (w : Tid) (e : MqEvent) (q : MqId) (sem : SemKept v v')
      (count : v'.semcount = v.semcount) (left : MqLeft v v' w e q) : WaitStep op v v' .internal
  | mqJoin (r : Tid) (e : MqEvent) (q : MqId) (sem : SemKept v v')
      (count : v'.semcount = v.semcount) (joined : MqJoined v v' r e q) :
      WaitStep op v v' .internal
  | reorder (t : Tid) (p : ℤ) (eq : op = .sched (.setPriority t p))
      (list : ∀ L, L.isWait = true → (v'.sched.list L).Perm (v.sched.list L))
      (waitsem : v'.waitsem = v.waitsem) (count : v'.semcount = v.semcount)
      (msgwaitq : v'.msgwaitq = v.msgwaitq) (nwait : v'.nwait = v.nwait) :
      WaitStep op v v' .internal

end NuttX
