import NuttX.Os
import NuttX.Lib.PrioList

/-!
# The scheduler's task lists

Every task control block (TCB) sits in one of the lists of `sched/os_start.c`, and the table
`g_tasklisttable` says which one from the state stored in the TCB. This file models the functions
that move TCBs between the lists: `sched_addreadytorun.c`, `sched_removereadytorun.c`,
`sched_addblocked.c`, `sched_removeblocked.c`, `sched_mergepending.c`, `sched_setpriority.c`,
`sched_yield.c`, `sched_lock.c`, `sched_unlock.c`, the time slicing of `sched_processtimer.c`, the
set-up of a new TCB in `task_setup.c`, and the four context-switching functions `up_block_task`,
`up_unblock_task`, `up_release_pending` and `up_reprioritize_rtr` of `arch/sim`.

A doubly linked list of TCBs is a `List` of their addresses, so `flink` is the next element and
`blink` is null at the head. The task at the head of `g_readytorun` is the one that runs: a
context switch is a change of that head, and what is saved and restored of the processor is left
out. Each function runs with interrupts disabled, or changes nothing that an interrupt handler
could see half done, so each is one step.

Of a TCB only the fields that these functions read or write are here. The fields that belong to
semaphores, message queues and priority inheritance are kept by the models of those.
-/

namespace NuttX

open Function

abbrev Tid := ℕ

def idle : Tid := 0

/-- `tstate_t`. -/
inductive TaskState
  | invalid
  | pending
  | readyToRun
  | running
  | inactive
  | waitSem
  | waitSig
  | waitMqNotEmpty
  | waitMqNotFull
  deriving DecidableEq, Repr

/-- The task lists of `os_start.c`. -/
inductive TaskList
  | readytorun
  | pendingtasks
  | inactivetasks
  | waitingforsemaphore
  | waitingforsignal
  | waitingformqnotempty
  | waitingformqnotfull
  deriving DecidableEq, Repr

namespace TaskState

/-- The list of `g_tasklisttable` for a state. -/
def list : TaskState → Option TaskList
  | invalid => none
  | pending => some .pendingtasks
  | readyToRun => some .readytorun
  | running => some .readytorun
  | inactive => some .inactivetasks
  | waitSem => some .waitingforsemaphore
  | waitSig => some .waitingforsignal
  | waitMqNotEmpty => some .waitingformqnotempty
  | waitMqNotFull => some .waitingformqnotfull

/-- Whether the list of `g_tasklisttable` for a state is prioritized. -/
def prioritized : TaskState → Bool
  | pending | readyToRun | running | waitSem | waitMqNotEmpty | waitMqNotFull => true
  | invalid | inactive | waitSig => false

/-- Between `FIRST_BLOCKED_STATE` and `LAST_BLOCKED_STATE`. -/
def isBlocked : TaskState → Bool
  | inactive | waitSem | waitSig | waitMqNotEmpty | waitMqNotFull => true
  | invalid | pending | readyToRun | running => false

/-- Between `FIRST_READY_TO_RUN_STATE` and `LAST_READY_TO_RUN_STATE`. -/
def isReadyToRun : TaskState → Bool
  | readyToRun | running => true
  | _ => false

end TaskState

/-- The part of a TCB that the scheduler works on. -/
structure Tcb where
  schedPriority : ℕ
  taskState : TaskState
  lockcount : ℕ
  timeslice : ℕ
  roundRobin : Bool
  deriving DecidableEq, Repr

/-- The TCBs and the task lists. -/
structure Sched where
  tcb : Tid → Tcb
  list : TaskList → List Tid

/-- The configuration of time slicing. -/
structure SchedConfig where
  rrInterval : ℕ
  msecPerTick : ℕ
  deriving DecidableEq, Repr

def schedPriorityMin : ℕ := 1

def schedPriorityMax : ℕ := 255

def maxLockCount : ℕ := 127

namespace Sched

variable (s : Sched)

def prio (t : Tid) : ℕ := (s.tcb t).schedPriority

def state (t : Tid) : TaskState := (s.tcb t).taskState

def lockcount (t : Tid) : ℕ := (s.tcb t).lockcount

def setPrio (t : Tid) (p : ℕ) : Sched :=
  { s with tcb := update s.tcb t { s.tcb t with schedPriority := p } }

def setState (t : Tid) (st : TaskState) : Sched :=
  { s with tcb := update s.tcb t { s.tcb t with taskState := st } }

def setLock (t : Tid) (n : ℕ) : Sched :=
  { s with tcb := update s.tcb t { s.tcb t with lockcount := n } }

def setTimeslice (t : Tid) (n : ℕ) : Sched :=
  { s with tcb := update s.tcb t { s.tcb t with timeslice := n } }

def setList (L : TaskList) (l : List Tid) : Sched :=
  { s with list := update s.list L l }

def dqRem (t : Tid) (L : TaskList) : Sched := s.setList L ((s.list L).erase t)

end Sched

def flink (t : Tid) : List Tid → Option Tid
  | a :: b :: l => if a = t then some b else flink t (b :: l)
  | _ => none

/-! ### Moving a TCB between lists -/

/-- `sched_addprioritized`. The result is true when the TCB became the head of the list. -/
def schedAddprioritized (s : Sched) (tcb : Tid) (L : TaskList) : Os (Sched × Bool) := do
  osAssert (decide (schedPriorityMin ≤ s.prio tcb))
  .ok (s.setList L (Prio.insert s.prio tcb (s.list L)),
    (Prio.ahead s.prio (s.prio tcb) (s.list L)).isEmpty)

/-- `sched_addreadytorun`. The result is true when the running task has changed. -/
def schedAddreadytorun (s : Sched) (btcb : Tid) : Os (Sched × Bool) :=
  match s.list .readytorun with
  | [] => .error .nullDeref
  | rtcb :: _ =>
    if s.lockcount rtcb ≠ 0 ∧ s.prio rtcb < s.prio btcb then do
      let (s, _) ← schedAddprioritized s btcb .pendingtasks
      .ok (s.setState btcb .pending, false)
    else do
      let (s, first) ← schedAddprioritized s btcb .readytorun
      if first then
        match flink btcb (s.list .readytorun) with
        | none => .error .assert
        | some next => do
          osAssert (decide (s.lockcount rtcb = 0))
          .ok ((s.setState btcb .running).setState next .readyToRun, true)
      else .ok (s.setState btcb .readyToRun, false)

/-- `sched_removereadytorun`. The result is true when the running task has changed. -/
def schedRemovereadytorun (s : Sched) (rtcb : Tid) : Os (Sched × Bool) :=
  if (s.list .readytorun).head? = some rtcb then
    match flink rtcb (s.list .readytorun) with
    | none => .error .assert
    | some next =>
      .ok (((s.setState next .running).dqRem rtcb .readytorun).setState rtcb .invalid, true)
  else .ok ((s.dqRem rtcb .readytorun).setState rtcb .invalid, false)

def schedAddblocked (s : Sched) (btcb : Tid) (st : TaskState) : Os Sched := do
  osAssert st.isBlocked
  match st.list with
  | none => .error .nullDeref
  | some L =>
    if st.prioritized then do
      let (s, _) ← schedAddprioritized s btcb L
      .ok (s.setState btcb st)
    else .ok ((s.setList L (s.list L ++ [btcb])).setState btcb st)

def schedRemoveblocked (s : Sched) (btcb : Tid) : Os Sched := do
  osAssert (s.state btcb).isBlocked
  match (s.state btcb).list with
  | none => .error .nullDeref
  | some L => .ok ((s.dqRem btcb L).setState btcb .invalid)

/-- The loop of `sched_mergepending`: the part `done` of `g_readytorun` has been passed and `rest`
starts at `rtrtcb`. -/
def mergeLoop : List Tid → List Tid → List Tid → Bool → Sched → Os (Sched × Bool)
  | [], done, rest, ret, s => .ok (s.setList .readytorun (done ++ rest), ret)
  | pndtcb :: pnd, done, rest, ret, s =>
    match Prio.behind s.prio (s.prio pndtcb) rest with
    | [] => .error (.panic .noIdleTask)
    | rtrtcb :: rest' =>
      if done ++ Prio.ahead s.prio (s.prio pndtcb) rest = [] then
        mergeLoop pnd [] (pndtcb :: rtrtcb :: rest') true
          ((s.setState rtrtcb .readyToRun).setState pndtcb .running)
      else
        mergeLoop pnd (done ++ Prio.ahead s.prio (s.prio pndtcb) rest) (pndtcb :: rtrtcb :: rest')
          ret (s.setState pndtcb .readyToRun)

/-- `sched_mergepending`. The result is true when the running task has changed. -/
def schedMergepending (s : Sched) : Os (Sched × Bool) := do
  let (s, ret) ← mergeLoop (s.list .pendingtasks) [] (s.list .readytorun) false s
  .ok (s.setList .pendingtasks [], ret)

/-- The pending tasks are merged, if there are any. -/
def mergeIfPending (s : Sched) : Os Sched :=
  if s.list .pendingtasks = [] then .ok s
  else do
    let (s, _) ← schedMergepending s
    .ok s

/-! ### Context switches -/

def upBlockTask (s : Sched) (tcb : Tid) (st : TaskState) : Os Sched :=
  if (s.state tcb).isReadyToRun then do
    let (s, _) ← schedRemovereadytorun s tcb
    let s ← schedAddblocked s tcb st
    mergeIfPending s
  else .error (.panic .badBlockState)

def upUnblockTask (cfg : SchedConfig) (s : Sched) (tcb : Tid) : Os Sched :=
  if (s.state tcb).isBlocked then do
    let s ← schedRemoveblocked s tcb
    let s := if 0 < cfg.rrInterval then
      s.setTimeslice tcb (cfg.rrInterval / cfg.msecPerTick) else s
    let (s, _) ← schedAddreadytorun s tcb
    .ok s
  else .error (.panic .badUnblockState)

def upReleasePending (s : Sched) : Os Sched := do
  let (s, _) ← schedMergepending s
  .ok s

def upReprioritizeRtr (s : Sched) (tcb : Tid) (priority : ℕ) : Os Sched :=
  if (s.state tcb).isReadyToRun ∧ schedPriorityMin ≤ priority then do
    let (s, removed) ← schedRemovereadytorun s tcb
    let (s, added) ← schedAddreadytorun (s.setPrio tcb priority) tcb
    if removed ^^ added then mergeIfPending s else .ok s
  else .error (.panic .badReprioritizeState)

/-! ### Priorities, locks and time slices -/

def schedSetpriority (s : Sched) (tcb : Tid) (schedPriority : ℤ) : Os (Sched × Status) :=
  if schedPriority < schedPriorityMin ∨ schedPriorityMax < schedPriority then .ok (s, .error)
  else
    match s.state tcb with
    | .running =>
      match flink tcb (s.list .readytorun) with
      | none => .error .nullDeref
      | some next =>
        if schedPriority ≤ s.prio next then do
          let s ← upReprioritizeRtr s tcb schedPriority.toNat
          .ok (s, .ok)
        else .ok (s.setPrio tcb schedPriority.toNat, .ok)
    | .readyToRun =>
      match (s.list .readytorun).head? with
      | none => .error .nullDeref
      | some rtcb =>
        if s.prio rtcb < schedPriority then do
          let s ← upReprioritizeRtr s tcb schedPriority.toNat
          .ok (s, .ok)
        else do
          let (s, removed) ← schedRemovereadytorun s tcb
          osAssert !removed
          let (s, added) ← schedAddreadytorun (s.setPrio tcb schedPriority.toNat) tcb
          osAssert !added
          .ok (s, .ok)
    | st =>
      if st.prioritized then
        match st.list with
        | none => .error .nullDeref
        | some L => do
          let (s, _) ← schedAddprioritized ((s.dqRem tcb L).setPrio tcb schedPriority.toNat) tcb L
          .ok (s, .ok)
      else .ok (s.setPrio tcb schedPriority.toNat, .ok)

def schedYield (s : Sched) : Os (Sched × Status) :=
  match s.list .readytorun with
  | [] => .error .nullDeref
  | rtcb :: _ => schedSetpriority s rtcb (s.prio rtcb)

/-- `sched_lock`; `irq` is `up_interrupt_context()`. -/
def schedLock (irq : Bool) (s : Sched) : Os Sched :=
  match s.list .readytorun with
  | [] => .ok s
  | rtcb :: _ =>
    if irq then .ok s
    else do
      osAssert (decide (s.lockcount rtcb < maxLockCount))
      .ok (s.setLock rtcb (s.lockcount rtcb + 1))

/-- `sched_unlock`; `irq` is `up_interrupt_context()`. -/
def schedUnlock (irq : Bool) (s : Sched) : Os Sched :=
  match s.list .readytorun with
  | [] => .ok s
  | rtcb :: _ =>
    if irq then .ok s
    else
      let s := s.setLock rtcb (s.lockcount rtcb - 1)
      if s.lockcount rtcb = 0 ∧ s.list .pendingtasks ≠ [] then upReleasePending s
      else .ok s

def schedProcessTimeslice (cfg : SchedConfig) (s : Sched) : Os Sched :=
  if cfg.rrInterval = 0 then .ok s
  else
    match s.list .readytorun with
    | [] => .error .nullDeref
    | rtcb :: rest =>
      if (s.tcb rtcb).roundRobin then
        if (s.tcb rtcb).timeslice ≤ 1 then
          if s.lockcount rtcb = 0 then
            let s := s.setTimeslice rtcb (cfg.rrInterval / cfg.msecPerTick)
            match rest with
            | [] => .ok s
            | next :: _ =>
              if s.prio rtcb ≤ s.prio next then upReprioritizeRtr s rtcb (s.prio rtcb)
              else .ok s
          else .ok s
        else .ok (s.setTimeslice rtcb ((s.tcb rtcb).timeslice - 1))
      else .ok s

/-! ### New tasks -/

/-- `task_schedsetup` on a zeroed TCB, for the fields modelled here. -/
def taskSchedsetup (irq : Bool) (s : Sched) (tcb : Tid) (priority : ℤ) (roundRobin : Bool) :
    Os Sched := do
  let s : Sched :=
    { s with
      tcb := update s.tcb tcb ⟨(priority % 256).toNat, .invalid, 0, 0, roundRobin⟩ }
  let s ← schedLock irq s
  let s := (s.setList .inactivetasks (tcb :: s.list .inactivetasks)).setState tcb .inactive
  schedUnlock irq s

/-- The task lists when `os_start` has added the idle task to the ready-to-run list. -/
def osStart : Sched where
  tcb t := ⟨0, if t = idle then .running else .invalid, 0, 0, false⟩
  list
    | .readytorun => [idle]
    | _ => []

end NuttX
