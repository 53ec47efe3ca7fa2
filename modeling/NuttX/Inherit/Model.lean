import NuttX.Lib.Inheritance
import NuttX.Kernel.Waits

/-!
# Semaphores with priority inheritance

The semaphores as they are built with `CONFIG_PRIORITY_INHERITANCE`: `sem_holder.c`,
`sched_reprioritize.c`, and `sem_wait.c`, `sem_post.c` and `sem_waitirq.c` with the parts that this
option adds. Every semaphore keeps a list of the tasks that hold counts of it. A task that has to
wait boosts the priorities of the holders; when it has been given a count, or has given up, the
priorities are restored.

As in `NuttX.Kernel`, a step is what runs without another task or an interrupt handler coming in
between. Restoring the priority of the running task can make another task the running one, although
pre-emption is locked: `up_reprioritize_rtr` does not look at `lockcount`. Then the rest of the call
runs only when the task is at the head of `g_readytorun` again, and `NuttX.PiKernel.pc` has the
place. In an interrupt handler the call goes on at once.
-/

namespace NuttX

open Function

/-- The configuration of the kernel. -/
structure PiConfig extends SchedConfig where
  nnestprio : ℕ
  deriving DecidableEq, Repr

/-- A `struct semholder_s` that is in use. -/
structure Semholder where
  holder : Tid
  counts : ℤ
  deriving DecidableEq, Repr

/-- `sem_t`. -/
structure PiSem where
  semcount : ℤ
  hlist : Option Semholder
  flink : List (ℕ × Semholder)
  deriving DecidableEq, Repr

/-- Where a task goes on when it runs next. -/
inductive PiPc
  | user
  | semWait (sem : SemId)
  | semPost (sem : SemId)
  | semCanceled (wtcb : Tid) (sem : SemId) (errcode : Errno) (next : Option ℕ)
  deriving DecidableEq, Repr

/-- The state of the kernel. -/
structure PiKernel where
  sched : Sched
  tasks : List Tid
  basePriority : Tid → ℕ
  pendReprios : Tid → List ℕ
  pterrno : Tid → Errno
  waitsem : Tid → Option SemId
  sem : SemId → PiSem
  freeholders : List ℕ
  owner : ℕ → Option SemId
  pc : Tid → PiPc
  saved : Tid → List (Errno × PiPc)

/-- What a step shows to the outside. -/
inductive PiEvent
  | took (t : Tid) (sem : SemId)
  | waits (t : Tid) (sem : SemId) (priority : ℕ)
  | internal
  deriving DecidableEq, Repr

namespace PiSem

variable (m : PiSem)

def holders : List Semholder := m.hlist.toList ++ m.flink.map Prod.snd

/-- `sem_findholder`. -/
def find (htcb : Tid) : Option Semholder := m.holders.find? fun c => c.holder = htcb

/-- Change the container of a task, which has at most one in the list. -/
def modify (htcb : Tid) (f : Semholder → Semholder) : PiSem :=
  { m with
    hlist := m.hlist.map fun c => if c.holder = htcb then f c else c
    flink := m.flink.map fun c => (c.1, if c.2.holder = htcb then f c.2 else c.2) }

end PiSem

namespace PiKernel

variable (k : PiKernel)

/-- The task at the head of `g_readytorun`. -/
def rtcb : Os Tid :=
  match k.sched.list .readytorun with
  | [] => .error .nullDeref
  | rtcb :: _ => .ok rtcb

def setErrno (t : Tid) (e : Errno) : PiKernel :=
  { k with pterrno := update k.pterrno t e }

def goto (t : Tid) (pc : PiPc) : PiKernel := { k with pc := update k.pc t pc }

def setSem (sem : SemId) (m : PiSem) : PiKernel := { k with sem := update k.sem sem m }

def addCount (sem : SemId) (d : ℤ) : PiKernel :=
  k.setSem sem { k.sem sem with semcount := (k.sem sem).semcount + d }

def holders (sem : SemId) : List Tid := (k.sem sem).holders.map Semholder.holder

/-- The containers in the list of holders, with their places in `g_holderalloc`. -/
def containers (sem : SemId) : List (Option ℕ × Tid) :=
  (k.sem sem).hlist.toList.map (fun c => (none, c.holder)) ++
    (k.sem sem).flink.map fun c => (some c.1, c.2.holder)

/-- The containers from `next` on, in whatever list it is now. In the list of the free containers
there are no holders. -/
def containersFrom (next : Option ℕ) : List (Option ℕ × Tid) :=
  match next with
  | none => []
  | some i =>
    match k.owner i with
    | none => []
    | some sem => ((k.sem sem).flink.dropWhile fun c => c.1 ≠ i).map fun c => (some c.1, c.2.holder)

end PiKernel

/-! ### Lists of holders -/

/-- `sem_allocholder`, for the task `rtcb`. -/
def semAllocholder (k : PiKernel) (sem : SemId) (rtcb : Tid) : Option PiKernel :=
  match (k.sem sem).hlist with
  | none => some (k.setSem sem { k.sem sem with hlist := some ⟨rtcb, 0⟩ })
  | some _ =>
    match k.freeholders with
    | [] => none
    | i :: free => some ({ k with
        freeholders := free
        owner := update k.owner i (some sem) }.setSem sem
          { k.sem sem with flink := (i, ⟨rtcb, 0⟩) :: (k.sem sem).flink })

/-- One more count in the container of the task. -/
def PiKernel.addHeld (k : PiKernel) (sem : SemId) (rtcb : Tid) : PiKernel :=
  k.setSem sem ((k.sem sem).modify rtcb fun c => { c with counts := c.counts + 1 })

/-- `sem_addholder`. Without a free container nothing is recorded. -/
def semAddholder (k : PiKernel) (sem : SemId) (rtcb : Tid) : PiKernel :=
  match (k.sem sem).find rtcb with
  | some _ => k.addHeld sem rtcb
  | none =>
    match semAllocholder k sem rtcb with
    | none => k
    | some k => k.addHeld sem rtcb

def semReleaseholder (k : PiKernel) (sem : SemId) (rtcb : Tid) : PiKernel :=
  k.setSem sem ((k.sem sem).modify rtcb fun c =>
    if 0 < c.counts then { c with counts := c.counts - 1 } else c)

/-- `sem_freeholder`, for the container of the task `htcb`. -/
def semFreeholder (k : PiKernel) (sem : SemId) (htcb : Tid) : PiKernel :=
  if (k.sem sem).hlist.map Semholder.holder = some htcb then
    k.setSem sem { k.sem sem with hlist := none }
  else
    match (k.sem sem).flink.find? fun c => c.2.holder = htcb with
    | none => k
    | some c => { k with
        freeholders := c.1 :: k.freeholders
        owner := update k.owner c.1 none }.setSem sem
          { k.sem sem with flink := (k.sem sem).flink.eraseP fun c => c.2.holder = htcb }

/-! ### Boosting and restoring priorities -/

def schedReprioritize (k : PiKernel) (tcb : Tid) (schedPriority : ℤ) : Os PiKernel := do
  let (s, ret) ← schedSetpriority k.sched tcb schedPriority
  if ret = .ok then
    .ok { k with
      sched := s
      basePriority := update k.basePriority tcb (schedPriority % 256).toNat
      pendReprios := update k.pendReprios tcb [] }
  else .ok { k with sched := s }

/-- `sem_boostholderprio`. In the last branch the length of `pend_reprios` is not checked. -/
def semBoostholderprio (cfg : PiConfig) (sem : SemId) (rtcb : Tid) (k : PiKernel) (htcb : Tid) :
    Os PiKernel :=
  if htcb ∉ k.tasks then .ok (semFreeholder k sem htcb)
  else if k.basePriority htcb < k.sched.prio rtcb then
    if k.sched.prio htcb < k.sched.prio rtcb then do
      let (s, _) ← schedSetpriority k.sched htcb (k.sched.prio rtcb)
      .ok { k with
        sched := s
        pendReprios := update k.pendReprios htcb
          (if k.basePriority htcb < k.sched.prio htcb ∧
              (k.pendReprios htcb).length < cfg.nnestprio then
            k.pendReprios htcb ++ [k.sched.prio htcb]
          else k.pendReprios htcb) }
    else if (k.pendReprios htcb).length < cfg.nnestprio then
      .ok { k with
        pendReprios := update k.pendReprios htcb (k.pendReprios htcb ++ [k.sched.prio rtcb]) }
    else .error .overrun
  else .ok k

def semRestoreholderprio (sem : SemId) (stcb : Tid) (k : PiKernel) (htcb : Tid) : Os PiKernel :=
  if htcb ∉ k.tasks then .ok (semFreeholder k sem htcb)
  else if k.sched.prio htcb = k.basePriority htcb then .ok k
  else
    match Bag.popHighest (k.pendReprios htcb) with
    | none => schedReprioritize k htcb (k.basePriority htcb)
    | some (rpriority, rest) =>
      if k.sched.prio htcb ≤ k.sched.prio stcb then do
        let (s, _) ← schedSetpriority k.sched htcb rpriority
        .ok { k with
          sched := s
          pendReprios := update k.pendReprios htcb rest }
      else
        .ok { k with
          pendReprios := update k.pendReprios htcb
            (Bag.discard (k.sched.prio stcb) (k.pendReprios htcb)) }

/-- `sem_restoreholderprioA`: only the holders that are not running. -/
def semRestoreholderprioA (sem : SemId) (stcb : Tid) (k : PiKernel) (htcb : Tid) : Os PiKernel := do
  let rtcb ← k.rtcb
  if htcb ≠ rtcb then semRestoreholderprio sem stcb k htcb else .ok k

/-- The pass with `sem_restoreholderprioB`, which ends at the running task. -/
def semRestoreholderprioB (sem : SemId) (stcb : Tid) : List Tid → PiKernel → Os PiKernel
  | [], k => .ok k
  | htcb :: rest, k => do
    let rtcb ← k.rtcb
    if htcb = rtcb then semRestoreholderprio sem stcb k htcb
    else semRestoreholderprioB sem stcb rest k

/-! ### Waiting -/

/-- `sem_wait` where it blocks: the holders are boosted before `up_block_task`. -/
def semWaitBlock (cfg : PiConfig) (k : PiKernel) (rtcb : Tid) (sem : SemId) : Os PiKernel := do
  let s ← schedLock false k.sched
  let k ← (k.holders sem).foldlM (semBoostholderprio cfg sem rtcb)
    ({ k with sched := s, waitsem := update k.waitsem rtcb (some sem) }.addCount sem (-1))
  let s ← upBlockTask k.sched rtcb .waitSem
  .ok (({ k with sched := s }.setErrno rtcb .ok).goto rtcb (.semWait sem))

/-- `sem_wait` up to `up_block_task`. -/
def PiKernel.semWait (cfg : PiConfig) (k : PiKernel) (sem : SemId) : Os (PiKernel × PiEvent) := do
  let rtcb ← k.rtcb
  if 0 < (k.sem sem).semcount then
    .ok ({ semAddholder (k.addCount sem (-1)) sem rtcb with
      waitsem := update k.waitsem rtcb none }.setErrno rtcb .einval, .took rtcb sem)
  else if k.waitsem rtcb ≠ none then .error (.panic .badWaitSem)
  else do
    let k' ← semWaitBlock cfg k rtcb sem
    .ok (k', .waits rtcb sem (k.sched.prio rtcb))

/-- `sem_wait` behind `up_block_task`. -/
def PiKernel.semWaitTail (k : PiKernel) (rtcb : Tid) (sem : SemId) : Os (PiKernel × PiEvent) :=
  if k.pterrno rtcb ≠ .eintr ∧ k.pterrno rtcb ≠ .etimedout then do
    let s ← schedUnlock false k.sched
    .ok ({ semAddholder k sem rtcb with sched := s }.goto rtcb .user, .took rtcb sem)
  else do
    let s ← schedUnlock false k.sched
    .ok ({ k with sched := s }.goto rtcb .user, .internal)

/-! ### Posting -/

/-- The end of `sem_restorebaseprio`: a container without counts is freed. -/
def semDropholder (k : PiKernel) (sem : SemId) (rtcb : Tid) : PiKernel :=
  match (k.sem sem).find rtcb with
  | none => k
  | some c => if c.counts ≤ 0 then semFreeholder k sem rtcb else k

/-- `sem_post` behind the second pass of `sem_restorebaseprio`. -/
def semPostTail (irq : Bool) (k : PiKernel) (rtcb : Tid) (sem : SemId) : Os PiKernel := do
  let s ← schedUnlock irq k.sched
  .ok { semDropholder k sem rtcb with sched := s }

/-- `sem_restorebaseprio` when `stcb` has been given a count, and the rest of `sem_post`. -/
def semRestorebaseprio (irq : Bool) (k : PiKernel) (stcb : Tid) (sem : SemId) : Os PiKernel := do
  let rtcb ← k.rtcb
  let k ← (k.holders sem).foldlM (semRestoreholderprioA sem stcb) k
  let k ← semRestoreholderprioB sem stcb (k.holders sem) k
  let rtcb' ← k.rtcb
  if irq = true ∨ rtcb' = rtcb then semPostTail irq k rtcb sem
  else .ok (k.goto rtcb (.semPost sem))

/-- `sem_post`; `irq` is `up_interrupt_context()`. -/
def PiKernel.semPost (cfg : PiConfig) (irq : Bool) (k : PiKernel) (sem : SemId) : Os PiKernel := do
  let rtcb ← k.rtcb
  osAssert (decide ((k.sem sem).semcount < semValueMax))
  let s ← schedLock irq k.sched
  match
    if (k.sem sem).semcount + 1 ≤ 0 then
      Waiters.first k.waitsem sem (s.list .waitingforsemaphore)
    else none
  with
  | none =>
    semPostTail irq ({ semReleaseholder k sem rtcb with sched := s }.addCount sem 1) rtcb sem
  | some stcb => do
    let s ← upUnblockTask cfg.toSchedConfig s stcb
    semRestorebaseprio irq ({ semReleaseholder k sem rtcb with
      sched := s
      waitsem := update k.waitsem stcb none }.addCount sem 1) stcb sem

/-! ### Giving up -/

/-- `sem_canceled`. When the caller is a task and another task has become the running one, the call
is suspended before the next container. -/
def semCanceled (irq : Bool) (caller : Tid) (sem : SemId) (stcb : Tid) :
    List (Option ℕ × Tid) → PiKernel → Os (PiKernel × Option (Option ℕ))
  | [], k => .ok (k, none)
  | c :: rest, k => do
    let k ← semRestoreholderprio sem stcb k c.2
    let rtcb ← k.rtcb
    if irq = true ∨ rtcb = caller then semCanceled irq caller sem stcb rest k
    else .ok (k, some (rest.head?.bind Prod.fst))

/-- `sem_waitirq` behind `sem_canceled`. -/
def semWaitirqTail (cfg : PiConfig) (k : PiKernel) (wtcb : Tid) (sem : SemId) (errcode : Errno) :
    Os PiKernel := do
  let s ← upUnblockTask cfg.toSchedConfig k.sched wtcb
  .ok (({ k with
    sched := s
    waitsem := update k.waitsem wtcb none }.addCount sem 1).setErrno wtcb errcode)

/-- `sem_waitirq` from `sem_canceled` on. -/
def semWaitirqFrom (cfg : PiConfig) (irq : Bool) (k : PiKernel) (caller wtcb : Tid) (sem : SemId)
    (errcode : Errno) (cs : List (Option ℕ × Tid)) : Os PiKernel := do
  let (k, suspended) ← semCanceled irq caller sem wtcb cs k
  match suspended with
  | none => semWaitirqTail cfg k wtcb sem errcode
  | some next => .ok (k.goto caller (.semCanceled wtcb sem errcode next))

/-- `sem_waitirq`; `irq` is `up_interrupt_context()`. -/
def PiKernel.semWaitirq (cfg : PiConfig) (irq : Bool) (k : PiKernel) (wtcb : Tid)
    (errcode : Errno) : Os PiKernel :=
  if k.sched.state wtcb = .waitSem then
    match k.waitsem wtcb with
    | none => .error .nullDeref
    | some sem => do
      let rtcb ← k.rtcb
      semWaitirqFrom cfg irq k rtcb wtcb sem errcode (k.containers sem)
  else .ok k

/-- `sem_timeout`, in the interrupt handler of the timer. -/
def PiKernel.semTimeout (cfg : PiConfig) (k : PiKernel) (pid : Tid) : Os PiKernel :=
  if pid ∈ k.tasks ∧ k.sched.state pid = .waitSem then k.semWaitirq cfg true pid .etimedout
  else .ok k

/-! ### Signal handlers, new tasks, going on -/

/-- `sig_deliver` up to the call of the signal handler. -/
def PiKernel.sigDeliver (k : PiKernel) : Os PiKernel := do
  let rtcb ← k.rtcb
  let s ← schedLock false k.sched
  .ok ({ k with
    sched := s
    saved := update k.saved rtcb ((k.pterrno rtcb, k.pc rtcb) :: k.saved rtcb) }.goto rtcb .user)

/-- `sig_deliver` behind the call of the signal handler. -/
def PiKernel.sigReturn (k : PiKernel) : Os PiKernel := do
  let rtcb ← k.rtcb
  match k.saved rtcb with
  | [] => .ok k
  | (e, pc) :: saved => do
    let s ← schedUnlock false k.sched
    .ok (({ k with
      sched := s
      saved := update k.saved rtcb saved }.setErrno rtcb e).goto rtcb pc)

/-- `task_create` up to the activation, on a zeroed TCB. -/
def PiKernel.taskCreate (k : PiKernel) (t : Tid) (priority : ℤ) (roundRobin : Bool) :
    Os PiKernel := do
  let s ← taskSchedsetup false k.sched t priority roundRobin
  .ok ({ k with
    sched := s
    tasks := t :: k.tasks
    basePriority := update k.basePriority t (priority % 256).toNat
    pendReprios := update k.pendReprios t []
    waitsem := update k.waitsem t none
    saved := update k.saved t [] }.setErrno t .ok |>.goto t .user)

/-- The running task runs the next section of the call it is in. -/
def PiKernel.resume (cfg : PiConfig) (k : PiKernel) : Os (PiKernel × PiEvent) := do
  let rtcb ← k.rtcb
  match k.pc rtcb with
  | .user => .ok (k, .internal)
  | .semWait sem => k.semWaitTail rtcb sem
  | .semPost sem => do
    let k ← semPostTail false k rtcb sem
    .ok (k.goto rtcb .user, .internal)
  | .semCanceled wtcb sem errcode next => do
    let k ← semWaitirqFrom cfg false (k.goto rtcb .user) rtcb wtcb sem errcode
      (k.containersFrom next)
    .ok (k, .internal)

/-- The kernel when `os_start` has added the idle task to the ready-to-run list: the semaphores have
the counts `v`, and there are `n` containers in `g_holderalloc`. -/
def PiKernel.boot (v : SemId → ℕ) (n : ℕ) : PiKernel where
  sched := osStart
  tasks := [idle]
  basePriority _ := 0
  pendReprios _ := []
  pterrno _ := .ok
  waitsem _ := none
  sem s := ⟨v s, none, []⟩
  freeholders := List.range n
  owner _ := none
  pc _ := .user
  saved _ := []

end NuttX
