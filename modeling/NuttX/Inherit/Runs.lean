import NuttX.Inherit.Priorities

/-!
# Runs of the kernel with priority inheritance

A run is any interleaving of the steps of `NuttX.PiOp`: calls of the running task, the sections with
which it goes on, and what interrupt handlers do in between. Base priorities are not changed by any
of them. `NuttX.PiKernel.ledger` looks at a state of the kernel as a `NuttX.Ledger`: the tasks that
wait for semaphores, with the priorities they had when they blocked, the tasks in the lists of
holders, and the accounts. `NuttX.PiStep` lists what a step does to the ledger, and
`NuttX.PiOp.step` sorts the steps.

The sorting holds as long as neither the containers nor `pend_reprios` run out, and as long as two
things do not happen, which spoil the accounts: that a call of `sem_waitirq` is suspended half-way,
and that a task leaves a semaphore at another priority than the one it came with.
-/

namespace NuttX

/-! ### Runs -/

/-- The steps of the kernel. -/
inductive PiOp
  | semWait (sem : SemId)
  | semPost (irq : Bool) (sem : SemId)
  | resume
  | semTimeout (t : Tid)
  | signal (irq : Bool) (t : Tid)
  | sigDeliver
  | sigReturn
  | sched (op : SchedOp)
  | taskCreate (t : Tid) (priority : ℤ) (roundRobin : Bool)
  deriving DecidableEq, Repr

namespace PiOp

/-- The steps that show nothing to the outside. -/
def silent (x : Os PiKernel) : Os (PiKernel × PiEvent) := do
  let k ← x
  .ok (k, .internal)

/-- The code of a step. -/
def run (cfg : PiConfig) : PiOp → PiKernel → Os (PiKernel × PiEvent)
  | semWait sem, k => k.semWait cfg sem
  | semPost irq sem, k => silent (k.semPost cfg irq sem)
  | resume, k => k.resume cfg
  | semTimeout t, k => silent (k.semTimeout cfg t)
  | signal irq t, k => silent (k.semWaitirq cfg irq t .eintr)
  | sigDeliver, k => silent k.sigDeliver
  | sigReturn, k => silent k.sigReturn
  | sched op, k => do
    let s ← op.run cfg.toSchedConfig k.sched
    .ok ({ k with sched := s }, .internal)
  | taskCreate t priority roundRobin, k => silent (k.taskCreate t priority roundRobin)

/-- The running task is not inside a call. -/
def AtUser (k : PiKernel) : Prop := ∀ r ∈ (k.sched.list .readytorun).head?, k.pc r = .user

/-- When a step may be taken: a task calls the kernel when it is not inside a call, tasks are set up
with a free TCB, and base priorities are not changed. -/
def Legal : PiOp → PiKernel → Prop
  | semWait _, k | sigReturn, k => AtUser k
  | semPost irq _, k | signal irq _, k => irq = false → AtUser k
  | taskCreate t priority _, k =>
    AtUser k ∧ t ∉ k.tasks ∧ k.sched.state t = .invalid ∧ LegalPriority priority
  | sched (.create _ _ _ _), _ | sched (.setPriority _ _), _ => False
  | sched (.block st), k => AtUser k ∧ st = .waitSig
  | sched (.unblock t), k => k.sched.state t = .inactive ∨ k.sched.state t = .waitSig
  | sched (.lock irq), k | sched (.unlock irq), k => irq = false → AtUser k
  | resume, _ | semTimeout _, _ | sigDeliver, _ | sched .timeslice, _ => True

instance (k : PiKernel) : Decidable (AtUser k) := inferInstanceAs (Decidable (∀ r ∈ _, _))

instance (k : PiKernel) : (op : PiOp) → Decidable (op.Legal k)
  | semWait _ | sigReturn => inferInstanceAs (Decidable (AtUser k))
  | semPost _ _ | signal _ _ | sched (.lock _) | sched (.unlock _) =>
    inferInstanceAs (Decidable (_ → AtUser k))
  | taskCreate _ _ _ | sched (.block _) => inferInstanceAs (Decidable (AtUser k ∧ _))
  | sched (.create _ _ _ _) | sched (.setPriority _ _) => inferInstanceAs (Decidable False)
  | sched (.unblock _) => inferInstanceAs (Decidable (_ ∨ _))
  | resume | semTimeout _ | sigDeliver | sched .timeslice => inferInstanceAs (Decidable True)

end PiOp

/-- The priority that a task had when it blocked last. The latest event comes first. -/
def blockPriority : List PiEvent → Tid → ℕ
  | [], _ => 0
  | .waits r _ p :: tr, t => if t = r then p else blockPriority tr t
  | _ :: tr, t => blockPriority tr t

def PiKernel.WaitsFor (k : PiKernel) (w : Tid) (sem : SemId) : Prop :=
  w ∈ k.sched.list .waitingforsemaphore ∧ k.waitsem w = some sem

/-- The task is recorded as a holder of the semaphore, with counts. -/
def PiKernel.Holds (k : PiKernel) (h : Tid) (sem : SemId) : Prop :=
  ∃ c ∈ (k.sem sem).holders, c.holder = h ∧ 0 < c.counts

instance (k : PiKernel) (w : Tid) (sem : SemId) : Decidable (k.WaitsFor w sem) :=
  inferInstanceAs (Decidable (_ ∧ _))

instance (k : PiKernel) (h : Tid) (sem : SemId) : Decidable (k.Holds h sem) :=
  inferInstanceAs (Decidable (∃ c ∈ _, _))

instance (k : PiKernel) (p : Tid → SemId → Prop) [∀ w s, Decidable (p w s)] :
    Decidable (∀ w s, k.WaitsFor w s → p w s) :=
  decidable_of_iff (∀ w ∈ k.sched.list .waitingforsemaphore, ∀ s ∈ k.waitsem w, p w s)
    ⟨fun h w s hw => h w hw.1 s hw.2, fun h w hw s hs => h w s ⟨hw, hs⟩⟩

/-- The runs from `k₀` whose steps all satisfy `P`, with what the steps have shown, the latest
first. `P` looks at what has been shown before, at the state before the step, at the step and at
what it shows, and at the state after it. -/
inductive PiRun (cfg : PiConfig)
    (P : List PiEvent → PiKernel → PiOp → PiEvent → PiKernel → Prop) (k₀ : PiKernel) :
    List PiEvent → PiKernel → Prop
  | boot : PiRun cfg P k₀ [] k₀
  | step {tr : List PiEvent} {k k' : PiKernel} {ev : PiEvent} (op : PiOp) : PiRun cfg P k₀ tr k →
      op.Legal k → op.run cfg k = .ok (k', ev) → P tr k op ev k' → PiRun cfg P k₀ (ev :: tr) k'

/-- A run that is given by its steps. -/
theorem PiRun.replay (cfg : PiConfig)
    (P : List PiEvent → PiKernel → PiOp → PiEvent → PiKernel → Prop)
    [∀ tr k op ev k', Decidable (P tr k op ev k')] (k0 : PiKernel) (ops : List PiOp)
    (h : (NuttX.replay (fun op k => (op.run cfg k).toOption) List.cons
      (fun tr k op ev k' => op.Legal k ∧ P tr k op ev k') ops [] k0).isSome) :
    PiRun cfg P k0 (Option.get _ h).1 (Option.get _ h).2 :=
  replay_sound (fun op hrun hop hc => hrun.step op hc.1 (toOption_eq_some.mp hop) hc.2) .boot
    (Option.some_get h).symm

/-! ### What is assumed of the steps -/

/-- Neither the containers nor `pend_reprios` run out: a task that takes a count is recorded, and
there is room for the priority of a task that waits at every holder below it. The idle task takes no
semaphore. -/
def Roomy (cfg : PiConfig) (k : PiKernel) : PiEvent → PiKernel → Prop
  | .took r s, k' => r ∈ k'.holders s ∧ r ≠ idle
  | .waits _ s p, _ =>
    ∀ h ∈ k.holders s, k.basePriority h < p → (k.pendReprios h).length < cfg.nnestprio
  | .internal, _ => True

instance (cfg : PiConfig) (k : PiKernel) :
    (ev : PiEvent) → (k' : PiKernel) → Decidable (Roomy cfg k ev k')
  | .took _ _, _ => inferInstanceAs (Decidable (_ ∧ _))
  | .waits _ _ _, _ => inferInstanceAs (Decidable (∀ h ∈ _, _))
  | .internal, _ => inferInstanceAs (Decidable True)

/-- Only tasks post, and only counts that they hold. -/
def PostsHeld (k : PiKernel) : PiOp → Prop
  | .semPost irq sem => irq = false ∧ ∀ r ∈ (k.sched.list .readytorun).head?, k.Holds r sem
  | _ => True

instance (k : PiKernel) : (op : PiOp) → Decidable (PostsHeld k op)
  | .semPost _ _ => inferInstanceAs (Decidable (_ ∧ _))
  | .semWait _ | .resume | .semTimeout _ | .signal _ _ | .sigDeliver | .sigReturn | .sched _
  | .taskCreate _ _ _ => inferInstanceAs (Decidable True)

/-- No call is in progress, and no signal handler runs. -/
def PiKernel.Quiescent (k : PiKernel) : Prop := ∀ t ∈ k.tasks, k.pc t = .user ∧ k.saved t = []

instance (k : PiKernel) : Decidable k.Quiescent := inferInstanceAs (Decidable (∀ t ∈ _, _))

/-- A call of `sem_canceled` that is suspended before it has visited all holders. -/
def PiPc.isCanceled : PiPc → Bool
  | .semCanceled _ _ _ _ => true
  | _ => false

/-- A call of `sem_waitirq` is suspended half-way. -/
def PiKernel.Suspended (k : PiKernel) : Prop := ∃ t ∈ k.tasks, (k.pc t).isCanceled = true

instance (k : PiKernel) : Decidable k.Suspended := inferInstanceAs (Decidable (∃ t ∈ _, _))

/-- A task that stops to wait for a semaphore has the priority with which it blocked, and is not
itself a boosted holder of the semaphore. -/
def Steadfast (tr : List PiEvent) (k k' : PiKernel) : Prop :=
  ∀ w s, k.WaitsFor w s → ¬ k'.WaitsFor w s → k.sched.prio w = blockPriority tr w ∧
    (w ∈ k.holders s → k.sched.prio w = k.basePriority w)

instance (tr : List PiEvent) (k k' : PiKernel) : Decidable (Steadfast tr k k') :=
  inferInstanceAs (Decidable (∀ w s, k.WaitsFor w s → _))

/-- What the accounts of the holders rest on. -/
@[mk_iff]
structure Regular (cfg : PiConfig) (tr : List PiEvent) (k : PiKernel) (ev : PiEvent)
    (k' : PiKernel) : Prop where
  roomy : Roomy cfg k ev k'
  whole : ¬ k'.Suspended
  steadfast : Steadfast tr k k'

instance (cfg : PiConfig) (tr : List PiEvent) (k : PiKernel) (ev : PiEvent) (k' : PiKernel) :
    Decidable (Regular cfg tr k ev k') :=
  decidable_of_iff' _ (regular_iff cfg tr k ev k')

/-! ### What a step does -/

/-- The kernel as a ledger, when `entry` are the priorities with which the tasks have blocked. -/
def PiKernel.ledger (k : PiKernel) (entry : Tid → ℕ) : Ledger Tid SemId ℕ where
  waiters := k.sched.list .waitingforsemaphore
  on := k.waitsem
  entry := entry
  holds h s := h ∈ k.holders s
  acct := k.acct

/-- **What a step does to the ledger.** -/
inductive PiStep (entry : Tid → ℕ) (k k' : PiKernel) : PiEvent → Prop
  | keep (keeps : (k.ledger entry).Keeps (k'.ledger entry)) : PiStep entry k k' .internal
  | opens (t : Tid) (opens : (k.ledger entry).Opens (k'.ledger entry) t)
      (fresh : (k'.acct t).boosts = []) : PiStep entry k k' .internal
  | take (r : Tid) (s : SemId) (acquires : (k.ledger entry).Acquires (k'.ledger entry) r s) :
      PiStep entry k k' (.took r s)
  | block (r : Tid) (s : SemId) (p : ℕ)
      (blocks : (k.ledger entry).Blocks (k'.ledger (Function.update entry r p)) r s p) :
      PiStep entry k k' (.waits r s p)
  | release (w : Tid) (s : SemId) (L : Ledger Tid SemId ℕ)
      (releases : (k.ledger entry).Releases L w s (k.sched.prio w))
      (rest : L.Keeps (k'.ledger entry) ∨ ∃ r, L.Drops (k'.ledger entry) r s) :
      PiStep entry k k' .internal
  | drop (r : Tid) (s : SemId) (drops : (k.ledger entry).Drops (k'.ledger entry) r s) :
      PiStep entry k k' .internal

end NuttX
