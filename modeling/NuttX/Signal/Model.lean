import NuttX.Lib.Replay

/-!
# Signals

`sig_received.c`, `sig_procmask.c`, `sig_suspend.c`, `sig_timedwait.c`, `sig_unmaskpendingsignal.c`
and `sig_deliver.c`, for the signals of one task. A signal that is masked is put into `sigpendingq`;
one that is not is made into an action in `sigpendactionq`, whose handler `sig_deliver` calls on the
task that has received the signal. `up_schedule_sigaction` is that of the simulation: it calls
`sig_deliver` at once if the task is running, and otherwise asks for it to be called when the task
runs again.

The functions call each other: a handler may change the mask, which releases pending signals, whose
handlers are then called, and so on. What the task is in the middle of is a stack of frames,
`NuttX.SigFrame`, with the innermost call first; the code of the application runs if the stack is
empty or a handler is at its head. Signals arrive from other tasks and from interrupt handlers, at
any time but when the interrupts are disabled. `NuttX.SigOp.step` is one such section of the code.

`sig_addpendingsignal` looks for an entry and adds one in two sections, so that something may happen
between them.
-/

namespace NuttX

open Function

abbrev Signo := Fin 32

abbrev SigSet := Finset Signo

/-- `siginfo_t`. What it has besides the number is represented by the number `id` of the signal in
the order of their arrival. -/
structure SigInfo where
  signo : Signo
  id : ℕ
  deriving DecidableEq, Repr

/-- A `sigpendq_t`, at the address `node`. -/
structure SigPend where
  node : ℕ
  info : SigInfo
  deriving DecidableEq, Repr

/-- The contents of a `sigq_t`. -/
structure SigQ where
  info : SigInfo
  mask : SigSet
  serial : ℕ

/-- `SIG_BLOCK`, `SIG_UNBLOCK`, `SIG_SETMASK`, or something else. -/
inductive SigHow
  | block
  | unblock
  | setmask
  | other
  deriving DecidableEq, Repr

/-- Who has called `sig_unmaskpendingsignal`. -/
inductive UnmaskCaller
  | procmask
  | suspend
  | deliver (sigq : ℕ) (next : Option ℕ)
  deriving DecidableEq, Repr

/-- What the task is in the middle of. -/
inductive SigFrame
  | suspend (saved : SigSet)
  | timedwait
  | unmask (unmaskedset : SigSet) (caller : UnmaskCaller)
  | loop (sigq : Option ℕ)
  | handler (sigq : ℕ) (next : Option ℕ) (saved : SigSet)
  | resume
  deriving DecidableEq

/-- Whether the task runs. -/
inductive SigState
  | running
  | stopped
  | waitSig
  deriving DecidableEq, Repr

/-- What happens in a step, for the accounts. -/
inductive SigEvent
  | added (i : SigInfo)
  | overwritten (i : SigInfo)
  | taken (i : SigInfo)
  | requeued (i : SigInfo)
  | lost (i : SigInfo)
  | discarded (i : SigInfo)
  | returned (mask : SigSet) (pending : List SigInfo)
  | queued (serial : ℕ)
  | invoked (serial : ℕ)
  | released (serial : ℕ)
  deriving DecidableEq

/-- The signals of a task. `σ` are the calls of `sig_addpendingsignal`. -/
structure Sig (σ : Type*) where
  sigprocmask : SigSet
  sigwaitmask : SigSet
  state : SigState
  sigdeliver : Bool
  sigpendingq : List SigPend
  sigpendactionq : List ℕ
  sigpostedq : List ℕ
  sigq : ℕ → SigQ
  used : ℕ → Bool
  stack : List SigFrame
  adding : σ → Option (SigInfo × Option ℕ)
  sigunbinfo : Option SigInfo
  sent : ℕ
  serial : ℕ

/-- The steps. -/
inductive SigOp (σ : Type*)
  | receive (signo : Signo) (a : Option ℕ)
  | find (s : σ) (signo : Signo)
  | put (s : σ) (a : ℕ)
  | timeout
  | switchOut
  | switchIn
  | sigprocmask (how : SigHow) (set : Option SigSet)
  | sigsuspend (set : SigSet)
  | sigtimedwait (set : SigSet) (waits : Bool)
  | run (a : Option ℕ)

namespace Sig

variable {σ : Type*} [DecidableEq σ]

/-- A task that has been created. -/
def init (mask : SigSet) : Sig σ where
  sigprocmask := mask
  sigwaitmask := ∅
  state := .running
  sigdeliver := false
  sigpendingq := []
  sigpendactionq := []
  sigpostedq := []
  sigq _ := ⟨⟨0, 0⟩, ∅, 0⟩
  used _ := false
  stack := []
  adding _ := none
  sigunbinfo := none
  sent := 0
  serial := 0

def infos (b : Sig σ) : List SigInfo := b.sigpendingq.map (·.info)

def sigPendingset (b : Sig σ) : SigSet := (b.infos.map (·.signo)).toFinset

def sigLowest (set : SigSet) : Option Signo := (List.finRange 32).find? (· ∈ set)

def sigFindpendingsignal (b : Sig σ) (signo : Signo) : Option SigPend :=
  b.sigpendingq.find? (·.info.signo = signo)

def sigRemovependingsignal (b : Sig σ) (signo : Signo) : Option (SigInfo × Sig σ) :=
  (b.sigFindpendingsignal signo).map fun e =>
    (e.info, { b with sigpendingq := b.sigpendingq.eraseP (·.info.signo = signo) })

/-- The code of the application runs. -/
def inUser (b : Sig σ) : Bool :=
  match b.stack with
  | [] | .handler .. :: _ => b.state = .running
  | _ => false

/-- `sig_queueaction`, if `act` gives `sa_mask` of the signals that have a handler. -/
def sigQueueaction (act : Signo → Option SigSet) (b : Sig σ) (info : SigInfo) (a : Option ℕ) :
    Option (Sig σ × List SigEvent) :=
  match act info.signo, a with
  | some mask, some a =>
    if b.used a then none
    else some
      ({ b with
          sigq := update b.sigq a ⟨info, mask, b.serial⟩
          used := update b.used a true
          sigpendactionq := b.sigpendactionq ++ [a]
          serial := b.serial + 1 }, [.queued b.serial])
  | _, _ => some (b, [])

def push (b : Sig σ) (f : SigFrame) : Sig σ := { b with stack := f :: b.stack }

def upScheduleSigaction (b : Sig σ) : Sig σ :=
  if b.state = .running then b.push (.loop b.sigpendactionq.head?)
  else { b with sigdeliver := true }

/-- The task is woken from its wait for a signal. -/
def wake (b : Sig σ) (info : Option SigInfo) : Sig σ :=
  { b with sigunbinfo := info, sigwaitmask := ∅, state := .stopped }

/-- `sig_received` for a signal that is not masked. -/
def sigReceived (act : Signo → Option SigSet) (b : Sig σ) (info : SigInfo) (a : Option ℕ) :
    Option (Sig σ × List SigEvent) :=
  (b.sigQueueaction act info a).map fun (b, evs) =>
    let b := b.upScheduleSigaction
    (if b.state = .waitSig then b.wake (some info) else b, evs)

/-- `sig_received` for a signal that is masked, until `sig_findpendingsignal` has returned. -/
def find (b : Sig σ) (s : σ) (info : SigInfo) : Sig σ :=
  if b.state = .waitSig ∧ info.signo ∈ b.sigwaitmask then b.wake (some info)
  else
    { b with
      adding := update b.adding s (some (info, (b.sigFindpendingsignal info.signo).map (·.node))) }

/-- `sig_addpendingsignal`, when the entry `e` has been found or has not. -/
def put (b : Sig σ) (info : SigInfo) (e : Option ℕ) (a : ℕ) : Option (Sig σ × List SigEvent) :=
  match e with
  | some n =>
    match b.sigpendingq.find? (·.node = n) with
    | some e => some
        ({ b with sigpendingq := b.sigpendingq.map fun e =>
            if e.node = n then { e with info := info } else e },
          [.added info, .overwritten e.info])
    | none => some (b, [])
  | none =>
    if a ∈ b.sigpendingq.map (·.node) then none
    else some ({ b with sigpendingq := b.sigpendingq ++ [⟨a, info⟩] }, [.added info])

/-- The new mask. -/
def newMask (b : Sig σ) (how : SigHow) (set : SigSet) : SigSet :=
  match how with
  | .block => b.sigprocmask ∪ set
  | .unblock => b.sigprocmask \ set
  | .setmask => set
  | .other => b.sigprocmask

/-- `sig_unmaskpendingsignal` is called. -/
def unmask (b : Sig σ) (caller : UnmaskCaller) : Sig σ :=
  b.push (.unmask (b.sigPendingset \ b.sigprocmask) caller)

/-- `sigprocmask` or `sigsuspend` returns. -/
def ret (b : Sig σ) : SigEvent := .returned b.sigprocmask b.infos

def procmask (b : Sig σ) (how : SigHow) : Option SigSet → Sig σ × List SigEvent
  | none => (b, [b.ret])
  | some set => ({ b with sigprocmask := b.newMask how set }.unmask .procmask, [])

def suspend (b : Sig σ) (set : SigSet) : Option (Sig σ × List SigEvent) :=
  match sigLowest (b.sigPendingset \ set) with
  | some signo => (b.sigRemovependingsignal signo).map fun (info, b) =>
      (b, [b.ret, .discarded info])
  | none => some
      ({ b with sigprocmask := set, sigwaitmask := ∅, state := .waitSig }.push
        (.suspend b.sigprocmask), [])

def timedwait (b : Sig σ) (set : SigSet) (waits : Bool) : Option (Sig σ × List SigEvent) :=
  match sigLowest (set ∩ b.sigPendingset) with
  | some signo => (b.sigRemovependingsignal signo).map fun (info, b) => (b, [.taken info])
  | none => some
      ({ b with sigwaitmask := set, state := if waits then .waitSig else .running }.push
        .timedwait, [])

/-- `sig_unmaskpendingsignal` passes a signal that it has taken out to `sig_received`. -/
def again (act : Signo → Option SigSet) (b : Sig σ) (info : SigInfo) (a : Option ℕ) :
    Option (Sig σ × List SigEvent) :=
  if info.signo ∈ b.sigprocmask then
    a.bind fun a => b.put info ((b.sigFindpendingsignal info.signo).map (·.node)) a
  else
    (b.sigReceived act info a).map fun (b, evs) =>
      (b, evs ++ [if evs = [] then .lost info else .requeued info])

/-- A step of the loop of `sig_unmaskpendingsignal`, on top of `st`. -/
def unmaskStep (act : Signo → Option SigSet) (b : Sig σ) (unmaskedset : SigSet)
    (caller : UnmaskCaller) (st : List SigFrame) (a : Option ℕ) : Option (Sig σ × List SigEvent) :=
  match sigLowest unmaskedset with
  | none =>
    match caller with
    | .procmask | .suspend => some ({ b with stack := st }, [b.ret])
    | .deliver q next => some
        ({ b with
            sigpostedq := b.sigpostedq.erase q
            used := update b.used q false
            stack := .loop next :: st }, [.released (b.sigq q).serial])
  | some signo =>
    match b.sigRemovependingsignal signo with
    | none => some ({ b with stack := .unmask (unmaskedset.erase signo) caller :: st }, [])
    | some (info, b) =>
      again act { b with stack := .unmask (unmaskedset.erase signo) caller :: st } info a

/-- `sig_deliver` takes the action `q`, on top of `st`. If the action is not in the queue any more
then `a` is what is in `flink`. -/
def deliverStep (b : Sig σ) (q : ℕ) (st : List SigFrame) (a : Option ℕ) : Sig σ × List SigEvent :=
  let next := if q ∈ b.sigpendactionq then (b.sigpendactionq.dropWhile (· ≠ q)).tail.head? else a
  ({ b with
      sigpendactionq := b.sigpendactionq.erase q
      sigpostedq := b.sigpostedq ++ [q]
      sigprocmask := b.sigprocmask ∪ (b.sigq q).mask ∪ {(b.sigq q).info.signo}
      stack := .handler q next b.sigprocmask :: st }, [.invoked (b.sigq q).serial])

/-- The task goes on. -/
def go (act : Signo → Option SigSet) (b : Sig σ) (a : Option ℕ) : Option (Sig σ × List SigEvent) :=
  match b.stack with
  | [] => none
  | .suspend saved :: st => some ({ b with sigprocmask := saved, stack := st }.unmask .suspend, [])
  | .timedwait :: st => some ({ b with sigwaitmask := ∅, stack := st }, [])
  | .unmask unmaskedset caller :: st => b.unmaskStep act unmaskedset caller st a
  | .loop none :: st => some ({ b with stack := st }, [])
  | .loop (some q) :: st => some (b.deliverStep q st a)
  | .handler q next saved :: st => some
      ({ b with sigprocmask := saved, stack := st }.unmask (.deliver q next), [])
  | .resume :: st => some ({ b with sigdeliver := false, stack := st }, [])

/-- The context switch to the task. -/
def resume (b : Sig σ) : Sig σ :=
  if b.sigdeliver then
    ({ b with state := .running }.push .resume).push (.loop b.sigpendactionq.head?)
  else { b with state := .running }

end Sig

/-- The code of a step. -/
def SigOp.step {σ : Type*} [DecidableEq σ] (act : Signo → Option SigSet) (b : Sig σ) :
    SigOp σ → Option (Sig σ × List SigEvent)
  | receive signo a =>
    if signo ∈ b.sigprocmask then none
    else Sig.sigReceived act { b with sent := b.sent + 1 } ⟨signo, b.sent⟩ a
  | find s signo =>
    if signo ∈ b.sigprocmask ∧ b.adding s = none then
      some (Sig.find { b with sent := b.sent + 1 } s ⟨signo, b.sent⟩, [])
    else none
  | put s a =>
    (b.adding s).bind fun (info, e) =>
      Sig.put { b with adding := update b.adding s none } info e a
  | timeout =>
    if b.state = .waitSig ∧ b.stack.head? = some .timedwait then
      some ({ b with sigunbinfo := none, state := .stopped }, [])
    else none
  | switchOut => if b.inUser then some ({ b with state := .stopped }, []) else none
  | switchIn => if b.state = .stopped then some (b.resume, []) else none
  | sigprocmask how set => if b.inUser then some (b.procmask how set) else none
  | sigsuspend set => if b.inUser then b.suspend set else none
  | sigtimedwait set waits => if b.inUser then b.timedwait set waits else none
  | run a => if b.state = .running then b.go act a else none

/-- The runs from `b₀`, with the trace `tr₀`, whose steps all satisfy `P`. -/
inductive SigRun {σ : Type*} [DecidableEq σ] (act : Signo → Option SigSet)
    (P : Sig σ → SigOp σ → Sig σ → Prop) (b₀ : Sig σ) (tr₀ : List SigEvent) :
    List SigEvent → Sig σ → Prop
  | init : SigRun act P b₀ tr₀ tr₀ b₀
  | step {tr evs : List SigEvent} {b b' : Sig σ} (op : SigOp σ) : SigRun act P b₀ tr₀ tr b →
      op.step act b = some (b', evs) → P b op b' → SigRun act P b₀ tr₀ (evs ++ tr) b'

/-- A run that is given by its steps. -/
theorem SigRun.replay {σ : Type*} [DecidableEq σ] (act : Signo → Option SigSet)
    (P : Sig σ → SigOp σ → Sig σ → Prop) [∀ b op b', Decidable (P b op b')] (b0 : Sig σ)
    (tr0 : List SigEvent) (ops : List (SigOp σ))
    (h : (NuttX.replay (fun op b => SigOp.step act b op) List.append (fun _ b op _ b' => P b op b')
      ops tr0 b0).isSome) :
    SigRun act P b0 tr0 (Option.get _ h).1 (Option.get _ h).2 :=
  replay_sound (fun op hrun hop hP => hrun.step op hop hP) .init (Option.some_get h).symm

end NuttX
