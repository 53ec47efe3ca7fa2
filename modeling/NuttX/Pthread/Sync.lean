import NuttX.Lib.Replay
import NuttX.Lib.Semaphore
import NuttX.Os

/-!
# Mutexes and condition variables

`pthread_mutexlock.c`, `pthread_mutextrylock.c`, `pthread_mutexunlock.c`, `pthread_condwait.c`,
`pthread_condtimedwait.c`, `pthread_condsignal.c` and `pthread_condbroadcast.c`, with
`CONFIG_MUTEX_TYPES`, over the semaphores of `NuttX.Sems`. There are any number of mutexes, of
condition variables and of threads.

What the code does between `sched_lock` and `sched_unlock` without waiting is one step, or, where
interrupts can make a difference, several steps between which `NuttX.Sync.cpu` keeps the other
threads out. Everything else is cut at the semaphore calls. Signals interrupt blocked threads at any
time; the timeout of `pthread_cond_timedwait` is such a signal.
-/

namespace NuttX

open Function Option

/-- The types of mutexes. -/
inductive MutexType
  | normal
  | errorcheck
  | recursive
  deriving DecidableEq, Repr

/-- `pthread_mutex_t`, without its semaphore. The process ID 0 stands for nobody. -/
structure Mutex (τ : Type*) where
  pid : Option τ
  type : MutexType
  nlocks : ℤ

/-- Where a thread is. -/
inductive SyncPc (μ κ : Type*)
  | user
  | lockWait (m : μ)
  | lockWoken (m : μ) (interrupted : Bool)
  | give (c : κ) (m : μ) (timed : Bool)
  | condWait (c : κ) (m : μ) (timed : Bool)
  | condWoken (c : κ) (m : μ) (timed interrupted : Bool)
  | retake (c : κ) (m : μ) (timed : Bool) (ret : Errno)
  | retakeWait (c : κ) (m : μ) (timed : Bool) (ret : Errno)
  | retakeWoken (c : κ) (m : μ) (timed : Bool) (ret : Errno) (interrupted : Bool)
  | setPid (c : κ) (m : μ) (ret : Errno)
  | signal (c : κ) (sval : ℤ)
  | broadcast (c : κ) (sval : ℤ)
  deriving DecidableEq, Repr

/-- The calls. -/
inductive SyncCall (μ κ : Type*)
  | lock (m : μ)
  | trylock (m : μ)
  | unlock (m : μ)
  | condWait (c : κ) (m : μ)
  | condTimedwait (c : κ) (m : μ) (ticks : Option ℤ)
  | condSignal (c : κ)
  | condBroadcast (c : κ)
  deriving DecidableEq, Repr

/-- What a step shows to the outside. -/
inductive SyncEvent (μ κ τ : Type*)
  | acquired (t : τ) (m : μ)
  | unlocked (t : τ) (m : μ)
  | waits (t : τ) (c : κ) (m : μ)
  | resumed (t : τ) (c : κ) (m : μ) (ret : Errno)
  | posted (c : κ)
  | failed (t : τ) (ret : Errno)
  | internal
  deriving DecidableEq, Repr

/-- The mutexes, the condition variables and the threads. -/
structure Sync (μ κ τ : Type*) where
  mutex : μ → Mutex τ
  sem : Sems (μ ⊕ κ) τ
  pc : τ → SyncPc μ κ
  cpu : Option τ

/-- The steps. If a step posts a semaphore, then `w` is woken. -/
inductive SyncOp (μ κ τ : Type*)
  | call (t : τ) (r : SyncCall μ κ) (w : Option τ)
  | run (t : τ) (w : Option τ)
  | interrupt (w : τ)
  deriving DecidableEq, Repr

namespace SyncPc

variable {μ κ : Type*}

/-- The semaphore that the thread is blocked on. -/
def waitsem : SyncPc μ κ → Option (μ ⊕ κ)
  | lockWait m => some (.inl m)
  | condWait c _ _ => some (.inr c)
  | retakeWait _ m _ _ => some (.inl m)
  | _ => none

/-- A blocked thread is made ready to run. -/
def wake (interrupted : Bool) : SyncPc μ κ → SyncPc μ κ
  | lockWait m => lockWoken m interrupted
  | condWait c m timed => condWoken c m timed interrupted
  | retakeWait c m timed ret => retakeWoken c m timed ret interrupted
  | pc => pc

theorem waitsem_wake {pc : SyncPc μ κ} {i : Bool} : (pc.wake i).waitsem = none := by
  cases pc <;> rfl

end SyncPc

namespace Sync

variable {μ κ τ : Type*} [DecidableEq μ] [DecidableEq κ] [DecidableEq τ]

/-- `pthread_mutex_init` and `pthread_cond_init`. -/
def init (type : μ → MutexType) : Sync μ κ τ where
  mutex m := ⟨none, type m, 0⟩
  sem := .init (Sum.elim (fun _ => 1) fun _ => 0)
  pc _ := .user
  cpu := none

def goto (b : Sync μ κ τ) (t : τ) (pc : SyncPc μ κ) (cpu : Option τ) : Sync μ κ τ :=
  { b with pc := update b.pc t pc, cpu := cpu }

def setSem (b : Sync μ κ τ) (S : Sems (μ ⊕ κ) τ) : Sync μ κ τ := { b with sem := S }

def setMutex (b : Sync μ κ τ) (m : μ) (M : Mutex τ) : Sync μ κ τ :=
  { b with mutex := update b.mutex m M }

/-- A thread that is blocked on a semaphore is made ready to run. -/
def wake (b : Sync μ κ τ) (w : τ) (interrupted : Bool) : Sync μ κ τ :=
  { b with pc := update b.pc w ((b.pc w).wake interrupted) }

/-- `pthread_givesemaphore`. -/
def post (b : Sync μ κ τ) (s : μ ⊕ κ) (w : Option τ) : Option (Sync μ κ τ) :=
  (b.sem.post s w).map fun S => w.elim (b.setSem S) fun w => (b.setSem S).wake w false

/-- `pthread_mutex_lock`, from `sem_wait` on. -/
def lockSem (b : Sync μ κ τ) (t : τ) (m : μ) : Sync μ κ τ × SyncEvent μ κ τ :=
  match b.sem.wait t (.inl m) with
  | (S, true) =>
    (((b.setSem S).setMutex m { b.mutex m with pid := some t, nlocks := 1 }).goto t .user none,
      .acquired t m)
  | (S, false) => ((b.setSem S).goto t (.lockWait m) none, .internal)

/-- The wait on the condition variable. -/
def condSem (b : Sync μ κ τ) (t : τ) (c : κ) (m : μ) (timed : Bool) : Sync μ κ τ :=
  match b.sem.wait t (.inr c) with
  | (S, true) => (b.setSem S).goto t (.retake c m timed .ok) (if timed then some t else none)
  | (S, false) => (b.setSem S).goto t (.condWait c m timed) none

/-- The wait for the mutex behind it. -/
def retakeSem (b : Sync μ κ τ) (t : τ) (c : κ) (m : μ) (timed : Bool) (ret : Errno) :
    Sync μ κ τ :=
  match b.sem.wait t (.inl m) with
  | (S, true) => (b.setSem S).goto t (.setPid c m ret) (if timed then some t else none)
  | (S, false) => (b.setSem S).goto t (.retakeWait c m timed ret) none

/-- The first step of a call. An `int` wraps around. -/
def call (b : Sync μ κ τ) (t : τ) (w : Option τ) :
    SyncCall μ κ → Option (Sync μ κ τ × SyncEvent μ κ τ)
  | .lock m =>
    if (b.mutex m).pid = some t then
      if (b.mutex m).type = .recursive then
        some (b.setMutex m { b.mutex m with nlocks := ((b.mutex m).nlocks + 1).bmod (2 ^ 32) },
          .acquired t m)
      else some (b, .failed t .edeadlk)
    else some (b.lockSem t m)
  | .trylock m =>
    if 0 < b.sem.count (.inl m) then
      some ((b.setSem (b.sem.take (.inl m))).setMutex m { b.mutex m with pid := some t },
        .acquired t m)
    else some (b, .failed t .ebusy)
  | .unlock m =>
    if (b.mutex m).pid ≠ some t then some (b, .failed t .eperm)
    else if (b.mutex m).type = .recursive ∧ 1 < (b.mutex m).nlocks then
      some (b.setMutex m { b.mutex m with nlocks := (b.mutex m).nlocks - 1 }, .unlocked t m)
    else
      ((b.setMutex m { b.mutex m with pid := none, nlocks := 0 }).post (.inl m) w).map
        fun b => (b, .unlocked t m)
  | .condWait c m =>
    if (b.mutex m).pid ≠ some t then some (b, .failed t .eperm)
    else some (b.goto t (.give c m false) none, .internal)
  | .condTimedwait c m ticks =>
    if (b.mutex m).pid ≠ some t then some (b, .failed t .eperm)
    else
      match ticks with
      | none => some (b, .failed t .einval)
      | some ticks =>
        if ticks ≤ 0 then some (b, .failed t .etimedout)
        else some (b.goto t (.give c m true) none, .internal)
  | .condSignal c => some (b.goto t (.signal c (b.sem.count (.inr c))) none, .internal)
  | .condBroadcast c => some (b.goto t (.broadcast c (b.sem.count (.inr c))) (some t), .internal)

/-- A later step of a call. -/
def go (b : Sync μ κ τ) (t : τ) (w : Option τ) : Option (Sync μ κ τ × SyncEvent μ κ τ) :=
  match b.pc t with
  | .lockWoken m true => some (b.lockSem t m)
  | .lockWoken m false =>
    some ((b.setMutex m { b.mutex m with pid := some t, nlocks := 1 }).goto t .user none,
      .acquired t m)
  | .give c m timed =>
    ((b.setMutex m { b.mutex m with pid := none }).post (.inl m) w).map
      fun b => (b.condSem t c m timed, .waits t c m)
  | .condWoken c m false true => some (b.condSem t c m false, .internal)
  | .condWoken c m true true => some (b.goto t (.retake c m true .etimedout) (some t), .internal)
  | .condWoken c m timed false =>
    some (b.goto t (.retake c m timed .ok) (if timed then some t else none), .internal)
  | .retake c m timed ret | .retakeWoken c m timed ret true =>
    some (b.retakeSem t c m timed ret, .internal)
  | .retakeWoken c m _ ret false | .setPid c m ret =>
    some ((b.setMutex m { b.mutex m with pid := some t }).goto t .user none, .resumed t c m ret)
  | .signal c sval =>
    if sval < 0 then (b.post (.inr c) w).map fun b => (b.goto t .user none, .posted c)
    else some (b.goto t .user none, .internal)
  | .broadcast c sval =>
    if sval < 0 then
      (b.post (.inr c) w).map fun b => (b.goto t (.broadcast c (sval + 1)) (some t), .posted c)
    else some (b.goto t .user none, .internal)
  | .user | .lockWait _ | .condWait _ _ _ | .retakeWait _ _ _ _ => none

end Sync

/-- The code of a step. -/
def SyncOp.step {μ κ τ : Type*} [DecidableEq μ] [DecidableEq κ] [DecidableEq τ]
    (b : Sync μ κ τ) : SyncOp μ κ τ → Option (Sync μ κ τ × SyncEvent μ κ τ)
  | call t r w => if (b.cpu = none ∨ b.cpu = some t) ∧ b.pc t = .user then b.call t w r else none
  | run t w => if b.cpu = none ∨ b.cpu = some t then b.go t w else none
  | interrupt w =>
    (b.pc w).waitsem.map fun s => ((b.setSem (b.sem.leave w s)).wake w true, .internal)

/-- The runs whose steps all satisfy `P`, with what the steps have shown, the latest first. -/
inductive SyncRun {μ κ τ : Type*} [DecidableEq μ] [DecidableEq κ] [DecidableEq τ]
    (type : μ → MutexType)
    (P : List (SyncEvent μ κ τ) → Sync μ κ τ → SyncOp μ κ τ → SyncEvent μ κ τ → Sync μ κ τ → Prop) :
    List (SyncEvent μ κ τ) → Sync μ κ τ → Prop
  | init : SyncRun type P [] (.init type)
  | step {tr : List (SyncEvent μ κ τ)} {b b' : Sync μ κ τ} {ev : SyncEvent μ κ τ}
      (op : SyncOp μ κ τ) : SyncRun type P tr b → op.step b = some (b', ev) → P tr b op ev b' →
      SyncRun type P (ev :: tr) b'

/-- A run that is given by its steps. -/
theorem SyncRun.replay {μ κ τ : Type*} [DecidableEq μ] [DecidableEq κ] [DecidableEq τ]
    (type : μ → MutexType)
    (P : List (SyncEvent μ κ τ) → Sync μ κ τ → SyncOp μ κ τ → SyncEvent μ κ τ → Sync μ κ τ → Prop)
    [∀ tr b op ev b', Decidable (P tr b op ev b')] (ops : List (SyncOp μ κ τ))
    (h : (NuttX.replay (fun op b => op.step b) List.cons P ops [] (.init type)).isSome) :
    SyncRun type P (get _ h).1 (get _ h).2 :=
  replay_sound (fun op hrun hop hP => hrun.step op hop hP) .init (some_get h).symm

/-! ### The semaphores and the threads -/

namespace Sync

section

variable {μ κ τ : Type*} {b : Sync μ κ τ} {t u : τ} {m : μ} {pc : SyncPc μ κ} {cpu : Option τ}
  {S : Sems (μ ⊕ κ) τ} {M : Mutex τ} {i : Bool}

@[simp] theorem sem_setSem : (b.setSem S).sem = S := rfl

@[simp] theorem mutex_setSem : (b.setSem S).mutex = b.mutex := rfl

@[simp] theorem pc_setSem : (b.setSem S).pc = b.pc := rfl

section

variable [DecidableEq μ]

@[simp] theorem sem_setMutex : (b.setMutex m M).sem = b.sem := rfl

@[simp] theorem mutex_setMutex : (b.setMutex m M).mutex = update b.mutex m M := rfl

@[simp] theorem pc_setMutex : (b.setMutex m M).pc = b.pc := rfl

end

variable [DecidableEq τ]

@[simp] theorem sem_goto : (b.goto t pc cpu).sem = b.sem := rfl

@[simp] theorem mutex_goto : (b.goto t pc cpu).mutex = b.mutex := rfl

@[simp] theorem pc_goto : (b.goto t pc cpu).pc = update b.pc t pc := rfl

@[simp] theorem sem_wake : (b.wake u i).sem = b.sem := rfl

@[simp] theorem mutex_wake : (b.wake u i).mutex = b.mutex := rfl

@[simp] theorem pc_wake : (b.wake u i).pc = update b.pc u ((b.pc u).wake i) := rfl

end

variable {μ κ τ : Type*} [DecidableEq μ] [DecidableEq κ] [DecidableEq τ] {b b' : Sync μ κ τ}
  {s : μ ⊕ κ} {t u : τ} {m : μ} {c : κ} {w : Option τ} {ev : SyncEvent μ κ τ}

/-- The semaphores count the threads that are blocked on them. -/
def Sane (b : Sync μ κ τ) : Prop := BlockedOn SyncPc.waitsem b.sem b.pc

omit [DecidableEq μ] [DecidableEq κ] [DecidableEq τ] in
theorem sane_init {type : μ → MutexType} : (init type : Sync μ κ τ).Sane := by
  refine BlockedOn.init (fun s => ?_) fun t => rfl
  cases s with
  | inl m => exact Int.one_nonneg
  | inr c => exact Int.le_refl 0

omit [DecidableEq κ] [DecidableEq τ] in
theorem Sane.setMutex (h : b.Sane) {M : Mutex τ} : (b.setMutex m M).Sane := h

omit [DecidableEq μ] [DecidableEq κ] in
theorem Sane.goto (h : b.Sane) {pc : SyncPc μ κ} {cpu : Option τ} (ht : (b.pc t).waitsem = none)
    (hpc : pc.waitsem = none) : (b.goto t pc cpu).Sane :=
  BlockedOn.goto h ht hpc

omit [DecidableEq τ] in
theorem Sane.take (h : b.Sane) (hs : 0 < b.sem.count s) : (b.setSem (b.sem.take s)).Sane :=
  BlockedOn.take h hs

theorem Sane.join (h : b.Sane) {pc : SyncPc μ κ} {cpu : Option τ} (hs : b.sem.count s ≤ 0)
    (ht : (b.pc t).waitsem = none) (hpc : pc.waitsem = some s) :
    ((b.setSem (b.sem.join t s)).goto t pc cpu).Sane :=
  BlockedOn.join h hs ht hpc

theorem Sane.leave (h : b.Sane) (hu : (b.pc u).waitsem = some s) {i : Bool} :
    ((b.setSem (b.sem.leave u s)).wake u i).Sane :=
  BlockedOn.leave h hu SyncPc.waitsem_wake

/-- **A post wakes a thread that is blocked on the semaphore, or there is none.** -/
theorem Sane.post (h : b.Sane) (hpost : b.post s w = some b') :
    b'.Sane ∧ ((w = none ∧ 0 ≤ b.sem.count s ∧ b' = b.setSem (b.sem.give s)) ∨
      ∃ u, w = some u ∧ b.sem.count s < 0 ∧ (b.pc u).waitsem = some s ∧
        b' = (b.setSem (b.sem.leave u s)).wake u false) := by
  rw [Sync.post, map_eq_some_iff] at hpost
  obtain ⟨S, hS, rfl⟩ := hpost
  rcases BlockedOn.post h hS with ⟨rfl, hs, rfl, hb⟩ | ⟨u, rfl, hs, hu, rfl⟩
  · exact ⟨hb, Or.inl ⟨rfl, hs, rfl⟩⟩
  · exact ⟨h.leave hu, Or.inr ⟨u, rfl, hs, hu, rfl⟩⟩

theorem Sane.lockSem (h : b.Sane) (ht : (b.pc t).waitsem = none)
    (hlock : b.lockSem t m = (b', ev)) : b'.Sane := by
  rw [Sync.lockSem] at hlock
  rcases b.sem.wait_cases t (.inl m) with ⟨hs, hS⟩ | ⟨hs, hS⟩ <;> rw [hS] at hlock <;> cases hlock
  · exact (h.take hs).setMutex.goto ht rfl
  · exact h.join hs ht rfl

theorem Sane.condSem (h : b.Sane) (ht : (b.pc t).waitsem = none) {timed : Bool} :
    (b.condSem t c m timed).Sane := by
  rw [Sync.condSem]
  rcases b.sem.wait_cases t (.inr c) with ⟨hs, hS⟩ | ⟨hs, hS⟩ <;> rw [hS]
  · exact (h.take hs).goto ht rfl
  · exact h.join hs ht rfl

theorem Sane.retakeSem (h : b.Sane) (ht : (b.pc t).waitsem = none) {timed : Bool} {ret : Errno} :
    (b.retakeSem t c m timed ret).Sane := by
  rw [Sync.retakeSem]
  rcases b.sem.wait_cases t (.inl m) with ⟨hs, hS⟩ | ⟨hs, hS⟩ <;> rw [hS]
  · exact (h.take hs).goto ht rfl
  · exact h.join hs ht rfl

theorem Sane.post_pc (h : b.Sane) (hpost : b.post s w = some b') (ht : (b.pc t).waitsem = none) :
    b'.pc t = b.pc t := by
  rcases (h.post hpost).2 with ⟨-, -, rfl⟩ | ⟨u, -, -, hu, rfl⟩
  · rfl
  have htu : t ≠ u := by
    rintro rfl
    rw [ht] at hu
    cases hu
  rw [pc_wake, update_of_ne htu, pc_setSem]

theorem Sane.call (h : b.Sane) {r : SyncCall μ κ} (ht : b.pc t = .user)
    (hcall : b.call t w r = some (b', ev)) : b'.Sane := by
  have htw : (b.pc t).waitsem = none := by
    rw [ht]
    rfl
  cases r with
  | lock m =>
    rw [Sync.call] at hcall
    split at hcall
    · split at hcall <;> cases hcall
      · exact h.setMutex
      · exact h
    · exact h.lockSem htw (some.inj hcall)
  | trylock m =>
    rw [Sync.call] at hcall
    split at hcall <;> cases hcall
    · rename_i hs
      exact (h.take hs).setMutex
    · exact h
  | unlock m =>
    rw [Sync.call] at hcall
    split at hcall
    · cases hcall
      exact h
    split at hcall
    · cases hcall
      exact h.setMutex
    · obtain ⟨b1, hpost, heq⟩ := map_eq_some_iff.mp hcall
      cases heq
      exact (h.setMutex.post hpost).1
  | condWait c m =>
    rw [Sync.call] at hcall
    split at hcall <;> cases hcall
    · exact h
    · exact h.goto htw rfl
  | condTimedwait c m ticks =>
    cases ticks with
    | none =>
      rw [Sync.call] at hcall
      split at hcall <;> cases hcall <;> exact h
    | some ticks =>
      rw [Sync.call] at hcall
      split at hcall
      · cases hcall
        exact h
      split at hcall <;> cases hcall
      · exact h
      · exact h.goto htw rfl
  | condSignal c | condBroadcast c =>
    cases hcall
    exact h.goto htw rfl

theorem Sane.go (h : b.Sane) (hgo : b.go t w = some (b', ev)) : b'.Sane := by
  have hpost : ∀ {s : μ ⊕ κ} {b1 b2 : Sync μ κ τ} {pc : SyncPc μ κ} {cpu : Option τ}, b1.Sane →
      (b1.pc t).waitsem = none → pc.waitsem = none → b1.post s w = some b2 →
      (b2.goto t pc cpu).Sane := by
    intro s b1 b2 pc cpu h1 ht hpc hpost
    exact (h1.post hpost).1.goto (by rw [h1.post_pc hpost ht, ht]) hpc
  rw [Sync.go] at hgo
  split at hgo <;> rename_i hpc <;> try have ht := congrArg SyncPc.waitsem hpc
  · exact h.lockSem ht (some.inj hgo)
  · cases hgo
    exact h.setMutex.goto ht rfl
  · obtain ⟨b1, hb1, heq⟩ := map_eq_some_iff.mp hgo
    cases heq
    refine (h.setMutex.post hb1).1.condSem ?_
    rw [h.setMutex.post_pc hb1 ht]
    exact ht
  · cases hgo
    exact h.condSem ht
  · cases hgo
    exact h.goto ht rfl
  · cases hgo
    exact h.goto ht rfl
  · cases hgo
    exact h.retakeSem ht
  · cases hgo
    exact h.retakeSem ht
  · cases hgo
    exact h.setMutex.goto ht rfl
  · cases hgo
    exact h.setMutex.goto ht rfl
  iterate 2
    · split at hgo
      · obtain ⟨b1, hb1, heq⟩ := map_eq_some_iff.mp hgo
        cases heq
        exact hpost h ht rfl hb1
      · cases hgo
        exact h.goto ht rfl
  all_goals cases hgo

/-- **The semaphores count the blocked threads after every step.** -/
theorem Sane.step (h : b.Sane) {op : SyncOp μ κ τ} (hstep : op.step b = some (b', ev)) :
    b'.Sane := by
  cases op with
  | call t r w =>
    obtain ⟨hcond, hstep⟩ := ite_none_right_eq_some.mp hstep
    exact h.call hcond.2 hstep
  | run t w =>
    exact h.go (ite_none_right_eq_some.mp hstep).2
  | interrupt w =>
    obtain ⟨s, hs, heq⟩ := map_eq_some_iff.mp hstep
    cases heq
    exact h.leave hs

end Sync

theorem SyncRun.sane {μ κ τ : Type*} [DecidableEq μ] [DecidableEq κ] [DecidableEq τ]
    {type : μ → MutexType}
    {P : List (SyncEvent μ κ τ) → Sync μ κ τ → SyncOp μ κ τ → SyncEvent μ κ τ → Sync μ κ τ → Prop}
    {tr : List (SyncEvent μ κ τ)} {b : Sync μ κ τ} (h : SyncRun type P tr b) : b.Sane := by
  induction h with
  | init => exact Sync.sane_init
  | step op _ hstep _ ih => exact ih.step hstep

end NuttX
