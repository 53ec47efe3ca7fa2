import NuttX.Pthread.Sync

/-!
# Who owns a mutex

A mutex is a pair of a semaphore and of the fields `pid` and `nlocks`, and three groups of functions
change them. `NuttX.Lock` is what they make of it, seen for one mutex at a time: what is in the
fields, the count, what each thread is about to do with the mutex, and how many more times it has
locked than unlocked it. Each step of the code is one of the moves of `NuttX.LockStep`
(`NuttX.Sync.step_lock`).

`pthread_mutex_trylock` does not set `nlocks`, and `pthread_cond_wait` neither saves nor restores
it. `NuttX.syncRun_mutexLaw` is what a mutex is for, in the runs in which this does no harm;
`NuttX.syncRun_released_early` is what happens otherwise.
-/

namespace NuttX

open Function SyncPc Sync Option

/-! ### One mutex -/

/-- What a thread is about to do with the mutex. -/
inductive LockRole
  | out
  | seeking
  | granted
  | giving
  | parked
  | returning
  deriving DecidableEq, Repr

namespace LockRole

/-- The thread has been given the semaphore. -/
@[grind =]
def grant : LockRole → LockRole
  | seeking => granted
  | parked => returning
  | r => r

/-- The thread has the semaphore, and does not show in the mutex. -/
@[grind =]
def hasSem : LockRole → Bool
  | granted | returning => true
  | _ => false

/-- The thread is in the wait on a condition variable. -/
@[grind =]
def isParked : LockRole → Bool
  | parked | returning => true
  | _ => false

end LockRole

/-- A mutex and the threads. -/
@[ext]
structure Lock (τ : Type*) where
  type : MutexType
  pid : Option τ
  nlocks : ℤ
  count : ℤ
  role : τ → LockRole
  depth : τ → ℤ

namespace Lock

variable {τ : Type*} [DecidableEq τ]

def post (V : Lock τ) : Option τ → Lock τ
  | none => { V with count := V.count + 1 }
  | some w => { V with count := V.count + 1, role := update V.role w (V.role w).grant }

def Posts (V : Lock τ) : Option τ → Prop
  | none => 0 ≤ V.count
  | some w => V.count < 0 ∧ (V.role w = .seeking ∨ V.role w = .parked)

end Lock

/-- What can happen to a mutex. -/
inductive LockStep {τ : Type*} [DecidableEq τ] (V : Lock τ) : Lock τ → Prop
  | stay : LockStep V V
  | nest (t : τ) (hpid : V.pid = some t) (hrole : V.role t = .out) (htype : V.type = .recursive) :
      LockStep V { V with nlocks := (V.nlocks + 1).bmod (2 ^ 32)
                          depth := update V.depth t (V.depth t + 1) }
  | block (t : τ) (hrole : V.role t = .out ∧ V.pid ≠ some t ∨ V.role t = .seeking)
      (hcount : V.count ≤ 0) :
      LockStep V { V with count := V.count - 1, role := update V.role t .seeking }
  | grab (t : τ) (hrole : V.role t = .out ∨ V.role t = .seeking) (hcount : 0 < V.count) :
      LockStep V { V with pid := some t, nlocks := 1, count := V.count - 1
                          role := update V.role t .out
                          depth := update V.depth t (V.depth t + 1) }
  | receive (t : τ) (hrole : V.role t = .granted) :
      LockStep V { V with pid := some t, nlocks := 1, role := update V.role t .out
                          depth := update V.depth t (V.depth t + 1) }
  | tryGrab (t : τ) (hrole : V.role t = .out) (hcount : 0 < V.count) :
      LockStep V { V with pid := some t, count := V.count - 1
                          depth := update V.depth t (V.depth t + 1) }
  | unnest (t : τ) (hpid : V.pid = some t) (hrole : V.role t = .out)
      (hlocks : V.type = .recursive ∧ 1 < V.nlocks) :
      LockStep V { V with nlocks := V.nlocks - 1
                          depth := update V.depth t (V.depth t - 1) }
  | release (t : τ) (w : Option τ) (hpid : V.pid = some t) (hrole : V.role t = .out)
      (hlocks : ¬ (V.type = .recursive ∧ 1 < V.nlocks)) (hpost : V.Posts w) :
      LockStep V { V.post w with pid := none, nlocks := 0
                                 depth := update V.depth t (V.depth t - 1) }
  | prepare (t : τ) (hpid : V.pid = some t) (hrole : V.role t = .out) :
      LockStep V { V with role := update V.role t .giving }
  | giveUp (t : τ) (w : Option τ) (hrole : V.role t = .giving) (hpost : V.Posts w) :
      LockStep V { V.post w with pid := none, role := update (V.post w).role t .parked }
  | reblock (t : τ) (hrole : V.role t = .parked) (hcount : V.count ≤ 0) :
      LockStep V { V with count := V.count - 1 }
  | retake (t : τ) (hrole : V.role t = .parked) (hcount : 0 < V.count) :
      LockStep V { V with count := V.count - 1, role := update V.role t .returning }
  | resume (t : τ) (hrole : V.role t = .returning) :
      LockStep V { V with pid := some t, role := update V.role t .out }
  | interrupt (t : τ) (hrole : V.role t = .seeking ∨ V.role t = .parked) (hcount : V.count < 0) :
      LockStep V { V with count := V.count + 1 }

theorem LockStep.of_eq {τ : Type*} [DecidableEq τ] {V V' : Lock τ} (h : V' = V) : LockStep V V' :=
  h ▸ .stay

/-! ### The mutexes of the code -/

namespace SyncPc

variable {μ κ : Type*} [DecidableEq μ]

/-- What the thread is about to do with the mutex `m`. -/
def role (m : μ) : SyncPc μ κ → LockRole
  | user | signal _ _ | broadcast _ _ => .out
  | lockWait m' | lockWoken m' true => if m' = m then .seeking else .out
  | lockWoken m' false => if m' = m then .granted else .out
  | give _ m' _ => if m' = m then .giving else .out
  | condWait _ m' _ | condWoken _ m' _ _ | retake _ m' _ _ | retakeWait _ m' _ _
  | retakeWoken _ m' _ _ true => if m' = m then .parked else .out
  | retakeWoken _ m' _ _ false | setPid _ m' _ => if m' = m then .returning else .out

variable {m : μ} {pc : SyncPc μ κ}

theorem role_wake_of_ne (h : pc.waitsem ≠ some (.inl m)) {i : Bool} :
    (pc.wake i).role m = pc.role m := by
  cases pc with
  | lockWait m' | retakeWait c m' timed ret =>
    have hm : m' ≠ m := fun hm => h (congrArg _ (congrArg _ hm))
    cases i <;> simp [wake, role, hm]
  | _ => rfl

theorem role_wake_true : (pc.wake true).role m = pc.role m := by
  cases pc <;> rfl

theorem role_wake_false (h : pc.waitsem = some (.inl m)) :
    (pc.role m = .seeking ∨ pc.role m = .parked) ∧ (pc.wake false).role m = (pc.role m).grant := by
  cases pc with
  | lockWait m' | retakeWait c m' timed ret =>
    cases h
    simp [wake, role, LockRole.grant]
  | _ => cases h

end SyncPc

namespace Sync

variable {μ κ τ : Type*} [DecidableEq μ] [DecidableEq τ]

/-- How many more times a thread has locked the mutex than unlocked it. -/
def depth (m : μ) : List (SyncEvent μ κ τ) → τ → ℤ
  | [] => fun _ => 0
  | .acquired t m' :: tr =>
    if m' = m then update (depth m tr) t (depth m tr t + 1) else depth m tr
  | .unlocked t m' :: tr =>
    if m' = m then update (depth m tr) t (depth m tr t - 1) else depth m tr
  | _ :: tr => depth m tr

/-- One of the mutexes. -/
def lock (tr : List (SyncEvent μ κ τ)) (b : Sync μ κ τ) (m : μ) : Lock τ where
  type := (b.mutex m).type
  pid := (b.mutex m).pid
  nlocks := (b.mutex m).nlocks
  count := b.sem.count (.inl m)
  role t := (b.pc t).role m
  depth := depth m tr

variable {tr : List (SyncEvent μ κ τ)} {b b' : Sync μ κ τ} {s : μ ⊕ κ} {t u : τ} {m m' : μ} {c : κ}
  {w : Option τ} {ev : SyncEvent μ κ τ} {pc : SyncPc μ κ} {cpu : Option τ}

theorem lock_goto : lock tr (b.goto t pc cpu) m =
    { lock tr b m with role := update (lock tr b m).role t (pc.role m) } := by
  refine Lock.ext rfl rfl rfl rfl (funext fun u => ?_) rfl
  simp only [lock, pc_goto, update_apply]
  split <;> rfl

theorem lock_goto_of_eq (h : pc.role m = (b.pc t).role m) :
    lock tr (b.goto t pc cpu) m = lock tr b m := by
  rw [lock_goto, h]
  exact Lock.ext rfl rfl rfl rfl (update_eq_self t (lock tr b m).role) rfl

theorem lockStep_goto (h : (b.pc t).role m = pc.role m) :
    LockStep (lock tr b m) (lock tr (b.goto t pc cpu) m) :=
  .of_eq (lock_goto_of_eq h.symm)

theorem lock_setMutex {M : Mutex τ} : lock tr (b.setMutex m M) m =
    { lock tr b m with type := M.type, pid := M.pid, nlocks := M.nlocks } := by
  simp [lock]

theorem lock_setMutex_of_ne (h : m' ≠ m) {M : Mutex τ} :
    lock tr (b.setMutex m' M) m = lock tr b m := by
  simp [lock, h.symm]

theorem lock_acquired_of_ne (h : m' ≠ m) : lock (.acquired t m' :: tr) b m = lock tr b m := by
  rw [lock, depth, if_neg h, lock]

theorem lock_unlocked_of_ne (h : m' ≠ m) : lock (.unlocked t m' :: tr) b m = lock tr b m := by
  rw [lock, depth, if_neg h, lock]

variable [DecidableEq κ]

theorem lock_take : lock tr (b.setSem (b.sem.take (.inl m))) m =
    { lock tr b m with count := (lock tr b m).count - 1 } := by
  simp [lock]

theorem lock_take_of_ne (h : s ≠ .inl m) :
    lock tr (b.setSem (b.sem.take s)) m = lock tr b m := by
  simp [lock, h.symm]

theorem lock_join : lock tr (b.setSem (b.sem.join t (.inl m))) m =
    { lock tr b m with count := (lock tr b m).count - 1 } := by
  simp [lock]

theorem lock_join_of_ne (h : s ≠ .inl m) :
    lock tr (b.setSem (b.sem.join t s)) m = lock tr b m := by
  simp [lock, h.symm]

theorem Sane.lock_post (h : b.Sane) (hpost : b.post (.inl m) w = some b') :
    (lock tr b m).Posts w ∧ lock tr b' m = (lock tr b m).post w := by
  rcases (h.post hpost).2 with ⟨rfl, hcount, rfl⟩ | ⟨u, rfl, hcount, hu, rfl⟩
  · refine ⟨hcount, ?_⟩
    simp [lock, Lock.post]
  obtain ⟨hrole, hgrant⟩ := role_wake_false hu
  refine ⟨⟨hcount, hrole⟩,
    Lock.ext rfl rfl rfl (by simp [lock, Lock.post]) (funext fun v => ?_) rfl⟩
  simp only [lock, Lock.post, pc_wake, pc_setSem, update_apply]
  split
  · exact hgrant
  · rfl

theorem Sane.lock_post_of_ne (h : b.Sane) (hpost : b.post s w = some b') (hs : s ≠ .inl m) :
    lock tr b' m = lock tr b m := by
  rcases (h.post hpost).2 with ⟨rfl, -, rfl⟩ | ⟨u, rfl, -, hu, rfl⟩
  · simp [lock, hs.symm]
  refine Lock.ext rfl rfl rfl (by simp [lock, hs.symm]) (funext fun v => ?_) rfl
  simp only [lock, pc_wake, pc_setSem, update_apply]
  split
  · rename_i hv
    rw [hv]
    refine role_wake_of_ne ?_
    rw [hu]
    exact fun heq => hs (some.inj heq)
  · rfl

/-- A thread asks for the semaphore in `pthread_mutex_lock`. -/
theorem lock_lockSem (hself : (b.pc t).role m' = .out ∧ (b.mutex m').pid ≠ some t ∨
      (b.pc t).role m' = .seeking)
    (hother : m' ≠ m → (b.pc t).role m = .out) (hlock : b.lockSem t m' = (b', ev)) :
    LockStep (lock tr b m) (lock (ev :: tr) b' m) := by
  rw [lockSem] at hlock
  rcases b.sem.wait_cases t (.inl m') with ⟨hs, hS⟩ | ⟨hs, hS⟩ <;> rw [hS] at hlock <;> cases hlock
  · rcases eq_or_ne m' m with rfl | hm
    · have hstep := LockStep.grab (V := lock tr b m') t (hself.imp And.left id) hs
      convert hstep using 1
      rw [lock_goto, lock_setMutex, lock_take]
      simp [lock, depth, role]
    · refine .of_eq ?_
      rw [lock_goto_of_eq, lock_setMutex_of_ne hm, lock_take_of_ne (Sum.inl_injective.ne hm),
        lock_acquired_of_ne hm]
      exact (hother hm).symm
  · rcases eq_or_ne m' m with rfl | hm
    · have hstep := LockStep.block (V := lock tr b m') t hself hs
      convert hstep using 1
      rw [lock_goto, lock_join]
      simp [lock, depth, role]
    · refine .of_eq ?_
      rw [lock_goto_of_eq, lock_join_of_ne (Sum.inl_injective.ne hm)]
      · rfl
      · exact (if_neg hm).trans (hother hm).symm

theorem lock_retakeSem {timed : Bool} {ret : Errno}
    (hrole : (b.pc t).role m = if m' = m then .parked else .out) :
    LockStep (lock tr b m) (lock tr (b.retakeSem t c m' timed ret) m) := by
  rw [retakeSem]
  rcases b.sem.wait_cases t (.inl m') with ⟨hs, hS⟩ | ⟨hs, hS⟩ <;> simp only [hS]
  · rcases eq_or_ne m' m with rfl | hm
    · rw [if_pos rfl] at hrole
      convert LockStep.retake (V := lock tr b m') t hrole hs using 1
      rw [lock_goto, lock_take]
      simp [lock, role]
    · refine .of_eq ?_
      rw [lock_goto_of_eq, lock_take_of_ne (Sum.inl_injective.ne hm)]
      rw [if_neg hm] at hrole
      exact (if_neg hm).trans hrole.symm
  · rcases eq_or_ne m' m with rfl | hm
    · rw [if_pos rfl] at hrole
      convert LockStep.reblock (V := lock tr b m') t hrole hs using 1
      rw [lock_goto_of_eq, lock_join]
      exact (if_pos rfl).trans hrole.symm
    · refine .of_eq ?_
      rw [lock_goto_of_eq, lock_join_of_ne (Sum.inl_injective.ne hm)]
      rw [if_neg hm] at hrole
      exact (if_neg hm).trans hrole.symm

theorem lock_condSem {timed : Bool} :
    lock tr (b.condSem t c m' timed) m =
      { lock tr b m with
        role := update (lock tr b m).role t (if m' = m then .parked else .out) } := by
  rw [condSem]
  rcases b.sem.wait_cases t (.inr c) with ⟨hs, hS⟩ | ⟨hs, hS⟩ <;> simp only [hS]
  · rw [lock_goto, lock_take_of_ne Sum.inr_ne_inl]
    rfl
  · rw [lock_goto, lock_join_of_ne Sum.inr_ne_inl]
    rfl

/-- The first step of a call. -/
theorem Sane.lock_call (h : b.Sane) {r : SyncCall μ κ} (ht : b.pc t = .user)
    (hcall : b.call t w r = some (b', ev)) :
    LockStep (lock tr b m) (lock (ev :: tr) b' m) := by
  have hrole : ∀ m, (b.pc t).role m = .out := by
    intro m
    rw [ht]
    rfl
  have hprep : ∀ {c : κ} {m' : μ} {timed : Bool} {cpu : Option τ}, ¬ (b.mutex m').pid ≠ some t →
      LockStep (lock tr b m) (lock tr (b.goto t (.give c m' timed) cpu) m) := by
    intro c m' timed cpu hpid
    rcases eq_or_ne m' m with rfl | hm
    · convert LockStep.prepare (V := lock tr b m') t (not_not.mp hpid) (hrole m') using 1
      rw [lock_goto]
      simp [role]
    · exact lockStep_goto ((hrole m).trans (if_neg hm).symm)
  cases r with
  | lock m' =>
    rw [Sync.call] at hcall
    split at hcall
    · rename_i hpid
      split at hcall <;> cases hcall
      · rename_i htype
        rcases eq_or_ne m' m with rfl | hm
        · convert LockStep.nest (V := lock tr b m') t hpid (hrole m') htype using 1
          simp [lock, depth]
        · refine .of_eq ?_
          rw [lock_setMutex_of_ne hm, lock_acquired_of_ne hm]
      · exact .stay
    · rename_i hpid
      exact lock_lockSem (Or.inl ⟨hrole m', hpid⟩) (fun _ => hrole m) (some.inj hcall)
  | trylock m' =>
    rw [Sync.call] at hcall
    split at hcall <;> cases hcall
    · rename_i hs
      rcases eq_or_ne m' m with rfl | hm
      · convert LockStep.tryGrab (V := lock tr b m') t (hrole m') hs using 1
        simp [lock, depth]
      · refine .of_eq ?_
        rw [lock_setMutex_of_ne hm, lock_take_of_ne (Sum.inl_injective.ne hm),
          lock_acquired_of_ne hm]
    · exact .stay
  | unlock m' =>
    rw [Sync.call] at hcall
    split at hcall
    · cases hcall
      exact .stay
    rename_i hpid
    split at hcall
    · rename_i hlocks
      cases hcall
      rcases eq_or_ne m' m with rfl | hm
      · convert LockStep.unnest (V := lock tr b m') t (not_not.mp hpid) (hrole m') hlocks using 1
        simp [lock, depth]
      · refine .of_eq ?_
        rw [lock_setMutex_of_ne hm, lock_unlocked_of_ne hm]
    · rename_i hlocks
      obtain ⟨b1, hpost, heq⟩ := map_eq_some_iff.mp hcall
      cases heq
      rcases eq_or_ne m' m with rfl | hm
      · obtain ⟨hw, heq⟩ : _ ∧ lock (.unlocked t m' :: tr) b' m' = _ := h.setMutex.lock_post hpost
        rw [heq]
        convert LockStep.release (V := lock tr b m') t w (not_not.mp hpid) (hrole m') hlocks hw
          using 1
        cases w <;> simp [lock, Lock.post, depth]
      · refine .of_eq ?_
        rw [h.setMutex.lock_post_of_ne hpost (Sum.inl_injective.ne hm), lock_setMutex_of_ne hm,
          lock_unlocked_of_ne hm]
  | condWait c m' =>
    rw [Sync.call] at hcall
    split at hcall <;> cases hcall
    · exact .stay
    · rename_i hpid
      exact hprep hpid
  | condTimedwait c m' ticks =>
    cases ticks with
    | none =>
      rw [Sync.call] at hcall
      split at hcall <;> cases hcall <;> exact .stay
    | some ticks =>
      rw [Sync.call] at hcall
      split at hcall
      · cases hcall
        exact .stay
      rename_i hpid
      split at hcall <;> cases hcall
      · exact .stay
      · exact hprep hpid
  | condSignal c | condBroadcast c =>
    cases hcall
    exact lockStep_goto (hrole m)

/-- A later step of a call. -/
theorem Sane.lock_go (h : b.Sane) (hgo : b.go t w = some (b', ev)) :
    LockStep (lock tr b m) (lock (ev :: tr) b' m) := by
  have hresume : ∀ {m' : μ}, (b.pc t).role m = (if m' = m then .returning else .out) →
      LockStep (lock tr b m)
        (lock tr ((b.setMutex m' { b.mutex m' with pid := some t }).goto t .user none) m) := by
    intro m' hrole
    rcases eq_or_ne m' m with rfl | hm
    · rw [if_pos rfl] at hrole
      convert LockStep.resume (V := lock tr b m') t hrole using 1
      rw [lock_goto, lock_setMutex]
      simp [lock, role]
    · refine .of_eq ?_
      rw [lock_goto_of_eq, lock_setMutex_of_ne hm]
      rw [if_neg hm] at hrole
      exact hrole.symm
  have hsignal : ∀ {c : κ} {b1 : Sync μ κ τ} {pc : SyncPc μ κ} {cpu : Option τ},
      (b.pc t).role m = .out → (b.pc t).waitsem = none → pc.role m = .out →
      b.post (.inr c) w = some b1 →
      LockStep (lock tr b m) (lock tr (b1.goto t pc cpu) m) := by
    intro c b1 pc cpu hrole hsem hpc hpost
    refine .of_eq ?_
    rw [lock_goto_of_eq, h.lock_post_of_ne hpost Sum.inr_ne_inl]
    rw [h.post_pc hpost hsem, hpc, hrole]
  rw [Sync.go] at hgo
  split at hgo <;> rename_i hpc <;> try have hrole := congrArg (role m) hpc
  · -- Interrupted in `pthread_mutex_lock`.
    refine lock_lockSem (Or.inr ?_) (fun hm => ?_) (some.inj hgo)
    · rw [hpc]
      exact if_pos rfl
    · rw [hpc]
      exact if_neg hm
  · -- In `pthread_mutex_lock` with the semaphore.
    cases hgo
    rename_i m'
    rcases eq_or_ne m' m with rfl | hm
    · convert LockStep.receive (V := lock tr b m') t (hrole.trans (if_pos rfl)) using 1
      rw [lock_goto, lock_setMutex]
      simp [lock, depth, role]
    · refine .of_eq ?_
      rw [lock_goto_of_eq, lock_setMutex_of_ne hm, lock_acquired_of_ne hm]
      exact (hrole.trans (if_neg hm)).symm
  · -- The mutex is given up.
    rename_i c m' timed
    obtain ⟨b1, hpost, heq⟩ := map_eq_some_iff.mp hgo
    cases heq
    rw [lock_condSem]
    rcases eq_or_ne m' m with rfl | hm
    · obtain ⟨hw, heq⟩ : _ ∧ lock (.waits t c m' :: tr) b1 m' = _ := h.setMutex.lock_post hpost
      rw [heq]
      convert LockStep.giveUp (V := lock tr b m') t w (hrole.trans (if_pos rfl)) hw using 1
      cases w <;> simp [lock, Lock.post, depth]
    refine .of_eq ?_
    have hb1 : lock (.waits t c m' :: tr) b1 m = lock tr b m := by
      rw [h.setMutex.lock_post_of_ne hpost (Sum.inl_injective.ne hm), lock_setMutex_of_ne hm]
      rfl
    rw [hb1, if_neg hm, ← hrole.trans (if_neg hm)]
    exact Lock.ext rfl rfl rfl rfl (update_eq_self t (lock tr b m).role) rfl
  · cases hgo
    refine .of_eq ?_
    rw [lock_condSem]
    exact Lock.ext rfl rfl rfl rfl ((update_eq_iff.mpr ⟨hrole.symm, fun _ _ => rfl⟩)) rfl
  · cases hgo
    exact lockStep_goto hrole
  · cases hgo
    exact lockStep_goto hrole
  · cases hgo
    exact lock_retakeSem hrole
  · cases hgo
    exact lock_retakeSem hrole
  · cases hgo
    exact hresume hrole
  · cases hgo
    exact hresume hrole
  -- `pthread_cond_signal` and `pthread_cond_broadcast`.
  iterate 2
    · split at hgo
      · obtain ⟨b1, hpost, heq⟩ := map_eq_some_iff.mp hgo
        cases heq
        exact hsignal hrole (congrArg waitsem hpc) rfl hpost
      cases hgo
      exact lockStep_goto hrole
  all_goals cases hgo

/-- **Each step of the code is a move of each of the mutexes.** -/
theorem Sane.step_lock (h : b.Sane) {op : SyncOp μ κ τ} (hstep : op.step b = some (b', ev)) :
    LockStep (lock tr b m) (lock (ev :: tr) b' m) := by
  cases op with
  | call t r w =>
    obtain ⟨hcond, hstep⟩ := ite_none_right_eq_some.mp hstep
    exact h.lock_call hcond.2 hstep
  | run t w =>
    exact h.lock_go (ite_none_right_eq_some.mp hstep).2
  | interrupt w =>
    obtain ⟨s, hs, heq⟩ := map_eq_some_iff.mp hstep
    cases heq
    have hneg := h.wf.count_neg ((h.waiting s w).mpr hs)
    have hrole : ∀ u, (((b.setSem (b.sem.leave w s)).wake w true).pc u).role m =
        (b.pc u).role m := by
      intro u
      rw [pc_wake, pc_setSem, update_apply]
      split
      · rename_i hu
        rw [role_wake_true, hu]
      · rfl
    rcases eq_or_ne s (.inl m) with rfl | hm
    · convert LockStep.interrupt (V := lock tr b m) w (role_wake_false hs).1 hneg using 1
      exact Lock.ext rfl rfl rfl (by simp [lock]) (funext hrole) rfl
    · refine .of_eq ?_
      exact Lock.ext rfl rfl rfl (by simp [lock, hm.symm]) (funext hrole) rfl

end Sync

/-! ### The invariant -/

namespace Lock

variable {τ : Type*} {V : Lock τ} {h : Option τ} {t : τ}

/-- Who has the semaphore of the mutex: the owner, or a thread that will be the owner. -/
structure Held (V : Lock τ) (h : Option τ) : Prop where
  count : h = none ∧ V.count = 1 ∨ h ≠ none ∧ V.count ≤ 0
  owner : ∀ t, V.pid = some t → h = some t ∧ (V.role t = .out ∨ V.role t = .giving)
  hasSem : ∀ t, (V.role t).hasSem = true → h = some t ∧ V.pid = none
  holder : ∀ t, h = some t → V.pid = some t ∨ (V.role t).hasSem = true
  giving : ∀ t, V.role t = .giving → V.pid = some t

attribute [grind cases] Held

/-- Nobody has the semaphore while it can be taken. -/
theorem Held.free (hV : V.Held h) (hcount : 0 < V.count) : h = none ∧ V.pid = none := by
  rcases hV.count with ⟨rfl, -⟩ | ⟨-, hle⟩
  · exact ⟨rfl, eq_none_iff_forall_ne_some.mpr fun t ht => absurd (hV.owner t ht).1 nofun⟩
  · omega

/-- How often the threads have locked the mutex, and what `nlocks` says about it. -/
structure Depths (V : Lock τ) : Prop where
  nonneg : ∀ t, 0 ≤ V.depth t
  pos_iff : ∀ t, 0 < V.depth t ↔ V.pid = some t ∨ (V.role t).isParked = true
  single : V.type ≠ .recursive → ∀ t, V.depth t ≤ 1
  owned : V.type = .recursive → ∀ t, V.pid = some t →
    max V.nlocks 1 = V.depth t ∧ ∀ u, (V.role u).isParked = true → V.depth u ≤ 1
  free : V.type = .recursive → V.pid = none →
    (∀ u, (V.role u).isParked = true → 2 ≤ V.depth u → V.nlocks = V.depth u) ∧
      ((∀ u, (V.role u).isParked = true → V.depth u ≤ 1) → V.nlocks ≤ 1)

/-- The step does not confuse `nlocks`: the owner locks the mutex again only when `nlocks` has been
set and does not overflow, and nobody becomes the owner while another thread waits on a condition
variable and has locked the mutex more than once. -/
structure Keeps (V V' : Lock τ) : Prop where
  nest : ∀ t, V.pid = some t → V'.depth t = V.depth t + 1 → 1 ≤ V.nlocks ∧ V.nlocks < 2 ^ 31 - 1
  acquire : ∀ t, V'.pid = some t → V.pid ≠ some t → ∀ u, u ≠ t → (V.role u).isParked = true →
    V.depth u ≤ 1

attribute [grind cases] Depths Keeps

theorem Depths.eq_one (hV : V.Depths) (hpid : V.pid = some t)
    (hlocks : ¬ (V.type = .recursive ∧ 1 < V.nlocks)) : V.depth t = 1 := by
  obtain ⟨hnonneg, hpos, hsingle, howned, hfree⟩ := hV
  by_cases htype : V.type = .recursive
  · grind
  · have hle := hsingle htype t
    have hlt := (hpos t).mpr (Or.inl hpid)
    omega

end Lock

section

variable {τ : Type*} [DecidableEq τ] {V V' : Lock τ} {h : Option τ}

/-- A thread becomes the owner. -/
theorem Lock.Held.own (hV : V.Held h) {t : τ} (hpid : V.pid = none)
    (hother : ∀ u, (V.role u).hasSem = true → u = t) {r : τ → LockRole}
    (hr : ∀ u, r u = if u = t then .out else V.role u) {n c : ℤ} (hc : c ≤ 0) {d : τ → ℤ} :
    Held { V with pid := some t, nlocks := n, count := c, role := r, depth := d } (some t) := by
  constructor <;> grind -linarith

/-- The owner gives the mutex up, and `r` is what it does then. -/
theorem Lock.Held.post (hV : V.Held h) {t : τ} {w : Option τ} {r : LockRole} {f : τ → LockRole}
    (hpid : V.pid = some t) (hr : r = .out ∨ r = .parked) (hpost : V.Posts w)
    (hf : ∀ u, f u = if u = t then r else (V.post w).role u) {n : ℤ} {d : τ → ℤ} :
    Held { V.post w with pid := none, nlocks := n, role := f, depth := d } w := by
  cases w with
  | none =>
    simp only [Lock.post, Lock.Posts] at hf hpost ⊢
    constructor <;> grind -linarith
  | some w =>
    simp only [Lock.post, Lock.Posts, update_apply] at hf hpost ⊢
    constructor <;> grind -linarith

/-- **Every step keeps the semaphore.** -/
theorem LockStep.held (hstep : LockStep V V') (hV : V.Held h) : ∃ h', V'.Held h' := by
  cases hstep with
  | stay | nest | unnest | reblock | interrupt => exact ⟨h, by constructor <;> grind -linarith⟩
  | block t hrole hcount =>
    have hr := update_apply V.role t .seeking
    generalize update V.role t .seeking = r at hr
    exact ⟨h, by constructor <;> grind -linarith⟩
  | prepare t hpid hrole =>
    have hr := update_apply V.role t .giving
    generalize update V.role t .giving = r at hr
    exact ⟨h, by constructor <;> grind -linarith⟩
  | grab t hrole hcount =>
    have hfree := hV.free hcount
    exact ⟨some t, hV.own hfree.2 (by grind) (update_apply _ _ _) (by grind)⟩
  | tryGrab t hrole hcount =>
    have hfree := hV.free hcount
    exact ⟨some t, hV.own hfree.2 (by grind) (by grind) (by grind)⟩
  | receive t hrole | resume t hrole =>
    exact ⟨some t, hV.own (by grind) (by grind) (update_apply _ _ _) (by grind)⟩
  | retake t hrole hcount =>
    have hfree := hV.free hcount
    have hr := update_apply V.role t .returning
    generalize update V.role t .returning = r at hr
    exact ⟨some t, by constructor <;> grind -linarith⟩
  | release t w hpid hrole hlocks hpost =>
    refine ⟨w, hV.post hpid (Or.inl rfl) hpost fun u => ?_⟩
    cases w <;> simp only [Lock.post, Lock.Posts, update_apply] at hpost ⊢ <;> grind
  | giveUp t w hrole hpost =>
    exact ⟨w, hV.post (hV.giving t hrole) (Or.inr rfl) hpost (update_apply _ _ _)⟩

omit [DecidableEq τ] in
/-- A step that does not concern the owner and the parked threads. -/
theorem Lock.Depths.frame (hV : V.Depths) {r : τ → LockRole} {c : ℤ}
    (hr : ∀ u, (r u).isParked = (V.role u).isParked) :
    Depths { V with count := c, role := r } := by
  constructor <;> grind

omit [DecidableEq τ] in
theorem LockRole.isParked_grant (r : LockRole) : r.grant.isParked = r.isParked := by
  cases r <;> rfl

theorem Lock.isParked_post (w : Option τ) (u : τ) :
    ((V.post w).role u).isParked = (V.role u).isParked := by
  cases w with
  | none => rfl
  | some w =>
    simp only [Lock.post, update_apply]
    split
    · rename_i hu
      rw [hu, LockRole.isParked_grant]
    · rfl

/-- The owner unlocks the mutex. -/
theorem Lock.Depths.release (hV : V.Depths) {t : τ} (hpid : V.pid = some t)
    (hrole : V.role t = .out) (hlocks : ¬ (V.type = .recursive ∧ 1 < V.nlocks)) {d : τ → ℤ}
    (hd : ∀ u, d u = if u = t then V.depth t - 1 else V.depth u) :
    Depths { V with pid := none, nlocks := 0, depth := d } := by
  have hone := hV.eq_one hpid hlocks
  constructor <;> grind -linarith

/-- The owner gives the mutex up in the wait on a condition variable. -/
theorem Lock.Depths.park (hV : V.Depths) {t : τ} (hpid : V.pid = some t) {f : τ → LockRole}
    (hf : ∀ u, (f u).isParked = if u = t then true else (V.role u).isParked) :
    Depths { V with pid := none, role := f } := by
  constructor <;> grind -linarith

/-- **Every step that does not confuse `nlocks` keeps the depths.** -/
theorem LockStep.depths (hstep : LockStep V V') (hheld : V.Held h) (hV : V.Depths)
    (hkeeps : V.type = .recursive → V.Keeps V') : V'.Depths := by
  have hdepths := hV
  obtain ⟨hnonneg, hpos, hsingle, howned, hfree⟩ := hV
  cases hstep with
  | stay => exact hdepths
  | reblock | interrupt => exact hdepths.frame fun _ => rfl
  | block t hrole | prepare t hpid hrole | retake t hrole =>
    refine hdepths.frame fun u => ?_
    rw [update_apply]
    grind
  | nest | receive | resume => constructor <;> grind
  | grab t hrole hcount | tryGrab t hrole hcount =>
    have hpid := (hheld.free hcount).2
    have hone := fun htype => (hkeeps htype).acquire t rfl
    constructor <;> grind
  | unnest t hpid hrole hlocks =>
    have hdepth := (howned hlocks.1 t hpid).1
    generalize hd : V.depth t - 1 = d
    constructor <;> grind
  | release t w hpid hrole hlocks hpost =>
    have hreleased := hdepths.release hpid hrole hlocks (update_apply _ _ _)
    cases w with
    | none => exact hreleased.frame fun _ => rfl
    | some w => exact hreleased.frame (V.isParked_post (some w))
  | giveUp t w hrole hpost =>
    have hparked := hdepths.park (hheld.giving t hrole) (f := update (V.post w).role t .parked)
      fun u => ?_
    · cases w <;> exact hparked.frame fun _ => rfl
    rw [update_apply]
    split
    · rfl
    · exact V.isParked_post w u

end

/-! ### What a mutex is for -/

section

variable {μ κ τ : Type*} [DecidableEq μ] [DecidableEq κ] [DecidableEq τ]

/-- The thread owns the mutex, to go by what the calls have returned: it has locked it more often
than unlocked it, and is not in a wait on a condition variable that has given it up. -/
def Sync.Owns (tr : List (SyncEvent μ κ τ)) (b : Sync μ κ τ) (m : μ) (t : τ) : Prop :=
  0 < Sync.depth m tr t ∧ ((b.pc t).role m).isParked = false

/-- What the mutex `m` is for. -/
structure MutexLaw (m : μ) (tr : List (SyncEvent μ κ τ)) (b : Sync μ κ τ) : Prop where
  unique : ∀ t u, b.Owns tr m t → b.Owns tr m u → t = u
  owner : ∀ t, b.Owns tr m t ↔ (b.mutex m).pid = some t
  taken : ∀ t, b.Owns tr m t → b.sem.count (.inl m) ≤ 0
  release : ∀ t w b', SyncOp.step b (.call t (.unlock m) w) = some (b', .unlocked t m) →
    b'.sem.count (.inl m) = b.sem.count (.inl m) +
      if Sync.depth m (.unlocked t m :: tr) t = 0 then 1 else 0
  foreign : ∀ t w b' ev, ¬ b.Owns tr m t →
    SyncOp.step b (.call t (.unlock m) w) = some (b', ev) → b' = b ∧ ev = .failed t .eperm

/-- The recursive mutexes are used in such a way that `nlocks` is right: the owner of a mutex locks
it again only when `nlocks` has been set and does not overflow, and nobody becomes the owner while
another thread waits on a condition variable and has locked the mutex more than once. -/
def Counted (tr : List (SyncEvent μ κ τ)) (b : Sync μ κ τ) (_ : SyncOp μ κ τ)
    (ev : SyncEvent μ κ τ) (b' : Sync μ κ τ) : Prop :=
  ∀ m, (b.mutex m).type = .recursive →
    (∀ t, ev = .acquired t m → (b.mutex m).pid = some t →
      1 ≤ (b.mutex m).nlocks ∧ (b.mutex m).nlocks < 2 ^ 31 - 1) ∧
    ∀ t, (b'.mutex m).pid = some t → (b.mutex m).pid ≠ some t → ∀ u, u ≠ t →
      ((b.pc u).role m).isParked = true → Sync.depth m tr u ≤ 1

variable {tr : List (SyncEvent μ κ τ)} {b b' : Sync μ κ τ} {ev : SyncEvent μ κ τ} {m : μ}

/-- Only a lock makes a thread have locked the mutex more often. -/
theorem Sync.eq_acquired_of_depth {t : τ}
    (h : depth m (ev :: tr) t = depth m tr t + 1) : ev = .acquired t m := by
  cases ev with
  | acquired u m' =>
    rw [depth] at h
    split at h
    · rename_i hm
      rcases eq_or_ne t u with rfl | htu
      · rw [hm]
      · rw [update_of_ne htu] at h
        omega
    · omega
  | unlocked u m' =>
    rw [depth] at h
    split at h
    · rcases eq_or_ne t u with rfl | htu
      · rw [update_self] at h
        omega
      · rw [update_of_ne htu] at h
        omega
    · omega
  | _ =>
    rw [depth] at h
    · omega
    all_goals exact nofun

theorem Counted.keeps {op : SyncOp μ κ τ} (h : Counted tr b op ev b')
    (hm : (b.mutex m).type = .recursive) :
    (lock tr b m).Keeps (lock (ev :: tr) b' m) where
  nest t hpid hdepth := (h m hm).1 t (eq_acquired_of_depth hdepth) hpid
  acquire := (h m hm).2

theorem SyncRun.lockInv {type : μ → MutexType} (h : SyncRun type Counted tr b) :
    ∃ h, (Sync.lock tr b m).Held h ∧ (Sync.lock tr b m).Depths := by
  induction h with
  | init =>
    refine ⟨none,
      ⟨Or.inl ⟨rfl, rfl⟩, fun t => nofun, fun t => nofun, fun t => nofun, fun t => nofun⟩,
      ⟨fun t => le_rfl, fun t => ?_, fun _ t => Int.zero_le_ofNat 1, fun _ t => nofun,
        fun _ _ => ⟨fun u => nofun, fun _ => Int.zero_le_ofNat 1⟩⟩⟩
    simp [Sync.lock, Sync.depth, Sync.init, role, LockRole.isParked]
  | step op hrun hstep hP ih =>
    obtain ⟨h, hheld, hdepths⟩ := ih
    obtain ⟨h', hheld'⟩ := LockStep.held (hrun.sane.step_lock hstep) hheld
    exact ⟨h', hheld', LockStep.depths (hrun.sane.step_lock hstep) hheld hdepths hP.keeps⟩

/-- **The invariant gives the law of mutexes.** -/
theorem Lock.Depths.mutexLaw {h : Option τ} (hsane : b.Sane) (hheld : (Sync.lock tr b m).Held h)
    (hdepths : (Sync.lock tr b m).Depths) : MutexLaw m tr b := by
  have howner : ∀ t, b.Owns tr m t ↔ (b.mutex m).pid = some t := by
    intro t
    refine ⟨fun ⟨hpos, hparked⟩ => ?_, fun hpid => ⟨(hdepths.pos_iff t).mpr (Or.inl hpid), ?_⟩⟩
    · exact ((hdepths.pos_iff t).mp hpos).resolve_right fun hp =>
        absurd (hp.symm.trans hparked) nofun
    · rcases (hheld.owner t hpid).2 with hrole | hrole
      · exact (congrArg LockRole.isParked hrole).trans rfl
      · exact (congrArg LockRole.isParked hrole).trans rfl
  refine ⟨fun t u ht hu => ?_, howner, fun t ht => ?_, fun t w b' hstep => ?_,
    fun t w b' ev hnot hstep => ?_⟩
  · have htu := ((howner t).mp ht).symm.trans ((howner u).mp hu)
    exact some.inj htu
  · have hh := (hheld.owner t ((howner t).mp ht)).1
    rcases hheld.count with ⟨hnone, -⟩ | ⟨-, hle⟩
    · exact absurd (hh.symm.trans hnone) nofun
    · exact hle
  · rw [SyncOp.step] at hstep
    split at hstep
    swap
    · cases hstep
    rw [Sync.call] at hstep
    split at hstep
    · cases hstep
    rename_i hpid
    have hdepth : Sync.depth m (.unlocked t m :: tr) t = Sync.depth m tr t - 1 := by
      rw [Sync.depth, if_pos rfl, update_self]
    split at hstep
    · -- The mutex is locked as often as `nlocks` says.
      rename_i hlocks
      cases hstep
      have hmax : max (b.mutex m).nlocks 1 = Sync.depth m tr t :=
        (hdepths.owned hlocks.1 t (not_not.mp hpid)).1
      rw [if_neg (by omega), Int.add_zero]
      rfl
    · rename_i hlocks
      obtain ⟨b1, hpost, heq⟩ := map_eq_some_iff.mp hstep
      cases heq
      have hone : Sync.depth m tr t = 1 := hdepths.eq_one (not_not.mp hpid) hlocks
      rw [if_pos (by omega)]
      rcases (hsane.setMutex.post hpost).2 with ⟨-, -, rfl⟩ | ⟨u, -, -, -, rfl⟩
      · simp
      · simp
  · obtain ⟨-, hstep⟩ := ite_none_right_eq_some.mp hstep
    rw [Sync.call, if_pos fun hpid => hnot ((howner t).mpr hpid)] at hstep
    cases hstep
    exact ⟨rfl, rfl⟩

/-- **The mutexes do what they are for** in every run in which the recursive ones are used in such a
way that `nlocks` is right. -/
theorem syncRun_mutexLaw {type : μ → MutexType} (m : μ) (h : SyncRun type Counted tr b) :
    MutexLaw m tr b := by
  obtain ⟨h', hheld, hdepths⟩ := h.lockInv
  exact hdepths.mutexLaw h.sane hheld

end

instance {μ κ τ : Type*} [DecidableEq μ] [DecidableEq κ] [DecidableEq τ] [Fintype μ] [Fintype τ]
    (tr : List (SyncEvent μ κ τ)) (b : Sync μ κ τ) (op : SyncOp μ κ τ) (ev : SyncEvent μ κ τ)
    (b' : Sync μ κ τ) : Decidable (Counted tr b op ev b') :=
  inferInstanceAs (Decidable (∀ m, (b.mutex m).type = .recursive →
    (∀ t, ev = .acquired t m → (b.mutex m).pid = some t →
      1 ≤ (b.mutex m).nlocks ∧ (b.mutex m).nlocks < 2 ^ 31 - 1) ∧
    ∀ t, (b'.mutex m).pid = some t → (b.mutex m).pid ≠ some t → ∀ u, u ≠ t →
      ((b.pc u).role m).isParked = true → Sync.depth m tr u ≤ 1))

theorem syncRun_mutexLaw_condWait :
    ∃ (tr : List (SyncEvent Unit Unit (Fin 2))) (b : Sync Unit Unit (Fin 2)),
      SyncRun (fun _ => .recursive) Counted tr b ∧ Sync.depth () tr 0 = 2 ∧
        (b.mutex ()).pid = some 0 ∧ MutexLaw () tr b := by
  have h := SyncRun.replay (τ := Fin 2) (fun _ => .recursive) Counted
    [.call 0 (.lock ()) none, .call 0 (.lock ()) none, .call 0 (.condWait () ()) none, .run 0 none,
      .call 1 (.condSignal ()) none, .run 1 (some 0), .run 0 none, .run 0 none, .run 0 none]
    (by decide +kernel)
  exact ⟨_, _, h, by decide +kernel, rfl, syncRun_mutexLaw () h⟩

theorem syncRun_released_early :
    ∃ (tr : List (SyncEvent Unit Unit (Fin 2))) (b : Sync Unit Unit (Fin 2)),
      SyncRun (fun _ => .recursive) (fun _ _ _ _ _ => True) tr b ∧
        tr = [.unlocked 0 (), .acquired 0 (), .acquired 0 ()] ∧
        b.sem.count (.inl ()) = 1 ∧ ¬ MutexLaw () tr b := by
  have h := SyncRun.replay (κ := Unit) (τ := Fin 2) (fun _ => .recursive) (fun _ _ _ _ _ => True)
    [.call 0 (.trylock ()) none, .call 0 (.lock ()) none, .call 0 (.unlock ()) none]
    (by decide +kernel)
  refine ⟨_, _, h, rfl, by decide +kernel, fun hlaw => ?_⟩
  have hpid := (hlaw.owner 0).mp ⟨by decide +kernel, by decide +kernel⟩
  revert hpid
  decide +kernel

end NuttX
