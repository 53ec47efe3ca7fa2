import NuttX.Lib.Replay
import NuttX.Lib.Semaphore

/-!
# Joining a thread

`pthread_join.c`, `pthread_completejoin.c` and `pthread_detach.c`, for one thread and its `join_t`.
The structure is protected by `g_join_semaphore`. A thread that joins gives this semaphore up while
it waits for the thread to exit, and keeps a reference in `crefs`; the exiting thread wakes the
waiting ones and then waits on `data_sem` until they have read the exit value.

Pre-emption is locked in `pthread_join` from the place where the reference is taken, so what it does
from there until it blocks is one step. Everything else is cut at the semaphore calls.

The number of posts that the exiting thread has to wait for is put into `data_sem` by a call of
`sem_init`, as a negative number, which `sem_init` refuses unless it is 0; and `pthread_detach`
frees the structure of a thread that has terminated without looking at `crefs`.
`NuttX.Book.Step` is what the threads do to the structure, apart from its semaphores, and
`NuttX.Join.Held.step` shows that the code does this.
`NuttX.joinRun_law` is what the functions are for, in the runs in which this does no harm;
`NuttX.joinRun_freed_twice` is what happens otherwise.
-/

namespace NuttX

open Function Option Relation Finset

/-! ### The code -/

/-- The semaphores. -/
inductive JoinSem
  | gJoin
  | exitSem
  | dataSem
  deriving DecidableEq, Repr

/-- The calls. -/
inductive JoinCall
  | join
  | detach
  | completejoin
  deriving DecidableEq, Repr

/-- Where a thread is. -/
inductive JoinPc
  | user
  | takeWait (k : JoinCall)
  | taken (k : JoinCall)
  | exitWait
  | exitGot
  | retakeWait
  | release
  | notify
  | dataTake
  | dataWait
  | dataGot
  | giveBack
  deriving DecidableEq, Repr

namespace JoinPc

/-- The semaphore that the thread is blocked on. -/
def waitsem : JoinPc → Option JoinSem
  | takeWait _ | retakeWait => some .gJoin
  | exitWait => some .exitSem
  | dataWait => some .dataSem
  | _ => none

/-- A blocked thread is given the count. -/
def wake : JoinPc → JoinPc
  | takeWait k => taken k
  | exitWait => exitGot
  | retakeWait => release
  | dataWait => dataGot
  | pc => pc

end JoinPc

/-- The `join_t` of a thread, and the threads that use it. -/
structure Join (τ : Type*) where
  sem : Sems JoinSem τ
  crefs : ℕ
  detached : Bool
  terminated : Bool
  listed : Bool
  pc : τ → JoinPc
  begun : Bool
  destroys : ℕ
  left : Bool

/-- The steps. -/
inductive JoinOp (τ : Type*)
  | call (t : τ) (k : JoinCall)
  | run (t : τ) (w : Option τ)
  deriving DecidableEq, Repr

namespace Join

variable {τ : Type*} [DecidableEq τ]

/-- The thread has been created: `pthread_create` has destroyed `data_sem`, which makes its count 1.
-/
def init : Join τ where
  sem := .init fun | .gJoin => 1 | .exitSem => 0 | .dataSem => 1
  crefs := 0
  detached := false
  terminated := false
  listed := true
  pc _ := .user
  begun := false
  destroys := 0
  left := false

def set (b : Join τ) (S : Sems JoinSem τ) (pc : τ → JoinPc) : Join τ :=
  { b with sem := S, pc := pc }

def goto (b : Join τ) (t : τ) (pc : JoinPc) : Join τ := b.set b.sem (update b.pc t pc)

/-- `sem_init`: the value is converted to `unsigned int`, and refused when it is above
`SEM_VALUE_MAX`. -/
def semInit (b : Join τ) (s : JoinSem) (value : ℤ) : Join τ :=
  b.set (b.sem.setCount s (if value % 2 ^ 32 ≤ 0x7fff then value % 2 ^ 32 else b.sem.count s)) b.pc

def semDestroy (b : Join τ) (s : JoinSem) : Join τ :=
  b.set (b.sem.setCount s (if 0 ≤ b.sem.count s then 1 else b.sem.count s)) b.pc

/-- `pthread_givesemaphore`. -/
def post (b : Join τ) (s : JoinSem) (w : Option τ) : Option (Join τ) :=
  (b.sem.post s w).map fun S =>
    b.set S (w.elim b.pc fun w => update b.pc w (b.pc w).wake)

/-- `pthread_takesemaphore`: the thread goes on at `pc`, or is blocked at `blocked`. -/
def take (b : Join τ) (t : τ) (s : JoinSem) (pc blocked : JoinPc) : Join τ :=
  match b.sem.wait t s with
  | (S, true) => b.set S (update b.pc t pc)
  | (S, false) => b.set S (update b.pc t blocked)

def destroyjoin (b : Join τ) : Join τ :=
  { (b.semDestroy .dataSem).semDestroy .exitSem with listed := false, destroys := b.destroys + 1 }

/-- `pthread_join`, with `g_join_semaphore`. -/
def joinTaken (b : Join τ) (t : τ) (w : Option τ) : Option (Join τ) :=
  if b.listed then
    if b.terminated then some ({ b with crefs := (b.crefs + 1) % 256 }.goto t .release)
    else
      (post { b with crefs := (b.crefs + 1) % 256 } .gJoin w).map
        fun b => b.take t .exitSem .exitGot .exitWait
  else some (b.goto t .giveBack)

/-- `pthread_detach`, with `g_join_semaphore`. -/
def detachTaken (b : Join τ) (t : τ) : Join τ :=
  if b.listed then
    if b.terminated then b.destroyjoin.goto t .giveBack
    else { b with detached := true }.goto t .giveBack
  else b.goto t .giveBack

/-- `pthread_completejoin`, with `g_join_semaphore`, up to the loop of `pthread_notifywaiters`. -/
def completejoinTaken (b : Join τ) (t : τ) : Join τ :=
  if b.listed then
    if b.sem.count .exitSem < 0 then
      ({ b with terminated := true }.semInit .dataSem (b.sem.count .exitSem + 1)).goto t .notify
    else if b.detached then
      { b with terminated := true, left := true }.destroyjoin.goto t .giveBack
    else { b with terminated := true, left := true }.goto t .giveBack
  else b.goto t .giveBack

/-- A step of a thread in a call. -/
def go (b : Join τ) (t : τ) (w : Option τ) : Option (Join τ) :=
  match b.pc t with
  | .taken .join => b.joinTaken t w
  | .taken .detach => some (b.detachTaken t)
  | .taken .completejoin => some (b.completejoinTaken t)
  | .exitGot => (b.post .dataSem w).map fun b => b.take t .gJoin .release .retakeWait
  | .release =>
    if (b.crefs + 255) % 256 = 0 then
      some ({ b with crefs := (b.crefs + 255) % 256 }.destroyjoin.goto t .giveBack)
    else some ({ b with crefs := (b.crefs + 255) % 256 }.goto t .giveBack)
  | .notify =>
    (b.post .exitSem w).map fun b =>
      if b.sem.count .exitSem < 0 then b else b.goto t .dataTake
  | .dataTake => some (b.take t .dataSem .dataGot .dataWait)
  | .dataGot => some ({ b with left := true }.goto t .giveBack)
  | .giveBack => (b.post .gJoin w).map fun b => b.goto t .user
  | .user | .takeWait _ | .exitWait | .retakeWait | .dataWait => none

end Join

/-- The code of a step. `pthread_completejoin` is called once. -/
def JoinOp.step {τ : Type*} [DecidableEq τ] (b : Join τ) : JoinOp τ → Option (Join τ)
  | call t k =>
    if b.pc t = .user ∧ (k = .completejoin → b.begun = false) then
      some ({ b with begun := b.begun || decide (k = JoinCall.completejoin) }.take t .gJoin
        (.taken k) (.takeWait k))
    else none
  | run t w => b.go t w

/-- The runs whose steps all satisfy `P`. -/
inductive JoinRun {τ : Type*} [DecidableEq τ] (P : Join τ → JoinOp τ → Prop) : Join τ → Prop
  | init : JoinRun P .init
  | step {b b' : Join τ} (op : JoinOp τ) : JoinRun P b → P b op → op.step b = some b' → JoinRun P b'

variable {τ : Type*}

/-- A run that is given by its steps. -/
theorem JoinRun.replay [DecidableEq τ] (P : Join τ → JoinOp τ → Prop) [∀ b op, Decidable (P b op)]
    (ops : List (JoinOp τ))
    (h : (NuttX.replay (fun op b => (JoinOp.step b op).map (·, ())) (fun _ => id)
      (fun _ b op _ _ => P b op) ops () .init).isSome) : JoinRun P (get _ h).2 := by
  refine replay_sound (R := fun _ => JoinRun P) (fun op hrun hop hP => ?_) .init (some_get h).symm
  obtain ⟨b', hstep, heq⟩ := map_eq_some_iff.mp hop
  cases heq
  exact hrun.step op hP hstep

/-! ### What the functions are for -/

namespace JoinPc

/-- The call of `pthread_join` has incremented `crefs` and has not decremented it. -/
def referenced : JoinPc → Bool
  | exitWait | exitGot | retakeWait | release => true
  | _ => false

/-- The thread waits for the exit value and has not read it. -/
def pending : JoinPc → Bool
  | exitWait | exitGot => true
  | _ => false

end JoinPc

/-- What the functions are for. -/
structure JoinLaw {τ : Type*} (b : Join τ) : Prop where
  once : b.destroys ≤ 1
  unreferenced : 0 < b.destroys → ∀ t, (b.pc t).referenced = false
  copied : b.left = true → ∀ t, (b.pc t).pending = false

/-- `crefs` does not overflow, and nobody detaches a thread that has terminated while a call of
`pthread_join` has a reference to its structure. -/
def Careful {τ : Type*} (b : Join τ) : JoinOp τ → Prop
  | .call _ _ => True
  | .run t _ =>
    (b.pc t = .taken .join → b.crefs < 255) ∧
      (b.pc t = .taken .detach → b.terminated = true → b.crefs = 0)

/-- In addition, at most one thread waits in `pthread_join` when the thread exits. -/
def CarefulAlone {τ : Type*} (b : Join τ) (op : JoinOp τ) : Prop :=
  Careful b op ∧ match op with
    | .call _ _ => True
    | .run t _ => b.pc t = .taken .completejoin → -1 ≤ b.sem.count .exitSem

/-! ### The structure without its semaphores -/

/-- What a thread has to do with the structure. -/
inductive JoinStage
  | idle
  | completing
  | waiting
  | woken
  | reader
  | notify
  | dataTake
  | dataWait
  | dataGot
  deriving DecidableEq, Repr

namespace JoinStage

/-- The thread waits for the exit value and has not read it. -/
@[grind]
def pending : JoinStage → Bool
  | waiting | woken => true
  | _ => false

/-- The thread is in `pthread_notifywaiters`. -/
@[grind]
def notifying : JoinStage → Bool
  | notify | dataTake | dataWait | dataGot => true
  | _ => false

@[grind →]
theorem not_pending {r : JoinStage} (h : r.notifying = true) :
    r.pending = false ∧ r ≠ .reader ∧ r ≠ .completing := by
  cases r <;> simp [pending, notifying] at h ⊢

end JoinStage

/-- The fields of the structure, and what the threads have to do with it. -/
@[ext]
structure Book (τ : Type*) where
  crefs : ℕ
  terminated : Bool
  listed : Bool
  begun : Bool
  destroys : ℕ
  left : Bool
  exit : ℤ
  data : ℤ
  stage : τ → JoinStage

namespace Book

variable {τ : Type*} {r : JoinStage}

/-- The invariant: `R` are the threads that have a reference. -/
structure Ok (V : Book τ) (R : Finset τ) : Prop where
  mem : ∀ t, t ∈ R ↔ (V.stage t).pending = true ∨ V.stage t = .reader
  crefs : V.listed = true → V.crefs = R.card ∧ R.card < 256
  exit : V.listed = true → V.exit ≤ 0
  notify : ∀ t, V.stage t = .notify → V.exit < 0
  notifying : ∀ t, (V.stage t).notifying = true → V.listed = true ∧ V.terminated = true
  reader : ∀ t, V.stage t = .woken ∨ V.stage t = .reader → V.terminated = true
  fresh : ∀ t, V.stage t = .completing → V.terminated = false ∧ V.begun = true
  completing : ∀ t u, V.stage t = .completing → V.stage u = .completing → t = u
  unique : ∀ t u, (V.stage t).notifying = true → (V.stage u).notifying = true → t = u
  begun : V.terminated = true → V.begun = true
  freed : V.listed = false → V.terminated = true ∧ R = ∅ ∧ V.destroys = 1
  unfreed : V.listed = true → V.destroys = 0

/-- How far the exiting thread `e` is, when at most one thread waits for it. -/
inductive Phase (V : Book τ) : Prop
  | running (hterm : V.terminated = false) (hleft : V.left = false)
  | waking (e j : τ) (he : (V.stage e).notifying = true)
      (hpend : ∀ t, (V.stage t).pending = true ↔ t = j)
      (hdata : V.stage e = .dataWait ∧ V.data = -1 ∨ V.stage e ≠ .dataWait ∧ V.stage e ≠ .dataGot ∧
        V.data = 0)
      (hterm : V.terminated = true) (hleft : V.left = false)
  | gone (hterm : V.terminated = true) (hnone : ∀ t, (V.stage t).pending = false)

variable [DecidableEq τ]

/-- What the threads do to the structure. If `A` then at most one thread waits when the thread
exits. -/
inductive Step (A : Prop) (V : Book τ) : Book τ → Prop
  | begin (t : τ) : V.stage t = .idle → V.begun = false →
      Step A V { V with begun := true, stage := update V.stage t .completing }
  | join (t : τ) : V.stage t = .idle → V.listed = true → V.terminated = false → V.crefs < 255 →
      Step A V { V with
        crefs := (V.crefs + 1) % 256
        exit := V.exit - 1
        stage := update V.stage t .waiting }
  | attach (t : τ) : V.stage t = .idle → V.listed = true → V.terminated = true → V.crefs < 255 →
      Step A V { V with crefs := (V.crefs + 1) % 256, stage := update V.stage t .reader }
  | destroy : V.listed = true → V.terminated = true → V.crefs = 0 →
      (∀ t, (V.stage t).notifying = false) → Step A V { V with
        listed := false
        destroys := V.destroys + 1
        exit := if 0 ≤ V.exit then 1 else V.exit
        data := if 0 ≤ V.data then 1 else V.data }
  | notify (t : τ) (n : ℤ) : V.stage t = .completing → V.listed = true → V.exit < 0 →
      (A → n = 0 ∧ ∃ j, ∀ u, V.stage u = .waiting ↔ u = j) →
      Step A V { V with terminated := true, data := n, stage := update V.stage t .notify }
  | leave (t : τ) : V.stage t = .completing → (∀ u, V.stage u ≠ .waiting) →
      Step A V { V with terminated := true, left := true, stage := update V.stage t .idle }
  | wake (t u : τ) (r : JoinStage) : V.stage t = .notify → V.stage u = .waiting →
      (r = .notify ∧ V.exit + 1 < 0 ∨ r = .dataTake ∧ V.exit + 1 = 0) →
      Step A V { V with
        exit := V.exit + 1
        stage := update (update V.stage u .woken) t r }
  | read (t : τ) : V.stage t = .woken → 0 ≤ V.data →
      Step A V { V with data := V.data + 1, stage := update V.stage t .reader }
  | readLast (t u : τ) : V.stage t = .woken → V.stage u = .dataWait →
      Step A V { V with
        data := V.data + 1
        stage := update (update V.stage u .dataGot) t .reader }
  | take (t : τ) : V.stage t = .dataTake → 0 < V.data →
      Step A V { V with data := V.data - 1, stage := update V.stage t .dataGot }
  | block (t : τ) : V.stage t = .dataTake → V.data ≤ 0 →
      Step A V { V with data := V.data - 1, stage := update V.stage t .dataWait }
  | done (t : τ) : V.stage t = .dataGot →
      Step A V { V with left := true, stage := update V.stage t .idle }
  | release (t : τ) : V.stage t = .reader →
      Step A V { V with crefs := (V.crefs + 255) % 256, stage := update V.stage t .idle }

variable {A : Prop} {V V' : Book τ} {R : Finset τ} {t u : τ}

theorem reflTransGen_stay (hr : V.stage t = r) :
    ReflTransGen (Step A) V { V with stage := update V.stage t r } := by
  rw [← hr, update_eq_self]

omit [DecidableEq τ] in
/-- The structure is not freed before the thread has terminated. -/
theorem Ok.listed (hV : V.Ok R) (hterm : V.terminated = false) : V.listed = true := by
  by_contra hnot
  exact absurd (hterm.symm.trans (hV.freed (Bool.eq_false_iff.mpr hnot)).1) nofun

attribute [grind cases] Ok

variable {f : τ → JoinStage} (hf : ∀ u, f u = if u = t then r else V.stage u)

include hf

/-- A thread takes a reference. -/
theorem Ok.refer (hV : V.Ok R) (ht : V.stage t = .idle) (hlisted : V.listed = true)
    (hlt : V.crefs < 255) {x : ℤ} (hx : x ≤ V.exit)
    (hr : r = .waiting ∧ V.terminated = false ∨ r = .reader ∧ V.terminated = true) :
    Ok { V with crefs := (V.crefs + 1) % 256, exit := x, stage := f } (insert t R) := by
  have htR : t ∉ R := by grind
  have hcard := card_insert_of_notMem htR
  constructor <;> grind -linarith

/-- A thread that has waited goes on. -/
theorem Ok.advance (hV : V.Ok R) (hterm : V.terminated = true) {d : ℤ}
    (hr : V.stage t = .waiting ∧ r = .woken ∨ V.stage t = .woken ∧ r = .reader) :
    Ok { V with data := d, stage := f } R := by
  constructor <;> grind -linarith

/-- The exiting thread goes on in `pthread_notifywaiters`. -/
theorem Ok.proceed (hV : V.Ok R) (ht : (V.stage t).notifying = true) {l : Bool} {x d : ℤ}
    (hx : x ≤ 0) (hr : r = .idle ∨ r.notifying = true ∧ (r = .notify → x < 0)) :
    Ok { V with left := l, exit := x, data := d, stage := f } R := by
  constructor <;> grind -linarith

/-- The thread that exits comes to `pthread_notifywaiters`, or does not have to. -/
theorem Ok.exits (hV : V.Ok R) (ht : V.stage t = .completing) {l : Bool} {d : ℤ}
    (hr : r = .idle ∨ r = .notify ∧ V.listed = true ∧ V.exit < 0) :
    Ok { V with terminated := true, left := l, data := d, stage := f } R := by
  constructor <;> grind -linarith

omit hf

omit [DecidableEq τ] in
theorem Ok.listed_of_reader (hV : V.Ok R) (ht : V.stage t = .reader) : V.listed = true := by
  by_contra hnot
  have htR := (hV.mem t).mpr (Or.inr ht)
  rw [(hV.freed (Bool.eq_false_iff.mpr hnot)).2.1] at htR
  exact absurd htR (notMem_empty t)

/-- A thread gives its reference back. -/
theorem Ok.release (hV : V.Ok R) (ht : V.stage t = .reader)
    (hf : ∀ u, f u = if u = t then .idle else V.stage u) :
    Ok { V with crefs := (V.crefs + 255) % 256, stage := f } (R.erase t) := by
  have htR : t ∈ R := by grind
  have hcard := card_erase_add_one htR
  have hlisted := hV.listed_of_reader ht
  constructor <;> grind -linarith

/-- **Every step keeps the invariant.** -/
theorem Ok.step (hV : V.Ok R) (hstep : V.Step A V') : ∃ R', V'.Ok R' := by
  cases hstep with
  | begin t ht hbegun =>
    have hf := update_apply V.stage t .completing
    generalize update V.stage t .completing = f at hf
    exact ⟨R, by constructor <;> grind -linarith⟩
  | join t ht hlisted hterm hlt =>
    exact ⟨_, hV.refer (update_apply _ _ _) ht hlisted hlt (Int.sub_le_self _ (by decide))
      (Or.inl ⟨rfl, hterm⟩)⟩
  | attach t ht hlisted hterm hlt =>
    exact ⟨_, hV.refer (update_apply _ _ _) ht hlisted hlt (Int.le_refl _) (Or.inr ⟨rfl, hterm⟩)⟩
  | destroy hlisted hterm hzero hsilent =>
    have hempty : R = ∅ := card_eq_zero.mp ((hV.crefs hlisted).1.symm.trans hzero)
    exact ⟨R, by constructor <;> grind -linarith⟩
  | notify t n ht hlisted hneg =>
    exact ⟨R, hV.exits (update_apply _ _ _) ht (Or.inr ⟨rfl, hlisted, hneg⟩)⟩
  | leave t ht => exact ⟨R, hV.exits (update_apply _ _ _) ht (Or.inl rfl)⟩
  | wake t u r ht hu hr =>
    have hterm : V.terminated = true := by grind
    have hwoken := hV.advance (update_apply _ _ _) (d := V.data) hterm (Or.inl ⟨hu, rfl⟩)
    exact ⟨R, hwoken.proceed (update_apply _ _ _) (by grind) (by grind) (by grind)⟩
  | read t ht => exact ⟨R, hV.advance (update_apply _ _ _) (by grind) (Or.inr ⟨ht, rfl⟩)⟩
  | readLast t u ht hu =>
    have hnotifying : V.terminated = true ∧ V.exit ≤ 0 := by grind
    have hgot := hV.proceed (update_apply V.stage u .dataGot) (l := V.left) (d := V.data) (by grind)
      hnotifying.2 (Or.inr ⟨rfl, nofun⟩)
    exact ⟨R, hgot.advance (update_apply _ _ _) hnotifying.1 (Or.inr ⟨by grind, rfl⟩)⟩
  | take t ht | block t ht | done t ht =>
    exact ⟨R, hV.proceed (update_apply _ _ _) (by grind) (by grind) (by grind)⟩
  | release t ht => exact ⟨_, hV.release ht (update_apply _ _ _)⟩

attribute [local grind =] update_apply

omit [DecidableEq τ] in
/-- A step that does not concern the exiting thread and those that wait for it. -/
theorem Phase.frame (hP : V.Phase) (hterm : V'.terminated = V.terminated)
    (hleft : V'.left = V.left) (hpend : ∀ t, (V'.stage t).pending = (V.stage t).pending)
    (hdata : ∀ e, (V.stage e).notifying = true → V'.stage e = V.stage e ∧ V'.data = V.data) :
    V'.Phase := by
  cases hP with
  | running hterm1 hleft1 => exact .running (hterm.trans hterm1) (hleft.trans hleft1)
  | waking e j he hpend1 hdata1 hterm1 hleft1 =>
    obtain ⟨hstage, hcount⟩ := hdata e he
    exact .waking e j (by grind) (by grind) (by grind) (hterm.trans hterm1) (hleft.trans hleft1)
  | gone hterm1 hnone => exact .gone (hterm.trans hterm1) fun t => (hpend t).trans (hnone t)

attribute [grind cases] Phase

omit [DecidableEq τ] in
/-- The thread `t` is in `pthread_notifywaiters`. -/
theorem Phase.notifying (hP : V.Phase) (hV : V.Ok R) (ht : (V.stage t).notifying = true) :
    V.terminated = true ∧ ((∀ u, (V.stage u).pending = false) ∨
      ∃ j, (∀ u, (V.stage u).pending = true ↔ u = j) ∧ V.left = false ∧
        (V.stage t = .dataWait ∧ V.data = -1 ∨
          V.stage t ≠ .dataWait ∧ V.stage t ≠ .dataGot ∧ V.data = 0)) := by
  have hterm := (hV.notifying t ht).2
  cases hP with
  | running hterm1 => exact absurd (hterm1.symm.trans hterm) nofun
  | waking e j he hpend hdata _ hleft =>
    obtain rfl := hV.unique e t he ht
    exact ⟨hterm, Or.inr ⟨j, hpend, hleft, hdata⟩⟩
  | gone _ hnone => exact ⟨hterm, Or.inl hnone⟩

/-- **Every step keeps the phase**, if at most one thread waits when the thread exits. -/
theorem Phase.step (hP : V.Phase) (hV : V.Ok R) (hA : A) (hstep : V.Step A V') : V'.Phase := by
  cases hstep with
  | begin t ht | attach t ht | release t ht => exact hP.frame rfl rfl (by grind) (by grind)
  | join t ht hlisted hterm => exact .running hterm (by grind)
  | destroy hlisted hterm hzero hsilent => exact hP.frame rfl rfl (fun _ => rfl) (by grind)
  | notify t n ht hlisted hneg halone =>
    obtain ⟨rfl, j, hj⟩ := halone hA
    exact .waking t j (by grind) (by grind) (by grind) rfl (by grind)
  | leave t ht hnone => exact .gone rfl (by grind)
  | read t ht | readLast t u ht hu | take t ht hpos | done t ht => exact .gone (by grind) (by grind)
  | wake t u r ht hu hr | block t ht hzero =>
    obtain ⟨hterm, hnone | ⟨j, hpend, hleft, hdata⟩⟩ := hP.notifying (t := t) hV (by grind)
    · exact .gone hterm (by grind)
    · exact .waking t j (by grind) (by grind) (by grind) hterm hleft

theorem Ok.run (hV : V.Ok R) (hP : A → V.Phase) (hsteps : ReflTransGen (Step A) V V') :
    (∃ R', V'.Ok R') ∧ (A → V'.Phase) := by
  induction hsteps with
  | refl => exact ⟨⟨R, hV⟩, hP⟩
  | tail _ hstep ih =>
    obtain ⟨⟨R', hV'⟩, hP'⟩ := ih
    exact ⟨hV'.step hstep, fun hA => (hP' hA).step hV' hA hstep⟩

end Book

/-! ### The code -/

namespace JoinPc

def hasJoin : JoinPc → Bool
  | taken _ | release | notify | dataTake | dataWait | dataGot | giveBack => true
  | _ => false

/-- What the thread has to do with the structure. -/
def stage : JoinPc → JoinStage
  | takeWait .completejoin | taken .completejoin => .completing
  | exitWait => .waiting
  | exitGot => .woken
  | retakeWait | release => .reader
  | notify => .notify
  | dataTake => .dataTake
  | dataWait => .dataWait
  | dataGot => .dataGot
  | _ => .idle

variable {pc : JoinPc}

theorem waitsem_wake : pc.wake.waitsem = none := by
  cases pc <;> rfl

theorem pending_stage : pc.stage.pending = pc.pending := by
  cases pc with
  | takeWait k | taken k => cases k <;> rfl
  | _ => rfl

theorem referenced_eq_true :
    pc.referenced = true ↔ pc.stage.pending = true ∨ pc.stage = .reader := by
  cases pc with
  | takeWait k | taken k => cases k <;> decide
  | _ => decide

theorem hasJoin_of_notifying (h : pc.stage.notifying = true) : pc.hasJoin = true := by
  cases pc with
  | takeWait k | taken k => cases k <;> cases h
  | notify | dataTake | dataWait | dataGot => rfl
  | _ => cases h

theorem waitsem_eq_exitSem : pc.waitsem = some .exitSem ↔ pc.stage = .waiting := by
  cases pc with
  | takeWait k | taken k => cases k <;> decide
  | _ => decide

/-- A thread that is given a count. -/
theorem wake_spec {s : JoinSem} (h : pc.waitsem = some s) :
    pc.hasJoin = decide (s = .dataSem) ∧ pc.wake.hasJoin = decide (s ≠ .exitSem) ∧
      (s = .gJoin → pc.wake.stage = pc.stage) ∧
      (s = .exitSem → pc.stage = .waiting ∧ pc.wake.stage = .woken) ∧
      (s = .dataSem → pc.stage = .dataWait ∧ pc.wake.stage = .dataGot) := by
  cases pc with
  | takeWait k => cases h; cases k <;> decide
  | exitWait | retakeWait | dataWait => cases h; decide
  | _ => cases h

end JoinPc

namespace Join

variable {τ : Type*} {S : Sems JoinSem τ}

/-- The structure without its semaphores. -/
def book (b : Join τ) : Book τ where
  crefs := b.crefs
  terminated := b.terminated
  listed := b.listed
  begun := b.begun
  destroys := b.destroys
  left := b.left
  exit := b.sem.count .exitSem
  data := b.sem.count .dataSem
  stage t := (b.pc t).stage

/-- The threads wait where they should, and `h` has `g_join_semaphore`. -/
structure Held (b : Join τ) (h : Option τ) : Prop where
  blocked : BlockedOn JoinPc.waitsem b.sem b.pc
  lock : Exclusive b.sem .gJoin (fun t => (b.pc t).hasJoin) h

variable [DecidableEq τ] {A : Prop} {b b' : Join τ} {s : JoinSem} {t u : τ} {w h : Option τ}
  {R : Finset τ} {p q : JoinPc}

/-- What the code has done are steps of the structure. -/
def Follows (A : Prop) (b b' : Join τ) : Prop :=
  (∃ h, b'.Held h) ∧ ReflTransGen (Book.Step A) b.book b'.book

theorem take_cases (b : Join τ) (t : τ) (s : JoinSem) (p q : JoinPc) : (0 < b.sem.count s ∧
      b.take t s p q = b.set (b.sem.take s) (update b.pc t p)) ∨
    b.sem.count s ≤ 0 ∧ b.take t s p q = b.set (b.sem.join t s) (update b.pc t q) := by
  rw [take]
  rcases b.sem.wait_cases t s with ⟨hs, hS⟩ | ⟨hs, hS⟩ <;> rw [hS]
  · exact Or.inl ⟨hs, rfl⟩
  · exact Or.inr ⟨hs, rfl⟩

theorem post_cases (hb : BlockedOn JoinPc.waitsem b.sem b.pc) (hpost : b.post s w = some b') :
    (w = none ∧ 0 ≤ b.sem.count s ∧ b' = b.set (b.sem.give s) b.pc ∧
      BlockedOn JoinPc.waitsem (b.sem.give s) b.pc) ∨
    ∃ u, w = some u ∧ b.sem.count s < 0 ∧ (b.pc u).waitsem = some s ∧
      b' = b.set (b.sem.leave u s) (update b.pc u (b.pc u).wake) ∧
      BlockedOn JoinPc.waitsem (b.sem.leave u s) (update b.pc u (b.pc u).wake) := by
  rw [post, map_eq_some_iff] at hpost
  obtain ⟨S, hS, rfl⟩ := hpost
  rcases hb.post hS with ⟨rfl, hs, rfl, hb'⟩ | ⟨u, rfl, hs, hu, rfl⟩
  · exact Or.inl ⟨rfl, hs, rfl, hb'⟩
  · exact Or.inr ⟨u, rfl, hs, hu, rfl, hb.leave hu JoinPc.waitsem_wake⟩

theorem book_set : (b.set S (update b.pc t p)).book =
    { b.book with
      exit := S.count .exitSem
      data := S.count .dataSem
      stage := update b.book.stage t p.stage } :=
  Book.ext rfl rfl rfl rfl rfl rfl rfl rfl (funext fun _ => apply_update (fun _ => JoinPc.stage) ..)

theorem hasJoin_update : (update b.pc t p u).hasJoin =
    if u = t then p.hasJoin else (b.pc u).hasJoin := by
  rw [update_apply]
  split <;> rfl

theorem hasJoin_update_of_eq (hp : p.hasJoin = (b.pc t).hasJoin) :
    (update b.pc t p u).hasJoin = (b.pc u).hasJoin := by
  rw [hasJoin_update]
  split
  · rename_i hu
    rw [hp, hu]
  · rfl

/-- A thread takes `g_join_semaphore`, or is blocked on it. -/
theorem Held.takeJoin (hb : b.Held h) {r : JoinPc} (hpc : b.pc t = r)
    (ht : r.waitsem = none ∧ r.hasJoin = false) (hp : p.waitsem = none ∧ p.hasJoin = true)
    (hq : q.waitsem = some .gJoin ∧ q.hasJoin = false) (hstage : q.stage = p.stage) :
    (∃ h', (b.take t .gJoin p q).Held h') ∧
      (b.take t .gJoin p q).book = { b.book with stage := update b.book.stage t p.stage } := by
  subst hpc
  obtain ⟨hs, heq⟩ | ⟨hs, heq⟩ := take_cases b t .gJoin p q
  · rw [heq, book_set]
    refine ⟨⟨some t, (hb.blocked.take hs).goto ht.1 hp.1, hb.lock.take hs ?_ fun u => ?_⟩, ?_⟩
    · simp [set]
    · rw [← hp.2]
      exact hasJoin_update
    · simp [book]
  · rw [heq, book_set, hstage]
    refine ⟨⟨h, hb.blocked.join hs ht.1 hq.1,
      hb.lock.same (fun u => hasJoin_update_of_eq (hq.2.trans ht.2.symm)) (Or.inr ⟨hs, ?_⟩)⟩, ?_⟩
    · simp [set]
      omega
    · simp [book]

/-- **A call is made.** -/
theorem Held.call (hb : b.Held h) {k : JoinCall} (ht : b.pc t = .user)
    (hk : k = .completejoin → b.begun = false) :
    Follows A b ({ b with begun := b.begun || decide (k = JoinCall.completejoin) }.take t .gJoin
      (.taken k) (.takeWait k)) := by
  have hidle : b.book.stage t = .idle := congrArg JoinPc.stage ht
  obtain ⟨hheld, hbook⟩ := Held.takeJoin (p := .taken k) (q := .takeWait k) (t := t)
    (b := { b with begun := b.begun || decide (k = JoinCall.completejoin) }) ⟨hb.blocked, hb.lock⟩
    ht ⟨rfl, rfl⟩ ⟨rfl, rfl⟩ ⟨rfl, rfl⟩ (by cases k <;> rfl)
  refine ⟨hheld, ?_⟩
  rw [hbook]
  cases k with
  | completejoin =>
    simp only [decide_true, Bool.or_true]
    exact .single (.begin t hidle (hk rfl))
  | join | detach =>
    simp only [reduceCtorEq, decide_false, Bool.or_false]
    exact Book.reflTransGen_stay hidle

/-- Neither the count of `g_join_semaphore` nor the thread that has it changes. -/
theorem Held.moved (hb : b.Held h) (hblocked : BlockedOn JoinPc.waitsem S (update b.pc t p))
    (hcount : S.count .gJoin = b.sem.count .gJoin) (hp : p.hasJoin = (b.pc t).hasJoin) :
    (b.set S (update b.pc t p)).Held h :=
  ⟨hblocked, hb.lock.same (fun _ => hasJoin_update_of_eq hp) (Or.inl hcount)⟩

theorem Held.goto (hb : b.Held h) (ht : b.pc t = q) (b1 : Join τ) (p : JoinPc)
    (hblocked : BlockedOn JoinPc.waitsem b1.sem b.pc)
    (hcount : b1.sem.count .gJoin = b.sem.count .gJoin)
    (hbook : ReflTransGen (Book.Step A) b.book
      { b1.book with stage := update b.book.stage t p.stage }) (hpc : b1.pc = b.pc := by rfl)
    (hq : q.hasJoin = true ∧ q.waitsem = none := by decide)
    (hp : p.hasJoin = true ∧ p.waitsem = none := by decide) : Follows A b (b1.goto t p) := by
  subst ht
  refine ⟨⟨h, ?_, hb.lock.same (fun u => ?_) (Or.inl hcount)⟩, ?_⟩
  · show BlockedOn JoinPc.waitsem b1.sem (update b1.pc t p)
    rw [hpc]
    exact hblocked.goto hq.2 hp.2
  · show (update b1.pc t p u).hasJoin = _
    rw [hpc]
    exact hasJoin_update_of_eq (hp.1.trans hq.1.symm)
  · rw [Join.goto, book_set]
    convert hbook using 2
    simp [book, hpc]

omit [DecidableEq τ] in
theorem Held.silent (hb : b.Held h) (ht : b.pc t = p) (hhas : p.hasJoin = true)
    (hstage : p.stage.notifying = false) : ∀ u, (b.book.stage u).notifying = false := by
  subst ht
  refine fun u => Bool.eq_false_iff.mpr fun hu => Bool.eq_false_iff.mp hstage ?_
  rw [← hb.lock.unique (JoinPc.hasJoin_of_notifying hu) hhas]
  exact hu

omit [DecidableEq τ] in
theorem semDestroy_blocked {pc : τ → JoinPc} (hb : BlockedOn JoinPc.waitsem b.sem pc) :
    BlockedOn JoinPc.waitsem (b.semDestroy s).sem pc := by
  refine hb.setCount ?_
  split
  · rename_i hs
    exact Or.inr ⟨hs, Int.one_nonneg⟩
  · exact Or.inl rfl

/-- The structure is freed at the end of a call. -/
theorem Held.destroyjoin (hb : b.Held h) (ht : b.pc t = q) (b1 : Join τ) (hpc : b1.pc = b.pc)
    (hsem : b1.sem = b.sem) (hb1 : b1.listed = true ∧ b1.terminated = true ∧ b1.crefs = 0)
    (hbook : ReflTransGen (Book.Step A) b.book
      { b1.book with stage := update b.book.stage t .idle })
    (hq : q.hasJoin = true ∧ q.waitsem = none := by decide)
    (hs : q.stage.notifying = false := by decide) :
    Follows A b (b1.destroyjoin.goto t .giveBack) := by
  refine hb.goto ht b1.destroyjoin .giveBack
    (semDestroy_blocked (semDestroy_blocked (hsem ▸ hb.blocked))) ?_ (hbook.tail ?_) hpc hq
  · simp [Join.destroyjoin, semDestroy, set, hsem]
  have hsilent := hb.silent ht hq.1 hs
  convert Book.Step.destroy (V := { b1.book with stage := update b.book.stage t .idle })
    hb1.1 hb1.2.1 hb1.2.2 fun u => ?_ using 1
  · refine Book.ext rfl rfl rfl rfl rfl rfl ?_ ?_ rfl <;>
      simp [Join.destroyjoin, semDestroy, set, book] <;> rfl
  · show (update b.book.stage t .idle u).notifying = false
    rw [update_apply]
    split
    · rfl
    · exact hsilent u

/-- `g_join_semaphore` is posted by the thread that has it. -/
theorem Held.postJoin (hb : b.Held h) (hhas : (b.pc t).hasJoin = true)
    (hpost : b.post .gJoin w = some b') (hp : p.hasJoin = false) :
    BlockedOn JoinPc.waitsem b'.sem b'.pc ∧ b'.pc t = b.pc t ∧ b'.book = b.book ∧
      Exclusive b'.sem .gJoin (fun u => (update b'.pc t p u).hasJoin) w := by
  rcases post_cases hb.blocked hpost with ⟨rfl, hs, rfl, hb'⟩ | ⟨u, rfl, hs, hu, rfl, hb'⟩
  · refine ⟨hb', rfl, ?_, hb.lock.handOver hhas (Or.inl ⟨rfl, hs⟩) ?_ fun u => ?_⟩
    · simp [Join.book, set]
    · simp [set]
    · rw [hasJoin_update, hp]
      rfl
  obtain ⟨hno, hyes, hstage, -, -⟩ := JoinPc.wake_spec hu
  have hut : u ≠ t := by
    rintro rfl
    rw [hhas] at hno
    cases hno
  refine ⟨hb', update_of_ne hut.symm .., ?_,
    hb.lock.handOver hhas (Or.inr ⟨u, rfl, hut, hs⟩) ?_ fun v => ?_⟩
  · rw [book_set, hstage rfl, show (b.pc u).stage = b.book.stage u from rfl, update_eq_self]
    simp [book]
  · simp [set]
  · rw [hasJoin_update, hp]
    show (if v = t then false else (update b.pc u (b.pc u).wake v).hasJoin) = _
    rw [hasJoin_update, hyes]
    simp [eq_comm]

section

variable (hb : b.Held h)

include hb

/-- **`g_join_semaphore` is given back at the end of a call.** -/
theorem Held.giveBack (ht : b.pc t = .giveBack) (hpost : b.post .gJoin w = some b') :
    Follows A b (b'.goto t .user) := by
  obtain ⟨hblocked, hpc, hbook, hlock⟩ := hb.postJoin (congrArg JoinPc.hasJoin ht) hpost
    (p := .user) rfl
  rw [ht] at hpc
  have hidle : b'.book.stage t = .idle := congrArg JoinPc.stage hpc
  refine ⟨⟨w, hblocked.goto (by rw [hpc]; rfl) rfl, hlock⟩, ?_⟩
  rw [Join.goto, book_set, ← hbook]
  exact Book.reflTransGen_stay hidle

/-- **`pthread_join` with `g_join_semaphore`.** -/
theorem Held.joinTaken (hV : b.book.Ok R) (ht : b.pc t = .taken .join) (hlt : b.crefs < 255)
    (hstep : b.joinTaken t w = some b') : Follows A b b' := by
  have hstage : b.book.stage t = .idle := congrArg JoinPc.stage ht
  rw [Join.joinTaken] at hstep
  split at hstep
  · rename_i hlisted
    split at hstep
    · rename_i hterm
      cases hstep
      exact hb.goto ht { b with crefs := (b.crefs + 1) % 256 } .release hb.blocked rfl
        (.single (.attach t hstage hlisted hterm hlt))
    rename_i hterm
    obtain ⟨b1, hpost, rfl⟩ := map_eq_some_iff.mp hstep
    obtain ⟨hblocked, hpc, hbook, hlock⟩ := Held.postJoin (p := .exitWait)
      (b := { b with crefs := (b.crefs + 1) % 256 }) ⟨hb.blocked, hb.lock⟩
      (congrArg JoinPc.hasJoin ht) hpost rfl
    have hcount : b1.sem.count .exitSem = b.sem.count .exitSem := congrArg Book.exit hbook
    have hdata : b1.sem.count .dataSem = b.sem.count .dataSem := congrArg Book.data hbook
    -- Nobody posts `exit_sem` before the thread exits.
    obtain ⟨hs, -⟩ | ⟨hs, heq⟩ := take_cases b1 t .exitSem .exitGot .exitWait
    · have hexit : b.sem.count .exitSem ≤ 0 := hV.exit hlisted
      omega
    rw [heq]
    refine ⟨⟨w, hblocked.join hs ?_ rfl, hlock.same (fun u => rfl) (Or.inl (by simp [set]))⟩, ?_⟩
    · rw [hpc]
      exact congrArg JoinPc.waitsem ht
    · rw [book_set, hbook, Sems.count_join, update_self, update_of_ne (by decide), hcount, hdata]
      exact .single (.join t hstage hlisted (Bool.eq_false_iff.mpr hterm) hlt)
  · cases hstep
    exact hb.goto ht b .giveBack hb.blocked rfl (Book.reflTransGen_stay hstage)

/-- **`pthread_detach` with `g_join_semaphore`.** -/
theorem Held.detachTaken (ht : b.pc t = .taken .detach)
    (hcrefs : b.terminated = true → b.crefs = 0) : Follows A b (b.detachTaken t) := by
  have hstage : b.book.stage t = .idle := congrArg JoinPc.stage ht
  rw [Join.detachTaken]
  split
  · rename_i hlisted
    split
    · rename_i hterm
      exact hb.destroyjoin ht b rfl rfl ⟨hlisted, hterm, hcrefs hterm⟩
        (Book.reflTransGen_stay hstage)
    · exact hb.goto ht { b with detached := true } .giveBack hb.blocked rfl
        (Book.reflTransGen_stay hstage)
  · exact hb.goto ht b .giveBack hb.blocked rfl (Book.reflTransGen_stay hstage)

/-- **`pthread_completejoin` with `g_join_semaphore`.** -/
theorem Held.completejoinTaken (hV : b.book.Ok R) (ht : b.pc t = .taken .completejoin)
    (halone : A → -1 ≤ b.sem.count .exitSem) : Follows A b (b.completejoinTaken t) := by
  have hstage : b.book.stage t = .completing := congrArg JoinPc.stage ht
  have hfresh : b.terminated = false := (hV.fresh t hstage).1
  have hlisted : b.listed = true := hV.listed hfresh
  have hwaiting : ∀ u, b.book.stage u = .waiting ↔ u ∈ b.sem.waiting .exitSem :=
    fun u => (hb.blocked.waiting ..).trans JoinPc.waitsem_eq_exitSem |>.symm
  have hcard := hb.blocked.wf.card .exitSem
  rw [Join.completejoinTaken, if_pos hlisted]
  split
  · rename_i hneg
    -- Nobody waits on `data_sem`: such a thread would be in `pthread_notifywaiters`.
    have hdata : 0 ≤ b.sem.count .dataSem := by
      by_contra hnot
      obtain ⟨u, hu⟩ := hb.blocked.wf.exists_waiting (not_le.mp hnot)
      obtain ⟨hhas, -⟩ := JoinPc.wake_spec ((hb.blocked.waiting _ u).mp hu)
      obtain rfl := hb.lock.unique hhas (congrArg JoinPc.hasJoin ht)
      rw [hb.blocked.waiting, ht] at hu
      cases hu
    refine hb.goto ht (semInit { b with terminated := true } .dataSem (b.sem.count .exitSem + 1))
      .notify (hb.blocked.setCount ?_) (by simp [semInit, set]) (.single ?_)
    · split
      · exact Or.inr ⟨hdata, Int.emod_nonneg _ (by decide)⟩
      · exact Or.inl rfl
    · refine .notify t _ hstage hlisted hneg fun hA => ?_
      have hone : b.sem.count .exitSem = -1 := by
        have := halone hA
        omega
      obtain ⟨j, hj⟩ := card_eq_one.mp (show (b.sem.waiting .exitSem).card = 1 by omega)
      -- `sem_init` accepts the value 0.
      refine ⟨?_, j, fun u => by rw [hwaiting, hj, mem_singleton]⟩
      simp [semInit, set, book, hone]
  · rename_i hzero
    have hnone : ∀ u, b.book.stage u ≠ .waiting := by
      intro u hu
      exact hzero (hb.blocked.wf.count_neg ((hwaiting u).mp hu))
    split
    · have hempty : R = ∅ := by
        refine eq_empty_of_forall_notMem fun u hu => ?_
        grind
      exact hb.destroyjoin ht { b with terminated := true, left := true } rfl rfl
        ⟨hlisted, rfl, (hV.crefs hlisted).1.trans (card_eq_zero.mpr hempty)⟩
        (.single (.leave t hstage hnone))
    · exact hb.goto ht { b with terminated := true, left := true } .giveBack hb.blocked rfl
        (.single (.leave t hstage hnone))

/-- **A thread reads the exit value**, and takes `g_join_semaphore` again. -/
theorem Held.exitGot (ht : b.pc t = .exitGot) (hpost : b.post .dataSem w = some b') :
    Follows A b (b'.take t .gJoin .release .retakeWait) := by
  have hstage : b.book.stage t = .woken := congrArg JoinPc.stage ht
  rcases post_cases hb.blocked hpost with ⟨-, hs, rfl, hb'⟩ | ⟨u, -, -, hu, rfl, hb'⟩
  · obtain ⟨hheld, hbook⟩ := Held.takeJoin (b := b.set (b.sem.give .dataSem) b.pc) (t := t)
      (p := .release) (q := .retakeWait) ⟨hb', hb.lock.same (fun _ => rfl) (Or.inl (by simp [set]))⟩
      ht ⟨rfl, rfl⟩ ⟨rfl, rfl⟩ ⟨rfl, rfl⟩ rfl
    refine ⟨hheld, ?_⟩
    rw [hbook]
    exact .single (.read t hstage hs)
  · obtain ⟨hno, hyes, -, -, hdata⟩ := JoinPc.wake_spec hu
    have htu : t ≠ u := by
      rintro rfl
      rw [ht] at hu
      cases hu
    obtain ⟨hheld, hbook⟩ := Held.takeJoin (t := t) (p := .release) (q := .retakeWait)
      (hb.moved hb' (by simp) (hyes.trans hno.symm))
      ((update_of_ne htu ..).trans ht) ⟨rfl, rfl⟩ ⟨rfl, rfl⟩ ⟨rfl, rfl⟩ rfl
    refine ⟨hheld, ?_⟩
    rw [hbook, book_set, (hdata rfl).2]
    exact .single (.readLast t u hstage (hdata rfl).1)

/-- **A thread gives its reference back**, and frees the structure if it was the last one. -/
theorem Held.release (hV : b.book.Ok R) (ht : b.pc t = .release) (hstep : b.go t w = some b') :
    Follows A b b' := by
  have hstage : b.book.stage t = .reader := congrArg JoinPc.stage ht
  have hrelease := ReflTransGen.single (Book.Step.release (A := A) t hstage)
  simp only [go, ht] at hstep
  split at hstep
  · rename_i hzero
    cases hstep
    exact hb.destroyjoin ht { b with crefs := (b.crefs + 255) % 256 } rfl rfl
      ⟨hV.listed_of_reader hstage, hV.reader t (Or.inr hstage), hzero⟩ hrelease
  · cases hstep
    exact hb.goto ht { b with crefs := (b.crefs + 255) % 256 } .giveBack hb.blocked rfl hrelease

/-- **The exiting thread wakes one of the waiting threads.** -/
theorem Held.notify (hV : b.book.Ok R) (ht : b.pc t = .notify)
    (hpost : b.post .exitSem w = some b') :
    Follows A b (if b'.sem.count .exitSem < 0 then b' else b'.goto t .dataTake) := by
  have hstage : b.book.stage t = .notify := congrArg JoinPc.stage ht
  have hneg : b.sem.count .exitSem < 0 := hV.notify t hstage
  obtain ⟨-, hs, -, -⟩ | ⟨u, -, -, hu, rfl, hb'⟩ := post_cases hb.blocked hpost
  · omega
  obtain ⟨hno, hyes, -, hexit, -⟩ := JoinPc.wake_spec hu
  have htu : t ≠ u := by
    rintro rfl
    rw [ht] at hu
    cases hu
  have hheld := hb.moved hb' (by simp) (hyes.trans hno.symm)
  split
  · rename_i hmore
    have hwake := Book.Step.wake (A := A) t u _ hstage (hexit rfl).1 (Or.inl ⟨rfl, hmore⟩)
    have hself : update (update b.book.stage u .woken) t .notify =
        update b.book.stage u .woken := by
      rw [← update_of_ne htu JoinStage.woken b.book.stage] at hstage
      rw [← hstage, update_eq_self]
    rw [hself] at hwake
    refine ⟨⟨h, hheld⟩, ?_⟩
    rw [book_set, (hexit rfl).2]
    exact .single hwake
  · rename_i hlast
    have hzero : b.sem.count .exitSem + 1 = 0 := by
      have hle : ¬ b.sem.count .exitSem + 1 < 0 := hlast
      omega
    have hpc : update b.pc u (b.pc u).wake t = .notify := (update_of_ne htu ..).trans ht
    refine ⟨⟨h, hheld.moved (hb'.goto (congrArg JoinPc.waitsem hpc) rfl) rfl
      (congrArg JoinPc.hasJoin hpc).symm⟩, ?_⟩
    rw [Join.goto, book_set, book_set, (hexit rfl).2]
    exact .single (.wake t u _ hstage (hexit rfl).1 (Or.inr ⟨rfl, hzero⟩))

/-- **The exiting thread waits until the exit value has been read.** -/
theorem Held.dataTake (ht : b.pc t = .dataTake) :
    Follows A b (b.take t .dataSem .dataGot .dataWait) := by
  have hstage : b.book.stage t = .dataTake := congrArg JoinPc.stage ht
  obtain ⟨hs, heq⟩ | ⟨hs, heq⟩ := take_cases b t .dataSem .dataGot .dataWait
  · rw [heq]
    refine ⟨⟨h, hb.moved ((hb.blocked.take hs).goto (congrArg JoinPc.waitsem ht) rfl) (by simp)
      (congrArg JoinPc.hasJoin ht).symm⟩, ?_⟩
    rw [book_set]
    exact .single (.take t hstage hs)
  · rw [heq]
    refine ⟨⟨h, hb.moved (hb.blocked.join hs (congrArg JoinPc.waitsem ht) rfl) (by simp)
      (congrArg JoinPc.hasJoin ht).symm⟩, ?_⟩
    rw [book_set]
    exact .single (.block t hstage hs)

/-- **Every careful step of the code follows the structure.** -/
theorem Held.step (hV : b.book.Ok R) {op : JoinOp τ} (hcareful : Careful b op)
    (halone : A → CarefulAlone b op) (hstep : op.step b = some b') : Follows A b b' := by
  cases op with
  | call t k =>
    obtain ⟨hcond, hstep⟩ := ite_none_right_eq_some.mp hstep
    cases hstep
    exact hb.call hcond.1 hcond.2
  | run t w =>
    obtain ⟨hjoin, hdetach⟩ := hcareful
    rw [JoinOp.step] at hstep
    have hgo := hstep
    rw [go] at hgo
    split at hgo <;> rename_i ht
    · exact hb.joinTaken hV ht (hjoin ht) hgo
    · cases hgo
      exact hb.detachTaken ht (hdetach ht)
    · cases hgo
      exact hb.completejoinTaken hV ht fun hA => (halone hA).2 ht
    · obtain ⟨b1, hpost, rfl⟩ := map_eq_some_iff.mp hgo
      exact hb.exitGot ht hpost
    · exact hb.release hV ht hstep
    · obtain ⟨b1, hpost, rfl⟩ := map_eq_some_iff.mp hgo
      exact hb.notify hV ht hpost
    · cases hgo
      exact hb.dataTake ht
    · cases hgo
      exact hb.goto ht { b with left := true } .giveBack hb.blocked rfl
        (.single (.done t (congrArg JoinPc.stage ht)))
    · obtain ⟨b1, hpost, rfl⟩ := map_eq_some_iff.mp hgo
      exact hb.giveBack ht hpost
    all_goals cases hgo

end

end Join

variable {b : Join τ}

theorem JoinRun.held [DecidableEq τ] {A : Prop} {P : Join τ → JoinOp τ → Prop}
    (hP : ∀ b op, P b op → Careful b op ∧ (A → CarefulAlone b op)) (hrun : JoinRun P b) :
    (∃ h, b.Held h) ∧ (∃ R, b.book.Ok R) ∧ (A → b.book.Phase) := by
  induction hrun with
  | init =>
    refine ⟨⟨none, BlockedOn.init (fun s => by cases s <;> decide) fun _ => rfl,
      ⟨Or.inl ⟨rfl, rfl⟩, fun t => ⟨nofun, nofun⟩⟩⟩, ⟨∅, ?_⟩, fun _ => .running rfl rfl⟩
    constructor <;> simp [Join.init, Join.book, Sems.init, JoinPc.stage, JoinStage.pending,
      JoinStage.notifying]
  | step op _ hop hstep ih =>
    obtain ⟨⟨h, hb⟩, ⟨R, hV⟩, hphase⟩ := ih
    obtain ⟨hcareful, halone⟩ := hP _ op hop
    obtain ⟨hheld, hsteps⟩ := hb.step hV hcareful halone hstep
    exact ⟨hheld, hV.run hphase hsteps⟩

theorem Join.freed_once {R : Finset τ} (hV : b.book.Ok R) :
    b.destroys ≤ 1 ∧ (0 < b.destroys → ∀ t, (b.pc t).referenced = false) := by
  rcases hlisted : b.listed with _ | _
  · obtain ⟨-, hempty, hone⟩ := hV.freed hlisted
    refine ⟨Nat.le_of_eq hone, fun _ t => Bool.eq_false_iff.mpr fun ht => ?_⟩
    have hmem := (hV.mem t).mpr (JoinPc.referenced_eq_true.mp ht)
    rw [hempty] at hmem
    exact absurd hmem (notMem_empty t)
  · have hzero : b.destroys = 0 := hV.unfreed hlisted
    exact ⟨by omega, fun hpos => by omega⟩

/-- **Joining a thread.** In the runs in which `crefs` does not overflow, nobody detaches a
terminated thread to whose structure a call of `pthread_join` has a reference, and at most one
thread waits in `pthread_join` when the thread exits, the structure is freed at most once, nobody
has a reference to it then, and the exiting thread goes on only after the exit value has been
read. -/
theorem joinRun_law {τ : Type*} [DecidableEq τ] {b : Join τ} (h : JoinRun CarefulAlone b) :
    JoinLaw b := by
  obtain ⟨-, ⟨R, hV⟩, hphase⟩ := h.held (A := True) fun _ _ hop => ⟨hop.1, fun _ => hop⟩
  obtain ⟨honce, hfree⟩ := Join.freed_once hV
  refine ⟨honce, hfree, fun hleft t => ?_⟩
  cases hphase trivial with
  | running _ hleft₁ | waking e j _ _ _ _ hleft₁ =>
    exact absurd (hleft.symm.trans hleft₁) nofun
  | gone _ hnone => exact JoinPc.pending_stage.symm.trans (hnone t)

instance {τ : Type*} (b : Join τ) (op : JoinOp τ) : Decidable (Careful b op) :=
  match op with
  | .call _ _ => isTrue trivial
  | .run t _ =>
    inferInstanceAs (Decidable ((b.pc t = .taken .join → b.crefs < 255) ∧
      (b.pc t = .taken .detach → b.terminated = true → b.crefs = 0)))

instance {τ : Type*} (b : Join τ) (op : JoinOp τ) : Decidable (CarefulAlone b op) :=
  match op with
  | .call t k => inferInstanceAs (Decidable (Careful b (.call t k) ∧ True))
  | .run t w =>
    inferInstanceAs (Decidable (Careful b (.run t w) ∧
      (b.pc t = .taken .completejoin → -1 ≤ b.sem.count .exitSem)))

theorem joinRun_law_one :
    ∃ b : Join (Fin 2), JoinRun CarefulAlone b ∧ b.destroys = 1 ∧ b.left = true ∧ JoinLaw b := by
  have h := JoinRun.replay (τ := Fin 2) CarefulAlone
    [.call 0 .join, .run 0 none, .call 1 .completejoin, .run 1 none, .run 1 (some 0), .run 1 none,
      .run 0 (some 1), .run 1 none, .run 1 (some 0), .run 0 none] (by decide +kernel)
  exact ⟨_, h, rfl, rfl, joinRun_law h⟩

set_option maxRecDepth 2000 in
/-- A thread waits for another one to exit and has read the exit value. Before it has
`g_join_semaphore` again, a third thread detaches the one that has terminated, and frees the
structure. The first thread then decrements `crefs` and frees the structure again. -/
theorem joinRun_freed_twice :
    ∃ b b' : Join (Fin 3), JoinRun (fun _ _ => True) b ∧ b.destroys = 1 ∧
      (b.pc 0).referenced = true ∧ JoinRun (fun _ _ => True) b' ∧ b'.destroys = 2 ∧ ¬ JoinLaw b ∧
      ¬ JoinLaw b' := by
  have h := JoinRun.replay (τ := Fin 3) (fun _ _ => True)
    [.call 0 .join, .run 0 none, .call 1 .completejoin, .run 1 none, .run 1 (some 0), .run 1 none,
      .call 2 .detach, .run 0 (some 1), .run 1 none, .run 1 (some 2), .run 2 none]
    (by decide +kernel)
  have h' := (h.step (.run 2 (some 0)) trivial rfl).step (.run 0 none) trivial rfl
  refine ⟨_, _, h, rfl, rfl, h', rfl, fun hlaw => ?_, fun hlaw => ?_⟩
  · exact absurd (hlaw.unreferenced (by decide +kernel) 0) (by decide +kernel)
  · exact absurd hlaw.once (by decide +kernel)

end NuttX
