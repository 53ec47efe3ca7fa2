import NuttX.Lib.Replay
import NuttX.Lib.Semaphore

/-!
# Barriers

`pthread_barrierwait.c`, at the granularity of its semaphore calls. Between `sched_lock` and the
place where it blocks or returns a thread keeps the processor, `NuttX.Barrier.cpu`; interrupt
handlers can come in between and send signals, and a signal to a thread that is blocked on the
semaphore makes its `sem_wait` return `EINTR`. Threads that have been woken go on when they get the
processor.

How many threads have arrived is read off the count of the semaphore. A thread that has been
interrupted and does not wait again yet is missing from it. `NuttX.barrierRun_law` is what a barrier
is for, in the runs in which nobody reads the count at such a moment, and in which nobody is
interrupted while the last thread releases the others; `NuttX.barrierRun_stuck` is what happens
otherwise.
-/

namespace NuttX

open Function Finset

/-! ### The code -/

/-- What `pthread_barrier_wait` returns. -/
inductive BarrierResult
  | zero
  | serialThread
  deriving DecidableEq, Repr

/-- Where a thread is in `pthread_barrier_wait`. -/
inductive BarrierPc
  | user
  | getvalue
  | release (semcount : ℤ)
  | reread
  | wait
  | blocked
  | woken (interrupted : Bool)
  deriving DecidableEq, Repr

/-- What a step shows to the outside. -/
inductive BarrierEvent (τ : Type*)
  | enter (t : τ)
  | leave (t : τ) (result : BarrierResult)
  | internal
  deriving DecidableEq, Repr

/-- A barrier and the threads that use it. -/
structure Barrier (τ : Type*) where
  sem : Sems Unit τ
  pc : τ → BarrierPc
  cpu : Option τ

/-- The steps. -/
inductive BarrierOp (τ : Type*)
  | run (t : τ) (w : Option τ)
  | signal (w : τ)
  deriving DecidableEq, Repr

namespace Barrier

variable {τ : Type*} [DecidableEq τ]

def init : Barrier τ := ⟨Sems.init fun _ => 0, fun _ => .user, none⟩

def goto (b : Barrier τ) (t : τ) (pc : BarrierPc) (cpu : Option τ) : Barrier τ :=
  { b with pc := update b.pc t pc, cpu := cpu }

def setSem (b : Barrier τ) (S : Sems Unit τ) : Barrier τ := { b with sem := S }

/-- The thread that `sem_post` has selected is ready to run. -/
def wake (b : Barrier τ) : Option τ → Barrier τ
  | none => b
  | some w => { b with pc := update b.pc w (.woken false) }

/-- One step of `pthread_barrier_wait` on a barrier for `count` threads. In the comparison with the
count the `int` is converted to `unsigned int`. -/
def go (count : UInt32) (b : Barrier τ) (t : τ) (w : Option τ) :
    Option (Barrier τ × BarrierEvent τ) :=
  match b.pc t with
  | .user => some (b.goto t .getvalue (some t), .enter t)
  | .getvalue =>
    if (count.toNat : ℤ) ≤ (1 - b.sem.count ()) % 2 ^ 32 then
      some (b.goto t (.release (b.sem.count ())) (some t), .internal)
    else some (b.goto t .wait (some t), .internal)
  | .release semcount =>
    if semcount < 0 then
      match b.sem.post () w with
      | none => none
      | some S => some (((b.setSem S).wake w).goto t .reread (some t), .internal)
    else some (b.goto t .user none, .leave t .serialThread)
  | .reread => some (b.goto t (.release (b.sem.count ())) (some t), .internal)
  | .wait =>
    if (b.sem.wait t ()).2 then
      some ((b.setSem (b.sem.wait t ()).1).goto t .user none, .leave t .zero)
    else some ((b.setSem (b.sem.wait t ()).1).goto t .blocked none, .internal)
  | .blocked => none
  | .woken true => some (b.goto t .wait (some t), .internal)
  | .woken false => some (b.goto t .user none, .leave t .zero)

/-- `sem_waitirq` on a thread that is blocked on the semaphore. -/
def interrupt (b : Barrier τ) (w : τ) : Barrier τ :=
  { b with sem := b.sem.leave w (), pc := update b.pc w (.woken true) }

end Barrier

namespace BarrierOp

variable {τ : Type*} [DecidableEq τ]

def step (count : UInt32) : BarrierOp τ → Barrier τ → Option (Barrier τ × BarrierEvent τ)
  | run t w, b => if b.cpu = none ∨ b.cpu = some t then b.go count t w else none
  | signal w, b => if w ∈ b.sem.waiting () then some (b.interrupt w, .internal) else none

end BarrierOp

/-- The runs whose steps all satisfy `P`, with what the steps have shown, the latest first. -/
inductive BarrierRun {τ : Type*} [DecidableEq τ] (count : UInt32)
    (P : BarrierOp τ → Barrier τ → Prop) : List (BarrierEvent τ) → Barrier τ → Prop
  | init : BarrierRun count P [] .init
  | step {tr : List (BarrierEvent τ)} {b b' : Barrier τ} {ev : BarrierEvent τ} (op : BarrierOp τ) :
      BarrierRun count P tr b → P op b → op.step count b = some (b', ev) →
      BarrierRun count P (ev :: tr) b'

/-- A run that is given by its steps. -/
theorem BarrierRun.replay {τ : Type*} [DecidableEq τ] (count : UInt32)
    (P : BarrierOp τ → Barrier τ → Prop) [∀ op b, Decidable (P op b)] (ops : List (BarrierOp τ))
    (h : (NuttX.replay (BarrierOp.step count) List.cons (fun _ b op _ _ => P op b) ops []
      .init).isSome) : BarrierRun count P (Option.get _ h).1 (Option.get _ h).2 :=
  replay_sound (fun op hrun hop hP => hrun.step op hP hop) .init (Option.some_get h).symm

/-! ### What a barrier is for -/

namespace Barrier

variable {τ : Type*} [DecidableEq τ]

/-- How many calls there have been. -/
def arrivals : List (BarrierEvent τ) → ℕ
  | [] => 0
  | .enter _ :: tr => arrivals tr + 1
  | _ :: tr => arrivals tr

/-- The number of a thread's last call, when the calls are numbered in the order of arrival. -/
def ticket : List (BarrierEvent τ) → τ → ℕ
  | [], _ => 0
  | .enter t :: tr, u => if u = t then arrivals tr else ticket tr u
  | _ :: tr, u => ticket tr u

/-- The round of a thread's last call: `n` calls make a round. -/
def round (n : ℕ) (tr : List (BarrierEvent τ)) (t : τ) : ℕ := ticket tr t / n

/-- How many calls of round `j` have returned `r`. -/
def returned (n : ℕ) : List (BarrierEvent τ) → ℕ → BarrierResult → ℕ
  | [], _, _ => 0
  | .leave t r' :: tr, j, r =>
    returned n tr j r + if round n tr t = j ∧ r' = r then 1 else 0
  | _ :: tr, j, r => returned n tr j r

/-- What a barrier for `n` threads is for. -/
structure Law (n : ℕ) (tr : List (BarrierEvent τ)) (b : Barrier τ) : Prop where
  early : ∀ j r, 0 < returned n tr j r → (j + 1) * n ≤ arrivals tr
  serial_le : ∀ j, returned n tr j .serialThread ≤ 1
  serial_eq : ∀ j, (j + 1) * n ≤ arrivals tr → (∀ t, b.pc t ≠ .user → round n tr t ≠ j) →
    returned n tr j .serialThread = 1
  progress : (b.sem.waiting ()).card < n

end Barrier

/-! ### The count is right when it is read -/

namespace BarrierPc

/-- The thread has the processor. -/
def running : BarrierPc → Bool
  | getvalue | release _ | reread | wait => true
  | user | blocked | woken _ => false

/-- The thread frees the others. -/
def releasing : BarrierPc → Bool
  | release _ | reread => true
  | _ => false

/-- The thread has arrived, and its round is not complete. -/
def gathered : BarrierPc → Bool
  | getvalue | wait | blocked | woken true => true
  | user | release _ | reread | woken false => false

theorem running_of_releasing {pc : BarrierPc} (h : pc.releasing = true) : pc.running = true := by
  cases pc <;> first | rfl | cases h

theorem not_gathered_of_releasing {pc : BarrierPc} (h : pc.releasing = true) :
    pc.gathered = false := by
  cases pc <;> first | rfl | cases h

end BarrierPc

/-- Nobody reads the count while a thread has been interrupted and does not wait again, and nobody
is interrupted while the last thread frees the others. -/
def BarrierOp.Prompt {τ : Type*} : BarrierOp τ → Barrier τ → Prop
  | run t _, b => b.pc t = .getvalue → ∀ u, b.pc u ≠ .woken true
  | signal _, b => ∀ t, (b.pc t).releasing = false

instance {τ : Type*} [Fintype τ] (op : BarrierOp τ) (b : Barrier τ) : Decidable (op.Prompt b) :=
  match op with
  | .run t _ => inferInstanceAs (Decidable (b.pc t = .getvalue → ∀ u, b.pc u ≠ .woken true))
  | .signal _ => inferInstanceAs (Decidable (∀ t, (b.pc t).releasing = false))

namespace Barrier

variable {τ : Type*} [DecidableEq τ] {count : UInt32} {n R : ℕ} {tr : List (BarrierEvent τ)}
  {b b' : Barrier τ} {ev : BarrierEvent τ} {t u w : τ} {L : Finset τ} {cpu : Option τ}
  {pc : BarrierPc}

/-- What is going on: the threads of a round gather, or the last one frees the others. `L` are the
threads that have arrived in round `R` and have not been freed. -/
inductive Phase (n : ℕ) (tr : List (BarrierEvent τ)) (b : Barrier τ) (R : ℕ) (L : Finset τ) : Prop
  | gather (none : ∀ t, (b.pc t).releasing = false) (arrived : arrivals tr = R * n + L.card)
      (le : L.card ≤ n) (lt : (∀ t, b.pc t ≠ .getvalue) → L.card < n)
  | release (r : τ) (last : (b.pc r).releasing = true) (round_eq : round n tr r = R)
      (arrived : arrivals tr = (R + 1) * n) (lt : L.card < n)
      (blocked : ∀ t ∈ L, b.pc t = .blocked)
      (value : ∀ c, b.pc r = .release c → c = b.sem.count ())

/-- The semaphore counts the blocked threads, and the thread that runs has the processor. -/
structure Sane (b : Barrier τ) : Prop where
  wf : b.sem.Wf
  nonpos : b.sem.count () ≤ 0
  blocked : ∀ t, t ∈ b.sem.waiting () ↔ b.pc t = .blocked
  cpu : ∀ t, (b.pc t).running = true ↔ b.cpu = some t

/-- The invariant. -/
structure Inv (n : ℕ) (tr : List (BarrierEvent τ)) (b : Barrier τ) (R : ℕ) (L : Finset τ) :
    Prop extends Sane b where
  mem : ∀ t, t ∈ L ↔ (b.pc t).gathered = true
  round_eq : ∀ t ∈ L, round n tr t = R
  woken : ∀ t, b.pc t = .woken false → (round n tr t + 1) * n ≤ arrivals tr
  early : ∀ j r, 0 < returned n tr j r → (j + 1) * n ≤ arrivals tr
  serial : ∀ j, returned n tr j .serialThread = if j < R then 1 else 0
  phase : Phase n tr b R L

/-- **The law of barriers follows from the invariant.** -/
theorem Inv.law (h : Inv n tr b R L) (hn : 0 < n) : Law n tr b := by
  have hsub : b.sem.waiting () ⊆ L := by
    intro t ht
    rw [h.mem, (h.blocked t).mp ht]
    rfl
  have hleave : ∀ t ∈ L, b.pc t ≠ .user := by
    intro t ht huser
    have hmem := (h.mem t).mp ht
    rw [huser] at hmem
    cases hmem
  refine ⟨h.early, fun j => ?_, fun j hj hout => ?_, ?_⟩
  · rw [h.serial]
    split <;> omega
  · rw [h.serial, if_pos]
    by_contra hRj
    have hRn : R * n ≤ j * n := Nat.mul_le_mul_right n (not_lt.mp hRj)
    rw [Nat.succ_mul] at hj
    rcases h.phase with ⟨-, harr, hle, hlt⟩ | ⟨r, hr, hround, harr, -⟩
    · -- All of round `R` have arrived, so they are in the barrier, and it is the round `j`.
      have hjR : j = R := Nat.eq_of_mul_eq_mul_right hn (by omega)
      obtain ⟨t, ht⟩ := Finset.card_pos.mp (show 0 < L.card by omega)
      exact hout t (hleave t ht) ((h.round_eq t ht).trans hjR.symm)
    -- The thread that frees the others is still in it.
    rw [Nat.succ_mul] at harr
    have hjR : j = R := Nat.eq_of_mul_eq_mul_right hn (by omega)
    refine hout r (fun huser => ?_) (hround.trans hjR.symm)
    rw [huser] at hr
    cases hr
  · rcases h.phase with ⟨-, -, hle, hlt⟩ | ⟨-, -, -, -, hlt, -⟩
    · by_cases hget : ∃ t, b.pc t = .getvalue
      · -- The thread that has just arrived is not blocked.
        obtain ⟨t, ht⟩ := hget
        have htL : t ∈ L := by
          rw [h.mem, ht]
          rfl
        have hne : t ∉ b.sem.waiting () := by
          rw [h.blocked, ht]
          exact nofun
        exact (Finset.card_lt_card (Finset.ssubset_iff_subset_ne.mpr
          ⟨hsub, fun heq => hne (heq ▸ htL)⟩)).trans_le hle
      · exact (Finset.card_le_card hsub).trans_lt (hlt fun t ht => hget ⟨t, ht⟩)
    · exact (Finset.card_le_card hsub).trans_lt hlt

/-! ### The steps -/

theorem inv_init (hn : 0 < n) : Inv n [] (init : Barrier τ) 0 ∅ where
  wf := Sems.Wf.init fun _ => Int.le_refl 0
  nonpos := Int.le_refl 0
  blocked t := ⟨fun ht => absurd ht (notMem_empty t), nofun⟩
  cpu _ := ⟨nofun, nofun⟩
  mem t := ⟨fun ht => absurd ht (notMem_empty t), nofun⟩
  round_eq t ht := absurd ht (notMem_empty t)
  woken _ := nofun
  early _ _ hpos := absurd hpos (Nat.lt_irrefl 0)
  serial _ := rfl
  phase := .gather (fun _ => rfl) (Nat.zero_mul n).symm (Nat.zero_le n) fun _ => hn

@[simp] theorem sem_goto : (b.goto t pc cpu).sem = b.sem := rfl

@[simp] theorem cpu_goto : (b.goto t pc cpu).cpu = cpu := rfl

theorem pc_goto : (b.goto t pc cpu).pc u = if u = t then pc else b.pc u := update_apply ..

@[simp] theorem pc_goto_self : (b.goto t pc cpu).pc t = pc := update_self ..

@[simp] theorem pc_goto_of_ne (hu : u ≠ t) : (b.goto t pc cpu).pc u = b.pc u := update_of_ne hu ..

theorem releasing_goto (hpc : pc.releasing = false)
    (hother : ∀ u, u ≠ t → (b.pc u).releasing = false) (u : τ) :
    ((b.goto t pc cpu).pc u).releasing = false := by
  rcases eq_or_ne u t with rfl | hu
  · rw [pc_goto_self]
    exact hpc
  · rw [pc_goto_of_ne hu]
    exact hother u hu

theorem woken_of_goto (h : (b.goto t pc cpu).pc u = .woken false) (hpc : pc ≠ .woken false) :
    u ≠ t ∧ b.pc u = .woken false := by
  rcases eq_or_ne u t with rfl | hu
  · rw [pc_goto_self] at h
    exact absurd h hpc
  · rw [pc_goto_of_ne hu] at h
    exact ⟨hu, h⟩

omit [DecidableEq τ] in
theorem Sane.not_running (h : b.Sane) (hcpu : b.cpu = none ∨ b.cpu = some t) (hu : u ≠ t) :
    (b.pc u).running = false := by
  rw [Bool.eq_false_iff]
  intro hrun
  rw [(h.cpu u).mp hrun] at hcpu
  rcases hcpu with hcpu | hcpu
  · cases hcpu
  · exact hu (Option.some.inj hcpu)

theorem Sane.goto (h : b.Sane) (hcpu : b.cpu = none ∨ b.cpu = some t) {p : BarrierPc}
    (hold : b.pc t ≠ .blocked) (hpc : p ≠ .blocked) :
    (b.goto t p (if p.running then some t else none)).Sane where
  wf := h.wf
  nonpos := h.nonpos
  blocked u := by
    rw [sem_goto, h.blocked]
    rcases eq_or_ne u t with rfl | hu
    · simp only [pc_goto_self, hold, hpc]
    · rw [pc_goto_of_ne hu]
  cpu u := by
    rw [cpu_goto]
    rcases eq_or_ne u t with rfl | hu
    · rw [pc_goto_self]
      cases p.running <;> simp
    · rw [pc_goto_of_ne hu, h.not_running hcpu hu]
      cases p.running <;> simp [hu.symm]

theorem Sane.wakes (h : b.Sane) (hw : w ∈ b.sem.waiting ()) (i : Bool) :
    ({ b with sem := b.sem.leave w (),
              pc := update b.pc w (.woken i) } : Barrier τ).Sane := by
  have hpc := (h.blocked w).mp hw
  have hneg := h.wf.count_neg hw
  refine ⟨h.wf.leave hw, ?_, fun u => ?_, fun u => ?_⟩
  · rw [Sems.count_leave, update_self]
    omega
  · rw [Sems.mem_waiting_leave, h.blocked]
    rcases eq_or_ne u w with rfl | hu
    · simp
    · simp [hu]
  · rw [← h.cpu]
    rcases eq_or_ne u w with rfl | hu
    · simp [hpc, BarrierPc.running]
    · simp [hu]

theorem Inv.moves (h : Inv n tr b R L) (hsane : b'.Sane) (hother : ∀ u, u ≠ t → b'.pc u = b.pc u)
    (hgath : (b'.pc t).gathered = (b.pc t).gathered) (hwoken : b'.pc t ≠ .woken false)
    (hphase : Phase n tr b' R L) : Inv n (.internal :: tr) b' R L where
  toSane := hsane
  mem u := by
    rw [h.mem]
    rcases eq_or_ne u t with rfl | hu
    · rw [hgath]
    · rw [hother u hu]
  round_eq := h.round_eq
  woken u hu := by
    rcases eq_or_ne u t with rfl | hut
    · exact absurd hu hwoken
    · exact h.woken u (hother u hut ▸ hu)
  early := h.early
  serial := h.serial
  phase := by
    rcases hphase with ⟨hnone, harr, hle, hlt⟩ | ⟨r, hr, hround, harr, hlt, hbl, hval⟩
    · exact .gather hnone harr hle hlt
    · exact .release r hr hround harr hlt hbl hval

section

variable (h : Inv n tr b R L) (hcpu : b.cpu = none ∨ b.cpu = some t)

include h hcpu

theorem Inv.gather (ht : (b.pc t).releasing = false) :
    (∀ u, (b.pc u).releasing = false) ∧ arrivals tr = R * n + L.card ∧ L.card ≤ n ∧
      ((∀ u, b.pc u ≠ .getvalue) → L.card < n) := by
  rcases h.phase with ⟨hnone, harr, hle, hlt⟩ | ⟨r, hr, -⟩
  · exact ⟨hnone, harr, hle, hlt⟩
  rcases eq_or_ne r t with rfl | hrt
  · rw [ht] at hr
    cases hr
  · have hrun := BarrierPc.running_of_releasing hr
    rw [h.not_running hcpu hrt] at hrun
    cases hrun

theorem Inv.pc_ne (hu : u ≠ t) {p : BarrierPc} (hpc : p.running = true) : b.pc u ≠ p := by
  rintro rfl
  rw [h.not_running hcpu hu] at hpc
  cases hpc

theorem Inv.not_getvalue (ht : b.pc t ≠ .getvalue) (u : τ) : b.pc u ≠ .getvalue := by
  rcases eq_or_ne u t with rfl | hu
  · exact ht
  · exact h.pc_ne hcpu hu rfl

/-- **A thread arrives.** -/
theorem Inv.enter (ht : b.pc t = .user) :
    Inv n (.enter t :: tr) (b.goto t .getvalue (some t)) R (insert t L) := by
  obtain ⟨hnone, harr, -, hlt⟩ := h.gather hcpu (by rw [ht]; rfl)
  have hcard : L.card < n := hlt (h.not_getvalue hcpu (by rw [ht]; exact nofun))
  have htL : t ∉ L := by
    rw [h.mem, ht]
    exact nofun
  have hround : ∀ u, u ≠ t → round n (.enter t :: tr) u = round n tr u := by
    intro u hu
    rw [round, ticket, if_neg hu, round]
  have hself : round n (.enter t :: tr) t = R := by
    rw [round, ticket, if_pos rfl, harr, Nat.add_comm, Nat.add_mul_div_right _ _ (by omega),
      Nat.div_eq_of_lt hcard, Nat.zero_add]
  refine ⟨h.toSane.goto hcpu (by rw [ht]; exact nofun) nofun, fun u => ?_,
    fun u hu => ?_, fun u hu => ?_, fun j r hpos => ?_, h.serial, ?_⟩
  · rw [mem_insert, h.mem]
    rcases eq_or_ne u t with rfl | hu
    · simp [BarrierPc.gathered]
    · simp [hu]
  · rcases eq_or_ne u t with rfl | hut
    · exact hself
    · rw [hround u hut]
      exact h.round_eq u (mem_of_mem_insert_of_ne hu hut)
  · obtain ⟨hut, hu⟩ := woken_of_goto hu nofun
    rw [hround u hut]
    exact (h.woken u hu).trans (Nat.le_succ _)
  · exact (h.early j r hpos).trans (Nat.le_succ _)
  refine .gather (releasing_goto rfl fun u _ => hnone u) ?_ ?_
    fun hget => absurd pc_goto_self (hget t)
  · rw [arrivals, harr, card_insert_of_notMem htL]
    omega
  · rw [card_insert_of_notMem htL]
    omega

theorem Inv.value_eq (ht : b.pc t = .getvalue) (hprompt : ∀ u, b.pc u ≠ .woken true) :
    L = insert t (b.sem.waiting ()) ∧ 1 - b.sem.count () = L.card := by
  have hL : L = insert t (b.sem.waiting ()) := by
    ext u
    rw [h.mem, mem_insert, h.blocked]
    rcases eq_or_ne u t with rfl | hu
    · simp [ht, BarrierPc.gathered]
    have hget := h.pc_ne hcpu hu (p := .getvalue) rfl
    have hwait := h.pc_ne hcpu hu (p := .wait) rfl
    rcases hpc : b.pc u with _ | _ | _ | _ | _ | _ | ⟨_ | _⟩ <;>
      simp_all [BarrierPc.gathered]
  refine ⟨hL, ?_⟩
  have htw : t ∉ b.sem.waiting () := by
    rw [h.blocked, ht]
    exact nofun
  have hcard := h.wf.card ()
  have hnonpos := h.nonpos
  rw [hL, card_insert_of_notMem htw]
  omega

/-- **The thread that has found all others waiting will free them.** -/
theorem Inv.last (ht : b.pc t = .getvalue) (hprompt : ∀ u, b.pc u ≠ .woken true)
    (hcard : n ≤ L.card) :
    Inv n (.internal :: tr) (b.goto t (.release (b.sem.count ())) (some t)) R (L.erase t) := by
  obtain ⟨-, harr, hle, -⟩ := h.gather hcpu (by rw [ht]; rfl)
  obtain ⟨hL, -⟩ := h.value_eq hcpu ht hprompt
  have htL : t ∈ L := by
    rw [hL]
    exact mem_insert_self t _
  have hpos := card_pos.mpr ⟨t, htL⟩
  refine ⟨h.toSane.goto hcpu (by rw [ht]; exact nofun) nofun, fun u => ?_,
    fun u hu => h.round_eq u (mem_of_mem_erase hu), fun u hu => ?_, h.early, h.serial, ?_⟩
  · rw [mem_erase, h.mem]
    rcases eq_or_ne u t with rfl | hu
    · simp [BarrierPc.gathered]
    · simp [hu]
  · exact h.woken u (woken_of_goto hu nofun).2
  refine .release t (by rw [pc_goto_self]; rfl) (h.round_eq t htL) ?_ ?_ (fun u hu => ?_)
    fun c hc => ?_
  · show arrivals tr = _
    rw [harr, Nat.succ_mul]
    omega
  · rw [card_erase_of_mem htL]
    omega
  · obtain ⟨hut, huL⟩ := mem_erase.mp hu
    rw [hL] at huL
    rw [pc_goto_of_ne hut]
    exact (h.blocked u).mp (mem_of_mem_insert_of_ne huL hut)
  · rw [pc_goto_self] at hc
    cases hc
    rfl

theorem Inv.toWait (hgath : (b.pc t).gathered = true) (hblocked : b.pc t ≠ .blocked)
    (hcard : b.pc t = .getvalue → L.card < n) :
    Inv n (.internal :: tr) (b.goto t .wait (some t)) R L := by
  have hrel : (b.pc t).releasing = false := by
    rw [Bool.eq_false_iff]
    intro hrel
    rw [BarrierPc.not_gathered_of_releasing hrel] at hgath
    cases hgath
  obtain ⟨hnone, harr, hle, hlt⟩ := h.gather hcpu hrel
  refine h.moves (h.toSane.goto hcpu hblocked nofun)
    (fun u hu => pc_goto_of_ne hu) (by rw [pc_goto_self, hgath]; rfl)
    (by rw [pc_goto_self]; exact nofun)
    (.gather (releasing_goto rfl fun u _ => hnone u) harr hle fun _ => ?_)
  by_cases hget : b.pc t = .getvalue
  · exact hcard hget
  · exact hlt (h.not_getvalue hcpu hget)

/-- **A thread blocks.** -/
theorem Inv.block (ht : b.pc t = .wait) :
    Inv n (.internal :: tr) ((b.setSem (b.sem.join t ())).goto t .blocked none) R L := by
  obtain ⟨hnone, harr, hle, hlt⟩ := h.gather hcpu (by rw [ht]; rfl)
  have hfree : t ∉ b.sem.waiting () := by
    rw [h.blocked, ht]
    nofun
  have hnonpos := h.nonpos
  refine h.moves ⟨h.wf.join h.nonpos hfree, ?_, fun u => ?_, fun u => ?_⟩
    (fun u hu => pc_goto_of_ne hu) (by rw [pc_goto_self, ht]; rfl)
    (by rw [pc_goto_self]; exact nofun) (.gather (releasing_goto rfl fun u _ => hnone u) harr hle
      fun _ => hlt (h.not_getvalue hcpu (by rw [ht]; exact nofun)))
  · show (b.sem.join t ()).count () ≤ 0
    rw [Sems.count_join, update_self]
    omega
  · rw [sem_goto, setSem, Sems.mem_waiting_join, h.blocked]
    rcases eq_or_ne u t with rfl | hu
    · simp
    · simp [hu, goto]
  rcases eq_or_ne u t with rfl | hu
  · simp [BarrierPc.running]
  · have := h.not_running hcpu hu
    simp [goto, setSem, hu, this]

/-- **A thread that has been given the count returns.** -/
theorem Inv.leave (ht : b.pc t = .woken false) :
    Inv n (.leave t .zero :: tr) (b.goto t .user none) R L := by
  obtain ⟨hnone, harr, hle, hlt⟩ := h.gather hcpu (by rw [ht]; rfl)
  refine ⟨h.toSane.goto hcpu (by rw [ht]; exact nofun) nofun, fun u => ?_,
    h.round_eq, fun u hu => ?_, fun j r hpos => ?_, fun j => ?_, ?_⟩
  · rw [h.mem]
    rcases eq_or_ne u t with rfl | hu
    · simp [ht, BarrierPc.gathered]
    · simp [hu]
  · exact h.woken u (woken_of_goto hu nofun).2
  · -- Its round was complete when it was given the count.
    rw [returned] at hpos
    split at hpos
    · rename_i hr
      rw [← hr.1]
      exact h.woken t ht
    · exact h.early j r hpos
  · rw [returned, if_neg (by simp), Nat.add_zero]
    exact h.serial j
  · exact .gather (releasing_goto rfl fun u _ => hnone u) harr hle
      fun _ => hlt (h.not_getvalue hcpu (by rw [ht]; exact nofun))

theorem Inv.releasing (ht : (b.pc t).releasing = true) :
    round n tr t = R ∧ arrivals tr = (R + 1) * n ∧ L.card < n ∧ L = b.sem.waiting () ∧
      ∀ c, b.pc t = .release c → c = b.sem.count () := by
  rcases h.phase with ⟨hnone, -⟩ | ⟨r, hr, hround, harr, hlt, hbl, hval⟩
  · rw [hnone t] at ht
    cases ht
  obtain rfl : r = t := by
    by_contra hrt
    have hrun := BarrierPc.running_of_releasing hr
    rw [h.not_running hcpu hrt] at hrun
    cases hrun
  refine ⟨hround, harr, hlt, ?_, hval⟩
  ext u
  refine ⟨fun hu => (h.blocked u).mpr (hbl u hu), fun hu => ?_⟩
  rw [h.mem, (h.blocked u).mp hu]
  rfl

/-- **The thread that frees the others frees one of them.** -/
theorem Inv.free (ht : (b.pc t).releasing = true) (hw : w ∈ b.sem.waiting ()) :
    Inv n (.internal :: tr)
      (((b.setSem (b.sem.leave w ())).wake (some w)).goto t .reread (some t)) R (L.erase w) := by
  obtain ⟨hround, harr, hlt, hL, -⟩ := h.releasing hcpu ht
  have hpc := (h.blocked w).mp hw
  have hwt : t ≠ w := by
    rintro rfl
    rw [hpc] at ht
    cases ht
  have hpc' : ∀ u, (((b.setSem (b.sem.leave w ())).wake (some w)).goto t .reread (some t)).pc u =
      if u = t then .reread else if u = w then .woken false else b.pc u := by
    intro u
    simp only [pc_goto, wake, setSem, update_apply]
  refine ⟨(h.toSane.wakes hw false).goto hcpu ?_ nofun, fun u => ?_,
    fun u hu => h.round_eq u (mem_of_mem_erase hu), fun u hu => ?_, h.early, h.serial,
    .release t (by rw [pc_goto_self]; rfl) hround harr ?_ (fun u hu => ?_) fun c hc => ?_⟩
  · show update b.pc w (.woken false) t ≠ .blocked
    rw [update_of_ne hwt]
    intro hblocked
    rw [hblocked] at ht
    cases ht
  · rw [hpc', mem_erase, h.mem]
    rcases eq_or_ne u t with rfl | hut
    · rw [if_pos rfl, BarrierPc.not_gathered_of_releasing ht]
      simp [BarrierPc.gathered]
    · rcases eq_or_ne u w with rfl | huw
      · simp [hut, BarrierPc.gathered]
      · simp [hut, huw]
  · rw [hpc'] at hu
    split at hu
    · cases hu
    split at hu
    · -- The round of the thread that has been freed is complete.
      rename_i huw
      have huL : u ∈ L := by
        rw [huw, hL]
        exact hw
      exact (congrArg (fun j => (j + 1) * n) (h.round_eq u huL)).trans_le (Nat.le_of_eq harr.symm)
    · exact h.woken u hu
  · exact (card_le_card (erase_subset w L)).trans_lt hlt
  · obtain ⟨huw, huL⟩ := mem_erase.mp hu
    rw [hL, h.blocked] at huL
    have hut : u ≠ t := by
      rintro rfl
      rw [huL] at ht
      cases ht
    rw [hpc', if_neg hut, if_neg huw]
    exact huL
  · rw [pc_goto_self] at hc
    cases hc

end

/-- **A signal interrupts a thread while the others gather.** -/
theorem Inv.interrupt (h : Inv n tr b R L) (hw : w ∈ b.sem.waiting ())
    (hnone : ∀ t, (b.pc t).releasing = false) :
    Inv n (.internal :: tr) (b.interrupt w) R L := by
  have hpc := (h.blocked w).mp hw
  refine h.moves (h.toSane.wakes hw true) (fun u hu => update_of_ne hu ..) ?_ ?_ ?_
  · simp [Barrier.interrupt, hpc, BarrierPc.gathered]
  · simp [Barrier.interrupt]
  rcases h.phase with ⟨-, harr, hle, hlt⟩ | ⟨r, hr, -⟩
  · refine .gather (fun u => ?_) harr hle fun hget => hlt fun u hu => hget u ?_
    · rcases eq_or_ne u w with rfl | hu
      · simp [Barrier.interrupt, BarrierPc.releasing]
      · simpa [Barrier.interrupt, hu] using hnone u
    have huw : u ≠ w := by
      rintro rfl
      rw [hpc] at hu
      cases hu
    simpa [Barrier.interrupt, huw] using hu
  · rw [hnone r] at hr
    cases hr

/-- **The thread that has freed the others returns.** -/
theorem Inv.serialThread (h : Inv n tr b R L) (hn : 0 < n)
    (hcpu : b.cpu = none ∨ b.cpu = some t) (ht : (b.pc t).releasing = true)
    (hcount : 0 ≤ b.sem.count ()) :
    Inv n (.leave t .serialThread :: tr) (b.goto t .user none) (R + 1) ∅ := by
  obtain ⟨hround, harr, -, hL, -⟩ := h.releasing hcpu ht
  have hempty : L = ∅ := hL.trans (h.wf.waiting_eq_empty hcount)
  have hblocked : b.pc t ≠ .blocked := by
    intro hblocked
    rw [hblocked] at ht
    cases ht
  refine ⟨h.toSane.goto hcpu hblocked nofun, fun u => ?_,
    fun u hu => absurd hu (notMem_empty u), fun u hu => ?_, fun j r hpos => ?_,
    fun j => ?_, .gather (releasing_goto rfl fun u hu => ?_) ?_ (Nat.zero_le n) fun _ => hn⟩
  · rcases eq_or_ne u t with rfl | hu
    · simp [BarrierPc.gathered]
    · have hmem := h.mem u
      rw [hempty] at hmem
      rw [pc_goto_of_ne hu]
      exact hmem
  · exact h.woken u (woken_of_goto hu nofun).2
  · rw [returned] at hpos
    split at hpos
    · rename_i hr
      rw [← hr.1, hround]
      exact Nat.le_of_eq harr.symm
    · exact h.early j r hpos
  · -- It is the only one of its round with this result.
    rw [returned, h.serial, hround]
    rcases lt_trichotomy j R with hj | rfl | hj
    · simp [hj, hj.ne', hj.trans (Nat.lt_succ_self R)]
    · simp
    · simp [hj.ne, Nat.not_lt.mpr hj.le, Nat.not_lt.mpr hj]
  · rw [Bool.eq_false_iff]
    intro hrel
    have hrun := BarrierPc.running_of_releasing hrel
    rw [h.not_running hcpu hu] at hrun
    cases hrun
  · exact harr

theorem Inv.reread (h : Inv n tr b R L) (hcpu : b.cpu = none ∨ b.cpu = some t)
    (ht : b.pc t = .reread) :
    Inv n (.internal :: tr) (b.goto t (.release (b.sem.count ())) (some t)) R L := by
  obtain ⟨hround, harr, hlt, hL, -⟩ := h.releasing hcpu (by rw [ht]; rfl)
  refine h.moves (h.toSane.goto hcpu (by rw [ht]; exact nofun) nofun)
    (fun u hu => pc_goto_of_ne hu) (by rw [pc_goto_self, ht]; rfl)
    (by rw [pc_goto_self]; exact nofun)
    (.release t (by rw [pc_goto_self]; rfl) hround harr hlt (fun u hu => ?_) fun c hc => ?_)
  · rw [hL, h.blocked] at hu
    rcases eq_or_ne u t with rfl | hut
    · rw [ht] at hu
      cases hu
    · rw [pc_goto_of_ne hut]
      exact hu
  · rw [pc_goto_self] at hc
    cases hc
    rfl

/-! ### The runs -/

/-- **A step of a thread keeps the invariant when the count is right.** -/
theorem Inv.go (h : Inv count.toNat tr b R L) (hn : 0 < count.toNat) {w : Option τ}
    (hcpu : b.cpu = none ∨ b.cpu = some t)
    (hprompt : b.pc t = .getvalue → ∀ u, b.pc u ≠ .woken true)
    (hstep : b.go count t w = some (b', ev)) :
    ∃ R' L', Inv count.toNat (ev :: tr) b' R' L' := by
  rw [Barrier.go] at hstep
  split at hstep
  case h_1 ht =>
    cases hstep
    exact ⟨R, _, h.enter hcpu ht⟩
  case h_2 ht =>
    have hvalue := (h.value_eq hcpu ht (hprompt ht)).2
    have hle := (h.gather hcpu (by rw [ht]; rfl)).2.2.1
    have hmod : (1 - b.sem.count ()) % 2 ^ 32 = L.card := by
      have hlt := count.toNat_lt
      omega
    split at hstep
    · cases hstep
      exact ⟨R, _, h.last hcpu ht (hprompt ht) (by omega)⟩
    · cases hstep
      exact ⟨R, L, h.toWait hcpu (by rw [ht]; rfl) (by rw [ht]; exact nofun) fun _ => by omega⟩
  case h_3 c ht =>
    have hrel : (b.pc t).releasing = true := by
      rw [ht]
      rfl
    obtain ⟨-, -, -, -, hval⟩ := h.releasing hcpu hrel
    have hc := hval c ht
    split at hstep
    · split at hstep
      · cases hstep
      rename_i S hpost
      cases hstep
      rcases (h.wf.post hpost).2 with ⟨-, hcount, -⟩ | ⟨v, rfl, hv, rfl⟩
      · omega
      · exact ⟨R, _, h.free hcpu hrel hv⟩
    · cases hstep
      exact ⟨R + 1, ∅, h.serialThread hn hcpu hrel (by omega)⟩
  case h_4 ht =>
    cases hstep
    exact ⟨R, L, h.reread hcpu ht⟩
  case h_5 ht =>
    have hwait : b.sem.wait t () = (b.sem.join t (), false) := if_neg h.nonpos.not_gt
    rw [hwait, if_neg Bool.false_ne_true] at hstep
    cases hstep
    exact ⟨R, L, h.block hcpu ht⟩
  case h_6 ht =>
    cases hstep
  case h_7 ht =>
    cases hstep
    exact ⟨R, L, h.toWait hcpu (by rw [ht]; rfl) (by rw [ht]; exact nofun)
      (by rw [ht]; exact nofun)⟩
  case h_8 ht =>
    cases hstep
    exact ⟨R, L, h.leave hcpu ht⟩

/-- **Every prompt step keeps the invariant.** -/
theorem Inv.step (h : Inv count.toNat tr b R L) (hn : 0 < count.toNat) {op : BarrierOp τ}
    (hprompt : op.Prompt b) (hstep : op.step count b = some (b', ev)) :
    ∃ R' L', Inv count.toNat (ev :: tr) b' R' L' := by
  cases op with
  | run t w =>
    obtain ⟨hcpu, hstep⟩ := Option.ite_none_right_eq_some.mp hstep
    exact h.go hn hcpu hprompt hstep
  | signal w =>
    obtain ⟨hw, hstep⟩ := Option.ite_none_right_eq_some.mp hstep
    cases hstep
    exact ⟨R, L, h.interrupt hw hprompt⟩

end Barrier

section

variable {τ : Type*} [DecidableEq τ] {count : UInt32} {tr : List (BarrierEvent τ)} {b : Barrier τ}

theorem BarrierRun.inv (hn : 0 < count.toNat) (h : BarrierRun count BarrierOp.Prompt tr b) :
    ∃ R L, b.Inv count.toNat tr R L := by
  induction h with
  | init => exact ⟨0, ∅, Barrier.inv_init hn⟩
  | step op _ hprompt hstep ih =>
    obtain ⟨R, L, hinv⟩ := ih
    exact hinv.step hn hprompt hstep

/-- **A barrier does what it is for** in every run in which nobody reads the count while a thread
has been interrupted and does not wait again, and nobody is interrupted while the last thread frees
the others. -/
theorem barrierRun_law (hn : 1 ≤ count.toNat) (h : BarrierRun count BarrierOp.Prompt tr b) :
    b.Law count.toNat tr := by
  obtain ⟨R, L, hinv⟩ := h.inv hn
  exact hinv.law hn

end

theorem barrierRun_law_two : ∃ (tr : List (BarrierEvent (Fin 2))) (b : Barrier (Fin 2)),
    BarrierRun 2 BarrierOp.Prompt tr b ∧
      tr = [.leave 0 .zero, .leave 1 .serialThread, .internal, .internal, .internal, .enter 1,
        .internal, .internal, .enter 0] ∧
      b.Law 2 tr := by
  have h := BarrierRun.replay (τ := Fin 2) 2 BarrierOp.Prompt
    [.run 0 none, .run 0 none, .run 0 none, .run 1 none, .run 1 none, .run 1 (some 0), .run 1 none,
      .run 1 none, .run 0 none] (by decide +kernel)
  exact ⟨_, _, h, rfl, barrierRun_law (by decide) h⟩

theorem barrierRun_stuck : ∃ (tr : List (BarrierEvent (Fin 2))) (b : Barrier (Fin 2)),
    BarrierRun 2 (fun _ _ => True) tr b ∧ (b.sem.waiting ()).card = 2 ∧ ¬ b.Law 2 tr := by
  have h := BarrierRun.replay (τ := Fin 2) 2 (fun _ _ => True)
    [.run 0 none, .run 0 none, .run 0 none, .signal 0, .run 1 none, .run 1 none, .run 1 none,
      .run 0 none, .run 0 none] (by decide +kernel)
  refine ⟨_, _, h, by decide +kernel, fun hlaw => ?_⟩
  have hlt := hlaw.progress
  revert hlt
  decide +kernel

end NuttX
