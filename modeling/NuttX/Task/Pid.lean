import NuttX.Os

/-!
# Process numbers

`g_pidhash` has a slot for each remainder modulo `CONFIG_MAX_TASKS`, a power of two. A new task gets
the first number after `g_lastpid` whose slot is free (`task_assignpid`), `sched_releasepid` gives
the slot back, and `sched_gettcb` finds the TCB of a number. After the greatest `int` the numbers
start again with 1, and so one round of the search may leave out slot 0; but that is the slot of the
idle task. `NuttX.exists_candidate` is the reason why a round of `CONFIG_MAX_TASKS` numbers meets
every other slot, and `NuttX.pidRun_law` says what the table is for.
-/

namespace NuttX

open Function

/-- `pidhash_t`; TCBs are named by their addresses. -/
structure PidHash where
  tcb : Option ℕ
  pid : ℤ

/-- `g_lastpid`, `g_pidhash`, and the numbers in the TCBs. -/
structure PidTable where
  lastpid : ℤ
  pidhash : ℕ → PidHash
  pid : ℕ → ℤ

/-- The address of `g_idletcb`. -/
def idleTcb : ℕ := 0

def invalidProcessId : ℤ := 0

/-- `PIDHASH`, where `CONFIG_MAX_TASKS` is `2 ^ n`. -/
def pidSlot (n : ℕ) (pid : ℤ) : ℕ := (pid % 2 ^ 32).toNat &&& (2 ^ n - 1)

/-- The next candidate: `++g_lastpid`, or 1 if that has left the range. -/
def nextPid (lastpid : ℤ) : ℤ :=
  if Int.bmod (lastpid + 1) (2 ^ 32) ≤ 0 then 1 else Int.bmod (lastpid + 1) (2 ^ 32)

/-- The table that `os_start` sets up. -/
def PidTable.boot (n : ℕ) : PidTable where
  lastpid := 0
  pidhash := update (fun _ => ⟨none, invalidProcessId⟩) (pidSlot n 0) ⟨some idleTcb, 0⟩
  pid _ := 0

/-- The slot of the number goes to a TCB. -/
def PidTable.assigned (n tcb : ℕ) (pid : ℤ) (s : PidTable) : PidTable where
  lastpid := pid
  pidhash := update s.pidhash (pidSlot n pid) ⟨some tcb, pid⟩
  pid := update s.pid tcb pid

/-- The loop of `task_assignpid` with so many tries left. -/
def assignLoop (n tcb : ℕ) : ℕ → PidTable → Status × PidTable
  | 0, s => (.error, s)
  | tries + 1, s =>
    let pid := nextPid s.lastpid
    if (s.pidhash (pidSlot n pid)).tcb = none then (.ok, s.assigned n tcb pid)
    else assignLoop n tcb tries { s with lastpid := pid }

def taskAssignpid (n tcb : ℕ) (s : PidTable) : Status × PidTable := assignLoop n tcb (2 ^ n) s

def schedReleasepid (n : ℕ) (pid : ℤ) (s : PidTable) : PidTable :=
  { s with pidhash := update s.pidhash (pidSlot n pid) ⟨none, invalidProcessId⟩ }

def schedGettcb (n : ℕ) (s : PidTable) (pid : ℤ) : Option ℕ :=
  if 0 ≤ pid ∧ pid = (s.pidhash (pidSlot n pid)).pid then (s.pidhash (pidSlot n pid)).tcb else none

/-- The runs, with the tasks that are alive. A TCB gives its number back once, and only if it has
one: that is the test in `sched_releasetcb`. -/
inductive PidRun (n : ℕ) : Set ℕ → PidTable → Prop
  | boot : PidRun n {idleTcb} (.boot n)
  | assign {live : Set ℕ} {s s' : PidTable} {tcb : ℕ} : PidRun n live s → tcb ∉ live →
      taskAssignpid n tcb s = (.ok, s') → PidRun n (insert tcb live) s'
  | full {live : Set ℕ} {s s' : PidTable} {tcb : ℕ} : PidRun n live s → tcb ∉ live →
      taskAssignpid n tcb s = (.error, s') → PidRun n live s'
  | release {live : Set ℕ} {s : PidTable} {tcb : ℕ} : PidRun n live s → tcb ∈ live →
      s.pid tcb ≠ 0 → PidRun n (live \ {tcb}) (schedReleasepid n (s.pid tcb) s)

variable {n tcb : ℕ} {s s' : PidTable} {live : Set ℕ}

/-! ### One round of the search -/

section

variable {p : ℕ} (hp : p < 2 ^ 31)

include hp

theorem pidSlot_natCast : pidSlot n p = p % 2 ^ n := by
  have hnat : ((p : ℤ) % 2 ^ 32).toNat = p := by omega
  rw [pidSlot, hnat, Nat.and_two_pow_sub_one_eq_mod]

theorem nextPid_natCast : nextPid p = ((if p + 1 < 2 ^ 31 then p + 1 else 1 : ℕ) : ℤ) := by
  simp only [nextPid, Int.bmod_def]
  split_ifs <;> omega

/-- The candidates go up, and start again with 1. -/
theorem iterate_nextPid (k : ℕ) (hk : k < 2 ^ 31) :
    nextPid^[k] p = ((if p + k < 2 ^ 31 then p + k else p + k - (2 ^ 31 - 1) : ℕ) : ℤ) := by
  induction k with
  | zero => rw [iterate_zero, id, Nat.add_zero, if_pos hp]
  | succ k ih =>
    rw [iterate_succ_apply', ih (by omega), nextPid_natCast (by split_ifs <;> omega)]
    congr 1
    split_ifs <;> omega

theorem iterate_nextPid_range {k : ℕ} (hk : k + 1 < 2 ^ 31) :
    ∃ q : ℕ, nextPid^[k + 1] p = q ∧ 0 < q ∧ q < 2 ^ 31 := by
  refine ⟨_, iterate_nextPid hp _ hk, ?_, ?_⟩ <;> split_ifs <;> omega

end

/-- **A round of the search meets every slot but the one of the idle task.** -/
theorem exists_candidate (hn : n ≤ 30) {p : ℕ} (hp : p < 2 ^ 31) {i : ℕ} (hi0 : i ≠ 0)
    (hi : i < 2 ^ n) : ∃ k < 2 ^ n, pidSlot n (nextPid^[k + 1] p) = i := by
  obtain ⟨m, hm⟩ : 2 ^ n ∣ 2 ^ 31 := Nat.pow_dvd_pow 2 (by omega)
  have hle : 2 ^ n ≤ 2 ^ 30 := Nat.pow_le_pow_right (by omega) hn
  have hdiv := Nat.div_add_mod p (2 ^ n)
  -- The number `p + j` is the first one after `p` with this slot.
  obtain ⟨j, hj0, hj, hslot⟩ : ∃ j, 0 < j ∧ j ≤ 2 ^ n ∧ (p + j) % 2 ^ n = i := by
    rcases Nat.lt_or_ge (p % 2 ^ n) i with hbelow | habove
    · refine ⟨i - p % 2 ^ n, by omega, by omega, ?_⟩
      have hsum : p + (i - p % 2 ^ n) = i + 2 ^ n * (p / 2 ^ n) := by omega
      rw [hsum, Nat.add_mul_mod_self_left, Nat.mod_eq_of_lt hi]
    · refine ⟨2 ^ n + i - p % 2 ^ n, by omega, by omega, ?_⟩
      have hsum : p + (2 ^ n + i - p % 2 ^ n) = i + 2 ^ n * (p / 2 ^ n) + 2 ^ n := by omega
      rw [hsum, Nat.add_mod_right, Nat.add_mul_mod_self_left, Nat.mod_eq_of_lt hi]
  by_cases hwrap : p + j < 2 ^ 31
  · refine ⟨j - 1, by omega, ?_⟩
    rw [Nat.sub_add_cancel hj0, iterate_nextPid hp _ (by omega), if_pos hwrap,
      pidSlot_natCast hwrap, hslot]
  · -- The search starts again before it gets there: it meets the slot one step earlier.
    have hlast : p + j ≠ 2 ^ 31 := by
      intro heq
      rw [heq, hm, Nat.mul_mod_right] at hslot
      exact hi0 hslot.symm
    have hstep : j - 2 + 1 = j - 1 := by omega
    have hvalue : p + (j - 1) - (2 ^ 31 - 1) = p + j - 2 ^ n * m := by omega
    refine ⟨j - 2, by omega, ?_⟩
    rw [hstep, iterate_nextPid hp _ (by omega), if_neg (by omega), pidSlot_natCast (by omega),
      hvalue, Nat.sub_mul_mod (by omega), hslot]

/-- The search takes the first candidate whose slot is free, or meets only slots that are taken. -/
theorem assignLoop_cases (n tcb tries : ℕ) (s : PidTable) :
    (∃ k < tries, (s.pidhash (pidSlot n (nextPid^[k + 1] s.lastpid))).tcb = none ∧
      assignLoop n tcb tries s = (.ok, s.assigned n tcb (nextPid^[k + 1] s.lastpid))) ∨
    ((∀ k < tries, (s.pidhash (pidSlot n (nextPid^[k + 1] s.lastpid))).tcb ≠ none) ∧
      assignLoop n tcb tries s = (.error, { s with lastpid := nextPid^[tries] s.lastpid })) := by
  induction tries generalizing s with
  | zero => exact Or.inr ⟨fun k hk => absurd hk (Nat.not_lt_zero k), rfl⟩
  | succ tries ih =>
    rw [assignLoop]
    by_cases hfree : (s.pidhash (pidSlot n (nextPid s.lastpid))).tcb = none
    · exact Or.inl ⟨0, Nat.succ_pos _, hfree, if_pos hfree⟩
    rw [if_neg hfree]
    rcases ih { s with lastpid := nextPid s.lastpid } with ⟨k, hk, hnone, heq⟩ | ⟨hall, heq⟩
    · exact Or.inl ⟨k + 1, by omega, hnone, heq⟩
    · refine Or.inr ⟨?_, heq⟩
      rintro (_ | k) hk
      · exact hfree
      · exact hall k (by omega)

/-! ### Runs -/

/-- The slots hold the tasks that are alive, each under the remainder of its number. -/
structure PidInv (n : ℕ) (live : Set ℕ) (s : PidTable) : Prop where
  last : ∃ p : ℕ, s.lastpid = p ∧ p < 2 ^ 31
  idle : idleTcb ∈ live ∧ s.pid idleTcb = 0
  pos : ∀ t ∈ live, t ≠ idleTcb → 0 < s.pid t
  slot : ∀ i t, (s.pidhash i).tcb = some t ↔ t ∈ live ∧ pidSlot n (s.pid t) = i
  number : ∀ i t, (s.pidhash i).tcb = some t → (s.pidhash i).pid = s.pid t

namespace PidInv

theorem boot (n : ℕ) : PidInv n {idleTcb} (.boot n) := by
  refine ⟨⟨0, rfl, by omega⟩, ⟨rfl, rfl⟩, fun t ht hne => absurd ht hne, ?_, ?_⟩
  · intro i t
    rcases eq_or_ne i (pidSlot n 0) with rfl | hne
    · simp [PidTable.boot, eq_comm]
    · simp [PidTable.boot, hne, hne.symm]
  · intro i t ht
    rcases eq_or_ne i (pidSlot n 0) with rfl | hne
    · simp [PidTable.boot]
    · simp [PidTable.boot, hne] at ht

section

variable (h : PidInv n live s)

include h

theorem injOn_slot : Set.InjOn (fun t => pidSlot n (s.pid t)) live := by
  intro t ht u hu heq
  have ht' := (h.slot _ t).mpr ⟨ht, rfl⟩
  have hu' := (h.slot _ u).mpr ⟨hu, heq.symm⟩
  exact Option.some.inj (ht'.symm.trans hu')

/-- A number is assigned unless every slot is taken. -/
theorem assignpid_cases (hn : n ≤ 30) (tcb : ℕ) :
    (∃ q : ℕ, 0 < q ∧ q < 2 ^ 31 ∧ pidSlot n q < 2 ^ n ∧ (s.pidhash (pidSlot n q)).tcb = none ∧
      taskAssignpid n tcb s = (.ok, s.assigned n tcb q)) ∨
    (∀ i < 2 ^ n, (s.pidhash i).tcb ≠ none) ∧
      ∃ q : ℕ, q < 2 ^ 31 ∧ taskAssignpid n tcb s = (.error, { s with lastpid := q }) := by
  obtain ⟨p, hlast, hp⟩ := h.last
  have hle : 2 ^ n ≤ 2 ^ 30 := Nat.pow_le_pow_right (by omega) hn
  have hpos := Nat.two_pow_pos n
  have hcases := assignLoop_cases n tcb (2 ^ n) s
  rw [hlast] at hcases
  rcases hcases with ⟨k, hk, hfree, heq⟩ | ⟨hall, heq⟩
  · obtain ⟨q, hq, hq0, hqlt⟩ := iterate_nextPid_range hp (by omega : k + 1 < 2 ^ 31)
    rw [hq] at hfree heq
    refine Or.inl ⟨q, hq0, hqlt, ?_, hfree, heq⟩
    rw [pidSlot_natCast hqlt]
    exact Nat.mod_lt _ hpos
  · obtain ⟨q, hq, -, hqlt⟩ := iterate_nextPid_range hp (by omega : 2 ^ n - 1 + 1 < 2 ^ 31)
    rw [Nat.sub_add_cancel hpos] at hq
    refine Or.inr ⟨fun i hi => ?_, q, hqlt, by rw [taskAssignpid, heq, hq]⟩
    rcases eq_or_ne i 0 with rfl | hi0
    · rw [(h.slot 0 idleTcb).mpr ⟨h.idle.1, by rw [h.idle.2]; exact Nat.zero_and _⟩]
      exact Option.some_ne_none _
    · obtain ⟨k, hk, hslot⟩ := exists_candidate hn hp hi0 hi
      exact hslot ▸ hall k hk

theorem assigned (htcb : tcb ∉ live) {q : ℕ} (hq0 : 0 < q) (hq : q < 2 ^ 31)
    (hfree : (s.pidhash (pidSlot n q)).tcb = none) :
    PidInv n (insert tcb live) (s.assigned n tcb q) := by
  have hne : ∀ t ∈ live, t ≠ tcb := fun t ht heq => htcb (heq ▸ ht)
  refine ⟨⟨q, rfl, hq⟩, ⟨Or.inr h.idle.1, ?_⟩, ?_, ?_, ?_⟩
  · exact (update_of_ne (hne _ h.idle.1) _ _).trans h.idle.2
  · rintro t (rfl | ht) hidle
    · simpa [PidTable.assigned] using hq0
    · simpa [PidTable.assigned, hne t ht] using h.pos t ht hidle
  · intro i t
    have hslot := h.slot i t
    rcases eq_or_ne i (pidSlot n q) with rfl | hi
    · rw [hfree] at hslot
      rcases eq_or_ne t tcb with rfl | htne
      · simp [PidTable.assigned]
      · simpa [PidTable.assigned, htne, htne.symm] using hslot
    · rcases eq_or_ne t tcb with rfl | htne
      · simp [PidTable.assigned, hi, hi.symm, hslot, htcb]
      · simpa [PidTable.assigned, htne, hi] using hslot
  · intro i t ht
    rcases eq_or_ne i (pidSlot n q) with rfl | hi
    · obtain rfl : tcb = t := by simpa [PidTable.assigned] using ht
      simp [PidTable.assigned]
    · simp only [PidTable.assigned, update_of_ne hi] at ht ⊢
      rw [h.number i t ht, update_of_ne (hne t ((h.slot i t).mp ht).1)]

theorem release (htcb : tcb ∈ live) (hpid : s.pid tcb ≠ 0) :
    PidInv n (live \ {tcb}) (schedReleasepid n (s.pid tcb) s) := by
  have hidle : idleTcb ≠ tcb := by
    rintro rfl
    exact hpid h.idle.2
  refine ⟨h.last, ⟨⟨h.idle.1, hidle⟩, h.idle.2⟩, fun t ht => h.pos t ht.1, ?_, ?_⟩
  · intro i t
    rcases eq_or_ne i (pidSlot n (s.pid tcb)) with rfl | hi
    · have hgone : t ∈ live → pidSlot n (s.pid t) = pidSlot n (s.pid tcb) → t = tcb :=
        fun ht heq => h.injOn_slot ht htcb heq
      simp only [schedReleasepid, update_self, reduceCtorEq, Set.mem_sdiff, Set.mem_singleton_iff]
      tauto
    · have hne : pidSlot n (s.pid t) = i → t ≠ tcb := by
        rintro rfl rfl
        exact hi rfl
      have hslot := h.slot i t
      simp only [schedReleasepid, update_of_ne hi, Set.mem_sdiff, Set.mem_singleton_iff]
      tauto
  · intro i t ht
    rcases eq_or_ne i (pidSlot n (s.pid tcb)) with rfl | hi
    · simp [schedReleasepid] at ht
    · simp only [schedReleasepid, update_of_ne hi] at ht ⊢
      exact h.number i t ht

theorem schedGettcb_iff (p : ℤ) (t : ℕ) : schedGettcb n s p = some t ↔ t ∈ live ∧ s.pid t = p := by
  constructor
  · intro hget
    rw [schedGettcb] at hget
    split_ifs at hget with hcond
    exact ⟨((h.slot _ t).mp hget).1, (hcond.2.trans (h.number _ t hget)).symm⟩
  · rintro ⟨ht, rfl⟩
    have hslot := (h.slot _ t).mpr ⟨ht, rfl⟩
    have hnonneg : 0 ≤ s.pid t := by
      rcases eq_or_ne t idleTcb with rfl | hne
      · exact h.idle.2.ge
      · exact (h.pos t ht hne).le
    rw [schedGettcb, if_pos ⟨hnonneg, (h.number _ t hslot).symm⟩, hslot]

end

end PidInv

theorem PidRun.inv (hn : n ≤ 30) (h : PidRun n live s) : PidInv n live s := by
  induction h with
  | boot => exact .boot n
  | @assign live s s' tcb _ htcb hrun ih =>
    rcases ih.assignpid_cases hn tcb with ⟨q, hq0, hq, -, hfree, heq⟩ | ⟨-, q, -, heq⟩
    · rw [heq] at hrun
      exact (Prod.mk.inj hrun).2 ▸ ih.assigned htcb hq0 hq hfree
    · rw [heq] at hrun
      cases (Prod.mk.inj hrun).1
  | @full live s s' tcb _ _ hrun ih =>
    rcases ih.assignpid_cases hn tcb with ⟨q, -, -, -, -, heq⟩ | ⟨-, q, hq, heq⟩
    · rw [heq] at hrun
      cases (Prod.mk.inj hrun).1
    · rw [heq] at hrun
      exact (Prod.mk.inj hrun).2 ▸ ⟨⟨q, rfl, hq⟩, ih.idle, ih.pos, ih.slot, ih.number⟩
  | release _ htcb hpid ih => exact ih.release htcb hpid

/-- **The table of process numbers**: for every `CONFIG_MAX_TASKS` that is a power of two and an
`int`, and in every run, the tasks that are alive have different numbers and different slots, only
the idle task has a number that is not positive, `sched_gettcb` finds exactly the tasks that are
alive, and `task_assignpid` fails exactly when every slot is taken. -/
theorem pidRun_law (hn : n ≤ 30) (h : PidRun n live s) :
    (∀ t ∈ live, t ≠ idleTcb → 0 < s.pid t) ∧ Set.InjOn s.pid live ∧
      Set.InjOn (fun t => pidSlot n (s.pid t)) live ∧
      (∀ p t, schedGettcb n s p = some t ↔ t ∈ live ∧ s.pid t = p) ∧
      ∀ tcb, (taskAssignpid n tcb s).1 = .error ↔ ∀ i < 2 ^ n, (s.pidhash i).tcb ≠ none := by
  have hinv := h.inv hn
  refine ⟨hinv.pos, ?_, hinv.injOn_slot, hinv.schedGettcb_iff, fun tcb => ?_⟩
  · intro t ht u hu heq
    exact hinv.injOn_slot ht hu (congrArg (pidSlot n) heq)
  · rcases hinv.assignpid_cases hn tcb with ⟨q, -, -, hslot, hfree, heq⟩ | ⟨hall, q, -, heq⟩
    · rw [heq]
      exact ⟨fun herr => (Status.noConfusion herr), fun hfull => absurd hfree (hfull _ hslot)⟩
    · rw [heq]
      exact ⟨fun _ => hall, fun _ => rfl⟩

theorem pidRun_law_first :
    ∃ s, PidRun 1 {7, idleTcb} s ∧ schedGettcb 1 s 1 = some 7 ∧
      (taskAssignpid 1 8 s).1 = .error := by
  have h : PidRun 1 {7, idleTcb} _ := .assign .boot (by decide : (7 : ℕ) ≠ idleTcb) rfl
  obtain ⟨-, -, -, hget, hfull⟩ := pidRun_law (by decide) h
  refine ⟨_, h, (hget 1 7).mpr ⟨Or.inl rfl, rfl⟩, (hfull 8).mpr ?_⟩
  decide

end NuttX
