import NuttX.Pthread.Sync

/-!
# Condition variables have no memory

A condition variable is a semaphore that nobody should find with a positive count: a signal that
nobody waits for is lost. `pthread_cond_signal` and `pthread_cond_broadcast` read the count and then
post once, or once for each waiting thread. Between the two other threads can post, and timeouts and
signals can take threads from the semaphore.

`NuttX.SyncPc.owes` is how often a thread is still going to post. `NuttX.syncRun_condLaw` is what a
condition variable is for, in the runs in which nobody takes a thread from it while another thread
is about to post; `NuttX.syncRun_remembers` is what happens otherwise.
-/

namespace NuttX

open Function SyncPc Option

namespace SyncPc

variable {μ κ : Type*} [DecidableEq κ]

/-- How often the thread is going to post the condition variable `c`. -/
def owes (c : κ) : SyncPc μ κ → ℤ
  | signal c' sval => if c' = c ∧ sval < 0 then 1 else 0
  | broadcast c' sval => if c' = c ∧ sval < 0 then -sval else 0
  | _ => 0

/-- The thread has got the semaphore of the condition variable `c`, and will return 0. -/
def got (c : κ) : SyncPc μ κ → Bool
  | condWoken c' _ _ false => c' = c
  | retake c' _ _ .ok | retakeWait c' _ _ .ok | retakeWoken c' _ _ .ok _ | setPid c' _ .ok => c' = c
  | _ => false

variable {pc : SyncPc μ κ} {c : κ}

theorem owes_of_waitsem {s : μ ⊕ κ} (h : pc.waitsem = some s) {i : Bool} :
    pc.owes c = 0 ∧ (pc.wake i).owes c = 0 := by
  cases pc <;> first | exact ⟨rfl, rfl⟩ | cases h

theorem got_wake_of_ne (h : pc.waitsem ≠ some (.inr c)) {i : Bool} :
    (pc.wake i).got c = pc.got c := by
  cases pc with
  | condWait c' m timed =>
    have hc : c' ≠ c := fun hc => h (congrArg _ (congrArg _ hc))
    cases i <;> simp [wake, got, hc]
  | retakeWait c' m timed ret => cases ret <;> rfl
  | _ => rfl

theorem got_wake_true (h : pc.waitsem = some (.inr c)) : (pc.wake true).got c = false := by
  cases pc <;> first | rfl | cases h

end SyncPc

/-! ### What a condition variable is for -/

section

variable {μ κ τ : Type*} [DecidableEq μ] [DecidableEq κ] [DecidableEq τ]

/-- There has been a post by a signal or a broadcast since the thread began to wait. -/
def PostedSince (c : κ) (t : τ) : List (SyncEvent μ κ τ) → Prop
  | [] => False
  | .posted c' :: tr => c' = c ∨ PostedSince c t tr
  | .waits t' _ _ :: tr => t' ≠ t ∧ PostedSince c t tr
  | _ :: tr => PostedSince c t tr

/-- What the condition variable `c` is for. -/
structure CondLaw (c : κ) (tr : List (SyncEvent μ κ τ)) (b : Sync μ κ τ) : Prop where
  count : b.sem.count (.inr c) ≤ 0
  resumed : ∀ t m tr₁ tr₀, tr = tr₁ ++ .resumed t c m .ok :: tr₀ → PostedSince c t tr₀

/-- Nobody takes a thread from a condition variable while another thread is about to post it: no
other thread posts it, and no timeout and no signal interrupts a wait on it. -/
def Undisturbed (_ : List (SyncEvent μ κ τ)) (b : Sync μ κ τ) (op : SyncOp μ κ τ)
    (_ : SyncEvent μ κ τ) (_ : Sync μ κ τ) : Prop :=
  match op with
  | .call _ _ _ => True
  | .run t _ => ∀ c, 0 < (b.pc t).owes c → ∀ u, u ≠ t → (b.pc u).owes c = 0
  | .interrupt w => ∀ c, (b.pc w).waitsem = some (.inr c) → ∀ u, (b.pc u).owes c = 0

end

/-! ### The invariant -/

namespace Sync

variable {μ κ τ : Type*} [DecidableEq μ] [DecidableEq κ] [DecidableEq τ] {b b' : Sync μ κ τ}
  {s : μ ⊕ κ} {t u : τ} {m : μ} {c c' : κ} {w : Option τ} {ev : SyncEvent μ κ τ} {h h' : τ → Prop}
  {pc : SyncPc μ κ} {cpu : Option τ}

/-- There are enough waiting threads for the posts that are going to be made, and the threads that
have got the semaphore have heard a post. -/
structure Quiet (c : κ) (h : τ → Prop) (b : Sync μ κ τ) : Prop where
  count : b.sem.count (.inr c) ≤ 0
  owes : ∀ t, (b.pc t).owes c ≤ -b.sem.count (.inr c)
  got : ∀ t, (b.pc t).got c = true → h t

omit [DecidableEq μ] in
theorem Quiet.goto (hb : b.Quiet c h) (howes : pc.owes c ≤ -b.sem.count (.inr c))
    (hgot : pc.got c = true → h' t) (hh : ∀ u, u ≠ t → h u → h' u) :
    (b.goto t pc cpu).Quiet c h' := by
  refine ⟨hb.count, fun u => ?_, fun u hu => ?_⟩
  · rw [pc_goto, update_apply]
    split
    · exact howes
    · exact hb.owes u
  rw [pc_goto, update_apply] at hu
  split at hu
  · rename_i hut
    exact hut ▸ hgot hu
  · rename_i hut
    exact hh u hut (hb.got u hu)

omit [DecidableEq τ] in
theorem Quiet.setMutex (hb : b.Quiet c h) {M : Mutex τ} : (b.setMutex m M).Quiet c h :=
  ⟨hb.count, hb.owes, hb.got⟩

omit [DecidableEq τ] in
theorem Quiet.take (hb : b.Quiet c h) (hs : 0 < b.sem.count s) :
    s ≠ .inr c ∧ (b.setSem (b.sem.take s)).Quiet c h := by
  have hne : s ≠ .inr c := by
    rintro rfl
    exact absurd hb.count (by omega)
  have hcount : (b.setSem (b.sem.take s)).sem.count (.inr c) = b.sem.count (.inr c) :=
    update_of_ne hne.symm ..
  exact ⟨hne, hcount ▸ hb.count, fun t => hcount ▸ hb.owes t, hb.got⟩

theorem Quiet.join (hb : b.Quiet c h) : (b.setSem (b.sem.join t s)).Quiet c h := by
  have hle : (b.setSem (b.sem.join t s)).sem.count (.inr c) ≤ b.sem.count (.inr c) := by
    rw [sem_setSem, Sems.count_join, update_apply]
    split
    · rename_i hs
      rw [hs]
      omega
    · exact Int.le_refl _
  exact ⟨hle.trans hb.count, fun t => (hb.owes t).trans (Int.neg_le_neg hle), hb.got⟩

theorem Quiet.leave_of_ne (hb : b.Quiet c h) (hu : (b.pc u).waitsem = some s) (hs : s ≠ .inr c)
    {i : Bool} : ((b.setSem (b.sem.leave u s)).wake u i).Quiet c h := by
  have hcount : ((b.setSem (b.sem.leave u s)).wake u i).sem.count (.inr c) =
      b.sem.count (.inr c) := update_of_ne hs.symm ..
  refine ⟨hcount ▸ hb.count, fun v => ?_, fun v hv => ?_⟩
  · rw [hcount, pc_wake, pc_setSem, update_apply]
    split
    · rw [(owes_of_waitsem hu).2]
      exact Int.neg_nonneg.mpr hb.count
    · exact hb.owes v
  · rw [pc_wake, pc_setSem, update_apply] at hv
    split at hv
    · rename_i hvu
      rw [got_wake_of_ne (by rw [hu]; exact fun heq => hs (some.inj heq))] at hv
      exact hvu ▸ hb.got u hv
    · exact hb.got v hv

/-- A wait on the condition variable is interrupted while nobody is going to post it. -/
theorem Quiet.interrupt (hb : b.Quiet c h) (hsane : b.Sane) (hu : (b.pc u).waitsem = some (.inr c))
    (howes : ∀ v, (b.pc v).owes c = 0) :
    ((b.setSem (b.sem.leave u (.inr c))).wake u true).Quiet c h := by
  have hneg := hsane.wf.count_neg ((hsane.waiting _ u).mpr hu)
  have hcount : ((b.setSem (b.sem.leave u (.inr c))).wake u true).sem.count (.inr c) =
      b.sem.count (.inr c) + 1 := update_self ..
  refine ⟨by omega, fun v => ?_, fun v hv => ?_⟩
  · rw [hcount, pc_wake, pc_setSem, update_apply]
    split
    · rw [(owes_of_waitsem hu).2]
      omega
    · rw [howes v]
      omega
  · rw [pc_wake, pc_setSem, update_apply] at hv
    split at hv
    · rw [got_wake_true hu] at hv
      cases hv
    · exact hb.got v hv

theorem Quiet.post_of_ne (hb : b.Quiet c h) (hsane : b.Sane) (hs : s ≠ .inr c)
    (hpost : b.post s w = some b') : b'.Quiet c h := by
  rcases (hsane.post hpost).2 with ⟨-, -, rfl⟩ | ⟨u, -, -, hu, rfl⟩
  · have hcount : (b.setSem (b.sem.give s)).sem.count (.inr c) = b.sem.count (.inr c) :=
      update_of_ne hs.symm ..
    exact ⟨hcount ▸ hb.count, fun t => hcount ▸ hb.owes t, hb.got⟩
  · exact hb.leave_of_ne hu hs

/-- **The only thread that is going to post the condition variable posts it:** one of the waiting
threads gets the semaphore, and there are enough of them for the posts that are left. -/
theorem Quiet.posted (hb : b.Quiet c h) (hsane : b.Sane) (hpost : b.post (.inr c) w = some b')
    (hself : 0 < (b.pc t).owes c) (hother : ∀ u, u ≠ t → (b.pc u).owes c = 0)
    (howes : pc.owes c ≤ (b.pc t).owes c - 1) (hh : ∀ u, h' u) :
    (b'.goto t pc cpu).Quiet c h' := by
  have hle := hb.owes t
  rcases (hsane.post hpost).2 with ⟨-, hzero, -⟩ | ⟨u, -, hneg, hu, rfl⟩
  · omega
  have hcount : (((b.setSem (b.sem.leave u (.inr c))).wake u false).goto t pc cpu).sem.count
      (.inr c) = b.sem.count (.inr c) + 1 := update_self ..
  refine ⟨by omega, fun v => ?_, fun v _ => hh v⟩
  rw [hcount, pc_goto, update_apply]
  split
  · omega
  rename_i hvt
  rw [pc_wake, pc_setSem, update_apply]
  split
  · rw [(owes_of_waitsem hu).2]
    omega
  · rw [hother v hvt]
    omega

/-! ### The steps -/

omit [DecidableEq μ] in
theorem Quiet.move (hb : b.Quiet c h) (howes : pc.owes c = 0) (hgot : pc.got c = true → h t) :
    (b.goto t pc cpu).Quiet c h :=
  hb.goto (howes.trans_le (Int.neg_nonneg.mpr hb.count)) hgot fun _ _ => id

omit [DecidableEq μ] in
theorem Quiet.rest (hb : b.Quiet c h) (howes : pc.owes c = 0) (hgot : pc.got c = false) :
    (b.goto t pc cpu).Quiet c h :=
  hb.move howes fun hself => (Bool.eq_false_iff.mp hgot hself).elim

variable {tr : List (SyncEvent μ κ τ)}

theorem Quiet.lockSem (hb : b.Quiet c fun u => PostedSince c u tr)
    (hlock : b.lockSem t m = (b', ev)) :
    (b'.Quiet c fun u => PostedSince c u (ev :: tr)) ∧ ∀ u m, ev ≠ .resumed u c m .ok := by
  rw [Sync.lockSem] at hlock
  rcases b.sem.wait_cases t (.inl m) with ⟨hs, hS⟩ | ⟨hs, hS⟩ <;> rw [hS] at hlock <;> cases hlock
  · exact ⟨(hb.take hs).2.setMutex.rest rfl rfl, by simp⟩
  · exact ⟨hb.join.rest rfl rfl, by simp⟩

theorem Quiet.condSem (hb : b.Quiet c h) {timed : Bool} (hh : ∀ u, u ≠ t → h u → h' u) :
    (b.condSem t c' m timed).Quiet c h' := by
  rw [Sync.condSem]
  rcases b.sem.wait_cases t (.inr c') with ⟨hs, hS⟩ | ⟨hs, hS⟩ <;> rw [hS]
  · obtain ⟨hne, hb'⟩ := hb.take hs
    have hc : c' ≠ c := fun hc => hne (congrArg _ hc)
    exact hb'.goto (Int.neg_nonneg.mpr hb'.count) (by simp [SyncPc.got, hc]) hh
  · exact hb.join.goto (Int.neg_nonneg.mpr hb.join.count) (by simp [SyncPc.got]) hh

theorem Quiet.retakeSem (hb : b.Quiet c h) {timed : Bool} {ret : Errno}
    (hgot : ret = .ok → c' = c → h t) : (b.retakeSem t c' m timed ret).Quiet c h := by
  have hret : (setPid c' m ret).got c = true → h t := by
    intro hret
    cases ret <;> first | exact hgot rfl (of_decide_eq_true hret) | cases hret
  rw [Sync.retakeSem]
  rcases b.sem.wait_cases t (.inl m) with ⟨hs, hS⟩ | ⟨hs, hS⟩ <;> rw [hS]
  · exact (hb.take hs).2.move rfl hret
  · exact hb.join.move rfl fun hwait => hret (by cases ret <;> exact hwait)

section

variable (hb : b.Quiet c fun u => PostedSince c u tr)

include hb

/-- The first step of a call. -/
theorem Quiet.call (hsane : b.Sane) {r : SyncCall μ κ} (hcall : b.call t w r = some (b', ev)) :
    (b'.Quiet c fun u => PostedSince c u (ev :: tr)) ∧ ∀ u m, ev ≠ .resumed u c m .ok := by
  have hcount := hb.count
  cases r with
  | lock m =>
    rw [Sync.call] at hcall
    split at hcall
    · split at hcall <;> cases hcall
      · exact ⟨hb.setMutex, by simp⟩
      · exact ⟨hb, by simp⟩
    · exact hb.lockSem (some.inj hcall)
  | trylock m =>
    rw [Sync.call] at hcall
    split at hcall <;> cases hcall
    · rename_i hs
      exact ⟨(hb.take hs).2.setMutex, by simp⟩
    · exact ⟨hb, by simp⟩
  | unlock m =>
    rw [Sync.call] at hcall
    split at hcall
    · cases hcall
      exact ⟨hb, by simp⟩
    split at hcall
    · cases hcall
      exact ⟨hb.setMutex, by simp⟩
    · obtain ⟨b1, hpost, heq⟩ := map_eq_some_iff.mp hcall
      cases heq
      exact ⟨hb.setMutex.post_of_ne hsane.setMutex Sum.inl_ne_inr hpost, by simp⟩
  | condWait c' m =>
    rw [Sync.call] at hcall
    split at hcall <;> cases hcall
    · exact ⟨hb, by simp⟩
    · exact ⟨hb.rest rfl rfl, by simp⟩
  | condTimedwait c' m ticks =>
    cases ticks with
    | none =>
      rw [Sync.call] at hcall
      split at hcall <;> cases hcall <;> exact ⟨hb, by simp⟩
    | some ticks =>
      rw [Sync.call] at hcall
      split at hcall
      · cases hcall
        exact ⟨hb, by simp⟩
      split at hcall <;> cases hcall
      · exact ⟨hb, by simp⟩
      · exact ⟨hb.rest rfl rfl, by simp⟩
  | condSignal c' =>
    -- It is going to post if somebody waits.
    cases hcall
    refine ⟨hb.goto ?_ (by simp [SyncPc.got]) fun _ _ => id, by simp⟩
    rw [SyncPc.owes]
    split
    · rename_i hc
      rw [hc.1] at hc
      omega
    · omega
  | condBroadcast c' =>
    -- It is going to post once for everybody who waits.
    cases hcall
    refine ⟨hb.goto ?_ (by simp [SyncPc.got]) fun _ _ => id, by simp⟩
    rw [SyncPc.owes]
    split
    · rename_i hc
      rw [hc.1]
    · omega

/-- A later step of a call. -/
theorem Quiet.go (hsane : b.Sane) (halone : 0 < (b.pc t).owes c → ∀ u, u ≠ t → (b.pc u).owes c = 0)
    (hgo : b.go t w = some (b', ev)) :
    (b'.Quiet c fun u => PostedSince c u (ev :: tr)) ∧
      ∀ u m, ev = .resumed u c m .ok → PostedSince c u tr := by
  rw [Sync.go] at hgo
  split at hgo <;> rename_i hpc <;> try have hgot := congrArg (SyncPc.got c) hpc
  · obtain ⟨hquiet, hev⟩ := hb.lockSem (some.inj hgo)
    exact ⟨hquiet, fun u m heq => absurd heq (hev u m)⟩
  · cases hgo
    exact ⟨hb.setMutex.rest rfl rfl, by simp⟩
  · -- The thread begins to wait: it has heard nothing since.
    obtain ⟨b1, hpost, heq⟩ := map_eq_some_iff.mp hgo
    cases heq
    exact ⟨(hb.setMutex.post_of_ne hsane.setMutex Sum.inl_ne_inr hpost).condSem
      fun u hu hposted => ⟨hu.symm, hposted⟩, by simp⟩
  · cases hgo
    exact ⟨hb.condSem fun _ _ => id, by simp⟩
  · cases hgo
    exact ⟨hb.rest rfl rfl, by simp⟩
  · cases hgo
    exact ⟨hb.move rfl fun hself => hb.got t (hgot.trans hself), by simp⟩
  iterate 2
    · cases hgo
      refine ⟨hb.retakeSem fun hret hc => hb.got t (hgot.trans ?_), by simp⟩
      rw [hret, hc]
      exact decide_eq_true rfl
  iterate 2
    · cases hgo
      refine ⟨hb.setMutex.rest rfl rfl, fun u m heq => ?_⟩
      cases heq
      exact hb.got t (hgot.trans (decide_eq_true rfl))
  · rename_i c' sval
    split at hgo
    · rename_i hneg
      obtain ⟨b1, hpost, heq⟩ := map_eq_some_iff.mp hgo
      cases heq
      refine ⟨?_, by simp⟩
      rcases eq_or_ne c' c with rfl | hc
      · have howes : (b.pc t).owes c' = 1 := by
          rw [hpc]
          exact if_pos ⟨rfl, hneg⟩
        exact hb.posted hsane hpost (by omega) (halone (by omega)) (by rw [howes]; exact le_rfl)
          fun u => Or.inl rfl
      · have hquiet := hb.post_of_ne hsane (Sum.inr_injective.ne hc) hpost
        exact hquiet.goto (Int.neg_nonneg.mpr hquiet.count) (by simp [SyncPc.got]) fun u _ => Or.inr
    · cases hgo
      exact ⟨hb.rest rfl rfl, by simp⟩
  · rename_i c' sval
    split at hgo
    · rename_i hneg
      obtain ⟨b1, hpost, heq⟩ := map_eq_some_iff.mp hgo
      cases heq
      refine ⟨?_, by simp⟩
      rcases eq_or_ne c' c with rfl | hc
      · have howes : (b.pc t).owes c' = -sval := by
          rw [hpc]
          exact if_pos ⟨rfl, hneg⟩
        refine hb.posted hsane hpost (by omega) (halone (by omega)) ?_ fun u => Or.inl rfl
        rw [howes, SyncPc.owes]
        split <;> omega
      · have hquiet := hb.post_of_ne hsane (Sum.inr_injective.ne hc) hpost
        refine hquiet.goto ?_ (by simp [SyncPc.got]) fun u _ => Or.inr
        rw [SyncPc.owes, if_neg fun h => hc h.1]
        exact Int.neg_nonneg.mpr hquiet.count
    · cases hgo
      exact ⟨hb.rest rfl rfl, by simp⟩
  all_goals cases hgo

/-- **Every undisturbed step keeps the invariant.** -/
theorem Quiet.step (hsane : b.Sane) {op : SyncOp μ κ τ} (hstep : op.step b = some (b', ev))
    (hP : Undisturbed tr b op ev b') :
    (b'.Quiet c fun u => PostedSince c u (ev :: tr)) ∧
      ∀ u m, ev = .resumed u c m .ok → PostedSince c u tr := by
  cases op with
  | call t r w =>
    obtain ⟨hquiet, hev⟩ := hb.call hsane (ite_none_right_eq_some.mp hstep).2
    exact ⟨hquiet, fun u m heq => absurd heq (hev u m)⟩
  | run t w =>
    exact hb.go hsane (hP c) (ite_none_right_eq_some.mp hstep).2
  | interrupt w =>
    obtain ⟨s, hs, heq⟩ := map_eq_some_iff.mp hstep
    cases heq
    refine ⟨?_, nofun⟩
    rcases eq_or_ne s (.inr c) with rfl | hc
    · exact hb.interrupt hsane hs (hP c hs)
    · exact hb.leave_of_ne hs hc

end

end Sync

section

variable {μ κ τ : Type*} [DecidableEq μ] [DecidableEq κ] [DecidableEq τ]
  {tr : List (SyncEvent μ κ τ)} {b : Sync μ κ τ} {type : μ → MutexType}

theorem SyncRun.quiet {c : κ} (h : SyncRun type Undisturbed tr b) :
    (b.Quiet c fun u => PostedSince c u tr) ∧ CondLaw c tr b := by
  induction h with
  | init =>
    exact ⟨⟨le_rfl, fun t => le_rfl, fun t => nofun⟩,
      ⟨le_rfl, fun t m tr1 tr0 htr => by simp at htr⟩⟩
  | step op hrun hstep hP ih =>
    obtain ⟨hquiet, hlaw⟩ := ih
    obtain ⟨hquiet', hev⟩ := hquiet.step hrun.sane hstep hP
    refine ⟨hquiet', hquiet'.count, fun t m tr1 tr0 htr => ?_⟩
    rcases List.cons_eq_append_iff.mp htr with ⟨-, heq⟩ | ⟨tr2, -, heq⟩
    · cases heq
      exact hev t m rfl
    · exact hlaw.resumed t m tr2 tr0 heq

/-- **Condition variables have no memory** in every run in which nobody takes a thread from one of
them while another thread is about to post it. -/
theorem syncRun_condLaw (c : κ) (h : SyncRun type Undisturbed tr b) : CondLaw c tr b :=
  h.quiet.2

end

instance {μ κ τ : Type*} [DecidableEq μ] [DecidableEq κ] [DecidableEq τ] [Fintype κ] [Fintype τ]
    (tr : List (SyncEvent μ κ τ)) (b : Sync μ κ τ) (op : SyncOp μ κ τ) (ev : SyncEvent μ κ τ)
    (b' : Sync μ κ τ) : Decidable (Undisturbed tr b op ev b') :=
  match op with
  | .call _ _ _ => isTrue trivial
  | .run t _ =>
    inferInstanceAs (Decidable (∀ c, 0 < (b.pc t).owes c → ∀ u, u ≠ t → (b.pc u).owes c = 0))
  | .interrupt w =>
    inferInstanceAs (Decidable (∀ c, (b.pc w).waitsem = some (.inr c) → ∀ u, (b.pc u).owes c = 0))

theorem syncRun_condLaw_signal :
    ∃ (tr : List (SyncEvent Unit Unit (Fin 2))) (b : Sync Unit Unit (Fin 2)),
      SyncRun (fun _ => .normal) Undisturbed tr b ∧
        tr = [.resumed 0 () () .ok, .internal, .internal, .posted (), .internal, .waits 0 () (),
          .internal, .acquired 0 ()] ∧
        CondLaw () tr b := by
  have h := SyncRun.replay (τ := Fin 2) (fun _ => .normal) Undisturbed
    [.call 0 (.lock ()) none, .call 0 (.condWait () ()) none, .run 0 none,
      .call 1 (.condSignal ()) none, .run 1 (some 0), .run 0 none, .run 0 none, .run 0 none]
    (by decide +kernel)
  exact ⟨_, _, h, rfl, syncRun_condLaw () h⟩

/-- One thread waits, and two threads signal: both read the count before one of them posts. The
second post stays in the semaphore, and the next wait returns at once. -/
theorem syncRun_remembers :
    ∃ (tr tr' : List (SyncEvent Unit Unit (Fin 3))) (b b' : Sync Unit Unit (Fin 3)),
      SyncRun (fun _ => .normal) (fun _ _ _ _ _ => True) tr b ∧ b.sem.count (.inr ()) = 1 ∧
        SyncRun (fun _ => .normal) (fun _ _ _ _ _ => True) tr' b' ∧
        tr' = [.resumed 0 () () .ok, .internal, .waits 0 () (), .internal, .resumed 0 () () .ok,
          .internal, .internal] ++ tr ∧
        ¬ CondLaw () tr b ∧ ¬ CondLaw () tr' b' := by
  have h := SyncRun.replay (τ := Fin 3) (fun _ => .normal) (fun _ _ _ _ _ => True)
    [.call 0 (.lock ()) none, .call 0 (.condWait () ()) none, .run 0 none,
      .call 1 (.condSignal ()) none, .call 2 (.condSignal ()) none, .run 1 (some 0), .run 2 none]
    (by decide +kernel)
  -- The first wait returns, and the thread waits again.
  have h' := SyncRun.replay (τ := Fin 3) (fun _ => .normal) (fun _ _ _ _ _ => True)
    [.call 0 (.lock ()) none, .call 0 (.condWait () ()) none, .run 0 none,
      .call 1 (.condSignal ()) none, .call 2 (.condSignal ()) none, .run 1 (some 0), .run 2 none,
      .run 0 none, .run 0 none, .run 0 none, .call 0 (.condWait () ()) none, .run 0 none,
      .run 0 none, .run 0 none] (by decide +kernel)
  refine ⟨_, _, _, _, h, by decide +kernel, h', rfl, fun hlaw => ?_, fun hlaw => ?_⟩
  · have hcount := hlaw.count
    revert hcount
    decide +kernel
  · exact (hlaw.resumed 0 () [] _ rfl).1 rfl

end NuttX
