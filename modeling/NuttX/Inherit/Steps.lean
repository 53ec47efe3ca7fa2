import NuttX.Inherit.Runs

/-!
# What the steps do to the ledger

Each function of the kernel with priority inheritance is sorted into the ways of `NuttX.PiStep`, and
`NuttX.PiOp.step` puts them together.
-/

namespace NuttX

open Function PiKernel List

variable {cfg : PiConfig} {op : PiOp} {k k' : PiKernel} {ev : PiEvent} {tr : List PiEvent}
  {sem : SemId} {h r t w : Tid} {s : Sched} {entry : Tid → ℕ} {irq : Bool} {x : Errno}

/-! ### Steps that change little -/

theorem PiKernel.acct_eq (hb : k'.basePriority = k.basePriority)
    (hp : k'.sched.prio = k.sched.prio) (hd : k'.pendReprios = k.pendReprios) :
    k'.acct = k.acct := by
  funext h
  rw [acct, acct, hb, hp, hd]

theorem PiInv.of_eq (hk : PiInv k) (hs : SchedInv k'.sched)
    (hl : ∀ c, k'.sched.state c = .invalid ↔ k.sched.state c = .invalid) (ha : k'.acct = k.acct)
    (ht : k'.tasks = k.tasks) (hh : ∀ c, (k'.holders c).Nodup ∧
      ∀ h ∈ k'.holders c, h ∈ k.tasks ∧ h ≠ idle) : PiInv k' := by
  have hbase : ∀ h, k'.basePriority h = k.basePriority h :=
    fun h => congrArg Account.base (congrFun ha h)
  refine ⟨hs, fun h => by rw [ha]; exact hk.wf h, fun h => ?_, fun c hc => ?_, fun c hc hne => ?_,
    fun c => (hh c).1, fun c h hm => by rw [ht]; exact (hh c).2 h hm⟩
  · rw [show k'.sched.prio h = k.sched.prio h from congrArg Account.cur (congrFun ha h)]
    exact hk.prio_le h
  · rw [ht]
    exact hk.live c (mt (hl c).mpr hc)
  · rw [hbase]
    rw [ht] at hc
    exact hk.legal c hc hne

theorem PiKernel.sameWaiters
    (hl : (k'.sched.list .waitingforsemaphore).Perm (k.sched.list .waitingforsemaphore))
    (hw : ∀ w ∈ k.sched.list .waitingforsemaphore, k'.waitsem w = k.waitsem w) :
    (k.ledger entry).SameWaiters (k'.ledger entry) :=
  ⟨hl, hw, fun _ _ => rfl⟩

/-- What a step does, and that it keeps the invariant. -/
structure PiStepped (entry : Tid → ℕ) (k k' : PiKernel) (ev : PiEvent) : Prop where
  inv : PiInv k'
  step : PiStep entry k k' ev

theorem PiStepped.of_calm (hk : PiInv k) (hc : Calm k.sched k'.sched)
    (hl : ∀ c, k'.sched.state c = .invalid ↔ k.sched.state c = .invalid)
    (hp : k'.sched.prio = k.sched.prio) (hb : k'.basePriority = k.basePriority)
    (hd : k'.pendReprios = k.pendReprios) (hw : k'.waitsem = k.waitsem) (ht : k'.tasks = k.tasks)
    (hs : k'.sem = k.sem) : PiStepped entry k k' .internal := by
  have hacct := acct_eq hb hp hd
  have hholders : ∀ c, k'.holders c = k.holders c := fun c => by
    rw [holders, holders, hs]
  refine ⟨hk.of_eq hc.inv hl hacct ht fun c => by rw [hholders]; exact ⟨hk.nodup c, hk.holder c⟩,
    .keep ⟨sameWaiters (by rw [hc.list _ rfl]) (fun _ _ => by rw [hw]), fun h c => ?_, hacct⟩⟩
  show h ∈ k'.holders c ↔ h ∈ k.holders c
  rw [hholders]

theorem PiStepped.of_quiet (hk : PiInv k) (hq : Quiet k.sched k'.sched)
    (hb : k'.basePriority = k.basePriority) (hd : k'.pendReprios = k.pendReprios)
    (hw : k'.waitsem = k.waitsem) (ht : k'.tasks = k.tasks) (hs : k'.sem = k.sem) :
    PiStepped entry k k' .internal :=
  .of_calm hk hq.calm hq.live hq.prio hb hd hw ht hs

/-! ### Taking a count -/

/-- A task is recorded as a holder. -/
theorem PiStepped.of_addholder (k1 : PiKernel) (hk : PiInv k) (hr : r ∈ k.tasks) (hidle : r ≠ idle)
    (hq : Quiet k.sched k'.sched) (hb : k'.basePriority = k.basePriority)
    (hd : k'.pendReprios = k.pendReprios)
    (hw : ∀ w ∈ k.sched.list .waitingforsemaphore, k'.waitsem w = k.waitsem w)
    (ht : k'.tasks = k.tasks) (hs : ∀ c, k'.holders c = (semAddholder k1 sem r).holders c)
    (hs1 : ∀ c, k1.holders c = k.holders c) (hrec : r ∈ k'.holders sem) :
    PiStepped entry k k' (.took r sem) := by
  have hacct := acct_eq hb hq.prio hd
  have hmem : ∀ h c, h ∈ k'.holders c ↔ h ∈ k.holders c ∨ h = r ∧ c = sem := by
    intro h c
    rw [hs sem] at hrec
    rw [hs, mem_semAddholder_iff hrec, hs1]
  refine ⟨hk.of_eq hq.inv hq.live hacct ht fun c => ⟨?_, fun h hm => ?_⟩, .take r sem
    ⟨sameWaiters (by rw [hq.blocked _ rfl]) hw, hmem, hacct⟩⟩
  · rw [hs]
    exact nodup_semAddholder (fun c => by rw [hs1]; exact hk.nodup c) c
  · rcases (hmem h c).mp hm with hm | ⟨rfl, -⟩
    · exact hk.holder c h hm
    · exact ⟨hr, hidle⟩

section

variable (hk : PiInv k) (hr : (k.sched.list .readytorun).head? = some r)

include hk hr

theorem PiInv.head_mem : r ∈ k.tasks := by
  refine hk.live r ?_
  rw [(hk.sched.running_iff r).mpr hr]
  nofun

theorem PiKernel.semWait_took (hk' : k' = { semAddholder (k.addCount sem (-1)) sem r with
      waitsem := update k.waitsem r none }.setErrno r .einval)
    (hroom : Roomy cfg k (.took r sem) k') : PiStepped entry k k' (.took r sem) := by
  obtain ⟨hsem, -, -⟩ := semAddholder_spec (k.addCount sem (-1)) sem r
  subst hk'
  refine .of_addholder (k.addCount sem (-1)) hk (hk.head_mem hr) hroom.2 ?_
    hsem.basePriority hsem.pendReprios (fun w hw => update_of_ne ?_ _ _) hsem.tasks
    (fun _ => rfl) (fun _ => holders_addCount) hroom.1
  · show Quiet k.sched (semAddholder (k.addCount sem (-1)) sem r).sched
    rw [hsem.sched]
    exact Quiet.refl hk.sched
  · rintro rfl
    exact hk.sched.head_notMem hr rfl hw

theorem PiKernel.semWaitTail_step (hroom : Roomy cfg k ev k')
    (hrun : k.semWaitTail r sem = .ok (k', ev)) : PiStepped entry k k' ev := by
  rw [semWaitTail] at hrun
  split at hrun
  · obtain ⟨s, hunlock, hrun⟩ := bind_ok.mp hrun
    cases hrun
    obtain ⟨hsem, -, -⟩ := semAddholder_spec k sem r
    exact .of_addholder k hk (hk.head_mem hr) hroom.2
      (schedUnlock_quiet hk.sched hunlock) hsem.basePriority hsem.pendReprios
      (fun _ _ => by rw [← hsem.waitsem]; rfl) hsem.tasks (fun _ => rfl) (fun _ => rfl)
      hroom.1
  · obtain ⟨s, hunlock, hrun⟩ := bind_ok.mp hrun
    cases hrun
    exact .of_quiet hk (schedUnlock_quiet hk.sched hunlock) rfl rfl rfl rfl rfl

/-! ### Beginning to wait -/

theorem BeforeBoost.of_lock {p : ℕ} (hlock : schedLock false k.sched = .ok s)
    (hprio : k.sched.prio r = p)
    (hroom : ∀ h ∈ k.holders sem, k.basePriority h < p → (k.pendReprios h).length < cfg.nnestprio)
    (d : ℤ) (ws : Tid → Option SemId) :
    BeforeBoost cfg r p (k.holders sem) ({ k with sched := s, waitsem := ws }.addCount sem d) := by
  obtain ⟨r', l, hl⟩ := hk.sched.exists_head
  obtain ⟨hq, hlist, -⟩ := schedLock_spec hk.sched hl hlock
  have hholders : ∀ c, ({ k with sched := s, waitsem := ws }.addCount sem d).holders c =
    k.holders c := fun c => holders_addCount
  refine ⟨hk.of_eq hq.inv hq.live (acct_eq rfl hq.prio rfl) rfl fun c => ?_,
    fun h hm => ⟨(hk.holder sem h hm).1, hk.base_pos hm⟩, ?_, ?_, hroom⟩
  · rw [hholders]
    exact ⟨hk.nodup c, hk.holder c⟩
  · show (s.list .readytorun).head? = _
    rw [hlist]
    exact hr
  · show s.prio r = _
    rw [hq.prio]
    exact hprio

theorem semWaitBlock_step (hroom : Roomy cfg k (.waits r sem (k.sched.prio r)) k')
    (hrun : semWaitBlock cfg k r sem = .ok k') :
    PiStepped entry k k' (.waits r sem (k.sched.prio r)) := by
  obtain ⟨s, hlock, hrun⟩ := bind_ok.mp hrun
  obtain ⟨k2, hboost, hrun⟩ := bind_ok.mp hrun
  obtain ⟨s', hblock, hrun⟩ := bind_ok.mp hrun
  cases hrun
  have hq := schedLock_quiet hk.sched hlock
  have hbefore := BeforeBoost.of_lock hk hr hlock rfl (hroom) (-1) (update k.waitsem r (some sem))
  obtain ⟨hk2, hhead, hall⟩ := foldlM_semBoostholderprio hbefore (hk.nodup sem) hboost
  have hb := upBlockTask_spec hk2.sched hhead hblock
  have hholders : ∀ c, k2.holders c = k.holders c := by
    intro c
    rw [holders, hall.sem]
    exact holders_addCount
  have hacct : (({ k2 with sched := s' }.setErrno r .ok).goto r (.semWait sem)).acct = k2.acct :=
    acct_eq rfl hb.prio rfl
  have hacct1 : ({ k with
      sched := s
      waitsem := update k.waitsem r (some sem) }.addCount sem (-1)).acct = k.acct :=
    acct_eq rfl hq.prio rfl
  have hwaitsem : k2.waitsem = update k.waitsem r (some sem) := hall.waitsem
  have hnot : r ∉ k.sched.list .waitingforsemaphore := hk.sched.head_notMem hr rfl
  have hlist : (s'.list .waitingforsemaphore).Perm (r :: k.sched.list .waitingforsemaphore) := by
    rw [hb.list_eq rfl]
    refine Prio.insert_perm.trans (Perm.cons r (hall.list.trans ?_))
    show (s.list .waitingforsemaphore).Perm _
    rw [hq.blocked _ rfl]
  refine ⟨hk2.of_eq hb.inv hb.live hacct rfl fun c => ⟨hk2.nodup c, hk2.holder c⟩,
    .block r sem (k.sched.prio r) ⟨hlist, hnot, ?_, update_self .., fun w hw => ?_,
      fun w hw => update_of_ne (ne_of_mem_of_not_mem hw hnot) _ _, fun h c => ?_,
      fun h hm => ?_, fun h hm => ?_⟩⟩
  · show k2.waitsem r = some sem
    rw [hwaitsem, update_self]
  · show k2.waitsem w = k.waitsem w
    rw [hwaitsem, update_of_ne (ne_of_mem_of_not_mem hw hnot)]
  · show h ∈ k2.holders c ↔ h ∈ k.holders c
    rw [hholders]
  · have hmem := hall.acct_mem h hm
    rw [hacct1] at hmem
    exact (congrFun hacct h).trans hmem
  · have hother := hall.acct_other h hm
    rw [hacct1] at hother
    exact (congrFun hacct h).trans hother

end

theorem PiKernel.semWait_step (hk : PiInv k) (hroom : Roomy cfg k ev k')
    (hrun : k.semWait cfg sem = .ok (k', ev)) : PiStepped entry k k' ev := by
  obtain ⟨r, hr, hrun⟩ := bind_ok.mp hrun
  rw [rtcb_ok] at hr
  split at hrun
  · cases hrun
    exact semWait_took hk hr rfl hroom
  split at hrun
  · cases hrun
  obtain ⟨k1, hblock, hrun⟩ := bind_ok.mp hrun
  cases hrun
  exact semWaitBlock_step hk hr hroom hblock

/-! ### Posting -/

theorem PiKernel.ledger_eq (entry : Tid → ℕ) (hh : ∀ c, k'.holders c = k.holders c)
    (ha : k'.acct = k.acct)
    (hl : k'.sched.list .waitingforsemaphore = k.sched.list .waitingforsemaphore)
    (hw : k'.waitsem = k.waitsem) : k'.ledger entry = k.ledger entry := by
  simp only [ledger, hl, hw, hh, ha]

theorem semPostTail_spec (entry : Tid → ℕ) (hk : PiInv k)
    (hrun : semPostTail irq k r sem = .ok k') :
    PiInv k' ∧ ((k.ledger entry).Keeps (k'.ledger entry) ∨
      (k.ledger entry).Drops (k'.ledger entry) r sem) := by
  obtain ⟨s, hunlock, hrun⟩ := bind_ok.mp hrun
  cases hrun
  have hq := schedUnlock_quiet hk.sched hunlock
  have hsem : SemOnly k (semDropholder k sem r) := semDropholder_semOnly
  obtain ⟨hnd, hholders⟩ := semDropholder_spec hk.nodup sem r
  have hacct : ({ semDropholder k sem r with sched := s } : PiKernel).acct = k.acct :=
    acct_eq hsem.basePriority hq.prio hsem.pendReprios
  have hsame : (k.ledger entry).SameWaiters
      (({ semDropholder k sem r with sched := s } : PiKernel).ledger entry) :=
    sameWaiters (by rw [hq.blocked _ rfl]) fun w _ => congrFun hsem.waitsem w
  refine ⟨hk.of_eq hq.inv hq.live hacct hsem.tasks fun c => ⟨hnd c, fun h hm => ?_⟩, ?_⟩
  · rcases hholders with heq | hiff
    · exact hk.holder c h (by rw [← heq c]; exact hm)
    · exact hk.holder c h ((hiff h c).mp hm).1
  rcases hholders with heq | hiff
  · refine Or.inl ⟨hsame, fun h c => ?_, hacct⟩
    show h ∈ (semDropholder k sem r).holders c ↔ _
    rw [heq c]
    rfl
  · exact Or.inr ⟨hsame, hiff, hacct⟩

theorem semPostTail_waitsem (hrun : semPostTail irq k r sem = .ok k') :
    k'.waitsem = k.waitsem := by
  obtain ⟨s, -, hrun⟩ := bind_ok.mp hrun
  cases hrun
  exact semDropholder_semOnly.waitsem

theorem semRestorebaseprio_waitsem (hrun : semRestorebaseprio irq k w sem = .ok k') :
    k'.waitsem = k.waitsem := by
  obtain ⟨r, -, hrun⟩ := bind_ok.mp hrun
  obtain ⟨k1, hA, hrun⟩ := bind_ok.mp hrun
  obtain ⟨k2, hB, hrun⟩ := bind_ok.mp hrun
  obtain ⟨r', -, hrun⟩ := bind_ok.mp hrun
  rw [← foldlM_semRestoreholderprioA_waitsem hA, ← semRestoreholderprioB_waitsem hB]
  split at hrun
  · exact semPostTail_waitsem hrun
  · cases hrun
    rfl

/-- `sem_restorebaseprio` for the waiter `w`: the holders are restored, and the running task may be
taken off the list. -/
theorem semRestorebaseprio_spec (entry : Tid → ℕ) (hk : PiInv k)
    (hself : w ∈ k.holders sem → k.sched.prio w = k.basePriority w)
    (hrun : semRestorebaseprio irq k w sem = .ok k') :
    PiInv k' ∧ ∃ k1, PiInv k1 ∧
      TunedAll k k1 (k.holders sem) (fun _ a => a.restore (k.sched.prio w)) ∧
        ((k1.ledger entry).Keeps (k'.ledger entry) ∨
          ∃ r, (k1.ledger entry).Drops (k'.ledger entry) r sem) := by
  obtain ⟨r, hr, hrun⟩ := bind_ok.mp hrun
  rw [rtcb_ok] at hr
  obtain ⟨k1, hA, hrun⟩ := bind_ok.mp hrun
  obtain ⟨k2, hB, hrun⟩ := bind_ok.mp hrun
  obtain ⟨r', hr', hrun⟩ := bind_ok.mp hrun
  obtain ⟨hk2, hall⟩ := restorePasses_spec
    ⟨⟨hk, fun h hm => ⟨(hk.holder sem h hm).1, hk.base_pos hm⟩, rfl, hself⟩, hr⟩ hA hB
  split at hrun
  · obtain ⟨hk', hrest⟩ := semPostTail_spec entry hk2 hrun
    exact ⟨hk', k2, hk2, hall, hrest.imp_right fun hd => ⟨r, hd⟩⟩
  · cases hrun
    exact ⟨⟨hk2.sched, hk2.wf, hk2.prio_le, hk2.live, hk2.legal, hk2.nodup, hk2.holder⟩, k2, hk2,
      hall, Or.inl ⟨sameWaiters (Perm.refl _) fun _ _ => rfl, fun _ _ => Iff.rfl, rfl⟩⟩

theorem PiKernel.releases (hw : k.WaitsFor w sem)
    (hl : (k'.sched.list .waitingforsemaphore).Perm ((k.sched.list .waitingforsemaphore).erase w))
    (hnd : (k.sched.list .waitingforsemaphore).Nodup)
    (hon : k'.waitsem = update k.waitsem w none)
    (hh : ∀ c, k'.holders c = k.holders c)
    (ha : ∀ h ∈ k.holders sem, k'.acct h = (k.acct h).restore (k.sched.prio w))
    (ha' : ∀ h, h ∉ k.holders sem → k'.acct h = k.acct h) :
    (k.ledger entry).Releases (k'.ledger entry) w sem (k.sched.prio w) := by
  refine ⟨hw.1, hw.2, hl, fun c hc => ?_, fun _ _ => rfl, fun h c => ?_, ha, ha'⟩
  · show k'.waitsem c = k.waitsem c
    rw [hon, update_of_ne]
    rintro rfl
    exact hnd.not_mem_erase (hl.mem_iff.mp hc)
  · show h ∈ k'.holders c ↔ h ∈ k.holders c
    rw [hh]

theorem PiInv.posted (hk : PiInv k) (hs : SchedInv s)
    (hl : ∀ c, s.state c = .invalid ↔ k.sched.state c = .invalid) (hp : s.prio = k.sched.prio)
    (ws : Tid → Option SemId) :
    let k1 := ({ semReleaseholder k sem r with sched := s, waitsem := ws }).addCount sem 1
    PiInv k1 ∧ k1.acct = k.acct ∧ ∀ c, k1.holders c = k.holders c := by
  intro k1
  have hholders : ∀ c, k1.holders c = k.holders c := fun c => by
    rw [holders_addCount]
    exact holders_semReleaseholder
  have hacct : k1.acct = k.acct := acct_eq rfl hp rfl
  exact ⟨hk.of_eq hs hl hacct rfl fun c => by
    rw [hholders]
    exact ⟨hk.nodup c, hk.holder c⟩, hacct, hholders⟩

theorem PiKernel.semPost_step (hk : PiInv k) (hst : Steadfast tr k k')
    (hrun : k.semPost cfg irq sem = .ok k') : PiStepped entry k k' .internal := by
  obtain ⟨r, hr, hrun⟩ := bind_ok.mp hrun
  obtain ⟨-, -, hrun⟩ := bind_ok.mp hrun
  obtain ⟨s, hlock, hrun⟩ := bind_ok.mp hrun
  have hq := schedLock_quiet hk.sched hlock
  split at hrun
  · -- nobody waits
    obtain ⟨hk1, hacct, hholders⟩ :=
      hk.posted (r := r) hq.inv hq.live hq.prio k.waitsem
    obtain ⟨hk', hrest⟩ := semPostTail_spec entry hk1 hrun
    have hledger := ledger_eq entry hholders hacct (hq.blocked _ rfl) rfl
    rw [hledger] at hrest
    refine ⟨hk', ?_⟩
    rcases hrest with hkeep | hdrop
    · exact .keep hkeep
    · exact .drop r sem hdrop
  rename_i w hsome
  obtain ⟨s2, hunblock, hrun⟩ := bind_ok.mp hrun
  have hfirst : Waiters.first k.waitsem sem (s.list .waitingforsemaphore) = some w := by
    split at hsome
    · exact hsome
    · cases hsome
  have hmem := Waiters.mem_of_first hfirst
  have hu := upUnblockTask_spec hq.inv
    (TaskState.isBlocked_eq ((hq.inv.mem_iff w _).mp hmem)) hunblock
  have hprio : s2.prio = k.sched.prio := hu.prio.trans hq.prio
  rw [hq.blocked _ rfl] at hmem
  have hw : k.WaitsFor w sem := ⟨hmem, Waiters.on_of_first hfirst⟩
  obtain ⟨hk1, hacct, hholders⟩ := hk.posted (r := r) hu.inv
    (fun c => (hu.live c).trans (hq.live c)) hprio (update k.waitsem w none)
  have hleft : ¬ k'.WaitsFor w sem := by
    rintro ⟨-, hon⟩
    rw [semRestorebaseprio_waitsem hrun] at hon
    simp [addCount, setSem] at hon
  obtain ⟨hk', k2, -, hall, hrest⟩ := semRestorebaseprio_spec entry hk1 (fun hm => by
    rw [hholders] at hm
    show s2.prio w = k.basePriority w
    rw [hprio]
    exact (hst w sem hw hleft).2 hm) hrun
  refine ⟨hk', .release w sem (k2.ledger entry) (releases hw ?_ (hk.sched.nodup _)
    hall.waitsem (fun c => ?_) (fun h hm => ?_) fun h hm => ?_) hrest⟩
  · refine hall.list.trans ?_
    show (s2.list .waitingforsemaphore).Perm _
    rw [hu.list _ rfl, hq.blocked _ rfl]
  · rw [holders, hall.sem]
    exact hholders c
  · have hmem := hall.acct_mem h (by rw [hholders]; exact hm)
    rw [hacct] at hmem
    rw [hmem, ← hprio]
    rfl
  · have hother := hall.acct_other h (by rw [hholders]; exact hm)
    rw [hacct] at hother
    exact hother

/-! ### Giving up -/

theorem PiKernel.map_containers : (k.containers sem).map Prod.snd = k.holders sem := by
  simp [containers, holders, PiSem.holders, Function.comp_def]

theorem semCanceled_none {cs : List (Option ℕ × Tid)}
    (hrun : semCanceled irq r sem w cs k = .ok (k', none)) :
    (cs.map Prod.snd).foldlM (semRestoreholderprio sem w) k = .ok k' := by
  induction cs generalizing k with
  | nil =>
    cases hrun
    rfl
  | cons c cs ih =>
    obtain ⟨k1, hstep, hrun⟩ := bind_ok.mp hrun
    obtain ⟨r', -, hrun⟩ := bind_ok.mp hrun
    split at hrun
    · rw [map_cons, foldlM_cons, hstep]
      exact ih hrun
    · cases (Prod.mk.inj (Except.ok.inj hrun)).2

theorem semCanceled_tasks {cs : List (Option ℕ × Tid)} {next : Option (Option ℕ)}
    (hrun : semCanceled irq r sem w cs k = .ok (k', next)) : k'.tasks = k.tasks := by
  induction cs generalizing k with
  | nil =>
    cases hrun
    rfl
  | cons c cs ih =>
    obtain ⟨k1, hstep, hrun⟩ := bind_ok.mp hrun
    obtain ⟨r', -, hrun⟩ := bind_ok.mp hrun
    rw [← (semRestoreholderprio_frame hstep).2]
    split at hrun
    · exact ih hrun
    · cases hrun
      rfl

section

variable (hk : PiInv k)

include hk

theorem PiKernel.semWaitirq_step (hwhole : ¬ k'.Suspended) (hst : Steadfast tr k k')
    (hrun : k.semWaitirq cfg irq w x = .ok k') : PiStepped entry k k' .internal := by
  rw [semWaitirq] at hrun
  split at hrun
  swap
  · cases hrun
    exact .of_quiet hk (Quiet.refl hk.sched) rfl rfl rfl rfl rfl
  rename_i hstate
  split at hrun
  · cases hrun
  rename_i sem hsem
  obtain ⟨r, hr, hrun⟩ := bind_ok.mp hrun
  obtain ⟨⟨k1, suspended⟩, hcancel, hrun⟩ := bind_ok.mp hrun
  have hmem : w ∈ k.sched.list .waitingforsemaphore :=
    (hk.sched.mem_iff w _).mpr (by rw [hstate]; rfl)
  have hw : k.WaitsFor w sem := ⟨hmem, hsem⟩
  cases suspended with
  | some next =>
    cases hrun
    refine (hwhole ⟨r, ?_, by simp [goto, PiPc.isCanceled]⟩).elim
    show r ∈ k1.tasks
    rw [semCanceled_tasks hcancel]
    exact hk.head_mem (rtcb_ok.mp hr)
  | none =>
    obtain ⟨s, hunblock, hrun⟩ := bind_ok.mp hrun
    have hwaitsem : k'.waitsem = update k1.waitsem w none := by
      rw [← Except.ok.inj hrun]
      rfl
    have hleft : ¬ k'.WaitsFor w sem := by
      rintro ⟨-, hon⟩
      rw [hwaitsem, update_self] at hon
      cases hon
    have hpass := semCanceled_none hcancel
    rw [map_containers] at hpass
    obtain ⟨hk1, hall⟩ := foldlM_semRestoreholderprio ⟨hk,
      fun h hm => ⟨(hk.holder sem h hm).1, hk.base_pos hm⟩, rfl, (hst w sem hw hleft).2⟩
      (hk.nodup sem) hpass
    have hmem1 := hall.list.mem_iff.mpr hmem
    have hu := upUnblockTask_spec hk1.sched
      (TaskState.isBlocked_eq ((hk1.sched.mem_iff w _).mp hmem1)) hunblock
    have hholders : ∀ c, k'.holders c = k1.holders c := by
      rw [← Except.ok.inj hrun]
      exact fun c => holders_addCount
    have hacct : k'.acct = k1.acct := by
      rw [← Except.ok.inj hrun]
      exact acct_eq rfl hu.prio rfl
    rw [hall.waitsem] at hwaitsem
    cases hrun
    refine ⟨hk1.of_eq hu.inv hu.live hacct rfl fun c => ?_, .release w sem _ (releases hw ?_
      (hk.sched.nodup _) hwaitsem (fun c => ?_) (fun h hm => ?_) fun h hm => ?_) (Or.inl (.refl _))⟩
    · rw [hholders]
      exact ⟨hk1.nodup c, hk1.holder c⟩
    · show (s.list .waitingforsemaphore).Perm _
      rw [hu.list _ rfl]
      exact hall.list.erase w
    · rw [hholders, holders, hall.sem]
      rfl
    · rw [hacct]
      exact hall.acct_mem h hm
    · rw [hacct]
      exact hall.acct_other h hm

/-! ### Signal handlers, the scheduler, and new tasks -/

theorem PiKernel.sigDeliver_step (hrun : k.sigDeliver = .ok k') :
    PiStepped entry k k' .internal := by
  obtain ⟨r, -, hrun⟩ := bind_ok.mp hrun
  obtain ⟨s, hlock, hrun⟩ := bind_ok.mp hrun
  cases hrun
  exact .of_quiet hk (schedLock_quiet hk.sched hlock) rfl rfl rfl rfl rfl

theorem PiKernel.sigReturn_step (hrun : k.sigReturn = .ok k') : PiStepped entry k k' .internal := by
  obtain ⟨r, -, hrun⟩ := bind_ok.mp hrun
  split at hrun
  · cases hrun
    exact .of_quiet hk (Quiet.refl hk.sched) rfl rfl rfl rfl rfl
  · obtain ⟨s, hunlock, hrun⟩ := bind_ok.mp hrun
    cases hrun
    exact .of_quiet hk (schedUnlock_quiet hk.sched hunlock) rfl rfl rfl rfl rfl

theorem PiOp.sched_step {sop : SchedOp} (hlegal : (PiOp.sched sop).Legal k)
    (hrun : sop.run cfg.toSchedConfig k.sched = .ok s) :
    PiStepped entry k { k with sched := s } .internal := by
  obtain ⟨r, l, hl⟩ := hk.sched.exists_head
  cases sop with
  | create irq t priority rr | setPriority t priority => exact hlegal.elim
  | block st =>
    obtain ⟨-, rfl⟩ := hlegal
    rw [SchedOp.run, hl] at hrun
    have hb := upBlockTask_spec hk.sched (by rw [hl]; rfl) hrun
    exact .of_calm hk (hb.calm rfl rfl) hb.live hb.prio rfl rfl rfl rfl rfl
  | unblock t =>
    obtain ⟨hu, hcalm⟩ := upUnblockTask_calm hk.sched hlegal hrun
    exact .of_calm hk hcalm hu.live hu.prio rfl rfl rfl rfl rfl
  | lock irq => exact .of_quiet hk (schedLock_quiet hk.sched hrun) rfl rfl rfl rfl rfl
  | unlock irq => exact .of_quiet hk (schedUnlock_quiet hk.sched hrun) rfl rfl rfl rfl rfl
  | timeslice =>
    exact .of_quiet hk (schedProcessTimeslice_spec hk.sched hrun).1 rfl rfl rfl rfl rfl

theorem PiKernel.taskCreate_step {priority : ℤ} {rr : Bool} (ht : t ∉ k.tasks)
    (hinv : k.sched.state t = .invalid) (hp : LegalPriority priority)
    (hrun : k.taskCreate t priority rr = .ok k') : PiStepped entry k k' .internal := by
  obtain ⟨s, hsetup, hrun⟩ := bind_ok.mp hrun
  have hc := taskSchedsetup_spec hk.sched hinv hp hsetup
  obtain ⟨hp1, hp2⟩ := hp
  have hmod : (priority % 256).toNat = priority.toNat := by omega
  have hacct : ∀ h, h ≠ t → k'.acct h = k.acct h := by
    intro h hne
    rw [← Except.ok.inj hrun]
    simp [acct, setErrno, goto, hc.prio, hne]
  have hnew : k'.acct t = ⟨priority.toNat, priority.toNat, []⟩ := by
    rw [← Except.ok.inj hrun]
    simp [acct, setErrno, goto, hc.prio, hmod]
  cases hrun
  refine ⟨⟨hc.inv, fun h => ?_, fun h => ?_, fun c hne => ?_, fun c hm hne => ?_, hk.nodup,
    fun c h hm => ⟨mem_cons_of_mem t (hk.holder c h hm).1, (hk.holder c h hm).2⟩⟩,
    .opens t ⟨sameWaiters ?_ fun w hm => update_of_ne ?_ _ _, fun _ _ => Iff.rfl,
      fun c hm => ht (hk.holder c t hm).1, hacct⟩ ?_⟩
  · rcases eq_or_ne h t with rfl | hne
    · rw [hnew]
      exact ⟨Nat.le_refl _, by simp⟩
    · rw [hacct h hne]
      exact hk.wf h
  · show s.prio h ≤ 255
    rw [hc.prio]
    exact (forall_update_iff _ fun _ p => p ≤ 255).mpr ⟨by omega, fun h _ => hk.prio_le h⟩ h
  · rcases eq_or_ne c t with rfl | hct
    · exact mem_cons_self
    · exact mem_cons_of_mem t (hk.live c fun h => hne ((hc.live c).mpr ⟨hct, h⟩))
  · show 1 ≤ update k.basePriority t (priority % 256).toNat c
    rcases eq_or_ne c t with rfl | hct
    · rw [update_self]
      omega
    · rw [update_of_ne hct]
      exact hk.legal c ((mem_cons.mp hm).resolve_left hct) hne
  · show (s.list .waitingforsemaphore).Perm _
    rw [hc.list _ rfl, if_neg (by simp)]
  · rintro rfl
    exact hk.sched.notMem hinv hm
  · rw [hnew]
    exact if_neg (lt_irrefl _)

/-! ### All steps -/

theorem PiKernel.resume_step (hwhole : ¬ k.Suspended) (hroom : Roomy cfg k ev k')
    (hrun : k.resume cfg = .ok (k', ev)) : PiStepped entry k k' ev := by
  obtain ⟨r, hr, hrun⟩ := bind_ok.mp hrun
  rw [rtcb_ok] at hr
  split at hrun
  · cases hrun
    exact .of_quiet hk (Quiet.refl hk.sched) rfl rfl rfl rfl rfl
  · exact semWaitTail_step hk hr hroom hrun
  · rename_i sem _
    obtain ⟨k1, htail, hrun⟩ := bind_ok.mp hrun
    cases hrun
    obtain ⟨hk1, hrest⟩ := semPostTail_spec entry hk htail
    refine ⟨hk1.of_eq hk1.sched (fun _ => Iff.rfl) rfl rfl fun c => ⟨hk1.nodup c, hk1.holder c⟩, ?_⟩
    rcases hrest with hkeep | hdrop
    · exact .keep hkeep
    · exact .drop r sem hdrop
  · rename_i w sem e next hpc
    exact (hwhole ⟨r, hk.head_mem hr, by rw [hpc]; rfl⟩).elim

end

theorem PiOp.silent_ok {x : Os PiKernel} (hrun : PiOp.silent x = .ok (k', ev)) :
    x = .ok k' ∧ ev = .internal := by
  obtain ⟨k1, rfl, hrun⟩ := bind_ok.mp hrun
  cases hrun
  exact ⟨rfl, rfl⟩

/-- **Every step keeps the invariant and changes the ledger in one of the ways of
`NuttX.PiStep`.** -/
theorem PiOp.step (hk : PiInv k) (hwhole : ¬ k.Suspended) (hlegal : op.Legal k)
    (hreg : Regular cfg tr k ev k') (hrun : op.run cfg k = .ok (k', ev)) :
    PiStepped (blockPriority tr) k k' ev := by
  cases op with
  | semWait sem => exact PiKernel.semWait_step hk hreg.roomy hrun
  | resume => exact PiKernel.resume_step hk hwhole hreg.roomy hrun
  | semPost irq sem =>
    obtain ⟨hcall, rfl⟩ := silent_ok hrun
    exact PiKernel.semPost_step hk hreg.steadfast hcall
  | semTimeout t =>
    obtain ⟨hcall, rfl⟩ := silent_ok hrun
    rw [PiKernel.semTimeout] at hcall
    split at hcall
    · exact PiKernel.semWaitirq_step hk hreg.whole hreg.steadfast hcall
    · cases hcall
      exact .of_quiet hk (Quiet.refl hk.sched) rfl rfl rfl rfl rfl
  | signal irq t =>
    obtain ⟨hcall, rfl⟩ := silent_ok hrun
    exact PiKernel.semWaitirq_step hk hreg.whole hreg.steadfast hcall
  | sigDeliver =>
    obtain ⟨hcall, rfl⟩ := silent_ok hrun
    exact PiKernel.sigDeliver_step hk hcall
  | sigReturn =>
    obtain ⟨hcall, rfl⟩ := silent_ok hrun
    exact PiKernel.sigReturn_step hk hcall
  | sched sop =>
    obtain ⟨s, hsop, hrun⟩ := bind_ok.mp hrun
    cases hrun
    exact PiOp.sched_step hk hlegal hsop
  | taskCreate t priority rr =>
    obtain ⟨hcall, rfl⟩ := silent_ok hrun
    obtain ⟨-, ht, hinv, hp⟩ := hlegal
    exact PiKernel.taskCreate_step hk ht hinv hp hcall

/-! ### All runs -/

theorem PiStep.not_waitsFor {L : Ledger Tid SemId ℕ} {p : ℕ} (hk : PiInv k)
    (hrel : (k.ledger entry).Releases L w sem p)
    (hrest : L.Keeps (k'.ledger entry) ∨ ∃ r, L.Drops (k'.ledger entry) r sem) :
    ¬ k'.WaitsFor w sem := by
  have hsame : L.SameWaiters (k'.ledger entry) := by
    rcases hrest with hkeep | ⟨r, hdrop⟩
    exacts [hkeep.toSameWaiters, hdrop.toSameWaiters]
  intro hw
  have hmem := hrel.waiters.mem_iff.mp (hsame.waiters.mem_iff.mp hw.1)
  exact (hk.sched.nodup .waitingforsemaphore).not_mem_erase hmem

theorem blockPriority_waits {p : ℕ} :
    blockPriority (.waits r sem p :: tr) = update (blockPriority tr) r p := by
  funext c
  simp only [blockPriority, update_apply]

theorem PiInv.boot (v : SemId → ℕ) (n : ℕ) : PiInv (boot v n) := by
  refine ⟨SchedInv.osStart, fun h => ⟨Nat.le_refl _, nofun⟩, fun h => ?_, fun t ht => ?_,
    fun t ht hne => ?_, fun s => nodup_nil, nofun⟩
  · exact Nat.zero_le _
  · by_contra hm
    exact ht (if_neg (mt mem_singleton.mpr hm))
  · exact (hne (mem_singleton.mp ht)).elim

theorem PiKernel.boot_not_suspended (v : SemId → ℕ) (n : ℕ) : ¬ (boot v n).Suspended := by
  rintro ⟨t, -, hpc⟩
  cases hpc

/-- **A property of ledgers that the steps keep holds in all runs**, and so does the invariant. -/
theorem PiRun.ledger {P : List PiEvent → PiKernel → PiOp → PiEvent → PiKernel → Prop}
    {Q : Ledger Tid SemId ℕ → Prop} {v : SemId → ℕ} {n : ℕ}
    (hP : ∀ tr k op ev k', P tr k op ev k' → Regular cfg tr k ev k')
    (hboot : Q ((PiKernel.boot v n).ledger (blockPriority [])))
    (hstep : ∀ tr k op ev k', PiInv k → P tr k op ev k' → PiStep (blockPriority tr) k k' ev →
      Q (k.ledger (blockPriority tr)) → Q (k'.ledger (blockPriority (ev :: tr))))
    (hrun : PiRun cfg P (.boot v n) tr k) :
    PiInv k ∧ ¬ k.Suspended ∧ Q (k.ledger (blockPriority tr)) := by
  induction hrun with
  | boot => exact ⟨PiInv.boot v n, PiKernel.boot_not_suspended v n, hboot⟩
  | step op _ hlegal hrun hcond ih =>
    obtain ⟨hk, hwhole, hQ⟩ := ih
    have hreg := hP _ _ _ _ _ hcond
    have hs := PiOp.step hk hwhole hlegal hreg hrun
    exact ⟨hs.inv, hreg.whole, hstep _ _ _ _ _ hk hcond hs.step hQ⟩

end NuttX
