import NuttX.Inherit.Holders

/-!
# What boosting and restoring do to the accounts

Each task has an account in the sense of `NuttX.Account`: its base priority, its priority, and what
is in `pend_reprios`. `sem_boostholderprio` and `sem_restoreholderprio` are, for the account of the
holder, the operations `NuttX.Account.boost` and `NuttX.Account.restore`, and leave all other
accounts alone. The passes over the list of holders do this for every holder once. In the two passes
of `sem_restorebaseprio` that is so because the first one does not change the running task.
-/

namespace NuttX

open Function PiKernel Account List

variable {cfg : PiConfig} {k k' : PiKernel} {sem : SemId} {h r t stcb : Tid} {l : List Tid}
 {a : Account ℕ} {p : ℕ} {k₁ : PiKernel}

def PiKernel.acct (k : PiKernel) (h : Tid) : Account ℕ :=
  ⟨k.basePriority h, k.sched.prio h, k.pendReprios h⟩

/-- The invariant of the lists of holders and of the accounts. -/
structure PiInv (k : PiKernel) : Prop where
  sched : SchedInv k.sched
  wf : ∀ h, (k.acct h).Wf
  prio_le : ∀ t, k.sched.prio t ≤ 255
  live : ∀ t, k.sched.state t ≠ .invalid → t ∈ k.tasks
  legal : ∀ t ∈ k.tasks, t ≠ idle → 1 ≤ k.basePriority t
  nodup : ∀ s, (k.holders s).Nodup
  holder : ∀ s, ∀ h ∈ k.holders s, h ∈ k.tasks ∧ h ≠ idle

theorem PiInv.base_pos (hk : PiInv k) {s : SemId} (hm : h ∈ k.holders s) : 1 ≤ k.basePriority h :=
  hk.legal h (hk.holder s h hm).1 (hk.holder s h hm).2

theorem PiKernel.rtcb_ok : k.rtcb = .ok r ↔ (k.sched.list .readytorun).head? = some r := by
  rw [rtcb]
  cases k.sched.list .readytorun <;> simp

/-! ### One account changes -/

/-- The account of the task `h` is now `a`, and nothing else has changed. -/
structure Tuned (k k' : PiKernel) (h : Tid) (a : Account ℕ) : Prop where
  inv : SchedInv k'.sched
  acct : k'.acct = update k.acct h a
  list : (k'.sched.list .waitingforsemaphore).Perm (k.sched.list .waitingforsemaphore)
  live : ∀ c, k'.sched.state c = .invalid ↔ k.sched.state c = .invalid
  tasks : k'.tasks = k.tasks
  sem : k'.sem = k.sem
  waitsem : k'.waitsem = k.waitsem

theorem Tuned.prio (ht : Tuned k k' h a) :
    k'.sched.prio = update k.sched.prio h a.cur := by
  funext c
  have hc := congrArg cur (congrFun ht.acct c)
  rcases eq_or_ne c h with rfl | hne
  · rw [update_self] at hc ⊢
    exact hc
  · rw [update_of_ne hne] at hc ⊢
    exact hc

theorem Tuned.acct_of_ne (ht : Tuned k k' h a) {c : Tid} (hc : c ≠ h) : k'.acct c = k.acct c := by
  rw [ht.acct, update_of_ne hc]

theorem PiInv.tuned (hk : PiInv k) (ht : Tuned k k' h a) (hwf : a.Wf) (hle : a.cur ≤ 255)
    (hbase : a.base = k.basePriority h) : PiInv k' := by
  have hholders : ∀ s, k'.holders s = k.holders s := fun s => by
    rw [holders, holders, ht.sem]
  have hbase' : ∀ c, k'.basePriority c = k.basePriority c := by
    intro c
    show (k'.acct c).base = _
    rcases eq_or_ne c h with rfl | hne
    · rw [ht.acct, update_self]
      exact hbase
    · rw [ht.acct_of_ne hne]
      rfl
  refine ⟨ht.inv, fun c => ?_, fun c => ?_, fun c hc => ?_, fun c hc hne => ?_, fun s => ?_,
    fun s c hc => ?_⟩
  · rw [ht.acct]
    exact (forall_update_iff _ fun _ a => Wf a).mpr ⟨hwf, fun c _ => hk.wf c⟩ c
  · rw [ht.prio]
    exact (forall_update_iff _ fun _ p => p ≤ 255).mpr ⟨hle, fun c _ => hk.prio_le c⟩ c
  · rw [ht.tasks]
    exact hk.live c (mt (ht.live c).mpr hc)
  · rw [hbase']
    rw [ht.tasks] at hc
    exact hk.legal c hc hne
  · rw [hholders]
    exact hk.nodup s
  · rw [hholders] at hc
    rw [ht.tasks]
    exact hk.holder s c hc

/-- `sched_setpriority` together with a change of `pend_reprios`. -/
theorem Tuned.of_setpriority {s : Sched} {x : Status} (pend : List ℕ) (hk : PiInv k) (hp : 1 ≤ p)
    (hp' : p ≤ 255) (hrun : schedSetpriority k.sched h p = .ok (s, x)) :
    x = .ok ∧ Tuned k { k with
      sched := s
      pendReprios := update k.pendReprios h pend } h ⟨k.basePriority h, p, pend⟩ := by
  obtain ⟨hr, hx⟩ := schedSetpriority_spec hk.sched ⟨by omega, by omega⟩ hrun
  rw [Int.toNat_natCast] at hr
  refine ⟨hx, hr.inv, funext fun c => ?_, ?_, hr.live, rfl, rfl, rfl⟩
  · rcases eq_or_ne c h with rfl | hne
    · simp [PiKernel.acct, hr.prio]
    · simp [PiKernel.acct, hr.prio, hne]
  show (s.list .waitingforsemaphore).Perm _
  rw [hr.list _ rfl]
  split
  · rename_i hmem
    exact Prio.insert_perm.trans (perm_cons_erase ((hk.sched.mem_iff h _).mpr hmem.1)).symm
  · exact Perm.refl _

theorem Tuned.of_pend {pend : List ℕ} (hk : PiInv k) :
    Tuned k { k with pendReprios := update k.pendReprios h pend } h
      ⟨k.basePriority h, k.sched.prio h, pend⟩ := by
  refine ⟨hk.sched, funext fun c => ?_, Perm.refl _, fun _ => Iff.rfl, rfl, rfl, rfl⟩
  rcases eq_or_ne c h with rfl | hne
  · simp [PiKernel.acct]
  · simp [PiKernel.acct, hne]

theorem Tuned.refl (hk : PiInv k) (h : Tid) : Tuned k k h (k.acct h) :=
  ⟨hk.sched, (update_eq_self h k.acct).symm, Perm.refl _, fun _ => Iff.rfl, rfl, rfl, rfl⟩

section

variable (hk : PiInv k) (hm : h ∈ k.tasks)

include hk hm

/-- **`sem_boostholderprio` boosts the account of the holder.** -/
theorem semBoostholderprio_spec
    (hroom : k.basePriority h < k.sched.prio r → (k.pendReprios h).length < cfg.nnestprio)
    (hrun : semBoostholderprio cfg sem r k h = .ok k') :
    Tuned k k' h ((k.acct h).boost (k.sched.prio r)) := by
  rw [semBoostholderprio, if_neg (not_not_intro hm)] at hrun
  rw [boost]
  by_cases hb : k.basePriority h < k.sched.prio r
  · have hlen := hroom hb
    rw [if_pos hb] at hrun
    rw [if_pos (show (k.acct h).base < _ from hb)]
    by_cases hc : k.sched.prio h < k.sched.prio r
    · rw [if_pos hc] at hrun
      rw [if_pos (show (k.acct h).cur < _ from hc)]
      obtain ⟨⟨s, x⟩, hset, hrun⟩ := bind_ok.mp hrun
      cases hrun
      simp only [hlen, and_true]
      exact (Tuned.of_setpriority _ hk (by omega) (hk.prio_le r) hset).2
    · rw [if_neg hc, if_pos hlen] at hrun
      rw [if_neg (show ¬ (k.acct h).cur < _ from hc)]
      cases hrun
      exact Tuned.of_pend hk
  · rw [if_neg hb] at hrun
    rw [if_neg (show ¬ (k.acct h).base < _ from hb)]
    cases hrun
    exact Tuned.refl hk h

theorem semBoostholderprio_head (hr : (k.sched.list .readytorun).head? = some r)
    (hrun : semBoostholderprio cfg sem r k h = .ok k') :
    (k'.sched.list .readytorun).head? = some r := by
  rw [semBoostholderprio, if_neg (not_not_intro hm)] at hrun
  split at hrun
  swap
  · cases hrun
    exact hr
  split at hrun
  · rename_i hlt
    have hne : h ≠ r := by
      rintro rfl
      exact Nat.lt_irrefl _ hlt
    obtain ⟨⟨s, x⟩, hset, hrun⟩ := bind_ok.mp hrun
    cases hrun
    exact schedSetpriority_head hk.sched hr hne (Or.inr (Or.inl (Int.le_refl _))) hset
  split at hrun
  · cases hrun
    exact hr
  · cases hrun

/-- **`sem_restoreholderprio` restores the account of the holder.** -/
theorem semRestoreholderprio_spec (hbase : 1 ≤ k.basePriority h)
    (hrun : semRestoreholderprio sem stcb k h = .ok k') :
    Tuned k k' h ((k.acct h).restore (k.sched.prio stcb)) := by
  have hwf := hk.wf h
  have hbase' : k.basePriority h ≤ 255 := hwf.base_le.trans (hk.prio_le h)
  rw [semRestoreholderprio, if_neg (not_not_intro hm)] at hrun
  rw [restore]
  by_cases hcur : k.sched.prio h = k.basePriority h
  · rw [if_pos hcur] at hrun
    rw [if_pos (show (k.acct h).cur = (k.acct h).base from hcur)]
    cases hrun
    exact Tuned.refl hk h
  rw [if_neg hcur] at hrun
  rw [if_neg (show ¬ (k.acct h).cur = (k.acct h).base from hcur),
    show (k.acct h).pend = k.pendReprios h from rfl]
  split at hrun
  · rename_i hnone
    rw [hnone]
    obtain ⟨⟨s, x⟩, hset, hrun⟩ := bind_ok.mp hrun
    obtain ⟨rfl, ht⟩ := Tuned.of_setpriority [] hk hbase hbase' hset
    cases hrun
    have hsame : update k.basePriority h ((k.basePriority h : ℤ) % 256).toNat = k.basePriority := by
      rw [show ((k.basePriority h : ℤ) % 256).toNat = k.basePriority h by omega, update_eq_self]
    rw [hsame]
    exact ht
  · rename_i q rest hsome
    rw [hsome]
    obtain ⟨hperm, -⟩ := Bag.popHighest_spec hsome
    by_cases hle : k.sched.prio h ≤ k.sched.prio stcb
    · rw [if_pos hle] at hrun
      simp only
      rw [if_pos (show (k.acct h).cur ≤ _ from hle)]
      obtain ⟨⟨s, x⟩, hset, hrun⟩ := bind_ok.mp hrun
      cases hrun
      have hq := hwf.pend q (hperm.mem_iff.mp mem_cons_self)
      exact (Tuned.of_setpriority _ hk (by have := hq.1; omega) (hq.2.trans (hk.prio_le h)) hset).2
    · rw [if_neg hle] at hrun
      simp only
      rw [if_neg (show ¬ (k.acct h).cur ≤ _ from hle)]
      cases hrun
      exact Tuned.of_pend hk

theorem semRestoreholderprio_head (hr : (k.sched.list .readytorun).head? = some r) (hne : h ≠ r)
    (hrun : semRestoreholderprio sem stcb k h = .ok k') :
    (k'.sched.list .readytorun).head? = some r := by
  have hwf := hk.wf h
  rw [semRestoreholderprio, if_neg (not_not_intro hm)] at hrun
  split at hrun
  · cases hrun
    exact hr
  split at hrun
  · obtain ⟨⟨s, x⟩, hset, hrun⟩ := bind_ok.mp hrun
    have hhead := schedSetpriority_head hk.sched hr hne
      (Or.inl (by exact_mod_cast hwf.base_le)) hset
    simp only at hrun
    split at hrun
    all_goals
      cases hrun
      exact hhead
  · rename_i q rest hsome
    obtain ⟨hperm, -⟩ := Bag.popHighest_spec hsome
    split at hrun
    · obtain ⟨⟨s, x⟩, hset, hrun⟩ := bind_ok.mp hrun
      cases hrun
      have hq := (hwf.pend q (hperm.mem_iff.mp mem_cons_self)).2
      exact schedSetpriority_head hk.sched hr hne (Or.inl (by exact_mod_cast hq)) hset
    · cases hrun
      exact hr

end

/-! ### Passes over the holders -/

/-- The accounts of the tasks in `l` have changed by `g`, and nothing else. -/
structure TunedAll (k k' : PiKernel) (l : List Tid) (g : Tid → Account ℕ → Account ℕ) : Prop where
  acct_mem : ∀ h ∈ l, k'.acct h = g h (k.acct h)
  acct_other : ∀ h, h ∉ l → k'.acct h = k.acct h
  list : (k'.sched.list .waitingforsemaphore).Perm (k.sched.list .waitingforsemaphore)
  tasks : k'.tasks = k.tasks
  sem : k'.sem = k.sem
  waitsem : k'.waitsem = k.waitsem

variable {g g' : Tid → Account ℕ → Account ℕ}

theorem TunedAll.nil (k : PiKernel) : TunedAll k k [] g :=
  ⟨nofun, fun _ _ => rfl, Perm.refl _, rfl, rfl, rfl⟩

theorem TunedAll.cons (hh : h ∉ l) (h1 : Tuned k k₁ h (g h (k.acct h))) (h2 : TunedAll k₁ k' l g) :
    TunedAll k k' (h :: l) g := by
  refine ⟨fun c hc => ?_, fun c hc => ?_, h2.list.trans h1.list, h2.tasks.trans h1.tasks,
    h2.sem.trans h1.sem, h2.waitsem.trans h1.waitsem⟩
  · rcases eq_or_ne c h with rfl | hne
    · rw [h2.acct_other c hh, h1.acct, update_self]
    · rw [h2.acct_mem c ((mem_cons.mp hc).resolve_left hne), h1.acct_of_ne hne]
  · obtain ⟨hne, hnl⟩ := not_or.mp (mt mem_cons.mpr hc)
    rw [h2.acct_other c hnl, h1.acct_of_ne hne]

theorem TunedAll.trans (h1 : TunedAll k k₁ l g) (h2 : TunedAll k₁ k' l g') :
    TunedAll k k' l fun h a => g' h (g h a) := by
  refine ⟨fun c hc => ?_, fun c hc => ?_, h2.list.trans h1.list, h2.tasks.trans h1.tasks,
    h2.sem.trans h1.sem, h2.waitsem.trans h1.waitsem⟩
  · rw [h2.acct_mem c hc, h1.acct_mem c hc]
  · rw [h2.acct_other c hc, h1.acct_other c hc]

theorem foldlM_tunedAll {f : PiKernel → Tid → Os PiKernel} {G : List Tid → PiKernel → Prop}
    (hf : ∀ h l k k', h ∉ l → G (h :: l) k → f k h = .ok k' →
      Tuned k k' h (g h (k.acct h)) ∧ G l k')
    (hnd : l.Nodup) (hgood : G l k) (hrun : l.foldlM f k = .ok k') :
    TunedAll k k' l g ∧ G [] k' := by
  induction l generalizing k with
  | nil =>
    obtain rfl := Except.ok.inj hrun
    exact ⟨TunedAll.nil k, hgood⟩
  | cons h l ih =>
    obtain ⟨hh, hnd⟩ := nodup_cons.mp hnd
    obtain ⟨k₁, hstep, hrun⟩ := bind_ok.mp hrun
    obtain ⟨ht, hgood1⟩ := hf h l k k₁ hh hgood hstep
    obtain ⟨hall, hgood'⟩ := ih hnd hgood1 hrun
    exact ⟨hall.cons hh ht, hgood'⟩

/-- What is needed of the tasks in a list of holders. -/
def Holding (k : PiKernel) (l : List Tid) : Prop := ∀ h ∈ l, h ∈ k.tasks ∧ 1 ≤ k.basePriority h

theorem Holding.tail (hl : Holding k (h :: l)) (hh : h ∉ l) (ht : Tuned k k' h a) :
    Holding k' l := by
  intro c hc
  obtain ⟨hm, hb⟩ := hl c (mem_cons_of_mem h hc)
  have hbase := congrArg base (ht.acct_of_ne (ne_of_mem_of_not_mem hc hh))
  rw [ht.tasks, show k'.basePriority c = k.basePriority c from hbase]
  exact ⟨hm, hb⟩

/-- Before the tasks in `l` are boosted by the priority `p` of the task `r`. -/
structure BeforeBoost (cfg : PiConfig) (r : Tid) (p : ℕ) (l : List Tid) (k : PiKernel) : Prop where
  inv : PiInv k
  holding : Holding k l
  head : (k.sched.list .readytorun).head? = some r
  prio : k.sched.prio r = p
  room : ∀ h ∈ l, k.basePriority h < p → (k.pendReprios h).length < cfg.nnestprio

theorem BeforeBoost.step (hg : BeforeBoost cfg r p (h :: l) k) (hh : h ∉ l)
    (hrun : semBoostholderprio cfg sem r k h = .ok k') :
    Tuned k k' h ((k.acct h).boost p) ∧ BeforeBoost cfg r p l k' := by
  have hk := hg.inv
  have ht := semBoostholderprio_spec hk (hg.holding h mem_cons_self).1
    (by rw [hg.prio]; exact hg.room h mem_cons_self) hrun
  rw [hg.prio] at ht
  have hcur : ((k.acct h).boost p).cur ≤ 255 := by
    rw [boost]
    split
    · split
      · rw [← hg.prio]
        exact hk.prio_le r
      · exact hk.prio_le h
    · exact hk.prio_le h
  refine ⟨ht, hk.tuned ht ((hk.wf h).boost _) hcur base_boost, hg.holding.tail hh ht,
    semBoostholderprio_head hk (hg.holding h mem_cons_self).1 hg.head hrun, ?_,
    fun c hc => ?_⟩
  · -- a task that boosts itself does not change its own priority
    rw [ht.prio]
    rcases eq_or_ne r h with rfl | hne
    · have hnot : ¬ (k.acct r).cur < p := by
        rw [← hg.prio]
        exact Nat.lt_irrefl _
      rw [update_self, boost, if_neg hnot]
      split <;> exact hg.prio
    · rw [update_of_ne hne]
      exact hg.prio
  · have hacct := ht.acct_of_ne (ne_of_mem_of_not_mem hc hh)
    rw [show k'.basePriority c = k.basePriority c from congrArg base hacct,
      show k'.pendReprios c = k.pendReprios c from congrArg pend hacct]
    exact hg.room c (mem_cons_of_mem h hc)

/-- **Every holder is boosted.** -/
theorem foldlM_semBoostholderprio (hg : BeforeBoost cfg r p l k) (hnd : l.Nodup)
    (hrun : l.foldlM (semBoostholderprio cfg sem r) k = .ok k') :
    PiInv k' ∧ (k'.sched.list .readytorun).head? = some r ∧
      TunedAll k k' l fun _ a => a.boost p := by
  obtain ⟨hall, hgood⟩ := foldlM_tunedAll (g := fun _ a => a.boost p)
    (fun h l k k' hh hg hrun => hg.step hh hrun) hnd hg hrun
  exact ⟨hgood.inv, hgood.head, hall⟩

/-- Before the tasks in `l` are restored on account of the task `stcb` of priority `p`. When `stcb`
is among them itself, then it is not boosted. -/
structure BeforeRestore (stcb : Tid) (p : ℕ) (l : List Tid) (k : PiKernel) : Prop where
  inv : PiInv k
  holding : Holding k l
  prio : k.sched.prio stcb = p
  self : stcb ∈ l → k.sched.prio stcb = k.basePriority stcb

theorem BeforeRestore.step (hg : BeforeRestore stcb p (h :: l) k) (hh : h ∉ l)
    (hrun : semRestoreholderprio sem stcb k h = .ok k') :
    Tuned k k' h ((k.acct h).restore p) ∧ BeforeRestore stcb p l k' := by
  have hk := hg.inv
  obtain ⟨hm, hbase⟩ := hg.holding h mem_cons_self
  have ht := semRestoreholderprio_spec hk hm hbase hrun
  rw [hg.prio] at ht
  refine ⟨ht, hk.tuned ht ((hk.wf h).restore _) (((hk.wf h).cur_restore_le _).trans (hk.prio_le h))
    base_restore, hg.holding.tail hh ht, ?_, fun hc => ?_⟩
  · rw [ht.prio]
    rcases eq_or_ne stcb h with rfl | hne
    · have hself : (k.acct stcb).cur = (k.acct stcb).base := hg.self mem_cons_self
      rw [update_self, restore_of_eq hself]
      exact hg.prio
    · rw [update_of_ne hne]
      exact hg.prio
  · have hacct := ht.acct_of_ne (ne_of_mem_of_not_mem hc hh)
    rw [show k'.sched.prio stcb = k.sched.prio stcb from congrArg cur hacct,
      show k'.basePriority stcb = k.basePriority stcb from congrArg base hacct]
    exact hg.self (mem_cons_of_mem h hc)

/-- **Every holder is restored.** -/
theorem foldlM_semRestoreholderprio (hg : BeforeRestore stcb p l k) (hnd : l.Nodup)
    (hrun : l.foldlM (semRestoreholderprio sem stcb) k = .ok k') :
    PiInv k' ∧ TunedAll k k' l fun _ a => a.restore p := by
  obtain ⟨hall, hgood⟩ := foldlM_tunedAll (g := fun _ a => a.restore p)
    (fun h l k k' hh hg hrun => hg.step hh hrun) hnd hg hrun
  exact ⟨hgood.inv, hall⟩

/-- Before a pass over holders while the task `r` is running. -/
structure BeforeRestoreA (r stcb : Tid) (p : ℕ) (l : List Tid) (k : PiKernel) : Prop
    extends BeforeRestore stcb p l k where
  head : (k.sched.list .readytorun).head? = some r

theorem BeforeRestoreA.step (hg : BeforeRestoreA r stcb p (h :: l) k) (hh : h ∉ l)
    (hrun : semRestoreholderprioA sem stcb k h = .ok k') :
    Tuned k k' h (if h = r then k.acct h else (k.acct h).restore p) ∧
      BeforeRestoreA r stcb p l k' := by
  obtain ⟨r', hr, hrun⟩ := bind_ok.mp hrun
  obtain rfl := Option.some.inj ((rtcb_ok.mp hr).symm.trans hg.head)
  split at hrun
  · rename_i hne
    obtain ⟨ht, hnext⟩ := hg.toBeforeRestore.step hh hrun
    rw [if_neg hne]
    exact ⟨ht, hnext, semRestoreholderprio_head hg.inv (hg.holding h mem_cons_self).1 hg.head
      hne hrun⟩
  · rename_i heq
    cases hrun
    rw [if_pos (not_ne_iff.mp heq)]
    exact ⟨Tuned.refl hg.inv h, ⟨hg.inv, hg.holding.tail hh (Tuned.refl hg.inv h), hg.prio,
      fun hc => hg.self (mem_cons_of_mem h hc)⟩, hg.head⟩

/-- The second pass restores the running task, if it is a holder. -/
theorem semRestoreholderprioB_spec (hg : BeforeRestoreA r stcb p l k) (hnd : l.Nodup)
    (hrun : semRestoreholderprioB sem stcb l k = .ok k') :
    PiInv k' ∧ TunedAll k k' l fun h a => if h = r then a.restore p else a := by
  induction l with
  | nil =>
    cases hrun
    exact ⟨hg.inv, TunedAll.nil k⟩
  | cons h l ih =>
    obtain ⟨hh, hnd⟩ := nodup_cons.mp hnd
    obtain ⟨r', hr, hrun⟩ := bind_ok.mp hrun
    obtain rfl := Option.some.inj ((rtcb_ok.mp hr).symm.trans hg.head)
    split at hrun
    · rename_i heq
      subst heq
      obtain ⟨ht, hnext⟩ := hg.toBeforeRestore.step hh hrun
      refine ⟨hnext.inv, fun c hc => ?_, fun c hc => ?_, ht.list, ht.tasks, ht.sem, ht.waitsem⟩
      · rw [ht.acct]
        rcases eq_or_ne c h with rfl | hne
        · rw [update_self, if_pos rfl]
        · rw [update_of_ne hne, if_neg hne]
      · rw [ht.acct_of_ne fun heq => hc (heq ▸ mem_cons_self)]
    · rename_i hne
      have hrefl := Tuned.refl hg.inv h
      obtain ⟨hk', hall⟩ := ih ⟨⟨hg.inv, hg.holding.tail hh hrefl, hg.prio,
        fun hc => hg.self (mem_cons_of_mem h hc)⟩, hg.head⟩ hnd hrun
      exact ⟨hk', hall.cons hh (by rw [if_neg hne]; exact hrefl)⟩

/-- **The two passes of `sem_restorebaseprio` restore every holder.** -/
theorem restorePasses_spec (hg : BeforeRestoreA r stcb p (k.holders sem) k)
    (hA : (k.holders sem).foldlM (semRestoreholderprioA sem stcb) k = .ok k₁)
    (hB : semRestoreholderprioB sem stcb (k₁.holders sem) k₁ = .ok k') :
    PiInv k' ∧ TunedAll k k' (k.holders sem) fun _ a => a.restore p := by
  have hnd := hg.inv.nodup sem
  obtain ⟨hall1, hg1⟩ := foldlM_tunedAll (g := fun h a => if h = r then a else a.restore p)
    (G := BeforeRestoreA r stcb p) (fun h l k k' hh hg hrun => hg.step hh hrun) hnd hg hA
  have hbase : ∀ h, k₁.basePriority h = k.basePriority h := by
    intro h
    show (k₁.acct h).base = (k.acct h).base
    by_cases hm : h ∈ k.holders sem
    · rw [hall1.acct_mem h hm]
      split
      · rfl
      · exact base_restore
    · rw [hall1.acct_other h hm]
  have hself : stcb ∈ k.holders sem → k₁.sched.prio stcb = k₁.basePriority stcb := by
    intro hm
    rw [hg1.prio, hbase, ← hg.prio]
    exact hg.self hm
  rw [show k₁.holders sem = k.holders sem by rw [holders, hall1.sem]; rfl] at hB
  obtain ⟨hk', hall2⟩ := semRestoreholderprioB_spec ⟨⟨hg1.inv, fun h hm => by
    rw [hall1.tasks, hbase]
    exact hg.holding h hm, hg1.prio, hself⟩, hg1.head⟩ hnd hB
  refine ⟨hk', ?_⟩
  have hcomp := hall1.trans hall2
  refine ⟨fun h hm => (hcomp.acct_mem h hm).trans ?_, hcomp.acct_other, hcomp.list, hcomp.tasks,
    hcomp.sem, hcomp.waitsem⟩
  by_cases hr : h = r
  · simp only [if_pos hr]
  · simp only [if_neg hr]

theorem semRestoreholderprio_frame (hrun : semRestoreholderprio sem stcb k h = .ok k') :
    k'.waitsem = k.waitsem ∧ k'.tasks = k.tasks := by
  rw [semRestoreholderprio] at hrun
  split at hrun
  · cases hrun
    exact ⟨(semFreeholder_spec k sem h).1.waitsem, (semFreeholder_spec k sem h).1.tasks⟩
  split at hrun
  · cases hrun
    exact ⟨rfl, rfl⟩
  split at hrun
  · obtain ⟨⟨s, x⟩, -, hrun⟩ := bind_ok.mp hrun
    simp only at hrun
    split at hrun
    all_goals
      cases hrun
      exact ⟨rfl, rfl⟩
  split at hrun
  · obtain ⟨⟨s, x⟩, -, hrun⟩ := bind_ok.mp hrun
    cases hrun
    exact ⟨rfl, rfl⟩
  · cases hrun
    exact ⟨rfl, rfl⟩

theorem foldlM_semRestoreholderprioA_waitsem
    (hrun : l.foldlM (semRestoreholderprioA sem stcb) k = .ok k') : k'.waitsem = k.waitsem := by
  induction l generalizing k with
  | nil =>
    cases hrun
    rfl
  | cons h l ih =>
    obtain ⟨k₁, hstep, hrun⟩ := bind_ok.mp hrun
    rw [ih hrun]
    obtain ⟨r, -, hstep⟩ := bind_ok.mp hstep
    split at hstep
    · exact (semRestoreholderprio_frame hstep).1
    · cases hstep
      rfl

theorem semRestoreholderprioB_waitsem (hrun : semRestoreholderprioB sem stcb l k = .ok k') :
    k'.waitsem = k.waitsem := by
  induction l with
  | nil =>
    cases hrun
    rfl
  | cons h l ih =>
    obtain ⟨r, -, hrun⟩ := bind_ok.mp hrun
    split at hrun
    · exact (semRestoreholderprio_frame hrun).1
    · exact ih hrun

end NuttX
