import NuttX.Sched.Lists

/-!
# The scheduler invariant

`NuttX.SchedInv` is what holds between the operations of the scheduler: the lists agree with the
states (`NuttX.ListInv`), the head of `g_readytorun` is the running task (`NuttX.HeadInv`), and
tasks are held back in `g_pendingtasks` only while the running task has pre-emption disabled. Each
operation that returns keeps it. Whether an operation returns is another matter: it needs the idle
task at the end of the list, and is settled in the file on runs.
-/

namespace NuttX

open Function TaskState Prio List Option

/-- The invariant of the scheduler. -/
structure SchedInv (s : Sched) : Prop extends ListInv s, HeadInv s where
  locked : s.list .pendingtasks ≠ [] → ∀ h ∈ (s.list .readytorun).head?, 0 < s.lockcount h

variable {s s' : Sched} {t c : Tid} {p n : ℕ} {st : TaskState} {L : TaskList} {l : List Tid}
  {cfg : SchedConfig} {r : Tid} {q : ℤ} {irq : Bool} {rr : Bool}

theorem SchedInv.of_eq (h : SchedInv s) (hl : s'.list = s.list) (hs : s'.state = s.state)
    (hp : s'.prio = s.prio)
    (hlock : s.list .pendingtasks ≠ [] →
      ∀ r ∈ (s.list .readytorun).head?, 0 < s'.lockcount r) : SchedInv s' :=
  ⟨h.toListInv.of_eq hl hs hp, h.toHeadInv.of_eq hl hs, by rw [hl]; exact hlock⟩

theorem SchedInv.exists_head (h : SchedInv s) : ∃ r l, s.list .readytorun = r :: l :=
  exists_cons_of_ne_nil h.ne_nil

theorem Merged.schedInv (hm : Merged s s' r) (hh : HeadInv s) : SchedInv s' :=
  ⟨hm.inv, hm.head hh, fun hne => absurd hm.pending hne⟩

theorem mergeIfPending_spec (h : ListInv s) (hl : s.list .readytorun = r :: l)
    (hrun : mergeIfPending s = .ok s') : Merged s s' r := by
  rw [mergeIfPending] at hrun
  split at hrun
  · rename_i hnil
    cases hrun
    exact ⟨h, Frame.refl s, fun _ => Iff.rfl, hnil, fun c => by simp [hnil], id,
      by simp [hnil, hl], rfl⟩
  · obtain ⟨⟨s1, b⟩, hmerge, hrest⟩ := bind_ok.mp hrun
    cases hrest
    exact schedMergepending_spec h hl hmerge

theorem exists_mergeIfPending
    (hlow : ∃ b ∈ s.list .readytorun, ∀ a ∈ s.list .pendingtasks, s.prio b < s.prio a) :
    ∃ s', mergeIfPending s = .ok s' := by
  rw [mergeIfPending]
  split
  · exact ⟨s, rfl⟩
  · obtain ⟨s', b, hrun⟩ := exists_schedMergepending hlow
    exact ⟨s', by rw [hrun, ok_bind]⟩

/-! ### Blocking and unblocking -/

/-- The list of a blocked state once a task has been added. -/
def Sched.blockList (s : Sched) (t : Tid) (L : TaskList) : List Tid :=
  if L.prioritized then Prio.insert s.prio t (s.list L) else s.list L ++ [t]

theorem Sched.mem_blockList : c ∈ s.blockList t L ↔ c = t ∨ c ∈ s.list L := by
  rw [blockList]
  split
  · exact mem_insert
  · rw [mem_append, mem_singleton, or_comm]

/-- What `up_block_task` does to the running task. -/
structure Blocked (s s' : Sched) (t : Tid) (st : TaskState) : Prop where
  inv : SchedInv s'
  prio : s'.prio = s.prio
  lockcount : s'.lockcount = s.lockcount
  live : ∀ c, s'.state c = .invalid ↔ s.state c = .invalid
  state : s'.state t = st
  isBlocked : st.isBlocked = true
  list : ∃ L, st.list = some L ∧ L.isBlocked = true ∧ s'.list L = s.blockList t L ∧
    ∀ M, M.isBlocked = true → M ≠ L → s'.list M = s.list M
  last : (s'.list .readytorun).getLast? = (s.list .readytorun).getLast?

theorem upBlockTask_spec (h : SchedInv s) (ht : (s.list .readytorun).head? = some t)
    (hrun : upBlockTask s t st = .ok s') : Blocked s s' t st := by
  have htm : t ∈ s.list .readytorun := mem_of_mem_head? ht
  rw [upBlockTask, if_pos (h.ready_iff.mp htm)] at hrun
  obtain ⟨⟨s1, b⟩, hrem, hrun⟩ := bind_ok.mp hrun
  obtain ⟨s2, hadd, hmerge⟩ := bind_ok.mp hrun
  have hr := schedRemovereadytorun_spec h.toListInv htm hrem
  obtain ⟨hinv2, hprio2, hlock2, hstate₂, hblk, L, hL, hLb, hlist2⟩ :=
    schedAddblocked_spec hr.inv hr.state hadd
  have hready₂ : s2.list .readytorun = s1.list .readytorun := by
    rw [hlist2, update_of_ne (TaskList.ne_readytorun hLb).symm]
  have hnr : st ≠ .running := by
    rintro rfl
    cases hblk
  have hhead2 : HeadInv s2 := by
    refine ⟨fun c => ?_, by rw [hready₂]; exact hr.ne_nil⟩
    rw [hready₂, hstate₂, ← (hr.head h.toHeadInv).running_iff]
    rcases eq_or_ne c t with rfl | hc
    · simp [hnr, hr.state]
    · rw [update_of_ne hc]
  obtain ⟨r, l, hl⟩ := exists_cons_of_ne_nil hhead2.ne_nil
  have hm := mergeIfPending_spec hinv2 hl hmerge
  have hlistb : ∀ M, M.isBlocked = true → s'.list M = update s1.list L
      (if L.prioritized then insert s1.prio t (s1.list L) else s1.list L ++ [t]) M := by
    intro M hM
    rw [hm.frame.blocked M hM, hlist2]
  refine ⟨hm.schedInv hhead2, by rw [hm.frame.prio, hprio2, hr.frame.prio],
    by rw [hm.frame.lockcount, hlock2, hr.frame.lockcount], fun c => ?_, ?_, hblk,
    ⟨L, hL, hLb, ?_, fun M hM hML => ?_⟩, ?_⟩
  · rw [hm.live c, hstate₂]
    rcases eq_or_ne c t with rfl | hc
    · have hlive : (s.state c).list = some .readytorun := (h.mem_iff c _).mp htm
      rw [update_self, eq_invalid_iff, eq_invalid_iff, hL, hlive]
      simp
    · rw [update_of_ne hc]
      exact hr.live c hc
  · -- merging does not move a blocked task
    have hmem : t ∈ s'.list L := by
      rw [hlistb L hLb, update_self]
      split
      · exact mem_insert.mpr (Or.inl rfl)
      · simp
    rw [hm.inv.mem_iff] at hmem
    cases st <;> cases hblk <;> cases hL <;>
      (cases hst : s'.state t <;> rw [hst] at hmem <;> first | rfl | cases hmem)
  · rw [hlistb L hLb, update_self, Sched.blockList, hr.frame.prio, hr.frame.blocked L hLb]
  · rw [hlistb M hM, update_of_ne hML, hr.frame.blocked M hM]
  · rw [hm.last, hready₂, hr.ready]
    obtain ⟨l', hl'⟩ := head?_eq_some_iff.mp ht
    rw [hl', erase_cons_head]
    have hne := hr.ne_nil
    rw [hr.ready, hl', erase_cons_head] at hne
    obtain ⟨x, l'', rfl⟩ := exists_cons_of_ne_nil hne
    rw [getLast?_cons_cons]

theorem Blocked.list_eq (hb : Blocked s s' t st) (hL : st.list = some L) :
    s'.list L = s.blockList t L := by
  obtain ⟨M, hM, -, hlist, -⟩ := hb.list
  obtain rfl : M = L := some.inj (hM.symm.trans hL)
  exact hlist

theorem Blocked.list_of_ne (hb : Blocked s s' t st) (hL : st.list = some L) {M : TaskList}
    (hM : M.isBlocked = true) (hne : M ≠ L) : s'.list M = s.list M := by
  obtain ⟨K, hK, -, -, hlist⟩ := hb.list
  obtain rfl : K = L := some.inj (hK.symm.trans hL)
  exact hlist M hM hne

/-- What `up_unblock_task` does to a blocked task. -/
structure Unblocked (s s' : Sched) (t : Tid) : Prop where
  inv : SchedInv s'
  prio : s'.prio = s.prio
  lockcount : s'.lockcount = s.lockcount
  live : ∀ c, s'.state c = .invalid ↔ s.state c = .invalid
  list : ∀ M, M.isBlocked = true → s'.list M = (s.list M).erase t
  lists : ∀ r l, s.list .readytorun = r :: l →
    if 0 < s.lockcount r ∧ s.prio r < s.prio t then
      s'.list .readytorun = s.list .readytorun ∧
        s'.list .pendingtasks = Prio.insert s.prio t (s.list .pendingtasks)
    else
      s'.list .readytorun = Prio.insert s.prio t (s.list .readytorun) ∧
        s'.list .pendingtasks = s.list .pendingtasks

theorem Unblocked.list_of_notMem (hu : Unblocked s s' t) (hL : L.isBlocked = true)
    (ht : t ∉ s.list L) : s'.list L = s.list L := by
  rw [hu.list L hL, erase_of_not_mem ht]

/-- Adding a task keeps back only what is above a locked running task. -/
theorem Added.locked {b : Bool} (ha : Added s s' r t b) (hl : s.list .readytorun = r :: l)
    (hlock : s.list .pendingtasks ≠ [] → 0 < s.lockcount r) (hh : HeadInv s) : SchedInv s' := by
  refine ⟨ha.inv, ha.head hh, fun hne x hx => ?_⟩
  have hlists := ha.lists
  rw [ha.frame.lockcount]
  split at hlists
  · rename_i hc
    rw [hlists.1, hl, head?_cons, mem_some_iff] at hx
    exact hx ▸ hc.1
  rename_i hc
  rw [hlists.2] at hne
  have hpos := hlock hne
  -- the running task is locked, so the new task is not above it
  have hle : s.prio t ≤ s.prio r := by
    by_contra hcon
    exact hc ⟨hpos, by omega⟩
  rw [hlists.1, hl, head?_insert, if_neg (ahead_cons_ne_nil hle), head?_cons, mem_some_iff] at hx
  exact hx ▸ hpos

/-- Taking a task that does not run out of its list. -/
theorem SchedInv.remove (h : SchedInv s) (hL : (s.state t).list = some L)
    (hrun : s.state t ≠ .running) : SchedInv ((s.dqRem t L).setState t .invalid) := by
  obtain ⟨r, l, hl⟩ := h.exists_head
  have hrt : r ≠ t := by
    rintro rfl
    exact hrun ((h.running_iff r).mpr (by rw [hl]; rfl))
  have hhead : (((s.dqRem t L).setState t .invalid).list .readytorun).head? = some r := by
    rw [Sched.list_setState, Sched.list_dqRem]
    rcases eq_or_ne TaskList.readytorun L with rfl | hne
    · rw [update_self, hl, erase_cons_tail (by simpa using hrt)]
      rfl
    · rw [update_of_ne hne, hl]
      rfl
  refine ⟨h.toListInv.remove hL, ⟨fun c => ?_, ?_⟩, fun hne c hc => ?_⟩
  · rw [hhead, Sched.state_setState, Sched.state_dqRem]
    rcases eq_or_ne c t with rfl | hct
    · simp [hrt]
    · rw [update_of_ne hct, h.running_iff, hl]
      rfl
  · intro hnil
    rw [hnil] at hhead
    cases hhead
  · rw [hhead, mem_some_iff] at hc
    subst hc
    rw [Sched.lockcount_setState, Sched.lockcount_dqRem]
    refine h.locked (fun hnil => hne ?_) r (by rw [hl]; rfl)
    rw [Sched.list_setState, Sched.list_dqRem]
    rcases eq_or_ne TaskList.pendingtasks L with rfl | hne'
    · rw [update_self, hnil]
      rfl
    · rw [update_of_ne hne', hnil]

theorem upUnblockTask_eq (cfg : SchedConfig) (hb : (s.state t).isBlocked = true)
    (hL : (s.state t).list = some L) :
    ∃ s1, s1.list = ((s.dqRem t L).setState t .invalid).list ∧
      s1.state = ((s.dqRem t L).setState t .invalid).state ∧ s1.prio = s.prio ∧
      s1.lockcount = s.lockcount ∧
      upUnblockTask cfg s t = (do let (s, _) ← schedAddreadytorun s1 t; .ok s) := by
  refine ⟨_, ?_, ?_, ?_, ?_, by rw [upUnblockTask, if_pos hb, schedRemoveblocked_eq hb hL, ok_bind]⟩
  all_goals split <;> simp

theorem upUnblockTask_spec (h : SchedInv s) (hb : (s.state t).isBlocked = true)
    (hrun : upUnblockTask cfg s t = .ok s') : Unblocked s s' t := by
  obtain ⟨L, hL, hLb⟩ := exists_list hb
  obtain ⟨s1, hlist1, hstate₁, hprio1, hlock1, heq⟩ := upUnblockTask_eq cfg hb hL
  rw [heq] at hrun
  obtain ⟨⟨s2, b⟩, hadd, hrest⟩ := bind_ok.mp hrun
  cases hrest
  have hnr : s.state t ≠ .running := by
    intro hrun
    rw [hrun] at hb
    cases hb
  have h1 : SchedInv s1 := by
    refine (h.remove hL hnr).of_eq hlist1 hstate₁ (by rw [hprio1]; simp) ?_
    rw [hlock1]
    simpa using (h.remove hL hnr).locked
  have hready : s1.list .readytorun = s.list .readytorun := by
    simp [hlist1, (TaskList.ne_readytorun hLb).symm]
  have hpend : s1.list .pendingtasks = s.list .pendingtasks := by
    simp [hlist1, (TaskList.ne_pendingtasks hLb).symm]
  obtain ⟨r, l, hl⟩ := h1.exists_head
  have ha := schedAddreadytorun_spec h1.toListInv (by simp [hstate₁]) hl hadd
  refine ⟨ha.locked hl (fun hne => h1.locked hne r (by simp [hl])) h1.toHeadInv,
    by rw [ha.frame.prio, hprio1], by rw [ha.frame.lockcount, hlock1], fun c => ?_,
    fun M hM => ?_, fun r' l' hl' => ?_⟩
  · rcases eq_or_ne c t with rfl | hc
    · exact iff_of_false ha.state (h.live ((h.mem_iff c L).mpr hL))
    · rw [ha.live c hc, hstate₁, Sched.state_setState, update_of_ne hc]
      rfl
  · rw [ha.frame.blocked M hM, hlist1, Sched.list_setState, Sched.list_dqRem]
    rcases eq_or_ne M L with rfl | hML
    · rw [update_self]
    · rw [update_of_ne hML, erase_of_not_mem]
      rw [h.mem_iff, hL]
      exact fun hcon => hML (some.inj hcon).symm
  · have hrr : r = r' := by
      rw [hready, hl'] at hl
      exact (cons.inj hl).1.symm
    have hlists := ha.lists
    rw [hprio1, hlock1, hready, hpend, hrr] at hlists
    exact hlists

/-! ### The last task of a list -/

theorem getLast?_erase {x : Tid} (hx : x ≠ t) (hlast : l.getLast? = some x) :
    (l.erase t).getLast? = some x := by
  obtain ⟨ys, rfl⟩ := getLast?_eq_some_iff.mp hlast
  by_cases hm : t ∈ ys
  · rw [erase_append_left _ hm]
    simp
  · rw [erase_append_right _ hm, erase_cons_tail (by simpa using hx)]
    simp

theorem Added.last {r x : Tid} {b : Bool} (ha : Added s s' r t b) (hx : s.prio x < s.prio t)
    (hlast : (s.list .readytorun).getLast? = some x) :
    (s'.list .readytorun).getLast? = some x := by
  have hlists := ha.lists
  split at hlists
  · rw [hlists.1, hlast]
  · rw [hlists.1, getLast?_insert, hlast]
    exact behind_ne_nil (mem_of_mem_getLast? hlast) hx

/-! ### Changing a priority -/

theorem ListInv.not_blocked (h : ListInv s) (ht : t ∈ s.list .readytorun)
    (hL : L.isBlocked = true) : (s.state t).list ≠ some L := by
  rw [(h.mem_iff t _).mp ht]
  rintro ⟨⟩
  cases hL

/-- What changing the priority of a task does. -/
structure Reprioritized (s s' : Sched) (t : Tid) (p : ℕ) : Prop where
  inv : SchedInv s'
  prio : s'.prio = update s.prio t p
  lockcount : s'.lockcount = s.lockcount
  live : ∀ c, s'.state c = .invalid ↔ s.state c = .invalid
  list : ∀ M, M.isBlocked = true → s'.list M =
    if (s.state t).list = some M ∧ M.prioritized = true then
      Prio.insert (update s.prio t p) t ((s.list M).erase t)
    else s.list M
  last : ∀ x, x ≠ t → s.prio x < p → (s.list .readytorun).getLast? = some x →
    (s'.list .readytorun).getLast? = some x

theorem readd_spec (h : SchedInv s) (ht : t ∈ s.list .readytorun) {s1 s2 : Sched} {b b' : Bool}
    (hrem : schedRemovereadytorun s t = .ok (s1, b))
    (hadd : schedAddreadytorun (s1.setPrio t p) t = .ok (s2, b')) :
    Removed s s1 t b ∧ ∃ r l, s1.list .readytorun = r :: l ∧ r ≠ t ∧
      Added (s1.setPrio t p) s2 r t b' ∧ HeadInv (s1.setPrio t p) := by
  have hr := schedRemovereadytorun_spec h.toListInv ht hrem
  obtain ⟨r, l, hl⟩ := exists_cons_of_ne_nil hr.ne_nil
  have hnot : ∀ L, t ∉ s1.list L := fun L => hr.inv.notMem hr.state
  refine ⟨hr, r, l, hl, ?_, ?_, ?_⟩
  · rintro rfl
    exact hnot .readytorun (by rw [hl]; simp)
  · exact schedAddreadytorun_spec (hr.inv.setPrio fun L _ => hnot L)
      (by rw [Sched.state_setPrio]; exact hr.state) hl hadd
  · exact (hr.head h.toHeadInv).of_eq rfl Sched.state_setPrio

/-- A task that is not the running one has been taken out. -/
theorem Removed.head_eq (hr : Removed s s' t false) (hl : s'.list .readytorun = r :: l) :
    (s.list .readytorun).head? = some r := by
  have hready := hr.ready
  have hnot : (s.list .readytorun).head? ≠ some t := fun hc => nomatch hr.changed_iff.mpr hc
  cases hm : s.list .readytorun with
  | nil => simp [hl, hm] at hready
  | cons a m =>
    have hat : a ≠ t := fun hat => hnot (by rw [hm, hat]; rfl)
    rw [hl, hm, erase_cons_tail (by simpa using hat)] at hready
    rw [(cons.inj hready).1]
    rfl

theorem upReprioritizeRtr_spec (h : SchedInv s) (ht : t ∈ s.list .readytorun)
    (hrun : upReprioritizeRtr s t p = .ok s') : Reprioritized s s' t p := by
  rw [upReprioritizeRtr] at hrun
  split at hrun
  swap
  · cases hrun
  obtain ⟨⟨s1, b⟩, hrem, hrun⟩ := bind_ok.mp hrun
  obtain ⟨⟨s2, b'⟩, hadd, hrun⟩ := bind_ok.mp hrun
  obtain ⟨hr, r, l, hl, hrt, ha, hhead⟩ := readd_spec h ht hrem hadd
  have hlive2 : ∀ c, s2.state c = .invalid ↔ s.state c = .invalid := by
    intro c
    rcases eq_or_ne c t with rfl | hc
    · exact iff_of_false ha.state (h.live ht)
    · rw [ha.live c hc, Sched.state_setPrio]
      exact hr.live c hc
  have hprio2 : s2.prio = update s.prio t p := by
    rw [ha.frame.prio, Sched.prio_setPrio, hr.frame.prio]
  have hlock2 : s2.lockcount = s.lockcount := by
    rw [ha.frame.lockcount, Sched.lockcount_setPrio, hr.frame.lockcount]
  have hblk2 : ∀ M, M.isBlocked = true → s2.list M = s.list M := by
    intro M hM
    rw [ha.frame.blocked M hM, Sched.list_setPrio, hr.frame.blocked M hM]
  have hlast2 : ∀ x, x ≠ t → s.prio x < p → (s.list .readytorun).getLast? = some x →
      (s2.list .readytorun).getLast? = some x := by
    intro x hx hlt hlast
    refine ha.last ?_ ?_
    · rw [Sched.prio_setPrio, hr.frame.prio, update_of_ne hx, update_self]
      exact hlt
    · rw [Sched.list_setPrio, hr.ready]
      exact getLast?_erase hx hlast
  simp only at hrun
  split at hrun
  · -- the running task changes, so the pending tasks are merged
    obtain ⟨r2, l2, hl2⟩ := exists_cons_of_ne_nil (ha.head hhead).ne_nil
    have hm := mergeIfPending_spec ha.inv hl2 hrun
    refine ⟨hm.schedInv (ha.head hhead), by rw [hm.frame.prio, hprio2],
      by rw [hm.frame.lockcount, hlock2], fun c => (hm.live c).trans (hlive2 c), fun M hM => ?_,
      fun x hx hlt hlast => by rw [hm.last]; exact hlast2 x hx hlt hlast⟩
    rw [hm.frame.blocked M hM, hblk2 M hM, if_neg fun hc => h.not_blocked ht hM hc.1]
  rename_i hxor
  cases hrun
  have hbb : b = b' := by
    revert hxor
    cases b <;> cases b' <;> simp
  refine ⟨?_, hprio2, hlock2, hlive2, fun M hM => ?_, hlast2⟩
  · -- the running task is the same as before
    cases b with
    | true =>
      -- it was removed and put back at the head
      refine ⟨ha.inv, ha.head hhead, fun hne x hx => ?_⟩
      have hcond := ha.changed_iff.mp hbb.symm
      have hlists := ha.lists
      rw [if_neg (by omega)] at hlists
      rw [hlists.2, Sched.list_setPrio, hr.pending] at hne
      rw [hlists.1, Sched.list_setPrio, hl, insert_cons_of_lt hcond.2, head?_cons,
        mem_some_iff] at hx
      rw [hlock2, ← hx]
      exact h.locked hne t (hr.changed_iff.mp rfl)
    | false =>
      refine ha.locked hl (fun hne => ?_) hhead
      rw [Sched.list_setPrio, hr.pending] at hne
      rw [Sched.lockcount_setPrio, hr.frame.lockcount]
      exact h.locked hne r (hr.head_eq hl)
  · rw [hblk2 M hM, if_neg fun hc => h.not_blocked ht hM hc.1]

/-- Moving a task within its list together with a change of its priority. -/
theorem ListInv.reinsert (h : ListInv s) (hL : (s.state t).list = some L)
    (hlist : s'.list = update s.list L l) (hstate : s'.state = s.state)
    (hprio : s'.prio = update s.prio t p) (hperm : l.Perm (s.list L))
    (hsort : L.prioritized = true → Desc (update s.prio t p) l) : ListInv s' := by
  have hm : t ∈ s.list L := (h.mem_iff t L).mpr hL
  -- the task is taken out, and put in again with the new priority
  have hrem := h.remove hL
  have hset : ListInv (((s.dqRem t L).setState t .invalid).setPrio t p) :=
    hrem.setPrio fun M _ => hrem.notMem (by simp)
  have hadd := hset.add (t := t) (by simp) hL (by simpa using hperm.trans (perm_cons_erase hm))
    (by simpa using hsort)
  exact hadd.of_eq (by simp [hlist]) (by simp [hstate]) (by simp [hprio])

theorem SchedInv.reinsert (h : SchedInv s) (hL : (s.state t).list = some L)
    (hne : L ≠ .readytorun) (hlist : s'.list = update s.list L l)
    (hstate : s'.state = s.state) (hprio : s'.prio = update s.prio t p)
    (hlock : s'.lockcount = s.lockcount) (hperm : l.Perm (s.list L))
    (hsort : L.prioritized = true → Desc (update s.prio t p) l) : SchedInv s' := by
  have hready : s'.list .readytorun = s.list .readytorun := by
    rw [hlist, update_of_ne hne.symm]
  refine ⟨h.toListInv.reinsert hL hlist hstate hprio hperm hsort,
    ⟨by rw [hready, hstate]; exact h.running_iff, by rw [hready]; exact h.ne_nil⟩, ?_⟩
  rw [hready, hlock]
  intro hpend
  refine h.locked fun hnil => hpend ?_
  rw [hlist]
  rcases eq_or_ne L .pendingtasks with rfl | hLp
  · rw [hnil] at hperm
    exact hperm.eq_nil
  · rw [update_of_ne hLp.symm, hnil]

theorem Reprioritized.raise {next : Tid} (h : SchedInv s)
    (hl : s.list .readytorun = t :: next :: l) (hp : s.prio next < p) :
    Reprioritized s (s.setPrio t p) t p := by
  have ht : t ∈ s.list .readytorun := by simp [hl]
  have hnd := h.nodup .readytorun
  have hsort : Desc s.prio (t :: next :: l) := hl ▸ h.sorted .readytorun rfl
  rw [hl] at hnd
  have hsort' : Desc (update s.prio t p) (t :: next :: l) := by
    obtain ⟨hnt, -⟩ := nodup_cons.mp hnd
    obtain ⟨-, htail⟩ := pairwise_cons.mp hsort
    have hne : ∀ c ∈ next :: l, c ≠ t := by
      rintro c hc rfl
      exact hnt hc
    refine pairwise_cons.mpr ⟨fun c hc => ?_, Desc.congr htail fun c hc => ?_⟩
    · rw [update_self, update_of_ne (hne c hc)]
      rcases mem_cons.mp hc with rfl | hc
      · exact hp.le
      · exact ((pairwise_cons.mp htail).1 c hc).trans hp.le
    · exact update_of_ne (hne c hc) _ _
  refine ⟨⟨h.toListInv.reinsert ((h.mem_iff t _).mp ht) (l := t :: next :: l) ?_ (by simp) (by simp)
    (by rw [hl]) fun _ => hsort', h.toHeadInv.of_eq rfl (by simp), by simpa using h.locked⟩,
    by simp, by simp, by simp, fun M hM => ?_, fun x _ _ hx => hx⟩
  · rw [Sched.list_setPrio, ← hl, update_eq_self]
  · rw [if_neg fun hc => h.not_blocked ht hM hc.1, Sched.list_setPrio]

theorem SchedInv.eq_head (h : SchedInv s) (ht : s.state t = .running) :
    ∃ l, s.list .readytorun = t :: l :=
  head?_eq_some_iff.mp ((h.running_iff t).mp ht)

/-- Changing the priority of a task that is not ready to run. -/
theorem schedSetpriority_default (h : SchedInv s) (hL : (s.state t).list = some L)
    (hne : L ≠ .readytorun) (hprio : (s.state t).prioritized = true) {q : ℕ} {b : Bool}
    (hrun : schedAddprioritized ((s.dqRem t L).setPrio t q) t L = .ok (s', b)) :
    Reprioritized s s' t q := by
  obtain ⟨-, rfl, -⟩ := schedAddprioritized_ok.mp hrun
  have hm : t ∈ s.list L := (h.mem_iff t L).mpr hL
  have hsort : Desc (update s.prio t q) ((s.list L).erase t) := by
    rw [prioritized_eq hL] at hprio
    refine ((h.sorted L hprio).sublist erase_sublist).congr fun c hc =>
      update_of_ne ?_ _ _
    rintro rfl
    exact (h.nodup L).not_mem_erase hc
  have hperm : (insert (update s.prio t q) t ((s.list L).erase t)).Perm (s.list L) :=
    insert_perm.trans (perm_cons_erase hm).symm
  have hlist : (((s.dqRem t L).setPrio t q).setList L
      (insert ((s.dqRem t L).setPrio t q).prio t (((s.dqRem t L).setPrio t q).list L))).list =
        update s.list L (insert (update s.prio t q) t ((s.list L).erase t)) := by
    simp
  refine ⟨h.reinsert hL hne hlist (by simp) (by simp) (by simp) hperm fun _ => hsort.insert,
    by simp, by simp, by simp, fun M hM => ?_, fun x _ _ hx => ?_⟩
  · rw [hlist]
    rcases eq_or_ne M L with rfl | hML
    · rw [update_self, if_pos ⟨hL, by rw [← prioritized_eq hL, hprio]⟩]
    · rw [update_of_ne hML, if_neg]
      rintro ⟨hM', -⟩
      rw [hL] at hM'
      exact hML (some.inj hM').symm
  · rw [hlist, update_of_ne hne.symm]
    exact hx

def LegalPriority (p : ℤ) : Prop := 1 ≤ p ∧ p ≤ 255

instance (p : ℤ) : Decidable (LegalPriority p) := inferInstanceAs (Decidable (_ ∧ _))

/-- **`sched_setpriority` changes one priority** and keeps the invariant. -/
theorem schedSetpriority_spec (h : SchedInv s) {p : ℤ} (hp : LegalPriority p) {r : Status}
    (hrun : schedSetpriority s t p = .ok (s', r)) : Reprioritized s s' t p.toNat ∧ r = .ok := by
  obtain ⟨hp1, hp2⟩ := hp
  have hq : 1 ≤ p.toNat := by omega
  rw [schedSetpriority, if_neg (by simp only [schedPriorityMin, schedPriorityMax]; omega)] at hrun
  cases hst : s.state t with
  | running =>
    simp only [hst] at hrun
    obtain ⟨l, hl⟩ := h.eq_head hst
    rw [hl] at hrun
    cases l with
    | nil => simp [flink] at hrun
    | cons next l =>
      simp only [flink_head] at hrun
      split at hrun
      · obtain ⟨s1, hrep, hrest⟩ := bind_ok.mp hrun
        cases hrest
        exact ⟨upReprioritizeRtr_spec h (by rw [hl]; simp) hrep, rfl⟩
      · cases hrun
        exact ⟨Reprioritized.raise h hl (by omega), rfl⟩
  | readyToRun =>
    simp only [hst] at hrun
    have ht : t ∈ s.list .readytorun := (h.mem_iff t _).mpr (by rw [hst]; rfl)
    obtain ⟨rtcb, l, hl⟩ := h.exists_head
    rw [hl, head?_cons] at hrun
    simp only at hrun
    split at hrun
    · obtain ⟨s1, hrep, hrest⟩ := bind_ok.mp hrun
      cases hrest
      exact ⟨upReprioritizeRtr_spec h ht hrep, rfl⟩
    obtain ⟨⟨s1, b⟩, hrem, hrun⟩ := bind_ok.mp hrun
    obtain ⟨u, hb, hrun⟩ := bind_ok.mp hrun
    obtain ⟨⟨s2, b'⟩, hadd, hrun⟩ := bind_ok.mp hrun
    obtain ⟨u', hb', hrun⟩ := bind_ok.mp hrun
    cases hrun
    rw [osAssert_ok, Bool.not_eq_true'] at hb hb'
    subst hb hb'
    -- the same moves as in `up_reprioritize_rtr`, without a switch
    refine ⟨upReprioritizeRtr_spec h ht ?_, rfl⟩
    rw [upReprioritizeRtr, if_pos ⟨by rw [hst]; rfl, hq⟩, hrem, ok_bind]
    simp only
    rw [hadd, ok_bind]
    rfl
  | pending | waitSem | waitMqNotEmpty | waitMqNotFull =>
    simp only [hst, prioritized, list, if_true] at hrun
    obtain ⟨⟨s1, b⟩, hadd, hrest⟩ := bind_ok.mp hrun
    cases hrest
    exact ⟨schedSetpriority_default h (by rw [hst]; rfl) (by simp) (by rw [hst]; rfl) hadd, rfl⟩
  | invalid | inactive | waitSig =>
    simp only [hst, prioritized] at hrun
    cases hrun
    have hnot : ∀ L, L.prioritized = true → t ∉ s.list L := by
      intro L hL hm
      rw [h.mem_iff, hst] at hm
      cases hm <;> cases hL
    refine ⟨⟨⟨h.toListInv.setPrio hnot, h.toHeadInv.of_eq rfl (by simp), by simpa using h.locked⟩,
      by simp, by simp, by simp, fun M hM => ?_, fun x _ _ hx => hx⟩, rfl⟩
    rw [if_neg, Sched.list_setPrio]
    rintro ⟨hM', hMp⟩
    exact hnot M hMp ((h.mem_iff t M).mpr hM')

/-- A ready task that does not run is taken out and put back: the running task stays the same unless
the other one is now above it and pre-emption is not locked. -/
theorem readd_head (h : SchedInv s) (hr : (s.list .readytorun).head? = some r) (htr : t ≠ r)
    (ht : t ∈ s.list .readytorun) (hp : p ≤ s.prio r ∨ 0 < s.lockcount r) {s1 s2 : Sched}
    {b b' : Bool} (hrem : schedRemovereadytorun s t = .ok (s1, b))
    (hadd : schedAddreadytorun (s1.setPrio t p) t = .ok (s2, b')) :
    b = false ∧ b' = false ∧ (s2.list .readytorun).head? = some r := by
  obtain ⟨hrm, r1, l1, hl1, hrt, ha, -⟩ := readd_spec h ht hrem hadd
  obtain rfl : b = false := by
    rw [Bool.eq_false_iff, ne_eq, hrm.changed_iff, hr]
    exact fun hc => htr (some.inj hc).symm
  obtain rfl : r1 = r := some.inj ((hrm.head_eq hl1).symm.trans hr)
  have hlists := ha.lists
  have hb' := ha.changed_iff
  simp only [Sched.prio_setPrio, update_self, update_of_ne hrt,
    hrm.frame.prio, Sched.list_setPrio, Sched.lockcount_setPrio, hrm.frame.lockcount] at hlists hb'
  refine ⟨rfl, ?_, ?_⟩
  · rw [Bool.eq_false_iff, ne_eq, hb']
    omega
  split at hlists
  · -- it has to wait in `g_pendingtasks`
    rw [hlists.1, hl1, head?_cons]
  · -- it is put back behind the running task
    rw [hlists.1, hl1, head?_insert, if_neg (ahead_cons_ne_nil (by
      rw [update_self, update_of_ne hrt]
      omega)), head?_cons]

/-- Changing the priority of another task leaves the running task alone, if it does not raise the
priority, or not above that of the running task, or if pre-emption is locked. -/
theorem schedSetpriority_head (h : SchedInv s) (hr : (s.list .readytorun).head? = some r)
    (htr : t ≠ r) {p : ℤ} (hp : p ≤ s.prio t ∨ p ≤ s.prio r ∨ 0 < s.lockcount r) {x : Status}
    (hrun : schedSetpriority s t p = .ok (s', x)) : (s'.list .readytorun).head? = some r := by
  rw [schedSetpriority] at hrun
  split at hrun
  · cases hrun
    exact hr
  cases hst : s.state t with
  | running => exact absurd (some.inj (((h.running_iff t).mp hst).symm.trans hr)) htr
  | readyToRun =>
    simp only [hst, hr] at hrun
    have ht : t ∈ s.list .readytorun := (h.mem_iff t _).mpr (by rw [hst]; rfl)
    obtain ⟨l, hl⟩ := head?_eq_some_iff.mp hr
    have hle : s.prio t ≤ s.prio r := by
      have hsort := h.sorted .readytorun rfl
      rw [hl] at hsort ht
      exact (pairwise_cons.mp hsort).1 t ((mem_cons.mp ht).resolve_left htr)
    split at hrun
    · obtain ⟨s0, hrep, hrun⟩ := bind_ok.mp hrun
      cases hrun
      rw [upReprioritizeRtr, if_pos ⟨by rw [hst]; rfl, by rw [schedPriorityMin]; omega⟩] at hrep
      obtain ⟨⟨s1, b⟩, hrem, hrep⟩ := bind_ok.mp hrep
      obtain ⟨⟨s2, b'⟩, hadd, hrep⟩ := bind_ok.mp hrep
      obtain ⟨rfl, rfl, hhead⟩ := readd_head h hr htr ht (by omega) hrem hadd
      cases hrep
      exact hhead
    · obtain ⟨⟨s1, b⟩, hrem, hrun⟩ := bind_ok.mp hrun
      obtain ⟨-, -, hrun⟩ := bind_ok.mp hrun
      obtain ⟨⟨s2, b'⟩, hadd, hrun⟩ := bind_ok.mp hrun
      obtain ⟨-, -, hrun⟩ := bind_ok.mp hrun
      cases hrun
      exact (readd_head h hr htr ht (by omega) hrem hadd).2.2
  | pending | waitSem | waitMqNotEmpty | waitMqNotFull =>
    simp only [hst, prioritized, list, if_true] at hrun
    obtain ⟨⟨s1, b⟩, hadd, hrun⟩ := bind_ok.mp hrun
    cases hrun
    obtain ⟨-, rfl, -⟩ := schedAddprioritized_ok.mp hadd
    simpa using hr
  | invalid | inactive | waitSig =>
    simp only [hst, prioritized] at hrun
    cases hrun
    simpa using hr

/-! ### Locks and time slices -/

/-- What the operations that neither block nor unblock nor reprioritize have in common. -/
structure Quiet (s s' : Sched) : Prop where
  inv : SchedInv s'
  prio : s'.prio = s.prio
  live : ∀ c, s'.state c = .invalid ↔ s.state c = .invalid
  blocked : ∀ M, M.isBlocked = true → s'.list M = s.list M

theorem Quiet.refl (h : SchedInv s) : Quiet s s := ⟨h, rfl, fun _ => Iff.rfl, fun _ _ => rfl⟩

theorem schedLock_spec (h : SchedInv s) (hl : s.list .readytorun = r :: l)
    (hrun : schedLock irq s = .ok s') :
    Quiet s s' ∧ s'.list = s.list ∧ s'.state = s.state ∧ s'.lockcount =
      if irq then s.lockcount else update s.lockcount r (s.lockcount r + 1) := by
  simp only [schedLock, hl] at hrun
  cases irq with
  | true =>
    obtain rfl : s = s' := by simpa using hrun
    exact ⟨Quiet.refl h, rfl, rfl, rfl⟩
  | false =>
    obtain ⟨u, -, hrest⟩ := bind_ok.mp hrun
    cases hrest
    refine ⟨⟨h.of_eq rfl (by simp) (by simp) fun _ c hc => ?_, by simp, by simp, fun _ _ => rfl⟩,
      rfl, by simp, by simp⟩
    rw [hl, head?_cons, mem_some_iff] at hc
    subst hc
    simp

theorem exists_schedLock (hl : s.list .readytorun = r :: l)
    (hlock : irq = false → s.lockcount r < maxLockCount) : ∃ s', schedLock irq s = .ok s' := by
  simp only [schedLock, hl]
  cases irq with
  | true => exact ⟨_, rfl⟩
  | false => exact ⟨s.setLock r (s.lockcount r + 1), by simp [osAssert, hlock rfl]; rfl⟩

theorem schedUnlock_spec (h : SchedInv s) (hl : s.list .readytorun = r :: l)
    (hrun : schedUnlock irq s = .ok s') :
    Quiet s s' ∧
      s'.lockcount = (if irq then s.lockcount
        else update s.lockcount r (s.lockcount r - 1)) ∧
      (s'.list .readytorun).getLast? = (s.list .readytorun).getLast? := by
  simp only [schedUnlock, hl] at hrun
  cases irq with
  | true =>
    obtain rfl : s = s' := by simpa using hrun
    exact ⟨Quiet.refl h, rfl, rfl⟩
  | false =>
    simp only [Bool.false_eq_true, if_false] at hrun ⊢
    split at hrun
    · obtain ⟨⟨s1, b⟩, hmerge, hrest⟩ := bind_ok.mp hrun
      cases hrest
      have hinv : ListInv (s.setLock r (s.lockcount r - 1)) :=
        h.toListInv.of_eq rfl (by simp) (by simp)
      have hm := schedMergepending_spec hinv hl hmerge
      refine ⟨⟨hm.schedInv (h.toHeadInv.of_eq rfl (by simp)), by simp [hm.frame.prio],
        fun c => by simp [hm.live c], fun M hM => hm.frame.blocked M hM⟩,
        by simp [hm.frame.lockcount], hm.last⟩
    · rename_i hcond
      cases hrun
      refine ⟨⟨h.of_eq rfl (by simp) (by simp) fun hne c hc => ?_, by simp, by simp,
        fun _ _ => rfl⟩, by simp, rfl⟩
      rw [hl, head?_cons, mem_some_iff] at hc
      subst hc
      rcases Nat.eq_zero_or_pos ((s.setLock r (s.lockcount r - 1)).lockcount r) with h0 | h0
      · exact absurd ⟨h0, hne⟩ hcond
      · exact h0

theorem exists_schedUnlock
    (hlow : ∃ b ∈ s.list .readytorun, ∀ a ∈ s.list .pendingtasks, s.prio b < s.prio a) :
    ∃ s', schedUnlock irq s = .ok s' := by
  rw [schedUnlock]
  split
  · exact ⟨_, rfl⟩
  rename_i r l hl
  split
  · exact ⟨_, rfl⟩
  simp only
  split
  · obtain ⟨s', b, hrun⟩ := exists_schedMergepending (s := s.setLock r (s.lockcount r - 1))
      (by simpa using hlow)
    exact ⟨s', by rw [upReleasePending, hrun, ok_bind]⟩
  · exact ⟨_, rfl⟩

theorem schedProcessTimeslice_spec (h : SchedInv s) (hrun : schedProcessTimeslice cfg s = .ok s') :
    Quiet s s' ∧ s'.lockcount = s.lockcount ∧
      ∀ x r, (s.list .readytorun).head? = some r → (x = r ∨ s.prio x < s.prio r) →
        (s.list .readytorun).getLast? = some x → (s'.list .readytorun).getLast? = some x := by
  have hslice : ∀ t n, Quiet s (s.setTimeslice t n) := fun t n =>
    ⟨h.of_eq rfl (by simp) (by simp) (by simpa using h.locked), by simp, by simp, fun _ _ => rfl⟩
  rw [schedProcessTimeslice] at hrun
  split at hrun
  · cases hrun
    exact ⟨Quiet.refl h, rfl, fun x r _ _ hx => hx⟩
  obtain ⟨rtcb, rest, hl⟩ := h.exists_head
  simp only [hl] at hrun
  split at hrun
  · split at hrun
    · split at hrun
      · cases rest with
        | nil =>
          cases hrun
          exact ⟨hslice _ _, by simp, fun x r _ _ hx => hx⟩
        | cons next rest =>
          simp only at hrun
          split at hrun
          · have hq := hslice rtcb (cfg.rrInterval / cfg.msecPerTick)
            have hr := upReprioritizeRtr_spec hq.inv (t := rtcb)
              (by rw [Sched.list_setTimeslice, hl]; simp) hrun
            refine ⟨⟨hr.inv, by simp [hr.prio], fun c => by simp [hr.live c], fun M hM => ?_⟩,
              by simp [hr.lockcount], fun x r hhd hx hlast => ?_⟩
            · rw [hr.list M hM, if_neg, Sched.list_setTimeslice]
              rw [Sched.state_setTimeslice]
              exact fun hc => h.not_blocked (by simp [hl]) hM hc.1
            rw [hl, head?_cons, some.injEq] at hhd
            subst hhd
            -- the last of two or more tasks is not the first
            have hne : x ≠ rtcb := by
              rintro rfl
              have hnd := h.nodup .readytorun
              rw [hl] at hnd hlast
              exact (nodup_cons.mp hnd).1 (mem_of_mem_getLast? hlast)
            refine hr.last x hne ?_ hlast
            simpa using hx.resolve_left hne
          · cases hrun
            exact ⟨hslice _ _, by simp, fun x r _ _ hx => hx⟩
      · cases hrun
        exact ⟨Quiet.refl h, rfl, fun x r _ _ hx => hx⟩
    · cases hrun
      exact ⟨hslice _ _, by simp, fun x r _ _ hx => hx⟩
  · cases hrun
    exact ⟨Quiet.refl h, rfl, fun x r _ _ hx => hx⟩

/-! ### New tasks -/

/-- What setting up a new task does. -/
structure Created (s s' : Sched) (t : Tid) (p : ℕ) : Prop where
  inv : SchedInv s'
  prio : s'.prio = update s.prio t p
  live : ∀ c, s'.state c = .invalid ↔ c ≠ t ∧ s.state c = .invalid
  list : ∀ M, M.isBlocked = true →
    s'.list M = if M = .inactivetasks then t :: s.list M else s.list M
  last : (s'.list .readytorun).getLast? = (s.list .readytorun).getLast?

def Sched.setup (s : Sched) (t : Tid) (q : ℤ) (rr : Bool) : Sched :=
  { s with tcb := update s.tcb t ⟨(q % 256).toNat, .invalid, 0, 0, rr⟩ }

theorem Sched.prio_setup (hq : LegalPriority q) :
    (s.setup t q rr).prio = update s.prio t q.toNat := by
  obtain ⟨hq1, hq2⟩ := hq
  have hmod : (q % 256).toNat = q.toNat := by omega
  funext c
  rcases eq_or_ne c t with rfl | hc
  · simp [setup, Sched.prio, hmod]
  · simp [setup, Sched.prio, update_of_ne hc]

theorem Sched.state_setup (ht : s.state t = .invalid) : (s.setup t q rr).state = s.state := by
  funext c
  rcases eq_or_ne c t with rfl | hc
  · simpa [setup, Sched.state] using ht.symm
  · simp [setup, Sched.state, update_of_ne hc]

theorem Sched.lockcount_setup (hc : c ≠ t) : (s.setup t q rr).lockcount c = s.lockcount c := by
  simp [setup, Sched.lockcount, update_of_ne hc]

theorem SchedInv.setup (h : SchedInv s) (ht : s.state t = .invalid) (hq : LegalPriority q) :
    SchedInv (s.setup t q rr) := by
  have hnot : ∀ L, t ∉ s.list L := fun L => h.notMem ht
  have hset : ListInv (s.setPrio t q.toNat) := h.toListInv.setPrio fun L _ => hnot L
  refine ⟨hset.of_eq rfl (by simp [Sched.state_setup ht]) (by simp [Sched.prio_setup hq]),
    h.toHeadInv.of_eq rfl (Sched.state_setup ht), fun hne c hc => ?_⟩
  · rw [Sched.lockcount_setup]
    · exact h.locked hne c hc
    · rintro rfl
      exact hnot .readytorun (mem_of_mem_head? hc)

def Sched.addInactive (s : Sched) (t : Tid) : Sched :=
  (s.setList .inactivetasks (t :: s.list .inactivetasks)).setState t .inactive

theorem SchedInv.addInactive (h : SchedInv s) (ht : s.state t = .invalid) :
    SchedInv (s.addInactive t) := by
  refine ⟨h.toListInv.add ht rfl (Perm.refl _) nofun,
    ⟨fun c => ?_, by simpa [Sched.addInactive] using h.ne_nil⟩, ?_⟩
  · have hready : (s.addInactive t).list .readytorun = s.list .readytorun := by
      simp [Sched.addInactive]
    rw [hready, ← h.running_iff, Sched.addInactive, Sched.state_setState, Sched.state_setList]
    rcases eq_or_ne c t with rfl | hc
    · simp [ht]
    · rw [update_of_ne hc]
  · simpa [Sched.addInactive] using h.locked

theorem taskSchedsetup_eq {irq rr : Bool} :
    taskSchedsetup irq s t q rr = (do
      let s ← schedLock irq (s.setup t q rr)
      schedUnlock irq (s.addInactive t)) := rfl

theorem taskSchedsetup_spec (h : SchedInv s) (ht : s.state t = .invalid) (hq : LegalPriority q)
    {irq rr : Bool} (hrun : taskSchedsetup irq s t q rr = .ok s') : Created s s' t q.toNat := by
  obtain ⟨r, l, hl⟩ := h.exists_head
  obtain ⟨s1, hlock, hrun⟩ := bind_ok.mp hrun
  obtain ⟨hq1, hlist1, hstate₁, -⟩ := schedLock_spec (h.setup ht hq) hl hlock
  rw [Sched.state_setup ht] at hstate₁
  have hready₂ : (s1.addInactive t).list .readytorun = s.list .readytorun := by
    simp [Sched.addInactive, hlist1, Sched.setup]
  obtain ⟨hq3, -, hlast3⟩ := schedUnlock_spec
    (hq1.inv.addInactive (by rw [hstate₁, ht])) (hready₂.trans hl) hrun
  refine ⟨hq3.inv, ?_, fun c => ?_, fun M hM => ?_, by rw [hlast3, hready₂]⟩
  · rw [hq3.prio]
    simp [Sched.addInactive, hq1.prio, Sched.prio_setup hq]
  · rw [hq3.live, Sched.addInactive, Sched.state_setState, Sched.state_setList, hstate₁]
    rcases eq_or_ne c t with rfl | hc
    · simp
    · simp [hc]
  · rw [hq3.blocked M hM, Sched.addInactive, Sched.list_setState, Sched.list_setList, hlist1]
    split
    · rename_i hMi
      rw [hMi, update_self]
      rfl
    · rename_i hMi
      rw [update_of_ne hMi]
      rfl

end NuttX
