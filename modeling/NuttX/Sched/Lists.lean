import NuttX.Sched.Model

/-!
# The task lists agree with the task states

`NuttX.ListInv` says that the lists and the states stored in the TCBs describe the same thing: a
TCB is in the list that `g_tasklisttable` gives for its state, once, and in no other, and the
prioritized lists are sorted. It holds after each of the primitive moves, also in the middle of an
operation, when a TCB has been taken out of one list and not yet put into another.

`NuttX.Frame` collects what the moves between `g_readytorun` and `g_pendingtasks` leave alone.
-/

namespace NuttX

open Function TaskList TaskState Sched Prio

/-- The list is prioritized. -/
def TaskList.prioritized : TaskList → Bool
  | readytorun | pendingtasks | waitingforsemaphore | waitingformqnotempty
  | waitingformqnotfull => true
  | inactivetasks | waitingforsignal => false

def TaskList.isBlocked : TaskList → Bool
  | readytorun | pendingtasks => false
  | _ => true

variable {L : TaskList}

theorem TaskList.ne_readytorun (h : L.isBlocked = true) : L ≠ .readytorun := by
  rintro rfl
  cases h

theorem TaskList.ne_pendingtasks (h : L.isBlocked = true) : L ≠ .pendingtasks := by
  rintro rfl
  cases h

variable {st : TaskState}

theorem TaskState.prioritized_eq (h : st.list = some L) : st.prioritized = L.prioritized := by
  cases st <;> cases h <;> rfl

theorem TaskState.isBlocked_eq (h : st.list = some L) : st.isBlocked = L.isBlocked := by
  cases st <;> cases h <;> rfl

theorem TaskState.isReadyToRun_iff : st.isReadyToRun = true ↔ st.list = some .readytorun := by
  cases st <;> simp [isReadyToRun, list]

theorem TaskState.exists_list (h : st.isBlocked = true) :
    ∃ L, st.list = some L ∧ L.isBlocked = true := by
  cases st <;> first | exact ⟨_, rfl, rfl⟩ | cases h

namespace Sched

variable {s : Sched} {t : Tid} {p n : ℕ} {st : TaskState} {L : TaskList} {l : List Tid}

/-! ### Reading an updated state -/

@[simp] theorem list_setPrio : (s.setPrio t p).list = s.list := rfl
@[simp] theorem list_setState : (s.setState t st).list = s.list := rfl
@[simp] theorem list_setLock : (s.setLock t n).list = s.list := rfl
@[simp] theorem list_setTimeslice : (s.setTimeslice t n).list = s.list := rfl
@[simp] theorem prio_setList : (s.setList L l).prio = s.prio := rfl
@[simp] theorem state_setList : (s.setList L l).state = s.state := rfl
@[simp] theorem lockcount_setList : (s.setList L l).lockcount = s.lockcount := rfl
@[simp] theorem prio_dqRem : (s.dqRem t L).prio = s.prio := rfl
@[simp] theorem state_dqRem : (s.dqRem t L).state = s.state := rfl
@[simp] theorem lockcount_dqRem : (s.dqRem t L).lockcount = s.lockcount := rfl

@[simp] theorem list_setList : (s.setList L l).list = update s.list L l := rfl

@[simp] theorem list_dqRem :
    (s.dqRem t L).list = update s.list L ((s.list L).erase t) := rfl

/-- A field of the TCBs, when one of them is written but not this field of it. -/
theorem comp_update_of_eq {α : Type*} (f : Tcb → α) {tcb : Tid → Tcb} {x : Tcb}
    (h : f x = f (tcb t)) : f ∘ update tcb t x = f ∘ tcb := by
  rw [comp_update, h]
  exact update_eq_self t (f ∘ tcb)

@[simp] theorem prio_setPrio : (s.setPrio t p).prio = update s.prio t p :=
  comp_update Tcb.schedPriority ..

@[simp] theorem prio_setState : (s.setState t st).prio = s.prio :=
  comp_update_of_eq Tcb.schedPriority rfl

@[simp] theorem prio_setLock : (s.setLock t n).prio = s.prio :=
  comp_update_of_eq Tcb.schedPriority rfl

@[simp] theorem prio_setTimeslice : (s.setTimeslice t n).prio = s.prio :=
  comp_update_of_eq Tcb.schedPriority rfl

@[simp] theorem state_setPrio : (s.setPrio t p).state = s.state :=
  comp_update_of_eq Tcb.taskState rfl

@[simp] theorem state_setState : (s.setState t st).state = update s.state t st :=
  comp_update Tcb.taskState ..

@[simp] theorem state_setLock : (s.setLock t n).state = s.state :=
  comp_update_of_eq Tcb.taskState rfl

@[simp] theorem state_setTimeslice : (s.setTimeslice t n).state = s.state :=
  comp_update_of_eq Tcb.taskState rfl

@[simp] theorem lockcount_setPrio : (s.setPrio t p).lockcount = s.lockcount :=
  comp_update_of_eq Tcb.lockcount rfl

@[simp] theorem lockcount_setState : (s.setState t st).lockcount = s.lockcount :=
  comp_update_of_eq Tcb.lockcount rfl

@[simp] theorem lockcount_setLock : (s.setLock t n).lockcount = update s.lockcount t n :=
  comp_update Tcb.lockcount ..

@[simp] theorem lockcount_setTimeslice : (s.setTimeslice t n).lockcount = s.lockcount :=
  comp_update_of_eq Tcb.lockcount rfl

end Sched

/-! ### The invariant -/

/-- The lists and the states agree. -/
structure ListInv (s : Sched) : Prop where
  nodup : ∀ L, (s.list L).Nodup
  mem_iff : ∀ t L, t ∈ s.list L ↔ (s.state t).list = some L
  sorted : ∀ L, L.prioritized = true → Prio.Desc s.prio (s.list L)

/-- The head of `g_readytorun`, and only the head, is running. -/
structure HeadInv (s : Sched) : Prop where
  running_iff : ∀ t, s.state t = .running ↔ (s.list .readytorun).head? = some t
  ne_nil : s.list .readytorun ≠ []

variable {s s' : Sched} {t c : Tid} {p : ℕ} {st : TaskState} {L : TaskList} {l : List Tid}
 {b : Bool}

theorem ListInv.of_eq (h : ListInv s) (hl : s'.list = s.list) (hs : s'.state = s.state)
    (hp : s'.prio = s.prio) : ListInv s' :=
  ⟨by rw [hl]; exact h.nodup, by rw [hl, hs]; exact h.mem_iff, by rw [hl, hp]; exact h.sorted⟩

theorem HeadInv.of_eq (h : HeadInv s) (hl : s'.list = s.list) (hs : s'.state = s.state) :
    HeadInv s' :=
  ⟨by rw [hl, hs]; exact h.running_iff, by rw [hl]; exact h.ne_nil⟩

section

variable (h : ListInv s)

include h

theorem ListInv.notMem (ht : s.state t = .invalid) : t ∉ s.list L := by
  rw [h.mem_iff, ht]
  exact nofun

theorem ListInv.setState (hst : st.list = (s.state t).list) : ListInv (s.setState t st) := by
  refine ⟨h.nodup, fun c L => ?_, fun L hL => ?_⟩
  · rw [list_setState, state_setState, h.mem_iff]
    rcases eq_or_ne c t with rfl | hc
    · rw [update_self, hst]
    · rw [update_of_ne hc]
  · rw [prio_setState]
    exact h.sorted L hL

/-- One list and the state of one TCB are changed. -/
theorem ListInv.replace (hnd : l.Nodup) (hmem : ∀ c, c ≠ t → (c ∈ l ↔ c ∈ s.list L))
    (ht : ∀ M, t ∈ update s.list L l M ↔ st.list = some M)
    (hsort : L.prioritized = true → Desc s.prio l) : ListInv ((s.setList L l).setState t st) := by
  refine ⟨fun M => ?_, fun c M => ?_, fun M hM => ?_⟩
  · rw [list_setState, list_setList]
    exact (forall_update_iff _ fun _ l => List.Nodup l).mpr ⟨hnd, fun M _ => h.nodup M⟩ M
  · rw [list_setState, list_setList, state_setState, state_setList]
    rcases eq_or_ne c t with rfl | hc
    · rw [update_self]
      exact ht M
    · rw [update_of_ne hc, ← h.mem_iff]
      rcases eq_or_ne M L with rfl | hM
      · rw [update_self, hmem c hc]
      · rw [update_of_ne hM]
  · rw [prio_setState, prio_setList, list_setState, list_setList]
    exact (forall_update_iff _ fun M l => M.prioritized = true → Desc s.prio l).mpr
      ⟨hsort, fun M _ => h.sorted M⟩ M hM

/-- Taking a TCB out of its list. -/
theorem ListInv.remove (ht : (s.state t).list = some L) :
    ListInv ((s.dqRem t L).setState t .invalid) := by
  refine h.replace ((h.nodup L).erase t) (fun c hc => List.mem_erase_of_ne hc) (fun M => ?_)
    fun hL => (h.sorted L hL).sublist List.erase_sublist
  refine ⟨fun hm => ?_, nofun⟩
  rcases eq_or_ne M L with rfl | hM
  · rw [update_self] at hm
    exact absurd hm ((h.nodup M).not_mem_erase)
  · rw [update_of_ne hM, h.mem_iff, ht] at hm
    exact absurd (Option.some.inj hm) (Ne.symm hM)

/-- Putting a TCB that is in no list into one. -/
theorem ListInv.add (ht : s.state t = .invalid) (hst : st.list = some L)
    (hperm : l.Perm (t :: s.list L)) (hsort : L.prioritized = true → Desc s.prio l) :
    ListInv ((s.setList L l).setState t st) := by
  refine h.replace ?_ (fun c hc => ?_) (fun M => ?_) hsort
  · rw [hperm.nodup_iff, List.nodup_cons]
    exact ⟨h.notMem ht, h.nodup L⟩
  · rw [hperm.mem_iff, List.mem_cons]
    exact ⟨fun hm => hm.resolve_left hc, Or.inr⟩
  rw [hst]
  rcases eq_or_ne M L with rfl | hM
  · rw [update_self, hperm.mem_iff]
    simp
  · rw [update_of_ne hM]
    refine ⟨fun hm => absurd hm (h.notMem ht), fun hm => ?_⟩
    exact absurd (Option.some.inj hm) (Ne.symm hM)

theorem ListInv.setPrio (ht : ∀ L, L.prioritized = true → t ∉ s.list L) :
    ListInv (s.setPrio t p) := by
  refine ⟨h.nodup, fun c L => ?_, fun L hL => ?_⟩
  · rw [list_setPrio, state_setPrio]
    exact h.mem_iff c L
  · refine (h.sorted L hL).congr fun c hc => ?_
    rw [prio_setPrio, update_of_ne]
    rintro rfl
    exact ht L hL hc

theorem ListInv.ready_iff : t ∈ s.list .readytorun ↔ (s.state t).isReadyToRun = true := by
  rw [isReadyToRun_iff, h.mem_iff]

end

/-! ### What stays as it is -/

/-- Priorities, lock counts and the lists of blocked tasks are unchanged. -/
structure Frame (s s' : Sched) : Prop where
  prio : s'.prio = s.prio
  lockcount : s'.lockcount = s.lockcount
  blocked : ∀ L, L.isBlocked = true → s'.list L = s.list L

theorem Frame.refl (s : Sched) : Frame s s := ⟨rfl, rfl, fun _ _ => rfl⟩

/-! ### Taking a task out of `g_readytorun` -/

theorem flink_head {a b : Tid} : flink a (a :: b :: l) = some b := if_pos rfl

/-- What `sched_removereadytorun` does. -/
structure Removed (s s' : Sched) (t : Tid) (changed : Bool) : Prop where
  inv : ListInv s'
  frame : Frame s s'
  state : s'.state t = .invalid
  live : ∀ c, c ≠ t → (s'.state c = .invalid ↔ s.state c = .invalid)
  ready : s'.list .readytorun = (s.list .readytorun).erase t
  pending : s'.list .pendingtasks = s.list .pendingtasks
  changed_iff : changed = true ↔ (s.list .readytorun).head? = some t
  head : HeadInv s → HeadInv s'
  ne_nil : s'.list .readytorun ≠ []

theorem schedRemovereadytorun_spec (h : ListInv s) (ht : t ∈ s.list .readytorun)
    (hrun : schedRemovereadytorun s t = .ok (s', b)) : Removed s s' t b := by
  have htl := (h.mem_iff t .readytorun).mp ht
  rw [schedRemovereadytorun] at hrun
  by_cases hhd : (s.list .readytorun).head? = some t
  · obtain ⟨l, hl⟩ := List.head?_eq_some_iff.mp hhd
    rw [hl] at hrun
    cases l with
    | nil => simp [flink] at hrun
    | cons next rest =>
      rw [flink_head, if_pos List.head?_cons] at hrun
      cases hrun
      have hnd := h.nodup .readytorun
      rw [hl] at hnd
      have hnt : next ≠ t := by
        rintro rfl
        simp at hnd
      have hnl : (s.state next).list = some .readytorun :=
        (h.mem_iff next .readytorun).mp (by rw [hl]; simp)
      have herase : (s.list .readytorun).erase t = next :: rest := by
        rw [hl, List.erase_cons_head]
      refine ⟨?_, ⟨by simp, by simp, fun L hL => ?_⟩, by simp, fun c hc => ?_, by simp, by simp,
        by simp [hhd], fun hh => ⟨fun c => ?_, ?_⟩, ?_⟩
      · have hinv : ListInv (s.setState next .running) := h.setState hnl.symm
        refine hinv.remove ?_
        rw [state_setState, update_of_ne hnt.symm]
        exact htl
      · simp [ne_readytorun hL]
      · rw [state_setState, update_of_ne hc, state_dqRem, state_setState]
        rcases eq_or_ne c next with rfl | hcn
        · rw [update_self]
          exact ⟨nofun, fun hinv => by rw [hinv] at hnl; cases hnl⟩
        · rw [update_of_ne hcn]
      · -- the new head is running, the old one is not any more
        simp only [state_setState, state_dqRem, list_setState, list_dqRem,
          update_self, herase, List.head?_cons, Option.some.injEq]
        rcases eq_or_ne c t with rfl | hc
        · simp [hnt]
        rw [update_of_ne hc]
        rcases eq_or_ne c next with rfl | hcn
        · simp
        · rw [update_of_ne hcn, hh.running_iff, hl]
          simp [Ne.symm hc, Ne.symm hcn]
      · simp [herase]
      · simp [herase]
  · rw [if_neg hhd] at hrun
    cases hrun
    have hne : (s.list .readytorun).erase t ≠ [] ∧
        ((s.list .readytorun).erase t).head? = (s.list .readytorun).head? := by
      cases hl : s.list .readytorun with
      | nil => rw [hl] at ht; cases ht
      | cons a l =>
        have hat : a ≠ t := fun hat => hhd (by rw [hl, hat]; rfl)
        rw [List.erase_cons_tail (by simpa using hat)]
        simp
    refine ⟨h.remove htl, ⟨by simp, by simp, fun L hL => ?_⟩, by simp,
      fun c hc => by simp [update_of_ne hc], by simp, by simp, by simp [hhd],
      fun hh => ⟨fun c => ?_, ?_⟩, by simpa using hne.1⟩
    · simp [ne_readytorun hL]
    · simp only [state_setState, state_dqRem, list_setState, list_dqRem, update_self, hne.2]
      rcases eq_or_ne c t with rfl | hc
      · simp [hhd]
      · rw [update_of_ne hc]
        exact hh.running_iff c
    · simpa using hne.1

theorem exists_schedRemovereadytorun (hne : s.list .readytorun ≠ [t]) :
    ∃ s' b, schedRemovereadytorun s t = .ok (s', b) := by
  rw [schedRemovereadytorun]
  split
  · rename_i hhd
    obtain ⟨l, hl⟩ := List.head?_eq_some_iff.mp hhd
    cases l with
    | nil => exact absurd hl hne
    | cons next rest =>
      rw [hl, flink_head]
      exact ⟨_, _, rfl⟩
  · exact ⟨_, _, rfl⟩

/-! ### Putting a task into `g_readytorun` or `g_pendingtasks` -/

theorem schedAddprioritized_ok :
    schedAddprioritized s t L = .ok (s', b) ↔
      1 ≤ s.prio t ∧ s' = s.setList L (insert s.prio t (s.list L)) ∧
        b = (ahead s.prio (s.prio t) (s.list L)).isEmpty := by
  rw [schedAddprioritized, bind_ok, eq_comm (a := s'), eq_comm (a := b)]
  simp only [osAssert_ok, decide_eq_true_eq, exists_const, Except.ok.injEq, Prod.mk.injEq]
  rfl

/-- What `sched_addreadytorun` does when `rtcb` is the head of `g_readytorun`. -/
structure Added (s s' : Sched) (rtcb t : Tid) (changed : Bool) : Prop where
  inv : ListInv s'
  frame : Frame s s'
  state : s'.state t ≠ .invalid
  live : ∀ c, c ≠ t → (s'.state c = .invalid ↔ s.state c = .invalid)
  lists : if 0 < s.lockcount rtcb ∧ s.prio rtcb < s.prio t then
      s'.list .readytorun = s.list .readytorun ∧
        s'.list .pendingtasks = Prio.insert s.prio t (s.list .pendingtasks)
    else
      s'.list .readytorun = Prio.insert s.prio t (s.list .readytorun) ∧
        s'.list .pendingtasks = s.list .pendingtasks
  changed_iff : changed = true ↔ s.lockcount rtcb = 0 ∧ s.prio rtcb < s.prio t
  head : HeadInv s → HeadInv s'

/-- The task becomes pending, or runs, or is ready to run. -/
theorem schedAddreadytorun_eq {rtcb : Tid} (hl : s.list .readytorun = rtcb :: l) :
    schedAddreadytorun s t =
      if s.prio t < 1 then .error .assert
      else if s.lockcount rtcb ≠ 0 ∧ s.prio rtcb < s.prio t then
        .ok ((s.setList .pendingtasks (insert s.prio t (s.list .pendingtasks))).setState t .pending,
          false)
      else if s.prio rtcb < s.prio t then
        .ok (((s.setList .readytorun (t :: rtcb :: l)).setState t .running).setState rtcb
          .readyToRun, true)
      else .ok ((s.setList .readytorun (insert s.prio t (s.list .readytorun))).setState t
        .readyToRun, false) := by
  simp only [schedAddreadytorun, hl]
  by_cases hp : s.prio t < 1
  · have hfail : ∀ L, schedAddprioritized s t L = .error .assert := by
      intro L
      rw [schedAddprioritized, schedPriorityMin, decide_eq_false (not_le.mpr hp)]
      rfl
    rw [if_pos hp]
    split_ifs <;> rw [hfail] <;> rfl
  have hadd : ∀ L, schedAddprioritized s t L = .ok (s.setList L (insert s.prio t (s.list L)),
      (ahead s.prio (s.prio t) (s.list L)).isEmpty) :=
    fun L => schedAddprioritized_ok.mpr ⟨not_lt.mp hp, rfl, rfl⟩
  rw [if_neg hp]
  split_ifs with hpend hhigh
  · rw [hadd]
    rfl
  · have hlock : s.lockcount rtcb = 0 := by
      by_contra hne
      exact hpend ⟨hne, hhigh⟩
    rw [hadd, ok_bind, hl, ahead_cons_of_lt hhigh, insert_cons_of_lt hhigh]
    simp [flink_head, hlock, osAssert, ok_bind]
  · rw [hadd, ok_bind, if_neg (by simpa [hl] using ahead_cons_ne_nil (not_lt.mp hhigh)), hl]

theorem schedAddreadytorun_spec (h : ListInv s) (ht : s.state t = .invalid) {rtcb : Tid}
    (hl : s.list .readytorun = rtcb :: l) (hrun : schedAddreadytorun s t = .ok (s', b)) :
    Added s s' rtcb t b := by
  have hrl : (s.state rtcb).list = some .readytorun :=
    (h.mem_iff rtcb .readytorun).mp (by rw [hl]; simp)
  have hrt : rtcb ≠ t := by
    rintro rfl
    rw [ht] at hrl
    cases hrl
  have hadd : ∀ st : TaskState, st.list = some .readytorun →
      ListInv ((s.setList .readytorun (insert s.prio t (s.list .readytorun))).setState t st) :=
    fun st hst => h.add ht hst insert_perm fun _ => (h.sorted _ rfl).insert
  rw [schedAddreadytorun_eq hl] at hrun
  split_ifs at hrun with hp hpend hhigh <;> cases hrun
  · refine ⟨h.add ht rfl insert_perm fun _ => (h.sorted _ rfl).insert,
      ⟨by simp, by simp, fun L hL => ?_⟩, by simp,
      fun c hc => by simp [update_of_ne hc], ?_, ?_, fun hh => ⟨fun c => ?_, ?_⟩⟩
    · simp [ne_pendingtasks hL]
    · rw [if_pos ⟨by omega, hpend.2⟩]
      simp
    · simp [hpend.1]
    · rcases eq_or_ne c t with rfl | hc
      · simp [hl, hrt]
      · simp [update_of_ne hc, hh.running_iff c]
    · simp [hl]
  · -- the new task goes to the head and runs
    have hins : insert s.prio t (s.list .readytorun) = t :: rtcb :: l := by
      rw [hl, insert_cons_of_lt hhigh]
    have hlock : s.lockcount rtcb = 0 := by
      by_contra hne
      exact hpend ⟨hne, hhigh⟩
    refine ⟨?_, ⟨by simp, by simp, fun L hL => ?_⟩, ?_, fun c hc => ?_, ?_, ?_,
      fun hh => ⟨fun c => ?_, by simp⟩⟩
    · rw [← hins]
      refine (hadd .running rfl).setState ?_
      rw [state_setState, update_of_ne hrt]
      exact hrl.symm
    · simp [ne_readytorun hL]
    · simp [update_of_ne hrt.symm]
    · simp only [state_setState, state_setList]
      rcases eq_or_ne c rtcb with rfl | hcr
      · rw [update_self]
        exact ⟨nofun, fun hinv => by rw [hinv] at hrl; cases hrl⟩
      · rw [update_of_ne hcr, update_of_ne hc]
    · rw [if_neg (by omega), hins]
      simp
    · simp [hlock, hhigh]
    · simp only [state_setState, state_setList, list_setState,
        list_setList, update_self, List.head?_cons, Option.some.injEq]
      rcases eq_or_ne c rtcb with rfl | hcr
      · simp [hrt.symm]
      rw [update_of_ne hcr]
      rcases eq_or_ne c t with rfl | hc
      · simp
      · rw [update_of_ne hc, hh.running_iff, hl]
        simp [Ne.symm hcr, Ne.symm hc]
  · have hahead : ahead s.prio (s.prio t) (s.list .readytorun) ≠ [] := by
      rw [hl]
      exact ahead_cons_ne_nil (not_lt.mp hhigh)
    refine ⟨hadd .readyToRun rfl, ⟨by simp, by simp, fun L hL => ?_⟩, by simp,
      fun c hc => by simp [update_of_ne hc], ?_, by simp [hhigh],
      fun hh => ⟨fun c => ?_, by simpa using insert_ne_nil⟩⟩
    · simp [ne_readytorun hL]
    · rw [if_neg (by omega)]
      simp
    simp only [state_setState, state_setList, list_setState,
      list_setList, update_self, head?_insert, if_neg hahead]
    rcases eq_or_ne c t with rfl | hc
    · rw [update_self, hl]
      simp [hrt]
    · rw [update_of_ne hc]
      exact hh.running_iff c

/-- A task of legal priority can always be added. -/
theorem exists_schedAddreadytorun {rtcb : Tid} (hl : s.list .readytorun = rtcb :: l)
    (hp : 1 ≤ s.prio t) : ∃ s' b, schedAddreadytorun s t = .ok (s', b) := by
  rw [schedAddreadytorun_eq hl, if_neg (not_lt.mpr hp)]
  split_ifs
  all_goals exact ⟨_, _, rfl⟩

/-! ### Blocked tasks -/

theorem schedAddblocked_spec (h : ListInv s) (ht : s.state t = .invalid)
    (hrun : schedAddblocked s t st = .ok s') :
    ListInv s' ∧ s'.prio = s.prio ∧ s'.lockcount = s.lockcount ∧
      s'.state = update s.state t st ∧ st.isBlocked = true ∧
      ∃ L, st.list = some L ∧ L.isBlocked = true ∧
        s'.list = update s.list L (if L.prioritized then
          insert s.prio t (s.list L) else s.list L ++ [t]) := by
  obtain ⟨u, hblk, hrun⟩ := bind_ok.mp hrun
  rw [osAssert_ok] at hblk
  obtain ⟨L, hL, hLb⟩ := exists_list hblk
  simp only [hL, prioritized_eq hL] at hrun
  by_cases hprio : L.prioritized = true
  · rw [if_pos hprio] at hrun
    obtain ⟨⟨s1, b1⟩, hadd, hrest⟩ := bind_ok.mp hrun
    obtain ⟨-, rfl, -⟩ := schedAddprioritized_ok.mp hadd
    cases hrest
    refine ⟨h.add ht hL insert_perm fun _ => (h.sorted _ hprio).insert, by simp, by simp,
      by simp, hblk, L, hL, hLb, by simp [hprio]⟩
  · rw [if_neg hprio] at hrun
    cases hrun
    refine ⟨h.add ht hL ?_ fun hp => absurd hp hprio, by simp, by simp, by simp, hblk, L, hL, hLb,
      by simp [hprio]⟩
    exact List.perm_append_singleton t (s.list L)

theorem exists_schedAddblocked (hst : st.isBlocked = true) (hp : 1 ≤ s.prio t) :
    ∃ s', schedAddblocked s t st = .ok s' := by
  obtain ⟨L, hL, -⟩ := exists_list hst
  have hadd := schedAddprioritized_ok.mpr
    (⟨hp, rfl, rfl⟩ : 1 ≤ s.prio t ∧ s.setList L (insert s.prio t (s.list L)) = _ ∧ _ = _)
  rw [schedAddblocked, osAssert, if_pos hst, ok_bind]
  simp only [hL]
  split
  · rw [hadd, ok_bind]
    exact ⟨_, rfl⟩
  · exact ⟨_, rfl⟩

theorem schedRemoveblocked_eq (hb : (s.state t).isBlocked = true) (hL : (s.state t).list = some L) :
    schedRemoveblocked s t = .ok ((s.dqRem t L).setState t .invalid) := by
  rw [schedRemoveblocked, osAssert, if_pos hb, ok_bind]
  simp only [hL]

/-! ### Merging the pending tasks -/

/-- What the loop leaves. Once the search has passed the head, the merged tasks are ready to run but
not running. -/
theorem mergeLoop_spec : ∀ {new done rest : List Tid} {ret b : Bool} {s s' : Sched},
    mergeLoop new done rest ret s = .ok (s', b) →
      s'.prio = s.prio ∧ s'.lockcount = s.lockcount ∧
        (∃ l, merge s.prio new done rest = some l ∧ s'.list = update s.list .readytorun l) ∧
        ((∀ a ∈ new, done ++ ahead s.prio (s.prio a) rest ≠ []) →
          (∀ c, s'.state c = if c ∈ new then .readyToRun else s.state c) ∧
            (s'.list .readytorun).head? = (done ++ rest).head?)
  | [], done, rest, ret, b, s, s', h => by
    obtain ⟨rfl, -⟩ : _ = s' ∧ ret = b := by simpa [mergeLoop] using h
    exact ⟨rfl, rfl, ⟨_, rfl, rfl⟩, fun _ => ⟨fun c => by simp, by simp⟩⟩
  | t :: new, done, rest, ret, b, s, s', h => by
    rw [mergeLoop] at h
    cases hbehind : behind s.prio (s.prio t) rest with
    | nil => simp [hbehind] at h
    | cons r rest' =>
      simp only [hbehind] at h
      rw [merge_cons hbehind]
      split at h <;> rename_i hpos <;> obtain ⟨hp, hl, hm, hstate⟩ := mergeLoop_spec h <;>
        simp only [prio_setState, lockcount_setState, list_setState] at hp hl hm
      · rw [hpos]
        exact ⟨hp, hl, hm, fun hne => absurd hpos (hne t (by simp))⟩
      refine ⟨hp, hl, hm, fun _ => ?_⟩
      obtain ⟨hstate, hhead⟩ := hstate fun a _ => List.append_ne_nil_of_left_ne_nil hpos _
      refine ⟨fun c => ?_, ?_⟩
      · rw [hstate c, state_setState]
        rcases eq_or_ne c t with rfl | hc
        · simp
        · simp [hc]
      rw [hhead]
      have hrest : done ++ rest = (done ++ ahead s.prio (s.prio t) rest) ++ r :: rest' := by
        rw [List.append_assoc, ← hbehind, ahead_append_behind]
      rw [hrest]
      obtain ⟨x, l, hx⟩ := List.exists_cons_of_ne_nil hpos
      rw [hx]
      rfl

/-- The states and the head of `g_readytorun` after the loop of `sched_mergepending`: the first
pending task takes over when it is above the running one, and otherwise nothing changes at the
head. -/
theorem mergeLoop_pending (h : ListInv s) {r : Tid} (hl : s.list .readytorun = r :: l)
    (hrun : mergeLoop (s.list .pendingtasks) [] (s.list .readytorun) false s = .ok (s', b)) :
    ((∀ a ∈ s.list .pendingtasks, s.prio a ≤ s.prio r) ∧
      (∀ c, s'.state c = if c ∈ s.list .pendingtasks then .readyToRun else s.state c) ∧
        (s'.list .readytorun).head? = some r) ∨
    (∃ a new, s.list .pendingtasks = a :: new ∧ s.prio r < s.prio a ∧
      (∀ c, s'.state c = if c ∈ new then .readyToRun else if c = a then .running
        else if c = r then .readyToRun else s.state c) ∧
        (s'.list .readytorun).head? = some a) := by
  by_cases hlow : ∀ a ∈ s.list .pendingtasks, s.prio a ≤ s.prio r
  · obtain ⟨hstate, hhead⟩ := (mergeLoop_spec hrun).2.2.2 fun a ha => by
      rw [List.nil_append, hl]
      exact ahead_cons_ne_nil (hlow a ha)
    exact Or.inl ⟨hlow, hstate, by rw [hhead, hl]; rfl⟩
  cases hp : s.list .pendingtasks with
  | nil => simp [hp] at hlow
  | cons a new =>
    have hsorted : Desc s.prio (a :: new) := hp ▸ h.sorted .pendingtasks rfl
    have hle := (List.pairwise_cons.mp hsorted).1
    -- the first pending task is above the running one, since some pending task is
    have hhigh : s.prio r < s.prio a := by
      by_contra hcon
      refine hlow fun c hc => ?_
      rw [hp] at hc
      rcases List.mem_cons.mp hc with rfl | hc
      · omega
      · exact (hle c hc).trans (by omega)
    refine Or.inr ⟨a, new, rfl, hhigh, ?_⟩
    have hbehind : behind s.prio (s.prio a) (r :: l) = r :: l := by
      simp [behind, hhigh]
    rw [hp, hl, mergeLoop] at hrun
    simp only [hbehind, ahead_cons_of_lt hhigh, List.append_nil, if_true] at hrun
    obtain ⟨hstate, hhead⟩ := (mergeLoop_spec hrun).2.2.2 fun c hc => by
      rw [List.nil_append, prio_setState, prio_setState]
      exact ahead_cons_ne_nil (hle c hc)
    refine ⟨fun c => ?_, by rw [hhead]; rfl⟩
    rw [hstate c]
    simp only [state_setState, update_apply]

theorem mergeLoop_pending_list (h : ListInv s) {r : Tid} (hl : s.list .readytorun = r :: l)
    (hrun : mergeLoop (s.list .pendingtasks) [] (s.list .readytorun) false s = .ok (s', b)) :
    (s'.state c).list = if c ∈ s.list .pendingtasks then some .readytorun
      else (s.state c).list := by
  have hr : (s.state r).list = some .readytorun :=
    (h.mem_iff r .readytorun).mp (by rw [hl]; simp)
  rcases mergeLoop_pending h hl hrun with ⟨-, hst, -⟩ | ⟨a, new, hp, -, hst, -⟩
  · rw [hst c]
    split <;> rfl
  rw [hst c, hp]
  by_cases hnew : c ∈ new
  · rw [if_pos hnew, if_pos (by simp [hnew])]
    rfl
  rw [if_neg hnew]
  by_cases hca : c = a
  · rw [if_pos hca, if_pos (by simp [hca])]
    rfl
  have hnot : c ∉ a :: new := by simp [hnew, hca]
  rw [if_neg hca, if_neg hnot]
  split
  · rename_i hcr
    rw [hcr, hr]
    rfl
  · rfl

/-- Moving all of `g_pendingtasks` into `g_readytorun`. -/
theorem ListInv.merge (h : ListInv s) {m : List Tid}
    (hperm : m.Perm (s.list .pendingtasks ++ s.list .readytorun)) (hsort : Desc s.prio m)
    (hlist : s'.list = update (update s.list .readytorun m) .pendingtasks [])
    (hstate : ∀ c, (s'.state c).list =
      if c ∈ s.list .pendingtasks then some .readytorun else (s.state c).list)
    (hprio : s'.prio = s.prio) : ListInv s' := by
  have hready : s'.list .readytorun = m := by simp [hlist]
  have hpend : s'.list .pendingtasks = [] := by simp [hlist]
  have hother : ∀ L, L ≠ .readytorun → L ≠ .pendingtasks → s'.list L = s.list L := by
    intro L h1 h2
    rw [hlist, update_of_ne h2, update_of_ne h1]
  refine ⟨fun L => ?_, fun c L => ?_, fun L hL => ?_⟩
  · rcases eq_or_ne L .pendingtasks with rfl | hLp
    · simp [hpend]
    rcases eq_or_ne L .readytorun with rfl | hLr
    · rw [hready, hperm.nodup_iff, List.nodup_append]
      refine ⟨h.nodup _, h.nodup _, fun c hc d hd => ?_⟩
      rintro rfl
      rw [h.mem_iff] at hc hd
      rw [hc] at hd
      cases hd
    · rw [hother L hLr hLp]
      exact h.nodup L
  · rw [hstate c]
    rcases eq_or_ne L .pendingtasks with rfl | hLp
    · rw [hpend]
      by_cases hc : c ∈ s.list .pendingtasks
      · simp [hc]
      · simp only [List.not_mem_nil, hc, if_false, false_iff]
        exact fun hcon => hc ((h.mem_iff c _).mpr hcon)
    rcases eq_or_ne L .readytorun with rfl | hLr
    · rw [hready, hperm.mem_iff, List.mem_append, h.mem_iff c .readytorun]
      by_cases hc : c ∈ s.list .pendingtasks
      · simp [hc]
      · simp [hc]
    rw [hother L hLr hLp, h.mem_iff]
    by_cases hc : c ∈ s.list .pendingtasks
    · rw [if_pos hc, (h.mem_iff c .pendingtasks).mp hc]
      simp [Ne.symm hLp, Ne.symm hLr]
    · rw [if_neg hc]
  · rw [hprio]
    rcases eq_or_ne L .pendingtasks with rfl | hLp
    · rw [hpend]
      exact List.Pairwise.nil
    rcases eq_or_ne L .readytorun with rfl | hLr
    · rw [hready]
      exact hsort
    · rw [hother L hLr hLp]
      exact h.sorted L hL

/-- The running task is the head of the merged list. -/
theorem mergeLoop_head (h : ListInv s) (hh : HeadInv s) {r : Tid} (hl : s.list .readytorun = r :: l)
    (hrun : mergeLoop (s.list .pendingtasks) [] (s.list .readytorun) false s = .ok (s', b)) :
    s'.state c = .running ↔ (s'.list .readytorun).head? = some c := by
  have hr : s.state r = .running := (hh.running_iff r).mpr (by rw [hl]; rfl)
  have hother : ∀ c, c ≠ r → s.state c ≠ .running := by
    intro c hc hcr
    rw [hh.running_iff, hl] at hcr
    exact hc (Option.some.inj hcr).symm
  rcases mergeLoop_pending h hl hrun with ⟨-, hst, hhd⟩ | ⟨a, new, hp, -, hst, hhd⟩
  · rw [hst c, hhd, Option.some.injEq]
    split
    · rename_i hc
      rw [h.mem_iff] at hc
      refine ⟨nofun, ?_⟩
      rintro rfl
      rw [hr] at hc
      cases hc
    · rcases eq_or_ne c r with rfl | hc
      · simp [hr]
      · simp [hother c hc, Ne.symm hc]
  · have hnd := h.nodup .pendingtasks
    rw [hp, List.nodup_cons] at hnd
    rw [hst c, hhd, Option.some.injEq]
    by_cases hnew : c ∈ new
    · rw [if_pos hnew]
      refine ⟨nofun, ?_⟩
      rintro rfl
      exact absurd hnew hnd.1
    rw [if_neg hnew]
    by_cases hca : c = a
    · simp [hca]
    rw [if_neg hca]
    split
    · simp [Ne.symm hca]
    · rename_i hcr
      simp [hother c hcr, Ne.symm hca]

/-- What `sched_mergepending` does when `rtcb` is the head of `g_readytorun`. -/
structure Merged (s s' : Sched) (rtcb : Tid) : Prop where
  inv : ListInv s'
  frame : Frame s s'
  live : ∀ c, s'.state c = .invalid ↔ s.state c = .invalid
  pending : s'.list .pendingtasks = []
  mem_ready : ∀ c, c ∈ s'.list .readytorun ↔ c ∈ s.list .pendingtasks ∨ c ∈ s.list .readytorun
  head : HeadInv s → HeadInv s'
  head_eq_iff : (s'.list .readytorun).head? = some rtcb ↔
    ∀ a ∈ s.list .pendingtasks, s.prio a ≤ s.prio rtcb
  last : (s'.list .readytorun).getLast? = (s.list .readytorun).getLast?

theorem TaskState.eq_invalid_iff : st = .invalid ↔ st.list = none := by
  cases st <;> simp [list]

theorem ListInv.live (h : ListInv s) (ht : t ∈ s.list L) : s.state t ≠ .invalid := by
  rw [ne_eq, eq_invalid_iff, (h.mem_iff t L).mp ht]
  simp

theorem schedMergepending_spec (h : ListInv s) {rtcb : Tid} (hl : s.list .readytorun = rtcb :: l)
    (hrun : schedMergepending s = .ok (s', b)) : Merged s s' rtcb := by
  obtain ⟨⟨s1, b1⟩, hloop, hrest⟩ := bind_ok.mp hrun
  cases hrest
  obtain ⟨hprio, hlock, ⟨m, hmerge, hlist⟩, -⟩ := mergeLoop_spec hloop
  have hready : (s1.setList .pendingtasks []).list .readytorun = m := by
    rw [list_setList, hlist]
    simp
  have hperm := merge_perm hmerge
  rw [List.nil_append] at hperm
  have hsort : Desc s.prio m :=
    Desc.merge (h.sorted .pendingtasks rfl) (h.sorted .readytorun rfl) (by simp) hmerge
  refine ⟨h.merge hperm hsort (by rw [list_setList, hlist])
    (fun c => (mergeLoop_pending_list h hl hloop : (s1.state c).list = _)) hprio,
    ⟨hprio, hlock, fun L hL => ?_⟩,
    fun c => ?_, by simp, fun c => ?_, fun hh => ⟨fun c => ?_, ?_⟩, ?_, ?_⟩
  · rw [list_setList, update_of_ne (ne_pendingtasks hL), hlist, update_of_ne (ne_readytorun hL)]
  · rw [state_setList, eq_invalid_iff, eq_invalid_iff, mergeLoop_pending_list h hl hloop]
    split
    · rename_i hc
      simp [(h.mem_iff c _).mp hc]
    · rfl
  · rw [hready, hperm.mem_iff, List.mem_append]
  · rw [state_setList, mergeLoop_head h hh hl hloop, list_setList, update_of_ne (by simp)]
  · rw [hready]
    intro hnil
    rw [hnil, hl] at hperm
    simpa using hperm.length_eq
  · rw [hready]
    have hm : s1.list .readytorun = m := by rw [hlist, update_self]
    rcases mergeLoop_pending h hl hloop with ⟨hlow, -, hhd⟩ | ⟨a, new, hp, hhigh, -, hhd⟩
    · rw [hm] at hhd
      exact ⟨fun _ => hlow, fun _ => hhd⟩
    rw [hm] at hhd
    refine ⟨fun hr => ?_, fun hlow => ?_⟩
    · rw [hhd] at hr
      rw [Option.some.inj hr] at hhigh
      exact absurd hhigh (lt_irrefl _)
    · have := hlow a (by rw [hp]; simp)
      omega
  · rw [hready]
    exact getLast?_merge hmerge (by rw [hl]; simp)

/-- A list that ends below every pending task takes them all. -/
theorem exists_schedMergepending
    (hlow : ∃ b ∈ s.list .readytorun, ∀ a ∈ s.list .pendingtasks, s.prio b < s.prio a) :
    ∃ s' b, schedMergepending s = .ok (s', b) := by
  have hloop : ∀ (new done rest : List Tid) (ret : Bool) {s : Sched},
      (∃ l, merge s.prio new done rest = some l) →
        ∃ s' b, mergeLoop new done rest ret s = .ok (s', b) := by
    intro new
    induction new with
    | nil => intro done rest ret s _; exact ⟨_, _, rfl⟩
    | cons a new ih =>
      rintro done rest ret s ⟨l, hm⟩
      rw [mergeLoop]
      cases hb : behind s.prio (s.prio a) rest with
      | nil => rw [merge, hb] at hm; cases hm
      | cons r rest' =>
        rw [merge_cons hb] at hm
        simp only
        split
        · rename_i hnil
          rw [hnil] at hm
          exact ih _ _ _ ⟨l, by simpa using hm⟩
        · exact ih _ _ _ ⟨l, by simpa using hm⟩
  obtain ⟨s1, b, hrun⟩ := hloop _ [] _ false (exists_merge hlow)
  exact ⟨_, _, by rw [schedMergepending, hrun, ok_bind]⟩

end NuttX
