import NuttX.Kernel.Waits

/-!
# The waiters are counted right

The bookkeeping `NuttX.WaitsInv` is kept by every step, and so by every run that does not delete or
restart a task while it waits: `NuttX.KRun.waitsInv`. The proof looks at each way of
`NuttX.WaitStep` once.
-/

namespace NuttX

open Function Waiters

variable {cfg : SchedConfig} {op : KOp} {k k' : Kernel} {v v' : Waits} {ev : KEvent} {r w : Tid}
  {sem : SemId} {q : MqId} {e : MqEvent}

/-! ### Keeping the counts of one kind -/

theorem SemKept.count (h : SemKept v v') :
    count v'.waitsem sem v'.semList = count v.waitsem sem v.semList := by
  rw [h.list]
  exact count_congr h.waitsem

theorem SemKept.isSome (h : SemKept v v') (hv : ∀ t ∈ v.semList, (v.waitsem t).isSome) :
    ∀ t ∈ v'.semList, (v'.waitsem t).isSome := by
  intro t ht
  rw [h.list] at ht
  rw [h.waitsem t ht]
  exact hv t ht

theorem MqKept.count (h : MqKept v v') :
    count v'.msgwaitq q (v'.mqList e) = count v.msgwaitq q (v.mqList e) := by
  rw [h.list]
  exact count_congr (h.msgwaitq e)

theorem MqKept.isSome (h : MqKept v v') (hv : ∀ t ∈ v.mqList e, (v.msgwaitq t).isSome) :
    ∀ t ∈ v'.mqList e, (v'.msgwaitq t).isSome := by
  intro t ht
  rw [h.list] at ht
  rw [h.msgwaitq e t ht]
  exact hv t ht

theorem MqKept.mq (h : MqKept v v') (hv : WaitsInv v) :
    v'.nwait q e = Waiters.count v'.msgwaitq q (v'.mqList e) := by
  rw [h.count, h.nwait]
  exact hv.mq e q

section

variable (h : WaitsInv v)

include h

section

variable (hinv : SchedInv v'.sched)

include hinv

theorem WaitsInv.of_mqKept (hmq : MqKept v v')
    (hsem : ∀ s, (count v'.waitsem s v'.semList : ℤ) = max (-(v'.semcount s)) 0)
    (hsome : ∀ t ∈ v'.semList, (v'.waitsem t).isSome) : WaitsInv v' :=
  ⟨hinv, hsem, fun _ _ => hmq.mq h, hsome, fun e => hmq.isSome (h.msgwaitq_isSome e)⟩

theorem WaitsInv.of_semKept (hsem : SemKept v v') (hcount : v'.semcount = v.semcount)
    (hmq : ∀ e q, v'.nwait q e = count v'.msgwaitq q (v'.mqList e))
    (hsome : ∀ e, ∀ t ∈ v'.mqList e, (v'.msgwaitq t).isSome) : WaitsInv v' :=
  ⟨hinv, fun s => by rw [hsem.count, hcount]; exact h.sem s, hmq, hsem.isSome h.waitsem_isSome,
    hsome⟩

/-! ### Joining and leaving -/

theorem WaitsInv.semLeft (hl : SemLeft v v' w sem) (hmq : MqKept v v') : WaitsInv v' := by
  have hnd : v.semList.Nodup := h.sched.nodup _
  refine h.of_mqKept hinv hmq (fun s => ?_) fun t ht => ?_
  · have hcount := count_leave (d := s) (x := none) hl.mem hnd hl.waits
    have hold := h.sem s
    rw [hl.list, hl.waitsem, hl.semcount]
    rcases eq_or_ne s sem with rfl | hs
    · -- somebody waits, so that the count is negative
      rw [if_pos rfl] at hcount
      rw [update_self]
      omega
    · rw [if_neg hs] at hcount
      rw [update_of_ne hs]
      omega
  · rw [hl.list] at ht
    have htw : t ≠ w := by
      rintro rfl
      exact hnd.not_mem_erase ht
    rw [hl.waitsem, update_of_ne htw]
    exact h.waitsem_isSome t (List.mem_of_mem_erase ht)

theorem WaitsInv.semJoined (hj : SemJoined v v' r sem) (hmq : MqKept v v') : WaitsInv v' := by
  refine h.of_mqKept hinv hmq (fun s => ?_) fun t ht => ?_
  · have hcount : count (update v.waitsem r (some sem)) s v'.semList =
        count v.waitsem s v.semList + if s = sem then 1 else 0 :=
      count_join hj.notMem (by rw [hj.list]; exact Prio.insert_perm)
    have hold := h.sem s
    have hneg := hj.nonpos
    rw [hj.waitsem, hj.semcount, hcount]
    rcases eq_or_ne s sem with rfl | hs
    · rw [if_pos rfl, update_self]
      omega
    · rw [if_neg hs, update_of_ne hs]
      omega
  · rw [hj.list, Prio.mem_insert] at ht
    rw [hj.waitsem]
    rcases ht with rfl | ht
    · rw [update_self]
      rfl
    have htr : t ≠ r := by
      rintro rfl
      exact hj.notMem ht
    rw [update_of_ne htr]
    exact h.waitsem_isSome t ht

theorem WaitsInv.mqLeft (hsem : SemKept v v') (hcount : v'.semcount = v.semcount)
    (hl : MqLeft v v' w e q) : WaitsInv v' := by
  have hnd : ∀ e', (v.mqList e').Nodup := fun e' => h.sched.nodup _
  refine h.of_semKept hinv hsem hcount (fun e' q' => ?_) fun e' t ht => ?_
  · rw [hl.nwait, hl.list, hl.msgwaitq, h.mq]
    rcases eq_or_ne e' e with rfl | he
    · have hcount := count_leave (d := q') (x := none) hl.mem (hnd _) hl.waits
      rcases eq_or_ne q' q with rfl | hq
      · rw [if_pos rfl] at hcount
        rw [if_pos ⟨rfl, rfl⟩]
        omega
      · rw [if_neg hq] at hcount
        rw [if_neg fun hc => hq hc.1]
        omega
    · have hnot : w ∉ v.mqList e' :=
        h.sched.toListInv.notMem_of_ne hl.mem fun hl' => he (MqEvent.list_injective hl')
      rw [if_neg fun hc => he hc.2, List.erase_of_not_mem hnot, count_update_of_notMem hnot]
      omega
  · rw [hl.list] at ht
    have htw : t ≠ w := by
      rintro rfl
      exact (hnd e').not_mem_erase ht
    rw [hl.msgwaitq, update_of_ne htw]
    exact h.msgwaitq_isSome e' t (List.mem_of_mem_erase ht)

theorem WaitsInv.mqJoined (hsem : SemKept v v') (hcount : v'.semcount = v.semcount)
    (hj : MqJoined v v' r e q) : WaitsInv v' := by
  refine h.of_semKept hinv hsem hcount (fun e' q' => ?_) fun e' t ht => ?_
  · rw [hj.nwait, hj.msgwaitq, h.mq]
    rcases eq_or_ne e' e with rfl | he
    · rw [count_join (hj.notMem _) hj.list]
      rcases eq_or_ne q' q with rfl | hq
      · rw [if_pos ⟨rfl, rfl⟩, if_pos rfl]
        omega
      · rw [if_neg fun hc => hq hc.1, if_neg hq]
        omega
    · rw [hj.other e' he, count_update_of_notMem (hj.notMem e'), if_neg fun hc => he hc.2]
      omega
  · rw [hj.msgwaitq]
    rcases eq_or_ne t r with rfl | htr
    · rw [update_self]
      rfl
    rw [update_of_ne htr]
    refine h.msgwaitq_isSome e' t ?_
    rcases eq_or_ne e' e with rfl | he
    · exact (List.mem_cons.mp (hj.list.mem_iff.mp ht)).resolve_left htr
    · rwa [hj.other e' he] at ht

end

end

/-! ### Steps and runs -/

/-- **One step keeps the bookkeeping right.** -/
theorem WaitsInv.step (h : WaitsInv k.waits) (hs : KStep op k k' ev) : WaitsInv k'.waits := by
  obtain ⟨hinv, hwait⟩ := hs
  cases hwait with
  | keep _ sem count mq =>
    refine h.of_mqKept hinv mq (fun s => ?_) (sem.isSome h.waitsem_isSome)
    rw [sem.count, count]
    exact h.sem s
  | take r s sem pos count mq | post s sem nonneg count mq =>
    refine h.of_mqKept hinv mq (fun s' => ?_) (sem.isSome h.waitsem_isSome)
    have hold := h.sem s'
    rw [sem.count, count]
    rcases eq_or_ne s' s with rfl | hs
    · rw [update_self]
      omega
    · rw [update_of_ne hs]
      exact hold
  | wake s w _ left mq | cancel s w left mq => exact h.semLeft hinv left mq
  | join r s joined mq => exact h.semJoined hinv joined mq
  | mqLeave w e q sem count left => exact h.mqLeft hinv sem count left
  | mqJoin r e q sem count joined => exact h.mqJoined hinv sem count joined
  | reorder t p _ list waitsem count msgwaitq nwait =>
    have hsem := list .waitingforsemaphore rfl
    refine ⟨hinv, fun s => ?_, fun e q => ?_, fun t ht => ?_, fun e t ht => ?_⟩
    · rw [waitsem, count, ← h.sem s]
      exact congrArg _ (count_perm hsem)
    · rw [nwait, msgwaitq, h.mq e q]
      exact congrArg _ (count_perm (list _ e.isWait)).symm
    · rw [waitsem]
      exact h.waitsem_isSome t (hsem.mem_iff.mp ht)
    · rw [msgwaitq]
      exact h.msgwaitq_isSome e t ((list _ e.isWait).mem_iff.mp ht)

theorem WaitsInv.boot {n : SemId → ℕ} {maxmsgs : MqId → ℤ} {maxmsgsize : MqId → ℕ} :
    WaitsInv (Kernel.boot n maxmsgs maxmsgsize).waits := by
  refine ⟨SchedInv.osStart, fun s => ?_, fun e q => ?_, nofun, fun e => ?_⟩
  · have hcount : count (Kernel.boot n maxmsgs maxmsgsize).waits.waitsem s
      (Kernel.boot n maxmsgs maxmsgsize).waits.semList = 0 := rfl
    have hsem : (Kernel.boot n maxmsgs maxmsgsize).waits.semcount s = n s := rfl
    omega
  · cases e <;> rfl
  · cases e <;> nofun

variable {P : KOp → Kernel → Prop} {k₀ : Kernel} {tr : List KEvent}

/-- **The bookkeeping is right in every run** that deletes and restarts no waiting task. -/
theorem KRun.waitsInv (hP : ∀ op k, P op k → op.SparesWaiters k) (h0 : WaitsInv k₀.waits)
    (h : KRun cfg P k₀ tr k) : WaitsInv k.waits := by
  induction h with
  | boot => exact h0
  | step op _ hlegal hp hrun ih => exact ih.step (op.step ih hlegal (hP _ _ hp) hrun)

end NuttX
