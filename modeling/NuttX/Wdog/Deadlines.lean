import NuttX.Wdog.Queue

/-!
# The watchdog queue refines absolute deadlines

A run of the watchdog facility is any interleaving of its calls. `wd_timer` contributes three
kinds of events – its entry (`tick`), each watchdog function it calls (`expire`), its return
(`ret`) – and between any two of them come the calls that other code makes, which while the timer
interrupt is being served is the code of the watchdog functions themselves. A call is legal on a
watchdog that has been created and not deleted since, with a delay below `INT_MAX`.

The specification knows nothing of lags. It reads the *trace* of a run: a watchdog started with
delay `d` when `t` timer calls had been made is due at `t + d + 1`
(`NuttX.Wdog.deadline`), and the order of two starts is their order in the trace
(`NuttX.Wdog.startedAt`). `NuttX.Wdog.run_deadlineLaw` says that every run obeys it.
-/

namespace NuttX

open List

namespace Wdog

open Delta

/-! ### Runs -/

/-- The watchdog facility, with the number of timer calls made so far and whether the expiry loop
of one is running. -/
structure WdSys where
  st : WdState
  now : ℤ
  inTimer : Bool

/-- What happens in a run. -/
inductive WdEvent
  | create (w : Option WdogId)
  | start (w : WdogId) (delay : ℤ)
  | cancel (w : WdogId)
  | delete (w : WdogId)
  | tick
  | expire (w : WdogId)
  | ret
  deriving DecidableEq, Repr

/-- A watchdog of the pool that has been created and not deleted since. -/
def Allocated (pool : List WdogId) (s : WdState) (w : WdogId) : Prop :=
  w ∈ pool ∧ w ∉ s.freeList

section Runs

variable (pool : List WdogId) (maxParms : ℕ)

/-- One step of a run. -/
inductive WdStep : WdSys → WdEvent → WdSys → Prop
  | create {s : WdSys} {st' : WdState} {w : Option WdogId} :
      wdCreate s.st = (st', w) → WdStep s (.create w) { s with st := st' }
  | start {s : WdSys} {st' : WdState} {w : WdogId} {d : ℤ} {func argc : ℕ} {parm : List ℕ} :
      Allocated pool s.st w → 0 ≤ d → d < intMax → argc ≤ maxParms →
      wdStart maxParms s.st (some w) d func argc parm = .ok (st', .ok, .ok) →
      WdStep s (.start w d) { s with st := st' }
  | cancel {s : WdSys} {st' : WdState} {w : WdogId} {r : Status} :
      Allocated pool s.st w → wdCancel s.st (some w) = .ok (st', r) →
      WdStep s (.cancel w) { s with st := st' }
  | delete {s : WdSys} {st' : WdState} {w : WdogId} :
      Allocated pool s.st w → wdDelete s.st (some w) = .ok (st', .ok, .ok) →
      WdStep s (.delete w) { s with st := st' }
  | tick {s : WdSys} :
      s.inTimer = false → WdStep s .tick ⟨wdTimerTick s.st, s.now + 1, true⟩
  | expire {s : WdSys} {st' : WdState} {w : WdogId} :
      s.inTimer = true → wdTimerDue s.st = true → wdTimerExpire s.st = (st', some w) →
      WdStep s (.expire w) { s with st := st' }
  | ret {s : WdSys} :
      s.inTimer = true → wdTimerDue s.st = false → WdStep s .ret { s with inTimer := false }

/-- The runs of the watchdog facility, with their traces, newest event first. -/
inductive Run : List WdEvent → WdSys → Prop
  | init (contents : WdogId → WdogT) : pool.Nodup → Run [] ⟨wdInitialize pool contents, 0, false⟩
  | step {tr : List WdEvent} {s s' : WdSys} {e : WdEvent} :
      Run tr s → WdStep pool maxParms s e s' → Run (e :: tr) s'

end Runs

/-! ### The specification, on traces -/

/-- The number of timer calls in a trace. -/
def ticks : List WdEvent → ℤ
  | [] => 0
  | .tick :: tr => ticks tr + 1
  | _ :: tr => ticks tr

/-- **The deadline of a watchdog**: `t + d + 1` when it was last started with delay `d` at tick `t`
and neither cancelled nor deleted nor run since. -/
def deadline (w : WdogId) : List WdEvent → Option ℤ
  | [] => none
  | .start v d :: tr => if v = w then some (ticks tr + d + 1) else deadline w tr
  | .cancel v :: tr => if v = w then none else deadline w tr
  | .delete v :: tr => if v = w then none else deadline w tr
  | .expire v :: tr => if v = w then none else deadline w tr
  | _ :: tr => deadline w tr

/-- The position in the trace of the last start of a watchdog. -/
def startedAt (w : WdogId) : List WdEvent → ℕ
  | [] => 0
  | .start v _ :: tr => if v = w then tr.length else startedAt w tr
  | _ :: tr => startedAt w tr

/-- The event stops or restarts the watchdog. -/
def WdEvent.Stops (w : WdogId) : WdEvent → Prop
  | .start v _ => v = w
  | .cancel v => v = w
  | .delete v => v = w
  | _ => False

variable {d : ℤ}

theorem startedAt_lt {w : WdogId} :
    ∀ {tr : List WdEvent}, deadline w tr = some d → startedAt w tr < tr.length
  | [], h => by simp [deadline] at h
  | .start v e :: tr, h => by
    rw [startedAt]
    split
    · simp
    · rename_i hv
      rw [deadline, if_neg hv] at h
      exact Nat.lt_succ_of_lt (startedAt_lt h)
  | .cancel v :: tr, h | .delete v :: tr, h | .expire v :: tr, h => by
    rw [deadline] at h
    split at h
    · cases h
    · exact Nat.lt_succ_of_lt (startedAt_lt h)
  | .create _ :: tr, h | .tick :: tr, h | .ret :: tr, h =>
    Nat.lt_succ_of_lt (startedAt_lt (show deadline w tr = _ from h))

/-! ### The simulation -/

/-- The queue holds exactly the deadlines the trace prescribes, equal ones in the order of their
starts. -/
structure Holds (tr : List WdEvent) (q : List (WdogId × ℤ)) : Prop where
  mem_iff : ∀ w d, (w, d) ∈ q ↔ deadline w tr = some d
  fifo : q.Pairwise fun x y => x.2 = y.2 → startedAt x.1 tr < startedAt y.1 tr

/-- The state of the facility after a trace. -/
structure Sim (pool : List WdogId) (tr : List WdEvent) (s : WdSys) : Prop where
  clock : s.now = ticks tr
  inv : QueueInv s.st
  free_nodup : s.st.freeList.Nodup
  linked : ∀ w ∈ s.st.activeList, Allocated pool s.st w
  active : ∀ w, Allocated pool s.st w → (s.st.wdog w).active = true → w ∈ s.st.activeList
  holds : Holds tr (queue s.st s.now)
  idle : s.inTimer = false → ∀ p ∈ queue s.st s.now, s.now < p.2

variable {pool : List WdogId} {maxParms : ℕ} {tr : List WdEvent} {s s' : WdSys} {w : WdogId}
  {e : WdEvent} {st' : WdState} {q : List (WdogId × ℤ)}

theorem mem_activeList_iff {st : WdState} (t : ℤ) :
    w ∈ st.activeList ↔ ∃ d, (w, d) ∈ queue st t := by
  rw [← map_fst_queue (t := t), mem_map]
  constructor
  · rintro ⟨⟨v, d⟩, hp, rfl⟩
    exact ⟨d, hp⟩
  · rintro ⟨d, hp⟩
    exact ⟨(w, d), hp, rfl⟩

theorem Sim.mem_activeList_iff_deadline (h : Sim pool tr s) :
    w ∈ s.st.activeList ↔ ∃ d, deadline w tr = some d := by
  rw [mem_activeList_iff s.now]
  exact exists_congr fun d => h.holds.mem_iff w d

theorem Holds.of_eq {tr' : List WdEvent} (h : Holds tr q) (hd : ∀ w, deadline w tr' = deadline w tr)
    (hs : ∀ w, startedAt w tr' = startedAt w tr) : Holds tr' q :=
  ⟨fun w d => by rw [hd w]; exact h.mem_iff w d,
    h.fifo.imp fun {x y} hxy heq => by rw [hs, hs]; exact hxy heq⟩

theorem mem_filter_ne {p : WdogId × ℤ} :
    p ∈ q.filter (fun p => decide (p.1 ≠ w)) ↔ p ∈ q ∧ p.1 ≠ w := by
  simp

theorem Holds.remove {tr' : List WdEvent} (h : Holds tr q) (hself : deadline w tr' = none)
    (hd : ∀ v, v ≠ w → deadline v tr' = deadline v tr)
    (hs : ∀ v, startedAt v tr' = startedAt v tr) :
    Holds tr' (q.filter fun p => decide (p.1 ≠ w)) := by
  refine ⟨fun v d => ?_, (h.fifo.filter _).imp fun {x y} hxy heq => by rw [hs, hs]; exact hxy heq⟩
  rw [mem_filter_ne]
  rcases eq_or_ne v w with rfl | hv
  · simp [hself]
  · rw [hd v hv, ← h.mem_iff v d]
    exact ⟨fun hx => hx.1, fun hx => ⟨hx, hv⟩⟩

/-- Starting a watchdog. -/
theorem Holds.start (h : Holds tr q) (hs : q.Pairwise fun x y => x.2 ≤ y.2) :
    Holds (.start w d :: tr)
      (insertTime w (ticks tr + (d + 1)) (q.filter fun p => decide (p.1 ≠ w))) := by
  refine ⟨fun v e => ?_, ?_⟩
  · rw [mem_insertTime, mem_filter_ne, Prod.mk.injEq]
    rcases eq_or_ne v w with rfl | hv
    · simp only [true_and, ne_eq, not_true_eq_false, and_false, or_false, deadline, if_true,
        Option.some.injEq]
      omega
    · rw [deadline, if_neg (Ne.symm hv), ← h.mem_iff v e]
      exact ⟨fun hx => hx.elim (fun hc => absurd hc.1 hv) fun hx => hx.1, fun hx => Or.inr ⟨hx, hv⟩⟩
  have hkeep : ∀ x ∈ q.filter (fun p => decide (p.1 ≠ w)),
      startedAt x.1 (.start w d :: tr) = startedAt x.1 tr := by
    intro x hx
    rw [startedAt, if_neg (Ne.symm (mem_filter_ne.mp hx).2)]
  have hfifo : (q.filter fun p => decide (p.1 ≠ w)).Pairwise fun x y => x.2 = y.2 →
      startedAt x.1 (.start w d :: tr) < startedAt y.1 (.start w d :: tr) := by
    refine (h.fifo.filter _).imp_of_mem fun {x y} hx hy hxy heq => ?_
    rw [hkeep x hx, hkeep y hy]
    exact hxy heq
  obtain ⟨q1, q2, hq, hins, h1, h2⟩ := exists_insertTime_eq w (hs.filter fun p => decide (p.1 ≠ w))
  rw [hins]
  rw [hq] at hfifo hkeep
  obtain ⟨hp1, hp2, hp12⟩ := pairwise_append.mp hfifo
  refine pairwise_append.mpr ⟨hp1, pairwise_cons.mpr ⟨fun x hx heq => ?_, hp2⟩, ?_⟩
  · -- everything behind the new watchdog is strictly later
    have hlt := h2 x hx
    omega
  · intro x hx y hy heq
    rcases mem_cons.mp hy with rfl | hy
    · -- everything in front of it was started before
      have hx' : x ∈ q := (mem_filter_ne.mp (hq ▸ mem_append_left q2 hx)).1
      rw [hkeep x (mem_append_left q2 hx), startedAt, if_pos rfl]
      exact startedAt_lt ((h.mem_iff x.1 x.2).mp hx')
    · exact hp12 x hx y hy heq

/-! ### One step -/

theorem allocated_congr {st st' : WdState} (h : st'.freeList = st.freeList) :
    Allocated pool st' w ↔ Allocated pool st w := by
  rw [Allocated, Allocated, h]

section

variable (h : Sim pool tr s)

include h

/-- The steps that stop a watchdog. -/
theorem Sim.remove (hout : Unlinked w s.st st') (hticks : ticks (e :: tr) = ticks tr)
    (hd : ∀ v, deadline v (e :: tr) = if w = v then none else deadline v tr)
    (hs : ∀ v, startedAt v (e :: tr) = startedAt v tr) :
    Sim pool (e :: tr) { s with st := st' } := by
  have hsub : ∀ v, v ∈ st'.activeList ↔ v ∈ s.st.activeList ∧ v ≠ w := by
    intro v
    rw [mem_activeList_iff s.now, mem_activeList_iff s.now, hout.queue]
    simp
  refine ⟨h.clock.trans hticks.symm, hout.inv, by rw [hout.freeList]; exact h.free_nodup,
    ?_, ?_, ?_, ?_⟩
  · intro v hv
    rw [allocated_congr hout.freeList]
    exact h.linked v ((hsub v).mp hv).1
  · intro v hal hv
    rw [allocated_congr hout.freeList] at hal
    rw [hout.active v] at hv
    split at hv
    · cases hv
    · rename_i hvw
      exact (hsub v).mpr ⟨h.active v hal hv, hvw⟩
  · rw [hout.queue]
    refine h.holds.remove ?_ (fun v hv => ?_) hs
    · rw [hd w, if_pos rfl]
    · rw [hd v, if_neg (Ne.symm hv)]
  · intro hidle p hp
    rw [hout.queue] at hp
    exact h.idle hidle p (mem_filter.mp hp).1

theorem Sim.create {w : Option WdogId} (hrun : wdCreate s.st = (st', w)) :
    Sim pool (.create w :: tr) { s with st := st' } := by
  rw [wdCreate] at hrun
  cases hf : s.st.freeList with
  | nil =>
    simp only [hf, Prod.mk.injEq] at hrun
    obtain ⟨rfl, rfl⟩ := hrun
    exact ⟨h.clock, h.inv, h.free_nodup, h.linked, h.active,
      h.holds.of_eq (fun _ => rfl) fun _ => rfl, h.idle⟩
  | cons v free =>
    simp only [hf, Prod.mk.injEq] at hrun
    obtain ⟨rfl, rfl⟩ := hrun
    have hnd : v ∉ free ∧ free.Nodup := nodup_cons.mp (hf ▸ h.free_nodup)
    -- the watchdog taken from the free list is not linked
    have hnot : v ∉ s.st.activeList := fun hm => (h.linked v hm).2 (by simp [hf])
    have hq : queue ({ s.st with freeList := free }.setActive v false) s.now = queue s.st s.now :=
      queue_setActive
    have hact : ∀ c ∈ s.st.activeList,
        (({ s.st with freeList := free }.setActive v false).wdog c).active =
          (s.st.wdog c).active := by
      intro c hc
      rw [active_setActive, if_neg]
      rintro rfl
      exact hnot hc
    refine ⟨h.clock, ⟨h.inv.nodup, ?_, ?_⟩, hnd.2, ?_, ?_, ?_, ?_⟩
    · intro c hc
      rw [lag_setActive]
      exact h.inv.nonneg c hc
    · intro c hc
      exact (hact c hc).trans (h.inv.active c hc)
    · intro c hc
      obtain ⟨hp, hfree⟩ := h.linked c hc
      exact ⟨hp, fun hm => hfree (by rw [hf]; exact mem_cons_of_mem v hm)⟩
    · rintro c ⟨hp, hfree⟩ hc
      rw [active_setActive] at hc
      split at hc
      · cases hc
      · rename_i hcv
        refine h.active c ⟨hp, ?_⟩ hc
        rw [hf, mem_cons]
        exact fun hm => hm.elim hcv hfree
    · exact hq.symm ▸ h.holds.of_eq (fun _ => rfl) fun _ => rfl
    · intro hidle p hp
      exact h.idle hidle p (hq ▸ hp)

section

variable (hal : Allocated pool s.st w)

include hal

theorem Sim.started {func argc : ℕ} {parm : List ℕ} (h0 : 0 ≤ d) (h1 : d < intMax)
    (hargc : argc ≤ maxParms)
    (hrun : wdStart maxParms s.st (some w) d func argc parm = .ok (st', .ok, .ok)) :
    Started w d s.st st' := by
  obtain ⟨st1, hrun1, hout⟩ := wdStart_spec func parm h.inv (h.active w hal) hargc h0 h1
  rw [hrun1] at hrun
  cases hrun
  exact hout

theorem Sim.cancelled {r : Status} (hrun : wdCancel s.st (some w) = .ok (st', r)) :
    Unlinked w s.st st' := by
  obtain ⟨st1, r1, hrun1, hout⟩ := wdCancel_spec h.inv (h.active w hal)
  rw [hrun1] at hrun
  cases hrun
  exact hout

theorem Sim.wdDelete_eq :
    ∃ st1, wdDelete s.st (some w) = .ok ({ st1 with freeList := st1.freeList ++ [w] }, .ok, .ok) ∧
      Unlinked w s.st st1 := by
  obtain ⟨st1, hrun, hout⟩ := wdStop_spec h.inv (h.active w hal)
  refine ⟨st1, ?_, hout⟩
  simp only [wdDelete, hrun, ok_bind]
  rfl

theorem Sim.deleted (hrun : wdDelete s.st (some w) = .ok (st', .ok, .ok)) :
    ∃ st1, { st1 with freeList := st1.freeList ++ [w] } = st' ∧ Unlinked w s.st st1 := by
  obtain ⟨st1, hrun1, hout⟩ := h.wdDelete_eq hal
  rw [hrun1] at hrun
  cases hrun
  exact ⟨st1, rfl, hout⟩

theorem Sim.start (h0 : 0 ≤ d) (hout : Started w d s.st st') :
    Sim pool (.start w d :: tr) { s with st := st' } := by
  have hsub : ∀ v, v ∈ st'.activeList ↔ v = w ∨ v ∈ s.st.activeList := by
    intro v
    rw [mem_activeList_iff s.now, mem_activeList_iff s.now, hout.queue]
    simp only [mem_insertTime, mem_filter_ne, Prod.mk.injEq]
    rcases eq_or_ne v w with rfl | hv
    · simp
    · simp [hv]
  refine ⟨h.clock, hout.inv, by rw [hout.freeList]; exact h.free_nodup, ?_, ?_, ?_, ?_⟩
  · intro v hv
    rw [allocated_congr hout.freeList]
    rcases (hsub v).mp hv with rfl | hv
    · exact hal
    · exact h.linked v hv
  · intro v halv hv
    rw [allocated_congr hout.freeList] at halv
    rw [hout.active v] at hv
    rcases eq_or_ne v w with rfl | hvw
    · exact (hsub v).mpr (Or.inl rfl)
    · rw [if_neg hvw] at hv
      exact (hsub v).mpr (Or.inr (h.active v halv hv))
  · rw [hout.queue s.now, h.clock]
    exact (h.clock ▸ h.holds).start (h.clock ▸ h.inv.pairwise s.now)
  · intro hidle p hp
    rw [hout.queue s.now, mem_insertTime] at hp
    rcases hp with rfl | hp
    · change s.now < s.now + (d + 1)
      omega
    · exact h.idle hidle p (mem_filter.mp hp).1

theorem Sim.delete {st1 : WdState} (hout : Unlinked w s.st st1) :
    Sim pool (.delete w :: tr) { s with st := { st1 with freeList := st1.freeList ++ [w] } } := by
  have hsim := h.remove (e := .delete w) hout rfl (fun _ => rfl) fun _ => rfl
  have hinv := hout.inv
  refine ⟨hsim.clock, ⟨hinv.nodup, hinv.nonneg, hinv.active⟩, ?_, ?_, ?_, hsim.holds, hsim.idle⟩
  · rw [hout.freeList]
    exact nodup_append.mpr ⟨h.free_nodup, by simp, by
      intro a ha b hb
      rw [mem_singleton] at hb
      rintro rfl
      exact hal.2 (hb ▸ ha)⟩
  · intro v hv
    obtain ⟨hp, hf⟩ := hsim.linked v hv
    refine ⟨hp, ?_⟩
    rw [mem_append, mem_singleton]
    exact fun hm => hm.elim hf fun hvw => hout.notMem (hvw ▸ hv)
  · rintro v ⟨hp, hf⟩ hv
    exact hsim.active v ⟨hp, fun hm => hf (mem_append_left _ hm)⟩ hv

end

theorem Sim.tick (hidle : s.inTimer = false) :
    Sim pool (.tick :: tr) ⟨wdTimerTick s.st, s.now + 1, true⟩ := by
  have hlist : (wdTimerTick s.st).activeList = s.st.activeList := activeList_addHeadLag
  have hfree : (wdTimerTick s.st).freeList = s.st.freeList := freeList_addHeadLag
  have hq : queue (wdTimerTick s.st) (s.now + 1) = queue s.st s.now := queue_wdTimerTick h.inv.nodup
  have hpos : ∀ n l, s.st.activeList = n :: l → 0 < s.st.lag n := by
    intro n l hl
    have hlt := h.idle hidle (n, s.now + s.st.lag n) (by rw [queue, hl, times_cons]; simp)
    omega
  refine ⟨?_, h.inv.wdTimerTick hpos, by rw [hfree]; exact h.free_nodup, ?_, ?_, ?_, by simp⟩
  · change s.now + 1 = ticks tr + 1
    rw [h.clock]
  · intro v hv
    rw [hlist] at hv
    rw [allocated_congr hfree]
    exact h.linked v hv
  · intro v hal hv
    rw [allocated_congr hfree] at hal
    rw [hlist]
    exact h.active v hal (active_addHeadLag ▸ hv)
  · rw [hq]
    exact h.holds.of_eq (fun _ => rfl) fun _ => rfl

theorem Sim.expire_due (hdue : wdTimerDue s.st = true) (hrun : wdTimerExpire s.st = (st', some w)) :
    queue s.st s.now = (w, s.now) :: queue st' s.now ∧ Unlinked w s.st st' := by
  obtain ⟨⟨v, d⟩, q, hq, hle⟩ := (wdTimerDue_iff).mp hdue
  have hge := h.inv.clock_le (p := (v, d)) (by rw [hq]; simp)
  obtain rfl : d = s.now := le_antisymm hle hge
  obtain ⟨st1, hrun1, hout, hq1⟩ := wdTimerExpire_spec h.inv hq
  rw [hrun1] at hrun
  cases hrun
  exact ⟨hq1 ▸ hq, hout⟩

theorem Sim.lt_of_not_due (hdue : wdTimerDue s.st = false) :
    ∀ p ∈ queue s.st s.now, s.now < p.2 := by
  cases hq : queue s.st s.now with
  | nil => simp
  | cons x q =>
    have hx : s.now < x.2 := by
      by_contra hle
      have : wdTimerDue s.st = true := wdTimerDue_iff.mpr ⟨x, q, hq, by omega⟩
      rw [hdue] at this
      cases this
    have hs := h.inv.pairwise s.now
    rw [hq] at hs
    intro p hp
    rcases mem_cons.mp hp with rfl | hp
    · exact hx
    · exact lt_of_lt_of_le hx ((pairwise_cons.mp hs).1 p hp)

/-- **Every step keeps the simulation.** -/
theorem Sim.step (hstep : WdStep pool maxParms s e s') : Sim pool (e :: tr) s' := by
  cases hstep with
  | create hrun => exact h.create hrun
  | start hal h0 h1 hargc hrun => exact h.start hal h0 (h.started hal h0 h1 hargc hrun)
  | cancel hal hrun => exact h.remove (h.cancelled hal hrun) rfl (fun _ => rfl) fun _ => rfl
  | delete hal hrun =>
    obtain ⟨st1, rfl, hout⟩ := h.deleted hal hrun
    exact h.delete hal hout
  | tick hidle => exact h.tick hidle
  | expire _ hdue hrun =>
    exact h.remove (h.expire_due hdue hrun).2 rfl (fun _ => rfl) fun _ => rfl
  | ret _ hdue =>
    exact ⟨h.clock, h.inv, h.free_nodup, h.linked, h.active,
      h.holds.of_eq (fun _ => rfl) fun _ => rfl, fun _ => h.lt_of_not_due hdue⟩

end

theorem Run.sim (h : Run pool maxParms tr s) : Sim pool tr s := by
  induction h with
  | init contents hnd =>
    exact ⟨rfl, ⟨by simp [wdInitialize], by simp [wdInitialize], by simp [wdInitialize]⟩, hnd,
      by simp [wdInitialize], fun w hal => absurd hal.1 hal.2,
      ⟨by simp [queue, wdInitialize, deadline], by simp [queue, wdInitialize]⟩,
      by simp [queue, wdInitialize]⟩
  | step _ hstep ih => exact ih.step hstep

/-! ### The law of deadlines -/

theorem Run.of_cons (h : Run pool maxParms (e :: tr) s) :
    ∃ s0, Run pool maxParms tr s0 ∧ WdStep pool maxParms s0 e s := by
  cases h with
  | step hrun hstep => exact ⟨_, hrun, hstep⟩

theorem deadline_cons (h : ¬ e.Stops w) (hx : e ≠ .expire w) :
    deadline w (e :: tr) = deadline w tr := by
  cases e with
  | create v | tick | ret => rfl
  | start v d | cancel v | delete v => exact if_neg h
  | expire v => rw [deadline, if_neg fun hv => hx (by rw [hv])]

/-- A watchdog that is neither stopped nor restarted has not run yet and keeps its deadline, or has
run once, at its deadline. -/
theorem Run.once {newer older : List WdEvent} (hstops : ∀ e ∈ newer, ¬ e.Stops w) :
    ∀ {s : WdSys}, Run pool maxParms (newer ++ .start w d :: older) s →
      (deadline w (newer ++ .start w d :: older) = some (ticks older + d + 1) ∧
        newer.count (.expire w) = 0) ∨
      (deadline w (newer ++ .start w d :: older) = none ∧ newer.count (.expire w) = 1 ∧
        ∀ n1 n2, newer = n1 ++ .expire w :: n2 →
          ticks (n2 ++ .start w d :: older) = ticks older + d + 1) := by
  induction newer with
  | nil =>
    intro s _
    refine Or.inl ⟨?_, rfl⟩
    rw [nil_append, deadline, if_pos rfl]
  | cons e newer ih =>
    intro s hrun
    obtain ⟨s0, hrun0, hstep⟩ : ∃ s0, Run pool maxParms (newer ++ .start w d :: older) s0 ∧
      WdStep pool maxParms s0 e s := Run.of_cons hrun
    have ih' := ih (fun e' he' => hstops e' (by simp [he'])) hrun0
    have hns := hstops e (by simp)
    by_cases he : e = .expire w
    · subst he
      -- the expiry loop only takes a watchdog whose deadline is now
      cases hstep with
      | expire _ hdue hexp =>
        obtain ⟨hq, -⟩ := hrun0.sim.expire_due hdue hexp
        have hnow := (hrun0.sim.holds.mem_iff w s0.now).mp (by rw [hq]; simp)
        rcases ih' with ⟨hd, hcount⟩ | ⟨hd, -⟩
        · refine Or.inr ⟨?_, ?_, ?_⟩
          · rw [cons_append, deadline, if_pos rfl]
          · rw [count_cons_self, hcount]
          intro n1 n2 heq
          cases n1 with
          | nil =>
            obtain ⟨-, rfl⟩ := cons.inj heq
            rw [hnow, Option.some.injEq, hrun0.sim.clock] at hd
            exact hd
          | cons x n1 =>
            obtain ⟨-, rfl⟩ := cons.inj heq
            simp at hcount
        · rw [hnow] at hd
          cases hd
    · have hd : deadline w (e :: newer ++ .start w d :: older) =
          deadline w (newer ++ .start w d :: older) := deadline_cons hns he
      have hcount : (e :: newer).count (.expire w) = newer.count (.expire w) :=
        count_cons_of_ne he
      rw [hd, hcount]
      refine ih'.imp_right fun ⟨h1, h2, h3⟩ => ⟨h1, h2, fun n1 n2 heq => ?_⟩
      cases n1 with
      | nil => exact absurd (cons.inj heq).1 he
      | cons x n1 => exact h3 n1 n2 (cons.inj heq).2

/-- The number of watchdogs that the running timer call still has to run. -/
def dueCount (s : WdSys) : ℕ :=
  ((queue s.st s.now).filter fun p => decide (p.2 ≤ s.now)).length

theorem dueCount_le_of_filter {f : WdogId × ℤ → Bool}
    (h : queue st' s.now = (queue s.st s.now).filter f) :
    dueCount { s with st := st' } ≤ dueCount s := by
  rw [dueCount, dueCount, h]
  exact (filter_sublist.filter _).length_le

/-- **The expiry loop terminates**: each call of a watchdog function leaves one less to run, and
nothing a watchdog function does makes another one due in the same timer call. -/
theorem Sim.dueCount_step (h : Sim pool tr s) (hstep : WdStep pool maxParms s e s')
    (he : e ≠ .tick) :
    dueCount s' ≤ dueCount s ∧ ∀ w, e = .expire w → dueCount s' < dueCount s := by
  cases hstep with
  | create hrun =>
    refine ⟨?_, by simp⟩
    rw [wdCreate] at hrun
    split at hrun
    · cases hrun
      exact le_rfl
    · cases hrun
      rw [dueCount, dueCount, queue_setActive]
      exact le_rfl
  | @start st' w d func argc parm hal h0 h1 hargc hrun =>
    refine ⟨?_, by simp⟩
    obtain ⟨q1, q2, hsplit, hins, -⟩ := exists_insertTime_eq w
      ((h.inv.pairwise s.now).filter fun p => decide (p.1 ≠ w))
    have hcount : dueCount { s with st := st' } =
        (((queue s.st s.now).filter fun p => decide (p.1 ≠ w)).filter
          fun p => decide (p.2 ≤ s.now)).length := by
      rw [dueCount, (h.started hal h0 h1 hargc hrun).queue s.now, hins, hsplit, filter_append,
        filter_append, filter_cons_of_neg]
      simp only [decide_eq_true_eq, not_le]
      omega
    rw [hcount]
    exact (filter_sublist.filter _).length_le
  | cancel hal hrun =>
    exact ⟨dueCount_le_of_filter ((h.cancelled hal hrun).queue s.now), by simp⟩
  | delete hal hrun =>
    obtain ⟨st1, rfl, hout⟩ := h.deleted hal hrun
    exact ⟨dueCount_le_of_filter (hout.queue s.now), by simp⟩
  | tick => exact absurd rfl he
  | @expire st' w hin hdue hrun =>
    have hlt : dueCount { s with st := st' } < dueCount s := by
      rw [dueCount, dueCount, (h.expire_due hdue hrun).1, filter_cons_of_pos (by simp)]
      exact Nat.lt_succ_self _
    exact ⟨hlt.le, fun _ _ => hlt⟩
  | ret => exact ⟨le_rfl, by simp⟩

/-- The state of the facility after a trace obeys the absolute deadlines of the trace. -/
structure DeadlineLaw (pool : List WdogId) (maxParms : ℕ) (tr : List WdEvent) (s : WdSys) :
    Prop where
  gettime : ∀ w, Allocated pool s.st w →
    wdGettime s.st (some w) = (deadline w tr).elim 0 (fun d => d - ticks tr)
  expires : ∀ w s', WdStep pool maxParms s (.expire w) s' →
    deadline w tr = some (ticks tr) ∧
      ∀ v, v ≠ w → deadline v tr = some (ticks tr) → startedAt w tr < startedAt v tr
  once : ∀ newer older w d, tr = newer ++ .start w d :: older → (∀ e ∈ newer, ¬ e.Stops w) →
    newer.count (.expire w) ≤ 1 ∧
    (∀ n₁ n₂, newer = n₁ ++ .expire w :: n₂ →
      ticks (n₂ ++ .start w d :: older) = ticks older + d + 1) ∧
    (ticks older + d + 1 < ticks tr ∨ ticks older + d + 1 = ticks tr ∧ s.inTimer = false →
      newer.count (.expire w) = 1)
  frame : ∀ e s' w v, WdStep pool maxParms s e s' → e.Stops w → v ≠ w →
    Allocated pool s.st v → wdGettime s'.st (some v) = wdGettime s.st (some v)
  returns : ∀ w, Allocated pool s.st w → (∃ st r, wdCancel s.st (some w) = .ok (st, r)) ∧
    (∃ st, wdDelete s.st (some w) = .ok (st, .ok, .ok)) ∧
    ∀ d func argc parm, 0 ≤ d → d < intMax → argc ≤ maxParms →
      ∃ st, wdStart maxParms s.st (some w) d func argc parm = .ok (st, .ok, .ok)
  progress : s.inTimer = true →
    (∃ w s', WdStep pool maxParms s (.expire w) s') ∨ ∃ s', WdStep pool maxParms s .ret s'
  terminates : ∀ e s', WdStep pool maxParms s e s' → e ≠ .tick →
    dueCount s' ≤ dueCount s ∧ ∀ w, e = .expire w → dueCount s' < dueCount s

theorem Sim.gettime (h : Sim pool tr s) (hal : Allocated pool s.st w) :
    wdGettime s.st (some w) = (deadline w tr).elim 0 (fun d => d - ticks tr) := by
  cases hd : deadline w tr with
  | none =>
    refine wdGettime_of_not_active ?_
    cases ha : (s.st.wdog w).active with
    | false => rfl
    | true =>
      obtain ⟨d, hd'⟩ := h.mem_activeList_iff_deadline.mp (h.active w hal ha)
      rw [hd] at hd'
      cases hd'
  | some d =>
    rw [wdGettime_of_mem h.inv ((h.holds.mem_iff w d).mpr hd), h.clock]
    rfl

/-- Calls on one watchdog keep every other one allocated. -/
theorem WdStep.allocated {v : WdogId} (h : Sim pool tr s) (hstep : WdStep pool maxParms s e s')
    (he : e.Stops w) (hv : v ≠ w) (hal : Allocated pool s.st v) : Allocated pool s'.st v := by
  cases hstep with
  | create | tick | expire | ret => cases he
  | start halu h0 h1 hargc hrun =>
    exact (allocated_congr (h.started halu h0 h1 hargc hrun).freeList).mpr hal
  | cancel halu hrun => exact (allocated_congr (h.cancelled halu hrun).freeList).mpr hal
  | @delete st' u halu hrun =>
    obtain ⟨st1, rfl, hout⟩ := h.deleted halu hrun
    obtain rfl : u = w := he
    refine ⟨hal.1, ?_⟩
    rw [hout.freeList, mem_append, mem_singleton]
    exact fun hm => hm.elim hal.2 hv

theorem ticks_cons_of_stops (h : e.Stops w) : ticks (e :: tr) = ticks tr := by
  cases e <;> first | rfl | cases h

theorem deadline_cons_of_stops {v : WdogId} (h : e.Stops w) (hv : v ≠ w) :
    deadline v (e :: tr) = deadline v tr := by
  have hnv : ¬ e.Stops v := by
    cases e <;> first | exact fun h' => hv (h'.symm.trans h) | cases h
  refine deadline_cons hnv ?_
  rintro rfl
  cases h

/-- **The watchdog queue refines absolute deadlines**: every interleaving of `wd_create`,
`wd_start`, `wd_cancel`, `wd_delete` and `wd_timer`, the calls made by watchdog functions
included, obeys the deadlines of its trace. -/
theorem run_deadlineLaw (h : Run pool maxParms tr s) : DeadlineLaw pool maxParms tr s where
  gettime w hal := h.sim.gettime hal
  expires w s' hstep := by
    cases hstep with
    | expire _ hdue hrun =>
      obtain ⟨hq, -⟩ := h.sim.expire_due hdue hrun
      rw [← h.sim.clock]
      refine ⟨(h.sim.holds.mem_iff w s.now).mp (by rw [hq]; simp), fun v hv hd => ?_⟩
      have hm := (h.sim.holds.mem_iff v s.now).mpr hd
      have hfifo := h.sim.holds.fifo
      rw [hq] at hm hfifo
      rcases List.mem_cons.mp hm with heq | hm
      · exact absurd (congrArg Prod.fst heq) hv
      · exact (List.pairwise_cons.mp hfifo).1 (v, s.now) hm rfl
  once newer older w d htr hstops := by
    subst htr
    rcases h.once hstops with ⟨hd, hcount⟩ | ⟨hd, hcount, hticks⟩
    · refine ⟨by omega, fun n₁ n₂ heq => ?_, fun hover => ?_⟩
      · subst heq
        simp at hcount
      -- a deadline still standing is not over
      have hm := (h.sim.holds.mem_iff w _).mpr hd
      have hclock := h.sim.clock
      have hge := h.sim.inv.clock_le hm
      rcases hover with hlt | ⟨heq, hidle⟩
      · change s.now ≤ ticks older + d + 1 at hge
        omega
      · have hlt := h.sim.idle hidle _ hm
        change s.now < ticks older + d + 1 at hlt
        omega
    · exact ⟨by omega, hticks, fun _ => hcount⟩
  frame e s' w v hstep he hv hal := by
    have hsim' := h.sim.step hstep
    rw [hsim'.gettime (hstep.allocated h.sim he hv hal), h.sim.gettime hal,
      deadline_cons_of_stops he hv, ticks_cons_of_stops he]
  returns w hal := by
    refine ⟨?_, ?_, fun d func argc parm h0 h1 hargc => ?_⟩
    · obtain ⟨st, r, hrun, -⟩ := wdCancel_spec h.sim.inv (h.sim.active w hal)
      exact ⟨st, r, hrun⟩
    · obtain ⟨st, hrun, -⟩ := h.sim.wdDelete_eq hal
      exact ⟨_, hrun⟩
    · obtain ⟨st, hrun, -⟩ :=
        wdStart_spec func parm h.sim.inv (h.sim.active w hal) hargc h0 h1
      exact ⟨st, hrun⟩
  progress hin := by
    cases hdue : wdTimerDue s.st with
    | false => exact Or.inr ⟨_, .ret hin hdue⟩
    | true =>
      obtain ⟨p, q, hq, -⟩ := (wdTimerDue_iff (t := s.now)).mp hdue
      obtain ⟨st', hrun, -⟩ := wdTimerExpire_spec h.sim.inv hq
      exact Or.inl ⟨_, _, .expire hin hdue hrun⟩
  terminates e s' hstep he := h.sim.dueCount_step hstep he

theorem run_deadlineLaw_two :
    ∃ s, Run [0, 1] 4 [.ret, .expire 0, .tick, .start 0 0, .create (some 0)] s ∧
      DeadlineLaw [0, 1] 4 [.ret, .expire 0, .tick, .start 0 0, .create (some 0)] s := by
  have h₀ : Run [0, 1] 4 [] ⟨wdInitialize [0, 1] (fun _ => ⟨0, 0, false, 0, []⟩), 0, false⟩ :=
    .init _ (by decide)
  have h₁ := h₀.step (.create rfl)
  have h₂ := h₁.step (.start (w := 0) (d := 0)
    ⟨by decide, by decide⟩ (by decide) (by decide) (Nat.zero_le 4)
    (rfl : wdStart 4 _ _ _ 0 0 [] = _))
  have h₃ := h₂.step (.tick rfl)
  have h₄ := h₃.step (.expire rfl (by decide) rfl)
  have h₅ := h₄.step (.ret rfl (by decide))
  exact ⟨_, h₅, run_deadlineLaw h₅⟩

end Wdog

end NuttX
