import Mathlib

/-!
# The scan of the work queue

One pass of `work_thread` over `g_work`: an item whose delay has elapsed is taken out and run and
the scan starts again at the head, any other item may shorten the sleep `next`. Ticks, work_queue
and work_cancel come in only while a worker runs, since interrupts are disabled elsewhere. The time
that remains is computed as `elapsed - delay`, the wrong way round, so a due time sooner than the
period does not shorten the sleep (`NuttX.work_thread_wakes`).
-/

namespace NuttX

/-- A queued `struct work_s`; `worker` stands for the function and its argument. -/
structure Work where
  worker : ℕ
  qtime : UInt32
  delay : UInt32
deriving DecidableEq

/-- What happens while a worker runs: the clock goes on to `now`, work_cancel takes out the items
that are not kept and work_queue appends those of `queued`. -/
structure Meanwhile where
  now : UInt32
  kept : Work → Bool
  queued : List Work

/-- The loop of `work_thread`: `rest` is the list from `work` on and `passed` what stands before
it. The last four fields log what was run, queued, cancelled and, with the time, passed over. -/
structure WorkScan where
  now : UInt32
  passed : List Work
  rest : List Work
  next : UInt32
  ran : List Work
  queued : List Work
  cancelled : List Work
  skipped : List (UInt32 × Work)

/-- One round of `while (work)`. -/
def WorkScan.round (s : WorkScan) (m : Meanwhile) : WorkScan :=
  match s.rest with
  | [] => s
  | work :: rest =>
    let elapsed := s.now - work.qtime
    if elapsed ≥ work.delay then
      { s with
        now := m.now, passed := [], rest := (s.passed ++ rest).filter m.kept ++ m.queued
        ran := work :: s.ran, queued := m.queued ++ s.queued
        cancelled := (s.passed ++ rest).filter (fun w => !m.kept w) ++ s.cancelled }
    else
      let remaining := elapsed - work.delay
      { s with
        passed := s.passed ++ [work], rest := rest
        next := if remaining < s.next then remaining else s.next
        skipped := (s.now, work) :: s.skipped }

/-- The scan of `queue` at time `now`, for as many rounds as `ms` is long. -/
def workScan (period now : UInt32) (queue : List Work) (ms : List Meanwhile) : WorkScan :=
  ms.foldl WorkScan.round ⟨now, [], queue, period, [], [], [], []⟩

/-- What holds at the head of the loop. -/
structure WorkScan.Inv (period : UInt32) (queue : List Work) (s : WorkScan) : Prop where
  waiting : ∀ w ∈ s.passed, ¬s.now - w.qtime ≥ w.delay
  counted : ∀ w, s.ran.count w + s.cancelled.count w + (s.passed.count w + s.rest.count w) =
    queue.count w + s.queued.count w
  next_le : ∀ x, s.next ≤ x ↔ period ≤ x ∨ ∃ v ∈ s.skipped, v.1 - v.2.qtime - v.2.delay ≤ x

theorem WorkScan.Inv.round {period : UInt32} {queue : List Work} {s : WorkScan}
    (h : s.Inv period queue) (m : Meanwhile) : (s.round m).Inv period queue := by
  obtain ⟨hw, hc, hn⟩ := h
  rw [WorkScan.round]
  split
  · exact ⟨hw, hc, hn⟩
  next work rest hr =>
  dsimp only
  split
  next hd =>
    refine ⟨by simp, fun w => ?_, hn⟩
    -- what is kept and what is cancelled make up the list without the item
    have hk := (List.filter_append_perm m.kept (s.passed ++ rest)).count_eq w
    have := hc w
    simp only [hr, List.count_cons, List.count_append, List.count_nil] at this hk ⊢
    omega
  next hd =>
    refine ⟨?_, fun w => ?_, fun x => ?_⟩
    · rintro w hp
      rcases List.mem_append.1 hp with hp | hp
      · exact hw w hp
      · rwa [List.mem_singleton.1 hp]
    · have := hc w
      simp only [hr, List.count_cons, List.count_append, List.count_nil] at this ⊢
      omega
    · simp only [List.exists_mem_cons_iff]
      grind

theorem workScan_inv (period now : UInt32) (queue : List Work) (ms : List Meanwhile) :
    (workScan period now queue ms).Inv period queue := by
  refine List.foldlRecOn ms _ ⟨by simp, by simp, by simp⟩ fun s h m _ => h.round m

end NuttX
