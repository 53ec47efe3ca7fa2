import NuttX.Inherit.Steps

/-!
# The floor of priority inheritance

A task that holds a count of a semaphore should run at least at the priority of every task that
waits for it. `NuttX.piRun_floor` says so of the runs in which no step goes wrong in one of these
ways:

* a task is recorded as a holder while a task of higher priority is waiting already. This is what
  happens after `sem_post`: the record of the task that posts is freed, the waiter that is given the
  count is recorded only when it runs again, and a task that calls `sem_wait` in between finds no
  holder to boost (`NuttX.piRun_unboosted`);
* a waiter leaves that a boosted holder owes nothing to, and `npend_reprio` is zero:
  `sem_restoreholderprio` then drops the holder to its base priority;
* a waiter leaves at another priority than the one it came with, or is itself a boosted holder of
  the semaphore, or `sem_canceled` is suspended by the task that its restoring has made the running
  one.
-/

namespace NuttX

variable {cfg : PiConfig} {k k' : PiKernel} {ev : PiEvent} {tr : List PiEvent} {v : SemId → ℕ}
  {n : ℕ} {h w : Tid} {s : SemId}

/-- The step takes no boost away that is still needed, and gives no semaphore to a task that would
have to be boosted for it. -/
@[mk_iff]
structure KeepsBoosts (tr : List PiEvent) (k k' : PiKernel) : Prop where
  released : ∀ w s, k.WaitsFor w s → ¬ k'.WaitsFor w s → ∀ h ∈ k.holders s,
    k.basePriority h < k.sched.prio w ∨ k.sched.prio h = k.basePriority h ∨ k.pendReprios h ≠ []
  recorded : ∀ w s, k'.WaitsFor w s → ∀ h ∈ k'.holders s, h ∉ k.holders s →
    blockPriority tr w ≤ k.basePriority h

instance (tr : List PiEvent) (k k' : PiKernel) : Decidable (KeepsBoosts tr k k') :=
  decidable_of_iff' _ (keepsBoosts_iff tr k k')

theorem KeepsBoosts.step (hk : PiInv k) (hreg : Regular cfg tr k ev k') (hb : KeepsBoosts tr k k')
    (hs : PiStep (blockPriority tr) k k' ev) (hf : (k.ledger (blockPriority tr)).Floor) :
    (k'.ledger (blockPriority (ev :: tr))).Floor := by
  cases hs with
  | keep hkeep => exact hf.keeps hkeep
  | opens t hopens _ => exact hf.opens hopens
  | take r s hacq =>
    by_cases hr : r ∈ k.holders s
    · exact hf.keeps (hacq.keeps hr)
    · exact hf.acquires hacq fun w hm hon =>
        hb.recorded w s ⟨hm, hon⟩ r ((hacq.holds r s).mpr (Or.inr ⟨rfl, rfl⟩)) hr
  | block r s p hblock =>
    rw [blockPriority_waits]
    exact hf.blocks hblock
  | release w s L hrel hrest =>
    have hw : k.WaitsFor w s := ⟨hrel.mem, hrel.on_eq⟩
    have hleft := PiStep.not_waitsFor hk hrel hrest
    have hfloor := hf.releases hk.wf hrel (hreg.steadfast w s hw hleft).1 (hb.released w s hw hleft)
    rcases hrest with hkeep | ⟨r, hdrop⟩
    · exact hfloor.keeps hkeep
    · exact hfloor.drops hdrop
  | drop r s hdrop => exact hf.drops hdrop

theorem floor_boot (v : SemId → ℕ) (n : ℕ) :
    ((PiKernel.boot v n).ledger (blockPriority [])).Floor :=
  fun _ _ _ => Nat.zero_le _

end NuttX
