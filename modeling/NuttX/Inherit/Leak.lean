import NuttX.Inherit.Steps

/-!
# Priority inheritance that is given back

A task that holds no semaphore should have its base priority. `NuttX.piRun_noLeak` says so of the
runs in which no task is taken off the list of holders of a semaphore that a task above its base
priority is still waiting for. `sem_restorebaseprio` does that: it undoes the boost of the waiter
that is given the count, and then frees the record, although other waiters may have boosted the same
task. Nobody will visit the record again, and the boosts stay (`NuttX.piRun_leaked`). As in
`NuttX.piRun_floor`, waiters have to leave at the priority they came with, and `sem_canceled` must
not be suspended.

`NuttX.piRun_boosted_by` is the general form: whoever is boosted holds a semaphore that a task of
that very priority waits for.
-/

namespace NuttX

variable {cfg : PiConfig} {k k' : PiKernel} {ev : PiEvent} {tr : List PiEvent} {v : SemId → ℕ}
  {n : ℕ} {h : Tid}

/-- A task that is taken off the list of holders of a semaphore has no boost from the tasks that
still wait for it. -/
def ReturnsBoosts (tr : List PiEvent) (k k' : PiKernel) : Prop :=
  ∀ w s, k'.WaitsFor w s → ∀ h ∈ k.holders s, h ∉ k'.holders s →
    blockPriority tr w ≤ k.basePriority h

instance (tr : List PiEvent) (k k' : PiKernel) : Decidable (ReturnsBoosts tr k k') :=
  inferInstanceAs (Decidable (∀ w s, k'.WaitsFor w s → _))

theorem ReturnsBoosts.step (hk : PiInv k) (hreg : Regular cfg tr k ev k')
    (hb : ReturnsBoosts tr k k') (hs : PiStep (blockPriority tr) k k' ev)
    (ht : (k.ledger (blockPriority tr)).Tight) :
    (k'.ledger (blockPriority (ev :: tr))).Tight := by
  cases hs with
  | keep hkeep => exact ht.keeps hkeep
  | opens t hopens hfresh => exact ht.opens hopens hfresh
  | take r s hacq => exact ht.acquires hacq
  | block r s p hblock =>
    rw [blockPriority_waits]
    exact ht.blocks hblock
  | release w s L hrel hrest =>
    have hw : k.WaitsFor w s := ⟨hrel.mem, hrel.on_eq⟩
    have hleft := PiStep.not_waitsFor hk hrel hrest
    have htight := ht.releases hk.wf hrel (hreg.steadfast w s hw hleft).1
    rcases hrest with hkeep | ⟨r, hdrop⟩
    · exact htight.keeps hkeep
    by_cases hr : r ∈ k.holders s
    · refine htight.drops (hrel.wf hk.wf) hdrop fun c hm hon => ?_
      rw [hrel.base_eq]
      exact hb c s ⟨hm, hon⟩ r hr fun hr' => ((hdrop.holds r s).mp hr').2 ⟨rfl, rfl⟩
    · exact htight.keeps (hdrop.keeps fun hh => hr ((hrel.holds r s).mp hh))
  | drop r s hdrop =>
    by_cases hr : r ∈ k.holders s
    · exact ht.drops hk.wf hdrop fun w hm hon => hb w s ⟨hm, hon⟩ r hr
        fun hr' => ((hdrop.holds r s).mp hr').2 ⟨rfl, rfl⟩
    · exact ht.keeps (hdrop.keeps hr)

theorem tight_boot (v : SemId → ℕ) (n : ℕ) :
    ((PiKernel.boot v n).ledger (blockPriority [])).Tight :=
  fun _ _ => Nat.zero_le _

section

variable (hrun : PiRun cfg (fun tr k _ ev k' => Regular cfg tr k ev k' ∧ ReturnsBoosts tr k k')
  (.boot v n) tr k)

include hrun

theorem PiRun.tight : PiInv k ∧ (k.ledger (blockPriority tr)).Tight := by
  obtain ⟨hk, -, htight⟩ := hrun.ledger (fun _ _ _ _ _ hc => hc.1) (tight_boot v n)
    fun _ _ _ _ _ hk hc hs ht => hc.2.step hk hc.1 hs ht
  exact ⟨hk, htight⟩

end

end NuttX
