import NuttX.Lib.Bag

/-!
# Inherited priorities

A participant that holds a resource inherits the priorities of those that wait for it. What it has
inherited is kept in an account, `NuttX.Account`: the priority it would have otherwise, the priority
it has, and the inherited priorities that are not in effect. `NuttX.Account.boosts` are all
inherited priorities. `NuttX.Account.boost` inherits one more, and `NuttX.Account.restore` gives one
back; the latter is not told which one, but guesses it from the priority of the waiter that leaves.

`NuttX.Ledger` is a system of participants, of resources and of accounts, and
`NuttX.Ledger.demand` the priorities that a participant has to have inherited. Two invariants are of
interest: every demand is met, `NuttX.Ledger.Floor`, and nothing has been inherited without a
demand, `NuttX.Ledger.Tight`. The steps of the system are relations between ledgers, one for each
way in which participants, resources and accounts change, and for each of them there is a rule for
each of the invariants.
-/

namespace NuttX

open List

/-! ### Accounts -/

/-- What a participant has inherited. -/
structure Account (α : Type*) where
  /-- The priority without what is inherited. -/
  base : α
  /-- The priority in effect. -/
  cur : α
  /-- Inherited priorities that are not in effect. -/
  pend : List α

namespace Account

variable {α : Type*} [LinearOrder α] {a : Account α} {p v : α}

/-- All inherited priorities. -/
def boosts (a : Account α) : List α := if a.base < a.cur then a.cur :: a.pend else a.pend

/-- The inherited priorities that are not in effect are above the base and not above the one that
is. -/
structure Wf (a : Account α) : Prop where
  base_le : a.base ≤ a.cur
  pend : ∀ p ∈ a.pend, a.base < p ∧ p ≤ a.cur

theorem Wf.pend_eq_nil (h : a.Wf) (heq : a.cur = a.base) : a.pend = [] := by
  refine eq_nil_iff_forall_not_mem.mpr fun p hp => ?_
  obtain ⟨hlt, hle⟩ := h.pend p hp
  exact absurd (hlt.trans_le (hle.trans heq.le)) (lt_irrefl _)

theorem Wf.boosts_eq_nil (h : a.Wf) (heq : a.cur = a.base) : a.boosts = [] := by
  rw [boosts, if_neg (not_lt.mpr heq.le), h.pend_eq_nil heq]

theorem Wf.lt_cur (h : a.Wf) (hne : a.cur ≠ a.base) : a.base < a.cur :=
  lt_of_le_of_ne h.base_le hne.symm

theorem Wf.boosts_eq (h : a.Wf) (hne : a.cur ≠ a.base) : a.boosts = a.cur :: a.pend :=
  if_pos (h.lt_cur hne)

/-- Nothing inherited is above the priority in effect. -/
theorem Wf.le_cur (h : a.Wf) (hv : v ∈ a.boosts) : a.base < v ∧ v ≤ a.cur := by
  by_cases hcur : a.cur = a.base
  · rw [h.boosts_eq_nil hcur] at hv
    cases hv
  · rw [h.boosts_eq hcur] at hv
    rcases mem_cons.mp hv with rfl | hv
    · exact ⟨h.lt_cur hcur, le_rfl⟩
    · exact h.pend v hv

/-- Nothing is inherited. -/
theorem Wf.of_boosts_eq_nil (h : a.Wf) (hnil : a.boosts = []) : a.cur = a.base ∧ a.pend = [] := by
  by_cases hcur : a.cur = a.base
  · exact ⟨hcur, h.pend_eq_nil hcur⟩
  · rw [h.boosts_eq hcur] at hnil
    cases hnil

/-- Inherit the priority `p`. -/
def boost (a : Account α) (p : α) : Account α :=
  if a.base < p then
    if a.cur < p then
      { a with cur := p, pend := if a.base < a.cur then a.pend ++ [a.cur] else a.pend }
    else { a with pend := a.pend ++ [p] }
  else a

theorem boost_of_le (h : ¬ a.base < p) : a.boost p = a := if_neg h

@[simp] theorem base_boost : (a.boost p).base = a.base := by
  rw [boost]
  split_ifs <;> rfl

theorem Wf.boost (h : a.Wf) (p : α) : (a.boost p).Wf := by
  rw [Account.boost]
  split_ifs with hb hc hcur
  · refine ⟨hb.le, fun v hv => ?_⟩
    rcases mem_append.mp hv with hv | hv
    · exact ⟨(h.pend v hv).1, (h.pend v hv).2.trans hc.le⟩
    · rw [mem_singleton.mp hv]
      exact ⟨hcur, hc.le⟩
  · exact ⟨hb.le, fun v hv => ⟨(h.pend v hv).1, (h.pend v hv).2.trans hc.le⟩⟩
  · refine ⟨h.base_le, fun v hv => ?_⟩
    rcases mem_append.mp hv with hv | hv
    · exact h.pend v hv
    · rw [mem_singleton.mp hv]
      exact ⟨hb, not_lt.mp hc⟩
  · exact h

/-- **A boost is one more inherited priority.** -/
theorem boosts_boost (hb : a.base < p) : (a.boost p).boosts.Perm (p :: a.boosts) := by
  rw [Account.boost, if_pos hb]
  split_ifs with hc hcur
  · rw [boosts, if_pos hb, boosts, if_pos hcur]
    exact (perm_append_singleton _ _).cons p
  · rw [boosts, if_pos hb, boosts, if_neg hcur]
  · have hcur : a.base < a.cur := hb.trans_le (not_lt.mp hc)
    rw [boosts, if_pos hcur, boosts, if_pos hcur]
    exact ((perm_append_singleton p a.pend).cons a.cur).trans (Perm.swap _ _ _)

/-- Give back a priority, on account of a waiter of priority `p`. -/
def restore (a : Account α) (p : α) : Account α :=
  if a.cur = a.base then a
  else
    match Bag.popHighest a.pend with
    | none => { a with cur := a.base, pend := [] }
    | some (q, rest) =>
      if a.cur ≤ p then { a with cur := q, pend := rest }
      else { a with pend := Bag.discard p a.pend }

@[simp] theorem base_restore : (a.restore p).base = a.base := by
  rw [restore]
  split
  · rfl
  split
  · rfl
  split <;> rfl

theorem restore_of_eq (h : a.cur = a.base) : a.restore p = a := if_pos h

/-- What giving back a priority does: nothing, or one of three things. -/
theorem restore_cases (hne : a.cur ≠ a.base) :
    (a.pend = [] ∧ a.restore p = { a with cur := a.base, pend := [] }) ∨
    (a.pend ≠ [] ∧ a.cur ≤ p ∧ ∃ q rest, (q :: rest).Perm a.pend ∧ (∀ v ∈ a.pend, v ≤ q) ∧
      a.restore p = { a with cur := q, pend := rest }) ∨
    (a.pend ≠ [] ∧ p < a.cur ∧ a.restore p = { a with pend := Bag.discard p a.pend }) := by
  rw [restore, if_neg hne]
  split
  · rename_i hnone
    exact Or.inl ⟨Bag.popHighest_eq_none.mp hnone, rfl⟩
  rename_i q rest hsome
  have hnil : a.pend ≠ [] := by
    intro hnil
    rw [Bag.popHighest_eq_none.mpr hnil] at hsome
    cases hsome
  obtain ⟨hperm, hle⟩ := Bag.popHighest_spec hsome
  split
  · rename_i hcur
    exact Or.inr (Or.inl ⟨hnil, hcur, q, rest, hperm, hle, rfl⟩)
  · rename_i hcur
    exact Or.inr (Or.inr ⟨hnil, not_le.mp hcur, rfl⟩)

theorem Wf.restore (h : a.Wf) (p : α) : (a.restore p).Wf := by
  by_cases hcur : a.cur = a.base
  · rw [restore_of_eq hcur]
    exact h
  rcases restore_cases hcur with ⟨-, heq⟩ | ⟨-, -, q, rest, hperm, hle, heq⟩ | ⟨-, -, heq⟩
  · rw [heq]
    exact ⟨le_rfl, nofun⟩
  · rw [heq]
    refine ⟨(h.pend q (hperm.mem_iff.mp mem_cons_self)).1.le, fun v hv => ?_⟩
    have hmem := hperm.mem_iff.mp (mem_cons_of_mem q hv)
    exact ⟨(h.pend v hmem).1, hle v hmem⟩
  · rw [heq]
    exact ⟨h.base_le, fun v hv => h.pend v (mem_of_mem_erase (Bag.discard_perm.mem_iff.mp hv))⟩

theorem Wf.cur_restore_le (h : a.Wf) (p : α) : (a.restore p).cur ≤ a.cur := by
  by_cases hcur : a.cur = a.base
  · rw [restore_of_eq hcur]
  rcases restore_cases hcur with ⟨-, heq⟩ | ⟨-, -, q, rest, hperm, -, heq⟩ | ⟨-, -, heq⟩
  · rw [heq]
    exact h.base_le
  · rw [heq]
    exact (h.pend q (hperm.mem_iff.mp mem_cons_self)).2
  · rw [heq]

/-- What is inherited when the highest priority has been given back. -/
theorem Wf.boosts_highest (h : a.Wf) {q : α} {rest : List α} (hperm : (q :: rest).Perm a.pend) :
    boosts { a with cur := q, pend := rest } = q :: rest :=
  if_pos (h.pend q (hperm.mem_iff.mp mem_cons_self)).1

/-- **Giving back a priority leaves no more than it should.** -/
theorem Wf.boosts_restore_subperm (h : a.Wf) (p : α) :
    (a.restore p).boosts.Subperm (a.boosts.erase p) := by
  by_cases hcur : a.cur = a.base
  · rw [restore_of_eq hcur, h.boosts_eq_nil hcur]
    exact nil_subperm
  rw [h.boosts_eq hcur]
  rcases restore_cases hcur with ⟨-, heq⟩ | ⟨-, hle, q, rest, hperm, -, heq⟩ | ⟨-, hlt, heq⟩
  · rw [heq, boosts, if_neg (lt_irrefl _)]
    exact nil_subperm
  · rw [heq, h.boosts_highest hperm]
    rcases eq_or_ne a.cur p with rfl | hne
    · rw [erase_cons_head]
      exact hperm.subperm
    · -- the waiter has never been inherited from, and there is one priority less all the same
      have hp : p ∉ a.pend := fun hp => hne (le_antisymm hle (h.pend p hp).2)
      rw [erase_cons_tail (by simpa using hne), erase_of_not_mem hp]
      exact hperm.subperm.trans (sublist_cons_self _ _).subperm
  · rw [heq, erase_cons_tail (by simpa using hlt.ne')]
    rw [boosts, if_pos (h.lt_cur hcur)]
    exact (Bag.discard_perm.cons a.cur).subperm

/-- **Giving back a priority leaves no less than it should** if it was inherited, if nothing was
inherited at all, or if a higher one is in effect and there are others. -/
theorem Wf.boosts_restore_perm (h : a.Wf)
    (hp : p ∈ a.boosts ∨ a.cur = a.base ∨ a.pend ≠ [] ∧ p < a.cur) :
    (a.restore p).boosts.Perm (a.boosts.erase p) := by
  by_cases hcur : a.cur = a.base
  · rw [restore_of_eq hcur, h.boosts_eq_nil hcur]
    exact Perm.refl _
  have hmem : p ∈ a.cur :: a.pend ∨ a.pend ≠ [] ∧ p < a.cur := by
    rcases hp with hp | hp | hp
    · rw [h.boosts_eq hcur] at hp
      exact Or.inl hp
    · exact absurd hp hcur
    · exact Or.inr hp
  rw [h.boosts_eq hcur]
  rcases restore_cases (p := p) hcur with ⟨hnil, heq⟩ | ⟨-, hle, q, rest, hperm, -, heq⟩ |
    ⟨-, hlt, heq⟩
  · rw [hnil] at hmem ⊢
    obtain rfl : p = a.cur := by simpa using hmem
    rw [heq, boosts, if_neg (lt_irrefl _), erase_cons_head]
  · obtain rfl : p = a.cur := by
      rcases hmem with hmem | hmem
      · rcases mem_cons.mp hmem with hmem | hmem
        · exact hmem
        · exact le_antisymm (h.pend p hmem).2 hle
      · exact absurd hmem.2 (not_lt.mpr hle)
    rw [heq, h.boosts_highest hperm, erase_cons_head]
    exact hperm
  · rw [heq, erase_cons_tail (by simpa using hlt.ne')]
    rw [boosts, if_pos (h.lt_cur hcur)]
    exact Bag.discard_perm.cons a.cur

end Account

/-! ### Ledgers -/

/-- Participants, the resources they hold and wait for, and their accounts. -/
structure Ledger (τ σ α : Type*) where
  /-- The participants that wait. -/
  waiters : List τ
  /-- What a waiting participant waits for. -/
  on : τ → Option σ
  /-- The priority with which a waiting participant has begun to wait. -/
  entry : τ → α
  holds : τ → σ → Prop
  acct : τ → Account α

namespace Ledger

variable {τ σ α : Type*} {L L' : Ledger τ σ α} {h r w : τ} {s : σ} {p v : α}

/-- The participant `w` waits, with the priority `v`, for something that `h` holds. -/
def Demands (L : Ledger τ σ α) (h : τ) (v : α) (w : τ) : Prop :=
  L.entry w = v ∧ ∃ s, L.on w = some s ∧ L.holds h s

open Classical in
/-- How many participants wait, with the priority `v`, for something that `h` holds. -/
noncomputable def demand (L : Ledger τ σ α) (h : τ) (v : α) : ℕ :=
  L.waiters.countP fun w => decide (L.Demands h v w)

/-- The same participants wait for the same resources. -/
structure SameWaiters (L L' : Ledger τ σ α) : Prop where
  waiters : L'.waiters.Perm L.waiters
  on : ∀ w ∈ L.waiters, L'.on w = L.on w
  entry : ∀ w ∈ L.waiters, L'.entry w = L.entry w

/-- Only the order of the waiting participants changes. -/
structure Keeps (L L' : Ledger τ σ α) : Prop extends SameWaiters L L' where
  holds : ∀ h c, L'.holds h c ↔ L.holds h c
  acct : L'.acct = L.acct

theorem Keeps.refl (L : Ledger τ σ α) : Keeps L L :=
  ⟨⟨Perm.refl _, fun _ _ => rfl, fun _ _ => rfl⟩, fun _ _ => Iff.rfl, rfl⟩

/-- The participant `r`, which holds nothing, gets a new account. -/
structure Opens (L L' : Ledger τ σ α) (r : τ) : Prop extends SameWaiters L L' where
  holds : ∀ h c, L'.holds h c ↔ L.holds h c
  free : ∀ c, ¬ L.holds r c
  acct : ∀ h, h ≠ r → L'.acct h = L.acct h

/-- The participant `r` gets hold of the resource `s`. -/
structure Acquires (L L' : Ledger τ σ α) (r : τ) (s : σ) : Prop extends SameWaiters L L' where
  holds : ∀ h c, L'.holds h c ↔ L.holds h c ∨ h = r ∧ c = s
  acct : L'.acct = L.acct

/-- The participant `r` lets go of the resource `s`. -/
structure Drops (L L' : Ledger τ σ α) (r : τ) (s : σ) : Prop extends SameWaiters L L' where
  holds : ∀ h c, L'.holds h c ↔ L.holds h c ∧ ¬ (h = r ∧ c = s)
  acct : L'.acct = L.acct

/-- Who gets hold of something that it holds already changes nothing. -/
theorem Acquires.keeps (ha : Acquires L L' r s) (hr : L.holds r s) : Keeps L L' := by
  refine ⟨ha.toSameWaiters, fun h c => (ha.holds h c).trans (or_iff_left_of_imp ?_), ha.acct⟩
  rintro ⟨rfl, rfl⟩
  exact hr

/-- Who lets go of something that it does not hold changes nothing. -/
theorem Drops.keeps (hd : Drops L L' r s) (hr : ¬ L.holds r s) : Keeps L L' := by
  refine ⟨hd.toSameWaiters, fun h c => (hd.holds h c).trans (and_iff_left_of_imp ?_), hd.acct⟩
  rintro hh ⟨rfl, rfl⟩
  exact hr hh

theorem demands_congr (hon : L'.on w = L.on w) (he : L'.entry w = L.entry w)
    (hh : ∀ c, L.on w = some c → (L'.holds h c ↔ L.holds h c)) :
    L'.Demands h v w ↔ L.Demands h v w := by
  rw [Demands, Demands, hon, he]
  exact and_congr_right fun _ => exists_congr fun c => and_congr_right fun hc => hh c hc

/-- Only the demands of those that wait count. -/
theorem demand_congr (hw : L'.waiters.Perm L.waiters)
    (hd : ∀ w ∈ L.waiters, L'.Demands h v w ↔ L.Demands h v w) : L'.demand h v = L.demand h v := by
  rw [demand, demand, hw.countP_eq]
  exact countP_congr fun w hm => by simpa using hd w hm

theorem SameWaiters.demand_eq (hs : SameWaiters L L')
    (hh : ∀ w ∈ L.waiters, ∀ c, L.entry w = v → L.on w = some c → (L'.holds h c ↔ L.holds h c)) :
    L'.demand h v = L.demand h v := by
  refine demand_congr hs.waiters fun w hm => ?_
  by_cases hv : L.entry w = v
  · exact demands_congr (hs.on w hm) (hs.entry w hm) fun c => hh w hm c hv
  · refine iff_of_false (fun hd => hv ?_) fun hd => hv hd.1
    rw [← hs.entry w hm]
    exact hd.1

section Steps

variable [LinearOrder α]

/-- The participant `r` begins to wait for the resource `s`, and its priority is inherited. -/
structure Blocks (L L' : Ledger τ σ α) (r : τ) (s : σ) (p : α) : Prop where
  waiters : L'.waiters.Perm (r :: L.waiters)
  notMem : r ∉ L.waiters
  on_eq : L'.on r = some s
  entry_eq : L'.entry r = p
  on : ∀ w ∈ L.waiters, L'.on w = L.on w
  entry : ∀ w ∈ L.waiters, L'.entry w = L.entry w
  holds : ∀ h c, L'.holds h c ↔ L.holds h c
  boosted : ∀ h, L.holds h s → L'.acct h = (L.acct h).boost p
  acct : ∀ h, ¬ L.holds h s → L'.acct h = L.acct h

/-- The participant `w` stops to wait for the resource `s`, and its priority is given back. -/
structure Releases [DecidableEq τ] (L L' : Ledger τ σ α) (w : τ) (s : σ) (p : α) : Prop where
  mem : w ∈ L.waiters
  on_eq : L.on w = some s
  waiters : L'.waiters.Perm (L.waiters.erase w)
  on : ∀ c ∈ L'.waiters, L'.on c = L.on c
  entry : ∀ c ∈ L'.waiters, L'.entry c = L.entry c
  holds : ∀ h c, L'.holds h c ↔ L.holds h c
  restored : ∀ h, L.holds h s → L'.acct h = (L.acct h).restore p
  acct : ∀ h, ¬ L.holds h s → L'.acct h = L.acct h

open Classical in
theorem Blocks.demand_eq (hb : Blocks L L' r s p) :
    L'.demand h v = L.demand h v + if L.holds h s ∧ p = v then 1 else 0 := by
  have hr : L'.Demands h v r ↔ L.holds h s ∧ p = v := by
    rw [Demands, hb.on_eq, hb.entry_eq]
    simp [hb.holds, and_comm]
  rw [demand, demand, hb.waiters.countP_eq, countP_cons]
  congr 1
  · refine countP_congr fun w hm => ?_
    simpa using demands_congr (hb.on w hm) (hb.entry w hm) fun c _ => hb.holds h c
  · simp [hr]

open Classical in
section

variable [DecidableEq τ] (hr : Releases L L' w s p)

include hr

theorem Releases.demand_eq :
    L.demand h v = L'.demand h v + if L.holds h s ∧ L.entry w = v then 1 else 0 := by
  have hw : L.Demands h v w ↔ L.holds h s ∧ L.entry w = v := by
    rw [Demands, hr.on_eq]
    simp [and_comm]
  rw [demand, demand, (perm_cons_erase hr.mem).countP_eq, countP_cons, hr.waiters.countP_eq]
  congr 1
  · refine countP_congr fun c hm => ?_
    have hc := hr.waiters.mem_iff.mpr hm
    simpa using (demands_congr (hr.on c hc) (hr.entry c hc) fun b _ => hr.holds h b).symm
  · simp [hw]

theorem Releases.base_eq (h : τ) : (L'.acct h).base = (L.acct h).base := by
  by_cases hh : L.holds h s
  · rw [hr.restored h hh, Account.base_restore]
  · rw [hr.acct h hh]

theorem Releases.wf (hwf : ∀ h, (L.acct h).Wf) (h : τ) : (L'.acct h).Wf := by
  by_cases hh : L.holds h s
  · rw [hr.restored h hh]
    exact (hwf h).restore p
  · rw [hr.acct h hh]
    exact hwf h

end

/-! ### Every demand is met -/

/-- Every demand above the base is met by something inherited. -/
def Floor (L : Ledger τ σ α) : Prop :=
  ∀ h v, (L.acct h).base < v → L.demand h v ≤ (L.acct h).boosts.count v

section

variable (hf : Floor L)

include hf

/-- **Nobody waits for a participant of lower priority.** -/
theorem Floor.entry_le (hwf : ∀ h, (L.acct h).Wf) (hw : w ∈ L.waiters) (hon : L.on w = some s)
    (hh : L.holds h s) : L.entry w ≤ (L.acct h).cur := by
  rcases le_or_gt (L.entry w) (L.acct h).base with hle | hlt
  · exact hle.trans (hwf h).base_le
  have hpos : 0 < L.demand h (L.entry w) := by
    classical
    exact countP_pos_iff.mpr ⟨w, hw, by simpa using ⟨rfl, s, hon, hh⟩⟩
  have hmem := count_pos_iff.mp (Nat.lt_of_lt_of_le hpos (hf h _ hlt))
  exact ((hwf h).le_cur hmem).2

theorem Floor.keeps (hk : Keeps L L') : Floor L' := by
  intro h v hv
  rw [hk.acct] at hv ⊢
  rw [hk.demand_eq fun w _ c _ _ => hk.holds h c]
  exact hf h v hv

theorem Floor.opens (ho : Opens L L' r) : Floor L' := by
  intro h v hv
  rw [ho.demand_eq fun w _ c _ _ => ho.holds h c]
  rcases eq_or_ne h r with rfl | hne
  · have hzero : L.demand h v = 0 := by
      refine countP_eq_zero.mpr fun w _ => ?_
      simp [Demands, ho.free]
    omega
  · rw [ho.acct h hne] at hv ⊢
    exact hf h v hv

/-- A new holder of something that nobody above its base waits for. -/
theorem Floor.acquires (ha : Acquires L L' r s)
    (hr : ∀ w ∈ L'.waiters, L'.on w = some s → L'.entry w ≤ (L.acct r).base) : Floor L' := by
  intro h v hv
  rw [ha.acct] at hv ⊢
  rw [ha.demand_eq fun w hw c hwv hon => ?_]
  · exact hf h v hv
  rw [ha.holds, or_iff_left]
  rintro ⟨rfl, rfl⟩
  have hle := hr w (ha.waiters.mem_iff.mpr hw) (by rw [ha.on w hw, hon])
  rw [ha.entry w hw, hwv] at hle
  exact absurd hv (not_lt.mpr hle)

theorem Floor.drops (hd : Drops L L' r s) : Floor L' := by
  intro h v hv
  rw [hd.acct] at hv ⊢
  refine Nat.le_trans ?_ (hf h v hv)
  rw [demand, demand, hd.waiters.countP_eq]
  refine countP_mono_left fun w hm hdem => ?_
  simp only [decide_eq_true_eq] at hdem ⊢
  obtain ⟨he, c, hon, hh⟩ := hdem
  rw [hd.entry w hm] at he
  rw [hd.on w hm] at hon
  exact ⟨he, c, hon, ((hd.holds h c).mp hh).1⟩

theorem Floor.blocks (hb : Blocks L L' r s p) : Floor L' := by
  classical
  intro h v hv
  rw [hb.demand_eq]
  by_cases hh : L.holds h s
  · rw [hb.boosted h hh] at hv ⊢
    rw [Account.base_boost] at hv
    by_cases hp : (L.acct h).base < p
    · rw [(Account.boosts_boost hp).count_eq, count_cons]
      have := hf h v hv
      simp only [hh, true_and, beq_iff_eq]
      omega
    have hne : p ≠ v := by
      rintro rfl
      exact hp hv
    rw [Account.boost_of_le hp, if_neg fun hc => hne hc.2]
    exact hf h v hv
  · rw [hb.acct h hh] at hv ⊢
    rw [if_neg fun hc => hh hc.1]
    exact hf h v hv

/-- A waiter leaves, and at every holder that it does not demand anything of, nothing is inherited
or not only one thing. -/
theorem Floor.releases [DecidableEq τ] (hwf : ∀ h, (L.acct h).Wf) (hr : Releases L L' w s p)
    (hp : p = L.entry w)
    (hcond : ∀ h, L.holds h s →
      (L.acct h).base < p ∨ (L.acct h).cur = (L.acct h).base ∨ (L.acct h).pend ≠ []) :
    Floor L' := by
  classical
  intro h v hv
  have hdem := hr.demand_eq (h := h) (v := v)
  by_cases hh : L.holds h s
  · rw [hr.restored h hh] at hv ⊢
    rw [Account.base_restore] at hv
    have hold := hf h v hv
    -- the waiter itself has made a demand above the base
    have hown : (L.acct h).base < p → p ∈ (L.acct h).boosts := by
      intro hlt
      have hdem' := hr.demand_eq (h := h) (v := p)
      rw [if_pos ⟨hh, hp.symm⟩] at hdem'
      have := hf h p hlt
      exact count_pos_iff.mp (by omega)
    have hperm : ((L.acct h).restore p).boosts.Perm ((L.acct h).boosts.erase p) := by
      refine (hwf h).boosts_restore_perm ?_
      rcases hcond h hh with hlt | heq | hne
      · exact Or.inl (hown hlt)
      · exact Or.inr (Or.inl heq)
      · rcases le_or_gt (L.acct h).cur (L.acct h).base with hle | hgt
        · exact Or.inr (Or.inl (le_antisymm hle (hwf h).base_le))
        rcases lt_or_ge p (L.acct h).cur with hlt | hge
        · exact Or.inr (Or.inr ⟨hne, hlt⟩)
        exact Or.inl (hown (hgt.trans_le hge))
    rw [hperm.count_eq, count_erase]
    simp only [hh, true_and, ← hp, beq_iff_eq] at hdem ⊢
    split at hdem <;> rename_i hpv
    · rw [if_pos hpv]
      omega
    · rw [if_neg hpv]
      omega
  · rw [hr.acct h hh] at hv ⊢
    have := hf h v hv
    omega

end

/-! ### Nothing is inherited without a demand -/

/-- Everything inherited is demanded. -/
def Tight (L : Ledger τ σ α) : Prop := ∀ h v, (L.acct h).boosts.count v ≤ L.demand h v

section

variable (ht : Tight L)

include ht

/-- **Everything inherited is inherited from somebody** who waits with that priority. -/
theorem Tight.exists_waiter (hv : v ∈ (L.acct h).boosts) : ∃ w ∈ L.waiters, L.Demands h v w := by
  classical
  have hpos := Nat.lt_of_lt_of_le (count_pos_iff.mpr hv) (ht h v)
  obtain ⟨w, hw, hd⟩ := countP_pos_iff.mp hpos
  exact ⟨w, hw, of_decide_eq_true hd⟩

/-- **Who holds nothing has its own priority.** -/
theorem Tight.eq_base (hwf : ∀ h, (L.acct h).Wf) (hfree : ∀ s, ¬ L.holds h s) :
    (L.acct h).cur = (L.acct h).base ∧ (L.acct h).pend = [] := by
  refine (hwf h).of_boosts_eq_nil (eq_nil_iff_forall_not_mem.mpr fun v hv => ?_)
  obtain ⟨w, -, -, s, -, hh⟩ := ht.exists_waiter hv
  exact hfree s hh

theorem Tight.keeps (hk : Keeps L L') : Tight L' := by
  intro h v
  rw [hk.acct, hk.demand_eq fun w _ c _ _ => hk.holds h c]
  exact ht h v

theorem Tight.opens (ho : Opens L L' r) (hnil : (L'.acct r).boosts = []) : Tight L' := by
  intro h v
  rw [ho.demand_eq fun w _ c _ _ => ho.holds h c]
  rcases eq_or_ne h r with rfl | hne
  · rw [hnil]
    exact Nat.zero_le _
  · rw [ho.acct h hne]
    exact ht h v

theorem Tight.acquires (ha : Acquires L L' r s) : Tight L' := by
  intro h v
  rw [ha.acct]
  refine Nat.le_trans (ht h v) ?_
  rw [demand, demand, ha.waiters.countP_eq]
  refine countP_mono_left fun w hm hdem => ?_
  simp only [decide_eq_true_eq] at hdem ⊢
  obtain ⟨he, c, hon, hh⟩ := hdem
  exact ⟨by rw [ha.entry w hm, he], c, by rw [ha.on w hm, hon], (ha.holds h c).mpr (Or.inl hh)⟩

/-- A participant lets go of something that nobody above its base waits for. -/
theorem Tight.drops (hwf : ∀ h, (L.acct h).Wf) (hd : Drops L L' r s)
    (hr : ∀ w ∈ L'.waiters, L'.on w = some s → L'.entry w ≤ (L.acct r).base) : Tight L' := by
  intro h v
  rw [hd.acct]
  by_cases hv : v ∈ (L.acct h).boosts
  · have hlt := ((hwf h).le_cur hv).1
    rw [hd.demand_eq fun w hw c hwv hon => ?_]
    · exact ht h v
    rw [hd.holds, and_iff_left]
    rintro ⟨rfl, rfl⟩
    have hle := hr w (hd.waiters.mem_iff.mpr hw) (by rw [hd.on w hw, hon])
    rw [hd.entry w hw, hwv] at hle
    exact absurd hlt (not_lt.mpr hle)
  · rw [count_eq_zero.mpr hv]
    exact Nat.zero_le _

theorem Tight.blocks (hb : Blocks L L' r s p) : Tight L' := by
  classical
  intro h v
  have hold := ht h v
  rw [hb.demand_eq]
  by_cases hh : L.holds h s
  · rw [hb.boosted h hh]
    by_cases hp : (L.acct h).base < p
    · rw [(Account.boosts_boost hp).count_eq, count_cons]
      simp only [hh, true_and, beq_iff_eq]
      omega
    · rw [Account.boost_of_le hp]
      omega
  · rw [hb.acct h hh]
    omega

theorem Tight.releases [DecidableEq τ] (hwf : ∀ h, (L.acct h).Wf) (hr : Releases L L' w s p)
    (hp : p = L.entry w) : Tight L' := by
  classical
  intro h v
  have hold := ht h v
  have hdem := hr.demand_eq (h := h) (v := v)
  by_cases hh : L.holds h s
  · rw [hr.restored h hh]
    have hle := ((hwf h).boosts_restore_subperm p).count_le v
    rw [count_erase] at hle
    simp only [hh, true_and, ← hp, beq_iff_eq] at hdem hle
    split at hdem <;> rename_i hpv
    · rw [if_pos hpv] at hle
      omega
    · omega
  · rw [hr.acct h hh]
    rw [if_neg fun hc => hh hc.1] at hdem
    omega

end

end Steps

end Ledger

end NuttX
