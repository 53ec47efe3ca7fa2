import NuttX.Signal.Model

/-!
# What becomes of a pending signal

A signal that is masked when it arrives waits in `sigpendingq`. It is supposed to leave the queue
because `sigtimedwait` returns it, or because it is not masked any more, and then its handler is
queued; only a later instance of the same signal may take its place.

Three things are followed through a run: the accounts of the queue (`NuttX.Accounts`), which say
that what has been added and is not in the queue has left it; the masks that the frames of the stack
will have when they are resumed (`NuttX.Sig.Below`), which are those that `sig_unmaskpendingsignal`
has computed its set from; and the entry that `sig_addpendingsignal` has found.

`sigsuspend` throws a pending signal away that it is about to unmask. `NuttX.sigRun_law` is what
holds in the runs in which this does not happen, and `NuttX.sigRun_discards` is a run in which it
does.
-/

namespace NuttX

open Function Option Finset

/-! ### What the functions are for -/

/-- What is said about the pending signals of a task. -/
structure SigLaw {σ : Type*} (act : Signo → Option SigSet) (tr : List SigEvent) (b : Sig σ) :
    Prop where
  single : (b.infos.map (·.signo)).Nodup
  masked : ∀ mask l, .returned mask l ∈ tr → ∀ i ∈ l, i.signo ∈ mask
  accounted : ∀ i, (act i.signo).isSome → .added i ∈ tr →
    b.infos.count i + tr.count (.overwritten i) + tr.count (.taken i) + tr.count (.requeued i) = 1

/-- The call of `sig_addpendingsignal` that the step finishes. -/
def SigOp.puts {σ : Type*} : SigOp σ → Option σ
  | put s _ => some s
  | _ => none

/-- The task is in the loop of `sig_unmaskpendingsignal`. -/
def Sig.inUnmask {σ : Type*} (b : Sig σ) : Bool :=
  match b.stack with
  | .unmask .. :: _ => true
  | _ => false

/-- Nothing happens to the signals of the task between the two sections of `sig_addpendingsignal`;
no pending signal is unmasked when `sigsuspend` is called or when `sigprocmask` is called without a
set; and there is memory for the actions of pending signals. -/
def SigCareful {σ : Type*} (b : Sig σ) (op : SigOp σ) (_ : Sig σ) : Prop :=
  (∀ s, b.adding s ≠ none → op.puts = some s) ∧ match op with
    | .sigprocmask _ none => ∀ i ∈ b.infos, i.signo ∈ b.sigprocmask
    | .sigsuspend set => ∀ i ∈ b.infos, i.signo ∈ set
    | .run a => b.inUnmask = true → a ≠ none
    | _ => True

/-! ### The accounts -/

/-- The signal that leaves `sigpendingq`. -/
def SigEvent.leaves : SigEvent → Option SigInfo
  | overwritten i | taken i | requeued i | lost i | discarded i => some i
  | _ => none

/-- The signal that is put into `sigpendingq`. -/
def SigEvent.enters : SigEvent → Option SigInfo
  | added i => some i
  | _ => none

/-- The accounts of a queue with the signals `l`, after `sent` signals have arrived. -/
structure Accounts (tr : List SigEvent) (l : List SigInfo) (sent : ℕ) : Prop where
  fresh : ∀ i, .added i ∈ tr → i.id < sent
  once : ∀ i, tr.count (.added i) ≤ 1
  balance : ∀ i, tr.count (.added i) = l.count i + tr.countP (·.leaves = some i)

namespace Accounts

variable {tr evs : List SigEvent} {l l' r : List SigInfo} {sent sent' : ℕ} {i j : SigInfo}

section

variable (h : Accounts tr l sent)

include h

theorem frame (hevs : ∀ ev ∈ evs, ev.enters = none ∧ ev.leaves = none) :
    Accounts (evs ++ tr) l sent := by
  have hadded : ∀ i, .added i ∉ evs := fun i hi => by
    have := (hevs _ hi).1
    cases this
  refine ⟨fun i hi => ?_, fun i => ?_, fun i => ?_⟩
  · exact h.fresh i ((List.mem_append.mp hi).resolve_left (hadded i))
  · rw [List.count_append, List.count_eq_zero_of_not_mem (hadded i), Nat.zero_add]
    exact h.once i
  have hnone : evs.countP (·.leaves = some i) = 0 := by
    rw [List.countP_eq_zero]
    intro ev hev
    simp [(hevs ev hev).2]
  rw [List.count_append, List.count_eq_zero_of_not_mem (hadded i), List.countP_append, hnone,
    Nat.zero_add, Nat.zero_add]
  exact h.balance i

theorem later (hsent : sent ≤ sent') : Accounts tr l sent' :=
  ⟨fun i hi => Nat.lt_of_lt_of_le (h.fresh i hi) hsent, h.once, h.balance⟩

/-- A new signal is put into the queue. -/
theorem add (hi : .added i ∉ tr) (hid : i.id < sent) (hl : l'.Perm (i :: l)) :
    Accounts (.added i :: tr) l' sent := by
  refine ⟨fun j hj => ?_, fun j => ?_, fun j => ?_⟩
  · rcases List.mem_cons.mp hj with heq | hj
    · cases heq
      exact hid
    · exact h.fresh j hj
  · have honce := h.once j
    rw [List.count_cons]
    rcases eq_or_ne i j with rfl | hij
    · rw [List.count_eq_zero_of_not_mem hi]
      simp
    · simpa [hij] using honce
  · have hbalance := h.balance j
    rw [hl.count_eq, List.count_cons, List.count_cons,
      List.countP_cons_of_neg (by simp [SigEvent.leaves])]
    simp only [beq_iff_eq, SigEvent.added.injEq]
    omega

theorem remove (ev : SigEvent) (hev : ev.leaves = some i) (hl : l.Perm (i :: l')) :
    Accounts (ev :: tr) l' sent := by
  have hne : ∀ j, ev ≠ .added j := by
    rintro j rfl
    cases hev
  refine ⟨fun j hj => ?_, fun j => ?_, fun j => ?_⟩
  · exact h.fresh j ((List.mem_cons.mp hj).resolve_left (hne j).symm)
  · rw [List.count_cons_of_ne (hne j)]
    exact h.once j
  have hbalance := h.balance j
  rw [hl.count_eq, List.count_cons] at hbalance
  rw [List.count_cons_of_ne (hne j), List.countP_cons, hev]
  simp only [beq_iff_eq, some.injEq, decide_eq_true_eq] at hbalance ⊢
  omega

theorem overwrite (hi : .added i ∉ tr) (hid : i.id < sent) (hl : l.Perm (j :: r))
    (hl' : l'.Perm (i :: r)) : Accounts (.added i :: .overwritten j :: tr) l' sent :=
  (h.remove (.overwritten j) rfl hl).add (fun hmem => hi (by simpa using hmem)) hid hl'

theorem account (hi : .added i ∈ tr) : l.count i + tr.countP (·.leaves = some i) = 1 := by
  have hpos : 0 < tr.count (.added i) := List.count_pos_iff.mpr hi
  have honce := h.once i
  have hbalance := h.balance i
  omega

end

end Accounts

theorem countP_leaves (tr : List SigEvent) (i : SigInfo) :
    tr.countP (·.leaves = some i) = tr.count (.overwritten i) + tr.count (.taken i) +
      tr.count (.requeued i) + tr.count (.lost i) + tr.count (.discarded i) := by
  induction tr with
  | nil => rfl
  | cons ev tr ih =>
    rw [List.countP_cons, ih]
    simp only [List.count_cons, beq_iff_eq]
    cases ev <;> simp [SigEvent.leaves] <;> omega

/-! ### The masks of the frames -/

namespace Sig

/-- What is known about the frames that are not at the head of the stack, if the mask is `mask` when
the first of them is resumed: `sig_unmaskpendingsignal` has no masked signal in its set. -/
def Below : SigSet → List SigFrame → Prop
  | _, [] => True
  | mask, .unmask unmaskedset _ :: st => Disjoint unmaskedset mask ∧ Below mask st
  | _, .handler _ _ saved :: st => Below saved st
  | _, .suspend saved :: st => Below saved st
  | mask, .loop _ :: st => Below mask st
  | mask, .timedwait :: st => Below mask st
  | mask, .resume :: st => Below mask st

/-- The pending signals that are not masked are still to be released by the innermost call of
`sig_unmaskpendingsignal`, unless a handler runs or the task is in `sigsuspend`. -/
def Covers (pend : SigSet) : SigSet → List SigFrame → Prop
  | mask, [] => pend ⊆ mask
  | mask, .unmask unmaskedset _ :: st =>
    pend ⊆ mask ∪ unmaskedset ∧ Disjoint unmaskedset mask ∧ Below mask st
  | _, .handler _ _ saved :: st => Below saved st
  | _, .suspend saved :: st => Below saved st
  | mask, .loop _ :: st => Covers pend mask st
  | mask, .timedwait :: st => Covers pend mask st
  | mask, .resume :: st => Covers pend mask st

variable {mask mask' pend pend' : SigSet} {st : List SigFrame}

theorem Covers.below (h : Covers pend mask st) : Below mask st := by
  induction st with
  | nil => trivial
  | cons f st ih =>
    cases f with
    | unmask u c => exact h.2
    | handler q n saved | suspend saved => exact h
    | loop q | timedwait | resume => exact ih h

theorem Below.covers (h : Below mask st) (hpend : pend ⊆ mask) : Covers pend mask st := by
  induction st with
  | nil => exact hpend
  | cons f st ih =>
    cases f with
    | unmask u c => exact ⟨hpend.trans subset_union_left, h⟩
    | handler q n saved | suspend saved => exact h
    | loop q | timedwait | resume => exact ih h

theorem Covers.mono (h : Covers pend mask st) (hpend : pend' ⊆ mask ∪ pend) :
    Covers pend' mask st := by
  induction st with
  | nil => exact hpend.trans (union_subset (Subset.refl mask) h)
  | cons f st ih =>
    cases f with
    | unmask u c =>
      exact ⟨hpend.trans (union_subset subset_union_left h.1), h.2⟩
    | handler q n saved | suspend saved => exact h
    | loop q | timedwait | resume => exact ih h

variable {σ : Type*} {b : Sig σ}

theorem Below.of_inUser (h : Below mask b.stack) (huser : b.inUser = true) :
    Below mask' b.stack := by
  rw [inUser] at huser
  split at huser
  · rename_i hst
    rw [hst]
    trivial
  · rename_i hst
    rw [hst] at h ⊢
    exact h
  · cases huser

end Sig

/-! ### The queue -/

namespace Sig

variable {σ : Type*} {b b' : Sig σ} {signo : Signo} {info : SigInfo} {e : SigPend} {set : SigSet}
  {q₁ q₂ : List SigPend}

theorem sigLowest_eq_none (h : sigLowest set = none) : set = ∅ := by
  rw [sigLowest, List.find?_eq_none] at h
  exact eq_empty_of_forall_notMem fun x hx =>
    h x (List.mem_finRange x) (decide_eq_true hx)

theorem sigLowest_mem (h : sigLowest set = some signo) : signo ∈ set := by
  simpa using List.find?_some h

theorem mem_sigPendingset : signo ∈ b.sigPendingset ↔ ∃ i ∈ b.infos, i.signo = signo := by
  rw [sigPendingset, List.mem_toFinset, List.mem_map]

theorem sigFindpendingsignal_eq_some (h : b.sigFindpendingsignal signo = some e) :
    e.info.signo = signo ∧ ∃ q₁ q₂, b.sigpendingq = q₁ ++ e :: q₂ ∧
      b.sigpendingq.eraseP (·.info.signo = signo) = q₁ ++ q₂ := by
  rw [sigFindpendingsignal, List.find?_eq_some_iff_append] at h
  obtain ⟨he, q₁, q₂, hq, hq1⟩ := h
  refine ⟨of_decide_eq_true he, q₁, q₂, hq, ?_⟩
  rw [hq, List.eraseP_append_right _ (fun x hx => by simpa using hq1 x hx),
    List.eraseP_cons_of_pos (by simpa using he)]

theorem sigFindpendingsignal_eq_none (h : b.sigFindpendingsignal signo = none) :
    signo ∉ b.sigPendingset := by
  rw [sigFindpendingsignal, List.find?_eq_none] at h
  rw [mem_sigPendingset]
  rintro ⟨i, hi, rfl⟩
  obtain ⟨e, he, rfl⟩ := List.mem_map.mp hi
  exact h e he (decide_eq_true rfl)

theorem sigRemovependingsignal_eq_some (h : b.sigRemovependingsignal signo = some (info, b')) :
    ∃ (e : SigPend) (q₁ q₂ : List SigPend), e.info = info ∧ info.signo = signo ∧
      b.sigpendingq = q₁ ++ e :: q₂ ∧ b' = { b with sigpendingq := q₁ ++ q₂ } := by
  rw [sigRemovependingsignal, map_eq_some_iff] at h
  obtain ⟨e, he, heq⟩ := h
  cases heq
  obtain ⟨hsigno, q₁, q₂, hq, herase⟩ := sigFindpendingsignal_eq_some he
  exact ⟨e, q₁, q₂, rfl, hsigno, hq, by rw [herase]⟩

theorem sigRemovependingsignal_eq_none (h : b.sigRemovependingsignal signo = none) :
    signo ∉ b.sigPendingset :=
  sigFindpendingsignal_eq_none (map_eq_none_iff.mp h)

theorem infos_of_append (h : b.sigpendingq = q₁ ++ e :: q₂) :
    b.infos = q₁.map (·.info) ++ e.info :: q₂.map (·.info) := by
  rw [infos, h, List.map_append, List.map_cons]

/-! ### The invariant -/

end Sig

/-- The event is as it should be. -/
def SigEvent.Good (act : Signo → Option SigSet) : SigEvent → Prop
  | returned mask l => ∀ i ∈ l, i.signo ∈ mask
  | discarded _ => False
  | lost i => act i.signo = none
  | _ => True

namespace Sig

variable {σ : Type*} {b b' : Sig σ} {signo : Signo} {info : SigInfo}
  {act : Signo → Option SigSet} {tr evs : List SigEvent} {e : SigPend} {set : SigSet}
  {q₁ q₂ : List SigPend}

/-- The invariant. -/
structure Inv (act : Signo → Option SigSet) (tr : List SigEvent) (b : Sig σ) : Prop where
  single : (b.infos.map (·.signo)).Nodup
  nodes : (b.sigpendingq.map (·.node)).Nodup
  covers : Covers b.sigPendingset b.sigprocmask b.stack
  accounts : Accounts tr b.infos b.sent
  good : ∀ ev ∈ tr, ev.Good act
  adding : ∀ s info e, b.adding s = some (info, e) →
    info.signo ∈ b.sigprocmask ∧ .added info ∉ tr ∧ info.id < b.sent ∧
      e = (b.sigFindpendingsignal info.signo).map (·.node)

/-- An event that does not concern the queue. -/
def Quiet (act : Signo → Option SigSet) (ev : SigEvent) : Prop :=
  (ev.enters = none ∧ ev.leaves = none) ∧ ev.Good act

/-- A step that does not concern the queue. -/
theorem Inv.keep (h : Inv act tr b) (evs : List SigEvent) (hadding : ∀ s, b'.adding s = none)
    (hq : b'.sigpendingq = b.sigpendingq) (hevs : ∀ ev ∈ evs, Quiet act ev)
    (hsent : b.sent ≤ b'.sent) (hcovers : Covers b.sigPendingset b'.sigprocmask b'.stack) :
    Inv act (evs ++ tr) b' where
  single := by
    rw [infos, hq]
    exact h.single
  nodes := by
    rw [hq]
    exact h.nodes
  covers := by
    rw [sigPendingset, infos, hq]
    exact hcovers
  accounts := by
    rw [infos, hq]
    exact (h.accounts.frame fun ev hev => (hevs ev hev).1).later hsent
  good := List.forall_mem_append.mpr ⟨fun ev hev => (hevs ev hev).2, h.good⟩
  adding s info e hs := by
    rw [hadding s] at hs
    cases hs

theorem Inv.drop (h : Inv act tr b) (evs : List SigEvent) (ev : SigEvent)
    (hevs : ∀ ev ∈ evs, Quiet act ev) (hev : ev.leaves = some e.info) (hgood : ev.Good act)
    (hq : b.sigpendingq = q₁ ++ e :: q₂) (hq' : b'.sigpendingq = q₁ ++ q₂)
    (hadding : ∀ s, b'.adding s = none) (hsent : b.sent = b'.sent)
    (hcovers : Covers b'.sigPendingset b'.sigprocmask b'.stack) :
    Inv act (evs ++ [ev] ++ tr) b' := by
  rw [List.append_assoc, List.singleton_append]
  have hsub : (q₁ ++ q₂).Sublist b.sigpendingq := by
    rw [hq]
    exact List.Sublist.append_left (List.sublist_cons_self ..) _
  refine ⟨?_, ?_, hcovers, ?_, ?_, fun s info e hs => ?_⟩
  · rw [infos, hq']
    exact h.single.sublist ((hsub.map _).map _)
  · rw [hq']
    exact h.nodes.sublist (hsub.map _)
  · rw [← hsent]
    refine Accounts.frame (h.accounts.remove ev hev ?_) fun ev hev => (hevs ev hev).1
    rw [infos_of_append hq, infos, hq', List.map_append]
    exact List.perm_middle
  · exact List.forall_mem_append.mpr ⟨fun ev hev => (hevs ev hev).2,
      List.forall_mem_cons.mpr ⟨hgood, h.good⟩⟩
  · rw [hadding s] at hs
    cases hs

theorem Inv.sigPendingset_drop (h : Inv act tr b) (hq : b.sigpendingq = q₁ ++ e :: q₂)
    (hq' : b'.sigpendingq = q₁ ++ q₂) : b'.sigPendingset ⊆ b.sigPendingset.erase e.info.signo := by
  intro x hx
  obtain ⟨i, hi, rfl⟩ := mem_sigPendingset.mp hx
  have hsingle := h.single
  rw [infos_of_append hq, List.map_append, List.map_cons, List.nodup_middle,
    List.nodup_cons] at hsingle
  have hmem : i ∈ q₁.map (·.info) ++ q₂.map (·.info) := by
    rw [infos, hq', List.map_append] at hi
    exact hi
  refine mem_erase.mpr ⟨fun heq => hsingle.1 ?_, mem_sigPendingset.mpr ⟨i, ?_, rfl⟩⟩
  · rw [← heq, ← List.map_append]
    exact List.mem_map_of_mem hmem
  · rw [infos_of_append hq]
    exact (List.Sublist.append_left (List.sublist_cons_self ..) _).subset hmem

theorem sigPendingset_subset {q : List SigPend} (hq : ∀ e ∈ b'.sigpendingq, e ∈ q ∨ e.info = info)
    (hsub : ∀ e ∈ q, e ∈ b.sigpendingq) (hmask : info.signo ∈ b.sigprocmask) :
    b'.sigPendingset ⊆ b.sigprocmask ∪ b.sigPendingset := by
  intro x hx
  obtain ⟨i, hi, rfl⟩ := mem_sigPendingset.mp hx
  obtain ⟨e, he, rfl⟩ := List.mem_map.mp hi
  rcases hq e he with he | he
  · exact mem_union_right _
      (mem_sigPendingset.mpr ⟨e.info, List.mem_map_of_mem (hsub e he), rfl⟩)
  · rw [he]
    exact mem_union_left _ hmask

/-- A signal is added to the queue. -/
theorem Inv.put_none (h : Inv act tr b) {n : ℕ} (hn : n ∉ b.sigpendingq.map (·.node))
    (hadding : ∀ s, b'.adding s = none) (hnone : b.sigFindpendingsignal info.signo = none)
    (hmask : info.signo ∈ b.sigprocmask) (hadded : .added info ∉ tr) (hid : info.id < b.sent)
    (hq' : b'.sigpendingq = b.sigpendingq ++ [⟨n, info⟩])
    (hb' : b'.sigprocmask = b.sigprocmask ∧ b'.stack = b.stack ∧ b'.sent = b.sent) :
    Inv act (.added info :: tr) b' := by
  obtain ⟨hmask', hstack, hsent⟩ := hb'
  have hinfos : b'.infos = b.infos ++ [info] := by
    rw [infos, infos, hq', List.map_append]
    rfl
  have hpend := sigFindpendingsignal_eq_none hnone
  refine ⟨?_, ?_, ?_, ?_, ?_, fun s info e hs => ?_⟩
  · rw [hinfos, List.map_append, List.nodup_append]
    refine ⟨h.single, List.nodup_singleton _, fun x hx y hy hxy => hpend ?_⟩
    obtain ⟨i, hi, rfl⟩ := List.mem_map.mp hx
    exact mem_sigPendingset.mpr ⟨i, hi, hxy.trans (List.mem_singleton.mp hy)⟩
  · rw [hq', List.map_append, List.nodup_append]
    refine ⟨h.nodes, List.nodup_singleton _, fun x hx y hy hxy => hn ?_⟩
    obtain rfl : x = n := hxy.trans (List.mem_singleton.mp hy)
    exact hx
  · rw [hmask', hstack]
    refine h.covers.mono (sigPendingset_subset (q := b.sigpendingq) (fun e he => ?_)
      (fun e he => he) hmask)
    rw [hq', List.mem_append, List.mem_singleton] at he
    exact he.imp id fun he => congrArg SigPend.info he
  · rw [hinfos, hsent]
    exact h.accounts.add hadded hid (List.perm_append_singleton ..)
  · exact List.forall_mem_cons.mpr ⟨trivial, h.good⟩
  · rw [hadding s] at hs
    cases hs

theorem node_ne (hnodes : ((q₁ ++ e :: q₂).map (·.node)).Nodup) :
    ∀ x ∈ q₁ ++ q₂, x.node ≠ e.node := by
  rw [List.map_append, List.map_cons, List.nodup_middle, List.nodup_cons, ← List.map_append]
    at hnodes
  exact fun x hx heq => hnodes.1 (heq ▸ List.mem_map_of_mem hx)

theorem map_node_eq (hnodes : ((q₁ ++ e :: q₂).map (·.node)).Nodup) :
    (q₁ ++ e :: q₂).map (fun x => if x.node = e.node then { x with info := info } else x) =
      q₁ ++ { e with info := info } :: q₂ := by
  have hne := node_ne hnodes
  have hkeep : ∀ q : List SigPend, (∀ x ∈ q, x.node ≠ e.node) →
      q.map (fun x => if x.node = e.node then { x with info := info } else x) = q := by
    intro q hq
    conv_rhs => rw [← List.map_id q]
    exact List.map_congr_left fun x hx => if_neg (hq x hx)
  rw [List.map_append, List.map_cons, if_pos rfl,
    hkeep q₁ fun x hx => hne x (List.mem_append_left _ hx),
    hkeep q₂ fun x hx => hne x (List.mem_append_right _ hx)]

/-- A signal in the queue is overwritten by a later one. -/
theorem Inv.put_some (h : Inv act tr b) (he : b.sigFindpendingsignal info.signo = some e)
    (hadding : ∀ s, b'.adding s = none) (hmask : info.signo ∈ b.sigprocmask)
    (hadded : .added info ∉ tr) (hid : info.id < b.sent)
    (hq' : b'.sigpendingq = b.sigpendingq.map fun x =>
      if x.node = e.node then { x with info := info } else x)
    (hb' : b'.sigprocmask = b.sigprocmask ∧ b'.stack = b.stack ∧ b'.sent = b.sent) :
    Inv act (.added info :: .overwritten e.info :: tr) b' := by
  obtain ⟨hmask', hstack, hsent⟩ := hb'
  obtain ⟨hsigno, q₁, q₂, hq, -⟩ := sigFindpendingsignal_eq_some he
  rw [hq, map_node_eq (hq ▸ h.nodes)] at hq'
  have hinfos := infos_of_append hq
  have hinfos' := infos_of_append hq'
  refine ⟨?_, ?_, ?_, ?_, ?_, fun s info e hs => ?_⟩
  · have hsingle := h.single
    rw [hinfos, List.map_append, List.map_cons, hsigno] at hsingle
    rw [hinfos', List.map_append, List.map_cons]
    exact hsingle
  · have hnodes := h.nodes
    rw [hq, List.map_append, List.map_cons] at hnodes
    rw [hq', List.map_append, List.map_cons]
    exact hnodes
  · rw [hmask', hstack]
    refine h.covers.mono (sigPendingset_subset (q := q₁ ++ q₂) (fun x hx => ?_) (fun x hx => ?_)
      hmask)
    · rw [hq', List.mem_append, List.mem_cons] at hx
      rw [List.mem_append]
      rcases hx with hx | rfl | hx
      · exact Or.inl (Or.inl hx)
      · exact Or.inr rfl
      · exact Or.inl (Or.inr hx)
    · rw [hq]
      exact (List.Sublist.append_left (List.sublist_cons_self ..) _).subset hx
  · rw [hinfos', hsent]
    have hperm := h.accounts
    rw [hinfos] at hperm
    exact hperm.overwrite hadded hid List.perm_middle List.perm_middle
  · exact List.forall_mem_cons.mpr ⟨trivial, List.forall_mem_cons.mpr ⟨trivial, h.good⟩⟩
  · rw [hadding s] at hs
    cases hs

/-! ### The steps -/

variable {a : Option ℕ} {s : σ}

theorem sigQueueaction_spec (h : b.sigQueueaction act info a = some (b', evs)) :
    (b'.sigpendingq = b.sigpendingq ∧ b'.adding = b.adding ∧ b'.sent = b.sent ∧
      b'.sigprocmask = b.sigprocmask ∧ b'.stack = b.stack) ∧
    ((∃ n, evs = [.queued n]) ∨ evs = [] ∧ (act info.signo = none ∨ a = none)) := by
  unfold sigQueueaction at h
  split at h
  · split at h
    · cases h
    · cases h
      exact ⟨⟨rfl, rfl, rfl, rfl, rfl⟩, Or.inl ⟨_, rfl⟩⟩
  rename_i hnot
  cases h
  refine ⟨⟨rfl, rfl, rfl, rfl, rfl⟩, Or.inr ⟨rfl, ?_⟩⟩
  by_contra hboth
  obtain ⟨hact, ha⟩ := not_or.mp hboth
  obtain ⟨mask, hmask⟩ := ne_none_iff_exists'.mp hact
  obtain ⟨n, hn⟩ := ne_none_iff_exists'.mp ha
  exact hnot mask n hmask hn

theorem sigReceived_spec (h : b.sigReceived act info a = some (b', evs)) :
    (b'.sigpendingq = b.sigpendingq ∧ b'.adding = b.adding ∧ b'.sent = b.sent ∧
      b'.sigprocmask = b.sigprocmask ∧ (b'.stack = b.stack ∨ ∃ q, b'.stack = .loop q :: b.stack)) ∧
    ((∃ n, evs = [.queued n]) ∨ evs = [] ∧ (act info.signo = none ∨ a = none)) := by
  rw [sigReceived, map_eq_some_iff] at h
  obtain ⟨⟨b1, evs1⟩, hqueue, heq⟩ := h
  cases heq
  obtain ⟨⟨hq, hadding, hsent, hmask, hstack⟩, hevs⟩ := sigQueueaction_spec hqueue
  refine ⟨?_, hevs⟩
  simp only [upScheduleSigaction, wake, push]
  rw [← hq, ← hadding, ← hsent, ← hmask, ← hstack]
  split <;> split <;> simp

theorem Covers.sigReceived {pend mask : SigSet} {st st' : List SigFrame} (h : Covers pend mask st)
    (hst : st' = st ∨ ∃ q, st' = .loop q :: st) : Covers pend mask st' := by
  rcases hst with rfl | ⟨q, rfl⟩
  · exact h
  · exact h

theorem quiet_of_queued
    (hevs : (∃ n, evs = [.queued n]) ∨ evs = [] ∧ (act info.signo = none ∨ a = none)) :
    ∀ ev ∈ evs, Quiet act ev := by
  rcases hevs with ⟨n, rfl⟩ | ⟨rfl, -⟩
  · exact List.forall_mem_singleton.mpr ⟨⟨rfl, rfl⟩, trivial⟩
  · exact nofun

theorem Inv.receive (h : Inv act tr b) (hidle : ∀ s, b.adding s = none)
    (hstep : sigReceived act { b with sent := b.sent + 1 } info a = some (b', evs)) :
    Inv act (evs ++ tr) b' := by
  obtain ⟨⟨hq, hadding, hsent, hmask, hstack⟩, hevs⟩ := sigReceived_spec hstep
  refine h.keep _ (fun s => ?_) hq (quiet_of_queued hevs) ?_ ?_
  · rw [hadding]
    exact hidle s
  · rw [hsent]
    exact Nat.le_succ _
  · rw [hmask]
    exact h.covers.sigReceived hstack

theorem Inv.find [DecidableEq σ] (h : Inv act tr b) (hidle : ∀ s, b.adding s = none)
    (hmask : signo ∈ b.sigprocmask) :
    Inv act tr (Sig.find { b with sent := b.sent + 1 } s ⟨signo, b.sent⟩) := by
  rw [Sig.find]
  split
  · exact h.keep [] hidle rfl nofun (Nat.le_succ _) h.covers
  refine ⟨h.single, h.nodes, h.covers,
    h.accounts.later (Nat.le_succ _), h.good, fun s' info e hs => ?_⟩
  by_cases hs' : s' = s
  · subst hs'
    simp only [update_self, some.injEq, Prod.mk.injEq] at hs
    obtain ⟨rfl, rfl⟩ := hs
    -- The number of the signal is new.
    refine ⟨hmask, fun hadded => ?_, Nat.lt_succ_self _, rfl⟩
    exact absurd (h.accounts.fresh _ hadded) (Nat.lt_irrefl _)
  · simp only [update_of_ne hs', hidle s'] at hs
    cases hs

/-- `sig_addpendingsignal` puts the signal into the queue. -/
theorem Inv.put [DecidableEq σ] (h : Inv act tr b) (hother : ∀ s', b.adding s' ≠ none → s = s')
    {e : Option ℕ} {n : ℕ} (hs : b.adding s = some (info, e))
    (hstep : Sig.put { b with adding := update b.adding s none } info e n =
      some (b', evs)) : Inv act (evs ++ tr) b' := by
  obtain ⟨hmask, hadded, hid, rfl⟩ := h.adding s info e hs
  have hidle : ∀ s', update b.adding s none s' = none := by
    intro s'
    rw [update_apply]
    split
    · rfl
    · rename_i hne
      by_contra hnot
      exact hne (hother s' hnot).symm
  rcases hfind : b.sigFindpendingsignal info.signo with _ | e
  · rw [hfind] at hstep
    simp only [Sig.put, map_none] at hstep
    split at hstep
    · cases hstep
    · rename_i hn
      cases hstep
      exact h.put_none hn hidle hfind hmask hadded hid rfl ⟨rfl, rfl, rfl⟩
  obtain ⟨-, q₁, q₂, hq, -⟩ := sigFindpendingsignal_eq_some hfind
  -- The entry is found again by its address.
  have haddr : b.sigpendingq.find? (·.node = e.node) = some e := by
    rw [List.find?_eq_some_iff_append]
    refine ⟨decide_eq_true rfl, q₁, q₂, hq, fun x hx => ?_⟩
    simpa using node_ne (hq ▸ h.nodes) x (List.mem_append_left _ hx)
  rw [hfind] at hstep
  simp only [Sig.put, map_some, haddr] at hstep
  cases hstep
  exact h.put_some hfind hidle hmask hadded hid rfl ⟨rfl, rfl, rfl⟩

theorem subset_union_sdiff (pend mask : SigSet) : pend ⊆ mask ∪ pend \ mask := by
  rw [union_sdiff_self_eq_union]
  exact subset_union_right

section

variable (h : Inv act tr b)

include h

section

variable (hidle : ∀ s, b.adding s = none)

include hidle

theorem Inv.procmask (huser : b.inUser = true) {how : SigHow} {set : Option SigSet}
    (hset : set = none → ∀ i ∈ b.infos, i.signo ∈ b.sigprocmask)
    (hstep : b.procmask how set = (b', evs)) : Inv act (evs ++ tr) b' := by
  rcases set with _ | set
  · cases hstep
    exact h.keep _ hidle rfl (List.forall_mem_singleton.mpr ⟨⟨rfl, rfl⟩, hset rfl⟩) (Nat.le_refl _)
      h.covers
  · cases hstep
    exact h.keep _ hidle rfl nofun (Nat.le_refl _)
      ⟨subset_union_sdiff .., sdiff_disjoint, h.covers.below.of_inUser huser⟩

theorem Inv.suspend (hset : ∀ i ∈ b.infos, i.signo ∈ set) (hstep : b.suspend set = some (b', evs)) :
    Inv act (evs ++ tr) b' := by
  rw [Sig.suspend] at hstep
  split at hstep
  · rename_i signo hlow
    obtain ⟨hpend, hnot⟩ := mem_sdiff.mp (sigLowest_mem hlow)
    obtain ⟨i, hi, rfl⟩ := mem_sigPendingset.mp hpend
    exact absurd (hset i hi) hnot
  · cases hstep
    exact h.keep _ hidle rfl nofun (Nat.le_refl _) h.covers.below

theorem Inv.timedwait {waits : Bool} (hstep : b.timedwait set waits = some (b', evs)) :
    Inv act (evs ++ tr) b' := by
  rw [Sig.timedwait] at hstep
  split at hstep
  · obtain ⟨⟨info, b1⟩, hremove, heq⟩ := map_eq_some_iff.mp hstep
    cases heq
    obtain ⟨e, q₁, q₂, rfl, -, hq, rfl⟩ := sigRemovependingsignal_eq_some hremove
    refine h.drop [] (.taken e.info) nofun rfl trivial hq rfl hidle rfl (h.covers.mono ?_)
    exact (h.sigPendingset_drop hq rfl).trans ((erase_subset ..).trans subset_union_right)
  · cases hstep
    exact h.keep _ hidle rfl nofun (Nat.le_refl _) h.covers

/-- A step of the loop of `sig_unmaskpendingsignal`. -/
theorem Inv.unmaskStep {u : SigSet} {c : UnmaskCaller} {st : List SigFrame}
    (hst : b.stack = .unmask u c :: st) (ha : a ≠ none)
    (hstep : b.unmaskStep act u c st a = some (b', evs)) : Inv act (evs ++ tr) b' := by
  have hcovers := h.covers
  rw [hst] at hcovers
  obtain ⟨hpend, hdisj, hbelow⟩ := hcovers
  unfold Sig.unmaskStep at hstep
  split at hstep
  · -- No signal is left to be released.
    rename_i hlow
    have hmasked : b.sigPendingset ⊆ b.sigprocmask := by
      rw [sigLowest_eq_none hlow, union_empty] at hpend
      exact hpend
    have hret : Quiet act b.ret :=
      ⟨⟨rfl, rfl⟩, fun i hi => hmasked (mem_sigPendingset.mpr ⟨i, hi, rfl⟩)⟩
    split at hstep
    · cases hstep
      exact h.keep _ hidle rfl (List.forall_mem_singleton.mpr hret) (Nat.le_refl _)
        (hbelow.covers hmasked)
    · cases hstep
      exact h.keep _ hidle rfl (List.forall_mem_singleton.mpr hret) (Nat.le_refl _)
        (hbelow.covers hmasked)
    · cases hstep
      exact h.keep _ hidle rfl (List.forall_mem_singleton.mpr ⟨⟨rfl, rfl⟩, trivial⟩) (Nat.le_refl _)
        (hbelow.covers hmasked)
  rename_i signo hlow
  have hsigno : signo ∈ u := sigLowest_mem hlow
  have hunmasked : signo ∉ b.sigprocmask := disjoint_left.mp hdisj hsigno
  have hdisj' := hdisj.mono_left (erase_subset signo u)
  -- What is still to be released is in the rest of the set.
  have hrest : ∀ pend : SigSet, pend ⊆ b.sigPendingset.erase signo →
      pend ⊆ b.sigprocmask ∪ u.erase signo := by
    intro pend hsub x hx
    obtain ⟨hne, hx⟩ := mem_erase.mp (hsub hx)
    rcases mem_union.mp (hpend hx) with hx | hx
    · exact mem_union_left _ hx
    · exact mem_union_right _ (mem_erase.mpr ⟨hne, hx⟩)
  split at hstep
  · rename_i hnone
    cases hstep
    have hnot : signo ∉ b.sigPendingset := sigRemovependingsignal_eq_none hnone
    refine h.keep _ hidle rfl nofun (Nat.le_refl _) ⟨hrest _ ?_, hdisj', hbelow⟩
    rw [erase_eq_of_notMem hnot]
  rename_i info b1 hremove
  obtain ⟨e, q₁, q₂, rfl, rfl, hq, rfl⟩ := sigRemovependingsignal_eq_some hremove
  rw [Sig.again, if_neg hunmasked] at hstep
  obtain ⟨⟨b2, evs2⟩, hreceived, heq⟩ := map_eq_some_iff.mp hstep
  cases heq
  obtain ⟨⟨hq2, hadding₂, hsent2, hmask2, hstack₂⟩, hevs⟩ := sigReceived_spec hreceived
  refine h.drop _ _ (quiet_of_queued hevs) ?_ ?_ hq hq2 (fun s => ?_) hsent2.symm ?_
  · split <;> rfl
  · split
    · rename_i hempty
      rcases hevs with ⟨n, rfl⟩ | ⟨-, hact | hnone⟩
      · cases hempty
      · exact hact
      · exact absurd hnone ha
    · trivial
  · rw [hadding₂]
    exact hidle s
  · rw [hmask2]
    refine Covers.sigReceived ?_ hstack₂
    exact ⟨hrest _ (h.sigPendingset_drop hq hq2), hdisj', hbelow⟩

/-- **A step of the task.** -/
theorem Inv.go (ha : ∀ u c st, b.stack = .unmask u c :: st → a ≠ none)
    (hstep : b.go act a = some (b', evs)) : Inv act (evs ++ tr) b' := by
  have hcovers := h.covers
  rw [Sig.go] at hstep
  split at hstep <;> rename_i hst <;> rw [hst] at hcovers
  · cases hstep
  · cases hstep
    exact h.keep _ hidle rfl nofun (Nat.le_refl _) ⟨subset_union_sdiff .., sdiff_disjoint, hcovers⟩
  · cases hstep
    exact h.keep _ hidle rfl nofun (Nat.le_refl _) hcovers
  · exact h.unmaskStep hidle hst (ha _ _ _ hst) hstep
  · cases hstep
    exact h.keep _ hidle rfl nofun (Nat.le_refl _) hcovers
  · cases hstep
    exact h.keep _ hidle rfl (List.forall_mem_singleton.mpr ⟨⟨rfl, rfl⟩, trivial⟩) (Nat.le_refl _)
      (Covers.below hcovers)
  · cases hstep
    exact h.keep _ hidle rfl nofun (Nat.le_refl _) ⟨subset_union_sdiff .., sdiff_disjoint, hcovers⟩
  · cases hstep
    exact h.keep _ hidle rfl nofun (Nat.le_refl _) hcovers

end

/-- **Every careful step keeps the invariant.** -/
theorem Inv.step [DecidableEq σ] {op : SigOp σ} (hcareful : SigCareful b op b')
    (hstep : op.step act b = some (b', evs)) : Inv act (evs ++ tr) b' := by
  obtain ⟨hother, hop⟩ := hcareful
  have hidle : op.puts = none → ∀ s, b.adding s = none := fun hputs s => by
    by_contra hnot
    exact absurd (hputs.symm.trans (hother s hnot)) nofun
  cases op with
  | receive signo a =>
    rw [SigOp.step] at hstep
    split at hstep
    · cases hstep
    · exact h.receive (hidle rfl) hstep
  | find s signo =>
    obtain ⟨hcond, hstep⟩ := ite_none_right_eq_some.mp hstep
    cases hstep
    exact h.find (hidle rfl) hcond.1
  | put s a =>
    obtain ⟨⟨info, e⟩, hs, hput⟩ := bind_eq_some_iff.mp hstep
    exact h.put (fun s' hs' => some.inj (hother s' hs')) hs hput
  | timeout | switchOut =>
    obtain ⟨-, hstep⟩ := ite_none_right_eq_some.mp hstep
    cases hstep
    exact h.keep [] (hidle rfl) rfl nofun (Nat.le_refl _) h.covers
  | switchIn =>
    obtain ⟨-, hstep⟩ := ite_none_right_eq_some.mp hstep
    cases hstep
    rw [resume]
    split <;> exact h.keep [] (hidle rfl) rfl nofun (Nat.le_refl _) h.covers
  | sigprocmask how set =>
    obtain ⟨huser, hstep⟩ := ite_none_right_eq_some.mp hstep
    refine h.procmask (hidle rfl) huser (fun hset => ?_) (some.inj hstep)
    subst hset
    exact hop
  | sigsuspend set => exact h.suspend (hidle rfl) hop (ite_none_right_eq_some.mp hstep).2
  | sigtimedwait set waits =>
    exact h.timedwait (hidle rfl) (ite_none_right_eq_some.mp hstep).2
  | run a =>
    obtain ⟨-, hstep⟩ := ite_none_right_eq_some.mp hstep
    refine h.go (hidle rfl) (fun u c st hst => ?_) hstep
    exact hop (by rw [inUnmask, hst])

end

theorem inv_init (mask : SigSet) : Inv act [] (.init mask : Sig σ) where
  single := List.nodup_nil
  nodes := List.nodup_nil
  covers := empty_subset mask
  accounts := ⟨nofun, fun i => Nat.zero_le 1, fun i => rfl⟩
  good := nofun
  adding s info e hs := by cases hs

theorem Inv.sigLaw (h : Inv act tr b) : SigLaw act tr b where
  single := h.single
  masked mask l hl := h.good _ hl
  accounted i hact hi := by
    have haccount := h.accounts.account hi
    -- It has not been lost.
    have hlost : tr.count (.lost i) = 0 := List.count_eq_zero_of_not_mem fun hlost => by
      have hnone : act i.signo = none := h.good _ hlost
      rw [hnone] at hact
      cases hact
    have hdiscarded : tr.count (.discarded i) = 0 :=
      List.count_eq_zero_of_not_mem fun hdiscarded => h.good _ hdiscarded
    rw [countP_leaves] at haccount
    omega

end Sig

section

variable {σ : Type*} [DecidableEq σ] {act : Signo → Option SigSet} {mask : SigSet}
  {tr : List SigEvent} {b : Sig σ}

theorem SigRun.inv (h : SigRun act SigCareful (.init mask) [] tr b) : b.Inv act tr := by
  induction h with
  | init => exact Sig.inv_init mask
  | step op _ hstep hcareful ih => exact ih.step hcareful hstep

/-- **No pending signal is lost.** In the runs in which nothing comes between the two sections of
`sig_addpendingsignal`, no pending signal is unmasked by `sigsuspend`, and there is memory for the
actions, there is at most one entry for a signal in `sigpendingq`, the pending signals are masked
when `sigprocmask` or `sigsuspend` has returned, and a signal that has been put into the queue
leaves it only by being overwritten, by being returned by `sigtimedwait`, or by having its handler
queued. -/
theorem sigRun_law (h : SigRun act SigCareful (.init mask) [] tr b) : SigLaw act tr b :=
  h.inv.sigLaw

end

instance {σ : Type*} [DecidableEq σ] [Fintype σ] (b : Sig σ) (op : SigOp σ) (b' : Sig σ) :
    Decidable (SigCareful b op b') :=
  @instDecidableAnd _ _ (inferInstanceAs (Decidable (∀ s, b.adding s ≠ none → op.puts = some s)))
    (match op with
      | .sigprocmask _ none =>
        inferInstanceAs (Decidable (∀ i ∈ b.infos, i.signo ∈ b.sigprocmask))
      | .sigsuspend set => inferInstanceAs (Decidable (∀ i ∈ b.infos, i.signo ∈ set))
      | .run a => inferInstanceAs (Decidable (b.inUnmask = true → a ≠ none))
      | .sigprocmask _ (some _) | .receive .. | .find .. | .put .. | .timeout | .switchOut
      | .switchIn | .sigtimedwait .. => isTrue trivial)

theorem sigRun_law_unblock :
    ∃ (tr : List SigEvent) (b : Sig Unit),
      SigRun (fun _ => some ∅) SigCareful (.init {3}) [] tr b ∧
        .added ⟨3, 0⟩ ∈ tr ∧ .requeued ⟨3, 0⟩ ∈ tr ∧ SigLaw (fun _ => some ∅) tr b := by
  have h := SigRun.replay (fun _ => some ∅) SigCareful (.init {3}) []
    [.find () 3, .put () 0, .sigprocmask .unblock (some {3}), .run (some 0)] (by decide +kernel)
  exact ⟨_, _, h, by decide +kernel, by decide +kernel, sigRun_law h⟩

theorem sigRun_discards :
    ∃ (tr : List SigEvent) (b : Sig Unit),
      SigRun (fun _ => some ∅) (fun _ _ _ => True) (.init {3}) [] tr b ∧
        tr = [.returned {3} [], .discarded ⟨3, 0⟩, .added ⟨3, 0⟩] ∧ b.infos = [] ∧
        ¬ SigLaw (fun _ => some ∅) tr b := by
  have h := SigRun.replay (fun _ => some ∅) (fun _ _ _ => True) (.init {3} : Sig Unit) []
    [.find () 3, .put () 0, .sigsuspend ∅] (by decide +kernel)
  refine ⟨_, _, h, rfl, rfl, fun hlaw => ?_⟩
  have haccount := hlaw.accounted ⟨3, 0⟩ rfl (by decide +kernel)
  exact absurd haccount (by decide +kernel)

end NuttX
