import NuttX.Signal.Model

/-!
# Delivering the queued actions

`sig_deliver` takes the actions out of `sigpendactionq` one after the other, and calls their
handlers. Before it calls a handler it saves the pointer to the next action. While the handler runs,
and while the signals are released that were masked by it, further signals may be received, and each
of them calls `sig_deliver` again, which goes through the same queue from its head: it delivers and
releases the action that the saved pointer of the first call points to.

`NuttX.deliverRun_law` says that the actions are delivered and released once, if no call of
`sig_deliver` begins while an earlier one has such a pointer, and `NuttX.deliverRun_twice` is a run
in which a handler is called twice. The invariant is that only the innermost call has a saved
pointer, and that it points to the head of the queue (`NuttX.Follows`).
-/

namespace NuttX

open Function Sig SigEvent List Option

/-! ### What the function is for -/

namespace SigFrame

def active : SigFrame → List ℕ
  | handler q _ _ | unmask _ (.deliver q _) => [q]
  | _ => []

def pointer : SigFrame → List (Option ℕ)
  | loop next | handler _ next _ | unmask _ (.deliver _ next) => [next]
  | _ => []

end SigFrame

namespace Sig

variable {σ : Type*}

def active (b : Sig σ) : List ℕ := b.stack.flatMap SigFrame.active

def pointers (b : Sig σ) : List (Option ℕ) := b.stack.flatMap SigFrame.pointer

def serials (b : Sig σ) (l : List ℕ) : List ℕ := l.map fun q => (b.sigq q).serial

end Sig

/-- `sig_deliver` is called for the running task, and not from itself; `sigpendactionq` has any
contents. -/
structure DeliverStart {σ : Type*} (b : Sig σ) : Prop where
  call : ∃ st, b.stack = .loop b.sigpendactionq.head? :: st ∧ st.flatMap SigFrame.pointer = []
  running : b.state = .running
  posted : b.sigpostedq = []
  nodup : b.sigpendactionq.Nodup
  used : ∀ q ∈ b.sigpendactionq, b.used q = true
  serials : (b.serials b.sigpendactionq).Nodup
  serial : ∀ n ∈ b.serials b.sigpendactionq, n < b.serial

/-- A run that ends when the first call of `sig_deliver` returns. -/
def InDeliver {σ : Type*} (b : Sig σ) (_ : SigOp σ) (_ : Sig σ) : Prop := b.pointers ≠ []

/-- In addition, no call of `sig_deliver` begins while another one has a pointer to an action. -/
def NextNull {σ : Type*} (b : Sig σ) (_ : SigOp σ) (b' : Sig σ) : Prop :=
  b.pointers ≠ [] ∧ (b.pointers.length < b'.pointers.length → ∀ p ∈ b.pointers, p = none)

/-- What is said about the actions. -/
structure DeliverLaw {σ : Type*} (tr : List SigEvent) (b : Sig σ) : Prop where
  invoked : ∀ n, tr.count (.invoked n) ≤ tr.count (.queued n) ∧ tr.count (.queued n) ≤ 1
  released : ∀ n, tr.count (.released n) ≤ tr.count (.invoked n)
  returned : b.pointers = [] → b.sigpendactionq = [] ∧ b.sigpostedq = [] ∧
    ∀ n, .queued n ∈ tr → tr.count (.invoked n) = 1 ∧ tr.count (.released n) = 1

/-! ### The accounts -/

/-- The accounts of the actions: `pend` and `posted` are those in the two queues. -/
structure ActionAccounts (tr : List SigEvent) (pend posted : List ℕ) (serial : ℕ) : Prop where
  fresh : ∀ n, .queued n ∈ tr → n < serial
  once : ∀ n, tr.count (.queued n) ≤ 1
  queued : ∀ n, tr.count (.queued n) = pend.count n + tr.count (.invoked n)
  invoked : ∀ n, tr.count (.invoked n) = posted.count n + tr.count (.released n)

/-- An event that does not concern the actions. -/
def SigEvent.aside : SigEvent → Bool
  | queued _ | invoked _ | released _ => false
  | _ => true

namespace ActionAccounts

variable {tr evs : List SigEvent} {pend posted posted' : List ℕ} {serial n : ℕ}

theorem frame (h : ActionAccounts tr pend posted serial) (hevs : ∀ ev ∈ evs, ev.aside = true) :
    ActionAccounts (evs ++ tr) pend posted serial := by
  have hnone : ∀ ev : SigEvent, ev.aside = false → (evs ++ tr).count ev = tr.count ev := by
    intro ev hev
    rw [count_append, count_eq_zero_of_not_mem, Nat.zero_add]
    intro hmem
    exact absurd ((hevs ev hmem).symm.trans hev) nofun
  refine ⟨fun n hn => h.fresh n ?_, fun n => ?_, fun n => ?_, fun n => ?_⟩
  · rw [← count_pos_iff, ← hnone _ rfl]
    exact count_pos_iff.mpr hn
  · rw [hnone _ rfl]
    exact h.once n
  · rw [hnone _ rfl, hnone _ rfl]
    exact h.queued n
  · rw [hnone _ rfl, hnone _ rfl]
    exact h.invoked n

/-- An action is queued. -/
theorem queue (h : ActionAccounts tr pend posted serial) :
    ActionAccounts (.queued serial :: tr) (pend ++ [serial]) posted (serial + 1) := by
  have hnew : tr.count (.queued serial) = 0 :=
    count_eq_zero_of_not_mem fun hmem => Nat.lt_irrefl _ (h.fresh _ hmem)
  refine ⟨fun n hn => ?_, fun n => ?_, fun n => ?_, fun n => ?_⟩
  · rcases mem_cons.mp hn with heq | hn
    · cases heq
      exact Nat.lt_succ_self _
    · exact Nat.lt_succ_of_lt (h.fresh n hn)
  · have honce := h.once n
    rw [count_cons]
    rcases eq_or_ne serial n with rfl | hne
    · rw [hnew]
      simp
    · simpa [hne] using honce
  · have hqueued := h.queued n
    simp only [count_append, count_cons, count_nil, beq_iff_eq,
      queued.injEq, reduceCtorEq, if_false]
    omega
  · exact h.invoked n

theorem invoke (h : ActionAccounts tr (n :: pend) posted serial) :
    ActionAccounts (.invoked n :: tr) pend (posted ++ [n]) serial := by
  refine ⟨fun m hm => h.fresh m (by simpa using hm), fun m => ?_, fun m => ?_, fun m => ?_⟩
  · exact h.once m
  · have hqueued := h.queued m
    rw [count_cons] at hqueued
    rw [count_cons_of_ne (by simp), count_cons]
    simp only [beq_iff_eq, invoked.injEq] at hqueued ⊢
    omega
  · have hinvoked := h.invoked m
    simp only [count_append, count_cons, count_nil, beq_iff_eq,
      invoked.injEq, reduceCtorEq, if_false]
    omega

theorem release (h : ActionAccounts tr pend posted serial) (hperm : posted.Perm (n :: posted')) :
    ActionAccounts (.released n :: tr) pend posted' serial := by
  refine ⟨fun m hm => h.fresh m (by simpa using hm), fun m => ?_, fun m => ?_, fun m => ?_⟩
  · exact h.once m
  · exact h.queued m
  have hinvoked := h.invoked m
  rw [hperm.count_eq, count_cons] at hinvoked
  rw [count_cons_of_ne (by simp), count_cons]
  simp only [beq_iff_eq, released.injEq] at hinvoked ⊢
  omega

end ActionAccounts

/-! ### The saved pointers -/

/-- Only the innermost call of `sig_deliver` has a saved pointer, and it points to the head of the
queue; but there may be actions that are not pointed to while the task does not run (`parked`). -/
def Follows (ptrs : List (Option ℕ)) (pend : List ℕ) (parked : Prop) : Prop :=
  match ptrs with
  | [] => pend = []
  | p :: ps => (∀ x ∈ ps, x = none) ∧ (p = pend.head? ∨ p = none ∧ parked)

namespace Follows

variable {ptrs : List (Option ℕ)} {p : Option ℕ} {pend pend' : List ℕ} {parked parked' : Prop}

theorem mono (h : Follows ptrs pend parked) (hparked : parked → parked') :
    Follows ptrs pend parked' := by
  cases ptrs with
  | nil => exact h
  | cons p ps => exact ⟨h.1, h.2.imp id (And.imp id hparked)⟩

theorem push (hnull : ∀ p ∈ ptrs, p = none) : Follows (pend.head? :: ptrs) pend parked :=
  ⟨hnull, Or.inl rfl⟩

theorem pop (h : Follows (none :: ptrs) pend False) : pend = [] ∧ Follows ptrs pend parked := by
  have hempty : pend = [] := by
    rcases h.2 with hhead | ⟨-, hfalse⟩
    · exact head?_eq_none_iff.mp hhead.symm
    · exact hfalse.elim
  subst hempty
  refine ⟨rfl, ?_⟩
  cases ptrs with
  | nil => rfl
  | cons p ps =>
    exact ⟨fun x hx => h.1 x (mem_cons_of_mem _ hx), Or.inl (h.1 p mem_cons_self)⟩

theorem park (h : Follows ptrs pend parked) (hptrs : ptrs ≠ []) {q : ℕ} :
    Follows ptrs (pend ++ [q]) True := by
  cases ptrs with
  | nil => exact absurd rfl hptrs
  | cons p ps =>
    refine ⟨h.1, ?_⟩
    rcases h.2 with rfl | ⟨rfl, -⟩
    · cases pend with
      | nil => exact Or.inr ⟨rfl, trivial⟩
      | cons x pend => exact Or.inl rfl
    · exact Or.inr ⟨rfl, trivial⟩

theorem take {q : ℕ} (h : Follows (some q :: ptrs) pend False) :
    ∃ pend', pend = q :: pend' ∧ Follows (pend'.head? :: ptrs) pend' False := by
  rcases h.2 with hhead | ⟨-, hfalse⟩
  · obtain ⟨pend', rfl⟩ := head?_eq_some_iff.mp hhead.symm
    exact ⟨pend', rfl, h.1, Or.inl rfl⟩
  · exact hfalse.elim

end Follows

/-! ### The invariant -/

namespace Sig

variable {σ : Type*} {b b' : Sig σ} {tr evs : List SigEvent} {act : Signo → Option SigSet}
  {info : SigInfo} {a : Option ℕ} {op : SigOp σ}

/-- The actions in the two queues are allocated, and the accounts are right. -/
structure Stocked (tr : List SigEvent) (b : Sig σ) : Prop where
  posted : b.sigpostedq = b.active.reverse
  nodup : (b.sigpostedq ++ b.sigpendactionq).Nodup
  used : ∀ q ∈ b.sigpostedq ++ b.sigpendactionq, b.used q = true
  accounts : ActionAccounts tr (b.serials b.sigpendactionq) (b.serials b.sigpostedq) b.serial

/-- The task does not run, and `sig_deliver` will be called when it does. -/
def Parked (b : Sig σ) : Prop := b.state ≠ .running ∧ b.sigdeliver = true

/-- The invariant. -/
structure Orderly (tr : List SigEvent) (b : Sig σ) : Prop extends Stocked tr b where
  follows : Follows b.pointers b.sigpendactionq b.Parked

/-- The queues of actions are the same. -/
structure SameActions (b b' : Sig σ) : Prop where
  pend : b'.sigpendactionq = b.sigpendactionq
  posted : b'.sigpostedq = b.sigpostedq
  sigq : b'.sigq = b.sigq
  used : b'.used = b.used
  serial : b'.serial = b.serial
  active : b'.active = b.active

theorem Stocked.frame (h : Stocked tr b) (evs : List SigEvent) (hsame : SameActions b b')
    (hevs : ∀ ev ∈ evs, ev.aside = true) : Stocked (evs ++ tr) b' := by
  obtain ⟨hpend, hposted, hsigq, hused, hserial, hactive⟩ := hsame
  refine ⟨?_, ?_, ?_, ?_⟩
  · rw [hposted, hactive]
    exact h.posted
  · rw [hposted, hpend]
    exact h.nodup
  · rw [hposted, hpend, hused]
    exact h.used
  · rw [hposted, hpend, hserial, serials, serials, hsigq]
    exact h.accounts.frame hevs

theorem Orderly.frame (h : Orderly tr b) (evs : List SigEvent) (hsame : SameActions b b')
    (hpointers : b'.pointers = b.pointers) (hparked : b.Parked → b'.Parked)
    (hevs : ∀ ev ∈ evs, ev.aside = true) : Orderly (evs ++ tr) b' := by
  refine ⟨h.toStocked.frame evs hsame hevs, ?_⟩
  rw [hpointers, hsame.pend]
  exact h.follows.mono hparked

theorem Orderly.frame_running (h : Orderly tr b) (hrun : b.state = .running)
    (evs : List SigEvent) (hsame : SameActions b b') (hpointers : b'.pointers = b.pointers)
    (hevs : ∀ ev ∈ evs, ev.aside = true) : Orderly (evs ++ tr) b' :=
  h.frame evs hsame hpointers (fun hparked => absurd hrun hparked.1) hevs

theorem sigQueueaction_same (hstep : b.sigQueueaction act info a = some (b', evs)) :
    b'.stack = b.stack ∧ b'.state = b.state := by
  unfold sigQueueaction at hstep
  split at hstep
  · split at hstep <;> cases hstep
    exact ⟨rfl, rfl⟩
  · cases hstep
    exact ⟨rfl, rfl⟩

theorem Stocked.sigQueueaction (h : Stocked tr b)
    (hstep : b.sigQueueaction act info a = some (b', evs)) :
    Stocked (evs ++ tr) b' ∧ (b'.sigpendactionq = b.sigpendactionq ∨
      ∃ q, b'.sigpendactionq = b.sigpendactionq ++ [q]) := by
  unfold Sig.sigQueueaction at hstep
  split at hstep
  · rename_i mask q hact
    split at hstep
    · cases hstep
    rename_i hfree
    cases hstep
    -- The structure is not in one of the queues.
    have hq : q ∉ b.sigpostedq ++ b.sigpendactionq := fun hmem => hfree (h.used q hmem)
    have hserials : ∀ l : List ℕ, q ∉ l → (l.map fun x =>
        (update b.sigq q ⟨info, mask, b.serial⟩ x).serial) = b.serials l := by
      intro l hl
      refine map_congr_left fun x hx => ?_
      have hne : x ≠ q := by
        rintro rfl
        exact hl hx
      rw [update_of_ne hne]
    refine ⟨⟨h.posted, ?_, fun x hx => ?_, ?_⟩, Or.inr ⟨q, rfl⟩⟩
    · rw [← append_assoc, nodup_append]
      refine ⟨h.nodup, nodup_singleton q, fun x hx y hy hxy => hq ?_⟩
      rw [← mem_singleton.mp hy, ← hxy]
      exact hx
    · rw [← append_assoc, mem_append, mem_singleton] at hx
      show update b.used q true x = true
      rw [update_apply]
      split
      · rfl
      · rename_i hne
        exact h.used x (hx.resolve_right hne)
    · have hpend := hserials b.sigpendactionq fun hmem => hq (mem_append_right _ hmem)
      have hposted := hserials b.sigpostedq fun hmem => hq (mem_append_left _ hmem)
      simp only [serials, map_append, map_singleton, update_self]
      rw [hpend, hposted]
      exact h.accounts.queue
  · cases hstep
    exact ⟨h, Or.inl rfl⟩

/-- **`sig_received` for a signal that is not masked.** If the task runs then no call of
`sig_deliver` has a saved pointer. -/
theorem Orderly.sigReceived (h : Orderly tr b) (hptrs : b.pointers ≠ [])
    (hnull : b.state = .running → ∀ p ∈ b.pointers, p = none)
    (hstep : b.sigReceived act info a = some (b', evs)) : Orderly (evs ++ tr) b' := by
  rw [Sig.sigReceived, map_eq_some_iff] at hstep
  obtain ⟨⟨b1, evs1⟩, hqueue, heq⟩ := hstep
  cases heq
  obtain ⟨h1, hpend⟩ := h.toStocked.sigQueueaction hqueue
  obtain ⟨hstack, hstate⟩ := sigQueueaction_same hqueue
  have hpointers : b1.pointers = b.pointers := by
    rw [pointers, hstack]
    rfl
  by_cases hrun : b.state = .running
  · -- `sig_deliver` is called.
    have hrun1 : b1.state = .running := hstate.trans hrun
    simp only [upScheduleSigaction, if_pos hrun1]
    rw [if_neg (by rw [push, hrun1]; exact nofun)]
    refine ⟨⟨h1.posted, h1.nodup, h1.used, h1.accounts⟩, ?_⟩
    show Follows (b1.sigpendactionq.head? :: b1.pointers) _ _
    rw [hpointers]
    exact Follows.push (hnull hrun)
  · have hrun1 : b1.state ≠ .running := fun hrun1 => hrun (hstate.symm.trans hrun1)
    have hfollows : Follows b1.pointers b1.sigpendactionq True := by
      rw [hpointers]
      rcases hpend with hpend | ⟨q, hpend⟩
      · rw [hpend]
        exact h.follows.mono fun _ => trivial
      · rw [hpend]
        exact h.follows.park hptrs
    simp only [upScheduleSigaction, if_neg hrun1]
    split
    · exact ⟨⟨h1.posted, h1.nodup, h1.used, h1.accounts⟩, hfollows.mono fun _ => ⟨nofun, rfl⟩⟩
    · exact ⟨⟨h1.posted, h1.nodup, h1.used, h1.accounts⟩, hfollows.mono fun _ => ⟨hrun1, rfl⟩⟩

/-! ### The steps of the task -/

variable {st : List SigFrame} {q : ℕ} {next : Option ℕ}

section

variable (h : Orderly tr b) (hrun : b.state = .running)

include h hrun

theorem Orderly.follows_running : Follows b.pointers b.sigpendactionq False :=
  h.follows.mono fun hparked => hparked.1 hrun

theorem Orderly.pop (hst : b.stack = .loop none :: st) : Orderly tr { b with stack := st } := by
  have hfollows := h.follows_running hrun
  have hactive : b.active = st.flatMap SigFrame.active := by
    rw [active, hst]
    rfl
  rw [pointers, hst] at hfollows
  refine ⟨⟨h.posted.trans (by rw [hactive]; rfl), h.nodup, h.used, h.accounts⟩, ?_⟩
  exact (Follows.pop hfollows).2

/-- **The handler of an action is called.** -/
theorem Orderly.deliverStep (hst : b.stack = .loop (some q) :: st)
    (hstep : b.deliverStep q st a = (b', evs)) : Orderly (evs ++ tr) b' := by
  have hfollows := h.follows_running hrun
  have hactive : b.active = st.flatMap SigFrame.active := by
    rw [active, hst]
    rfl
  rw [pointers, hst] at hfollows
  obtain ⟨pend, hpend, hfollows'⟩ := Follows.take hfollows
  have hnodup := h.nodup
  have hused := h.used
  have haccounts := h.accounts
  rw [hpend] at hnodup hused haccounts
  cases hstep
  refine ⟨⟨?_, ?_, fun x hx => hused x ?_, ?_⟩, ?_⟩
  · show b.sigpostedq ++ [q] = (q :: st.flatMap SigFrame.active).reverse
    rw [reverse_cons, h.posted, hactive]
  · rw [hpend, erase_cons_head, append_assoc]
    exact hnodup
  · have hx' : x ∈ (b.sigpostedq ++ [q]) ++ b.sigpendactionq.erase q := hx
    rw [hpend, erase_cons_head, append_assoc] at hx'
    exact hx'
  · rw [hpend, erase_cons_head, serials, serials, map_append]
    exact haccounts.invoke
  rw [hpend, erase_cons_head, if_pos mem_cons_self, dropWhile_cons_of_neg (by simp), tail_cons]
  exact hfollows'.mono False.elim

/-- **An action is released.** -/
theorem Orderly.release {u : SigSet} (hst : b.stack = .unmask u (.deliver q next) :: st)
    (hb' : b' = { b with
      sigpostedq := b.sigpostedq.erase q
      used := update b.used q false
      stack := .loop next :: st }) : Orderly (.released (b.sigq q).serial :: tr) b' := by
  have hfollows := h.follows_running hrun
  have hactive : b.active = q :: st.flatMap SigFrame.active := by
    rw [active, hst]
    rfl
  rw [pointers, hst] at hfollows
  have hposted := h.posted
  rw [hactive, reverse_cons] at hposted
  have hnodup := h.nodup
  rw [hposted, append_assoc, singleton_append, nodup_middle, nodup_cons] at hnodup
  -- The action is the last one in `sigpostedq`.
  have herase : b.sigpostedq.erase q = (st.flatMap SigFrame.active).reverse := by
    rw [hposted, erase_append_right _ fun hmem => hnodup.1 (mem_append_left _ hmem),
      erase_cons_head, append_nil]
  subst hb'
  refine ⟨⟨herase, ?_, fun x hx => ?_, ?_⟩, ?_⟩
  · show (b.sigpostedq.erase q ++ b.sigpendactionq).Nodup
    rw [herase]
    exact hnodup.2
  · have hx' : x ∈ b.sigpostedq.erase q ++ b.sigpendactionq := hx
    rw [herase] at hx'
    have hne : x ≠ q := by
      rintro rfl
      exact hnodup.1 hx'
    show update b.used q false x = true
    rw [update_of_ne hne]
    refine h.used x ?_
    rw [hposted, append_assoc]
    exact (Sublist.append_left (sublist_append_right ..) _).subset hx'
  · show ActionAccounts _ _ (b.serials (b.sigpostedq.erase q)) _
    refine h.accounts.release ?_
    rw [herase, hposted, serials, map_append]
    exact perm_append_singleton ..
  · exact hfollows.mono False.elim

theorem Orderly.replace (hst : b.stack = st) (evs : List SigEvent)
    (hactive : b'.active = st.flatMap SigFrame.active)
    (hpointers : b'.pointers = st.flatMap SigFrame.pointer)
    (hsame : b'.sigpendactionq = b.sigpendactionq ∧ b'.sigpostedq = b.sigpostedq ∧
      b'.sigq = b.sigq ∧ b'.used = b.used ∧ b'.serial = b.serial)
    (hevs : ∀ ev ∈ evs, ev.aside = true) : Orderly (evs ++ tr) b' := by
  obtain ⟨hpend, hposted, hsigq, hused, hserial⟩ := hsame
  refine h.frame_running hrun evs ⟨hpend, hposted, hsigq, hused, hserial, ?_⟩ ?_ hevs
  · rw [hactive, active, hst]
  · rw [hpointers, pointers, hst]

end

theorem pointers_sigReceived (hrun : b.state = .running)
    (hstep : b.sigReceived act info a = some (b', evs)) : ∃ p, b'.pointers = p :: b.pointers := by
  rw [sigReceived, map_eq_some_iff] at hstep
  obtain ⟨⟨b1, evs1⟩, hqueue, heq⟩ := hstep
  cases heq
  obtain ⟨hstack, hstate⟩ := sigQueueaction_same hqueue
  have hrun1 : b1.state = .running := hstate.trans hrun
  simp only [upScheduleSigaction, if_pos hrun1]
  rw [if_neg (by rw [push, hrun1]; exact nofun)]
  refine ⟨b1.sigpendactionq.head?, ?_⟩
  rw [pointers, pointers, push, hstack]
  rfl

theorem put_same {e : Option ℕ} {n : ℕ} (hstep : b.put info e n = some (b', evs)) :
    SameActions b b' ∧ b'.stack = b.stack ∧ b'.state = b.state ∧ b'.sigdeliver = b.sigdeliver ∧
      ∀ ev ∈ evs, ev.aside = true := by
  unfold put at hstep
  split at hstep
  · split at hstep
    · cases hstep
      exact ⟨⟨rfl, rfl, rfl, rfl, rfl, rfl⟩, rfl, rfl, rfl,
        forall_mem_cons.mpr ⟨rfl, forall_mem_singleton.mpr rfl⟩⟩
    · cases hstep
      exact ⟨⟨rfl, rfl, rfl, rfl, rfl, rfl⟩, rfl, rfl, rfl, nofun⟩
  · split at hstep
    · cases hstep
    · cases hstep
      exact ⟨⟨rfl, rfl, rfl, rfl, rfl, rfl⟩, rfl, rfl, rfl, forall_mem_singleton.mpr rfl⟩

theorem sigRemovependingsignal_same {signo : Signo}
    (h : b.sigRemovependingsignal signo = some (info, b')) :
    SameActions b b' ∧ b'.stack = b.stack ∧ b'.state = b.state := by
  rw [sigRemovependingsignal, map_eq_some_iff] at h
  obtain ⟨e, -, heq⟩ := h
  cases heq
  exact ⟨⟨rfl, rfl, rfl, rfl, rfl, rfl⟩, rfl, rfl⟩

theorem SameActions.setStack (h : SameActions b b') (hst : st.flatMap SigFrame.active = b.active) :
    SameActions b { b' with stack := st } :=
  ⟨h.pend, h.posted, h.sigq, h.used, h.serial, hst⟩

theorem flatMap_unmask (st : List SigFrame) (c : UnmaskCaller) (u u' : SigSet) :
    (SigFrame.unmask u c :: st).flatMap SigFrame.active =
        (SigFrame.unmask u' c :: st).flatMap SigFrame.active ∧
      (SigFrame.unmask u c :: st).flatMap SigFrame.pointer =
        (SigFrame.unmask u' c :: st).flatMap SigFrame.pointer := by
  cases c <;> exact ⟨rfl, rfl⟩

/-- **A step of the loop of `sig_unmaskpendingsignal`.** -/
theorem Orderly.unmaskStep (h : Orderly tr b) (hrun : b.state = .running) {u : SigSet}
    {c : UnmaskCaller} (hst : b.stack = .unmask u c :: st) (hnext : NextNull b op b')
    (hstep : b.unmaskStep act u c st a = some (b', evs)) : Orderly (evs ++ tr) b' := by
  unfold Sig.unmaskStep at hstep
  split at hstep
  · split at hstep
    · cases hstep
      exact h.replace hrun hst _ rfl rfl ⟨rfl, rfl, rfl, rfl, rfl⟩ (forall_mem_singleton.mpr rfl)
    · cases hstep
      exact h.replace hrun hst _ rfl rfl ⟨rfl, rfl, rfl, rfl, rfl⟩ (forall_mem_singleton.mpr rfl)
    · cases hstep
      exact h.release hrun hst rfl
  rename_i signo hlow
  obtain ⟨hactive, hpointer⟩ := flatMap_unmask st c (u.erase signo) u
  rw [← hst] at hactive hpointer
  split at hstep
  · cases hstep
    exact h.frame_running hrun [] ⟨rfl, rfl, rfl, rfl, rfl, hactive⟩ hpointer nofun
  rename_i info b1 hremove
  obtain ⟨hsame, -, hstate⟩ := sigRemovependingsignal_same hremove
  have h1 : Orderly tr { b1 with stack := .unmask (u.erase signo) c :: st } :=
    h.frame_running hrun [] (hsame.setStack hactive) hpointer nofun
  have hrun1 : b1.state = .running := hstate.trans hrun
  rw [Sig.again] at hstep
  split at hstep
  · obtain ⟨n, -, hput⟩ := bind_eq_some_iff.mp hstep
    obtain ⟨hsame', hstack', -, -, hevs⟩ := put_same hput
    refine h1.frame_running hrun1 _ hsame' ?_ hevs
    rw [pointers, hstack']
    rfl
  obtain ⟨⟨b2, evs2⟩, hreceived, heq⟩ := map_eq_some_iff.mp hstep
  cases heq
  have hpointers₁ : ({ b1 with stack := .unmask (u.erase signo) c :: st } : Sig σ).pointers =
    b.pointers := hpointer
  obtain ⟨p, hp⟩ := pointers_sigReceived
    (b := { b1 with stack := .unmask (u.erase signo) c :: st }) hrun1 hreceived
  rw [hpointers₁] at hp
  -- A call of `sig_deliver` begins.
  have hnull := hnext.2 (by rw [hp]; exact Nat.lt_succ_self _)
  have haside : ∀ ev ∈ [if evs2 = [] then lost info else .requeued info], ev.aside = true := by
    intro ev hev
    rw [mem_singleton.mp hev]
    split <;> rfl
  rw [append_assoc]
  refine Orderly.sigReceived (b := { b1 with stack := .unmask (u.erase signo) c :: st })
    (h1.frame_running hrun1 _ ⟨rfl, rfl, rfl, rfl, rfl, rfl⟩ rfl haside) ?_ (fun _ => ?_)
    hreceived
  · rw [hpointers₁]
    exact hnext.1
  · rw [hpointers₁]
    exact hnull

/-- **A step of the task.** -/
theorem Orderly.go (h : Orderly tr b) (hrun : b.state = .running) (hnext : NextNull b op b')
    (hstep : b.go act a = some (b', evs)) : Orderly (evs ++ tr) b' := by
  rw [Sig.go] at hstep
  split at hstep <;> rename_i hst
  · cases hstep
  · cases hstep
    exact h.replace hrun hst [] rfl rfl ⟨rfl, rfl, rfl, rfl, rfl⟩ nofun
  · cases hstep
    exact h.replace hrun hst [] rfl rfl ⟨rfl, rfl, rfl, rfl, rfl⟩ nofun
  · exact h.unmaskStep hrun hst hnext hstep
  · cases hstep
    exact h.pop hrun hst
  · exact h.deliverStep hrun hst (some.inj hstep)
  · cases hstep
    exact h.replace hrun hst [] rfl rfl ⟨rfl, rfl, rfl, rfl, rfl⟩ nofun
  · cases hstep
    exact h.replace hrun hst [] rfl rfl ⟨rfl, rfl, rfl, rfl, rfl⟩ nofun

theorem inUser_running (h : b.inUser = true) : b.state = .running := by
  rw [inUser] at h
  split at h
  · exact of_decide_eq_true h
  · exact of_decide_eq_true h
  · cases h

/-- **The context switch to the task.** -/
theorem Orderly.resume (h : Orderly tr b) (hnext : NextNull b op b.resume) :
    Orderly tr b.resume := by
  have hnull := hnext.2
  rw [Sig.resume] at hnull ⊢
  split
  · rename_i hdeliver
    rw [if_pos hdeliver] at hnull
    have hlen : b.pointers.length < (b.sigpendactionq.head? :: b.pointers).length :=
      Nat.lt_succ_self _
    exact ⟨⟨h.posted, h.nodup, h.used, h.accounts⟩, Follows.push (hnull hlen)⟩
  · rename_i hdeliver
    exact h.frame [] ⟨rfl, rfl, rfl, rfl, rfl, rfl⟩ rfl
      (fun hparked => absurd hparked.2 hdeliver) nofun

/-- **Every step keeps the invariant**, if no call of `sig_deliver` begins while another one has a
pointer. -/
theorem Orderly.step [DecidableEq σ] (h : Orderly tr b) (hnext : NextNull b op b')
    (hstep : op.step act b = some (b', evs)) : Orderly (evs ++ tr) b' := by
  cases op with
  | receive signo a =>
    rw [SigOp.step] at hstep
    split at hstep
    · cases hstep
    refine Orderly.sigReceived (b := { b with sent := b.sent + 1 })
      (h.frame [] ⟨rfl, rfl, rfl, rfl, rfl, rfl⟩ rfl id nofun) hnext.1 (fun hrun => ?_) hstep
    obtain ⟨p, hp⟩ := pointers_sigReceived (b := { b with sent := b.sent + 1 }) hrun hstep
    refine hnext.2 ?_
    rw [hp]
    exact Nat.lt_succ_self _
  | find s signo =>
    obtain ⟨-, hstep⟩ := ite_none_right_eq_some.mp hstep
    cases hstep
    rw [find]
    split
    · exact h.frame [] ⟨rfl, rfl, rfl, rfl, rfl, rfl⟩ rfl (fun hparked => ⟨nofun, hparked.2⟩) nofun
    · exact h.frame [] ⟨rfl, rfl, rfl, rfl, rfl, rfl⟩ rfl id nofun
  | put s a =>
    obtain ⟨⟨info, e⟩, hs, hput⟩ := bind_eq_some_iff.mp hstep
    obtain ⟨hsame, hstack, hstate, hdeliver, hevs⟩ := put_same hput
    refine h.frame _ ⟨hsame.pend, hsame.posted, hsame.sigq, hsame.used, hsame.serial, hsame.active⟩
      ?_ (fun hparked => ?_) hevs
    · rw [pointers, hstack]
      rfl
    · rw [Parked, hstate, hdeliver]
      exact hparked
  | timeout =>
    obtain ⟨-, hstep⟩ := ite_none_right_eq_some.mp hstep
    cases hstep
    exact h.frame [] ⟨rfl, rfl, rfl, rfl, rfl, rfl⟩ rfl (fun hparked => ⟨nofun, hparked.2⟩) nofun
  | switchOut =>
    obtain ⟨huser, hstep⟩ := ite_none_right_eq_some.mp hstep
    cases hstep
    exact h.frame_running (inUser_running huser) [] ⟨rfl, rfl, rfl, rfl, rfl, rfl⟩ rfl nofun
  | switchIn =>
    obtain ⟨-, hstep⟩ := ite_none_right_eq_some.mp hstep
    cases hstep
    exact h.resume hnext
  | sigprocmask how set =>
    obtain ⟨huser, hstep⟩ := ite_none_right_eq_some.mp hstep
    have hrun := inUser_running huser
    cases set with
    | none =>
      cases hstep
      exact h.frame_running hrun _ ⟨rfl, rfl, rfl, rfl, rfl, rfl⟩ rfl (forall_mem_singleton.mpr rfl)
    | some set =>
      cases hstep
      exact h.frame_running hrun [] ⟨rfl, rfl, rfl, rfl, rfl, rfl⟩ rfl nofun
  | sigsuspend set =>
    obtain ⟨huser, hstep⟩ := ite_none_right_eq_some.mp hstep
    have hrun := inUser_running huser
    rw [suspend] at hstep
    split at hstep
    · obtain ⟨⟨info, b1⟩, hremove, heq⟩ := map_eq_some_iff.mp hstep
      cases heq
      obtain ⟨hsame, hstack, -⟩ := sigRemovependingsignal_same hremove
      exact h.frame_running hrun _ hsame (by rw [pointers, hstack]; rfl)
        (forall_mem_cons.mpr ⟨rfl, forall_mem_singleton.mpr rfl⟩)
    · cases hstep
      exact h.frame_running hrun [] ⟨rfl, rfl, rfl, rfl, rfl, rfl⟩ rfl nofun
  | sigtimedwait set waits =>
    obtain ⟨huser, hstep⟩ := ite_none_right_eq_some.mp hstep
    have hrun := inUser_running huser
    rw [timedwait] at hstep
    split at hstep
    · obtain ⟨⟨info, b1⟩, hremove, heq⟩ := map_eq_some_iff.mp hstep
      cases heq
      obtain ⟨hsame, hstack, -⟩ := sigRemovependingsignal_same hremove
      exact h.frame_running hrun _ hsame (by rw [pointers, hstack]; rfl)
        (forall_mem_singleton.mpr rfl)
    · cases hstep
      exact h.frame_running hrun [] ⟨rfl, rfl, rfl, rfl, rfl, rfl⟩ rfl nofun
  | run a =>
    obtain ⟨hrun, hstep⟩ := ite_none_right_eq_some.mp hstep
    exact h.go hrun hnext hstep

end Sig

theorem SigFrame.active_eq_nil {f : SigFrame} (h : f.pointer = []) : f.active = [] := by
  rcases f with _ | _ | ⟨u, _ | _ | _⟩ | _ | _ | _ <;> first | rfl | cases h

theorem ActionAccounts.start {l : List ℕ} {serial : ℕ} (hl : l.Nodup)
    (hserial : ∀ n ∈ l, n < serial) :
    ActionAccounts (l.map .queued) l [] serial := by
  have hqueued : ∀ n, (l.map SigEvent.queued).count (.queued n) = l.count n := fun n =>
    count_map_of_injective l _ (fun _ _ heq => SigEvent.queued.inj heq) n
  have hnone : ∀ ev : SigEvent, (∀ n, ev ≠ .queued n) → (l.map SigEvent.queued).count ev = 0 := by
    intro ev hev
    refine count_eq_zero_of_not_mem fun hmem => ?_
    obtain ⟨n, -, hn⟩ := mem_map.mp hmem
    exact hev n hn.symm
  refine ⟨fun n hn => ?_, fun n => ?_, fun n => ?_, fun n => ?_⟩
  · obtain ⟨m, hm, heq⟩ := mem_map.mp hn
    cases heq
    exact hserial n hm
  · rw [hqueued]
    exact nodup_iff_count_le_one.mp hl n
  · rw [hqueued, hnone (.invoked n) fun _ => nofun, Nat.add_zero]
  · rw [hnone (.invoked n) fun _ => nofun, hnone (.released n) fun _ => nofun]
    rfl

section

variable {σ : Type*} {b₀ b : Sig σ} {tr : List SigEvent} {act : Signo → Option SigSet}

theorem DeliverStart.orderly (h : DeliverStart b) :
    b.Orderly ((b.serials b.sigpendactionq).map .queued) := by
  obtain ⟨st, hst, hpointer⟩ := h.call
  have hactive : b.active = [] := by
    rw [active, hst, flatMap_cons, append_eq_nil_iff]
    refine ⟨rfl, flatMap_eq_nil_iff.mpr fun f hf => ?_⟩
    exact SigFrame.active_eq_nil (flatMap_eq_nil_iff.mp hpointer f hf)
  refine ⟨⟨?_, ?_, ?_, ?_⟩, ?_⟩
  · rw [h.posted, hactive]
    rfl
  · rw [h.posted]
    exact h.nodup
  · rw [h.posted]
    exact h.used
  · rw [h.posted]
    exact ActionAccounts.start h.serials h.serial
  · rw [pointers, hst, flatMap_cons, hpointer]
    exact ⟨nofun, Or.inl rfl⟩

theorem Sig.Orderly.deliverLaw (h : b.Orderly tr) : DeliverLaw tr b where
  invoked n := by
    have hqueued := h.accounts.queued n
    exact ⟨by omega, h.accounts.once n⟩
  released n := by
    have hinvoked := h.accounts.invoked n
    omega
  returned hpointers := by
    have hpend : b.sigpendactionq = [] := by
      have hfollows := h.follows
      rw [hpointers] at hfollows
      exact hfollows
    have hposted : b.sigpostedq = [] := by
      rw [h.posted, reverse_eq_nil_iff]
      refine flatMap_eq_nil_iff.mpr fun f hf => SigFrame.active_eq_nil ?_
      exact flatMap_eq_nil_iff.mp hpointers f hf
    refine ⟨hpend, hposted, fun n hn => ?_⟩
    have hpos := count_pos_iff.mpr hn
    have honce := h.accounts.once n
    have hqueued := h.accounts.queued n
    have hinvoked := h.accounts.invoked n
    rw [hpend, serials, map_nil, count_nil] at hqueued
    rw [hposted, serials, map_nil, count_nil] at hinvoked
    omega

variable [DecidableEq σ]

theorem SigRun.orderly (hstart : DeliverStart b₀)
    (h : SigRun act NextNull b₀ ((b₀.serials b₀.sigpendactionq).map .queued) tr b) :
    b.Orderly tr := by
  induction h with
  | init => exact hstart.orderly
  | step op _ hstep hnext ih => exact ih.step hnext hstep

/-- **Each queued action is delivered once.** Whatever is in `sigpendactionq` when `sig_deliver` is
called, and whatever signals arrive: if no call of `sig_deliver` begins while an earlier one has
saved a pointer to an action, then no handler is called and no action released twice, and when the
first call returns, both queues are empty and all the actions have been delivered and released. -/
theorem deliverRun_law (hstart : DeliverStart b₀)
    (h : SigRun act NextNull b₀ ((b₀.serials b₀.sigpendactionq).map .queued) tr b) :
    DeliverLaw tr b :=
  (SigRun.orderly hstart h).deliverLaw

end

/-- `sig_deliver` has been called, and there are actions for `n` signals in the queue. -/
def Sig.queue (n : ℕ) : Sig Unit :=
  { Sig.init ∅ with
    sigpendactionq := List.range n
    sigq := fun q => ⟨⟨⟨q % 32, Nat.mod_lt q (by decide)⟩, q⟩, ∅, q⟩
    used := fun q => decide (q < n)
    stack := [.loop (List.range n).head?]
    sent := n
    serial := n }

theorem Sig.deliverStart_queue (n : ℕ) : DeliverStart (queue n) := by
  have hserials : (queue n).serials (queue n).sigpendactionq = range n := map_id _
  refine ⟨⟨[], rfl, rfl⟩, rfl, rfl, nodup_range, fun q hq => ?_, ?_, fun m hm => ?_⟩
  · exact decide_eq_true (mem_range.mp hq)
  · rw [hserials]
    exact nodup_range
  · rw [hserials] at hm
    exact mem_range.mp hm

instance {σ : Type*} (b : Sig σ) (op : SigOp σ) (b' : Sig σ) : Decidable (NextNull b op b') :=
  inferInstanceAs (Decidable (_ ∧ _))

instance {σ : Type*} (b : Sig σ) (op : SigOp σ) (b' : Sig σ) : Decidable (InDeliver b op b') :=
  inferInstanceAs (Decidable (_ ≠ _))

/-- Two actions are delivered. While the handler of the second one runs, its signal arrives again:
it is masked, and it is delivered when the handler has returned. -/
theorem deliverRun_law_pending :
    ∃ (tr : List SigEvent) (b : Sig Unit),
      DeliverStart (Sig.queue 2) ∧
        SigRun (fun _ => some ∅) NextNull (Sig.queue 2) [.queued 0, .queued 1] tr b ∧
        b.pointers = [] ∧ .invoked 2 ∈ tr ∧ DeliverLaw tr b := by
  have h := SigRun.replay (fun _ => some ∅) NextNull (Sig.queue 2) [.queued 0, .queued 1]
    [.run none, .run none, .run none, .run none, .find () 1, .put () 0, .run none, .run (some 5),
      .run none, .run none, .run none, .run none, .run none, .run none] (by decide +kernel)
  exact ⟨_, _, Sig.deliverStart_queue 2, h, by decide +kernel, by decide +kernel,
    deliverRun_law (Sig.deliverStart_queue 2) h⟩

/-- Two actions are queued. While the handler of the first one runs, its signal arrives again. When
the handler has returned the signal is released, and the call of `sig_deliver` that it causes
delivers and releases the second action. The first call then goes on with its saved pointer, and
calls the handler of the second action again. -/
theorem deliverRun_twice :
    ∃ (tr : List SigEvent) (b : Sig Unit),
      DeliverStart (Sig.queue 2) ∧
        SigRun (fun _ => some ∅) InDeliver (Sig.queue 2) [.queued 0, .queued 1] tr b ∧
        tr.count (.invoked 1) = 2 ∧ ¬ DeliverLaw tr b := by
  have h := SigRun.replay (fun _ => some ∅) InDeliver (Sig.queue 2) [.queued 0, .queued 1]
    [.run none,
      -- The handler of the first action runs.
      .find () 0, .put () 0, .run none,
      -- The signal is passed to `sig_received` again.
      .run (some 5), .run none, .run none, .run none, .run none, .run none, .run none, .run none,
      .run none,
      -- The second action has been released, and put into the free list before the signal's.
      .run (some 5)] (by decide +kernel)
  refine ⟨_, _, Sig.deliverStart_queue 2, h, by decide +kernel, fun hlaw => ?_⟩
  have hinvoked := hlaw.invoked 1
  exact absurd (hinvoked.1.trans hinvoked.2) (by decide +kernel)

end NuttX
