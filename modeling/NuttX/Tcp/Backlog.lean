import NuttX.Lib.Slist

/-!
# The backlog of a listener

A connection that listens can have a backlog, in which connections wait for `accept`. It is an array
of containers, which go from a list of free ones to a list of pending ones and back. The operations
make a bounded queue of it (`NuttX.BacklogFor.step`), whatever the number of its containers: if there
is room a connection is added at the end, connections are removed at the front, and a connection can
be deleted from any place.

`uip_backlogcreate` is to put all of the containers on the free list, but the pointer does not move
in its loop: the first container is added again and again. When there is one container only this is
what is meant; with two or more the free list leads from the first container to itself
(`NuttX.backlogLaw_iff`), and the second connection takes the container that the first one is in
(`NuttX.backlog_loses_connection`).
-/

namespace NuttX

open Function List Option

def einval : ℤ := 22

def enomem : ℤ := 12

/-! ### Queues (`queue.h`) -/

/-- `sq_queue_t`. -/
structure SqQueue (α : Type*) where
  head : Option α
  tail : Option α
deriving DecidableEq

section Queues

variable {α : Type*}

/-- A queue has the nodes of a list. -/
structure SqHolds (flink : α → Option α) (queue : SqQueue α) (l : List α) : Prop where
  linked : Linked flink queue.head l
  tail : queue.tail = l.getLast?

variable {flink flink' : α → Option α} {queue : SqQueue α} {l m : List α} {x y : α}

theorem SqHolds.congr (h : SqHolds flink queue l) (hflink : ∀ x ∈ l, flink' x = flink x) :
    SqHolds flink' queue l :=
  ⟨h.linked.congr hflink, h.tail⟩

theorem SqHolds.head_eq_none (h : SqHolds flink queue l) : queue.head = none ↔ l = [] := by
  cases l with
  | nil => exact iff_of_true h.linked rfl
  | cons x l =>
    rw [h.linked.1]
    simp

variable [DecidableEq α]

def sqAddfirst (node : α) (queue : SqQueue α) (flink : α → Option α) :
    SqQueue α × (α → Option α) :=
  (⟨some node, if queue.head = none then some node else queue.tail⟩, update flink node queue.head)

/-- `sq_addlast`. A queue that has a head has a tail. -/
def sqAddlast (node : α) (queue : SqQueue α) (flink : α → Option α) :
    SqQueue α × (α → Option α) :=
  let flink := update flink node none
  if queue.head = none then (⟨some node, some node⟩, flink)
  else
    (⟨queue.head, some node⟩, queue.tail.elim flink fun tail => update flink tail (some node))

/-- `sq_remfirst`: the node that is removed, if there is one. -/
def sqRemfirst (queue : SqQueue α) (flink : α → Option α) :
    Option α × SqQueue α × (α → Option α) :=
  match queue.head with
  | none => (none, queue, flink)
  | some ret =>
    (some ret, ⟨flink ret, if flink ret = none then none else queue.tail⟩, update flink ret none)

/-- `sq_remafter`: the node behind `node` is removed. -/
def sqRemafter (node : α) (queue : SqQueue α) (flink : α → Option α) :
    SqQueue α × (α → Option α) :=
  match queue.head, flink node with
  | some _, some ret =>
    if queue.tail = some ret then
      (⟨queue.head, some node⟩, update (update flink node none) ret none)
    else (queue, update (update flink node (flink ret)) ret none)
  | _, _ => (queue, flink)

theorem sqRemfirst_nil (h : SqHolds flink queue []) :
    sqRemfirst queue flink = (none, queue, flink) := by
  rw [sqRemfirst, h.head_eq_none.mpr rfl]

/-- **The first node is removed.** -/
theorem sqRemfirst_spec (h : SqHolds flink queue (x :: l)) :
    ∃ queue', sqRemfirst queue flink = (some x, queue', update flink x none) ∧
      SqHolds (update flink x none) queue' l := by
  obtain ⟨hhead, hrest⟩ := h.linked
  have hnodup := nodup_cons.mp h.linked.nodup
  refine ⟨⟨flink x, if flink x = none then none else queue.tail⟩, by rw [sqRemfirst, hhead], ?_, ?_⟩
  · refine hrest.congr fun y hy => update_of_ne ?_ _ _
    rintro rfl
    exact hnodup.1 hy
  cases l with
  | nil =>
    rw [Linked.nil_iff.mp hrest]
    rfl
  | cons y l =>
    rw [hrest.1, h.tail, getLast?_cons_cons]
    rfl

/-- **A node is added at the end.** -/
theorem sqAddlast_spec (h : SqHolds flink queue l) (hx : x ∉ l) :
    SqHolds (sqAddlast x queue flink).2 (sqAddlast x queue flink).1 (l ++ [x]) ∧
      ∀ y, y ∉ l → y ≠ x → (sqAddlast x queue flink).2 y = flink y := by
  unfold sqAddlast
  rcases eq_nil_or_concat l with rfl | ⟨l, t, rfl⟩
  · rw [if_pos (h.head_eq_none.mpr rfl)]
    exact ⟨⟨⟨rfl, update_self _ _ _⟩, rfl⟩, fun y _ hne => update_of_ne hne _ _⟩
  rw [concat_eq_append] at h hx ⊢
  rw [if_neg fun hnil => by simpa using h.head_eq_none.mp hnil]
  have htail : queue.tail = some t := by rw [h.tail, getLast?_concat]
  have hnodup := h.linked.nodup
  simp only [mem_append, mem_singleton, not_or] at hx
  rw [htail, append_assoc]
  dsimp only [elim_some]
  refine ⟨⟨h.linked.splice (fun y hy => ?_) ?_, ?_⟩, fun y hy hne => ?_⟩
  · have hyt : y ≠ t := by
      rintro rfl
      exact (nodup_append.mp hnodup).2.2 y hy y mem_cons_self rfl
    have hyx : y ≠ x := by
      rintro rfl
      exact hx.1 hy
    rw [update_of_ne hyt, update_of_ne hyx]
  · rw [update_self]
    refine ⟨rfl, ?_⟩
    rw [update_of_ne hx.2, update_self]
    rfl
  · simp
  · simp only [mem_append, mem_singleton, not_or] at hy
    rw [update_of_ne hy.2, update_of_ne hne]

/-- **The node behind another one is removed.** -/
theorem sqRemafter_spec (h : SqHolds flink queue (l ++ x :: y :: m)) :
    SqHolds (sqRemafter x queue flink).2 (sqRemafter x queue flink).1 (l ++ x :: m) ∧
      ∀ z, z ≠ x → z ≠ y → (sqRemafter x queue flink).2 z = flink z := by
  have hy : flink x = some y := h.linked.rest.1
  have hm : Linked flink (flink y) m := h.linked.rest.2
  have hnodup := h.linked.nodup
  simp only [nodup_append, nodup_cons, mem_cons, not_or] at hnodup
  obtain ⟨-, ⟨⟨hxy, hxm⟩, hym, -⟩, hl⟩ := hnodup
  have hlx : ∀ z ∈ l, z ≠ x := fun z hz => hl z hz x (.inl rfl)
  have hly : ∀ z ∈ l, z ≠ y := fun z hz => hl z hz y (.inr (.inl rfl))
  obtain ⟨head, hhead⟩ : ∃ head, queue.head = some head := by
    rw [← ne_none_iff_exists', ne_eq, h.head_eq_none]
    simp
  have heq : sqRemafter x queue flink =
      (⟨queue.head, (l ++ x :: m).getLast?⟩, update (update flink x (flink y)) y none) := by
    unfold sqRemafter
    rw [hhead, hy]
    dsimp only
    cases m with
    | nil => rw [if_pos (by simp [h.tail]), Linked.nil_iff.mp hm, getLast?_concat]
    | cons z m =>
      have hlast : queue.tail = (z :: m).getLast? := by
        rw [h.tail, getLast?_append_cons, getLast?_cons_cons, getLast?_cons_cons]
      rw [if_neg fun htail => hym (mem_of_getLast? (hlast ▸ htail)), getLast?_append_cons,
        getLast?_cons_cons, ← hlast, ← hhead]
  rw [heq]
  dsimp only
  refine ⟨⟨h.linked.splice (fun z hz => ?_) ?_, rfl⟩, fun z hzx hzy => ?_⟩
  · rw [update_of_ne (hly z hz), update_of_ne (hlx z hz)]
  · rw [update_of_ne hxy, update_self]
    refine hm.congr fun w hw => ?_
    rw [update_of_ne (ne_of_mem_of_not_mem hw hym), update_of_ne (ne_of_mem_of_not_mem hw hxm)]
  · rw [update_of_ne hzy, update_of_ne hzx]

end Queues

/-! ### The backlog (`uip_tcpbacklog.c`) -/

/-- `struct uip_backlog_s`, with the array of containers that is allocated with it. -/
structure Backlog where
  nblg : ℕ
  flink : ℕ → Option ℕ
  conn : ℕ → Option ℕ
  free : SqQueue ℕ
  pending : SqQueue ℕ

/-- The loop of `uip_backlogcreate`: `blc` is the first container in every round. -/
def addContainers : ℕ → Backlog → Backlog
  | 0, bls => bls
  | i + 1, bls =>
    let (free, flink) := sqAddfirst 0 bls.free bls.flink
    addContainers i { bls with free := free, flink := flink }

/-- `uip_backlogcreate`: what becomes `conn->backlog`, if there is memory. -/
def uipBacklogcreate (nblg : ℕ) : Option Backlog :=
  if 0 < nblg then
    some (addContainers nblg ⟨nblg, fun _ => none, fun _ => none, ⟨none, none⟩, ⟨none, none⟩⟩)
  else none

def uipBacklogadd (backlog : Option Backlog) (blconn : Option ℕ) : Option Backlog × ℤ :=
  match backlog, blconn with
  | some bls, some blconn =>
    match sqRemfirst bls.free bls.flink with
    | (none, _, _) => (some bls, -enomem)
    | (some blc, free, flink) =>
      let conn := update bls.conn blc (some blconn)
      let (pending, flink) := sqAddlast blc bls.pending flink
      (some { bls with flink := flink, conn := conn, free := free, pending := pending }, 0)
  | _, _ => (backlog, -einval)

/-- A container is emptied and put at the end of the free list. -/
def releaseContainer (bls : Backlog) (blc : ℕ) : Backlog :=
  let (free, flink) := sqAddlast blc bls.free bls.flink
  { bls with flink := flink, conn := update bls.conn blc none, free := free }

def uipBacklogremove (backlog : Option Backlog) : Option Backlog × Option ℕ :=
  match backlog with
  | none => (none, none)
  | some bls =>
    match sqRemfirst bls.pending bls.flink with
    | (none, _, _) => (some bls, none)
    | (some blc, pending, flink) =>
      (some (releaseContainer { bls with flink := flink, pending := pending } blc), bls.conn blc)

/-- The loop of `uip_backlogdelete`: the container of a connection and the one before it, if there is
one. After more rounds than there are containers the loop goes round for ever (`none`). -/
def findContainer (bls : Backlog) (blconn : Option ℕ) :
    ℕ → Option ℕ → Option ℕ → Option (Option (ℕ × Option ℕ))
  | _, none, _ => some none
  | 0, some _, _ => none
  | rounds + 1, some blc, prev =>
    if bls.conn blc = blconn then some (some (blc, prev))
    else findContainer bls blconn rounds (bls.flink blc) (some blc)

def uipBacklogdelete (backlog : Option Backlog) (blconn : Option ℕ) :
    Option (Option Backlog × ℤ) :=
  match backlog with
  | none => some (none, 0)
  | some bls => do
    match ← findContainer bls blconn bls.nblg bls.pending.head none with
    | none => return (some bls, -einval)
    | some (blc, prev) =>
      let (pending, flink) :=
        match prev with
        | some prev => sqRemafter prev bls.pending bls.flink
        | none => (sqRemfirst bls.pending bls.flink).2
      return (some (releaseContainer { bls with flink := flink, pending := pending } blc), 0)

/-! ### What the backlog is for -/

/-- The calls on a backlog. -/
inductive BacklogOp where
  | add (blconn : ℕ)
  | remove
  | delete (blconn : ℕ)
deriving DecidableEq

/-- What a call returns. -/
inductive BacklogRet where
  | code (ret : ℤ)
  | conn (blconn : Option ℕ)
deriving DecidableEq

/-- A call on a backlog. -/
def backlogOp (backlog : Option Backlog) : BacklogOp → Option (Option Backlog × BacklogRet)
  | .add blconn =>
    let (backlog, ret) := uipBacklogadd backlog (some blconn)
    some (backlog, .code ret)
  | .remove =>
    let (backlog, blconn) := uipBacklogremove backlog
    some (backlog, .conn blconn)
  | .delete blconn =>
    (uipBacklogdelete backlog (some blconn)).map fun (backlog, ret) => (backlog, .code ret)

/-- A sequence of calls. -/
def backlogRun : Option Backlog → List BacklogOp → Option (Option Backlog × List BacklogRet)
  | backlog, [] => some (backlog, [])
  | backlog, op :: ops => do
    let (backlog, ret) ← backlogOp backlog op
    let (backlog, rets) ← backlogRun backlog ops
    return (backlog, ret :: rets)

/-- A queue of connections with room for `n` of them. -/
def fifoOp (n : ℕ) (queue : List ℕ) : BacklogOp → List ℕ × BacklogRet
  | .add blconn =>
    if queue.length < n then (queue ++ [blconn], .code 0) else (queue, .code (-enomem))
  | .remove => (queue.tail, .conn queue.head?)
  | .delete blconn =>
    if blconn ∈ queue then (queue.erase blconn, .code 0) else (queue, .code (-einval))

/-- A sequence of operations on a queue. -/
def fifoRun (n : ℕ) : List ℕ → List BacklogOp → List ℕ × List BacklogRet
  | queue, [] => (queue, [])
  | queue, op :: ops =>
    let (queue, ret) := fifoOp n queue op
    let (queue, rets) := fifoRun n queue ops
    (queue, ret :: rets)

/-- The number of times that a connection has been added. -/
def addedCount (blconn : ℕ) (ops : List BacklogOp) (rets : List BacklogRet) : ℕ :=
  (ops.zip rets).count (.add blconn, .code 0)

/-- The number of times that a connection has been returned or deleted. -/
def leftCount (blconn : ℕ) (ops : List BacklogOp) (rets : List BacklogRet) : ℕ :=
  (ops.zip rets).count (.remove, .conn (some blconn)) +
    (ops.zip rets).count (.delete blconn, .code 0)

/-- **The containers of a backlog**: they are on two lists that have nothing in common, and the
pending ones have the connections of a queue. -/
def BacklogFor (n : ℕ) (bls : Backlog) (queue : List ℕ) : Prop :=
  ∃ pending free, SqHolds bls.flink bls.pending pending ∧ SqHolds bls.flink bls.free free ∧
    pending.Disjoint free ∧ pending.length + free.length = n ∧
    pending.map bls.conn = queue.map some

/-- **The backlog is a bounded queue**, in a sequence of calls from its creation on: the calls return,
they return what those of a queue return, the containers are on the two lists, and each connection
that has been added is pending, or has been returned or deleted once. -/
def BacklogLaw (nblg : ℕ) (ops : List BacklogOp) : Prop :=
  ∃ bls, backlogRun (uipBacklogcreate nblg) ops = some (some bls, (fifoRun nblg [] ops).2) ∧
    BacklogFor nblg bls (fifoRun nblg [] ops).1 ∧
    ∀ blconn, addedCount blconn ops (fifoRun nblg [] ops).2 =
      leftCount blconn ops (fifoRun nblg [] ops).2 + (fifoRun nblg [] ops).1.count blconn

/-! ### The operations -/

variable {n rounds : ℕ} {bls : Backlog} {queue : List ℕ}

/-- A container that is on no list is put on the free list. -/
theorem backlogFor_releaseContainer {pending free : List ℕ} {blc : ℕ}
    (hpending : SqHolds bls.flink bls.pending pending) (hfree : SqHolds bls.flink bls.free free)
    (hdisj : pending.Disjoint free) (hlen : pending.length + free.length + 1 = n)
    (hconn : pending.map bls.conn = queue.map some) (hblc : blc ∉ pending) (hblc' : blc ∉ free) :
    BacklogFor n (releaseContainer bls blc) queue := by
  obtain ⟨hadd, hother⟩ := sqAddlast_spec hfree hblc'
  refine ⟨pending, free ++ [blc], ?_, hadd, ?_, ?_, ?_⟩
  · refine hpending.congr fun x hx => hother x (fun hx' => hdisj hx hx') ?_
    rintro rfl
    exact hblc hx
  · intro x hx hx'
    rcases mem_append.mp hx' with hx' | hx'
    · exact hdisj hx hx'
    · rw [mem_singleton.mp hx'] at hx
      exact hblc hx
  · rw [length_append, length_singleton]
    omega
  · rw [← hconn]
    refine map_congr_left fun x hx => update_of_ne ?_ _ _
    rintro rfl
    exact hblc hx

/-- **A connection is added** if a container is free. -/
theorem BacklogFor.add (h : BacklogFor n bls queue) (blconn : ℕ) :
    ∃ bls', backlogOp (some bls) (.add blconn)
        = some (some bls', (fifoOp n queue (.add blconn)).2) ∧ bls'.nblg = bls.nblg ∧
      BacklogFor n bls' (fifoOp n queue (.add blconn)).1 := by
  obtain ⟨pending, free, hpending, hfree, hdisj, hlen, hconn⟩ := h
  have hqueue : queue.length = pending.length := by
    simpa using (congrArg length hconn).symm
  simp only [backlogOp, uipBacklogadd, fifoOp]
  cases free with
  | nil =>
    rw [if_neg (by simp at hlen; omega), sqRemfirst_nil hfree]
    exact ⟨bls, rfl, rfl, pending, [], hpending, hfree, hdisj, hlen, hconn⟩
  | cons x free =>
    obtain ⟨free', hrem, hfree'⟩ := sqRemfirst_spec hfree
    have hnodup := nodup_cons.mp hfree.linked.nodup
    have hx : x ∉ pending := fun hx => hdisj hx mem_cons_self
    have hpending' : SqHolds (update bls.flink x none) bls.pending pending :=
      hpending.congr fun y hy => update_of_ne (ne_of_mem_of_not_mem hy hx) _ _
    obtain ⟨hadd, hother⟩ := sqAddlast_spec hpending' hx
    rw [length_cons] at hlen
    rw [if_pos (by omega), hrem]
    refine ⟨_, rfl, rfl, pending ++ [x], free, hadd, ?_, ?_, ?_, ?_⟩
    · refine hfree'.congr fun y hy => hother y (fun hy' => ?_) (ne_of_mem_of_not_mem hy hnodup.1)
      exact hdisj hy' (mem_cons_of_mem x hy)
    · intro y hy hy'
      rcases mem_append.mp hy with hy | hy
      · exact hdisj hy (mem_cons_of_mem x hy')
      · rw [mem_singleton.mp hy] at hy'
        exact hnodup.1 hy'
    · rw [length_append, length_singleton]
      omega
    · rw [map_append, map_append, ← hconn]
      congr 1
      · exact map_congr_left fun y hy =>
          update_of_ne (ne_of_mem_of_not_mem hy hx) _ _
      · simp

/-- **The connection at the front is removed.** -/
theorem BacklogFor.remove (h : BacklogFor n bls queue) :
    ∃ bls', backlogOp (some bls) .remove = some (some bls', (fifoOp n queue .remove).2) ∧
      bls'.nblg = bls.nblg ∧ BacklogFor n bls' (fifoOp n queue .remove).1 := by
  obtain ⟨pending, free, hpending, hfree, hdisj, hlen, hconn⟩ := h
  simp only [backlogOp, uipBacklogremove, fifoOp]
  cases pending with
  | nil =>
    have hnil : queue = [] := map_eq_nil_iff.mp hconn.symm
    subst hnil
    rw [sqRemfirst_nil hpending]
    exact ⟨bls, rfl, rfl, [], free, hpending, hfree, hdisj, hlen, rfl⟩
  | cons x pending =>
    obtain ⟨blconn, queue', rfl, hx, hconn'⟩ := map_eq_cons_iff.mp hconn.symm
    obtain ⟨pending', hrem, hpending'⟩ := sqRemfirst_spec hpending
    have hnodup := nodup_cons.mp hpending.linked.nodup
    have hfree' : x ∉ free := fun hx => hdisj mem_cons_self hx
    rw [hrem, head?_cons, hx]
    refine ⟨_, rfl, rfl, backlogFor_releaseContainer hpending' ?_ ?_ ?_ hconn'.symm hnodup.1 hfree'⟩
    · exact hfree.congr fun y hy => update_of_ne (ne_of_mem_of_not_mem hy hfree') _ _
    · exact fun y hy hy' => hdisj (mem_cons_of_mem x hy) hy'
    · rw [length_cons] at hlen
      omega

theorem findContainer_none {blconn p : Option ℕ} {l : List ℕ} (hl : Linked bls.flink p l)
    (hne : ∀ x ∈ l, bls.conn x ≠ blconn) (hrounds : l.length ≤ rounds) (prev : Option ℕ) :
    findContainer bls blconn rounds p prev = some none := by
  induction l generalizing p prev rounds with
  | nil =>
    rw [Linked.nil_iff.mp hl]
    cases rounds <;> rfl
  | cons x l ih =>
    obtain ⟨rfl, hl⟩ := hl
    obtain ⟨rounds, rfl⟩ := Nat.exists_eq_add_of_lt hrounds
    rw [findContainer, if_neg (hne x mem_cons_self)]
    exact ih hl (fun y hy => hne y (mem_cons_of_mem x hy)) (Nat.le_of_succ_le_succ hrounds) _

theorem findContainer_some {blconn p : Option ℕ} {l m : List ℕ} {x : ℕ}
    (hl : Linked bls.flink p (l ++ x :: m)) (hne : ∀ y ∈ l, bls.conn y ≠ blconn)
    (hx : bls.conn x = blconn) (hrounds : l.length < rounds) (prev : Option ℕ) :
    findContainer bls blconn rounds p prev = some (some (x, l.getLast?.or prev)) := by
  induction l generalizing p prev rounds with
  | nil =>
    obtain ⟨rfl, -⟩ := hl
    obtain ⟨rounds, rfl⟩ : ∃ r, rounds = r + 1 := ⟨rounds - 1, by simp at hrounds; omega⟩
    rw [findContainer, if_pos hx]
    rfl
  | cons y l ih =>
    obtain ⟨rfl, hl⟩ := hl
    obtain ⟨rounds, rfl⟩ : ∃ r, rounds = r + 1 := ⟨rounds - 1, by omega⟩
    rw [findContainer, if_neg (hne y mem_cons_self),
      ih hl (fun z hz => hne z (mem_cons_of_mem y hz)) (Nat.lt_of_succ_lt_succ hrounds)]
    cases l with
    | nil | cons z l => rfl

theorem conn_ne {blconn : ℕ} {l : List ℕ} (hconn : l.map bls.conn = queue.map some)
    (hnot : blconn ∉ queue) : ∀ y ∈ l, bls.conn y ≠ some blconn := by
  intro y hy heq
  have hin : some blconn ∈ queue.map some := hconn ▸ mem_map.mpr ⟨y, hy, heq⟩
  obtain ⟨c, hc, hceq⟩ := mem_map.mp hin
  exact hnot (some.inj hceq ▸ hc)

section

variable (h : BacklogFor n bls queue) (hn : bls.nblg = n)

include h hn

/-- **The first container that has a connection is taken from the pending list.** -/
theorem BacklogFor.delete (blconn : ℕ) :
    ∃ bls', backlogOp (some bls) (.delete blconn)
        = some (some bls', (fifoOp n queue (.delete blconn)).2) ∧ bls'.nblg = bls.nblg ∧
      BacklogFor n bls' (fifoOp n queue (.delete blconn)).1 := by
  obtain ⟨pending, free, hpending, hfree, hdisj, hlen, hconn⟩ := h
  simp only [backlogOp, uipBacklogdelete, fifoOp]
  by_cases hmem : blconn ∈ queue
  · obtain ⟨queue1, queue2, hnot, rfl, herase⟩ := exists_erase_eq hmem
    rw [if_pos hmem, herase]
    -- the containers before the one of the connection, and those behind it
    rw [map_append, map_cons, map_eq_append_iff] at hconn
    obtain ⟨l, rest, rfl, hl, hrest⟩ := hconn
    obtain ⟨x, m, rfl, hx, hm⟩ := map_eq_cons_iff.mp hrest
    have hnodup := nodup_middle.mp hpending.linked.nodup
    obtain ⟨hxnot, -⟩ := nodup_cons.mp hnodup
    have hxfree : x ∉ free := fun hx' => hdisj (by simp) hx'
    have hshort : l.length < bls.nblg := by
      simp at hlen
      omega
    have hfind := findContainer_some hpending.linked (conn_ne hl hnot) hx hshort none
    have hdisj' : (l ++ m).Disjoint free := by
      intro y hy hy'
      refine hdisj ?_ hy'
      rcases mem_append.mp hy with hy | hy <;> simp [hy]
    have hlen' : (l ++ m).length + free.length + 1 = n := by
      simp only [length_append, length_cons] at hlen ⊢
      omega
    have hconn' : (l ++ m).map bls.conn = (queue1 ++ queue2).map some := by
      rw [map_append, map_append, hl, hm]
    rw [hfind]
    rcases eq_nil_or_concat l with rfl | ⟨l, t, rfl⟩
    · obtain ⟨pending', hrem, hpending'⟩ := sqRemfirst_spec hpending
      simp only [nil_append, getLast?_nil, bind_eq_bind, bind_some, hrem] at *
      refine ⟨_, rfl, rfl, backlogFor_releaseContainer hpending' ?_ hdisj' hlen' hconn' hxnot
        hxfree⟩
      exact hfree.congr fun y hy => update_of_ne (ne_of_mem_of_not_mem hy hxfree) _ _
    · rw [concat_eq_append] at *
      rw [append_assoc] at hpending
      obtain ⟨hrem, hother⟩ := sqRemafter_spec hpending
      rw [getLast?_concat]
      refine ⟨_, rfl, rfl, backlogFor_releaseContainer (by rw [append_assoc]; exact hrem) ?_
        hdisj' hlen' hconn' hxnot hxfree⟩
      refine hfree.congr fun y hy => hother y ?_ (ne_of_mem_of_not_mem hy hxfree)
      rintro rfl
      exact hdisj' (by simp) hy
  · rw [if_neg hmem]
    have hshort : pending.length ≤ bls.nblg := by omega
    rw [findContainer_none hpending.linked (conn_ne hconn hmem) hshort none]
    exact ⟨bls, rfl, rfl, pending, free, hpending, hfree, hdisj, hlen, hconn⟩

/-- **A call on a backlog is a call on the queue.** -/
theorem BacklogFor.step (op : BacklogOp) :
    ∃ bls', backlogOp (some bls) op = some (some bls', (fifoOp n queue op).2) ∧
      bls'.nblg = n ∧ BacklogFor n bls' (fifoOp n queue op).1 := by
  subst hn
  cases op with
  | add blconn => exact h.add blconn
  | remove => exact h.remove
  | delete blconn => exact h.delete rfl blconn

/-- **A sequence of calls on a backlog** is one on the queue. -/
theorem BacklogFor.run (ops : List BacklogOp) :
    ∃ bls', backlogRun (some bls) ops = some (some bls', (fifoRun n queue ops).2) ∧
      BacklogFor n bls' (fifoRun n queue ops).1 := by
  induction ops generalizing bls queue with
  | nil => exact ⟨bls, rfl, h⟩
  | cons op ops ih =>
    obtain ⟨bls1, hop, hn1, h1⟩ := h.step hn op
    obtain ⟨bls2, hops, h2⟩ := ih h1 hn1
    refine ⟨bls2, ?_, h2⟩
    rw [backlogRun, hop]
    simp only [bind_eq_bind, bind_some, hops]
    rfl

end

theorem count_fifoOp (n blconn : ℕ) (queue : List ℕ) (op : BacklogOp) :
    (if (op, (fifoOp n queue op).2) = (.add blconn, .code 0) then 1 else 0) + queue.count blconn =
      (if (op, (fifoOp n queue op).2) = (.remove, .conn (some blconn)) then 1 else 0) +
        (if (op, (fifoOp n queue op).2) = (.delete blconn, .code 0) then 1 else 0) +
        (fifoOp n queue op).1.count blconn := by
  cases op with
  | add c =>
    by_cases hroom : queue.length < n
    · simp only [fifoOp, if_pos hroom, count_append, count_singleton, beq_iff_eq]
      by_cases hc : c = blconn <;> simp [hc, Nat.add_comm]
    · simp [fifoOp, hroom, enomem]
  | remove =>
    cases queue with
    | nil => simp [fifoOp]
    | cons c queue => simp [fifoOp, count_cons, Nat.add_comm]
  | delete c =>
    by_cases hmem : c ∈ queue
    · have hpos := count_pos_iff.mpr hmem
      simp only [fifoOp, if_pos hmem, count_erase, beq_iff_eq]
      by_cases hc : c = blconn
      · subst hc
        simp
        omega
      · simp [hc]
    · simp [fifoOp, hmem, einval]

theorem count_fifoRun (n blconn : ℕ) (queue : List ℕ) (ops : List BacklogOp) :
    addedCount blconn ops (fifoRun n queue ops).2 + queue.count blconn =
      leftCount blconn ops (fifoRun n queue ops).2 + (fifoRun n queue ops).1.count blconn := by
  induction ops generalizing queue with
  | nil => simp [addedCount, leftCount, fifoRun]
  | cons op ops ih =>
    have hrest := ih (fifoOp n queue op).1
    have hop := count_fifoOp n blconn queue op
    unfold addedCount leftCount at *
    simp only [fifoRun, zip_cons_cons, count_cons, beq_iff_eq]
    omega

/-! ### The containers after the creation -/

theorem addContainers_head (i : ℕ) (bls : Backlog) (h : bls.free.head = some 0) :
    (addContainers i bls).free.head = some 0 := by
  induction i generalizing bls with
  | zero => exact h
  | succ i ih => exact ih _ rfl

/-- **From the second round on the first container leads to itself.** -/
theorem addContainers_flink (i : ℕ) (bls : Backlog) (h : bls.free.head = some 0) :
    (addContainers (i + 1) bls).flink 0 = some 0 := by
  induction i generalizing bls with
  | zero => exact (update_self 0 bls.free.head bls.flink).trans h
  | succ i ih => exact ih _ rfl

/-- **The backlog is a bounded queue for every sequence of calls if and only if it has room for one
connection.** -/
theorem backlogLaw_iff {nblg : ℕ} (hpos : 1 ≤ nblg) :
    (∀ ops, BacklogLaw nblg ops) ↔ nblg = 1 := by
  constructor
  · intro hlaw
    by_contra hne
    obtain ⟨i, rfl⟩ : ∃ i, nblg = i + 2 := ⟨nblg - 2, by omega⟩
    obtain ⟨bls, hrun, ⟨pending, free, -, hfree, -⟩, -⟩ := hlaw []
    obtain rfl : _ = bls := Option.some.inj (Prod.mk.inj (Option.some.inj hrun)).1
    have hlinked := hfree.linked
    rw [addContainers, addContainers_head _ _ rfl] at hlinked
    exact Linked.not_of_self (addContainers_flink i _ rfl) hlinked
  · rintro rfl ops
    have hcreate : uipBacklogcreate 1 = some ⟨1, update (fun _ => none) 0 none,
        fun _ => none, ⟨some 0, some 0⟩, ⟨none, none⟩⟩ := rfl
    have hfor : BacklogFor 1 ⟨1, update (fun _ => none) 0 none, fun _ => none,
        ⟨some 0, some 0⟩, ⟨none, none⟩⟩ [] :=
      ⟨[], [0], ⟨rfl, rfl⟩, ⟨⟨rfl, rfl⟩, rfl⟩, by simp, rfl, rfl⟩
    obtain ⟨bls, hrun, hbls⟩ := hfor.run rfl ops
    refine ⟨bls, by rw [hcreate, hrun], hbls, fun blconn => ?_⟩
    exact count_fifoRun 1 blconn [] ops

theorem backlogLaw_iff_one : BacklogLaw 1 [.add 1, .remove] :=
  (backlogLaw_iff (Nat.le_refl 1)).mpr rfl _

/-- **The second connection takes the container of the first one**: the first one is lost. -/
theorem backlog_loses_connection : ¬BacklogLaw 2 [.add 1, .add 2, .remove] := by
  rintro ⟨bls, hrun, -⟩
  have hrets := congrArg (Option.map Prod.snd) hrun
  have hlost : (backlogRun (uipBacklogcreate 2) [.add 1, .add 2, .remove]).map Prod.snd
      = some [.code 0, .code 0, .conn (some 2)] := by
    decide
  have hqueue : (fifoRun 2 [] [.add 1, .add 2, .remove]).2
      = [.code 0, .code 0, .conn (some 1)] := by
    decide
  rw [hlost, hqueue, Option.map_some] at hrets
  exact absurd hrets (by simp)

end NuttX
