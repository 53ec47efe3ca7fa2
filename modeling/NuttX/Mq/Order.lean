import NuttX.Lib.PrioList

/-!
# The order of messages

`mq_dosend` fills a container with a message and inserts it into the list of the queue, behind the
messages of its own priority and of higher ones. `mq_waitreceive` takes the first container from the
list, and `mq_doreceive` copies what is in it to the caller. `NuttX.MqQueue` is a queue with the
calls that are between these two, and `NuttX.MqAct` are the sections in which the queue is used, in
any order. Every call of `mq_dosend` is given a number, which goes with its message.

`NuttX.mqActs_law`: the list is ordered by priority and, among messages of one priority, by age;
every message is in the list, or in a call, or has been received once, and what has been received is
what has been sent.
-/

namespace NuttX

open List

/-- `struct mqmsg`. -/
structure MqContainer where
  priority : UInt8
  msglen : ℕ
  mail : ℕ → UInt8

/-- What `mq_dosend` is called with: `msglen` bytes at `msg`, and a priority. -/
structure MqSent where
  msg : ℕ → UInt8
  msglen : ℕ
  prio : ℤ

/-- What `mq_doreceive` returns: the length, the buffer and the priority. -/
structure MqReceived where
  rcvmsglen : ℕ
  ubuffer : ℕ → UInt8
  prio : ℤ

def memcpy (dest src : ℕ → UInt8) (n : ℕ) : ℕ → UInt8 := fun i => if i < n then src i else dest i

/-- The container `mqmsg` is filled. The type of `msglen` depends on `MQ_MAX_BYTES`. -/
def MqSent.fill (maxBytes : ℕ) (r : MqSent) (mqmsg : MqContainer) : MqContainer where
  priority := UInt8.ofInt r.prio
  msglen := r.msglen % if maxBytes < 256 then 0x100 else 0x10000
  mail := memcpy mqmsg.mail r.msg r.msglen

def mqDoreceiveInto (mqmsg : MqContainer) (ubuffer : ℕ → UInt8) : MqReceived where
  rcvmsglen := mqmsg.msglen
  ubuffer := memcpy ubuffer mqmsg.mail mqmsg.msglen
  prio := mqmsg.priority.toNat

/-- A queue: what has been sent, the containers in `msglist`, those that calls have taken from it,
and what has been received. The containers are marked with the number of their message. -/
structure MqQueue where
  sent : List MqSent
  msglist : List (ℕ × MqContainer)
  calls : List (ℕ × MqContainer)
  received : List (ℕ × MqReceived)

/-- The sections of the calls. -/
inductive MqAct
  | dosend (mqmsg : MqContainer) (r : MqSent)
  | waitreceive
  | doreceive (call : ℕ) (ubuffer : ℕ → UInt8)

namespace MqQueue

def priority (m : ℕ × MqContainer) : ℕ := m.2.priority.toNat

/-- The search and the insertion of `mq_dosend`. -/
def insertMsg (q : MqQueue) (prio : ℤ) (m : ℕ × MqContainer) : List (ℕ × MqContainer) :=
  Prio.ahead priority prio.toNat q.msglist ++ m :: Prio.behind priority prio.toNat q.msglist

/-- The code of a section. -/
def act (maxBytes : ℕ) (q : MqQueue) : MqAct → Option MqQueue
  | .dosend mqmsg r => some { q with
      sent := q.sent ++ [r]
      msglist := q.insertMsg r.prio (q.sent.length, r.fill maxBytes mqmsg) }
  | .waitreceive =>
    match q.msglist with
    | [] => none
    | rcvmsg :: rest => some { q with msglist := rest, calls := rcvmsg :: q.calls }
  | .doreceive call ubuffer => do
    let m ← q.calls[call]?
    some { q with
      calls := q.calls.eraseIdx call
      received := (m.1, mqDoreceiveInto m.2 ubuffer) :: q.received }

end MqQueue

/-- The arguments that `mq_verifysend` lets through. -/
def MqAct.Verified (maxmsgsize : UInt8) : MqAct → Prop
  | .dosend _ r => 0 ≤ r.prio ∧ r.prio ≤ 255 ∧ r.msglen ≤ maxmsgsize.toNat
  | _ => True

/-- Sections of calls, one after the other, from an empty queue. -/
inductive MqActs (maxBytes : ℕ) (maxmsgsize : UInt8) : MqQueue → Prop
  | opened : MqActs maxBytes maxmsgsize ⟨[], [], [], []⟩
  | act {q q' : MqQueue} (a : MqAct) : MqActs maxBytes maxmsgsize q → a.Verified maxmsgsize →
      q.act maxBytes a = some q' → MqActs maxBytes maxmsgsize q'

namespace MqQueue

/-- The first message is to be received before the second. -/
def Before (a b : ℕ × MqContainer) : Prop :=
  priority b < priority a ∨ priority b = priority a ∧ a.1 < b.1

/-- The numbers of the messages in the list, in calls, and received. -/
def numbers (q : MqQueue) : List ℕ :=
  q.msglist.map Prod.fst ++ (q.calls.map Prod.fst ++ q.received.map Prod.fst)

/-- What has been received is what has been sent. -/
def Exact (q : MqQueue) (m : ℕ × MqReceived) : Prop :=
  ∃ r, q.sent[m.1]? = some r ∧ m.2.rcvmsglen = r.msglen ∧
    (∀ i < r.msglen, m.2.ubuffer i = r.msg i) ∧ m.2.prio = r.prio

/-- **The law of a message queue.** -/
structure Law (maxBytes : ℕ) (q : MqQueue) : Prop where
  order : q.msglist.Pairwise Before
  once : q.numbers.Perm (List.range q.sent.length)
  exact : ∀ m ∈ q.received, q.Exact m
  next : ∀ q', q.act maxBytes .waitreceive = some q' →
    ∃ m, q'.calls = m :: q.calls ∧ q.msglist = m :: q'.msglist ∧ ∀ b ∈ q'.msglist, Before m b

/-- The container holds the message with its number. -/
def Holds (q : MqQueue) (m : ℕ × MqContainer) : Prop :=
  ∃ r, q.sent[m.1]? = some r ∧ (m.2.priority.toNat : ℤ) = r.prio ∧ m.2.msglen = r.msglen ∧
    ∀ i < r.msglen, m.2.mail i = r.msg i

structure Inv (q : MqQueue) : Prop where
  order : q.msglist.Pairwise Before
  once : q.numbers.Perm (List.range q.sent.length)
  exact : ∀ m ∈ q.received, q.Exact m
  holds : ∀ m ∈ q.msglist ++ q.calls, q.Holds m

variable {maxBytes : ℕ} {maxmsgsize : UInt8} {q q' : MqQueue} {m : ℕ × MqContainer} {r : MqSent}
  {mqmsg : MqContainer}

theorem getElem?_sent {l : List MqSent} {i : ℕ} (h : l[i]? = some r) (x : MqSent) :
    (l ++ [x])[i]? = some r := by
  rw [List.getElem?_append_left (List.getElem?_eq_some_iff.mp h).1]
  exact h

theorem holds_fill (maxBytes : ℕ) (q : MqQueue) (h : (MqAct.dosend mqmsg r).Verified maxmsgsize) :
    (UInt8.ofInt r.prio).toNat = r.prio.toNat ∧
      Holds { q with sent := q.sent ++ [r] } (q.sent.length, r.fill maxBytes mqmsg) := by
  obtain ⟨h0, h1, hlen⟩ := h
  have hmax := maxmsgsize.toNat_lt
  have hprio : (UInt8.ofInt r.prio).toNat = r.prio.toNat := by
    obtain ⟨n, hn⟩ := Int.eq_ofNat_of_zero_le h0
    rw [hn, UInt8.ofInt]
    simp
    omega
  refine ⟨hprio, r, getElem?_concat_length, ?_, ?_, fun i hi => if_pos hi⟩
  · rw [MqSent.fill, hprio]
    omega
  · rw [MqSent.fill]
    simp only
    split <;> omega

theorem Inv.dosend (h : Inv q) (hv : (MqAct.dosend mqmsg r).Verified maxmsgsize) :
    Inv { q with
      sent := q.sent ++ [r]
      msglist := q.insertMsg r.prio (q.sent.length, r.fill maxBytes mqmsg) } := by
  obtain ⟨hprio, hnew⟩ := holds_fill maxBytes q hv
  have hins : q.insertMsg r.prio (q.sent.length, r.fill maxBytes mqmsg) =
      Prio.insert priority (q.sent.length, r.fill maxBytes mqmsg) q.msglist := by
    rw [insertMsg, ← hprio]
    rfl
  have hdesc : Prio.Desc priority q.msglist := h.order.imp fun hab => by
    rcases hab with hlt | heq
    · exact hlt.le
    · exact heq.1.le
  rw [hins]
  constructor
  · refine hdesc.pairwise_insert h.order (fun b hb hle => ?_) fun b _ hlt => .inl hlt
    have hmem : b.1 ∈ range q.sent.length :=
      h.once.mem_iff.mp (mem_append_left _ (mem_map_of_mem hb))
    rcases hle.lt_or_eq with hlt | heq
    · exact .inl hlt
    · exact .inr ⟨heq, mem_range.mp hmem⟩
  · rw [length_append, length_singleton, range_succ]
    refine (((Prio.insert_perm.map Prod.fst).append_right _).trans ?_).trans
      (perm_append_singleton _ _).symm
    exact h.once.cons _
  · intro m hm
    obtain ⟨r', hr', hrest⟩ := h.exact m hm
    exact ⟨r', getElem?_sent hr' r, hrest⟩
  · intro m hm
    rcases mem_append.mp hm with hm | hm
    · rcases Prio.mem_insert.mp hm with rfl | hm
      · exact hnew
      · obtain ⟨r', hr', hrest⟩ := h.holds m (mem_append_left _ hm)
        exact ⟨r', getElem?_sent hr' r, hrest⟩
    · obtain ⟨r', hr', hrest⟩ := h.holds m (mem_append_right _ hm)
      exact ⟨r', getElem?_sent hr' r, hrest⟩

/-- The calls of `mq_doreceive` take what the containers hold. -/
theorem Inv.doreceive (h : Inv q) {call : ℕ} (hcall : q.calls[call]? = some m)
    (ubuffer : ℕ → UInt8) :
    Inv { q with
      calls := q.calls.eraseIdx call
      received := (m.1, mqDoreceiveInto m.2 ubuffer) :: q.received } := by
  obtain ⟨hlt, rfl⟩ := List.getElem?_eq_some_iff.mp hcall
  have hperm := List.getElem_cons_eraseIdx_perm hlt
  refine ⟨h.order, ?_, ?_, fun x hx => h.holds x ?_⟩
  · refine .trans (.append_left _ ?_) h.once
    exact List.perm_middle.trans ((hperm.map Prod.fst).append_right _)
  · intro x hx
    rcases List.mem_cons.mp hx with rfl | hx
    · obtain ⟨r, hr, hprio, hlen, hmail⟩ :=
        h.holds _ (List.mem_append_right _ (List.getElem_mem hlt))
      refine ⟨r, hr, hlen, fun i hi => ?_, hprio⟩
      exact (if_pos (hlen ▸ hi)).trans (hmail i hi)
    · exact h.exact x hx
  · rcases List.mem_append.mp hx with hx | hx
    · exact List.mem_append_left _ hx
    · exact List.mem_append_right _ (List.mem_of_mem_eraseIdx hx)

theorem Inv.act (h : Inv q) {a : MqAct} (hv : a.Verified maxmsgsize)
    (hact : q.act maxBytes a = some q') : Inv q' := by
  cases a with
  | dosend mqmsg r =>
    cases hact
    exact h.dosend hv
  | waitreceive =>
    rw [MqQueue.act] at hact
    split at hact
    · cases hact
    rename_i rcvmsg rest hlist
    cases hact
    refine ⟨(pairwise_cons.mp (hlist ▸ h.order)).2, ?_, h.exact, fun m hm => h.holds m ?_⟩
    · refine .trans ?_ h.once
      rw [numbers, numbers, hlist]
      exact perm_middle
    · rw [hlist]
      exact perm_middle.mem_iff.mp hm
  | doreceive call ubuffer =>
    obtain ⟨m, hm, hact⟩ := Option.bind_eq_some_iff.mp hact
    cases hact
    exact h.doreceive hm ubuffer

theorem Inv.law (h : Inv q) : q.Law maxBytes := by
  refine ⟨h.order, h.once, h.exact, fun q' hact => ?_⟩
  rw [MqQueue.act] at hact
  split at hact
  · cases hact
  · rename_i rcvmsg rest hlist
    cases hact
    exact ⟨rcvmsg, rfl, hlist, (pairwise_cons.mp (hlist ▸ h.order)).1⟩

end MqQueue

/-- **Message order**: in any sequence of sections of calls the list is ordered by priority and age,
every message is received at most once and as it has been sent, and a receiver takes the oldest of
the messages with the highest priority. -/
theorem mqActs_law {maxBytes : ℕ} {maxmsgsize : UInt8} {q : MqQueue}
    (h : MqActs maxBytes maxmsgsize q) : q.Law maxBytes := by
  have hinv : q.Inv := by
    induction h with
    | opened => exact ⟨.nil, .refl _, nofun, nofun⟩
    | act a _ hv hact ih => exact ih.act hv hact
  exact hinv.law

/-- A message of priority 2 overtakes one of priority 1, and is received. -/
theorem mqActs_law_two : ∃ q : MqQueue, q.msglist.map Prod.fst = [0] ∧
    q.received.map Prod.fst = [1] ∧ q.Law 22 := by
  have hlow : MqActs 22 22 _ := .act (.dosend ⟨0, 0, fun _ => 0⟩ ⟨fun _ => 7, 5, 1⟩) .opened
    ⟨by decide, by decide, by decide⟩ rfl
  have hhigh : MqActs 22 22 _ := .act (.dosend ⟨0, 0, fun _ => 0⟩ ⟨fun _ => 9, 5, 2⟩) hlow
    ⟨by decide, by decide, by decide⟩ rfl
  have htaken : MqActs 22 22 _ := .act .waitreceive hhigh trivial rfl
  have hgiven : MqActs 22 22 _ := .act (.doreceive 0 fun _ => 0) htaken trivial rfl
  exact ⟨_, by decide, by decide, mqActs_law hgiven⟩

end NuttX
