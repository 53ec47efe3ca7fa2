import NuttX.Tcp.Model

/-!
# Sending on a TCP socket

`send` leaves its buffer to a handler, `send_interrupt`, and waits until the handler ends the wait.
The handler is called when an acknowledgement has arrived, when data have to be sent again, and when
the connection is polled; it counts from the sequence number that the connection had at the start.
`NuttX.sendInterrupt` is the handler, and `NuttX.sendStep` the state of a call of `send`.

Every segment that the handler produces is a part of the buffer, with the sequence number of its
first byte. The wait ends with success when the difference between an acknowledgement number and the
first sequence number, as a number of 32 bits, is not less than the length of the buffer. For an
acknowledgement that is older than the call this difference is huge: so the data are acknowledged at
the end exactly if no such acknowledgement arrives (`NuttX.sendLaw_iff`), and a late duplicate of an
ACK for earlier data ends the call at once (`NuttX.stale_ack_completes`).
-/

namespace NuttX

open List

@[inherit_doc uipAckdata] def uipRexmit : UInt16 := 0x0008

@[inherit_doc uipAckdata] def uipTimedout : UInt16 := 0x0200

structure SendS where
  buffer : List UInt8
  sent : UInt32
  isn : UInt32
  acked : UInt32
deriving DecidableEq

def SendS.buflen (pstate : SendS) : UInt32 := UInt32.ofNat pstate.buffer.length

/-- What the handler is called with. -/
structure SendEvent where
  flags : UInt16
  ackno : UInt32
  mss : UInt16
  arp : Bool
  timeout : Bool
deriving DecidableEq

/-- A segment that the handler asks for, with the largest size of a segment at that time. -/
structure SendSegment where
  sndseq : SeqBytes
  data : List UInt8
  mss : UInt16
deriving DecidableEq

/-- How a wait ends. -/
inductive SendEnd where
  | acked
  | notconn
  | timedout
deriving DecidableEq

/-- A call of `send` that waits, or has ended. -/
structure SendState where
  pstate : SendS
  installed : Bool
  segments : List SendSegment
  acks : List UInt32
  ended : Option SendEnd
deriving DecidableEq

/-- `uip_send`: data are sent only if they fit into the buffer of the device. -/
def uipSend (bufsize len : ℕ) : Bool := 0 < len ∧ len < bufsize

/-- The amount of data that can be sent in the next segment. -/
def SendS.sndlen (pstate : SendS) (mss : UInt16) : UInt32 :=
  let sndlen := pstate.buflen - pstate.sent
  if mss.toUInt32 < sndlen then mss.toUInt32 else sndlen

/-- The end of `send_interrupt`: more data are sent, or the time is looked at. -/
def sendMore (bufsize : ℕ) (ev : SendEvent) (s : SendState) : SendState :=
  let pstate := s.pstate
  if ev.flags &&& uipNewdata = 0 ∧ pstate.sent < pstate.buflen then
    let sndlen := pstate.sndlen ev.mss
    let data := (pstate.buffer.drop pstate.sent.toNat).take sndlen.toNat
    let segment : SendSegment := ⟨uipTcpsetsequence (pstate.sent + pstate.isn), data, ev.mss⟩
    let segments := if uipSend bufsize sndlen.toNat then s.segments ++ [segment] else s.segments
    let sent := if pstate.sent ≠ 0 ∨ ev.arp = true then pstate.sent + sndlen else pstate.sent
    { s with pstate := { pstate with sent := sent }, segments := segments }
  else if ev.timeout = true then { s with ended := some .timedout }
  else s

def sendInterrupt (bufsize : ℕ) (ev : SendEvent) (s : SendState) : SendState :=
  if ev.flags &&& uipAckdata ≠ 0 then
    let pstate := { s.pstate with acked := ev.ackno - s.pstate.isn }
    let s := { s with pstate := pstate, acks := s.acks ++ [ev.ackno] }
    if pstate.buflen ≤ pstate.acked then { s with ended := some .acked }
    else sendMore bufsize ev s
  else if ev.flags &&& uipRexmit ≠ 0 then
    sendMore bufsize ev { s with pstate := { s.pstate with sent := s.pstate.acked } }
  else if ev.flags &&& (uipClose ||| uipAbort ||| uipTimedout) ≠ 0 then
    { s with ended := some .notconn }
  else sendMore bufsize ev s

/-- An event: the handler, if there is one, is called until it has ended the wait. -/
def sendStep (bufsize : ℕ) (s : SendState) (ev : SendEvent) : SendState :=
  if s.installed = true ∧ s.ended = none then sendInterrupt bufsize ev s else s

/-- What `send` sets up, for a connection with the sequence number `sndseq`. -/
def sendStart (buffer : List UInt8) (sndseq : SeqBytes) : SendState :=
  ⟨⟨buffer, 0, uipTcpgetsequence sndseq, 0⟩, 0 < buffer.length, [], [], none⟩

/-- The number of bytes that an acknowledgement is ahead of the start. -/
def ackDist (isn ackno : UInt32) : ℕ := (ackno - isn).toNat

/-- **A segment is a part of the buffer**, with the sequence number of its first byte. -/
def SendSegment.PartOf (buffer : List UInt8) (isn : UInt32) (seg : SendSegment) : Prop :=
  ∃ k n, k + n ≤ buffer.length ∧ n ≤ seg.mss.toNat ∧
    uipTcpgetsequence seg.sndseq = isn + UInt32.ofNat k ∧ seg.data = (buffer.drop k).take n ∧
    seg.data.length = n

/-- **The law of `send`**: the segments are parts of the buffer, and the wait ends with success only
if all of the buffer has been acknowledged. -/
structure SendLaw (buffer : List UInt8) (isn : UInt32) (s : SendState) : Prop where
  segments : ∀ seg ∈ s.segments, seg.PartOf buffer isn
  success : s.ended = some .acked →
    ∃ a ∈ s.acks, buffer.length ≤ ackDist isn a ∧ ackDist isn a < 2 ^ 31

/-- An acknowledgement that ends the wait is not older than the start. -/
def AckFresh (buffer : List UInt8) (isn : UInt32) (ev : SendEvent) : Prop :=
  ev.flags &&& uipAckdata ≠ 0 → buffer.length ≤ ackDist isn ev.ackno → ackDist isn ev.ackno < 2 ^ 31

/-- All acknowledgements that the handler is given are fresh. -/
def SendFresh (bufsize : ℕ) (buffer : List UInt8) (isn : UInt32) :
    SendState → List SendEvent → Prop
  | _, [] => True
  | s, ev :: evs =>
    (s.installed = true → s.ended = none → AckFresh buffer isn ev) ∧
      SendFresh bufsize buffer isn (sendStep bufsize s ev) evs

/-! ### The handler -/

/-- **The state of a call that waits.** Less than the buffer has been acknowledged. -/
structure SendInv (buffer : List UInt8) (isn : UInt32) (s : SendState) : Prop where
  buffer_eq : s.pstate.buffer = buffer
  isn_eq : s.pstate.isn = isn
  segments : ∀ seg ∈ s.segments, seg.PartOf buffer isn
  acked : s.installed = true → s.ended = none → s.pstate.acked.toNat < buffer.length
  acks : s.ended = none → ∀ a ∈ s.acks, ackDist isn a < buffer.length

variable {bufsize : ℕ} {buffer : List UInt8} {isn : UInt32} {s : SendState} {ev : SendEvent}

section

variable {pstate : SendS} (hlen : pstate.buffer.length < 2 ^ 32)

include hlen

theorem toNat_buflen : pstate.buflen.toNat = pstate.buffer.length := by
  rw [SendS.buflen, UInt32.toNat_ofNat', Nat.mod_eq_of_lt hlen]

theorem toNat_sndlen (mss : UInt16) (hlt : pstate.sent < pstate.buflen) :
    (pstate.sndlen mss).toNat = min mss.toNat (pstate.buffer.length - pstate.sent.toNat) := by
  have hle : pstate.sent ≤ pstate.buflen := UInt32.le_of_lt hlt
  have hsub : (pstate.buflen - pstate.sent).toNat = pstate.buffer.length - pstate.sent.toNat := by
    rw [UInt32.toNat_sub_of_le _ _ hle, toNat_buflen hlen]
  unfold SendS.sndlen
  dsimp only
  split_ifs with hmss
  · rw [UInt32.lt_iff_toNat_lt, hsub, UInt16.toNat_toUInt32] at hmss
    rw [UInt16.toNat_toUInt32]
    omega
  · rw [UInt32.lt_iff_toNat_lt, hsub, UInt16.toNat_toUInt32] at hmss
    omega

theorem partOf_segment (mss : UInt16) (hlt : pstate.sent < pstate.buflen) :
    SendSegment.PartOf pstate.buffer pstate.isn ⟨uipTcpsetsequence (pstate.sent + pstate.isn),
      (pstate.buffer.drop pstate.sent.toNat).take (pstate.sndlen mss).toNat, mss⟩ := by
  have hsent := UInt32.lt_iff_toNat_lt.mp hlt
  rw [toNat_buflen hlen] at hsent
  have hsnd := toNat_sndlen hlen mss hlt
  refine ⟨pstate.sent.toNat, (pstate.sndlen mss).toNat, ?_, ?_, ?_, rfl, ?_⟩
  · omega
  · dsimp only
    omega
  · rw [uipTcpgetsequence_set, UInt32.ofNat_toNat, UInt32.add_comm]
  · rw [length_take, length_drop]
    omega

end

/-- More data are sent: the segments are parts of the buffer. -/
theorem SendInv.sendMore (h : SendInv buffer isn s) (hlen : buffer.length < 2 ^ 32)
    (bufsize : ℕ) (ev : SendEvent) :
    SendInv buffer isn (NuttX.sendMore bufsize ev s) ∧ (NuttX.sendMore bufsize ev s).acks = s.acks ∧
      (NuttX.sendMore bufsize ev s).installed = s.installed ∧
      ((NuttX.sendMore bufsize ev s).ended = s.ended ∨
        (NuttX.sendMore bufsize ev s).ended = some .timedout) := by
  obtain ⟨hbuffer, hisn, hsegments, hacked, hacks⟩ := h
  subst hbuffer hisn
  unfold NuttX.sendMore
  dsimp only
  by_cases hsend : ev.flags &&& uipNewdata = 0 ∧ s.pstate.sent < s.pstate.buflen
  · rw [if_pos hsend]
    refine ⟨⟨rfl, rfl, fun seg hseg => ?_, hacked, hacks⟩, rfl, rfl, .inl rfl⟩
    dsimp only at hseg
    split_ifs at hseg with huip
    · rcases mem_append.mp hseg with hseg | hseg
      · exact hsegments seg hseg
      · rw [mem_singleton.mp hseg]
        exact partOf_segment hlen ev.mss hsend.2
    · exact hsegments seg hseg
  · split_ifs with htimeout
    · exact ⟨⟨rfl, rfl, hsegments, fun _ => nofun, nofun⟩, rfl, rfl, .inr rfl⟩
    · exact ⟨⟨rfl, rfl, hsegments, hacked, hacks⟩, rfl, rfl, .inl rfl⟩

/-- **A call of the handler**: it goes on waiting, or it ends the wait with success, and then the
last acknowledgement is for all of the buffer, as a difference of 32 bits. -/
theorem SendInv.interrupt (h : SendInv buffer isn s) (hlen : buffer.length < 2 ^ 32)
    (hinst : s.installed = true) (hwait : s.ended = none) (bufsize : ℕ) (ev : SendEvent) :
    SendInv buffer isn (sendInterrupt bufsize ev s) ∧
      (sendInterrupt bufsize ev s).installed = true ∧
      ((sendInterrupt bufsize ev s).ended = some .acked ↔
        ev.flags &&& uipAckdata ≠ 0 ∧ buffer.length ≤ ackDist isn ev.ackno) ∧
      ((sendInterrupt bufsize ev s).ended = some .acked →
        (sendInterrupt bufsize ev s).acks = s.acks ++ [ev.ackno]) := by
  obtain ⟨hbuffer, hisn, hsegments, hacked, hacks⟩ := id h
  -- the cases in which the wait does not end with success
  have hmore : ∀ {t : SendState}, SendInv buffer isn t → t.installed = true → t.ended = none →
      ¬(ev.flags &&& uipAckdata ≠ 0 ∧ buffer.length ≤ ackDist isn ev.ackno) →
      SendInv buffer isn (NuttX.sendMore bufsize ev t) ∧
        (NuttX.sendMore bufsize ev t).installed = true ∧
        ((NuttX.sendMore bufsize ev t).ended = some .acked ↔
          ev.flags &&& uipAckdata ≠ 0 ∧ buffer.length ≤ ackDist isn ev.ackno) ∧
        ((NuttX.sendMore bufsize ev t).ended = some .acked →
          (NuttX.sendMore bufsize ev t).acks = s.acks ++ [ev.ackno]) := by
    intro t ht htinst htwait hnot
    obtain ⟨hinv, -, hinst', hended⟩ := ht.sendMore hlen bufsize ev
    have hne : (NuttX.sendMore bufsize ev t).ended ≠ some .acked := by
      rcases hended with hended | hended <;> rw [hended]
      · rw [htwait]
        exact nofun
      · exact nofun
    exact ⟨hinv, hinst'.trans htinst, iff_of_false hne hnot, fun hacked => absurd hacked hne⟩
  unfold sendInterrupt
  by_cases hack : ev.flags &&& uipAckdata ≠ 0
  · rw [if_pos hack]
    have hdist : (SendS.buflen { s.pstate with acked := ev.ackno - s.pstate.isn } ≤
        ev.ackno - s.pstate.isn) ↔ buffer.length ≤ ackDist isn ev.ackno := by
      rw [UInt32.le_iff_toNat_le, toNat_buflen (by rw [hbuffer]; exact hlen), hbuffer, hisn]
      rfl
    by_cases hend : buffer.length ≤ ackDist isn ev.ackno
    · rw [if_pos (hdist.mpr hend)]
      exact ⟨⟨hbuffer, hisn, hsegments, fun _ => nofun, nofun⟩, hinst,
        iff_of_true rfl ⟨hack, hend⟩, fun _ => rfl⟩
    rw [if_neg (mt hdist.mp hend)]
    refine hmore ⟨hbuffer, hisn, hsegments, fun _ _ => ?_, fun _ a ha => ?_⟩ hinst hwait
      fun hboth => hend hboth.2
    · rw [hisn]
      exact Nat.not_le.mp hend
    · rcases mem_append.mp ha with ha | ha
      · exact hacks hwait a ha
      · rw [mem_singleton.mp ha]
        exact Nat.not_le.mp hend
  · have hnot : ¬(ev.flags &&& uipAckdata ≠ 0 ∧ buffer.length ≤ ackDist isn ev.ackno) :=
      fun hboth => hack hboth.1
    split_ifs with hrexmit hlost
    · exact hmore ⟨hbuffer, hisn, hsegments, hacked, hacks⟩ hinst hwait hnot
    · refine ⟨⟨hbuffer, hisn, hsegments, fun _ => nofun, nofun⟩, hinst, ?_, nofun⟩
      exact iff_of_false nofun hnot
    · exact hmore h hinst hwait hnot

/-! ### Runs -/

/-- A call that has ended with success has been given an acknowledgement for all of the buffer. -/
def EndedFresh (buffer : List UInt8) (isn : UInt32) (s : SendState) : Prop :=
  s.ended = some .acked → ∃ a ∈ s.acks, buffer.length ≤ ackDist isn a ∧ ackDist isn a < 2 ^ 31

theorem foldl_sendStep_of_ended (h : s.ended ≠ none) (evs : List SendEvent) :
    evs.foldl (sendStep bufsize) s = s := by
  induction evs with
  | nil => rfl
  | cons ev evs ih =>
    rw [foldl_cons, sendStep, if_neg fun hboth => h hboth.2]
    exact ih

theorem sendFresh_of_ended (h : s.ended ≠ none) (evs : List SendEvent) :
    SendFresh bufsize buffer isn s evs := by
  induction evs with
  | nil => trivial
  | cons ev evs ih =>
    refine ⟨fun _ hwait => absurd hwait h, ?_⟩
    rw [sendStep, if_neg fun hboth => h hboth.2]
    exact ih

/-- **The wait ends with success for the right reason exactly if the acknowledgements are fresh.** -/
theorem endedFresh_iff (h : SendInv buffer isn s) (hlen : buffer.length < 2 ^ 32)
    (hwait : s.ended = none) (evs : List SendEvent) :
    EndedFresh buffer isn (evs.foldl (sendStep bufsize) s) ↔ SendFresh bufsize buffer isn s evs := by
  induction evs generalizing s with
  | nil =>
    refine iff_of_true (fun hended => ?_) trivial
    rw [foldl_nil, hwait] at hended
    exact nomatch hended
  | cons ev evs ih =>
    rw [foldl_cons, SendFresh]
    by_cases hinst : s.installed = true
    · obtain ⟨hinv, -, hended, hacks⟩ := h.interrupt hlen hinst hwait bufsize ev
      rw [sendStep, if_pos ⟨hinst, hwait⟩]
      generalize hs : sendInterrupt bufsize ev s = t at *
      have hfresh : (s.installed = true → s.ended = none → AckFresh buffer isn ev) ↔
          (t.ended = some .acked → ackDist isn ev.ackno < 2 ^ 31) := by
        rw [hended]
        exact ⟨fun hf hboth => hf hinst hwait hboth.1 hboth.2, fun hf _ _ hack hle => hf ⟨hack, hle⟩⟩
      rw [hfresh]
      by_cases hnone : t.ended = none
      · rw [ih hinv hnone, hnone]
        exact ⟨fun hrest => ⟨nofun, hrest⟩, And.right⟩
      rw [foldl_sendStep_of_ended hnone, and_iff_left (sendFresh_of_ended hnone evs)]
      refine forall_congr' fun hacked => ?_
      rw [hacks hacked]
      constructor
      · rintro ⟨a, ha, hle, hlt⟩
        rcases mem_append.mp ha with ha | ha
        · -- an earlier acknowledgement for all of the buffer would have ended the wait
          exact absurd (h.acks hwait a ha) (Nat.not_lt.mpr hle)
        · rw [← mem_singleton.mp ha]
          exact hlt
      · intro hlt
        exact ⟨ev.ackno, by simp, (hended.mp hacked).2, hlt⟩
    · have hstep : sendStep bufsize s ev = s := by
        rw [sendStep, if_neg fun hboth => hinst hboth.1]
      rw [hstep, ih h hwait]
      exact ⟨fun hrest => ⟨fun hinst' => absurd hinst' hinst, hrest⟩, And.right⟩

theorem SendInv.run (h : SendInv buffer isn s) (hlen : buffer.length < 2 ^ 32)
    (evs : List SendEvent) : SendInv buffer isn (evs.foldl (sendStep bufsize) s) := by
  induction evs generalizing s with
  | nil => exact h
  | cons ev evs ih =>
    refine ih ?_
    unfold sendStep
    split_ifs with hcall
    · exact (h.interrupt hlen hcall.1 hcall.2 bufsize ev).1
    · exact h

theorem sendInv_start (buffer : List UInt8) (sndseq : SeqBytes) :
    SendInv buffer (uipTcpgetsequence sndseq) (sendStart buffer sndseq) where
  buffer_eq := rfl
  isn_eq := rfl
  segments := nofun
  acked hinst _ := by
    have hpos : 0 < buffer.length := by simpa [sendStart] using hinst
    exact hpos
  acks _ := nofun

/-- **The law of `send` holds exactly if no acknowledgement that is older than the call ends the
wait**, for every buffer, every first sequence number and every sequence of events. -/
theorem sendLaw_iff (bufsize : ℕ) {buffer : List UInt8} (hlen : buffer.length < 2 ^ 32)
    (sndseq : SeqBytes) (evs : List SendEvent) :
    SendLaw buffer (uipTcpgetsequence sndseq)
        (evs.foldl (sendStep bufsize) (sendStart buffer sndseq)) ↔
      SendFresh bufsize buffer (uipTcpgetsequence sndseq) (sendStart buffer sndseq) evs := by
  have hinv := sendInv_start buffer sndseq
  rw [← endedFresh_iff hinv hlen rfl]
  exact ⟨SendLaw.success, fun hsuccess => ⟨(hinv.run hlen evs).segments, hsuccess⟩⟩

/-- A poll, and then an acknowledgement with the number `ackno`. -/
def pollAndAck (ackno : UInt32) : List SendEvent :=
  [⟨0x0010, 0, 536, true, false⟩, ⟨uipAckdata, ackno, 536, true, false⟩]

theorem sendLaw_iff_three : SendLaw [1, 2, 3] 1000
    ((pollAndAck 1003).foldl (sendStep 600) (sendStart [1, 2, 3] ⟨0, 0, 0x03, 0xe8⟩)) := by
  refine (sendLaw_iff 600 (by decide) ⟨0, 0, 0x03, 0xe8⟩ (pollAndAck 1003)).mpr ?_
  refine ⟨fun _ _ hack => absurd rfl hack, fun _ _ _ _ => by decide, trivial⟩

/-- **A late acknowledgement of earlier data ends the call**, although no byte of the buffer has been
acknowledged. -/
theorem stale_ack_completes : ¬SendLaw [1, 2, 3] 1000
    ((pollAndAck 999).foldl (sendStep 600) (sendStart [1, 2, 3] ⟨0, 0, 0x03, 0xe8⟩)) := by
  intro hlaw
  obtain ⟨a, ha, -, hlt⟩ := hlaw.success (by decide)
  have hacks : ((pollAndAck 999).foldl (sendStep 600)
      (sendStart [1, 2, 3] ⟨0, 0, 0x03, 0xe8⟩)).acks = [999] := by
    decide
  rw [hacks, List.mem_singleton] at ha
  subst ha
  exact absurd hlt (by decide)

end NuttX
