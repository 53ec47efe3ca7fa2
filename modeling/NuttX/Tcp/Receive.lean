import NuttX.Tcp.Effects

/-!
# What a connection receives

The receiving side of a TCP connection is `rcvseq`, the sequence number that is expected next. This
module follows it through runs of `uip_tcpinput` over any segments, in order or not, new or
duplicated, with anything happening to the rest of the connection in between.

`NuttX.Taken` are the three things that a synchronized connection can do with a segment: leave
`rcvseq` alone, advance it over the payload, or advance it over the payload and a FIN. In
`ESTABLISHED` the second and the third signal `UIP_NEWDATA` for the payload, and nothing else
does. A run notes where in the stream the signalled payloads lie (`NuttX.Reception`); no position
is signalled twice, and they are signalled in order.
-/

namespace NuttX

open UipTcp TcpSegment

/-! ### Segments and signals -/

def TcpSegment.payloadLen (seg : TcpSegment) : ℕ :=
  seg.ipLen.toNat - 20 - seg.hdrLen

/-- A segment without RST, SYN and URG whose headers fit into the packet. -/
structure TcpSegment.Plain (seg : TcpSegment) : Prop where
  rst : seg.flags &&& tcpRst = 0
  syn : seg.flags &&& tcpSyn = 0
  urg : seg.flags &&& tcpUrg = 0
  hdr : seg.hdrLen + 20 ≤ seg.ipLen.toNat

/-- The states after the handshake, until the connection is closed. -/
def TcpState.Synchronized : TcpState → Prop
  | .established | .finWait1 | .finWait2 | .closing | .lastAck | .timeWait => True
  | .closed | .allocated | .synRcvd | .synSent => False

/-- The changes of state for a FIN of the peer. -/
def finMove : TcpState → TcpState → Bool
  | .established, .lastAck => true
  | .finWait1, .closing => true
  | .finWait1, .timeWait => true
  | .finWait2, .timeWait => true
  | _, _ => false

/-- A FIN of the peer has been accepted: the connection has moved on for it. -/
def FinAccepted (seg : TcpSegment) (s s' : TcpState) : Prop :=
  seg.flags &&& tcpFin ≠ 0 ∧ finMove s s' = true

theorem not_finAccepted_self (seg : TcpSegment) (s : TcpState) : ¬FinAccepted seg s s := by
  rintro ⟨-, hmove⟩
  cases s <;> simp [finMove] at hmove

instance (seg : TcpSegment) (s s' : TcpState) : Decidable (FinAccepted seg s s') :=
  inferInstanceAs (Decidable (_ ∧ _))

/-- The lengths of the payloads for which `UIP_NEWDATA` has been signalled. -/
def UipTcp.newdata (w : UipTcp) : List ℕ :=
  (w.calls.filter fun call => call.flags &&& uipNewdata ≠ 0).map fun call => call.len.toNat

variable {w : UipTcp}

theorem UipTcp.newdata_of_nil (h : w.calls = []) : w.newdata = [] := by
  simp [newdata, h]

theorem UipTcp.newdata_of_call {f n : UInt16} {a : ℕ} (h : w.calls = [⟨f, n, a⟩])
    (hnew : f &&& uipNewdata ≠ 0) : w.newdata = [n.toNat] := by
  simp [newdata, h, hnew]

theorem UipTcp.newdata_of_other {f n : UInt16} {a : ℕ} (h : w.calls = [⟨f, n, a⟩])
    (hold : f &&& uipNewdata = 0) : w.newdata = [] := by
  simp [newdata, h, hold]

/-- **What a connection does with a segment.** The connection was in state `s` and expected the
sequence number `r`. -/
inductive Taken (seg : TcpSegment) (r : SeqBytes) (s : TcpState) (w : UipTcp) : Prop
  | refused (hrcvseq : w.conn.rcvseq = r) (hfin : ¬FinAccepted seg s w.conn.tcpstate)
      (hnew : w.newdata = [])
  | data (hin : seg.seqno = r) (hlen : 0 < seg.payloadLen)
      (hrcvseq : w.conn.rcvseq.toNat = (r.toNat + seg.payloadLen) % 2 ^ 32)
      (hfin : ¬FinAccepted seg s w.conn.tcpstate)
      (hnew : w.newdata = if s = .established then [seg.payloadLen] else [])
  | fin (hin : seg.seqno = r) (hfin : FinAccepted seg s w.conn.tcpstate)
      (hrcvseq : w.conn.rcvseq.toNat = (r.toNat + (seg.payloadLen + 1)) % 2 ^ 32)
      (hnew : w.newdata =
        if s = .established ∧ 0 < seg.payloadLen then [seg.payloadLen] else [])

section States

/-! ### One state at a time -/

variable {cfg : TcpConfig} {list : List UipCallback} {seg : TcpSegment} {flags : UInt16}
  {w : UipTcp}

/-- A segment that has reached the switch on the state: it is in order or takes up no sequence
numbers, and nothing has been signalled for it yet. -/
structure Reached (seg : TcpSegment) (flags : UInt16) (w : UipTcp) : Prop where
  plain : seg.Plain
  len : w.dLen.toNat = seg.payloadLen
  inOrder : seg.seqno = w.conn.rcvseq ∨ w.dLen = 0 ∧ seg.flags &&& tcpFin = 0
  calls : w.calls = []
  flags : flags = uipAckdata ∨ flags = 0

theorem not_finAccepted_callbackAndSend (hstate : w.conn.tcpstate = .established) :
    ¬FinAccepted seg .established (callbackAndSend cfg list seg flags w).conn.tcpstate := by
  rintro ⟨-, hmove⟩
  rcases callbackAndSend_tcpstate cfg list seg flags w with h | h | h
  · simp [h, finMove] at hmove
  · simp [h, finMove] at hmove
  · simp [h, hstate, finMove] at hmove

section

variable (h : Reached seg flags w)

include h

theorem Reached.dLen_lt : w.dLen.toNat < 65516 := by
  have hlen := h.len
  have hlt := seg.ipLen.toNat_lt
  unfold payloadLen at hlen
  omega

theorem Reached.seqno_of_data (hpos : 0 < w.dLen) : seg.seqno = w.conn.rcvseq := by
  rcases h.inOrder with hin | ⟨hzero, -⟩
  · exact hin
  · rw [hzero] at hpos
    exact absurd hpos (by decide)

theorem Reached.seqno_of_fin (hfin : seg.flags &&& tcpFin ≠ 0) : seg.seqno = w.conn.rcvseq := by
  rcases h.inOrder with hin | ⟨-, hno⟩
  · exact hin
  · exact absurd hno hfin

theorem Reached.payload_pos_iff : 0 < seg.payloadLen ↔ 0 < w.dLen := by
  rw [← h.len, UInt16.lt_iff_toNat_lt, UInt16.toNat_zero]

theorem taken_inLastAck : Taken seg w.conn.rcvseq .lastAck (inLastAck cfg list seg flags w) := by
  unfold inLastAck
  split
  · have hcalls : ((uipTcpcallback cfg list seg uipClose (w.setState .closed)).2.drop).calls
        = [⟨uipClose, w.dLen, w.dAppdata⟩] := by
      simp [h.calls]
    exact .refused (by simp) (by simp [FinAccepted, finMove]) (newdata_of_other hcalls (by decide))
  · exact .refused (by simp) (by simp [FinAccepted, finMove])
      (newdata_of_nil (by simp [h.calls]))

theorem taken_inClosing : Taken seg w.conn.rcvseq .closing (inClosing flags w) := by
  unfold inClosing
  split <;>
    exact .refused (by simp) (by simp [FinAccepted, finMove]) (newdata_of_nil (by simp [h.calls]))

theorem taken_timeWait : Taken seg w.conn.rcvseq .timeWait (uipTcpsend tcpAck uipIptcphLen w) :=
  .refused (by simp) (by simp [FinAccepted, finMove]) (newdata_of_nil (by simp [h.calls]))

/-! ### Waiting for the FIN of the peer -/

theorem taken_finReceived {s : TcpState} {v : UipTcp} (hfin : seg.flags &&& tcpFin ≠ 0)
    (hs : s ≠ .established) (hmove : FinAccepted seg s v.conn.tcpstate)
    (hrcvseq : v.conn.rcvseq = w.skipData.conn.rcvseq) (hcalls : v.calls = []) :
    Taken seg w.conn.rcvseq s (finReceived cfg list seg v) := by
  have hcalls' : (finReceived cfg list seg v).calls = [⟨uipClose, v.dLen, v.dAppdata⟩] := by
    simp [finReceived, hcalls]
  refine .fin (h.seqno_of_fin hfin) (by simpa [finReceived] using hmove) ?_ ?_
  · have hone : (1 : UInt16).toNat = 1 := rfl
    simp only [finReceived, uipTcpsend_conn, uipTcpcallback_rcvseq, incrRcvseq_rcvseq]
    rw [toNat_uipIncr32, hrcvseq, toNat_skipData_rcvseq, h.len, hone]
    omega
  · rw [newdata_of_other hcalls' (by decide), if_neg (fun hboth => hs hboth.1)]

theorem taken_skipData {s : TcpState} {v : UipTcp} (hfin : seg.flags &&& tcpFin = 0)
    (hs : s ≠ .established) (hrcvseq : v.conn.rcvseq = w.skipData.conn.rcvseq)
    (hcalls : v.calls = []) : Taken seg w.conn.rcvseq s v := by
  have hno : ¬FinAccepted seg s v.conn.tcpstate := fun hacc => hacc.1 hfin
  by_cases hpos : 0 < w.dLen
  · refine .data (h.seqno_of_data hpos) (h.payload_pos_iff.mpr hpos) ?_ hno ?_
    · rw [hrcvseq, toNat_skipData_rcvseq, h.len]
    · rw [newdata_of_nil hcalls, if_neg hs]
  · rw [skipData, if_neg hpos] at hrcvseq
    exact .refused hrcvseq hno (newdata_of_nil hcalls)

theorem taken_inFinWait1 : Taken seg w.conn.rcvseq .finWait1 (inFinWait1 cfg list seg flags w) := by
  unfold inFinWait1
  by_cases hfin : seg.flags &&& tcpFin ≠ 0
  · rw [if_pos hfin]
    split <;> exact taken_finReceived h hfin (by decide) ⟨hfin, rfl⟩ rfl (by simp [h.calls])
  rw [if_neg hfin]
  rw [not_not] at hfin
  split_ifs <;> exact taken_skipData h hfin (by decide) rfl (by simp [h.calls])

theorem taken_inFinWait2 : Taken seg w.conn.rcvseq .finWait2 (inFinWait2 cfg list seg w) := by
  unfold inFinWait2
  by_cases hfin : seg.flags &&& tcpFin ≠ 0
  · rw [if_pos hfin]
    exact taken_finReceived h hfin (by decide) ⟨hfin, rfl⟩ rfl (by simp [h.calls])
  rw [if_neg hfin]
  rw [not_not] at hfin
  split <;> exact taken_skipData h hfin (by decide) rfl (by simp [h.calls])

/-! ### Established -/

theorem taken_finEstablished (hfin : seg.flags &&& tcpFin ≠ 0)
    (hstate : w.conn.tcpstate = .established) :
    Taken seg w.conn.rcvseq .established (finEstablished cfg list seg flags w) := by
  unfold finEstablished
  split
  · -- our own data are outstanding: the FIN has to come again
    refine .refused rfl ?_ (newdata_of_nil (by simp [h.calls]))
    simp [FinAccepted, finMove, hstate]
  have hone : (w.dLen + 1).toNat = seg.payloadLen + 1 := by
    have hlt := h.dLen_lt
    rw [h.len] at hlt
    rw [UInt16.toNat_add, h.len, UInt16.toNat_one]
    omega
  refine .fin (h.seqno_of_fin hfin) ⟨hfin, rfl⟩ ?_ ?_
  · simp only [uipTcpsend_conn, setState_rcvseq, uipTcpcallback_rcvseq, incrRcvseq_rcvseq]
    rw [toNat_uipIncr32, hone]
  by_cases hpos : 0 < w.dLen
  · rw [if_pos ⟨rfl, h.payload_pos_iff.mpr hpos⟩, ← h.len]
    refine newdata_of_call (f := flags ||| uipClose ||| uipNewdata) (a := w.dAppdata) ?_ ?_
    · simp [h.calls, hpos]
    · rcases h.flags with hflags | hflags <;> rw [hflags] <;> decide
  · rw [if_neg (fun hboth => hpos (h.payload_pos_iff.mp hboth.2))]
    refine newdata_of_other (f := flags ||| uipClose) (n := w.dLen) (a := w.dAppdata) ?_ ?_
    · simp [h.calls, hpos]
    · rcases h.flags with hflags | hflags <;> rw [hflags] <;> decide

theorem taken_dataEstablished (hstate : w.conn.tcpstate = .established) :
    Taken seg w.conn.rcvseq .established (dataEstablished cfg list seg flags w) := by
  unfold dataEstablished
  by_cases haccepted : 0 < w.dLen ∧ w.conn.stopped = false
  · simp only [if_pos haccepted]
    rw [if_pos (by rcases h.flags with hflags | hflags <;> rw [hflags] <;> decide)]
    refine .data (h.seqno_of_data haccepted.1) (h.payload_pos_iff.mpr haccepted.1) ?_
      (not_finAccepted_callbackAndSend hstate) ?_
    · rw [callbackAndSend_rcvseq, incrRcvseq_rcvseq, toNat_uipIncr32, h.len]
    · rw [if_pos rfl, ← h.len]
      refine newdata_of_call (f := flags ||| uipNewdata) (a := w.dAppdata) (by simp [h.calls]) ?_
      rcases h.flags with hflags | hflags <;> rw [hflags] <;> decide
  · simp only [if_neg haccepted]
    split
    · refine .refused (by simp) (not_finAccepted_callbackAndSend hstate) ?_
      refine newdata_of_other (f := flags) (n := w.dLen) (a := w.dAppdata) (by simp [h.calls]) ?_
      rcases h.flags with hflags | hflags <;> rw [hflags] <;> decide
    · refine .refused (by simp) ?_ (newdata_of_nil (by simp [h.calls]))
      simp [FinAccepted, finMove, hstate]

theorem taken_inEstablished (hstate : w.conn.tcpstate = .established) :
    Taken seg w.conn.rcvseq .established (inEstablished cfg list seg flags w) := by
  unfold inEstablished
  split
  · rename_i hfin
    exact taken_finEstablished h hfin.1 hstate
  · rw [if_neg (not_not.mpr h.plain.urg)]
    exact taken_dataEstablished h hstate

end

end States

/-! ### One segment -/

section Segment

variable {cfg : TcpConfig} {list : List UipCallback} {seg : TcpSegment} {w : UipTcp}

theorem TcpSegment.hdrLen_le (seg : TcpSegment) : seg.hdrLen ≤ 60 := by
  have hlt := seg.tcpoffset.toNat_lt
  have hshift : (seg.tcpoffset >>> 4).toNat = seg.tcpoffset.toNat / 16 := by
    simp only [UInt8.toNat_shiftRight, UInt8.reduceToNat, Nat.shiftRight_eq_div_pow,
      Nat.reduceMod, Nat.reducePow]
  unfold hdrLen
  omega

theorem arrived_dLen (w : UipTcp) (hhdr : seg.hdrLen + 20 ≤ seg.ipLen.toNat) :
    (w.arrived seg).dLen.toNat = seg.payloadLen := by
  have hle := seg.hdrLen_le
  have htwenty : uipIphLen.toNat = 20 := rfl
  have hsum : (UInt16.ofNat seg.hdrLen + uipIphLen).toNat = seg.hdrLen + 20 := by
    rw [UInt16.toNat_add, htwenty, UInt16.toNat_ofNat']
    omega
  unfold arrived payloadLen
  rw [UInt16.toNat_sub_of_le _ _ (by rw [UInt16.le_iff_toNat_le, hsum]; exact hhdr), hsum]
  omega

theorem TcpSegment.Plain.ctl_ne_syn (hplain : seg.Plain) : ¬seg.flags &&& tcpCtl = tcpSyn := by
  intro h
  have hsyn : seg.flags &&& tcpCtl &&& tcpSyn = tcpSyn &&& tcpSyn := by rw [h]
  rw [UInt8.and_assoc, show tcpCtl &&& tcpSyn = tcpSyn by decide, hplain.syn] at hsyn
  exact absurd hsyn (by decide)

theorem uipTcpinput_outOfOrder (hplain : seg.Plain) (hsync : w.conn.tcpstate.Synchronized)
    (hlong : 0 < (w.arrived seg).dLen ∨ seg.flags &&& (tcpSyn ||| tcpFin) ≠ 0)
    (hne : seg.seqno ≠ w.conn.rcvseq) :
    uipTcpinput cfg list seg w = uipTcpsend tcpAck uipIptcphLen (w.arrived seg) := by
  have hhandshake : ¬handshake seg w.conn := by
    rintro (⟨hstate, -⟩ | ⟨hstate, -⟩) <;> rw [hstate] at hsync <;> exact hsync
  unfold uipTcpinput tcpFound
  rw [if_neg (fun h => hplain.ctl_ne_syn h.2), if_neg (not_not.mpr hplain.rst),
    if_pos ⟨hhandshake, hlong, hne⟩]
  rfl

theorem taken_tcpDispatch {flags : UInt16} (h : Reached seg flags w)
    (hsync : w.conn.tcpstate.Synchronized) :
    Taken seg w.conn.rcvseq w.conn.tcpstate (tcpDispatch cfg list seg flags w) := by
  unfold tcpDispatch
  cases hstate : w.conn.tcpstate with
  | established => exact taken_inEstablished h hstate
  | lastAck => exact taken_inLastAck h
  | finWait1 => exact taken_inFinWait1 h
  | finWait2 => exact taken_inFinWait2 h
  | timeWait => exact taken_timeWait h
  | closing => exact taken_inClosing h
  | closed | allocated | synRcvd | synSent =>
    rw [hstate] at hsync
    exact hsync.elim

/-- **What a synchronized connection does with a segment.** -/
theorem taken_uipTcpinput (cfg : TcpConfig) (list : List UipCallback) (hplain : seg.Plain)
    (hsync : w.conn.tcpstate.Synchronized) :
    Taken seg w.conn.rcvseq w.conn.tcpstate (uipTcpinput cfg list seg w) := by
  have hreached (hin : seg.seqno = w.conn.rcvseq ∨
      (w.arrived seg).dLen = 0 ∧ seg.flags &&& tcpFin = 0) :
      Reached seg (ackStep seg w.conn).1 { w.arrived seg with conn := (ackStep seg w.conn).2 } :=
    ⟨hplain, arrived_dLen w hplain.hdr, by simpa using hin, rfl, ackStep_flags _ _⟩
  by_cases hlong : 0 < (w.arrived seg).dLen ∨ seg.flags &&& (tcpSyn ||| tcpFin) ≠ 0
  · by_cases hin : seg.seqno = w.conn.rcvseq
    · rw [uipTcpinput_eq_dispatch hplain.rst hplain.ctl_ne_syn (.inl hin)]
      simpa using taken_tcpDispatch (hreached (.inl hin)) (by simpa using hsync)
    · rw [uipTcpinput_outOfOrder hplain hsync hlong hin]
      exact .refused rfl (not_finAccepted_self _ _) (newdata_of_nil rfl)
  rw [uipTcpinput_eq_dispatch hplain.rst hplain.ctl_ne_syn (.inr hlong)]
  rw [not_or, not_not] at hlong
  obtain ⟨hzero, hno⟩ := hlong
  have hfin : seg.flags &&& tcpFin = 0 := by
    rw [show tcpFin = (tcpSyn ||| tcpFin) &&& tcpFin by decide, ← UInt8.and_assoc, hno]
    decide
  have hdLen : (w.arrived seg).dLen = 0 := by
    rw [UInt16.lt_iff_toNat_lt, UInt16.toNat_zero] at hzero
    apply UInt16.toNat_inj.mp
    rw [UInt16.toNat_zero]
    omega
  simpa using taken_tcpDispatch (hreached (.inr ⟨hdLen, hfin⟩)) (by simpa using hsync)

/-! ### The law of a segment -/

/-- The sequence numbers that an accepted segment takes up. -/
def TcpSegment.taken (seg : TcpSegment) (s s' : TcpState) : ℕ :=
  seg.payloadLen + if FinAccepted seg s s' then 1 else 0

/-- **The receive discipline of one segment**, which takes the connection from `w` to `w'`:
`rcvseq` changes only for a segment in order, and then by what the segment takes up; in
`ESTABLISHED` `UIP_NEWDATA` is signalled, once, if and only if there is a payload and `rcvseq`
advances over it. -/
structure ReceiveLaw (seg : TcpSegment) (w w' : UipTcp) : Prop where
  outOfOrder : seg.seqno ≠ w.conn.rcvseq → w'.conn.rcvseq = w.conn.rcvseq
  inOrder : w'.conn.rcvseq = w.conn.rcvseq ∨
    w'.conn.rcvseq.toNat =
      (w.conn.rcvseq.toNat + seg.taken w.conn.tcpstate w'.conn.tcpstate) % 2 ^ 32
  signalled : w.conn.tcpstate = .established →
    (w'.newdata = [seg.payloadLen] ↔ 0 < seg.payloadLen ∧
      w'.conn.rcvseq.toNat =
        (w.conn.rcvseq.toNat + seg.taken w.conn.tcpstate w'.conn.tcpstate) % 2 ^ 32)
  silent : w'.newdata = [] ∨ w.conn.tcpstate = .established ∧ w'.newdata = [seg.payloadLen]

theorem TcpSegment.payloadLen_lt (seg : TcpSegment) : seg.payloadLen < 65536 := by
  have := seg.ipLen.toNat_lt
  unfold payloadLen
  omega

theorem receiveLaw_of_taken {w' : UipTcp}
    (htaken : Taken seg w.conn.rcvseq w.conn.tcpstate w') : ReceiveLaw seg w w' := by
  cases htaken with
  | refused hrcvseq hfin hnew =>
    refine ⟨fun _ => hrcvseq, .inl hrcvseq, fun _ => ?_, .inl hnew⟩
    rw [hnew, hrcvseq, taken, if_neg hfin]
    refine ⟨fun h => absurd h (by simp), fun hdata => ?_⟩
    have hlen := seg.payloadLen_lt
    omega
  | data hin hpos hrcvseq hfin hnew =>
    have hadvanced : w'.conn.rcvseq.toNat =
        (w.conn.rcvseq.toNat + seg.taken w.conn.tcpstate w'.conn.tcpstate) % 2 ^ 32 := by
      rw [hrcvseq, taken, if_neg hfin, Nat.add_zero]
    refine ⟨fun hne => absurd hin hne, .inr hadvanced, fun hstate => ?_, ?_⟩
    · rw [if_pos hstate] at hnew
      exact ⟨fun _ => ⟨hpos, hadvanced⟩, fun _ => hnew⟩
    · by_cases hstate : w.conn.tcpstate = .established
      · exact .inr ⟨hstate, hnew.trans (if_pos hstate)⟩
      · exact .inl (hnew.trans (if_neg hstate))
  | fin hin hfin hrcvseq hnew =>
    have hadvanced : w'.conn.rcvseq.toNat =
        (w.conn.rcvseq.toNat + seg.taken w.conn.tcpstate w'.conn.tcpstate) % 2 ^ 32 := by
      rw [hrcvseq, taken, if_pos hfin]
    refine ⟨fun hne => absurd hin hne, .inr hadvanced, fun hstate => ?_, ?_⟩
    · by_cases hpos : 0 < seg.payloadLen
      · rw [if_pos ⟨hstate, hpos⟩] at hnew
        exact ⟨fun _ => ⟨hpos, hadvanced⟩, fun _ => hnew⟩
      · rw [if_neg (fun h => hpos h.2)] at hnew
        exact ⟨fun h => absurd (hnew.symm.trans h) (by simp), fun h => absurd h.1 hpos⟩
    · by_cases hboth : w.conn.tcpstate = .established ∧ 0 < seg.payloadLen
      · exact .inr ⟨hboth.1, hnew.trans (if_pos hboth)⟩
      · exact .inl (hnew.trans (if_neg hboth))

end Segment

/-! ### Runs -/

/-- A connection and what it has received so far. -/
structure Reception where
  tcp : UipTcp
  pos : ℕ
  signals : List (ℕ × ℕ)

namespace Reception

def start (w : UipTcp) : Reception :=
  ⟨w, 0, []⟩

/-- How far a sequence number is ahead of another one, modulo `2 ^ 32`. -/
def ahead (s r : SeqBytes) : ℕ :=
  (uipTcpgetsequence s - uipTcpgetsequence r).toNat

/-- A segment arrives. The payload begins where its own sequence number says. -/
def receive (cfg : TcpConfig) (list : List UipCallback) (seg : TcpSegment) (t : Reception) :
    Reception :=
  let w := uipTcpinput cfg list seg t.tcp
  { tcp := w
    pos := t.pos + ahead w.conn.rcvseq t.tcp.conn.rcvseq
    signals := t.signals ++ w.newdata.map fun n => (t.pos + ahead seg.seqno t.tcp.conn.rcvseq, n) }

/-- A step of a run: a segment arrives at a synchronized connection, or something else happens,
which does not concern `rcvseq`. -/
inductive Step (cfg : TcpConfig) : Reception → Reception → Prop
  | segment (list : List UipCallback) (seg : TcpSegment) (t : Reception) (hplain : seg.Plain)
      (hsync : t.tcp.conn.tcpstate.Synchronized) : Step cfg t (t.receive cfg list seg)
  | elsewhere (w : UipTcp) (t : Reception) (hrcvseq : w.conn.rcvseq = t.tcp.conn.rcvseq) :
      Step cfg t { t with tcp := w }

/-- The positions in the stream of the payload bytes that have been signalled, as they have been
signalled. -/
def positions (t : Reception) : List ℕ :=
  t.signals.flatMap fun signal => List.range' signal.1 signal.2

/-- What holds of a run: the signalled positions increase, and lie before the one that is expected
next, which is what `rcvseq` stands for. -/
structure Ordered (r : SeqBytes) (t : Reception) : Prop where
  increasing : t.positions.Pairwise (· < ·)
  before : ∀ p ∈ t.positions, p < t.pos
  rcvseq : t.tcp.conn.rcvseq.toNat = (r.toNat + t.pos) % 2 ^ 32

theorem ordered_start (w : UipTcp) : Ordered w.conn.rcvseq (start w) where
  increasing := by simp [positions, start]
  before := by simp [positions, start]
  rcvseq := by
    rw [start, Nat.add_zero, Nat.mod_eq_of_lt w.conn.rcvseq.toNat_lt]

theorem ahead_self (r : SeqBytes) : ahead r r = 0 := by
  simp [ahead]

theorem ahead_of_add {s r : SeqBytes} {n : ℕ} (h : s.toNat = (r.toNat + n) % 2 ^ 32)
    (hn : n < 2 ^ 32) : ahead s r = n := by
  have hr := r.toNat_lt
  rw [ahead, UInt32.toNat_sub, toNat_uipTcpgetsequence, toNat_uipTcpgetsequence, h]
  omega

/-- A payload of length `m` at the position that is expected next comes behind all others, and
`rcvseq` advances by `n` over it. -/
theorem Ordered.advance {r : SeqBytes} {t t' : Reception} {m n : ℕ} (h : Ordered r t)
    (hle : m ≤ n) (hpos : t'.pos = t.pos + n)
    (hpositions : t'.positions = t.positions ++ List.range' t.pos m)
    (hrcvseq : t'.tcp.conn.rcvseq.toNat = (t.tcp.conn.rcvseq.toNat + n) % 2 ^ 32) :
    Ordered r t' := by
  refine ⟨?_, ?_, ?_⟩
  · rw [hpositions]
    refine List.pairwise_append.mpr ⟨h.increasing, List.pairwise_lt_range', fun p hp q hq => ?_⟩
    have hlt := h.before p hp
    have hge := (List.mem_range'_1.mp hq).1
    omega
  · rw [hpositions, hpos]
    intro p hp
    rcases List.mem_append.mp hp with hp | hp
    · have hlt := h.before p hp
      omega
    · have hlt := (List.mem_range'_1.mp hp).2
      omega
  · rw [hrcvseq, hpos, h.rcvseq]
    omega

section Receive

variable {cfg : TcpConfig} {list : List UipCallback} {seg : TcpSegment} {r : SeqBytes}
  {t : Reception}

theorem positions_receive_of_nil (hnew : (uipTcpinput cfg list seg t.tcp).newdata = []) :
    (t.receive cfg list seg).positions = t.positions := by
  simp [positions, receive, hnew]

theorem positions_receive_of_signal {n : ℕ} (hin : seg.seqno = t.tcp.conn.rcvseq)
    (hnew : (uipTcpinput cfg list seg t.tcp).newdata = [n]) :
    (t.receive cfg list seg).positions = t.positions ++ List.range' t.pos n := by
  simp [positions, receive, hnew, hin, ahead_self]

/-- A segment keeps the order. -/
theorem Ordered.receive (h : Ordered r t) (hplain : seg.Plain)
    (hsync : t.tcp.conn.tcpstate.Synchronized) : Ordered r (t.receive cfg list seg) := by
  have hlen := seg.payloadLen_lt
  -- `rcvseq` advances by `n`, and all of the payload is signalled or nothing
  have hadvance {n : ℕ} (hin : seg.seqno = t.tcp.conn.rcvseq) (hle : seg.payloadLen ≤ n)
      (hn : n < 2 ^ 32)
      (hrcvseq : (uipTcpinput cfg list seg t.tcp).conn.rcvseq.toNat =
        (t.tcp.conn.rcvseq.toNat + n) % 2 ^ 32)
      (hnew : (uipTcpinput cfg list seg t.tcp).newdata = [] ∨
        (uipTcpinput cfg list seg t.tcp).newdata = [seg.payloadLen]) :
      Ordered r (t.receive cfg list seg) := by
    have hpos : (t.receive cfg list seg).pos = t.pos + n :=
      congrArg (t.pos + ·) (ahead_of_add hrcvseq hn)
    rcases hnew with hnew | hnew
    · refine h.advance (Nat.zero_le n) hpos ?_ hrcvseq
      simpa using positions_receive_of_nil hnew
    · exact h.advance hle hpos (positions_receive_of_signal hin hnew) hrcvseq
  have hlaw := receiveLaw_of_taken (taken_uipTcpinput cfg list hplain hsync)
  have hnew := hlaw.silent.imp_right And.right
  cases taken_uipTcpinput cfg list hplain hsync with
  | refused hrcvseq hfin hnone =>
    have hpos : (t.receive cfg list seg).pos = t.pos := by
      simp [Reception.receive, hrcvseq, ahead_self]
    refine ⟨?_, ?_, ?_⟩
    · rw [positions_receive_of_nil hnone]
      exact h.increasing
    · rw [positions_receive_of_nil hnone, hpos]
      exact h.before
    · rw [hpos, ← h.rcvseq]
      exact congrArg SeqBytes.toNat hrcvseq
  | data hin hpos hrcvseq hfin _ => exact hadvance hin (Nat.le_refl _) (by omega) hrcvseq hnew
  | fin hin hfin hrcvseq _ => exact hadvance hin (Nat.le_succ _) (by omega) hrcvseq hnew

end Receive

theorem Ordered.step {cfg : TcpConfig} {r : SeqBytes} {t t' : Reception} (h : Ordered r t)
    (hstep : Step cfg t t') : Ordered r t' := by
  cases hstep with
  | segment list seg _ hplain hsync => exact h.receive hplain hsync
  | elsewhere w _ hrcvseq => exact ⟨h.increasing, h.before, hrcvseq ▸ h.rcvseq⟩

theorem ordered_of_run {cfg : TcpConfig} {t : Reception}
    (hrun : Relation.ReflTransGen (Step cfg) (start w) t) : Ordered w.conn.rcvseq t := by
  induction hrun with
  | refl => exact ordered_start w
  | tail _ hstep ih => exact ih.step hstep

end Reception

/-- **The receive discipline.** In every run, each segment that arrives next obeys
`NuttX.ReceiveLaw`, and the payload bytes that have been signalled so far have been signalled in
order, each position at most once, up to the one that `rcvseq` stands for. -/
theorem reception_discipline {cfg : TcpConfig} {w : UipTcp} {t : Reception}
    (hrun : Relation.ReflTransGen (Reception.Step cfg) (Reception.start w) t) :
    (∀ list seg, seg.Plain → t.tcp.conn.tcpstate.Synchronized →
      ReceiveLaw seg t.tcp (uipTcpinput cfg list seg t.tcp)) ∧
      t.positions.Pairwise (· < ·) ∧ (∀ p ∈ t.positions, p < t.pos) ∧
      t.tcp.conn.rcvseq.toNat = (w.conn.rcvseq.toNat + t.pos) % 2 ^ 32 := by
  obtain ⟨hincreasing, hbefore, hrcvseq⟩ := Reception.ordered_of_run hrun
  exact ⟨fun list seg hplain hsync => receiveLaw_of_taken (taken_uipTcpinput cfg list hplain hsync),
    hincreasing, hbefore, hrcvseq⟩

theorem reception_discipline_three :
    let t := (Reception.start (sampleTcp .established)).receive ethernetConfig [] (sampleSegment 3)
    t.positions = [0, 1, 2] ∧ t.positions.Pairwise (· < ·) := by
  have hplain : (sampleSegment 3).Plain := ⟨by decide, by decide, by decide, by decide⟩
  have hstep : Reception.Step ethernetConfig (Reception.start (sampleTcp .established)) _ :=
    .segment [] (sampleSegment 3) _ hplain trivial
  exact ⟨by decide, (reception_discipline (.single hstep)).2.1⟩

end NuttX
