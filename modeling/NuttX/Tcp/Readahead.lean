import NuttX.Tcp.Receive

/-!
# Data that nobody is waiting for

When no socket is receiving, the payload of a segment goes to the read-ahead buffers of the
connection (`uip_dataevent`): behind the bytes of the last buffer, and into one more buffer, if
one is free. `uip_tcpinput` has advanced `rcvseq` by then, so that a payload that finds no room is
lost: the ACK is suppressed, but the next segment that is sent acknowledges the payload all the
same, and a retransmission of it is no longer in order.

`NuttX.ReadaheadLaw` asks that a payload is kept and acknowledged, or neither;
`NuttX.uipTcpinput_readaheadLaw_iff` says for which segments it is. Besides the full pool there
are two more ways to break it. The payload is looked for behind a header of 20 bytes, whatever the
header says, so that TCP options are taken for data; and urgent data are skipped without being
acknowledged.
-/

namespace NuttX

open TcpSegment

/-! ### Filling the buffers -/

theorem uipReadahead_fst (bufsize : ℕ) (readahead buf : List UInt8) :
    (uipReadahead bufsize readahead buf).1 =
      readahead ++ buf.take (uipReadahead bufsize readahead buf).2 := rfl

theorem uipReadahead_of_le (bufsize : ℕ) (readahead buf : List UInt8)
    (h : buf.length + readahead.length ≤ bufsize) :
    (uipReadahead bufsize readahead buf).1 = readahead ++ buf := by
  unfold uipReadahead
  dsimp only
  split_ifs with hboth hless
  · omega
  · rw [List.take_length]
  · have hnil : buf.length = 0 := by omega
    simp [List.length_eq_zero_iff.mp hnil]

/-- **The bytes of the buffers**, when the last one has room, or when there is a new one into
which a whole payload fits. -/
theorem flatten_addReadahead {bufsize : ℕ} {readahead : List (List UInt8)} {fresh : Bool}
    {buf : List UInt8} (hroom : fresh = true ∨ lastHasRoom bufsize readahead buf.length = true)
    (hle : buf.length ≤ bufsize) :
    (addReadahead bufsize readahead fresh buf).flatten = readahead.flatten ++ buf := by
  unfold addReadahead lastHasRoom at *
  cases hlast : readahead.getLast? with
  | none =>
    rw [hlast] at hroom
    have hfresh : fresh = true := by simpa using hroom
    have hnew := uipReadahead_of_le bufsize [] buf (by simpa)
    simp [hfresh, hnew]
  | some readahead1 =>
    obtain ⟨front, rfl⟩ : ∃ front, readahead = front ++ [readahead1] :=
      List.getLast?_eq_some_iff.mp hlast
    cases hfresh : fresh with
    | false =>
      have hfits : buf.length + readahead1.length < bufsize := by simpa [hfresh] using hroom
      have hnew := uipReadahead_of_le bufsize readahead1 buf (by omega)
      simp [hnew]
    | true =>
      have hrest := uipReadahead_of_le bufsize []
        (buf.drop (uipReadahead bufsize readahead1 buf).2) (by simp; omega)
      simp only [if_true, List.dropLast_concat]
      rw [hrest, uipReadahead_fst]
      simp

/-! ### Handlers that do not receive -/

/-- A handler that is not for data: it leaves `UIP_NEWDATA` as it is, and the data where they are.
-/
structure UipCallback.PassesData (cb : UipCallback) : Prop where
  notFor : cb.flags &&& uipNewdata = 0
  flags : ∀ event ∈ cb.event, ∀ w f, (event w f).flags &&& uipNewdata = f &&& uipNewdata
  dLen : ∀ event ∈ cb.event, ∀ w f, (event w f).dLen = w.dLen

/-- No receive callback is installed. -/
def NoReceiver (list : List UipCallback) : Prop :=
  ∀ cb ∈ list, cb.PassesData

/-- The data are still there when all handlers have been called. -/
theorem uipCallbackexecute_of_noReceiver {list : List UipCallback} (h : NoReceiver list)
    (flags : UInt16) (w : UipTcp) :
    (uipCallbackexecute list flags w).1 &&& uipNewdata = flags &&& uipNewdata ∧
      (uipCallbackexecute list flags w).2.dLen = w.dLen := by
  induction list generalizing flags w with
  | nil => exact ⟨rfl, rfl⟩
  | cons cb list ih =>
    have hcb := h cb List.mem_cons_self
    have ih' := ih (fun c hc => h c (List.mem_cons_of_mem _ hc))
    rw [uipCallbackexecute]
    by_cases hflags : flags = 0
    · rw [if_pos hflags]
      exact ⟨rfl, rfl⟩
    rw [if_neg hflags]
    cases hevent : cb.event with
    | none => exact ih' flags w
    | some event =>
      have hmem : event ∈ cb.event := hevent
      by_cases hfor : flags &&& cb.flags ≠ 0
      · simp only [if_pos hfor]
        obtain ⟨hnew, hlen⟩ := ih' (event w flags).flags (w.answer (event w flags))
        exact ⟨hnew.trans (hcb.flags event hmem w flags), hlen.trans (hcb.dLen event hmem w flags)⟩
      · simp only [if_neg hfor]
        exact ih' flags w

/-! ### Events -/

def hasRoom (cfg : TcpConfig) (w : UipTcp) (n : ℕ) : Bool :=
  lastHasRoom cfg.readaheadBufsize w.conn.readahead n || 0 < w.freebuffers

section Events

variable {cfg : TcpConfig} {list : List UipCallback} {seg : TcpSegment} {flags : UInt16}
  {w : UipTcp}

theorem uipDataevent_readahead (hpos : 0 < w.dLen) (hle : w.dLen.toNat ≤ cfg.readaheadBufsize) :
    (uipDataevent cfg seg flags w).2.conn.readahead.flatten =
      w.conn.readahead.flatten ++
        if hasRoom cfg w w.dLen.toNat then seg.bytes w.dAppdata w.dLen.toNat else [] := by
  unfold uipDataevent
  rw [if_pos hpos]
  by_cases hlast : lastHasRoom cfg.readaheadBufsize w.conn.readahead w.dLen.toNat = true
  · rw [if_pos hlast, if_pos (by simp [hasRoom, hlast])]
    exact flatten_addReadahead (.inr (by simpa using hlast)) (by simpa using hle)
  rw [if_neg hlast]
  by_cases hfree : 0 < w.freebuffers
  · rw [if_pos hfree, if_pos (by simp [hasRoom, hfree])]
    exact flatten_addReadahead (.inl rfl) (by simpa using hle)
  · rw [if_neg hfree, if_neg (by simp [hasRoom, hlast, hfree]), List.append_nil]

theorem UipTcp.readahead_of_kept {w w' : UipTcp} (h : w'.kept = w.kept) :
    w'.conn.readahead = w.conn.readahead ∧ w'.dAppdata = w.dAppdata ∧
      w'.freebuffers = w.freebuffers := by
  simp only [UipTcp.kept, Prod.mk.injEq, UipConn.mk.injEq] at h
  obtain ⟨⟨-, -, -, -, -, -, -, -, -, -, -, -, hr⟩, hd, hf, -, -⟩ := h
  exact ⟨hr, hd, hf⟩

theorem uipTcpcallback_newdata (h : NoReceiver list) (hnew : flags &&& uipNewdata ≠ 0)
    (hpos : 0 < w.dLen) (hle : w.dLen.toNat ≤ cfg.readaheadBufsize) :
    (uipTcpcallback cfg list seg flags w).2.conn.readahead.flatten =
      w.conn.readahead.flatten ++
        if hasRoom cfg w w.dLen.toNat then seg.bytes w.dAppdata w.dLen.toNat else [] := by
  obtain ⟨hflags, hlen⟩ := uipCallbackexecute_of_noReceiver h flags
    { w with calls := w.calls ++ [⟨flags, w.dLen, w.dAppdata⟩] }
  obtain ⟨hreadahead, happdata, hfree⟩ := UipTcp.readahead_of_kept
    (uipCallbackexecute_kept list flags { w with calls := w.calls ++ [⟨flags, w.dLen, w.dAppdata⟩] })
  unfold uipTcpcallback
  dsimp only
  rw [if_pos (by rw [hflags]; exact hnew),
    uipDataevent_readahead (by rw [hlen]; exact hpos) (by rw [hlen]; exact hle)]
  rw [hasRoom, hlen, hreadahead, happdata, hfree]
  rfl

theorem uipTcpcallback_other (h : NoReceiver list) (hold : flags &&& uipNewdata = 0) :
    (uipTcpcallback cfg list seg flags w).2.conn.readahead = w.conn.readahead := by
  obtain ⟨hflags, -⟩ := uipCallbackexecute_of_noReceiver h flags
    { w with calls := w.calls ++ [⟨flags, w.dLen, w.dAppdata⟩] }
  unfold uipTcpcallback
  dsimp only
  rw [if_neg (by rw [hflags]; exact not_not.mpr hold)]
  exact (UipTcp.readahead_of_kept (uipCallbackexecute_kept list flags _)).1

end Events

/-! ### The law -/

def TcpSegment.payload (seg : TcpSegment) : List UInt8 :=
  seg.bytes (seg.hdrLen - 20) seg.payloadLen

/-- The sequence number of a FIN. -/
def TcpSegment.finLen (seg : TcpSegment) : ℕ :=
  if seg.flags &&& tcpFin ≠ 0 then 1 else 0

/-- **No data are acknowledged and thrown away.** The payload is appended to the read-ahead
buffers and `rcvseq` advances over it, and over the FIN that comes with it; or nothing is appended
and `rcvseq` stays. -/
def ReadaheadLaw (cfg : TcpConfig) (list : List UipCallback) (seg : TcpSegment) (w : UipTcp) :
    Prop :=
  let w' := uipTcpinput cfg list seg w
  w'.conn.readahead.flatten = w.conn.readahead.flatten ++ seg.payload ∧
      w'.conn.rcvseq.toNat = (w.conn.rcvseq.toNat + (seg.payloadLen + seg.finLen)) % 2 ^ 32 ∨
    w'.conn.readahead.flatten = w.conn.readahead.flatten ∧ w'.conn.rcvseq = w.conn.rcvseq

/-- How many bytes at the beginning are urgent, and are skipped. -/
def TcpSegment.urgentLen (seg : TcpSegment) : UInt16 :=
  if seg.flags &&& tcpUrg ≠ 0 then seg.urgp else 0

/-- The segment is not accepted: it resets the connection, or reception is stopped, or it has a FIN
while our own data are outstanding, or all of it is urgent. -/
def Refuses (seg : TcpSegment) (conn : UipConn) : Prop :=
  seg.flags &&& tcpRst ≠ 0 ∨ seg.flags &&& tcpCtl = tcpSyn ∨ conn.stopped = true ∨
    (seg.flags &&& tcpFin ≠ 0 ∧ 0 < (ackStep seg conn).2.unacked) ∨
    (seg.flags &&& tcpFin = 0 ∧ seg.urgentLen.toNat = seg.payloadLen)

/-- The segment can be kept: nothing of it is skipped, there is room, and the bytes behind the
first 20 of the TCP header are the payload. -/
def CanKeep (cfg : TcpConfig) (seg : TcpSegment) (w : UipTcp) : Prop :=
  (seg.flags &&& tcpFin ≠ 0 ∨ seg.urgentLen = 0) ∧
    hasRoom cfg w seg.payloadLen = true ∧ seg.bytes 0 seg.payloadLen = seg.payload

section Law

variable {cfg : TcpConfig} {list : List UipCallback} {seg : TcpSegment} {w : UipTcp}

/-- An accepted segment. -/
theorem readaheadLaw_iff_of_accepted (hdata : 0 < seg.payloadLen)
    (hrcvseq : (uipTcpinput cfg list seg w).conn.rcvseq.toNat =
      (w.conn.rcvseq.toNat + (seg.payloadLen + seg.finLen)) % 2 ^ 32)
    (hreadahead : (uipTcpinput cfg list seg w).conn.readahead.flatten =
      w.conn.readahead.flatten ++
        if hasRoom cfg w seg.payloadLen then seg.bytes 0 seg.payloadLen else []) :
    ReadaheadLaw cfg list seg w ↔
      hasRoom cfg w seg.payloadLen = true ∧ seg.bytes 0 seg.payloadLen = seg.payload := by
  have hmoved : (uipTcpinput cfg list seg w).conn.rcvseq ≠ w.conn.rcvseq := by
    intro h
    have hlen := seg.payloadLen_lt
    have hfin : seg.finLen ≤ 1 := by
      unfold finLen
      split <;> omega
    rw [h] at hrcvseq
    omega
  unfold ReadaheadLaw
  dsimp only
  rw [hreadahead]
  constructor
  · rintro (⟨hkept, -⟩ | ⟨-, hstays⟩)
    · have hsame := List.append_cancel_left hkept
      by_cases hroom : hasRoom cfg w seg.payloadLen = true
      · rw [if_pos hroom] at hsame
        exact ⟨hroom, hsame⟩
      -- nothing has been kept of a payload that is not empty
      rw [if_neg hroom] at hsame
      have hlen := congrArg List.length hsame
      simp only [List.length_nil, payload, length_bytes] at hlen
      omega
    · exact absurd hstays hmoved
  · rintro ⟨hroom, hsame⟩
    rw [if_pos hroom, hsame]
    exact .inl ⟨rfl, hrcvseq⟩

theorem payloadLen_le (hfits : cfg.llhLen + seg.ipLen.toNat ≤ cfg.bufsize)
    (hhdr : 20 ≤ seg.hdrLen) : seg.payloadLen ≤ cfg.readaheadBufsize := by
  have hmss := cfg.mss_le
  unfold payloadLen
  omega

end Law

/-! ### Established -/

section Established

variable {cfg : TcpConfig} {list : List UipCallback} {seg : TcpSegment} {flags : UInt16}
  {w : UipTcp}

theorem finEstablished_accepted (hlist : NoReceiver list) (hflags : flags = uipAckdata ∨ flags = 0)
    (hunacked : ¬0 < w.conn.unacked) (hpos : 0 < w.dLen)
    (hle : w.dLen.toNat ≤ cfg.readaheadBufsize) (hlt : w.dLen.toNat + 1 < 65536) :
    (finEstablished cfg list seg flags w).conn.rcvseq.toNat =
        (w.conn.rcvseq.toNat + (w.dLen.toNat + 1)) % 2 ^ 32 ∧
      (finEstablished cfg list seg flags w).conn.readahead.flatten =
        w.conn.readahead.flatten ++
          if hasRoom cfg w w.dLen.toNat then seg.bytes w.dAppdata w.dLen.toNat else [] := by
  have hone : (w.dLen + 1).toNat = w.dLen.toNat + 1 := by
    rw [UInt16.toNat_add, UInt16.toNat_one]
    omega
  have hnew : (flags ||| uipClose ||| uipNewdata) &&& uipNewdata ≠ 0 := by
    rcases hflags with hflags | hflags <;> rw [hflags] <;> decide
  unfold finEstablished
  rw [if_neg hunacked]
  dsimp only
  rw [UipTcp.incrRcvseq_dLen, if_pos hpos]
  constructor
  · simp only [uipTcpsend_conn, UipTcp.setState_rcvseq, uipTcpcallback_rcvseq,
      UipTcp.incrRcvseq_rcvseq]
    rw [toNat_uipIncr32, hone]
  · exact uipTcpcallback_newdata hlist hnew hpos hle

theorem callbackAndSend_readahead :
    (callbackAndSend cfg list seg flags w).conn.readahead =
      (uipTcpcallback cfg list seg flags { w with dSndlen := 0 }).2.conn.readahead := by
  simp [callbackAndSend]

theorem dataEstablished_accepted (hlist : NoReceiver list)
    (hflags : flags = uipAckdata ∨ flags = 0) (hstopped : w.conn.stopped = false)
    (hpos : 0 < w.dLen) :
    (dataEstablished cfg list seg flags w).conn.rcvseq.toNat =
        (w.conn.rcvseq.toNat + w.dLen.toNat) % 2 ^ 32 ∧
      (w.dLen.toNat ≤ cfg.readaheadBufsize →
        (dataEstablished cfg list seg flags w).conn.readahead.flatten =
          w.conn.readahead.flatten ++
            if hasRoom cfg w w.dLen.toNat then seg.bytes w.dAppdata w.dLen.toNat else []) := by
  have hnew : (flags ||| uipNewdata) &&& uipNewdata ≠ 0 := by
    rcases hflags with hflags | hflags <;> rw [hflags] <;> decide
  have hany : (flags ||| uipNewdata) &&& (uipNewdata ||| uipAckdata) ≠ 0 := by
    rcases hflags with hflags | hflags <;> rw [hflags] <;> decide
  unfold dataEstablished
  simp only [if_pos (And.intro hpos hstopped)]
  rw [if_pos hany]
  refine ⟨?_, fun hle => ?_⟩
  · rw [callbackAndSend_rcvseq]
    exact toNat_uipIncr32 _ _
  · rw [callbackAndSend_readahead]
    exact uipTcpcallback_newdata hlist hnew hpos hle

theorem dataEstablished_refused (hlist : NoReceiver list)
    (hflags : flags = uipAckdata ∨ flags = 0) (hno : ¬(0 < w.dLen ∧ w.conn.stopped = false)) :
    (dataEstablished cfg list seg flags w).conn.rcvseq = w.conn.rcvseq ∧
      (dataEstablished cfg list seg flags w).conn.readahead = w.conn.readahead := by
  have hold : flags &&& uipNewdata = 0 := by
    rcases hflags with hflags | hflags <;> rw [hflags] <;> decide
  unfold dataEstablished
  simp only [if_neg hno]
  split
  · refine ⟨callbackAndSend_rcvseq, ?_⟩
    rw [callbackAndSend_readahead]
    exact uipTcpcallback_other hlist hold
  · exact ⟨rfl, rfl⟩

theorem inEstablished_of_not_fin (h : ¬(seg.flags &&& tcpFin ≠ 0 ∧ w.conn.stopped = false)) :
    inEstablished cfg list seg flags w =
      dataEstablished cfg list seg flags
        { w with
          dAppdata := w.dAppdata + seg.urgentLen.toNat
          dLen := w.dLen - seg.urgentLen } := by
  unfold inEstablished urgentLen
  rw [if_neg h]
  split
  · rfl
  · simp

theorem inEstablished_refused (cfg : TcpConfig) (seg : TcpSegment) (w : UipTcp)
    (hlist : NoReceiver list) (hflags : flags = uipAckdata ∨ flags = 0)
    (h : w.conn.stopped = true ∨ seg.flags &&& tcpFin ≠ 0 ∧ 0 < w.conn.unacked ∨
      seg.flags &&& tcpFin = 0 ∧ seg.urgentLen = w.dLen) :
    (inEstablished cfg list seg flags w).conn.rcvseq = w.conn.rcvseq ∧
      (inEstablished cfg list seg flags w).conn.readahead = w.conn.readahead := by
  by_cases hfin : seg.flags &&& tcpFin ≠ 0 ∧ w.conn.stopped = false
  · have hunacked : 0 < w.conn.unacked := by
      rcases h with hstopped | ⟨-, hunacked⟩ | ⟨hno, -⟩
      · simp [hstopped] at hfin
      · exact hunacked
      · exact absurd hno hfin.1
    rw [inEstablished, if_pos hfin, finEstablished, if_pos hunacked]
    exact ⟨rfl, rfl⟩
  · rw [inEstablished_of_not_fin hfin]
    refine dataEstablished_refused hlist hflags ?_
    rintro ⟨hpos, hgoes⟩
    rcases h with hstopped | ⟨hyes, -⟩ | ⟨-, hall⟩
    · simp [hstopped] at hgoes
    · exact hfin ⟨hyes, hgoes⟩
    · simp [hall] at hpos

theorem inEstablished_accepted (cfg : TcpConfig) (seg : TcpSegment) (w : UipTcp)
    (hlist : NoReceiver list) (hflags : flags = uipAckdata ∨ flags = 0)
    (hstopped : w.conn.stopped = false) (hpos : 0 < w.dLen)
    (hle : w.dLen.toNat ≤ cfg.readaheadBufsize) (hlt : w.dLen.toNat + 1 < 65536)
    (hunacked : seg.flags &&& tcpFin ≠ 0 → ¬0 < w.conn.unacked)
    (hurgent : seg.flags &&& tcpFin ≠ 0 ∨ seg.urgentLen = 0) :
    (inEstablished cfg list seg flags w).conn.rcvseq.toNat =
        (w.conn.rcvseq.toNat + (w.dLen.toNat + seg.finLen)) % 2 ^ 32 ∧
      (inEstablished cfg list seg flags w).conn.readahead.flatten =
        w.conn.readahead.flatten ++
          if hasRoom cfg w w.dLen.toNat then seg.bytes w.dAppdata w.dLen.toNat else [] := by
  unfold finLen
  by_cases hfin : seg.flags &&& tcpFin ≠ 0
  · rw [inEstablished, if_pos ⟨hfin, hstopped⟩, if_pos hfin]
    exact finEstablished_accepted hlist hflags (hunacked hfin) hpos hle hlt
  have hzero := hurgent.resolve_left hfin
  rw [inEstablished_of_not_fin (fun h => hfin h.1), if_neg hfin, hzero]
  have hsame : { w with
      dAppdata := w.dAppdata + (0 : UInt16).toNat
      dLen := w.dLen - 0 } = w := by simp
  rw [hsame]
  exact (dataEstablished_accepted hlist hflags hstopped hpos).imp_right (fun h => h hle)

theorem inEstablished_urgent (cfg : TcpConfig) (seg : TcpSegment) (w : UipTcp)
    (hlist : NoReceiver list) (hflags : flags = uipAckdata ∨ flags = 0)
    (hstopped : w.conn.stopped = false) (hfin : seg.flags &&& tcpFin = 0)
    (hall : seg.urgentLen ≠ w.dLen) :
    (inEstablished cfg list seg flags w).conn.rcvseq.toNat =
      (w.conn.rcvseq.toNat + (w.dLen - seg.urgentLen).toNat) % 2 ^ 32 := by
  have hpos : 0 < w.dLen - seg.urgentLen := by
    have hne : seg.urgentLen.toNat ≠ w.dLen.toNat := fun h => hall (UInt16.toNat_inj.mp h)
    have hu := seg.urgentLen.toNat_lt
    have hd := w.dLen.toNat_lt
    rw [UInt16.lt_iff_toNat_lt, UInt16.toNat_zero, UInt16.toNat_sub]
    omega
  rw [inEstablished_of_not_fin (fun h => h.1 hfin)]
  refine (dataEstablished_accepted hlist hflags ?_ ?_).1
  · exact hstopped
  · exact hpos

end Established

/-! ### For which segments the law holds -/

section Main

variable {cfg : TcpConfig} {list : List UipCallback} {seg : TcpSegment} {w : UipTcp}

/-- The connection when the state looks at a segment. -/
def UipTcp.acked (w : UipTcp) (seg : TcpSegment) : UipTcp :=
  { w.arrived seg with conn := (ackStep seg w.conn).2 }

theorem uipTcpinput_established (cfg : TcpConfig) (list : List UipCallback)
    (hstate : w.conn.tcpstate = .established) (hrst : seg.flags &&& tcpRst = 0)
    (hsyn : ¬seg.flags &&& tcpCtl = tcpSyn) (hin : seg.seqno = w.conn.rcvseq) :
    uipTcpinput cfg list seg w =
      inEstablished cfg list seg (ackStep seg w.conn).1 (w.acked seg) := by
  rw [uipTcpinput_eq_dispatch hrst hsyn (.inl hin), tcpDispatch]
  simp only [ackStep_tcpstate, hstate]
  rfl

theorem uipTcpinput_reset (cfg : TcpConfig) (hlist : NoReceiver list)
    (hstate : w.conn.tcpstate = .established)
    (h : seg.flags &&& tcpRst ≠ 0 ∨ seg.flags &&& tcpCtl = tcpSyn) :
    (uipTcpinput cfg list seg w).conn.rcvseq = w.conn.rcvseq ∧
      (uipTcpinput cfg list seg w).conn.readahead = w.conn.readahead := by
  have hrcvd : w.conn.tcpstate ≠ .synRcvd := by rw [hstate]; decide
  unfold uipTcpinput
  by_cases hsyn : seg.flags &&& tcpCtl = tcpSyn
  · rw [if_pos ⟨hrcvd, hsyn⟩]
    split <;> exact ⟨rfl, rfl⟩
  · have hrst := h.resolve_right hsyn
    rw [if_neg (fun hboth => hsyn hboth.2), tcpFound, if_pos hrst]
    exact ⟨by simp, uipTcpcallback_other hlist (by decide)⟩

section Reaches

/-! The segment is neither a SYN nor a RST. -/

variable (hlist : NoReceiver list) (hstate : w.conn.tcpstate = .established)
  (hin : seg.seqno = w.conn.rcvseq) (hip : seg.hdrLen + 20 ≤ seg.ipLen.toNat)
  (hrst : seg.flags &&& tcpRst = 0) (hsyn : ¬seg.flags &&& tcpCtl = tcpSyn)

include hlist hstate hin hip hrst hsyn

theorem readaheadLaw_of_refuses (h : Refuses seg w.conn) : ReadaheadLaw cfg list seg w := by
  have hsame := inEstablished_refused cfg seg (w.acked seg) hlist
    (ackStep_flags seg w.conn) (by
      rcases h with h | h | h | h | ⟨hfin, hall⟩
      · exact absurd hrst h
      · exact absurd h hsyn
      · exact .inl ((ackStep_stopped seg w.conn).trans h)
      · exact .inr (.inl h)
      · exact .inr (.inr ⟨hfin, UInt16.toNat_inj.mp (hall.trans (arrived_dLen w hip).symm)⟩))
  rw [← uipTcpinput_established cfg list hstate hrst hsyn hin] at hsame
  refine .inr ⟨?_, hsame.1.trans (ackStep_rcvseq seg w.conn)⟩
  rw [hsame.2.trans (ackStep_readahead seg w.conn)]

/-- A segment with urgent data, but not only urgent data, is acknowledged in part. -/
theorem not_readaheadLaw_of_urgent (hstopped : w.conn.stopped = false)
    (hfin : seg.flags &&& tcpFin = 0) (hsome : seg.urgentLen ≠ 0)
    (hall : seg.urgentLen.toNat ≠ seg.payloadLen) : ¬ReadaheadLaw cfg list seg w := by
  have hlen : (w.acked seg).dLen.toNat = seg.payloadLen := arrived_dLen w hip
  have hrcvseq : (w.acked seg).conn.rcvseq = w.conn.rcvseq := ackStep_rcvseq seg w.conn
  have hpart := inEstablished_urgent cfg seg (w.acked seg) hlist
    (ackStep_flags seg w.conn) ((ackStep_stopped seg w.conn).trans hstopped) hfin
    (fun h => hall (by rw [h, hlen]))
  rw [← uipTcpinput_established cfg list hstate hrst hsyn hin, UInt16.toNat_sub, hlen,
    hrcvseq] at hpart
  have hne : seg.urgentLen.toNat ≠ 0 := fun h => hsome (UInt16.toNat_inj.mp h)
  have hu := seg.urgentLen.toNat_lt
  have hl := seg.payloadLen_lt
  rintro (⟨-, hadvanced⟩ | ⟨-, hstays⟩)
  · rw [hpart, finLen, if_neg (not_not.mpr hfin)] at hadvanced
    omega
  · rw [hstays] at hpart
    omega

/-- A segment of which nothing is skipped is acknowledged, whether it is kept or not. -/
theorem readaheadLaw_iff_of_whole (hhdr : 20 ≤ seg.hdrLen)
    (hfits : cfg.llhLen + seg.ipLen.toNat ≤ cfg.bufsize) (hdata : 0 < seg.payloadLen)
    (hstopped : w.conn.stopped = false)
    (hunacked : seg.flags &&& tcpFin ≠ 0 → ¬0 < (ackStep seg w.conn).2.unacked)
    (hurgent : seg.flags &&& tcpFin ≠ 0 ∨ seg.urgentLen = 0) :
    ReadaheadLaw cfg list seg w ↔
      hasRoom cfg w seg.payloadLen = true ∧ seg.bytes 0 seg.payloadLen = seg.payload := by
  have hlen : (w.acked seg).dLen.toNat = seg.payloadLen := arrived_dLen w hip
  have hpos : 0 < (w.acked seg).dLen := by
    rw [UInt16.lt_iff_toNat_lt, UInt16.toNat_zero, hlen]
    exact hdata
  have hlt : (w.acked seg).dLen.toNat + 1 < 65536 := by
    have := seg.ipLen.toNat_lt
    rw [hlen, payloadLen]
    omega
  have hroom : hasRoom cfg (w.acked seg) seg.payloadLen = hasRoom cfg w seg.payloadLen := by
    unfold hasRoom UipTcp.acked
    rw [ackStep_readahead]
    rfl
  obtain ⟨hrcvseq, hreadahead⟩ := inEstablished_accepted cfg seg (w.acked seg) hlist
      (ackStep_flags seg w.conn)
    ((ackStep_stopped seg w.conn).trans hstopped) hpos
    (by rw [hlen]; exact payloadLen_le hfits hhdr) hlt hunacked hurgent
  rw [← uipTcpinput_established cfg list hstate hrst hsyn hin, hlen] at hrcvseq hreadahead
  rw [hroom] at hreadahead
  refine readaheadLaw_iff_of_accepted hdata ?_ ?_
  · rw [hrcvseq]
    exact congrArg (fun r : SeqBytes => (r.toNat + _) % 2 ^ 32) (ackStep_rcvseq seg w.conn)
  · rw [hreadahead]
    exact congrArg (fun l : List (List UInt8) => l.flatten ++ _) (ackStep_readahead seg w.conn)

end Reaches

/-- **When nobody is receiving, no data are acknowledged and thrown away** if and only if the
segment is refused, or can be kept. -/
theorem uipTcpinput_readaheadLaw_iff (hlist : NoReceiver list)
    (hstate : w.conn.tcpstate = .established) (hin : seg.seqno = w.conn.rcvseq)
    (hhdr : 20 ≤ seg.hdrLen) (hip : seg.hdrLen + 20 ≤ seg.ipLen.toNat)
    (hfits : cfg.llhLen + seg.ipLen.toNat ≤ cfg.bufsize) (hdata : 0 < seg.payloadLen) :
    ReadaheadLaw cfg list seg w ↔ Refuses seg w.conn ∨ CanKeep cfg seg w := by
  by_cases hreset : seg.flags &&& tcpRst ≠ 0 ∨ seg.flags &&& tcpCtl = tcpSyn
  · -- the connection is reset, or the segment is answered with a reset
    have hrefuses : Refuses seg w.conn := hreset.elim .inl (.inr ∘ .inl)
    have hsame := uipTcpinput_reset cfg hlist hstate hreset
    exact ⟨fun _ => .inl hrefuses, fun _ => .inr ⟨by rw [hsame.2], hsame.1⟩⟩
  rw [not_or, not_not] at hreset
  obtain ⟨hrst, hsyn⟩ := hreset
  by_cases hrefuses : Refuses seg w.conn
  · exact ⟨fun _ => .inl hrefuses,
      fun _ => readaheadLaw_of_refuses hlist hstate hin hip hrst hsyn hrefuses⟩
  rw [or_iff_right hrefuses]
  simp only [Refuses, not_or, not_and, Bool.not_eq_true] at hrefuses
  obtain ⟨-, -, hstopped, hunacked, hall⟩ := hrefuses
  by_cases hurgent : seg.flags &&& tcpFin ≠ 0 ∨ seg.urgentLen = 0
  · rw [readaheadLaw_iff_of_whole hlist hstate hin hip hrst hsyn hhdr hfits hdata hstopped
      hunacked hurgent]
    exact ⟨fun h => ⟨hurgent, h⟩, fun h => h.2⟩
  · refine ⟨fun law => absurd law ?_, fun h => absurd h.1 hurgent⟩
    rw [not_or, not_not] at hurgent
    exact not_readaheadLaw_of_urgent hlist hstate hin hip hrst hsyn hstopped hurgent.1
      hurgent.2 (hall hurgent.1)

end Main

theorem uipTcpinput_readaheadLaw_iff_free :
    CanKeep ethernetConfig (sampleSegment 3) { sampleTcp .established with freebuffers := 1 } ∧
      ReadaheadLaw ethernetConfig [] (sampleSegment 3)
        { sampleTcp .established with freebuffers := 1 } := by
  have hkeep : CanKeep ethernetConfig (sampleSegment 3)
      { sampleTcp .established with freebuffers := 1 } :=
    ⟨.inr (by decide), by decide, by decide⟩
  exact ⟨hkeep, (uipTcpinput_readaheadLaw_iff (fun _ h => absurd h (by simp)) rfl rfl (by decide)
    (by decide) (by decide) (by decide)).mpr (.inr hkeep)⟩

theorem uipTcpinput_loses_data :
    let w := uipTcpinput ethernetConfig [] (sampleSegment 3) (sampleTcp .established)
    w.conn.readahead = [] ∧ w.conn.rcvseq = ⟨0, 0, 0x13, 0x8b⟩ ∧
      ¬ReadaheadLaw ethernetConfig [] (sampleSegment 3) (sampleTcp .established) := by
  refine ⟨by decide, by decide, ?_⟩
  rintro (⟨hkept, -⟩ | ⟨-, hstays⟩)
  · exact absurd hkept (by decide)
  · exact absurd hstays (by decide)

end NuttX
