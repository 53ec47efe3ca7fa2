import NuttX.Tcp.Model

/-!
# What the functions under `uip_tcpinput` leave alone

No function that `uip_tcpinput` calls writes `rcvseq`, and none but `uip_tcpappsend` writes the
state of the connection. The handlers write `sndseq`, `unacked`, `d_len` and `d_sndlen` only,
which is `NuttX.uipCallbackexecute_kept`; the lemmas after it read the effect of each function on
one field, so that the proofs about `uip_tcpinput` never unfold a callee.
-/

namespace NuttX

variable {cfg : TcpConfig} {list : List UipCallback} {seg : TcpSegment} {flags : UInt16}
  {w : UipTcp}

/-! ### Assignments -/

namespace UipTcp

variable (s : TcpState)

@[simp]
theorem setState_tcpstate : (w.setState s).conn.tcpstate = s := rfl

@[simp]
theorem setState_rcvseq : (w.setState s).conn.rcvseq = w.conn.rcvseq := rfl

@[simp]
theorem setState_readahead :
    (w.setState s).conn.readahead = w.conn.readahead := rfl

@[simp]
theorem setState_dLen : (w.setState s).dLen = w.dLen := rfl

@[simp]
theorem setState_dAppdata : (w.setState s).dAppdata = w.dAppdata := rfl

@[simp]
theorem setState_calls : (w.setState s).calls = w.calls := rfl

@[simp]
theorem incrRcvseq_rcvseq (n : UInt16) :
    (w.incrRcvseq n).conn.rcvseq = uipIncr32 w.conn.rcvseq n := rfl

@[simp]
theorem incrRcvseq_tcpstate (n : UInt16) : (w.incrRcvseq n).conn.tcpstate = w.conn.tcpstate := rfl

@[simp]
theorem incrRcvseq_calls (n : UInt16) : (w.incrRcvseq n).calls = w.calls := rfl

@[simp]
theorem incrRcvseq_dLen (n : UInt16) : (w.incrRcvseq n).dLen = w.dLen := rfl

@[simp]
theorem incrRcvseq_dAppdata (n : UInt16) : (w.incrRcvseq n).dAppdata = w.dAppdata := rfl

theorem skipData_eq :
    w.skipData = { w with conn := { w.conn with rcvseq := w.skipData.conn.rcvseq } } := by
  unfold skipData
  split <;> rfl

@[simp]
theorem skipData_tcpstate : w.skipData.conn.tcpstate = w.conn.tcpstate := by
  rw [skipData_eq]

@[simp]
theorem skipData_calls : w.skipData.calls = w.calls := by
  rw [skipData_eq]

theorem toNat_skipData_rcvseq :
    w.skipData.conn.rcvseq.toNat = (w.conn.rcvseq.toNat + w.dLen.toNat) % 2 ^ 32 := by
  unfold skipData
  split
  · exact toNat_uipIncr32 _ _
  rename_i hzero
  have hlt := w.conn.rcvseq.toNat_lt
  rw [UInt16.lt_iff_toNat_lt, UInt16.toNat_zero] at hzero
  have hzero' : w.dLen.toNat = 0 := by omega
  rw [hzero', Nat.add_zero, Nat.mod_eq_of_lt hlt]

@[simp]
theorem drop_conn : w.drop.conn = w.conn := rfl

@[simp]
theorem drop_calls : w.drop.calls = w.calls := rfl

end UipTcp

@[simp]
theorem uipTcpsend_conn (f : UInt8) (len : UInt16) : (uipTcpsend f len w).conn = w.conn := rfl

@[simp]
theorem uipTcpsend_calls (f : UInt8) (len : UInt16) : (uipTcpsend f len w).calls = w.calls := rfl

/-! ### Handlers -/

/-- What the handlers do not write. -/
def UipTcp.kept (w : UipTcp) : UipConn × ℕ × ℕ × List TcpCall × List TcpReply :=
  ({ w.conn with sndseq := ⟨0, 0, 0, 0⟩, unacked := 0 }, w.dAppdata, w.freebuffers, w.calls, w.sent)

theorem uipCallbackexecute_kept (list : List UipCallback) (flags : UInt16) (w : UipTcp) :
    (uipCallbackexecute list flags w).2.kept = w.kept := by
  induction list generalizing flags w with
  | nil => rfl
  | cons cb list ih =>
    rw [uipCallbackexecute]
    by_cases hflags : flags = 0
    · rw [if_pos hflags]
    rw [if_neg hflags]
    cases cb.event with
    | none => exact ih flags w
    | some event =>
      by_cases hfor : flags &&& cb.flags ≠ 0
      · simp only [if_pos hfor]
        exact ih _ _
      · simp only [if_neg hfor]
        exact ih flags w

/-! ### Events -/

def UipTcp.core (w : UipTcp) : SeqBytes × TcpState × List TcpCall :=
  (w.conn.rcvseq, w.conn.tcpstate, w.calls)

theorem UipTcp.core_eq_of_kept {w w' : UipTcp} (h : w'.kept = w.kept) : w'.core = w.core := by
  simp only [UipTcp.kept, Prod.mk.injEq, UipConn.mk.injEq] at h
  obtain ⟨⟨hr, -, -, -, -, -, -, -, -, -, hs, -, -⟩, -, -, hc, -⟩ := h
  simp only [UipTcp.core, hr, hs, hc]

theorem uipDataevent_core : (uipDataevent cfg seg flags w).2.core = w.core := by
  unfold uipDataevent
  split_ifs <;> rfl

theorem uipTcpcallback_core :
    (uipTcpcallback cfg list seg flags w).2.core =
      (w.conn.rcvseq, w.conn.tcpstate, w.calls ++ [⟨flags, w.dLen, w.dAppdata⟩]) := by
  have hexec := UipTcp.core_eq_of_kept
    (uipCallbackexecute_kept list flags { w with calls := w.calls ++ [⟨flags, w.dLen, w.dAppdata⟩] })
  unfold uipTcpcallback
  dsimp only
  split
  · exact uipDataevent_core.trans hexec
  · exact hexec

@[simp]
theorem uipTcpcallback_rcvseq :
    (uipTcpcallback cfg list seg flags w).2.conn.rcvseq = w.conn.rcvseq :=
  congrArg Prod.fst uipTcpcallback_core

@[simp]
theorem uipTcpcallback_tcpstate :
    (uipTcpcallback cfg list seg flags w).2.conn.tcpstate = w.conn.tcpstate :=
  congrArg (fun c => c.2.1) uipTcpcallback_core

@[simp]
theorem uipTcpcallback_calls :
    (uipTcpcallback cfg list seg flags w).2.calls = w.calls ++ [⟨flags, w.dLen, w.dAppdata⟩] :=
  congrArg (fun c => c.2.2) uipTcpcallback_core

/-! ### The response -/

@[simp]
theorem uipTcprexmit_conn : (uipTcprexmit flags w).conn = w.conn := by
  unfold uipTcprexmit
  dsimp only
  split_ifs <;> rfl

@[simp]
theorem uipTcprexmit_calls : (uipTcprexmit flags w).calls = w.calls := by
  unfold uipTcprexmit
  dsimp only
  split_ifs <;> rfl

@[simp]
theorem uipTcpappsend_rcvseq : (uipTcpappsend flags w).conn.rcvseq = w.conn.rcvseq := by
  unfold uipTcpappsend
  split_ifs <;> simp

@[simp]
theorem uipTcpappsend_readahead : (uipTcpappsend flags w).conn.readahead = w.conn.readahead := by
  unfold uipTcpappsend
  split_ifs <;> simp

@[simp]
theorem uipTcpappsend_calls : (uipTcpappsend flags w).calls = w.calls := by
  unfold uipTcpappsend
  split_ifs <;> simp

theorem uipTcpappsend_tcpstate (flags : UInt16) (w : UipTcp) :
    (uipTcpappsend flags w).conn.tcpstate = .closed ∨
      (uipTcpappsend flags w).conn.tcpstate = .finWait1 ∨
      (uipTcpappsend flags w).conn.tcpstate = w.conn.tcpstate := by
  unfold uipTcpappsend
  split_ifs <;> simp

@[simp]
theorem callbackAndSend_rcvseq :
    (callbackAndSend cfg list seg flags w).conn.rcvseq = w.conn.rcvseq := by
  simp [callbackAndSend]

@[simp]
theorem callbackAndSend_calls :
    (callbackAndSend cfg list seg flags w).calls = w.calls ++ [⟨flags, w.dLen, w.dAppdata⟩] := by
  simp [callbackAndSend]

theorem callbackAndSend_tcpstate (cfg : TcpConfig) (list : List UipCallback) (seg : TcpSegment)
    (flags : UInt16) (w : UipTcp) :
    (callbackAndSend cfg list seg flags w).conn.tcpstate = .closed ∨
      (callbackAndSend cfg list seg flags w).conn.tcpstate = .finWait1 ∨
      (callbackAndSend cfg list seg flags w).conn.tcpstate = w.conn.tcpstate := by
  simpa [callbackAndSend] using
    uipTcpappsend_tcpstate
      (uipTcpcallback cfg list seg flags { w with dSndlen := 0 }).1.toUInt8.toUInt16
      (uipTcpcallback cfg list seg flags { w with dSndlen := 0 }).2

/-! ### The ACK step -/

theorem ackStep_kept (seg : TcpSegment) (conn : UipConn) :
    (ackStep seg conn).2.rcvseq = conn.rcvseq ∧ (ackStep seg conn).2.tcpstate = conn.tcpstate ∧
      (ackStep seg conn).2.stopped = conn.stopped ∧
      (ackStep seg conn).2.readahead = conn.readahead := by
  unfold ackStep
  dsimp only
  split_ifs <;> exact ⟨rfl, rfl, rfl, rfl⟩

@[simp]
theorem ackStep_rcvseq (seg : TcpSegment) (conn : UipConn) :
    (ackStep seg conn).2.rcvseq = conn.rcvseq :=
  (ackStep_kept seg conn).1

@[simp]
theorem ackStep_tcpstate (seg : TcpSegment) (conn : UipConn) :
    (ackStep seg conn).2.tcpstate = conn.tcpstate :=
  (ackStep_kept seg conn).2.1

@[simp]
theorem ackStep_stopped (seg : TcpSegment) (conn : UipConn) :
    (ackStep seg conn).2.stopped = conn.stopped :=
  (ackStep_kept seg conn).2.2.1

@[simp]
theorem ackStep_readahead (seg : TcpSegment) (conn : UipConn) :
    (ackStep seg conn).2.readahead = conn.readahead :=
  (ackStep_kept seg conn).2.2.2

theorem ackStep_flags (seg : TcpSegment) (conn : UipConn) :
    (ackStep seg conn).1 = uipAckdata ∨ (ackStep seg conn).1 = 0 := by
  unfold ackStep
  split
  · exact .inl rfl
  · exact .inr rfl

/-! ### The way to the state -/

/-- The device when the header of a segment has been taken off. -/
def UipTcp.arrived (w : UipTcp) (seg : TcpSegment) : UipTcp :=
  { w with
    dLen := seg.ipLen - (UInt16.ofNat seg.hdrLen + uipIphLen)
    dAppdata := 0
    calls := []
    sent := [] }

theorem ctl_ne_syn {f : UInt8} (hf : seg.flags &&& f ≠ 0) (hctl : tcpCtl &&& f = f)
    (hsyn : tcpSyn &&& f = 0) : ¬seg.flags &&& tcpCtl = tcpSyn := by
  intro h
  apply hf
  rw [← hctl, ← UInt8.and_assoc, h, hsyn]

theorem uipTcpinput_eq_dispatch (hrst : seg.flags &&& tcpRst = 0)
    (hsyn : ¬seg.flags &&& tcpCtl = tcpSyn)
    (hin : seg.seqno = w.conn.rcvseq ∨
      ¬(0 < (w.arrived seg).dLen ∨ seg.flags &&& (tcpSyn ||| tcpFin) ≠ 0)) :
    uipTcpinput cfg list seg w =
      tcpDispatch cfg list seg (ackStep seg w.conn).1
        { w.arrived seg with conn := (ackStep seg w.conn).2 } := by
  have hrst' : ¬seg.flags &&& tcpRst ≠ 0 := not_not.mpr hrst
  unfold uipTcpinput tcpFound
  rw [if_neg (fun h => hsyn h.2), if_neg hrst', if_neg]
  · rfl
  · rintro ⟨-, hlong, hne⟩
    exact hin.elim hne (fun hshort => hshort hlong)

end NuttX
