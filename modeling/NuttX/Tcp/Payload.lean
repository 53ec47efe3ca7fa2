import NuttX.Tcp.Readahead

/-!
# Which bytes the handlers are called for

`uip_tcpinput` points `d_appdata` behind a TCP header of 20 bytes and takes the urgent bytes off
`d_len` without a look at what is left; a segment with a FIN keeps them. The handlers are called for
the payload only if there are no options and the urgent pointer is harmless
(`NuttX.payload_exact_iff`).
-/

namespace NuttX

variable {cfg : TcpConfig} {list : List UipCallback} {seg : TcpSegment} {flags : UInt16}
  {w : UipTcp} {call : TcpCall} {n : ℕ}

/-- The call is for the payload of `n` bytes without those of it that are urgent. -/
def TcpCall.Exact (call : TcpCall) (seg : TcpSegment) (n : ℕ) : Prop :=
  call.appdata = seg.hdrLen - 20 + seg.urgentLen.toNat ∧ call.len.toNat = n - seg.urgentLen.toNat

/-- The bytes that are skipped: a segment with a FIN is not looked at for urgent ones. -/
def TcpSegment.skipped (seg : TcpSegment) : UInt16 :=
  if seg.flags &&& tcpFin ≠ 0 then 0 else seg.urgentLen

theorem newdata_inEstablished (hcalls : w.calls = []) (hflags : flags = uipAckdata ∨ flags = 0)
    (hcall : call ∈ (inEstablished cfg list seg flags w).calls)
    (hnew : call.flags &&& uipNewdata ≠ 0) :
    0 < call.len ∧ call.len = w.dLen - seg.skipped ∧
      call.appdata = w.dAppdata + seg.skipped.toNat := by
  have hold : flags &&& uipNewdata = 0 ∧ (flags ||| uipClose) &&& uipNewdata = 0 := by
    rcases hflags with rfl | rfl <;> decide
  by_cases hfin : seg.flags &&& tcpFin ≠ 0 ∧ w.conn.stopped = false
  · rw [inEstablished, if_pos hfin, finEstablished] at hcall
    rw [TcpSegment.skipped, if_pos hfin.1]
    split at hcall
    · simp [hcalls] at hcall
    simp [hcalls] at hcall
    subst hcall
    by_cases hpos : 0 < w.dLen
    · simp [hpos]
    · simp [hpos, hold.2] at hnew
  · rw [inEstablished_of_not_fin hfin, dataEstablished] at hcall
    by_cases haccepted : 0 < w.dLen - seg.urgentLen ∧ w.conn.stopped = false
    · rw [TcpSegment.skipped, if_neg (fun h => hfin ⟨h, haccepted.2⟩)]
      simp only [if_pos haccepted] at hcall
      split at hcall
      · simp [hcalls] at hcall
        subst hcall
        exact ⟨haccepted.1, rfl, rfl⟩
      · simp [hcalls] at hcall
    · simp only [if_neg haccepted] at hcall
      split at hcall
      · simp [hcalls] at hcall
        subst hcall
        exact absurd hold.1 hnew
      · simp [hcalls] at hcall

/-- `UIP_NEWDATA` is signalled for a segment that has reached the state only. -/
theorem newdata_uipTcpinput (hstate : w.conn.tcpstate = .established)
    (hcall : call ∈ (uipTcpinput cfg list seg w).calls) (hnew : call.flags &&& uipNewdata ≠ 0) :
    call ∈ (inEstablished cfg list seg (ackStep seg w.conn).1 (w.acked seg)).calls := by
  unfold uipTcpinput tcpFound at hcall
  dsimp only at hcall
  split_ifs at hcall
  · simp at hcall
  · simp [uipTcpreset] at hcall
  · simp at hcall
    subst hcall
    exact absurd (show uipAbort &&& uipNewdata = 0 by decide) hnew
  · simp at hcall
  · simpa [tcpDispatch, hstate, UipTcp.acked, UipTcp.arrived] using hcall

/-- **The handlers are called for the payload** if and only if the TCP header has no options and
the urgent bytes, if there are any, are in the payload and come without a FIN. -/
theorem payload_exact_iff (hstate : w.conn.tcpstate = .established) (hhdr : 20 ≤ seg.hdrLen)
    (hlen : seg.ipLen.toNat = 20 + seg.hdrLen + n)
    (hcall : call ∈ (uipTcpinput cfg list seg w).calls) (hnew : call.flags &&& uipNewdata ≠ 0) :
    call.Exact seg n ↔ seg.hdrLen = 20 ∧ seg.urgentLen.toNat ≤ n ∧
      (seg.flags &&& tcpFin ≠ 0 → seg.urgentLen = 0) := by
  obtain ⟨hpos, hcalllen, happdata⟩ := newdata_inEstablished rfl (ackStep_flags seg w.conn)
    (newdata_uipTcpinput hstate hcall hnew) hnew
  have hdata : (w.acked seg).dLen.toNat = n := by
    refine (arrived_dLen w (by omega)).trans ?_
    rw [TcpSegment.payloadLen]
    omega
  have hzero : (w.acked seg).dAppdata = 0 := rfl
  have hlt := (w.acked seg).dLen.toNat_lt
  have hurgent := seg.urgentLen.toNat_lt
  rw [UInt16.lt_iff_toNat_lt, hcalllen, UInt16.toNat_sub, hdata, UInt16.toNat_zero] at hpos
  rw [TcpCall.Exact, hcalllen, happdata, UInt16.toNat_sub, hdata, hzero, ← UInt16.toNat_inj,
    UInt16.toNat_zero]
  by_cases hfin : seg.flags &&& tcpFin = 0
  · rw [TcpSegment.skipped, if_neg (not_not.mpr hfin)] at *
    simp only [hfin, ne_eq, not_true, false_imp_iff, and_true]
    omega
  · rw [TcpSegment.skipped, if_pos hfin] at *
    simp only [hfin, ne_eq, not_false_eq_true, true_imp_iff, UInt16.toNat_zero] at *
    omega

theorem payload_exact_iff_plain :
    TcpCall.Exact ⟨uipAckdata ||| uipNewdata, 3, 0⟩ (sampleSegment 3) 3 := by
  have hcall : ⟨uipAckdata ||| uipNewdata, 3, 0⟩ ∈ (uipTcpinput ethernetConfig []
      (sampleSegment 3) (sampleTcp .established)).calls := by decide
  exact (payload_exact_iff rfl (by decide) (by decide) hcall (by decide)).mpr (by decide)

/-- Four bytes of options are taken for data, and an urgent pointer behind the payload makes it
65534 bytes long. -/
theorem payload_of_options :
    (uipTcpinput ethernetConfig [] { sampleSegment 7 with tcpoffset := 0x60 }
      (sampleTcp .established)).calls = [⟨uipAckdata ||| uipNewdata, 3, 0⟩] ∧
    (uipTcpinput ethernetConfig [] { sampleSegment 3 with flags := tcpAck ||| tcpUrg, urgp := 5 }
      (sampleTcp .established)).calls = [⟨uipAckdata ||| uipNewdata, 65534, 5⟩] := by
  decide

end NuttX
