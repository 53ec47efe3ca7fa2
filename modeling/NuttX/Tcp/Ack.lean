import NuttX.Tcp.Effects

/-!
# Acknowledgements

`uip_tcpinput` takes every segment with the ACK flag for an acknowledgement of outstanding data, as
soon as there are outstanding data: it stores the acknowledgement number in `sndseq`, raises
`UIP_ACKDATA`, and compares `ackseq` with `unackseq` as plain numbers. The acknowledgement number is
thus never held against `sndseq`, so that a duplicate of the last ACK counts as a new one; and a
number just below the wrap is taken for one from far ahead when what it leaves outstanding reaches
beyond the wrap.

`NuttX.AckLaw` is what the ACK step should do, with sequence numbers modulo `2 ^ 32`, and what the
states in which our FIN is outstanding should make of it; `NuttX.uipTcpinput_ackLaw_iff` says for
which segments it does that.
-/

namespace NuttX

/-- How far the acknowledgement number is ahead of `sndseq`, modulo `2 ^ 32`. -/
def ackDistance (seg : TcpSegment) (conn : UipConn) : ℕ :=
  (uipTcpgetsequence seg.ackno - uipTcpgetsequence conn.sndseq).toNat

def AcksOutstanding (seg : TcpSegment) (conn : UipConn) : Prop :=
  1 ≤ ackDistance seg conn ∧ ackDistance seg conn ≤ conn.unacked.toNat

/-- The changes of state that wait for the acknowledgement of our FIN. -/
def ClosingMove : TcpState → TcpState → Prop
  | .finWait1, .finWait2 => True
  | .closing, .timeWait => True
  | .lastAck, .closed => True
  | _, _ => False

/-- What a segment makes of the sending side before its state looks at it: the events that are
raised and the connection. A RST does not get as far as the ACK step. -/
def acknowledged (seg : TcpSegment) (conn : UipConn) : UInt16 × UipConn :=
  if seg.flags &&& tcpRst ≠ 0 then (0, conn) else ackStep seg conn

/-- **Acknowledgement modulo `2 ^ 32`.** An acknowledgement of outstanding data is taken over and
raises `UIP_ACKDATA`, any other one leaves the sending side alone; and a connection moves on in the
states in which our FIN is outstanding, which is the last of the outstanding data, only when the FIN
has been acknowledged. -/
structure AckLaw (cfg : TcpConfig) (list : List UipCallback) (seg : TcpSegment) (w : UipTcp) :
    Prop where
  taken : AcksOutstanding seg w.conn →
    (acknowledged seg w.conn).2.sndseq = seg.ackno ∧
      (acknowledged seg w.conn).2.unacked.toNat = w.conn.unacked.toNat - ackDistance seg w.conn ∧
      (acknowledged seg w.conn).1 &&& uipAckdata ≠ 0
  ignored : ¬AcksOutstanding seg w.conn →
    (acknowledged seg w.conn).2.sndseq = w.conn.sndseq ∧
      (acknowledged seg w.conn).2.unacked = w.conn.unacked ∧
      (acknowledged seg w.conn).1 &&& uipAckdata = 0
  closing : ClosingMove w.conn.tcpstate (uipTcpinput cfg list seg w).conn.tcpstate →
    ackDistance seg w.conn = w.conn.unacked.toNat

/-! ### The ACK step -/

variable {cfg : TcpConfig} {list : List UipCallback} {seg : TcpSegment} {w : UipTcp}

theorem ackStep_of_ack {conn : UipConn} (hack : seg.flags &&& tcpAck ≠ 0)
    (hunacked : 0 < conn.unacked) :
    (ackStep seg conn).1 = uipAckdata ∧ (ackStep seg conn).2.sndseq = seg.ackno ∧
      (ackStep seg conn).2.unacked =
        if uipTcpgetsequence seg.ackno ≤ uipTcpaddsequence conn.sndseq conn.unacked then
          (uipTcpaddsequence conn.sndseq conn.unacked - uipTcpgetsequence seg.ackno).toUInt16
        else 0 := by
  have hset : uipTcpsetsequence (uipTcpgetsequence seg.ackno) = seg.ackno := by
    rw [← uipTcpgetsequence_inj, uipTcpgetsequence_set]
  unfold ackStep
  rw [if_pos ⟨hack, hunacked⟩]
  dsimp only
  split <;> exact ⟨rfl, hset, rfl⟩

/-- The number of bytes that are left is right if and only if what is outstanding does not reach
beyond a wrap that the acknowledgement number has not passed. -/
theorem ackStep_unacked_iff {conn : UipConn} (hack : seg.flags &&& tcpAck ≠ 0)
    (hunacked : 0 < conn.unacked) (houtstanding : AcksOutstanding seg conn) :
    (ackStep seg conn).2.unacked.toNat = conn.unacked.toNat - ackDistance seg conn ↔
      uipTcpgetsequence seg.ackno ≤ uipTcpaddsequence conn.sndseq conn.unacked := by
  obtain ⟨hpos, hle⟩ := houtstanding
  rw [(ackStep_of_ack hack hunacked).2.2]
  unfold ackDistance at *
  unfold uipTcpaddsequence
  have ha := (uipTcpgetsequence seg.ackno).toNat_lt
  have hs := (uipTcpgetsequence conn.sndseq).toNat_lt
  have hu := conn.unacked.toNat_lt
  rw [UInt32.toNat_sub] at *
  split
  · rename_i hplain
    refine ⟨fun _ => hplain, fun _ => ?_⟩
    simp only [UInt32.le_iff_toNat_le, UInt32.toNat_toUInt16, UInt32.toNat_sub, UInt32.toNat_add,
      UInt16.toNat_toUInt32] at *
    omega
  · -- `unacked` becomes 0, as if everything had been acknowledged
    rename_i hwrap
    refine ⟨fun h => ?_, fun h => absurd h hwrap⟩
    exfalso
    simp only [UInt32.le_iff_toNat_le, UInt32.toNat_add, UInt16.toNat_toUInt32,
      UInt16.toNat_zero] at *
    omega

/-! ### The states in which our FIN is outstanding -/

/-- The state moves on when `UIP_ACKDATA` is raised. In `FIN_WAIT_1` it does so to `FIN_WAIT_2`,
unless the segment has a FIN itself. -/
def MovesOnAck (seg : TcpSegment) (s : TcpState) : Prop :=
  s = .lastAck ∨ s = .closing ∨ s = .finWait1 ∧ seg.flags &&& tcpFin = 0

theorem closingMove_iff (hack : seg.flags &&& tcpAck ≠ 0) (hrst : seg.flags &&& tcpRst = 0)
    (hin : seg.seqno = w.conn.rcvseq) (hunacked : 0 < w.conn.unacked) :
    ClosingMove w.conn.tcpstate (uipTcpinput cfg list seg w).conn.tcpstate ↔
      MovesOnAck seg w.conn.tcpstate := by
  have hsyn := ctl_ne_syn hack (by decide) (by decide)
  have hraised : uipAckdata ≠ 0 := by decide
  rw [uipTcpinput_eq_dispatch hrst hsyn (.inl hin), (ackStep_of_ack hack hunacked).1]
  unfold tcpDispatch MovesOnAck
  simp only [ackStep_tcpstate]
  cases w.conn.tcpstate with
  | lastAck => simp [inLastAck, hraised, ClosingMove]
  | closing => simp [inClosing, hraised, ClosingMove]
  | finWait1 =>
    by_cases hfin : seg.flags &&& tcpFin = 0
    · simp [inFinWait1, hraised, hfin, ClosingMove]
    · simp [inFinWait1, finReceived, hraised, hfin, ClosingMove]
  | _ => simp [ClosingMove]

theorem closingMove_rst_iff (hrst : seg.flags &&& tcpRst ≠ 0) (hack : seg.flags &&& tcpAck ≠ 0) :
    ClosingMove w.conn.tcpstate (uipTcpinput cfg list seg w).conn.tcpstate ↔
      w.conn.tcpstate = .lastAck := by
  have hsyn := ctl_ne_syn hack (by decide) (by decide)
  have hclosed : (uipTcpinput cfg list seg w).conn.tcpstate = .closed := by
    simp [uipTcpinput, tcpFound, hsyn, hrst]
  rw [hclosed]
  cases w.conn.tcpstate <;> simp [ClosingMove]

/-! ### For which segments the law holds -/

/-- The segments for which the ACK step does what it should. The acknowledgement is one of
outstanding data, none of which lie beyond a wrap that the acknowledgement number has not passed,
and of all of them where the state moves on. A RST only changes the state, which `LAST_ACK` must
not. -/
def TimelyAck (seg : TcpSegment) (conn : UipConn) : Prop :=
  if seg.flags &&& tcpRst ≠ 0 then ¬AcksOutstanding seg conn ∧ conn.tcpstate ≠ .lastAck
  else
    AcksOutstanding seg conn ∧
      uipTcpgetsequence seg.ackno ≤ uipTcpaddsequence conn.sndseq conn.unacked ∧
      (MovesOnAck seg conn.tcpstate → ackDistance seg conn = conn.unacked.toNat)

/-- **Acknowledgements that are taken correctly.** A segment in order with the ACK flag, arriving
while data are outstanding, is processed as it should be if and only if it is `NuttX.TimelyAck`. -/
theorem uipTcpinput_ackLaw_iff (hack : seg.flags &&& tcpAck ≠ 0)
    (hin : seg.seqno = w.conn.rcvseq) (hunacked : 0 < w.conn.unacked) :
    AckLaw cfg list seg w ↔ TimelyAck seg w.conn := by
  unfold TimelyAck
  by_cases hrst : seg.flags &&& tcpRst = 0
  · have hack' : acknowledged seg w.conn = ackStep seg w.conn := if_neg (not_not.mpr hrst)
    obtain ⟨hflags, hsndseq, -⟩ := ackStep_of_ack hack hunacked
    rw [if_neg (not_not.mpr hrst)]
    constructor
    · rintro ⟨htaken, hignored, hclosing⟩
      rw [hack'] at htaken hignored
      -- `UIP_ACKDATA` is raised in any case, so that no segment may be one to be ignored
      have hout : AcksOutstanding seg w.conn := by
        by_contra hout
        have hnot := (hignored hout).2.2
        rw [hflags] at hnot
        exact absurd hnot (by decide)
      exact ⟨hout, (ackStep_unacked_iff hack hunacked hout).mp (htaken hout).2.1,
        fun hmove => hclosing ((closingMove_iff hack hrst hin hunacked).mpr hmove)⟩
    · rintro ⟨hout, hplain, hmoves⟩
      refine ⟨fun _ => ?_, fun h => absurd hout h, fun hmove => ?_⟩
      · rw [hack']
        refine ⟨hsndseq, (ackStep_unacked_iff hack hunacked hout).mpr hplain, ?_⟩
        rw [hflags]
        decide
      · exact hmoves ((closingMove_iff hack hrst hin hunacked).mp hmove)
  · have hack' : acknowledged seg w.conn = (0, w.conn) := if_pos hrst
    have hzero : (0 : UInt16) &&& uipAckdata = 0 := by decide
    rw [if_pos hrst]
    constructor
    · rintro ⟨htaken, -, hclosing⟩
      have hout : ¬AcksOutstanding seg w.conn := by
        intro hout
        have hraised := (htaken hout).2.2
        rw [hack'] at hraised
        exact hraised hzero
      refine ⟨hout, fun hlast => hout ?_⟩
      have hall := hclosing ((closingMove_rst_iff hrst hack).mpr hlast)
      unfold AcksOutstanding
      have hpos := UInt16.lt_iff_toNat_lt.mp hunacked
      omega
    · rintro ⟨hout, hstate⟩
      refine ⟨fun h => absurd h hout, fun _ => ?_, fun hmove => ?_⟩
      · rw [hack']
        exact ⟨rfl, rfl, hzero⟩
      · exact absurd ((closingMove_rst_iff hrst hack).mp hmove) hstate

def ackSegment (ackno : SeqBytes) : TcpSegment :=
  { sampleSegment 0 with ackno := ackno }

theorem uipTcpinput_ackLaw_iff_lastAck :
    TimelyAck (ackSegment ⟨0, 0, 0x03, 0xe9⟩) (sampleTcp .lastAck).conn ∧
      AckLaw ethernetConfig [] (ackSegment ⟨0, 0, 0x03, 0xe9⟩) (sampleTcp .lastAck) := by
  have htimely : TimelyAck (ackSegment ⟨0, 0, 0x03, 0xe9⟩) (sampleTcp .lastAck).conn := by
    refine (if_neg (by decide)).mpr ⟨⟨by decide, by decide⟩, by decide, fun _ => by decide⟩
  exact ⟨htimely, (uipTcpinput_ackLaw_iff (by decide) (by decide) (by decide)).mpr htimely⟩

theorem duplicateAck_closes :
    (uipTcpinput ethernetConfig [] (ackSegment ⟨0, 0, 0x03, 0xe8⟩)
        (sampleTcp .lastAck)).conn.tcpstate = .closed ∧
      ¬AckLaw ethernetConfig [] (ackSegment ⟨0, 0, 0x03, 0xe8⟩) (sampleTcp .lastAck) := by
  have hclosed : (uipTcpinput ethernetConfig [] (ackSegment ⟨0, 0, 0x03, 0xe8⟩)
      (sampleTcp .lastAck)).conn.tcpstate = .closed := by decide
  refine ⟨hclosed, fun law => ?_⟩
  have hall := law.closing (by rw [hclosed]; trivial)
  exact absurd hall (by decide)

end NuttX
