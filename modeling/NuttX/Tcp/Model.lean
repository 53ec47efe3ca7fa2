import NuttX.Tcp.Seqno

/-!
# What a TCP connection does with a segment

The model of `uip_tcpinput` (`uip_tcpinput.c`) from the moment when the checksum is right and the
segment belongs to a connection, with the functions it calls: `uip_tcpcallback` and the read-ahead
buffering under it (`uip_tcpcallback.c`, `uip_tcpreadahead.c`), `uip_callbackexecute`
(`uip_callback.c`), `uip_tcpappsend` and `uip_tcprexmit` (`uip_tcpappsend.c`), and the header fields
that the functions of `uip_tcpsend.c` fill in. IPv4, without `CONFIG_NET_TCPURGDATA`, and with
read-ahead buffers.

The state that is passed along is `NuttX.UipTcp`: the connection, the fields of the device that TCP
uses, and how many read-ahead buffers are free. It also notes which events have been signalled
(`NuttX.UipTcp.calls`) and which segments have been sent (`NuttX.UipTcp.sent`) since the segment
arrived. The handlers that sockets have installed on the connection are not modelled: a
`NuttX.UipCallback` may answer anything, and may write what the handlers in `net/` write.
-/

namespace NuttX

/-! ### Constants -/

/-- The flags of the TCP header. -/
def tcpFin : UInt8 := 0x01

def tcpSyn : UInt8 := 0x02

def tcpRst : UInt8 := 0x04

def tcpPsh : UInt8 := 0x08

def tcpAck : UInt8 := 0x10

def tcpUrg : UInt8 := 0x20

def tcpCtl : UInt8 := 0x3f

/-- The events that the stack signals, and that handlers answer with. -/
def uipAckdata : UInt16 := 0x0001

def uipNewdata : UInt16 := 0x0002

def uipSndack : UInt16 := 0x0004

def uipClose : UInt16 := 0x0040

def uipAbort : UInt16 := 0x0080

def uipConnected : UInt16 := 0x0100

def uipIphLen : UInt16 := 20

/-- `UIP_IPTCPH_LEN`, also called `UIP_TCPIP_HLEN`. -/
def uipIptcphLen : UInt16 := 40

/-- The sizes that the configuration chooses. A packet has a length of 16 bits, and a full one fits
into a read-ahead buffer. -/
structure TcpConfig where
  bufsize : ℕ
  llhLen : ℕ
  readaheadBufsize : ℕ
  bufsize_lt : bufsize < 0x10000
  mss_le : bufsize - llhLen - 40 ≤ readaheadBufsize

def TcpConfig.mss (cfg : TcpConfig) : ℕ :=
  cfg.bufsize - cfg.llhLen - 40

/-! ### Connections and segments -/

/-- The state of a connection, `tcpstateflags & UIP_TS_MASK`. -/
inductive TcpState
  | closed
  | allocated
  | synRcvd
  | synSent
  | established
  | finWait1
  | finWait2
  | closing
  | timeWait
  | lastAck
deriving DecidableEq, Repr

/-- The fields of `struct uip_conn` that `uip_tcpinput` reads and writes. -/
structure UipConn where
  rcvseq : SeqBytes
  sndseq : SeqBytes
  unacked : UInt16
  mss : UInt16
  initialmss : UInt16
  sa : UInt8
  sv : UInt8
  rto : UInt8
  timer : UInt8
  nrtx : UInt8
  tcpstate : TcpState
  stopped : Bool
  readahead : List (List UInt8)
deriving DecidableEq, Repr

/-- A segment in the buffer of the device. -/
structure TcpSegment where
  seqno : SeqBytes
  ackno : SeqBytes
  flags : UInt8
  tcpoffset : UInt8
  wnd : UInt16
  urgp : UInt16
  ipLen : UInt16
  buf : ℕ → UInt8

def TcpSegment.bytes (seg : TcpSegment) (off len : ℕ) : List UInt8 :=
  (List.range len).map fun i => seg.buf (off + i)

@[simp]
theorem TcpSegment.length_bytes (seg : TcpSegment) (off len : ℕ) :
    (seg.bytes off len).length = len := by
  simp [TcpSegment.bytes]

/-- The header fields of a segment that is sent. -/
structure TcpReply where
  flags : UInt8
  seqno : SeqBytes
  ackno : SeqBytes
  len : UInt16
deriving DecidableEq, Repr

/-- An event signalled with `uip_tcpcallback`, with the length and the place of the data at that
moment. -/
structure TcpCall where
  flags : UInt16
  len : UInt16
  appdata : ℕ
deriving DecidableEq, Repr

/-- A connection, the device that a segment has arrived on, and the pool of read-ahead buffers. -/
structure UipTcp where
  conn : UipConn
  dLen : UInt16
  dSndlen : UInt16
  dAppdata : ℕ
  freebuffers : ℕ
  calls : List TcpCall
  sent : List TcpReply
deriving DecidableEq, Repr

namespace UipTcp

def setState (s : TcpState) (w : UipTcp) : UipTcp :=
  { w with conn := { w.conn with tcpstate := s, stopped := false } }

def incrRcvseq (n : UInt16) (w : UipTcp) : UipTcp :=
  { w with conn := { w.conn with rcvseq := uipIncr32 w.conn.rcvseq n } }

def skipData (w : UipTcp) : UipTcp :=
  if 0 < w.dLen then w.incrRcvseq w.dLen else w

def drop (w : UipTcp) : UipTcp :=
  { w with dLen := 0 }

end UipTcp

/-! ### Sending (`uip_tcpsend.c`) -/

def uipTcpsend (flags : UInt8) (len : UInt16) (w : UipTcp) : UipTcp :=
  { w with
    dLen := len
    sent := w.sent ++ [⟨flags, w.conn.sndseq, w.conn.rcvseq, len⟩] }

/-- `uip_tcpack`: like `uip_tcpsend`, with the MSS option. -/
def uipTcpack (ack : UInt8) (w : UipTcp) : UipTcp :=
  uipTcpsend ack (uipIptcphLen + 4) w

/-- The increment of the acknowledgement number in `uip_tcpreset`. -/
def resetAckno (ackno : SeqBytes) : SeqBytes :=
  let ackno := { ackno with b3 := ackno.b3 + 1 }
  if ackno.b3 = 0 then
    let ackno := { ackno with b2 := ackno.b2 + 1 }
    if ackno.b2 = 0 then
      let ackno := { ackno with b1 := ackno.b1 + 1 }
      if ackno.b1 = 0 then { ackno with b0 := ackno.b0 + 1 } else ackno
    else ackno
  else ackno

/-- `uip_tcpreset`: a RST with the numbers of the segment exchanged. -/
def uipTcpreset (seg : TcpSegment) (w : UipTcp) : UipTcp :=
  { w with
    dLen := uipIptcphLen
    sent := w.sent ++ [⟨tcpRst ||| tcpAck, seg.ackno, resetAckno seg.seqno, uipIptcphLen⟩] }

/-! ### Handlers (`uip_callback.c`) -/

/-- What a handler answers: the events that are left, and what it has written to the device and to
the connection. -/
structure CallbackReply where
  flags : UInt16
  dLen : UInt16
  dSndlen : UInt16
  sndseq : SeqBytes
  unacked : UInt16

/-- `struct uip_callback_s`: the events that a handler is for, and the handler, if there is one. -/
structure UipCallback where
  flags : UInt16
  event : Option (UipTcp → UInt16 → CallbackReply)

/-- What a handler has written. -/
def UipTcp.answer (w : UipTcp) (r : CallbackReply) : UipTcp :=
  { w with
    dLen := r.dLen
    dSndlen := r.dSndlen
    conn := { w.conn with sndseq := r.sndseq, unacked := r.unacked } }

/-- `uip_callbackexecute`: while there are events, each handler that is for one of them is called.
-/
def uipCallbackexecute : List UipCallback → UInt16 → UipTcp → UInt16 × UipTcp
  | [], flags, w => (flags, w)
  | cb :: list, flags, w =>
    if flags = 0 then (flags, w)
    else
      match cb.event with
      | none => uipCallbackexecute list flags w
      | some event =>
        if flags &&& cb.flags ≠ 0 then
          uipCallbackexecute list (event w flags).flags (w.answer (event w flags))
        else uipCallbackexecute list flags w

/-! ### Read-ahead (`uip_tcpcallback.c`) -/

/-- `uip_readahead`: as much of `buf` as fits is added to a buffer. -/
def uipReadahead (bufsize : ℕ) (readahead buf : List UInt8) : List UInt8 × ℕ :=
  let available := bufsize - readahead.length
  let recvlen :=
    if 0 < buf.length ∧ 0 < available then
      if available < buf.length then available else buf.length
    else 0
  (readahead ++ buf.take recvlen, recvlen)

/-- The list of buffers after `buf` has been added, to the last buffer and, if there is a new
buffer, what is left to that. -/
def addReadahead (bufsize : ℕ) (readahead : List (List UInt8)) (fresh : Bool) (buf : List UInt8) :
    List (List UInt8) :=
  match readahead.getLast? with
  | none =>
    if fresh then readahead ++ [(uipReadahead bufsize [] buf).1] else readahead
  | some readahead1 =>
    let (readahead1, recvlen) := uipReadahead bufsize readahead1 buf
    let readahead := readahead.dropLast ++ [readahead1]
    if fresh then readahead ++ [(uipReadahead bufsize [] (buf.drop recvlen)).1] else readahead

/-- The last buffer has more than enough room. -/
def lastHasRoom (bufsize : ℕ) (readahead : List (List UInt8)) (buflen : ℕ) : Bool :=
  match readahead.getLast? with
  | none => false
  | some readahead1 => buflen + readahead1.length < bufsize

/-- `uip_dataevent`: data that no handler has taken. -/
def uipDataevent (cfg : TcpConfig) (seg : TcpSegment) (flags : UInt16) (w : UipTcp) :
    UInt16 × UipTcp :=
  let ret := (flags &&& ~~~uipNewdata) ||| uipSndack
  if 0 < w.dLen then
    let buf := seg.bytes w.dAppdata w.dLen.toNat
    let keep (fresh : Bool) : UipConn :=
      { w.conn with readahead := addReadahead cfg.readaheadBufsize w.conn.readahead fresh buf }
    if lastHasRoom cfg.readaheadBufsize w.conn.readahead w.dLen.toNat then
      (ret, { w with conn := keep false, dLen := 0 })
    else if 0 < w.freebuffers then
      (ret, { w with conn := keep true, freebuffers := w.freebuffers - 1, dLen := 0 })
    else
      -- the packet is dropped, and no ACK is sent
      (ret &&& ~~~uipSndack, { w with dLen := 0 })
  else (ret, { w with dLen := 0 })

/-- `uip_tcpcallback`: signals events to the handlers, and keeps the data that none of them takes.
The `connection_event` of a socket does not write to the connection. -/
def uipTcpcallback (cfg : TcpConfig) (list : List UipCallback) (seg : TcpSegment) (flags : UInt16)
    (w : UipTcp) : UInt16 × UipTcp :=
  let (ret, w) :=
    uipCallbackexecute list flags { w with calls := w.calls ++ [⟨flags, w.dLen, w.dAppdata⟩] }
  if ret &&& uipNewdata ≠ 0 then uipDataevent cfg seg ret w else (ret, w)

/-! ### The response (`uip_tcpappsend.c`) -/

/-- `uip_tcprexmit`: sends the data of the handlers, or an ACK, or nothing. -/
def uipTcprexmit (result : UInt16) (w : UipTcp) : UipTcp :=
  let w := { w with dAppdata := 0 }
  if 0 < w.dSndlen ∧ 0 < w.conn.unacked then
    uipTcpsend (tcpAck ||| tcpPsh) (w.dSndlen + uipIptcphLen) w
  else if result &&& uipSndack ≠ 0 then uipTcpsend tcpAck uipIptcphLen w
  else w.drop

/-- `uip_tcpappsend`: what the answer of the handlers asks for. -/
def uipTcpappsend (result : UInt16) (w : UipTcp) : UipTcp :=
  if result &&& uipAbort ≠ 0 then
    uipTcpsend (tcpRst ||| tcpAck) uipIptcphLen ({ w with dSndlen := 0 }.setState .closed)
  else if result &&& uipClose ≠ 0 then
    let w := w.setState .finWait1
    uipTcpsend (tcpFin ||| tcpAck) uipIptcphLen
      { w with dSndlen := 0, conn := { w.conn with unacked := 1, nrtx := 0 } }
  else
    let unacked := if 0 < w.dSndlen then w.conn.unacked + w.dSndlen else w.conn.unacked
    uipTcprexmit result { w with conn := { w.conn with unacked := unacked, nrtx := 0 } }

/-- `uip_tcpcallback` followed by `uip_tcpappsend`. The result passes through a variable of 8
bits. -/
def callbackAndSend (cfg : TcpConfig) (list : List UipCallback) (seg : TcpSegment) (flags : UInt16)
    (w : UipTcp) : UipTcp :=
  let (result, w) := uipTcpcallback cfg list seg flags { w with dSndlen := 0 }
  uipTcpappsend result.toUInt8.toUInt16 w

/-! ### Input (`uip_tcpinput.c`) -/

def TcpSegment.hdrLen (seg : TcpSegment) : ℕ :=
  (seg.tcpoffset >>> 4).toNat * 4

/-- The RTT estimation, in which `m` is a `signed char`. -/
def rttEstimate (conn : UipConn) : UipConn :=
  let m := (conn.rto - conn.timer).toInt8
  let m := m - (conn.sa >>> 3).toInt8
  let sa := conn.sa + m.toUInt8
  let m := if m < 0 then -m else m
  let m := m - (conn.sv >>> 2).toInt8
  let sv := conn.sv + m.toUInt8
  { conn with sa := sa, sv := sv, rto := (sa >>> 3) + sv }

/-- The acknowledgement of outstanding data: the events that it raises, and the connection. -/
def ackStep (seg : TcpSegment) (conn : UipConn) : UInt16 × UipConn :=
  if seg.flags &&& tcpAck ≠ 0 ∧ 0 < conn.unacked then
    let unackseq := uipTcpaddsequence conn.sndseq conn.unacked
    let ackseq := uipTcpgetsequence seg.ackno
    let unacked := if ackseq ≤ unackseq then (unackseq - ackseq).toUInt16 else 0
    let conn := { conn with unacked := unacked, sndseq := uipTcpsetsequence ackseq }
    let conn := if conn.nrtx = 0 then rttEstimate conn else conn
    (uipAckdata, { conn with timer := conn.rto })
  else (0, conn)

/-- The search for the MSS option from byte `i` of the options on, `none` if there is none. The
number of rounds is bounded by the length of the options. -/
def mssLoop (seg : TcpSegment) : ℕ → ℕ → Option UInt16
  | 0, _ => none
  | rounds + 1, i =>
    if i < seg.hdrLen - 20 then
      if seg.buf i = 0 then none
      else if seg.buf i = 1 then mssLoop seg rounds (i + 1)
      else if seg.buf i = 2 ∧ seg.buf (1 + i) = 4 then
        some ((seg.buf (2 + i)).toUInt16 <<< 8 ||| (seg.buf (3 + i)).toUInt16)
      else if seg.buf (1 + i) = 0 then none
      else mssLoop seg rounds (i + (seg.buf (1 + i)).toNat)
    else none

/-- The MSS option of a SYNACK: `initialmss` and `mss` become what it says, at most our own MSS. -/
def mssOption (cfg : TcpConfig) (seg : TcpSegment) (conn : UipConn) : UipConn :=
  match mssLoop seg (seg.hdrLen - 20) 0 with
  | none => conn
  | some tmp16 =>
    let mss := if cfg.mss < tmp16.toNat then UInt16.ofNat cfg.mss else tmp16
    { conn with initialmss := mss, mss := mss }

section States

variable (cfg : TcpConfig) (list : List UipCallback) (seg : TcpSegment) (flags : UInt16)
  (w : UipTcp)

/-- `case UIP_SYN_RCVD`. -/
def inSynRcvd : UipTcp :=
  if flags &&& uipAckdata ≠ 0 then
    let w := w.setState .established
    let w := { w with conn := { w.conn with unacked := 0 } }
    if 0 < w.dLen then
      callbackAndSend cfg list seg (uipConnected ||| uipNewdata) (w.incrRcvseq w.dLen)
    else callbackAndSend cfg list seg uipConnected w
  else if seg.flags &&& tcpCtl = tcpSyn then uipTcpack (tcpAck ||| tcpSyn) w
  else w.drop

/-- `case UIP_SYN_SENT`. -/
def inSynSent : UipTcp :=
  if flags &&& uipAckdata ≠ 0 ∧ seg.flags &&& tcpCtl = tcpSyn ||| tcpAck then
    let w := { w with conn := mssOption cfg seg w.conn }
    let w := w.setState .established
    let w := { w with conn := { w.conn with rcvseq := seg.seqno } }.incrRcvseq 1
    callbackAndSend cfg list seg (uipConnected ||| uipNewdata)
      { w with dLen := 0, conn := { w.conn with unacked := 0 } }
  else
    let w := (uipTcpcallback cfg list seg uipAbort w).2.setState .closed
    if seg.flags &&& tcpRst ≠ 0 then w.drop else uipTcpreset seg w

def windowMss (conn : UipConn) : UInt16 :=
  if conn.initialmss < seg.wnd ∨ seg.wnd = 0 then conn.initialmss else seg.wnd

/-- `case UIP_ESTABLISHED`, a FIN of the peer. -/
def finEstablished : UipTcp :=
  if 0 < w.conn.unacked then w.drop
  else
    let w := w.incrRcvseq (w.dLen + 1)
    let flags := flags ||| uipClose
    let flags := if 0 < w.dLen then flags ||| uipNewdata else flags
    let w := (uipTcpcallback cfg list seg flags w).2.setState .lastAck
    uipTcpsend (tcpFin ||| tcpAck) uipIptcphLen
      { w with conn := { w.conn with unacked := 1, nrtx := 0 } }

/-- `case UIP_ESTABLISHED`, from the data on. -/
def dataEstablished : UipTcp :=
  let accepted := 0 < w.dLen ∧ w.conn.stopped = false
  let flags := if accepted then flags ||| uipNewdata else flags
  let w := if accepted then w.incrRcvseq w.dLen else w
  let w := { w with conn := { w.conn with mss := windowMss seg w.conn } }
  if flags &&& (uipNewdata ||| uipAckdata) ≠ 0 then callbackAndSend cfg list seg flags w
  else w.drop

/-- `case UIP_ESTABLISHED`. Urgent data are skipped. -/
def inEstablished : UipTcp :=
  if seg.flags &&& tcpFin ≠ 0 ∧ w.conn.stopped = false then finEstablished cfg list seg flags w
  else if seg.flags &&& tcpUrg ≠ 0 then
    dataEstablished cfg list seg flags
      { w with dAppdata := w.dAppdata + seg.urgp.toNat, dLen := w.dLen - seg.urgp }
  else dataEstablished cfg list seg flags w

/-- `case UIP_LAST_ACK`. -/
def inLastAck : UipTcp :=
  if flags &&& uipAckdata ≠ 0 then
    (uipTcpcallback cfg list seg uipClose (w.setState .closed)).2.drop
  else w.drop

/-- A FIN in `FIN_WAIT_1` or `FIN_WAIT_2`, after the state has been set. -/
def finReceived : UipTcp :=
  uipTcpsend tcpAck uipIptcphLen (uipTcpcallback cfg list seg uipClose (w.incrRcvseq 1)).2

/-- `case UIP_FIN_WAIT_1`. -/
def inFinWait1 : UipTcp :=
  let w := w.skipData
  if seg.flags &&& tcpFin ≠ 0 then
    if flags &&& uipAckdata ≠ 0 then
      let w := w.setState .timeWait
      finReceived cfg list seg { w with conn := { w.conn with timer := 0, unacked := 0 } }
    else finReceived cfg list seg (w.setState .closing)
  else if flags &&& uipAckdata ≠ 0 then
    let w := w.setState .finWait2
    { w with conn := { w.conn with unacked := 0 } }.drop
  else if 0 < w.dLen then uipTcpsend tcpAck uipIptcphLen w
  else w.drop

/-- `case UIP_FIN_WAIT_2`. -/
def inFinWait2 : UipTcp :=
  let w := w.skipData
  if seg.flags &&& tcpFin ≠ 0 then
    let w := w.setState .timeWait
    finReceived cfg list seg { w with conn := { w.conn with timer := 0 } }
  else if 0 < w.dLen then uipTcpsend tcpAck uipIptcphLen w
  else w.drop

/-- `case UIP_CLOSING`. -/
def inClosing : UipTcp :=
  if flags &&& uipAckdata ≠ 0 then
    let w := w.setState .timeWait
    { w with conn := { w.conn with timer := 0 } }.drop
  else w.drop

/-- What the state of the connection makes of a segment. -/
def tcpDispatch : UipTcp :=
  match w.conn.tcpstate with
  | .synRcvd => inSynRcvd cfg list seg flags w
  | .synSent => inSynSent cfg list seg flags w
  | .established => inEstablished cfg list seg flags w
  | .lastAck => inLastAck cfg list seg flags w
  | .finWait1 => inFinWait1 cfg list seg flags w
  | .finWait2 => inFinWait2 cfg list seg w
  | .timeWait => uipTcpsend tcpAck uipIptcphLen w
  | .closing => inClosing flags w
  | .closed | .allocated => w.drop

end States

/-- The segment is the answer that a handshake waits for, and its sequence number is not that of the
connection. -/
def handshake (seg : TcpSegment) (conn : UipConn) : Prop :=
  conn.tcpstate = .synSent ∧ seg.flags &&& tcpCtl = tcpSyn ||| tcpAck ∨
    conn.tcpstate = .synRcvd ∧ seg.flags &&& tcpCtl = tcpSyn

instance (seg : TcpSegment) (conn : UipConn) : Decidable (handshake seg conn) :=
  inferInstanceAs (Decidable (_ ∨ _))

/-- `uip_tcpinput` from `found` on. -/
def tcpFound (cfg : TcpConfig) (list : List UipCallback) (seg : TcpSegment) (w : UipTcp) : UipTcp :=
  if seg.flags &&& tcpRst ≠ 0 then
    (uipTcpcallback cfg list seg uipAbort (w.setState .closed)).2.drop
  else
    let w := { w with dLen := w.dLen - (UInt16.ofNat seg.hdrLen + uipIphLen) }
    if ¬handshake seg w.conn ∧ (0 < w.dLen ∨ seg.flags &&& (tcpSyn ||| tcpFin) ≠ 0) ∧
        seg.seqno ≠ w.conn.rcvseq then
      uipTcpsend tcpAck uipIptcphLen w
    else
      let (flags, conn) := ackStep seg w.conn
      tcpDispatch cfg list seg flags { w with conn := conn }

/-- **`uip_tcpinput`**, for a segment with a correct checksum that belongs to an active connection.
A SYN resets a connection that is not waiting for one. -/
def uipTcpinput (cfg : TcpConfig) (list : List UipCallback) (seg : TcpSegment) (w : UipTcp) :
    UipTcp :=
  let w := { w with dLen := seg.ipLen, dAppdata := 0, calls := [], sent := [] }
  if w.conn.tcpstate ≠ .synRcvd ∧ seg.flags &&& tcpCtl = tcpSyn then
    if seg.flags &&& tcpRst ≠ 0 then w.drop else uipTcpreset seg w
  else tcpFound cfg list seg w

/-! ### A connection -/

/-- A configuration for Ethernet. -/
def ethernetConfig : TcpConfig where
  bufsize := 420
  llhLen := 14
  readaheadBufsize := 366
  bufsize_lt := by decide
  mss_le := by decide

/-- A connection in state `s`, with one byte outstanding from sequence number 1000 on, that expects
sequence number 5000. -/
def sampleTcp (s : TcpState) : UipTcp where
  conn :=
    { rcvseq := ⟨0, 0, 0x13, 0x88⟩, sndseq := ⟨0, 0, 0x03, 0xe8⟩, unacked := 1, mss := 366
      initialmss := 366, sa := 0, sv := 16, rto := 3, timer := 3, nrtx := 0, tcpstate := s
      stopped := false, readahead := [] }
  dLen := 0
  dSndlen := 0
  dAppdata := 0
  freebuffers := 0
  calls := []
  sent := []

/-- A segment in order for `NuttX.sampleTcp`, with a payload of `len` bytes. -/
def sampleSegment (len : UInt16) : TcpSegment where
  seqno := ⟨0, 0, 0x13, 0x88⟩
  ackno := ⟨0, 0, 0x03, 0xe8⟩
  flags := tcpAck
  tcpoffset := 0x50
  wnd := 1000
  urgp := 0
  ipLen := 40 + len
  buf := fun _ => 0

end NuttX
