import NuttX.Tcp.Readahead

/-!
# Receiving from a TCP socket

`recvfrom` first takes what is in the read-ahead buffers of the connection. If there is room left in
the buffer of the user, it waits, and the payloads that arrive are copied to that buffer
(`recvfrom_tcpinterrupt`); when no one waits they are kept in read-ahead buffers (`uip_dataevent`).
`NuttX.RecvState` is the receiving side of a connection, with a receive that waits or without one, and
`NuttX.recvStep` has what can happen to it.

The bytes that have been returned and those in the read-ahead buffers are the payloads, in order and
without a gap, exactly as long as each step keeps what it handles (`NuttX.recvLaw_iff`): a payload is
not longer than what is left of the user's buffer, or than the room in the last read-ahead buffer and
a new one; and `recvfrom` does not end with an error when it has received something. What is beyond
the end of the user's buffer is thrown away (`NuttX.recv_truncates`).
-/

namespace NuttX

open List Option

/-! ### Errors -/

def eintr : ℤ := 4

def eagain : ℤ := 11

def ebusy : ℤ := 16

def enotconn : ℤ := 107

/-! ### The functions of `recvfrom.c` -/

structure RecvfromS where
  buflen : ℕ
  recv : List UInt8
  result : ℤ
deriving DecidableEq

/-- The bytes that are copied are added to those that have been received. -/
def RecvfromS.copy (pstate : RecvfromS) (data : List UInt8) (recvlen : ℕ) : RecvfromS :=
  { pstate with recv := pstate.recv ++ data.take recvlen, buflen := pstate.buflen - recvlen }

def recvfromNewdata (data : List UInt8) (pstate : RecvfromS) : RecvfromS :=
  let recvlen := if pstate.buflen < data.length then pstate.buflen else data.length
  pstate.copy data recvlen

/-- `recvfrom_readahead`: the read-ahead buffers that are left, and the state. When a buffer is
returned to the front of the list then that of the user is full, and the loop ends. -/
def recvfromReadahead : List (List UInt8) → RecvfromS → List (List UInt8) × RecvfromS
  | [], pstate => ([], pstate)
  | readahead :: list, pstate =>
    let recvlen :=
      if pstate.buflen < readahead.length then pstate.buflen else readahead.length
    let pstate := if 0 < recvlen then pstate.copy readahead recvlen else pstate
    if recvlen < readahead.length then (readahead.drop recvlen :: list, pstate)
    else if 0 < pstate.buflen then recvfromReadahead list pstate
    else (list, pstate)

def recvfromInit (len : ℕ) : RecvfromS := ⟨len, [], 0⟩

/-- `recvfrom_result`, for what `uip_lockedwait` returns. -/
def recvfromResult (result : ℤ) (pstate : RecvfromS) : ℤ :=
  if pstate.result < 0 then pstate.result
  else if result < 0 then result
  else pstate.recv.length

/-- What is kept of a payload by `uip_dataevent` when a new buffer can be had. -/
def keepData (bufsize : ℕ) (readahead : List (List UInt8)) (data : List UInt8) :
    List (List UInt8) :=
  if 0 < data.length then
    addReadahead bufsize readahead (!lastHasRoom bufsize readahead data.length) data
  else readahead

/-! ### The receiving side of a connection -/

/-- The receiving side of a connection. -/
structure RecvState where
  readahead : List (List UInt8)
  pending : Option RecvfromS
  returned : List UInt8
deriving DecidableEq

/-- What happens on the receiving side. -/
inductive RecvEvent where
  | recvfrom (len : ℕ) (connected nonblock callback : Bool)
  | newdata (data : List UInt8)
  | lost
  | poll (timeout : Bool)
  | signal
deriving DecidableEq

namespace RecvState

/-- `recvfrom` returns: the user has the bytes if it is not an error. -/
def ret (s : RecvState) (pstate : RecvfromS) (ret : ℤ) : RecvState :=
  { s with
    pending := none
    returned := s.returned ++ if 0 ≤ ret then pstate.recv.take ret.toNat else [] }

def tcpRecvfrom (s : RecvState) (len : ℕ) (connected nonblock callback : Bool) : RecvState :=
  let (readahead, pstate) := recvfromReadahead s.readahead (recvfromInit len)
  let s := { s with readahead := readahead }
  let ret : ℤ := pstate.recv.length
  if connected = false then s.ret pstate (if ret ≤ 0 then -enotconn else ret)
  else if nonblock = true then s.ret pstate (if ret ≤ 0 then -eagain else ret)
  else if 0 < pstate.buflen then
    if callback = true then { s with pending := some pstate } else s.ret pstate (-ebusy)
  else s.ret pstate ret

/-- `recvfrom_tcpinterrupt` with `UIP_NEWDATA`. -/
def tcpNewdata (s : RecvState) (pstate : RecvfromS) (data : List UInt8) : RecvState :=
  let pstate := recvfromNewdata data pstate
  if pstate.buflen = 0 then s.ret pstate (recvfromResult 0 pstate)
  else { s with pending := some pstate }

/-- `recvfrom_tcpinterrupt` when the time has elapsed. -/
def tcpTimeout (s : RecvState) (pstate : RecvfromS) : RecvState :=
  let pstate := if pstate.recv.length = 0 then { pstate with result := -eagain } else pstate
  s.ret pstate (recvfromResult 0 pstate)

end RecvState

/-- **A step of the receiving side.** One call of `recvfrom` waits at a time. -/
def recvStep (bufsize : ℕ) (s : RecvState) : RecvEvent → Option RecvState
  | .recvfrom len connected nonblock callback =>
    if s.pending = none then some (s.tcpRecvfrom len connected nonblock callback) else none
  | .newdata data =>
    match s.pending with
    | some pstate => some (s.tcpNewdata pstate data)
    | none => some { s with readahead := keepData bufsize s.readahead data }
  | .lost =>
    match s.pending with
    | some pstate =>
      let pstate := { pstate with result := -enotconn }
      some (s.ret pstate (recvfromResult 0 pstate))
    | none => some s
  | .poll timeout =>
    match s.pending with
    | some pstate => if timeout = true then some (s.tcpTimeout pstate) else some s
    | none => some s
  | .signal =>
    match s.pending with
    | some pstate => some (s.ret pstate (recvfromResult (-eintr) pstate))
    | none => some s

def recvRun (bufsize : ℕ) : RecvState → List RecvEvent → Option RecvState
  | s, [] => some s
  | s, e :: es => (recvStep bufsize s e).bind fun s => recvRun bufsize s es

def RecvEvent.payload : RecvEvent → List UInt8
  | .newdata data => data
  | .recvfrom _ _ _ _ | .lost | .poll _ | .signal => []

def recvStart : RecvState := ⟨[], none, []⟩

/-! ### What is kept -/

/-- The room in the last read-ahead buffer and in a new one. -/
def readaheadRoom (bufsize : ℕ) (readahead : List (List UInt8)) : ℕ :=
  (match readahead.getLast? with
    | none => 0
    | some readahead1 => bufsize - readahead1.length) + bufsize

/-- **A step keeps the bytes that it handles.** -/
def StepKeeps (bufsize : ℕ) (s : RecvState) : RecvEvent → Prop
  | .recvfrom len connected nonblock callback =>
    connected = true → nonblock = false → callback = false →
      let pstate := (recvfromReadahead s.readahead (recvfromInit len)).2
      0 < pstate.buflen → pstate.recv = []
  | .newdata data =>
    match s.pending with
    | some pstate => data.length ≤ pstate.buflen
    | none => data.length ≤ readaheadRoom bufsize s.readahead
  | .lost => ∀ pstate ∈ s.pending, pstate.recv = []
  | .poll _ => True
  | .signal => ∀ pstate ∈ s.pending, pstate.recv = []

/-- Every step of a sequence keeps the bytes that it handles. -/
def RunKeeps (bufsize : ℕ) : RecvState → List RecvEvent → Prop
  | _, [] => True
  | s, e :: es =>
    StepKeeps bufsize s e ∧ ∀ s', recvStep bufsize s e = some s' → RunKeeps bufsize s' es

theorem uipReadahead_snd (bufsize : ℕ) (readahead buf : List UInt8) :
    (uipReadahead bufsize readahead buf).2 = min (bufsize - readahead.length) buf.length := by
  unfold uipReadahead
  dsimp only
  split_ifs <;> omega

/-- **What is kept of a payload**: as much as there is room for. -/
theorem flatten_keepData (bufsize : ℕ) (readahead : List (List UInt8)) (data : List UInt8) :
    (keepData bufsize readahead data).flatten
      = readahead.flatten ++ data.take (readaheadRoom bufsize readahead) := by
  unfold keepData
  split_ifs with hpos
  · unfold addReadahead lastHasRoom readaheadRoom
    cases hlast : readahead.getLast? with
    | none =>
      simp only [Bool.not_false, if_true, uipReadahead_fst, uipReadahead_snd, flatten_append,
        flatten_singleton, nil_append, length_nil]
      exact congrArg _ (take_eq_take_iff.mpr (by omega))
    | some readahead1 =>
      obtain ⟨front, rfl⟩ : ∃ front, readahead = front ++ [readahead1] :=
        getLast?_eq_some_iff.mp hlast
      by_cases hroom : data.length + readahead1.length < bufsize
      · simp only [hroom, decide_true, Bool.not_true, Bool.false_eq_true, if_false,
          dropLast_concat, uipReadahead_fst, uipReadahead_snd, flatten_append,
          flatten_singleton, append_assoc]
        exact congrArg _ (congrArg _ (take_eq_take_iff.mpr (by omega)))
      · simp only [hroom, decide_false, Bool.not_false, if_true, dropLast_concat,
          uipReadahead_fst, uipReadahead_snd, flatten_append, flatten_singleton,
          append_assoc, nil_append, length_nil, length_drop, ← take_add]
        exact congrArg _ (congrArg _ (take_eq_take_iff.mpr (by omega)))
  · have hnil : data = [] := length_eq_zero_iff.mp (by omega)
    simp [hnil]

theorem uipDataevent_keepData {cfg : TcpConfig} {seg : TcpSegment} {flags : UInt16} {w : UipTcp}
    (hfree : 0 < w.freebuffers) :
    (uipDataevent cfg seg flags w).2.conn.readahead =
      keepData cfg.readaheadBufsize w.conn.readahead (seg.bytes w.dAppdata w.dLen.toNat) := by
  unfold uipDataevent keepData
  rw [TcpSegment.length_bytes]
  have hlen : 0 < w.dLen ↔ 0 < w.dLen.toNat := UInt16.lt_iff_toNat_lt
  by_cases hpos : 0 < w.dLen
  · simp only [if_pos hpos, if_pos (hlen.mp hpos)]
    cases hroom : lastHasRoom cfg.readaheadBufsize w.conn.readahead w.dLen.toNat with
    | true => rfl
    | false =>
      rw [if_neg Bool.false_ne_true, if_pos hfree]
      rfl
  · simp only [if_neg hpos, if_neg (mt hlen.mpr hpos)]

/-! ### The stream -/

namespace RecvState

def held (s : RecvState) : List UInt8 := (s.pending.map RecvfromS.recv).getD []

/-- The bytes that have been returned, and those on their way. -/
def stream (s : RecvState) : List UInt8 := s.returned ++ s.held ++ s.readahead.flatten

/-- A call that waits has taken all that was in the read-ahead buffers, and has met no error. -/
def Waiting (s : RecvState) : Prop :=
  ∀ pstate ∈ s.pending, s.readahead = [] ∧ pstate.result = 0

variable {s : RecvState} {pstate : RecvfromS}

theorem stream_ret_length (s : RecvState) (pstate : RecvfromS) :
    (s.ret pstate pstate.recv.length).stream = s.returned ++ pstate.recv ++ s.readahead.flatten := by
  simp [stream, ret, held]

theorem stream_ret_error (s : RecvState) (pstate : RecvfromS) {r : ℤ} (hr : r < 0) :
    (s.ret pstate r).stream = s.returned ++ s.readahead.flatten := by
  simp [stream, ret, held, Int.not_le.mpr hr]

theorem stream_ret_or (s : RecvState) (pstate : RecvfromS) {e : ℤ} (he : 0 < e) :
    (s.ret pstate (if (pstate.recv.length : ℤ) ≤ 0 then -e else pstate.recv.length)).stream
      = s.returned ++ pstate.recv ++ s.readahead.flatten := by
  split_ifs with hlen
  · have hnil : pstate.recv = [] := length_eq_zero_iff.mp (by omega)
    rw [stream_ret_error s pstate (by omega), hnil, append_nil]
  · exact stream_ret_length s pstate

theorem stream_of_pending (h : s.pending = some pstate) (hw : s.Waiting) :
    s.stream = s.returned ++ pstate.recv := by
  simp [stream, held, h, (hw pstate h).1]

theorem stream_of_idle (h : s.pending = none) : s.stream = s.returned ++ s.readahead.flatten := by
  simp [stream, held, h]

theorem waiting_of_idle (h : s.pending = none) : s.Waiting := by
  simp [Waiting, h]

end RecvState

theorem recvfromNewdata_eq (data : List UInt8) (pstate : RecvfromS) :
    recvfromNewdata data pstate = ⟨pstate.buflen - data.length,
      pstate.recv ++ data.take pstate.buflen, pstate.result⟩ := by
  unfold recvfromNewdata RecvfromS.copy
  dsimp only
  split_ifs with hlt
  · rw [Nat.sub_self, Nat.sub_eq_zero_of_le (Nat.le_of_lt hlt)]
  · rw [take_length, take_of_length_le (by omega)]

theorem recvfromResult_neg {pstate : RecvfromS} {result : ℤ} (h : pstate.result < 0) :
    recvfromResult result pstate < 0 := by
  rw [recvfromResult, if_pos h]
  exact h

/-- **What is taken from the read-ahead buffers comes first, and what is left follows it.** If the
buffer of the user is not full then nothing is left. -/
theorem recvfromReadahead_spec (readahead : List (List UInt8)) (pstate : RecvfromS) :
    let r := recvfromReadahead readahead pstate
    r.2.recv ++ r.1.flatten = pstate.recv ++ readahead.flatten ∧
      (0 < r.2.buflen → r.1 = []) ∧ r.2.result = pstate.result := by
  induction readahead generalizing pstate with
  | nil => exact ⟨rfl, fun _ => rfl, rfl⟩
  | cons rh list ih =>
    simp only [recvfromReadahead]
    by_cases hlt : pstate.buflen < rh.length
    · -- a part of the buffer is left
      simp only [if_pos hlt]
      rcases Nat.eq_zero_or_pos pstate.buflen with hzero | hpos
      · simp [hzero]
      · rw [if_pos hpos]
        refine ⟨?_, fun hbuf => absurd hbuf (by simp [RecvfromS.copy]), rfl⟩
        simp only [RecvfromS.copy, flatten_cons, append_assoc]
        rw [← append_assoc (take _ rh), take_append_drop]
    simp only [if_neg hlt, Nat.lt_irrefl, if_false]
    -- the buffer is released
    have hcopy : ∃ pstate', (if 0 < rh.length then pstate.copy rh rh.length else pstate) = pstate' ∧
        pstate'.recv = pstate.recv ++ rh ∧ pstate'.result = pstate.result := by
      refine ⟨_, rfl, ?_⟩
      split_ifs with hpos
      · exact ⟨by simp [RecvfromS.copy], rfl⟩
      · have hnil : rh = [] := length_eq_zero_iff.mp (by omega)
        simp [hnil]
    obtain ⟨pstate', hcopy, hrecv, hresult⟩ := hcopy
    rw [hcopy]
    by_cases hbuf : 0 < pstate'.buflen
    · rw [if_pos hbuf]
      obtain ⟨h1, h2, h3⟩ := ih pstate'
      refine ⟨?_, h2, h3.trans hresult⟩
      rw [h1, hrecv, flatten_cons, append_assoc]
    · rw [if_neg hbuf]
      refine ⟨?_, fun hpos => absurd hpos hbuf, hresult⟩
      rw [hrecv, flatten_cons, append_assoc]

/-! ### The steps -/

variable {bufsize : ℕ} {s s' : RecvState} {pstate : RecvfromS} {data : List UInt8} {e : RecvEvent}

/-- What a step does to the stream. -/
structure StepLaw (bufsize : ℕ) (s s' : RecvState) (e : RecvEvent) : Prop where
  waiting : s'.Waiting
  stream : s'.stream = s.stream ++ e.payload ↔ StepKeeps bufsize s e
  idle : ¬StepKeeps bufsize s e → s'.pending = none

theorem StepLaw.of_keeps (hw : s'.Waiting) (hkeeps : StepKeeps bufsize s e)
    (hstream : s'.stream = s.stream ++ e.payload) : StepLaw bufsize s s' e :=
  ⟨hw, iff_of_true hstream hkeeps, fun hnot => absurd hkeeps hnot⟩

theorem StepLaw.of_error {r : ℤ} (hpending : s.pending = some pstate) (hw : s.Waiting) (hr : r < 0)
    (hpayload : e.payload = []) (hkeeps : StepKeeps bufsize s e ↔ pstate.recv = [])
    (pstate' : RecvfromS) : StepLaw bufsize s (s.ret pstate' r) e := by
  refine ⟨RecvState.waiting_of_idle rfl, ?_, fun _ => rfl⟩
  rw [RecvState.stream_ret_error s pstate' hr, RecvState.stream_of_pending hpending hw, hpayload,
    (hw pstate hpending).1, hkeeps]
  simp

/-- **A call of `recvfrom`** takes bytes from the read-ahead buffers, and returns them or waits. -/
theorem stepLaw_recvfrom (hidle : s.pending = none) (len : ℕ) (connected nonblock callback : Bool) :
    StepLaw bufsize s (s.tcpRecvfrom len connected nonblock callback)
      (.recvfrom len connected nonblock callback) := by
  obtain ⟨hstream, hempty, hresult⟩ := recvfromReadahead_spec s.readahead (recvfromInit len)
  have hbefore : s.stream ++ [] = s.returned ++
      ((recvfromReadahead s.readahead (recvfromInit len)).2.recv ++
        (recvfromReadahead s.readahead (recvfromInit len)).1.flatten) := by
    rw [hstream, RecvState.stream_of_idle hidle]
    simp [recvfromInit]
  unfold RecvState.tcpRecvfrom
  generalize hr : recvfromReadahead s.readahead (recvfromInit len) = r at *
  obtain ⟨readahead, pstate⟩ := r
  dsimp only at *
  cases connected with
  | false =>
    refine StepLaw.of_keeps (RecvState.waiting_of_idle rfl) (fun hconn => nomatch hconn) ?_
    rw [if_pos rfl, RecvState.stream_ret_or _ pstate (by decide), RecvEvent.payload, hbefore,
      append_assoc]
  | true =>
    rw [if_neg (Bool.false_ne_true ∘ Eq.symm)]
    cases nonblock with
    | true =>
      refine StepLaw.of_keeps (RecvState.waiting_of_idle rfl) (fun _ hblock => nomatch hblock) ?_
      rw [if_pos rfl, RecvState.stream_ret_or _ pstate (by decide), RecvEvent.payload, hbefore,
        append_assoc]
    | false =>
      rw [if_neg Bool.false_ne_true]
      by_cases hbuf : 0 < pstate.buflen
      · rw [if_pos hbuf]
        cases callback with
        | true =>
          refine StepLaw.of_keeps ?_ (fun _ _ hcb => nomatch hcb) ?_
          · rintro p hp
            cases hp
            exact ⟨hempty hbuf, hresult⟩
          · rw [RecvEvent.payload, hbefore]
            simp [RecvState.stream, RecvState.held]
        | false =>
          -- there is no callback structure, and what has been taken is lost
          rw [if_neg Bool.false_ne_true]
          have hkeeps : StepKeeps bufsize s (.recvfrom len true false false) ↔
              pstate.recv = [] := by
            simp [StepKeeps, hr, hbuf]
          refine ⟨RecvState.waiting_of_idle rfl, ?_, fun _ => rfl⟩
          rw [RecvState.stream_ret_error _ pstate (by decide), RecvEvent.payload, hbefore, hkeeps,
            hempty hbuf]
          simp
      · rw [if_neg hbuf]
        refine StepLaw.of_keeps (RecvState.waiting_of_idle rfl) ?_ ?_
        · simp [StepKeeps, hr, hbuf]
        · rw [RecvState.stream_ret_length, RecvEvent.payload, hbefore, append_assoc]

/-- **A payload arrives while a call waits.** -/
theorem stepLaw_newdata_pending (hpending : s.pending = some pstate) (hw : s.Waiting)
    (data : List UInt8) : StepLaw bufsize s (s.tcpNewdata pstate data) (.newdata data) := by
  obtain ⟨hempty, hresult⟩ := hw pstate hpending
  have hkeeps : StepKeeps bufsize s (.newdata data) ↔ data.length ≤ pstate.buflen := by
    simp [StepKeeps, hpending]
  have htake : data.take pstate.buflen = data ↔ data.length ≤ pstate.buflen :=
    take_eq_self_iff data
  have hbefore : s.stream ++ data = s.returned ++ (pstate.recv ++ data) := by
    rw [RecvState.stream_of_pending hpending hw, append_assoc]
  unfold RecvState.tcpNewdata
  simp only [recvfromNewdata_eq]
  split_ifs with hfull
  · -- the buffer of the user is full
    have hres : recvfromResult 0 ⟨pstate.buflen - data.length,
        pstate.recv ++ data.take pstate.buflen, pstate.result⟩
        = ((pstate.recv ++ data.take pstate.buflen).length : ℤ) := by
      simp [recvfromResult, hresult]
    refine ⟨RecvState.waiting_of_idle rfl, ?_, fun _ => rfl⟩
    rw [hres, RecvState.stream_ret_length, RecvEvent.payload, hbefore, hempty, hkeeps, ← htake]
    simp
  · have hle : data.length ≤ pstate.buflen := by omega
    refine StepLaw.of_keeps ?_ (hkeeps.mpr hle) ?_
    · rintro p hp
      cases hp
      exact ⟨hempty, hresult⟩
    · rw [RecvEvent.payload, hbefore]
      simp [RecvState.stream, RecvState.held, hempty, htake.mpr hle]

/-- **A payload arrives while no call waits.** -/
theorem stepLaw_newdata_idle (hidle : s.pending = none) (bufsize : ℕ) (data : List UInt8) :
    StepLaw bufsize s { s with readahead := keepData bufsize s.readahead data }
      (.newdata data) := by
  refine ⟨RecvState.waiting_of_idle hidle, ?_, fun _ => hidle⟩
  have hafter : RecvState.stream { s with readahead := keepData bufsize s.readahead data }
      = s.returned ++ (keepData bufsize s.readahead data).flatten :=
    RecvState.stream_of_idle hidle
  rw [hafter, RecvState.stream_of_idle hidle, flatten_keepData,
    RecvEvent.payload, append_assoc, append_cancel_left_eq, append_cancel_left_eq,
    take_eq_self_iff]
  simp [StepKeeps, hidle]

theorem stepLaw_timeout (hpending : s.pending = some pstate) (hw : s.Waiting) :
    StepLaw bufsize s (s.tcpTimeout pstate) (.poll true) := by
  obtain ⟨hempty, hresult⟩ := hw pstate hpending
  refine StepLaw.of_keeps (RecvState.waiting_of_idle rfl) trivial ?_
  rw [RecvState.stream_of_pending hpending hw, RecvEvent.payload, append_nil]
  unfold RecvState.tcpTimeout
  dsimp only
  split_ifs with hlen
  · have hnil : pstate.recv = [] := length_eq_zero_iff.mp hlen
    rw [RecvState.stream_ret_error _ _ (recvfromResult_neg (by simp [eagain])), hempty, hnil]
    rfl
  · have hres : recvfromResult 0 pstate = pstate.recv.length := by
      simp [recvfromResult, hresult]
    rw [hres, RecvState.stream_ret_length, hempty]
    simp

/-- **What a step does to the stream.** -/
theorem recvStep_law (hw : s.Waiting) (hstep : recvStep bufsize s e = some s') :
    StepLaw bufsize s s' e := by
  have hsame : e.payload = [] → StepKeeps bufsize s e → StepLaw bufsize s s e := by
    intro hpayload hkeeps
    exact StepLaw.of_keeps hw hkeeps (by rw [hpayload, append_nil])
  cases e with
  | recvfrom len connected nonblock callback =>
    rw [recvStep] at hstep
    split_ifs at hstep with hidle
    cases hstep
    exact stepLaw_recvfrom hidle len connected nonblock callback
  | newdata data =>
    rcases hpending : s.pending with _ | pstate <;>
      simp only [recvStep, hpending, some.injEq] at hstep <;> subst hstep
    · have hlaw := stepLaw_newdata_idle hpending bufsize data
      rwa [hpending] at hlaw
    · exact stepLaw_newdata_pending hpending hw data
  | lost =>
    rcases hpending : s.pending with _ | pstate <;>
      simp only [recvStep, hpending, some.injEq] at hstep <;> subst hstep
    · exact hsame rfl (by simp [StepKeeps, hpending])
    · exact StepLaw.of_error hpending hw (recvfromResult_neg (by simp [enotconn])) rfl
        (by simp [StepKeeps, hpending]) _
  | poll timeout =>
    cases hpending : s.pending with
    | some pstate =>
      simp only [recvStep, hpending] at hstep
      cases timeout with
      | true =>
        cases hstep
        exact stepLaw_timeout hpending hw
      | false =>
        cases hstep
        exact hsame rfl trivial
    | none =>
      simp only [recvStep, hpending, some.injEq] at hstep
      rw [← hstep]
      exact hsame rfl trivial
  | signal =>
    rcases hpending : s.pending with _ | pstate <;>
      simp only [recvStep, hpending, some.injEq] at hstep <;> subst hstep
    · exact hsame rfl (by simp [StepKeeps, hpending])
    · refine StepLaw.of_error hpending hw ?_ rfl (by simp [StepKeeps, hpending]) _
      simp [recvfromResult, (hw pstate hpending).2, eintr]

/-! ### Runs -/

def payloads (es : List RecvEvent) : List UInt8 := es.flatMap RecvEvent.payload

/-- **The bytes that have been returned and those in the read-ahead buffers are the payloads**, after
each part of a sequence of events after which no call waits. -/
def RecvLaw (bufsize : ℕ) (s : RecvState) (es : List RecvEvent) : Prop :=
  ∀ es₁ s₁, es₁ <+: es → recvRun bufsize s es₁ = some s₁ → s₁.pending = none →
    s₁.returned ++ s₁.readahead.flatten = s.stream ++ payloads es₁

theorem recvLaw_iff_runKeeps (hw : s.Waiting) {es : List RecvEvent}
    (hrun : recvRun bufsize s es = some s') : RecvLaw bufsize s es ↔ RunKeeps bufsize s es := by
  induction es generalizing s with
  | nil =>
    refine iff_of_true (fun es1 s1 hes hrun1 hidle => ?_) trivial
    obtain rfl := prefix_nil.mp hes
    cases hrun1
    rw [RecvState.stream_of_idle hidle]
    exact (append_nil _).symm
  | cons e es ih =>
    obtain ⟨s2, hstep, hrest⟩ := bind_eq_some_iff.mp hrun
    have hstepLaw := recvStep_law hw hstep
    have hih := ih hstepLaw.waiting hrest
    constructor
    · intro hlaw
      have hkeeps : StepKeeps bufsize s e := by
        -- after a step that loses bytes no call waits, and bytes are missing
        by_contra hnot
        have hidle := hstepLaw.idle hnot
        have heq := hlaw [e] s2 (prefix_append [e] es) (by simp [recvRun, hstep]) hidle
        rw [← RecvState.stream_of_idle hidle] at heq
        exact hnot (hstepLaw.stream.mp (by simpa [payloads] using heq))
      refine ⟨hkeeps, fun s3 hstep3 => ?_⟩
      obtain rfl := some.inj (hstep3.symm.trans hstep)
      refine hih.mp fun es1 s1 hes hrun1 hidle => ?_
      have heq := hlaw (e :: es1) s1 (cons_prefix_cons.mpr ⟨rfl, hes⟩)
        (by simp [recvRun, hstep, hrun1]) hidle
      rw [heq, hstepLaw.stream.mpr hkeeps, append_assoc]
      rfl
    · rintro ⟨hkeeps, hrunKeeps⟩ es1 s1 hes hrun1 hidle
      cases es1 with
      | nil =>
        cases hrun1
        rw [RecvState.stream_of_idle hidle]
        exact (append_nil _).symm
      | cons e1 es1 =>
        obtain ⟨rfl, hes1⟩ := cons_prefix_cons.mp hes
        obtain ⟨s3, hstep3, hrun1⟩ := bind_eq_some_iff.mp hrun1
        obtain rfl := some.inj (hstep3.symm.trans hstep)
        have heq := hih.mpr (hrunKeeps s3 hstep3) es1 s1 hes1 hrun1 hidle
        rw [heq, hstepLaw.stream.mpr hkeeps, append_assoc]
        rfl

/-- **Receiving preserves the stream exactly when every step keeps what it handles**, in every
sequence of events on a new connection. -/
theorem recvLaw_iff {es : List RecvEvent} (hrun : recvRun bufsize recvStart es = some s') :
    RecvLaw bufsize recvStart es ↔ RunKeeps bufsize recvStart es :=
  recvLaw_iff_runKeeps (RecvState.waiting_of_idle rfl) hrun

theorem recvLaw_iff_parts :
    RecvLaw 4 recvStart [.newdata [1, 2, 3], .recvfrom 5 true false true, .newdata [4, 5]] := by
  have hrun : recvRun 4 recvStart [.newdata [1, 2, 3], .recvfrom 5 true false true,
      .newdata [4, 5]] = some ⟨[], none, [1, 2, 3, 4, 5]⟩ := by
    decide
  have hstep₁ : recvStep 4 recvStart (.newdata [1, 2, 3]) = some ⟨[[1, 2, 3]], none, []⟩ := by
    decide
  have hstep₂ : recvStep 4 ⟨[[1, 2, 3]], none, []⟩ (.recvfrom 5 true false true)
      = some ⟨[], some ⟨2, [1, 2, 3], 0⟩, []⟩ := by
    decide
  refine (recvLaw_iff hrun).mpr ⟨by simp [StepKeeps, recvStart, readaheadRoom], fun s₁ h₁ => ?_⟩
  obtain rfl := Option.some.inj (h₁.symm.trans hstep₁)
  refine ⟨fun _ _ hcb => absurd hcb (by decide), fun s₂ h₂ => ?_⟩
  obtain rfl := Option.some.inj (h₂.symm.trans hstep₂)
  exact ⟨Nat.le_refl 2, fun _ _ => trivial⟩

/-- **A payload is cut at the end of the user's buffer**: the rest of it is lost. -/
theorem recv_truncates :
    ¬RecvLaw 4 recvStart [.recvfrom 2 true false true, .newdata [1, 2, 3]] := by
  intro hlaw
  have hrun : recvRun 4 recvStart [.recvfrom 2 true false true, .newdata [1, 2, 3]]
      = some ⟨[], none, [1, 2]⟩ := by
    decide
  exact absurd (hlaw _ _ (List.prefix_rfl) hrun rfl) (by decide)

end NuttX
