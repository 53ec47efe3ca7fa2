import Mathlib

/-!
# Reading from a CAN device

`can_read` is to copy as many messages from the receive FIFO as fit into the buffer of the caller.
Its loop adds up the lengths in `nread`, but compares with `ret`, which stays 0: each message is
compared with the whole buffer. So the messages before the first one that is longer than the buffer
are copied (`NuttX.canReadLoop_eq`), and this is right exactly when they fit into it together
(`NuttX.canReadLaw_iff`); if not, bytes are written behind its end (`NuttX.canRead_overruns`).
-/

namespace NuttX

open List

/-- `struct can_msg_s`: the header, and the bytes of memory from the message on. A header can give a
length of up to 15 bytes of data, and then `memcpy` reads on behind the message. -/
structure CanMsg where
  hdr : ℕ
  mem : ℕ → UInt8

def canDlc (hdr : ℕ) : ℕ := hdr &&& 0x0f

/-- `CAN_MSGLEN`: two bytes of a header, and the data. -/
def canMsglen (hdr : ℕ) : ℕ := 2 + canDlc hdr

/-- The bytes that are copied. -/
def CanMsg.bytes (msg : CanMsg) : List UInt8 := (range (canMsglen msg.hdr)).map msg.mem

/-- `struct can_fifo_s`, with room for `size` messages (`CONFIG_CAN_FIFOSIZE`). -/
structure CanFifo (size : ℕ) where
  head : Fin size
  tail : Fin size
  buffer : ℕ → CanMsg

variable {size : ℕ}

/-- An index is incremented. -/
def canNext (i : Fin size) : Fin size :=
  ⟨if i + 1 ≥ size then 0 else i + 1, by split_ifs <;> omega⟩

/-- The `do` loop of `can_read`, with the bytes that have been written, `nread` of them. After more rounds
than there are messages the loop goes on for ever (`none`). -/
def canReadLoop (buflen ret : ℕ) :
    ℕ → CanFifo size → List UInt8 → Option (List UInt8 × CanFifo size)
  | 0, _, _ => none
  | rounds + 1, fifo, written =>
    let msg := fifo.buffer fifo.head
    if ret + canMsglen msg.hdr > buflen then some (written, fifo)
    else
      let written := written ++ msg.bytes
      let fifo := { fifo with head := canNext fifo.head }
      if fifo.head ≠ fifo.tail then canReadLoop buflen ret rounds fifo written
      else some (written, fifo)

/-- `can_read`: what it returns (-11 is `-EAGAIN`), what it writes to the buffer, and the FIFO. A
call that waits for a message does not return (`none`). -/
def canRead (fifo : CanFifo size) (nonblock : Bool) (buflen : ℕ) :
    Option (ℤ × List UInt8 × CanFifo size) :=
  if buflen ≥ canMsglen 0 then
    if fifo.head = fifo.tail then
      if nonblock then some (-11, [], fifo) else none
    else do
      let (written, fifo) ← canReadLoop buflen 0 size fifo []
      return (written.length, written, fifo)
  else some (0, [], fifo)

/-! ### What is in a FIFO -/

/-- The indices from a head to before a tail. -/
def canSlots (head tail : Fin size) : List ℕ :=
  if head ≤ tail then range' head (tail - head) else range' head (size - head) ++ range tail

/-- The messages in a FIFO, in the order of their arrival. -/
def CanFifo.msgs (fifo : CanFifo size) : List CanMsg :=
  (canSlots fifo.head fifo.tail).map fifo.buffer

/-- Messages back to back. -/
def canBytes (msgs : List CanMsg) : List UInt8 := msgs.flatMap CanMsg.bytes

/-- **A read takes what fits**: the longest part of the messages that is not longer than the buffer
is written to it, its length is returned, and the others stay in the FIFO. -/
def CanReadLaw (fifo : CanFifo size) (nonblock : Bool) (buflen : ℕ) : Prop :=
  ∃ taken left fifo', fifo.msgs = taken ++ left ∧ (canBytes taken).length ≤ buflen ∧
    (∀ l, l <+: fifo.msgs → (canBytes l).length ≤ buflen → l <+: taken) ∧
    canRead fifo nonblock buflen = some (↑(canBytes taken).length, canBytes taken, fifo') ∧
    fifo'.msgs = left

variable {buflen rounds : ℕ} {fifo : CanFifo size} {head tail : Fin size}

theorem canSlots_cons (hne : head ≠ tail) :
    canSlots head tail = ↑head :: canSlots (canNext head) tail := by
  have hne' := Fin.val_ne_of_ne hne
  unfold canSlots canNext
  simp only [Fin.le_def]
  by_cases hlast : (head : ℕ) + 1 ≥ size
  · rw [if_pos hlast, if_neg (by omega), show size - head = 1 by omega, if_pos (Nat.zero_le _)]
    simp [range_eq_range']
  rw [if_neg hlast]
  split_ifs with hle hlt hlt
  · rw [← range'_succ, show tail - (head + 1) + 1 = (tail - head : ℕ) by omega]
  · omega
  · omega
  · rw [← cons_append, ← range'_succ, show size - (head + 1) + 1 = size - head by omega]

theorem canSlots_length (head tail : Fin size) : (canSlots head tail).length ≤ size := by
  unfold canSlots
  split_ifs <;> simp <;> omega

/-- **The loop takes the messages before the first one that is longer than the buffer.** -/
theorem canReadLoop_eq (hne : fifo.head ≠ fifo.tail)
    (hrounds : (canSlots fifo.head fifo.tail).length ≤ rounds) (written : List UInt8) :
    ∃ fifo', canReadLoop buflen 0 rounds fifo written = some (written ++
        canBytes (fifo.msgs.takeWhile fun msg => canMsglen msg.hdr ≤ buflen), fifo') ∧
      fifo'.msgs = fifo.msgs.dropWhile fun msg => canMsglen msg.hdr ≤ buflen := by
  induction rounds generalizing fifo written with
  | zero => simp [canSlots_cons hne] at hrounds
  | succ rounds ih =>
    obtain ⟨head, tail, buffer⟩ := fifo
    rw [canSlots_cons hne] at hrounds
    rw [canReadLoop, CanFifo.msgs, canSlots_cons hne, map_cons]
    dsimp only at *
    by_cases hshort : canMsglen (buffer head).hdr ≤ buflen
    · rw [if_neg (by omega), takeWhile_cons_of_pos (by simpa), dropWhile_cons_of_pos (by simpa),
        canBytes, flatMap_cons, ← append_assoc]
      by_cases hmore : canNext head = tail
      · refine ⟨⟨tail, tail, buffer⟩, ?_⟩
        simp [hmore, CanFifo.msgs, canSlots]
      · rw [if_pos hmore]
        exact @ih ⟨canNext head, tail, buffer⟩ hmore (Nat.le_of_succ_le_succ hrounds) _
    · have hlong := Nat.lt_of_not_le hshort
      rw [if_pos (by omega), takeWhile_cons_of_neg (by simpa), dropWhile_cons_of_neg (by simpa)]
      refine ⟨⟨head, tail, buffer⟩, by simp [canBytes], ?_⟩
      rw [CanFifo.msgs, canSlots_cons hne, map_cons]

/-- **A read of a FIFO takes what fits if and only if the messages before the first one that is
longer than the buffer fit into it together.** -/
theorem canReadLaw_iff (hne : fifo.head ≠ fifo.tail) (hbuf : buflen ≥ canMsglen 0)
    (nonblock : Bool) :
    CanReadLaw fifo nonblock buflen ↔
      (canBytes (fifo.msgs.takeWhile fun msg => canMsglen msg.hdr ≤ buflen)).length ≤ buflen := by
  obtain ⟨fifo', hloop, hleft⟩ := canReadLoop_eq hne (canSlots_length _ _) []
  have hread := canRead.eq_1 fifo nonblock buflen
  rw [if_pos hbuf, if_neg hne, hloop] at hread
  constructor
  · rintro ⟨taken, left, fifo'', -, hle, -, hread', -⟩
    have hlen := congrArg (Option.map fun r => r.2.1.length) (hread.symm.trans hread')
    exact Nat.le_trans (Nat.le_of_eq (Option.some.inj hlen)) hle
  · intro hle
    refine ⟨_, _, fifo', takeWhile_append_dropWhile.symm, hle, ?_, hread, hleft⟩
    rintro l ⟨m, hm⟩ hl
    -- no message of `l` is longer than the buffer, as they are not together
    have hall : ∀ msg ∈ l, canMsglen msg.hdr ≤ buflen := by
      intro msg hmsg
      obtain ⟨a, b, rfl⟩ := append_of_mem hmsg
      simp [canBytes, CanMsg.bytes] at hl
      omega
    rw [← hm, takeWhile_append_of_pos (by simpa using hall)]
    exact prefix_append l _

theorem canReadLaw_iff_two : CanReadLaw (⟨7, 1, fun _ => ⟨0, fun _ => 0⟩⟩ : CanFifo 8) false 4 :=
  (canReadLaw_iff (by decide) (by decide) false).mpr (by decide)

/-- **Two messages are written to a buffer that has room for one.** -/
theorem canRead_overruns :
    ¬CanReadLaw (⟨0, 2, fun _ => ⟨0, fun _ => 0⟩⟩ : CanFifo 8) false 2 := by
  rintro ⟨taken, left, fifo', -, hle, -, hread, -⟩
  have hlen := congrArg (Option.map fun r => r.2.1.length) hread
  have hfour : (canRead (⟨0, 2, fun _ => ⟨0, fun _ => 0⟩⟩ : CanFifo 8) false 2).map
      (fun r => r.2.1.length) = some 4 := by
    decide
  rw [hfour] at hlen
  exact absurd (Nat.le_trans (Nat.le_of_eq (Option.some.inj hlen)) hle) (by decide)

end NuttX
