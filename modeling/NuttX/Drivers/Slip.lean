import Mathlib

/-!
# SLIP framing

`slip_transmit` sends a packet between two END characters, and the END and ESC characters in it as
escape sequences. The others are sent in runs, from a pointer `start` on. It is moved behind an END
or ESC only if there was something to send before it: where a packet begins with one of these
characters, or two of them follow each other, `start` stays behind, and the next run is sent from
the wrong place (`NuttX.slip_breaks_packet`). Packets in which no run follows are received as they
were sent (`NuttX.slipLaw_of_inStep`).
-/

namespace NuttX

open List

def slipEnd : UInt8 := 0o300

def slipEsc : UInt8 := 0o333

def slipEscEnd : UInt8 := 0o334

def slipEscEsc : UInt8 := 0o335

/-- The characters that are sent as escape sequences. -/
def SlipSpecial (b : UInt8) : Prop := b = slipEnd ∨ b = slipEsc

instance (b : UInt8) : Decidable (SlipSpecial b) := inferInstanceAs (Decidable (_ ∨ _))

/-- The second character of an escape sequence. -/
def slipEscape (b : UInt8) : UInt8 := if b = slipEnd then slipEscEnd else slipEscEsc

/-- The loop of `slip_transmit` over the characters that remain, and the write after it. The
pointers are positions in `buf`. -/
def slipLoop (buf : List UInt8) : List UInt8 → ℕ → ℕ → ℕ → List UInt8
  | [], _, start, len => if len > 0 then (buf.drop start).take len else []
  | b :: remaining, src, start, len =>
    if SlipSpecial b then
      if len > 0 then (buf.drop start).take len ++
        slipEsc :: slipEscape b :: slipLoop buf remaining (src + 1) (src + 1) 0
      else slipEsc :: slipEscape b :: slipLoop buf remaining (src + 1) start len
    else slipLoop buf remaining (src + 1) start (len + 1)

/-- `slip_transmit`: what is written for a packet. -/
def slipTransmit (buf : List UInt8) : List UInt8 :=
  slipEnd :: (slipLoop buf buf 0 0 0 ++ [slipEnd])

/-- A character is stored in `rxbuf` if there is room. -/
def slipStore (bufsize : ℕ) (rxbuf : List UInt8) (ch : UInt8) : List UInt8 :=
  if rxbuf.length < bufsize + 2 then rxbuf ++ [ch] else rxbuf

/-- The packets that are assembled from some input, with the interface up. The loop of `slip_rxtask`
gets the first character (`none`), and then that of `slip_receive` has characters in `rxbuf`, and
returns when a packet is complete. -/
def slipRxtask (bufsize : ℕ) : List UInt8 → Option (List UInt8) → List (List UInt8)
  | [], _ => []
  | ch :: input, none => slipRxtask bufsize input (some (if ch = slipEnd then [] else [ch]))
  | ch :: input, some rxbuf =>
    if ch = slipEnd then
      if rxbuf.length > 0 then rxbuf :: slipRxtask bufsize input none
      else slipRxtask bufsize input (some rxbuf)
    else if ch = slipEsc then
      match input with
      | [] => []
      | ch :: input =>
        slipRxtask bufsize input (some (slipStore bufsize rxbuf
          (if ch = slipEscEnd then slipEnd else if ch = slipEscEsc then slipEsc else ch)))
    else slipRxtask bufsize input (some (slipStore bufsize rxbuf ch))

/-- **Packets are received as they were sent.** -/
def SlipLaw (bufsize : ℕ) (packets : List (List UInt8)) : Prop :=
  slipRxtask bufsize (packets.flatMap slipTransmit) none = packets

/-- An END or ESC that is the first character or behind another one is followed by such characters
only. -/
def SlipInStep (packet : List UInt8) : Prop :=
  ∀ l b m, packet = l ++ b :: m → SlipSpecial b → (∀ a ∈ l.getLast?, SlipSpecial a) →
    ∀ c ∈ m, SlipSpecial c

/-- What stands for a character of a packet. -/
def slipSeq (b : UInt8) : List UInt8 := if SlipSpecial b then [slipEsc, slipEscape b] else [b]

variable {bufsize : ℕ} {buf remaining sent run packet rxbuf input : List UInt8}

theorem slipLoop_special (src start : ℕ) (h : ∀ b ∈ remaining, SlipSpecial b) :
    slipLoop buf remaining src start 0 = remaining.flatMap slipSeq := by
  induction remaining generalizing src with
  | nil => rfl
  | cons b remaining ih =>
    rw [forall_mem_cons] at h
    simp [slipLoop, slipSeq, h.1, ih _ h.2]

/-- **The runs are sent from the right place**: `run` is what has not been sent, and what has been
sent before ends in an END or ESC. -/
theorem slipLoop_inStep (h : SlipInStep buf) (hbuf : buf = sent ++ (run ++ remaining))
    (hsent : ∀ a ∈ sent.getLast?, SlipSpecial a) :
    slipLoop buf remaining (sent.length + run.length) sent.length run.length
      = run ++ remaining.flatMap slipSeq := by
  have hrun : (buf.drop sent.length).take run.length = run := by
    rw [hbuf, drop_left, take_left]
  induction remaining generalizing sent run with
  | nil =>
    rw [slipLoop, hrun]
    cases run with
    | nil | cons a run => simp
  | cons b remaining ih =>
    rw [slipLoop, hrun, flatMap_cons, slipSeq]
    by_cases hb : SlipSpecial b
    · rw [if_pos hb, if_pos hb]
      cases run with
      | nil =>
        -- the pointer stays behind, and only escape sequences follow
        simp [slipLoop_special _ _ (h sent b remaining hbuf hb hsent)]
      | cons a run =>
        have hlast : ∀ c ∈ (sent ++ a :: run ++ [b]).getLast?, SlipSpecial c := by
          rw [getLast?_concat]
          rintro c ⟨⟩
          exact hb
        have hnext := @ih (sent ++ a :: run ++ [b]) [] (by simp [hbuf]) hlast rfl
        simp only [length_append, length_cons, length_nil] at hnext ⊢
        rw [if_pos (Nat.succ_pos _), hnext]
        simp
    · rw [if_neg hb, if_neg hb, ← append_assoc]
      rw [append_cons] at hbuf
      have hnext := ih hbuf hsent (by rw [hbuf, drop_left, take_left])
      rwa [length_append] at hnext

theorem slipRxtask_seq (b : UInt8) :
    slipRxtask bufsize (slipSeq b ++ input) (some rxbuf)
      = slipRxtask bufsize input (some (slipStore bufsize rxbuf b)) := by
  by_cases hb : SlipSpecial b
  · rcases hb with rfl | rfl
    · rfl
    · rfl
  · obtain ⟨hend, hesc⟩ := not_or.mp hb
    rw [slipSeq, if_neg hb]
    exact (slipRxtask.eq_def ..).trans ((if_neg hend).trans (if_neg hesc))

/-- **A packet is assembled.** -/
theorem slipRxtask_packet (hne : rxbuf ++ packet ≠ []) (hlen : (rxbuf ++ packet).length ≤ bufsize) :
    slipRxtask bufsize (packet.flatMap slipSeq ++ slipEnd :: input) (some rxbuf)
      = (rxbuf ++ packet) :: slipRxtask bufsize input none := by
  induction packet generalizing rxbuf with
  | nil =>
    rw [append_nil] at hne ⊢
    exact (slipRxtask.eq_def ..).trans ((if_pos rfl).trans (if_pos (length_pos_iff.mpr hne)))
  | cons b packet ih =>
    rw [append_cons] at hne hlen
    have hstore : slipStore bufsize rxbuf b = rxbuf ++ [b] :=
      if_pos (by simp only [length_append, length_singleton] at hlen; omega)
    rw [flatMap_cons, append_assoc, slipRxtask_seq, hstore, append_cons rxbuf b packet]
    exact ih hne hlen

/-- **Packets are received as they were sent if in each of them an END or ESC that is the first
character or behind another one is followed by such characters only.** -/
theorem slipLaw_of_inStep {packets : List (List UInt8)}
    (hlen : ∀ packet ∈ packets, 1 ≤ packet.length ∧ packet.length ≤ bufsize)
    (hstep : ∀ packet ∈ packets, SlipInStep packet) : SlipLaw bufsize packets := by
  unfold SlipLaw
  induction packets with
  | nil => rfl
  | cons packet packets ih =>
    rw [forall_mem_cons] at hlen hstep
    have hloop : slipLoop packet packet 0 0 0 = packet.flatMap slipSeq :=
      @slipLoop_inStep packet packet [] [] hstep.1 rfl (by simp)
    rw [flatMap_cons, slipTransmit, hloop, cons_append, append_assoc, slipRxtask, if_pos rfl,
      singleton_append, @slipRxtask_packet _ packet [] _ (length_pos_iff.mp hlen.1.1) hlen.1.2,
      ih hlen.2 hstep.2]
    rfl

theorem slipLaw_of_inStep_one : SlipLaw 296 [[0xc0]] := by
  refine slipLaw_of_inStep (by decide) fun packet hpacket l b m heq hb hl => ?_
  obtain rfl := mem_singleton.mp hpacket
  have hlen := congrArg length heq
  simp only [length_cons, length_append, length_nil] at hlen
  obtain rfl : m = [] := length_eq_zero_iff.mp (by omega)
  exact fun c hc => absurd hc not_mem_nil

/-- **A packet that begins with END is broken**: `start` stays at the END, which is sent in place of
the second character. -/
theorem slip_breaks_packet : ¬SlipLaw 296 [[0xc0, 1]] := by
  unfold SlipLaw
  decide

end NuttX
