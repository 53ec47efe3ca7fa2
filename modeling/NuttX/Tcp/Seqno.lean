import Mathlib

/-!
# TCP sequence numbers

A sequence number is kept as it stands in the header of a segment, four bytes with the most
significant one first. The ACK side of the protocol converts it to a 32 bit word and back
(`uip_tcpseqno.c`); the receive side adds to it in place, a byte at a time with the carries
propagated by hand (`uip_incr32` in `uip_chksum.c`).

Both are addition modulo `2 ^ 32`. `NuttX.SeqBytes.toNat` is the number the four bytes stand
for, and the lemmas about the byte-wise code are stated through it:
`NuttX.toNat_uipIncr32` for the addition and `NuttX.toNat_uipTcpgetsequence` for the conversion.
-/

namespace NuttX

/-- A sequence number as the connection and the TCP header keep it, in network order. -/
@[ext]
structure SeqBytes where
  b0 : UInt8
  b1 : UInt8
  b2 : UInt8
  b3 : UInt8
deriving DecidableEq, Repr

/-- The number that four bytes in network order stand for. -/
def SeqBytes.toNat (s : SeqBytes) : Nat :=
  s.b0.toNat * 0x1000000 + s.b1.toNat * 0x10000 + s.b2.toNat * 0x100 + s.b3.toNat

theorem SeqBytes.toNat_lt (s : SeqBytes) : s.toNat < 2 ^ 32 := by
  have h0 := s.b0.toNat_lt
  have h1 := s.b1.toNat_lt
  have h2 := s.b2.toNat_lt
  have h3 := s.b3.toNat_lt
  unfold SeqBytes.toNat
  omega

theorem SeqBytes.toNat_injective {s t : SeqBytes} (h : s.toNat = t.toNat) : s = t := by
  have hs1 := s.b1.toNat_lt
  have hs2 := s.b2.toNat_lt
  have hs3 := s.b3.toNat_lt
  have ht1 := t.b1.toNat_lt
  have ht2 := t.b2.toNat_lt
  have ht3 := t.b3.toNat_lt
  unfold SeqBytes.toNat at h
  ext <;> omega

/-! ### Conversion (`uip_tcpseqno.c`) -/

/-- `uip_tcpsetsequence`: the bytes of a word, most significant first. -/
def uipTcpsetsequence (value : UInt32) : SeqBytes where
  b0 := (value >>> 24).toUInt8
  b1 := ((value >>> 16) &&& 0xff).toUInt8
  b2 := ((value >>> 8) &&& 0xff).toUInt8
  b3 := (value &&& 0xff).toUInt8

/-- `uip_tcpgetsequence`: the word that four bytes stand for. -/
def uipTcpgetsequence (seqno : SeqBytes) : UInt32 :=
  seqno.b0.toUInt32 <<< 24 ||| seqno.b1.toUInt32 <<< 16 ||| seqno.b2.toUInt32 <<< 8 |||
    seqno.b3.toUInt32

/-- `uip_tcpaddsequence`: a sequence number plus a length. -/
def uipTcpaddsequence (seqno : SeqBytes) (len : UInt16) : UInt32 :=
  uipTcpgetsequence seqno + len.toUInt32

theorem toNat_uipTcpgetsequence (seqno : SeqBytes) :
    (uipTcpgetsequence seqno).toNat = seqno.toNat := by
  have h0 := seqno.b0.toNat_lt
  have h1 := seqno.b1.toNat_lt
  have h2 := seqno.b2.toNat_lt
  have h3 := seqno.b3.toNat_lt
  unfold uipTcpgetsequence SeqBytes.toNat
  have e0 : (seqno.b0.toUInt32 <<< 24).toNat = seqno.b0.toNat <<< 24 := by
    simp [UInt32.toNat_shiftLeft, Nat.shiftLeft_eq]
    omega
  have e1 : (seqno.b1.toUInt32 <<< 16).toNat = seqno.b1.toNat <<< 16 := by
    simp [UInt32.toNat_shiftLeft, Nat.shiftLeft_eq]
    omega
  have e2 : (seqno.b2.toUInt32 <<< 8).toNat = seqno.b2.toNat <<< 8 := by
    simp [UInt32.toNat_shiftLeft, Nat.shiftLeft_eq]
    omega
  -- the bytes do not overlap, so that each `|||` is an addition
  have low : seqno.b2.toNat <<< 8 ||| seqno.b3.toNat = seqno.b2.toNat * 0x100 + seqno.b3.toNat := by
    rw [← Nat.shiftLeft_add_eq_or_of_lt (i := 8) h3, Nat.shiftLeft_eq]
  have mid : seqno.b1.toNat <<< 16 ||| (seqno.b2.toNat * 0x100 + seqno.b3.toNat)
      = seqno.b1.toNat * 0x10000 + (seqno.b2.toNat * 0x100 + seqno.b3.toNat) := by
    rw [← Nat.shiftLeft_add_eq_or_of_lt (i := 16) (by omega), Nat.shiftLeft_eq]
  simp only [UInt32.toNat_or, e0, e1, e2, UInt8.toNat_toUInt32, Nat.or_assoc]
  rw [low, mid, ← Nat.shiftLeft_add_eq_or_of_lt (i := 24) (by omega), Nat.shiftLeft_eq]
  omega

@[simp]
theorem uipTcpgetsequence_inj {s t : SeqBytes} :
    uipTcpgetsequence s = uipTcpgetsequence t ↔ s = t := by
  refine ⟨fun h => ?_, fun h => by rw [h]⟩
  apply SeqBytes.toNat_injective
  rw [← toNat_uipTcpgetsequence, ← toNat_uipTcpgetsequence, h]

@[simp]
theorem uipTcpgetsequence_set (value : UInt32) :
    uipTcpgetsequence (uipTcpsetsequence value) = value := by
  apply UInt32.toNat_inj.mp
  have hv := value.toNat_lt
  rw [toNat_uipTcpgetsequence]
  have mask (n : Nat) : n &&& 255 = n % 256 := Nat.and_two_pow_sub_one_eq_mod n 8
  simp only [SeqBytes.toNat, uipTcpsetsequence, UInt32.toNat_toUInt8, UInt32.toNat_and,
    UInt32.toNat_shiftRight, UInt32.reduceToNat, mask, Nat.shiftRight_eq_div_pow, Nat.reduceMod,
    Nat.reducePow]
  omega

/-! ### Addition in place (`uip_chksum.c`) -/

/-- `uip_carry32`: propagates the carries after the low half of `sum` has been increased by
`op16`, first the one out of byte 2, then the one out of byte 3. -/
def uipCarry32 (sum : SeqBytes) (op16 : UInt16) : SeqBytes :=
  let sum :=
    if sum.b2 < (op16 >>> 8).toUInt8 then
      let sum := { sum with b1 := sum.b1 + 1 }
      if sum.b1 = 0 then { sum with b0 := sum.b0 + 1 } else sum
    else sum
  if sum.b3 < (op16 &&& 0xff).toUInt8 then
    let sum := { sum with b2 := sum.b2 + 1 }
    if sum.b2 = 0 then
      let sum := { sum with b1 := sum.b1 + 1 }
      if sum.b1 = 0 then { sum with b0 := sum.b0 + 1 } else sum
    else sum
  else sum

/-- `uip_incr32`: adds a 16 bit number to a sequence number in place. -/
def uipIncr32 (op32 : SeqBytes) (op16 : UInt16) : SeqBytes :=
  let op32 := { op32 with b3 := op32.b3 + (op16 &&& 0xff).toUInt8 }
  let op32 := { op32 with b2 := op32.b2 + (op16 >>> 8).toUInt8 }
  uipCarry32 op32 op16

/-- **The byte-wise addition is addition modulo `2 ^ 32`.** -/
theorem toNat_uipIncr32 (op32 : SeqBytes) (op16 : UInt16) :
    (uipIncr32 op32 op16).toNat = (op32.toNat + op16.toNat) % 2 ^ 32 := by
  obtain ⟨b0, b1, b2, b3⟩ := op32
  have h0 := b0.toNat_lt
  have h1 := b1.toNat_lt
  have h2 := b2.toNat_lt
  have h3 := b3.toNat_lt
  have hop := op16.toNat_lt
  have hlow : (op16 &&& 0xff).toUInt8.toNat = op16.toNat % 256 := by
    have mask := Nat.and_two_pow_sub_one_eq_mod op16.toNat 8
    change (op16.toNat &&& (2 ^ 8 - 1)) % 2 ^ 8 = _
    omega
  have hhigh : (op16 >>> 8).toUInt8.toNat = op16.toNat / 256 := by
    simp only [UInt16.toNat_toUInt8, UInt16.toNat_shiftRight, UInt16.reduceToNat,
      Nat.shiftRight_eq_div_pow, Nat.reduceMod, Nat.reducePow]
    omega
  unfold uipIncr32 uipCarry32 SeqBytes.toNat
  simp only [← UInt8.toNat_inj, UInt8.lt_iff_toNat_lt]
  split_ifs <;>
    simp only [UInt8.toNat_add, UInt8.reduceToNat, UInt8.toNat_zero, hlow, hhigh] at * <;> omega

end NuttX
