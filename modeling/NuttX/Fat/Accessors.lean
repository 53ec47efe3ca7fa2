import Mathlib

/-!
# Little-endian fields on any host

The fields of a FAT volume are stored with the low byte first. `NuttX.fatGetuint16` and its three
companions read and write them byte by byte, for both settings of `CONFIG_ENDIAN_BIG`. The 32-bit
store looks at its argument as an array of halves and takes `val[2]`, which lies behind it; what is
there is a parameter.
-/

namespace NuttX

open Function

variable (big : Bool)

def fatGetuint16 (p : ℕ → ℕ) (i : ℕ) : ℕ :=
  if big then 0x100 * p i + p (i + 1) else 0x100 * p (i + 1) + p i

def fatGetuint32 (p : ℕ → ℕ) (i : ℕ) : ℕ :=
  if big then 0x10000 * fatGetuint16 big p i + fatGetuint16 big p (i + 2)
  else 0x10000 * fatGetuint16 big p (i + 2) + fatGetuint16 big p i

/-- The pieces of a value in the memory of the host, each below `m`. -/
def pieces (m v : ℕ) : ℕ → ℕ
  | 0 => if big then v / m else v % m
  | _ => if big then v % m else v / m

def fatPutuint16 (p : ℕ → ℕ) (i : ℕ) (value16 : ℕ) : ℕ → ℕ :=
  let val := pieces big 0x100 value16
  if big then update (update p i (val 1)) (i + 1) (val 0)
  else update (update p i (val 0)) (i + 1) (val 1)

def fatPutuint32 (behind : ℕ) (p : ℕ → ℕ) (i : ℕ) (value32 : ℕ) : ℕ → ℕ :=
  let val := fun j => if j < 2 then pieces big 0x10000 value32 j else behind
  if big then fatPutuint16 big (fatPutuint16 big p i (val 2)) (i + 2) (val 0)
  else fatPutuint16 big (fatPutuint16 big p i (val 0)) (i + 2) (val 2)

/-- What a field of `n` bytes stands for. -/
def leValue (p : ℕ → ℕ) (i : ℕ) : ℕ → ℕ
  | 0 => 0
  | n + 1 => p i + 0x100 * leValue p (i + 1) n

/-- A field of `n` bytes is written. -/
def leStore (p : ℕ → ℕ) (i : ℕ) : ℕ → ℕ → ℕ → ℕ
  | 0, _ => p
  | n + 1, v => leStore (update p i (v % 0x100)) (i + 1) n (v / 0x100)

/-- What the functions are for. -/
structure AccessorLaw (behind : UInt16) (p : ℕ → ℕ) (i : ℕ) (v : UInt16) (w : UInt32) : Prop where
  get16 : fatGetuint16 big p i = leValue p i 2
  get32 : fatGetuint32 big p i = leValue p i 4
  put16 : fatPutuint16 big p i v.toNat = leStore p i 2 v.toNat
  put32 : fatPutuint32 big behind.toNat p i w.toNat = leStore p i 4 w.toNat
  again16 : fatGetuint16 big (fatPutuint16 big p i v.toNat) i = v.toNat
  again32 : fatGetuint32 big (fatPutuint32 big behind.toNat p i w.toNat) i = w.toNat

/-- **The accessors agree with the format** on no big-endian host, and on a little-endian one if the
upper half of the argument of `fat_putuint32` is found behind it. -/
theorem accessorLaw_iff {big : Bool} {behind : UInt16} {w : UInt32} :
    (∀ p i v, AccessorLaw big behind p i v w) ↔ big = false ∧ behind.toNat = w.toNat / 0x10000 := by
  have hw := w.toNat_lt
  constructor
  · intro h
    cases big with
    | true => exact absurd (h (fun i => if i = 0 then 1 else 0) 0 0).get16 (by decide)
    | false =>
      refine ⟨rfl, ?_⟩
      have h2 := congrFun (h (fun _ => 0) 0 0).put32 2
      have h3 := congrFun (h (fun _ => 0) 0 0).put32 3
      simp [fatPutuint32, fatPutuint16, pieces, leStore] at h2 h3
      omega
  · rintro ⟨rfl, hbehind⟩ p i v
    have hv := v.toNat_lt
    have hhigh : v.toNat / 0x100 % 0x100 = v.toNat / 0x100 := by omega
    have hsecond : w.toNat % 0x10000 / 0x100 = w.toNat / 0x100 % 0x100 := by omega
    have hlast : w.toNat / 0x1000000 % 0x100 = w.toNat / 0x1000000 := by omega
    constructor <;>
      simp +arith [fatGetuint32, fatGetuint16, fatPutuint32, fatPutuint16, pieces, leValue, leStore,
        hbehind, Nat.div_div_eq_div_mul, hhigh, hsecond, hlast] <;> omega

/-- On a big-endian host the bytes 1 and 0 are read as 256. -/
theorem fatGetuint16_big : fatGetuint16 true (fun i => if i = 0 then 1 else 0) 0 = 0x100 ∧
    ¬ AccessorLaw true 0 (fun i => if i = 0 then 1 else 0) 0 0 0 := by
  refine ⟨by decide, fun h => ?_⟩
  exact absurd h.get16 (by decide)

end NuttX
