import NuttX.Fat.Model

/-!
# Entries of the file allocation table

What the functions of `NuttX.Fat.Model` see of the table are the bytes behind the sector buffer:
`NuttX.FatMountpt.fatByte` is the byte in the buffer if its sector is there, and the byte on the
device otherwise. Reading another sector into the buffer does not change these bytes
(`NuttX.FatMountpt.reads_fatFscacheread`), and so the table is a function from clusters to entries,
`NuttX.FatMountpt.link`, of which `fat_putcluster` changes one value.

The entries of `fat12` share bytes: `NuttX.FatType.entry` and `NuttX.FatType.setEntry` are the entry
at a cluster and its change in a table of bytes, as arithmetic.
-/

namespace NuttX

open Function FatMountpt FatType

theorem offT_of_lt {x : ℤ} (h0 : 0 ≤ x) (h : x < 2 ^ 31) : offT x = x := by
  unfold offT
  rw [Int.bmod_def]
  omega

/-! ### Bits -/

theorem or_shiftLeft_eight (a b : UInt8) :
    a.toNat ||| b.toNat <<< 8 = a.toNat + 256 * b.toNat := by
  rw [Nat.or_comm, ← Nat.shiftLeft_add_eq_or_of_lt a.toNat_lt, Nat.shiftLeft_eq]
  omega

theorem and_ffff (x : ℕ) : x &&& 0xffff = x % 2 ^ 16 := Nat.and_two_pow_sub_one_eq_mod x 16

theorem and_fffffff (x : ℕ) : x &&& 0x0fffffff = x % 2 ^ 28 := Nat.and_two_pow_sub_one_eq_mod x 28

theorem and_fff (x : ℕ) : x &&& 0x0fff = x % 4096 := Nat.and_two_pow_sub_one_eq_mod x 12

theorem and_f (x : ℕ) : x &&& 0x0f = x % 16 := Nat.and_two_pow_sub_one_eq_mod x 4

theorem and_one_ne_zero {x : ℕ} : x &&& 1 ≠ 0 ↔ x % 2 = 1 := by
  rw [Nat.and_one_is_mod]
  omega

theorem shiftLeft_four_or {y : ℕ} (x : ℕ) (hy : y < 16) : x <<< 4 ||| y = 16 * x + y := by
  rw [← Nat.shiftLeft_add_eq_or_of_lt hy, Nat.shiftLeft_eq]
  omega

theorem and_f0 (x : UInt8) : x.toNat &&& 0xf0 = (x.toNat / 16) <<< 4 := by
  have hmask : (0xf0 : ℕ) = 0x0f <<< 4 := rfl
  have hsplit : x.toNat = (x.toNat / 16) <<< 4 ||| x.toNat % 16 := by
    rw [shiftLeft_four_or _ (Nat.mod_lt _ (by omega))]
    omega
  have hlow : x.toNat % 16 &&& 0xf0 = 0 := by
    have hlt : x.toNat % 16 < 16 := Nat.mod_lt _ (by omega)
    interval_cases x.toNat % 16 <;> rfl
  have hhigh : (x.toNat / 16) <<< 4 &&& 0xf0 = (x.toNat / 16) <<< 4 := by
    have hlt : x.toNat / 16 < 16 := Nat.div_lt_of_lt_mul x.toNat_lt
    rw [hmask, ← Nat.shiftLeft_and_distrib, and_f, Nat.mod_eq_of_lt hlt]
  calc x.toNat &&& 0xf0 = ((x.toNat / 16) <<< 4 ||| x.toNat % 16) &&& 0xf0 := by rw [← hsplit]
    _ = (x.toNat / 16) <<< 4 := by rw [Nat.and_or_distrib_right, hlow, hhigh, Nat.or_zero]

theorem fatGetfat16_eq (p : ℕ → UInt8) (i : ℕ) :
    fatGetfat16 p i = (p i).toNat + 256 * (p (i + 1)).toNat := by
  rw [fatGetfat16, Nat.or_comm, or_shiftLeft_eight]

theorem fatGetfat32_eq (p : ℕ → UInt8) (i : ℕ) :
    fatGetfat32 p i = fatGetfat16 p i + 65536 * fatGetfat16 p (i + 2) := by
  have hlow : fatGetfat16 p i < 2 ^ 16 := by
    have h0 := (p i).toNat_lt
    have h1 := (p (i + 1)).toNat_lt
    rw [fatGetfat16_eq]
    omega
  rw [fatGetfat32, ← Nat.shiftLeft_add_eq_or_of_lt hlow, Nat.shiftLeft_eq]
  omega

variable {i j : ℕ}

theorem fatGetfat16_congr {p q : ℕ → UInt8} (h : ∀ k < 2, p (i + k) = q (j + k)) :
    fatGetfat16 p i = fatGetfat16 q j := by
  have h0 : p i = q j := h 0 (by omega)
  rw [fatGetfat16, fatGetfat16, h0, h 1 (by omega)]

theorem fatGetfat32_congr {p q : ℕ → UInt8} (h : ∀ k < 4, p (i + k) = q (j + k)) :
    fatGetfat32 p i = fatGetfat32 q j := by
  have hlow : fatGetfat16 p i = fatGetfat16 q j := fatGetfat16_congr fun k hk => h k (by omega)
  have hhigh : fatGetfat16 p (i + 2) = fatGetfat16 q (j + 2) :=
    fatGetfat16_congr fun k hk => by
      rw [Nat.add_assoc, Nat.add_assoc]
      exact h (2 + k) (by omega)
  rw [fatGetfat32, fatGetfat32, hlow, hhigh]

/-! ### Entries in a table of bytes -/

namespace FatType

/-- The entry at a cluster in a table of bytes. -/
def entry : FatType → (ℕ → UInt8) → ℕ → ℕ
  | .fat12, p, c =>
    if c % 2 = 1 then ((p (c * 3 / 2)).toNat + 256 * (p (c * 3 / 2 + 1)).toNat) / 16
    else ((p (c * 3 / 2)).toNat + 256 * (p (c * 3 / 2 + 1)).toNat) % 4096
  | .fat16, p, c => fatGetfat16 p (2 * c)
  | .fat32, p, c => fatGetfat32 p (4 * c) % 2 ^ 28

/-- The table of bytes in which the entry at a cluster has been changed. -/
def setEntry : FatType → (ℕ → UInt8) → ℕ → ℕ → ℕ → UInt8
  | .fat12, p, c, v =>
    update (update p (c * 3 / 2) (FatMountpt.fat12First c v (p (c * 3 / 2))))
      (c * 3 / 2 + 1) (FatMountpt.fat12Second c v (p (c * 3 / 2 + 1)))
  | .fat16, p, c, v => fatPutfat16 p (2 * c) (v % 2 ^ 16)
  | .fat32, p, c, v => fatPutfat32 p (4 * c) (v % 2 ^ 28)

end FatType

namespace FatMountpt

variable {c : ℕ}

section

variable (v : ℕ) (b : UInt8)

include v b

theorem toNat_fat12First_odd (hc : c % 2 = 1) :
    (fat12First c v b).toNat = (b.toNat % 16 + 16 * v) % 256 := by
  rw [fat12First, if_pos (and_one_ne_zero.mpr hc), and_f, Nat.or_comm,
    shiftLeft_four_or _ (Nat.mod_lt _ (by omega)), UInt8.toNat_ofNat']
  omega

theorem toNat_fat12First_even (hc : c % 2 = 0) : (fat12First c v b).toNat = v % 256 := by
  rw [fat12First, if_neg fun h => by rw [and_one_ne_zero] at h; omega, UInt8.toNat_ofNat']

theorem toNat_fat12Second_odd (hc : c % 2 = 1) : (fat12Second c v b).toNat = v / 16 % 256 := by
  rw [fat12Second, if_pos (and_one_ne_zero.mpr hc), Nat.shiftRight_eq_div_pow, UInt8.toNat_ofNat']

theorem toNat_fat12Second_even (hc : c % 2 = 0) :
    (fat12Second c v b).toNat = b.toNat / 16 * 16 + v / 256 % 16 := by
  have hb := b.toNat_lt
  rw [fat12Second, if_neg fun h => by rw [and_one_ne_zero] at h; omega, and_f0, and_f,
    shiftLeft_four_or _ (Nat.mod_lt _ (by omega)), Nat.shiftRight_eq_div_pow, UInt8.toNat_ofNat']
  omega

end

end FatMountpt

namespace FatType

variable {p : ℕ → UInt8} {c d v : ℕ}

theorem fatPutfat16_of_ne (h0 : j ≠ i) (h1 : j ≠ i + 1) : fatPutfat16 p i v j = p j := by
  rw [fatPutfat16, update_of_ne h1, update_of_ne h0]

theorem fatGetfat16_fatPutfat16 (i : ℕ) (hv : v < 2 ^ 16) :
    fatGetfat16 (fatPutfat16 p i v) i = v := by
  rw [fatGetfat16_eq, fatPutfat16, update_self, update_of_ne (by omega),
    update_self, Nat.shiftRight_eq_div_pow, UInt8.toNat_ofNat',
    UInt8.toNat_ofNat']
  omega

theorem fatGetfat16_of_disjoint (h : j + 1 < i ∨ i + 1 < j) :
    fatGetfat16 (fatPutfat16 p i v) j = fatGetfat16 p j := by
  rw [fatGetfat16_eq, fatGetfat16_eq, fatPutfat16_of_ne (by omega) (by omega),
    fatPutfat16_of_ne (by omega) (by omega)]

theorem fatGetfat32_fatPutfat32 (i : ℕ) (hv : v < 2 ^ 32) :
    fatGetfat32 (fatPutfat32 p i v) i = v := by
  have hlow : v &&& 0xffff < 2 ^ 16 := by
    rw [and_ffff]
    omega
  have hhigh : v >>> 16 < 2 ^ 16 := by
    omega
  rw [fatGetfat32_eq, fatPutfat32, fatGetfat16_of_disjoint (by omega),
    fatGetfat16_fatPutfat16 _ hlow, fatGetfat16_fatPutfat16 _ hhigh, and_ffff,
    Nat.shiftRight_eq_div_pow]
  omega

theorem fatGetfat32_of_disjoint (h : j + 3 < i ∨ i + 3 < j) :
    fatGetfat32 (fatPutfat32 p i v) j = fatGetfat32 p j := by
  rw [fatGetfat32_eq, fatGetfat32_eq, fatPutfat32, fatGetfat16_of_disjoint (by omega),
    fatGetfat16_of_disjoint (by omega), fatGetfat16_of_disjoint (by omega),
    fatGetfat16_of_disjoint (by omega)]

/-- The changed entry holds the bits of the value that it has room for. -/
theorem entry_setEntry_self (t : FatType) (p : ℕ → UInt8) (c v : ℕ) :
    t.entry (t.setEntry p c v) c = v % 2 ^ t.bits := by
  cases t with
  | fat12 =>
    simp only [entry, setEntry, bits, update_self]
    rw [update_of_ne (by omega), update_self]
    rcases Nat.mod_two_eq_zero_or_one c with hc | hc
    · rw [if_neg (by omega), toNat_fat12First_even _ _ hc, toNat_fat12Second_even _ _ hc]
      omega
    · rw [if_pos hc, toNat_fat12First_odd _ _ hc, toNat_fat12Second_odd _ _ hc]
      omega
  | fat16 => exact fatGetfat16_fatPutfat16 _ (Nat.mod_lt _ (by omega))
  | fat32 =>
    rw [entry, setEntry, fatGetfat32_fatPutfat32 _ (by omega), bits, Nat.mod_mod]

theorem entry_setEntry_of_ne (t : FatType) (p : ℕ → UInt8) (v : ℕ) (h : d ≠ c) :
    t.entry (t.setEntry p c v) d = t.entry p d := by
  cases t with
  | fat12 =>
    simp only [entry, setEntry]
    rcases Nat.mod_two_eq_zero_or_one c with hc | hc
    · -- The second byte of an even cluster is the first one of the next cluster.
      by_cases hnext : d = c + 1
      · subst hnext
        have hbyte : (c + 1) * 3 / 2 = c * 3 / 2 + 1 := by omega
        rw [if_pos (by omega), if_pos (by omega), hbyte, update_self,
          update_of_ne (by omega), update_of_ne (by omega),
          toNat_fat12Second_even _ _ hc]
        omega
      · rw [update_of_ne (by omega), update_of_ne (by omega),
          update_of_ne (by omega), update_of_ne (by omega)]
    · by_cases hprev : d + 1 = c
      · subst hprev
        have hbyte : (d + 1) * 3 / 2 = d * 3 / 2 + 1 := by omega
        rw [if_neg (by omega), if_neg (by omega), hbyte, update_of_ne (by omega),
          update_of_ne (by omega), update_of_ne (by omega),
          update_self, toNat_fat12First_odd _ _ hc]
        omega
      · rw [update_of_ne (by omega), update_of_ne (by omega),
          update_of_ne (by omega), update_of_ne (by omega)]
  | fat16 => exact fatGetfat16_of_disjoint (by omega)
  | fat32 => rw [entry, entry, setEntry, fatGetfat32_of_disjoint (by omega)]

end FatType

/-! ### The bytes of the table -/

def FatGeometry.FatSector (vol : FatGeometry) (s : ℤ) : Prop :=
  vol.fatbase ≤ s ∧ s < vol.fatbase + vol.nfatsects

namespace FatVolume

open FatGeometry

variable (vol : FatVolume)

def InFat (i : ℕ) : Prop := i < vol.nfatsects * vol.hwsectorsize

variable {vol} {i j : ℕ}

theorem hwsectorsize_pos : 0 < vol.hwsectorsize := by
  obtain ⟨k, hk⟩ := vol.hwsectorsize_eq
  rw [hk]
  exact Nat.two_pow_pos _

theorem four_dvd_hwsectorsize : 4 ∣ vol.hwsectorsize := by
  obtain ⟨k, hk⟩ := vol.hwsectorsize_eq
  exact ⟨2 ^ k, by rw [hk, Nat.pow_add, Nat.mul_comm]⟩

theorem fatindex_eq : vol.fatindex i = i % vol.hwsectorsize := by
  obtain ⟨k, hk⟩ := vol.hwsectorsize_eq
  rw [fatindex, secNdxmask, hk, Nat.and_two_pow_sub_one_eq_mod]

theorem fatsects_lt : vol.fatbase + vol.nfatsects < 2 ^ 31 := by
  have hcopies : vol.nfatsects ≤ vol.fatnumfats * vol.nfatsects :=
    Nat.le_mul_of_pos_left _ vol.one_le_fatnumfats
  have hdata := vol.fat_before_data
  have hfit := vol.sectors_fit
  omega

theorem database_nonneg : 0 ≤ vol.database := by
  have hbase := vol.fatbase_nonneg
  have hdata := vol.fat_before_data
  omega

section

variable (hi : vol.InFat i)

include hi

theorem InFat.div_lt : i / vol.hwsectorsize < vol.nfatsects :=
  Nat.div_lt_of_lt_mul (by rw [Nat.mul_comm]; exact hi)

theorem InFat.fatsector_eq : vol.fatsector i = vol.fatbase + (i / vol.hwsectorsize : ℕ) := by
  have hdiv := hi.div_lt
  have hlt := vol.fatsects_lt
  have hbase := vol.fatbase_nonneg
  rw [fatsector, secNsectors]
  generalize i / vol.hwsectorsize = q at hdiv
  exact offT_of_lt (by omega) (by omega)

theorem InFat.fatSector : vol.FatSector (vol.fatsector i) := by
  have hdiv := hi.div_lt
  rw [hi.fatsector_eq]
  generalize i / vol.hwsectorsize = q at hdiv
  exact ⟨by omega, by omega⟩

theorem InFat.eq_of_place (hj : vol.InFat j) (hsector : vol.fatsector i = vol.fatsector j)
    (hindex : vol.fatindex i = vol.fatindex j) : i = j := by
  rw [hi.fatsector_eq, hj.fatsector_eq] at hsector
  rw [fatindex_eq, fatindex_eq] at hindex
  have hdiv : i / vol.hwsectorsize = j / vol.hwsectorsize := by omega
  rw [← Nat.div_add_mod i vol.hwsectorsize, ← Nat.div_add_mod j vol.hwsectorsize, hdiv, hindex]

end

/-- The next byte is in the same sector, or the first one of the next sector. -/
theorem next_place (i : ℕ) :
    (vol.fatindex i + 1 < vol.hwsectorsize ∧ vol.fatsector (i + 1) = vol.fatsector i ∧
        vol.fatindex (i + 1) = vol.fatindex i + 1) ∨
      (vol.fatindex i + 1 = vol.hwsectorsize ∧ vol.fatindex (i + 1) = 0 ∧
        (i + 1) / vol.hwsectorsize = i / vol.hwsectorsize + 1) := by
  have hpos := vol.hwsectorsize_pos
  have hlt := Nat.mod_lt i hpos
  have hdiv := Nat.div_add_mod i vol.hwsectorsize
  simp only [fatindex_eq, fatsector, secNsectors]
  rcases Nat.lt_or_ge (i % vol.hwsectorsize + 1) vol.hwsectorsize with hsame | hcross
  · refine Or.inl ⟨hsame, ?_, ?_⟩
    · rw [Nat.div_eq_of_lt_le]
      · rw [Nat.mul_comm]
        omega
      · rw [Nat.succ_mul, Nat.mul_comm]
        omega
    · rw [← Nat.mod_eq_of_lt hsame, Nat.mod_add_mod]
  · have heq : i + 1 = vol.hwsectorsize * (i / vol.hwsectorsize + 1) := by
      rw [Nat.mul_succ]
      omega
    refine Or.inr ⟨by omega, ?_, ?_⟩
    · rw [heq, Nat.mul_mod_right]
    · rw [heq, Nat.mul_div_cancel_left _ hpos]

theorem word_place {k : ℕ} (hi : 4 ∣ i ∨ (2 ∣ i ∧ k < 2)) (hk : k < 4) :
    vol.fatsector (i + k) = vol.fatsector i ∧ vol.fatindex (i + k) = vol.fatindex i + k := by
  obtain ⟨m, hm⟩ := vol.four_dvd_hwsectorsize
  have hpos := vol.hwsectorsize_pos
  have hlt := Nat.mod_lt i hpos
  have hdiv := Nat.div_add_mod i vol.hwsectorsize
  have hfour : 4 * (m * (i / vol.hwsectorsize)) + i % vol.hwsectorsize = i := by
    rw [← Nat.mul_assoc, ← hm]
    exact hdiv
  have hsame : i % vol.hwsectorsize + k < vol.hwsectorsize := by omega
  have hmod : (i + k) % vol.hwsectorsize = i % vol.hwsectorsize + k := by
    rw [← Nat.mod_add_mod, Nat.mod_eq_of_lt hsame]
  have hdiv' : (i + k) / vol.hwsectorsize = i / vol.hwsectorsize := by
    have hdivk := Nat.div_add_mod (i + k) vol.hwsectorsize
    exact Nat.eq_of_mul_eq_mul_left hpos (by omega)
  simp only [fatindex_eq, fatsector, secNsectors, hdiv', hmod, and_self]

end FatVolume

namespace FatMountpt

variable {vol : FatVolume} {fs fs' fs'' : FatMountpt vol} {i j : ℕ} {g : FatGeometry}

/-- A byte of the table: the one in the buffer, if its sector is there. -/
def fatByte {g : FatGeometry} (fs : FatMountpt g) (i : ℕ) : UInt8 :=
  if fs.currentsector = g.fatsector i then fs.buffer (g.fatindex i)
  else fs.dev (g.fatsector i) (g.fatindex i)

/-- A sector of the table in the buffer that has not been changed is the one on the device. -/
def Coherent {g : FatGeometry} (fs : FatMountpt g) : Prop :=
  fs.dirty = false → g.FatSector fs.currentsector → fs.buffer = fs.dev fs.currentsector

/-- The bytes of the table and the numbers of free clusters are the same: only the sector in the
buffer is another one. -/
structure Reads (fs fs' : FatMountpt vol) : Prop where
  coherent : fs'.Coherent
  bytes : ∀ i, vol.InFat i → fs'.fatByte i = fs.fatByte i
  freecount : fs'.fsifreecount = fs.fsifreecount
  nextfree : fs'.fsinextfree = fs.fsinextfree

theorem Reads.refl (h : fs.Coherent) : fs.Reads fs := ⟨h, fun _ _ => rfl, rfl, rfl⟩

theorem Reads.trans (h : fs.Reads fs') (h' : fs'.Reads fs'') : fs.Reads fs'' where
  coherent := h'.coherent
  bytes i hi := (h'.bytes i hi).trans (h.bytes i hi)
  freecount := h'.freecount.trans h.freecount
  nextfree := h'.nextfree.trans h.nextfree

theorem dev_fatHwwrite_one (fs : FatMountpt g) (buffer : ℕ → UInt8) (sector s : ℤ) :
    (fs.fatHwwrite buffer sector 1).dev s = if s = sector then buffer else fs.dev s := by
  have hcond : (sector ≤ s ∧ s < sector + (1 : ℕ)) ↔ s = sector := by omega
  simp only [fatHwwrite, hcond]
  by_cases hs : s = sector
  · simp [hs]
  · rw [if_neg hs, if_neg hs]

/-- The copies are written behind the table. -/
theorem dev_flushCopies {s : ℤ} (hs : vol.FatSector s) (n : ℕ) (fs : FatMountpt vol)
    (hbase : vol.fatbase ≤ fs.currentsector)
    (hlast : fs.currentsector + (n * vol.nfatsects : ℕ) < 2 ^ 31 + vol.nfatsects) :
    (flushCopies fs n).dev s = fs.dev s := by
  fun_induction flushCopies fs n with
  | case1 fs n ih =>
    have hstep : (n + 2) * vol.nfatsects = (n + 1) * vol.nfatsects + vol.nfatsects :=
      Nat.succ_mul ..
    have hstep' : (n + 1) * vol.nfatsects = n * vol.nfatsects + vol.nfatsects := Nat.succ_mul ..
    rw [show n.succ.succ = n + 2 from rfl, hstep] at hlast
    have hzero := vol.fatbase_nonneg
    have hnext : offT (fs.currentsector + vol.nfatsects) = fs.currentsector + vol.nfatsects :=
      offT_of_lt (by omega) (by rw [hstep'] at hlast; omega)
    have hlt := hs.2
    rw [ih, dev_fatHwwrite_one, if_neg (by omega)]
    · show _ ≤ offT (fs.currentsector + vol.nfatsects)
      omega
    · show offT (fs.currentsector + vol.nfatsects) + _ < _
      omega
  | case2 fs n hn => rfl

theorem flushCopies_keep (n : ℕ) (fs : FatMountpt g) :
    (flushCopies fs n).fsifreecount = fs.fsifreecount ∧
      (flushCopies fs n).fsinextfree = fs.fsinextfree ∧
      (flushCopies fs n).fsidirty = fs.fsidirty := by
  fun_induction flushCopies fs n with
  | case1 fs n ih => exact ih
  | case2 fs n hn => exact ⟨rfl, rfl, rfl⟩

theorem copies_lt {s : ℤ} (hs : vol.FatSector s) :
    s + (vol.fatnumfats * vol.nfatsects : ℕ) < 2 ^ 31 + vol.nfatsects := by
  have hcopies := vol.fat_before_data
  have hfit := vol.sectors_fit
  have hlt := hs.2
  omega

theorem dev_fatFscacheflush {s : ℤ} (hs : vol.FatSector s) (fs : FatMountpt vol) :
    fs.fatFscacheflush.dev s =
      if fs.dirty = true ∧ s = fs.currentsector then fs.buffer else fs.dev s := by
  unfold fatFscacheflush
  have hwrite := fs.dev_fatHwwrite_one fs.buffer fs.currentsector s
  have hcopies (hfat : vol.FatSector fs.currentsector) :=
    dev_flushCopies hs vol.fatnumfats (fs.fatHwwrite fs.buffer fs.currentsector 1) hfat.1
      (copies_lt hfat)
  split_ifs with hdirty hfat hsame hsame hsame
  · exact (hcopies hfat).trans (hwrite.trans (if_pos hsame.2))
  · exact (hcopies hfat).trans (hwrite.trans (if_neg fun h => hsame ⟨hdirty, h⟩))
  · exact absurd (hsame.2 ▸ hs) hfat
  · exact hwrite.trans (if_neg fun h => hsame ⟨hdirty, h⟩)
  · exact absurd hsame.1 hdirty
  · rfl

theorem fatFscacheflush_keep (fs : FatMountpt g) :
    fs.fatFscacheflush.fsifreecount = fs.fsifreecount ∧
      fs.fatFscacheflush.fsinextfree = fs.fsinextfree ∧
      fs.fatFscacheflush.fsidirty = fs.fsidirty := by
  unfold fatFscacheflush
  split_ifs
  · exact flushCopies_keep _ _
  · exact ⟨rfl, rfl, rfl⟩
  · exact ⟨rfl, rfl, rfl⟩

@[simp] theorem currentsector_fatFscacheread (fs : FatMountpt g) (s : ℤ) :
    (fs.fatFscacheread s).currentsector = s := by
  unfold fatFscacheread
  split_ifs with h
  · rfl
  · exact not_not.mp h

theorem fatFscacheread_of_eq {fs : FatMountpt g} {s : ℤ} (h : fs.currentsector = s) :
    fs.fatFscacheread s = fs := by
  rw [fatFscacheread, if_neg (not_not.mpr h)]

/-- **Reading a sector into the buffer does not change the table.** The sector that was there is
written back if it had been changed. -/
theorem reads_fatFscacheread (h : fs.Coherent) (s : ℤ) : fs.Reads (fs.fatFscacheread s) := by
  by_cases hs : fs.currentsector = s
  · rw [fatFscacheread_of_eq hs]
    exact .refl h
  rw [fatFscacheread, if_pos hs]
  refine ⟨fun _ _ => rfl, fun i hi => ?_, fs.fatFscacheflush_keep.1, fs.fatFscacheflush_keep.2.1⟩
  have hdev := dev_fatFscacheflush hi.fatSector fs
  -- In the new buffer, or still on the device, the byte is the one that the flush leaves there.
  have hnew :
      fatByte ({ fs.fatFscacheflush.fatHwread s with currentsector := s } : FatMountpt vol) i =
        fs.fatFscacheflush.dev (vol.fatsector i) (vol.fatindex i) := by
    unfold fatByte
    split_ifs with hsame
    · show fs.fatFscacheflush.dev s _ = _
      rw [show s = vol.fatsector i from hsame]
    · rfl
  rw [hnew, hdev, fatByte]
  by_cases hcur : fs.currentsector = vol.fatsector i
  · rw [if_pos hcur]
    cases hdirty : fs.dirty with
    | true => rw [if_pos ⟨rfl, hcur.symm⟩]
    | false =>
      have hbuffer := h hdirty (hcur ▸ hi.fatSector)
      rw [if_neg (by simp), hbuffer, hcur]
  · rw [if_neg hcur, if_neg fun hand => hcur hand.2.symm]

theorem buffer_eq_fatByte (h : fs.currentsector = vol.fatsector i) :
    fs.buffer (vol.fatindex i) = fs.fatByte i := by
  rw [fatByte, if_pos h]

/-- A byte of the buffer is changed, and the buffer is marked. -/
def store (fs : FatMountpt vol) (i : ℕ) (v : UInt8) : FatMountpt vol :=
  { fs with buffer := update fs.buffer (vol.fatindex i) v, dirty := true }

theorem coherent_store (fs : FatMountpt vol) (i : ℕ) (v : UInt8) : (fs.store i v).Coherent := by
  intro hclean
  cases hclean

theorem fatByte_store {p : ℕ → UInt8} (hcur : fs.currentsector = vol.fatsector i)
    (hi : vol.InFat i) (v : UInt8) (hp : ∀ j, vol.InFat j → fs.fatByte j = p j) (j : ℕ)
    (hj : vol.InFat j) : (fs.store i v).fatByte j = update p i v j := by
  have hcur' : (fs.store i v).currentsector = vol.fatsector i := hcur
  rcases eq_or_ne j i with rfl | hne
  · rw [update_self, ← buffer_eq_fatByte hcur']
    exact update_self ..
  rw [update_of_ne hne, ← hp j hj]
  by_cases hsector : vol.fatsector j = vol.fatsector i
  · rw [← hsector] at hcur hcur'
    rw [← buffer_eq_fatByte hcur, ← buffer_eq_fatByte hcur']
    exact update_of_ne (fun hindex => hne (hj.eq_of_place hi hsector hindex)) ..
  · have hother : fs.currentsector ≠ vol.fatsector j := fun h => hsector (h.symm.trans hcur)
    exact (if_neg hother).trans (if_neg hother).symm

/-- The second byte of an entry of `fat12` is read like the first one. -/
theorem nextByte_eq (hcur : fs.currentsector = vol.fatsector i) (hi : vol.InFat (i + 1)) :
    fs.nextByte (vol.fatsector i) (vol.fatindex i) =
      (fs.fatFscacheread (vol.fatsector (i + 1)), vol.fatindex (i + 1)) := by
  have hi0 : vol.InFat i := Nat.lt_of_succ_lt hi
  have hlt := vol.fatsects_lt
  have hbase := vol.fatbase_nonneg
  unfold nextByte
  rcases vol.next_place i with ⟨hsame, hsector, hindex⟩ | ⟨hcross, hindex, hdiv⟩
  · rw [if_neg (by omega), hindex, hsector, fatFscacheread_of_eq hcur]
  have hnext : offT (vol.fatsector i + 1) = vol.fatsector (i + 1) := by
    have hbound := hi.fatSector.2
    rw [hi.fatsector_eq, hdiv] at hbound ⊢
    rw [hi0.fatsector_eq]
    generalize i / vol.hwsectorsize = q at hbound ⊢
    rw [offT_of_lt (by omega) (by omega)]
    omega
  rw [if_pos (by omega), hindex, hnext]

/-! ### Reading and writing an entry -/

theorem inFat_entry {c k : ℕ} (hc : c < vol.nclusters) (hk : 2 * k < (c + 1) * vol.type.nibbles) :
    vol.InFat k := by
  have hle : (c + 1) * vol.type.nibbles ≤ vol.nclusters * vol.type.nibbles :=
    Nat.mul_le_mul_right _ hc
  have hfit := vol.entries_fit
  unfold FatVolume.InFat
  omega

theorem buffer_word {k : ℕ} (h : fs.Coherent) (hi : 4 ∣ i ∨ (2 ∣ i ∧ k < 2)) (hk : k < 4)
    (hin : vol.InFat (i + k)) :
    (fs.fatFscacheread (vol.fatsector i)).buffer (vol.fatindex i + k) = fs.fatByte (i + k) := by
  obtain ⟨hsector, hindex⟩ := vol.word_place hi hk
  have hcur : (fs.fatFscacheread (vol.fatsector i)).currentsector = vol.fatsector (i + k) := by
    rw [hsector, currentsector_fatFscacheread]
  rw [← hindex, buffer_eq_fatByte hcur]
  exact (reads_fatFscacheread h _).bytes _ hin

/-- **What `fat_getcluster` returns is the entry of the table**, and it does not change the
table. -/
theorem fatGetcluster_spec (h : fs.Coherent) (hc : 2 ≤ c ∧ c < vol.nclusters) :
    fs.Reads (fs.fatGetcluster c).1 ∧ (fs.fatGetcluster c).2 = vol.type.entry fs.fatByte c := by
  have hin : ∀ k, 2 * k < (c + 1) * vol.type.nibbles → vol.InFat k := fun _ => inFat_entry hc.2
  rw [fatGetcluster, if_pos hc]
  cases ht : vol.type with
  | fat12 =>
    simp only [ht, nibbles] at hin
    have hi0 := hin (c * 3 / 2) (by omega)
    have hi1 := hin (c * 3 / 2 + 1) (by omega)
    have hreads₁ := reads_fatFscacheread h (vol.fatsector (c * 3 / 2))
    have hcur := currentsector_fatFscacheread fs (vol.fatsector (c * 3 / 2))
    have hreads₂ := reads_fatFscacheread hreads₁.coherent (vol.fatsector (c * 3 / 2 + 1))
    dsimp only
    rw [nextByte_eq hcur hi1]
    refine ⟨hreads₁.trans hreads₂, ?_⟩
    rw [buffer_eq_fatByte hcur, buffer_eq_fatByte (currentsector_fatFscacheread ..),
      hreads₂.bytes _ hi1, hreads₁.bytes _ hi0, hreads₁.bytes _ hi1, or_shiftLeft_eight,
      entry, and_fff, Nat.shiftRight_eq_div_pow]
    simp only [and_one_ne_zero]
    split_ifs <;> rfl
  | fat16 =>
    simp only [ht, nibbles] at hin
    refine ⟨reads_fatFscacheread h _, congrArg _ (fatGetfat16_congr fun k hk => ?_)⟩
    exact buffer_word h (.inr ⟨⟨c, rfl⟩, hk⟩) (by omega) (hin _ (by omega))
  | fat32 =>
    simp only [ht, nibbles] at hin
    refine ⟨reads_fatFscacheread h _, ?_⟩
    dsimp only
    rw [and_fffffff, entry, fatGetfat32_congr fun k hk =>
      buffer_word h (.inl ⟨c, rfl⟩) hk (hin _ (by omega))]

/-- The bytes that `fat_putcluster` leaves for an entry of `fat12` are stored one after the other,
each once its sector is in the buffer. -/
theorem fatPutcluster12_eq (fs : FatMountpt vol) (v : ℕ) (hi : vol.InFat (c * 3 / 2 + 1))
    (fs1 fs2 : FatMountpt vol) (h1 : fs1 = fs.fatFscacheread (vol.fatsector (c * 3 / 2)))
    (h2 : fs2 = (fs1.store (c * 3 / 2)
      (fat12First c v (fs1.buffer (vol.fatindex (c * 3 / 2))))).fatFscacheread
        (vol.fatsector (c * 3 / 2 + 1))) :
    ({ fs.fatPutcluster12 c v with dirty := true } : FatMountpt vol) =
      fs2.store (c * 3 / 2 + 1) (fat12Second c v (fs2.buffer (vol.fatindex (c * 3 / 2 + 1)))) := by
  have hcur : fs1.currentsector = vol.fatsector (c * 3 / 2) := by
    rw [h1, currentsector_fatFscacheread]
  simp only [fatPutcluster12, ← h1]
  rcases vol.next_place (c * 3 / 2) with ⟨hsame, hsector, hindex⟩ | ⟨hcross, -, -⟩
  · -- Both bytes are in one sector: it is marked only after the second one.
    have hstay : fs2 = fs1.store (c * 3 / 2)
        (fat12First c v (fs1.buffer (vol.fatindex (c * 3 / 2)))) := by
      rw [h2, hsector, fatFscacheread_of_eq (by exact hcur)]
    rw [if_neg (by omega), nextByte, if_neg (by omega), hstay]
    simp only [store, hindex]
  · have hcur' : (fs1.store (c * 3 / 2)
        (fat12First c v (fs1.buffer (vol.fatindex (c * 3 / 2))))).currentsector =
          vol.fatsector (c * 3 / 2) := hcur
    have hnext := nextByte_eq hcur' hi
    rw [← h2] at hnext
    simp only [store] at hnext ⊢
    rw [if_pos (by omega), hnext]

/-- The entry at a cluster of the table has been set, and nothing else has changed. -/
structure Writes (fs fs' : FatMountpt vol) (c v : ℕ) : Prop where
  coherent : fs'.Coherent
  bytes : ∀ i, vol.InFat i → fs'.fatByte i = vol.type.setEntry fs.fatByte c v i
  freecount : fs'.fsifreecount = fs.fsifreecount
  nextfree : fs'.fsinextfree = fs.fsinextfree

theorem fatByte_putfat16 {p : ℕ → UInt8} (v : ℕ) (hi : 2 ∣ i)
    (hcur : fs.currentsector = vol.fatsector i)
    (hin : vol.InFat (i + 1)) (hp : ∀ j, vol.InFat j → fs.fatByte j = p j) (j : ℕ)
    (hj : vol.InFat j) :
    fatByte ({ fs with buffer := fatPutfat16 fs.buffer (vol.fatindex i) v, dirty := true } :
      FatMountpt vol) j = fatPutfat16 p i v j := by
  obtain ⟨hsector, hindex⟩ := vol.word_place (k := 1) (.inr ⟨hi, by omega⟩) (by omega)
  have hstore : ({ fs with buffer := fatPutfat16 fs.buffer (vol.fatindex i) v, dirty := true } :
      FatMountpt vol) = (fs.store i (UInt8.ofNat v)).store (i + 1) (UInt8.ofNat (v >>> 8)) := by
    simp only [store, hindex, fatPutfat16]
  have hi0 : vol.InFat i := Nat.lt_of_succ_lt hin
  have hfirst := fatByte_store hcur hi0 (UInt8.ofNat v) hp
  have hcur' : (fs.store i (UInt8.ofNat v)).currentsector = vol.fatsector (i + 1) :=
    hcur.trans hsector.symm
  rw [hstore]
  exact fatByte_store hcur' hin _ hfirst j hj

/-- **`fat_putcluster` sets one entry of the table.** -/
theorem fatPutcluster_spec (h : fs.Coherent) (hc : 2 ≤ c ∧ c < vol.nclusters) (v : ℕ) :
    fs.Writes (fs.fatPutcluster c v).1 c v ∧ (fs.fatPutcluster c v).2 = 0 := by
  have hin : ∀ k, 2 * k < (c + 1) * vol.type.nibbles → vol.InFat k := fun _ => inFat_entry hc.2
  have hdirty : ∀ (fs' : FatMountpt vol), fs'.dirty = true → fs'.Coherent := by
    intro fs' hd hclean
    rw [hd] at hclean
    cases hclean
  rw [fatPutcluster, if_pos (.inr hc)]
  cases ht : vol.type with
  | fat12 =>
    simp only [ht, nibbles] at hin
    have hi0 := hin (c * 3 / 2) (by omega)
    have hi1 := hin (c * 3 / 2 + 1) (by omega)
    -- The first byte is stored in the buffer `fs1`, the second one in the buffer `fs2`.
    obtain ⟨fs1, h1⟩ : ∃ fs1, fs1 = fs.fatFscacheread (vol.fatsector (c * 3 / 2)) := ⟨_, rfl⟩
    have hreads₁ : fs.Reads fs1 := h1 ▸ reads_fatFscacheread h _
    have hcur1 : fs1.currentsector = vol.fatsector (c * 3 / 2) := by
      rw [h1, currentsector_fatFscacheread]
    obtain ⟨b0, hb0⟩ : ∃ b0, b0 = fat12First c v (fs1.buffer (vol.fatindex (c * 3 / 2))) := ⟨_, rfl⟩
    have hfirst := fatByte_store hcur1 hi0 b0 hreads₁.bytes
    obtain ⟨fs2, h2⟩ : ∃ fs2, fs2 = (fs1.store (c * 3 / 2) b0).fatFscacheread
      (vol.fatsector (c * 3 / 2 + 1)) := ⟨_, rfl⟩
    have hreads₂ : (fs1.store (c * 3 / 2) b0).Reads fs2 :=
      h2 ▸ reads_fatFscacheread (coherent_store _ _ _) _
    have hcur2 : fs2.currentsector = vol.fatsector (c * 3 / 2 + 1) := by
      rw [h2, currentsector_fatFscacheread]
    have hbytes₂ : ∀ j, vol.InFat j → fs2.fatByte j = update fs.fatByte (c * 3 / 2) b0 j :=
      fun j hj => (hreads₂.bytes j hj).trans (hfirst j hj)
    have hkept : update fs.fatByte (c * 3 / 2) b0 (c * 3 / 2 + 1) =
        fs.fatByte (c * 3 / 2 + 1) := update_of_ne (by omega) ..
    rw [fatPutcluster12_eq fs v hi1 fs1 fs2 h1 (hb0 ▸ h2)]
    refine ⟨⟨coherent_store _ _ _, fun j hj => ?_, hreads₂.freecount.trans hreads₁.freecount,
      hreads₂.nextfree.trans hreads₁.nextfree⟩, rfl⟩
    rw [fatByte_store hcur2 hi1 _ hbytes₂ j hj, ht, setEntry, buffer_eq_fatByte hcur2,
      hbytes₂ _ hi1, hkept, hb0, buffer_eq_fatByte hcur1, hreads₁.bytes _ hi0]
  | fat16 =>
    simp only [ht, nibbles] at hin
    have hreads := reads_fatFscacheread h (vol.fatsector (2 * c))
    refine ⟨⟨hdirty _ rfl, fun j hj => ?_, hreads.freecount, hreads.nextfree⟩, rfl⟩
    rw [ht, setEntry, ← and_ffff]
    exact fatByte_putfat16 _ ⟨c, rfl⟩ (currentsector_fatFscacheread ..) (hin _ (by omega))
      hreads.bytes j hj
  | fat32 =>
    simp only [ht, nibbles] at hin
    have hreads := reads_fatFscacheread h (vol.fatsector (4 * c))
    have hcur := currentsector_fatFscacheread fs (vol.fatsector (4 * c))
    obtain ⟨hsector, hindex⟩ := vol.word_place (k := 2) (.inl ⟨c, rfl⟩) (by omega)
    refine ⟨⟨hdirty _ rfl, fun j hj => ?_, hreads.freecount, hreads.nextfree⟩, rfl⟩
    rw [ht, setEntry, ← and_fffffff]
    -- The two halves of the word are written one after the other.
    obtain ⟨fs1, h1⟩ : ∃ fs1 : FatMountpt vol, fs1 = { fs.fatFscacheread (vol.fatsector (4 * c))
        with
      buffer := fatPutfat16 (fs.fatFscacheread (vol.fatsector (4 * c))).buffer
        (vol.fatindex (4 * c)) ((v &&& 0x0fffffff) &&& 0xffff), dirty := true } := ⟨_, rfl⟩
    have hcur1 : fs1.currentsector = vol.fatsector (4 * c + 2) := by
      rw [h1]
      exact hcur.trans hsector.symm
    have hlow : ∀ j, vol.InFat j →
        fs1.fatByte j = fatPutfat16 fs.fatByte (4 * c) ((v &&& 0x0fffffff) &&& 0xffff) j := by
      rw [h1]
      exact fatByte_putfat16 _ ⟨2 * c, by omega⟩ hcur (hin _ (by omega)) hreads.bytes
    have hhigh := fatByte_putfat16 ((v &&& 0x0fffffff) >>> 16) ⟨2 * c + 1, by omega⟩ hcur1
      (hin _ (by omega)) hlow j hj
    rw [h1, hindex] at hhigh
    exact hhigh

end FatMountpt

end NuttX
