import NuttX.Os

/-!
# The clock

The time of day is the time that `clock_settime` has stored, and the ticks that `clock_timer` has
counted since then: `clock_gettime.c`, `clock_settime.c`, and the conversion of deadlines into ticks
in `clock_abstime2ticks.c` and `clock_time2ticks.c`. Seconds and ticks are words of 32 bits, and
nanoseconds are a `long`.

A reading is exact (`NuttX.clockGettime_law_iff`). But `clock_gettime` carries a second only when
the nanoseconds are more than a second, and not when they are just one. A deadline is converted
through a number of microseconds that is an `int32_t`, so that the conversion is right for a little
less than 36 minutes (`NuttX.clockAbstime2ticks_law_iff`).
-/

namespace NuttX

/-- `struct timespec`. -/
structure Timespec where
  sec : UInt32
  nsec : ℤ
  deriving DecidableEq, Repr

/-- The time in nanoseconds. -/
def Timespec.nanos (t : Timespec) : ℤ := t.sec.toNat * 1000000000 + t.nsec

/-- The nanoseconds are less than a second. -/
def Timespec.Normal (t : Timespec) : Prop := 0 ≤ t.nsec ∧ t.nsec < 1000000000

instance (t : Timespec) : Decidable t.Normal := inferInstanceAs (Decidable (_ ∧ _))

/-- The variables of `clock_initialize.c`. -/
structure Clock where
  systemTimer : UInt32
  tickbias : UInt32
  basetime : Timespec
  deriving DecidableEq, Repr

def clockRealtime : UInt8 := 0

/-- The conversion to an `int32_t`. -/
def int32 (x : ℤ) : ℤ := (x + 0x80000000) % 0x100000000 - 0x80000000

/-- `clock_timer`. -/
def clockTimer (c : Clock) : Clock := { c with systemTimer := c.systemTimer + 1 }

def clockSettime (c : Clock) (clockId : UInt8) (tp : Timespec) : Except Errno Clock :=
  if clockId = clockRealtime then .ok { c with basetime := tp, tickbias := c.systemTimer }
  else .error .einval

def clockGettime (msecPerTick : ℕ) (c : Clock) (clockId : UInt8) : Except Errno Timespec :=
  if clockId = clockRealtime then
    let msecs := UInt32.ofNat msecPerTick * (c.systemTimer - c.tickbias)
    let secs := msecs / 1000
    let nsecs := (msecs - secs * 1000) * 1000000
    let secs := secs + c.basetime.sec
    let nsecs := nsecs + UInt32.ofInt c.basetime.nsec
    if 1000000000 < nsecs then
      let dwCarrySecs := nsecs / 1000000000
      .ok ⟨secs + dwCarrySecs, int32 (nsecs - dwCarrySecs * 1000000000).toNat⟩
    else .ok ⟨secs, int32 nsecs.toNat⟩
  else .error .einval

/-- `clock_time2ticks`. The seconds are unsigned, and so is the sum. -/
def clockTime2ticks (msecPerTick : ℕ) (reltime : Timespec) : ℤ :=
  let relusec := int32 (reltime.sec.toNat * 1000000 + reltime.nsec.tdiv 1000)
  relusec.tdiv (msecPerTick * 1000)

def clockAbstime2ticks (msecPerTick : ℕ) (c : Clock) (clockid : UInt8) (abstime : Timespec) :
    Except Errno ℤ :=
  match clockGettime msecPerTick c clockid with
  | .error _ => .error .einval
  | .ok currtime =>
    let nsec := abstime.nsec - currtime.nsec
    let sec := abstime.sec - currtime.sec
    .ok (clockTime2ticks msecPerTick
      (if nsec < 0 then ⟨sec - 1, nsec + 1000000000⟩ else ⟨sec, nsec⟩))

variable {msecPerTick n : ℕ} {c c' : Clock} {now abstime tp : Timespec}

theorem int32_of_lt {x : ℤ} (h0 : 0 ≤ x) (h : x < 0x80000000) : int32 x = x := by
  unfold int32
  omega

/-! ### Reading the clock -/

theorem systemTimer_ticks (c : Clock) (n : ℕ) :
    clockTimer^[n] c = { c with systemTimer := c.systemTimer + UInt32.ofNat n } := by
  induction n with
  | zero => simp
  | succ n ih =>
    rw [Function.iterate_succ_apply', ih, clockTimer]
    simp [UInt32.add_assoc]

/-- The milliseconds that `clock_gettime` works with. -/
theorem elapsed_toNat (c : Clock) (hms : n * msecPerTick < 2 ^ 32) :
    (UInt32.ofNat msecPerTick * (c.systemTimer + UInt32.ofNat n - c.systemTimer)).toNat =
      n * msecPerTick := by
  have heq : c.systemTimer + UInt32.ofNat n - c.systemTimer = UInt32.ofNat n := by
    rw [UInt32.add_comm, UInt32.add_sub_cancel]
  rw [heq, ← UInt32.ofNat_mul, UInt32.toNat_ofNat', Nat.mul_comm, Nat.mod_eq_of_lt hms]

/-- **A reading**: the time that has been set and the time since then. -/
theorem clockGettime_spec (hset : clockSettime c clockRealtime tp = .ok c') (htp : tp.Normal)
    (hms : n * msecPerTick < 2 ^ 32)
    (hsec : (tp.nanos + (n * msecPerTick : ℕ) * 1000000) / 1000000000 < 2 ^ 32) :
    ∃ r, clockGettime msecPerTick (clockTimer^[n] c') clockRealtime = .ok r ∧
      r.nanos = tp.nanos + (n * msecPerTick : ℕ) * 1000000 ∧
      (r.Normal ↔ tp.nsec + (n * msecPerTick % 1000 : ℕ) * 1000000 ≠ 1000000000) := by
  obtain rfl := Except.ok.inj hset
  have helapsed := elapsed_toNat (c := c) hms
  rw [clockGettime, if_pos rfl, systemTimer_ticks]
  generalize UInt32.ofNat msecPerTick * _ = msecs at helapsed ⊢
  generalize n * msecPerTick = e at *
  obtain ⟨h0, h1⟩ := htp
  obtain ⟨d, hd⟩ : ∃ d : ℕ, tp.nsec = d := ⟨tp.nsec.toNat, by omega⟩
  have hbase : (UInt32.ofInt tp.nsec).toNat = d := by
    rw [hd, UInt32.ofInt]
    simp
    omega
  simp only [Timespec.nanos, Timespec.Normal] at hsec ⊢
  have hsecs : (msecs / 1000).toNat = e / 1000 := by
    rw [UInt32.toNat_div, helapsed]
    rfl
  have hnsecs : ((msecs - msecs / 1000 * 1000) * 1000000 + UInt32.ofInt tp.nsec).toNat =
      e % 1000 * 1000000 + d := by
    simp only [UInt32.toNat_add, UInt32.toNat_mul, UInt32.toNat_sub, hsecs, helapsed, hbase,
      UInt32.reduceToNat]
    omega
  split <;> rename_i hcarry <;> rw [UInt32.lt_iff_toNat_lt, hnsecs] at hcarry
  · refine ⟨_, rfl, ?_, ?_⟩ <;>
      simp only [UInt32.toNat_add, UInt32.toNat_sub, UInt32.toNat_mul, UInt32.toNat_div, hsecs,
        hnsecs, UInt32.reduceToNat, int32] at hcarry ⊢ <;> omega
  · refine ⟨_, rfl, ?_, ?_⟩ <;>
      simp only [UInt32.toNat_add, hsecs, hnsecs, UInt32.reduceToNat, int32] at hcarry ⊢ <;> omega

/-- The law of a reading `n` ticks after `tp` has been set: it is normalised and exact, and not less
than the readings before. -/
def GettimeLaw (msecPerTick : ℕ) (c : Clock) (tp : Timespec) (n : ℕ) : Prop :=
  ∃ r, clockGettime msecPerTick (clockTimer^[n] c) clockRealtime = .ok r ∧ r.Normal ∧
    r.nanos = tp.nanos + (n * msecPerTick : ℕ) * 1000000 ∧
    ∀ m ≤ n, ∃ r', clockGettime msecPerTick (clockTimer^[m] c) clockRealtime = .ok r' ∧
      r'.nanos ≤ r.nanos

/-- **A reading is normalised and exact**, unless its nanoseconds come to just one second. -/
theorem clockGettime_law_iff (hset : clockSettime c clockRealtime tp = .ok c') (htp : tp.Normal)
    (hms : n * msecPerTick < 2 ^ 32)
    (hsec : (tp.nanos + (n * msecPerTick : ℕ) * 1000000) / 1000000000 < 2 ^ 32) :
    GettimeLaw msecPerTick c' tp n ↔
      tp.nsec + (n * msecPerTick % 1000 : ℕ) * 1000000 ≠ 1000000000 := by
  obtain ⟨r, hr, hnanos, hnormal⟩ := clockGettime_spec hset htp hms hsec
  rw [← hnormal]
  constructor
  · rintro ⟨r', hr', h, -⟩
    rwa [Except.ok.inj (hr.symm.trans hr')]
  intro h
  refine ⟨r, hr, h, hnanos, fun m hm => ?_⟩
  have hle : m * msecPerTick ≤ n * msecPerTick := Nat.mul_le_mul_right _ hm
  have hsec' : (tp.nanos + (m * msecPerTick : ℕ) * 1000000) / 1000000000 < 2 ^ 32 := by omega
  obtain ⟨r', hr', hnanos', -⟩ :=
    clockGettime_spec hset htp (Nat.lt_of_le_of_lt hle hms) hsec'
  exact ⟨r', hr', by omega⟩

theorem clockGettime_law_half : GettimeLaw 10 ⟨7, 7, ⟨5, 500000000⟩⟩ ⟨5, 500000000⟩ 49 :=
  (clockGettime_law_iff (c := ⟨7, 0, ⟨0, 0⟩⟩) rfl (by decide) (by decide) (by decide)).mpr
    (by decide)

/-- Half a second after 5.5 seconds the clock shows 5 seconds and 1000000000 nanoseconds. -/
theorem clockGettime_second :
    clockSettime ⟨7, 0, ⟨0, 0⟩⟩ clockRealtime ⟨5, 500000000⟩ = .ok ⟨7, 7, ⟨5, 500000000⟩⟩ ∧
      clockGettime 10 (clockTimer^[50] ⟨7, 7, ⟨5, 500000000⟩⟩) clockRealtime = .ok ⟨5, 1000000000⟩ ∧
      ¬ GettimeLaw 10 ⟨7, 7, ⟨5, 500000000⟩⟩ ⟨5, 500000000⟩ 50 := by
  have hread : clockGettime 10 (clockTimer^[50] ⟨7, 7, ⟨5, 500000000⟩⟩) clockRealtime =
      .ok ⟨5, 1000000000⟩ := by decide +kernel
  refine ⟨rfl, hread, ?_⟩
  rintro ⟨r, hr, hnormal, -⟩
  obtain rfl := Except.ok.inj (hread.symm.trans hr)
  exact absurd hnormal.2 (by decide)

/-! ### Deadlines -/

/-- **The conversion of a deadline**: the number of microseconds until then, as an `int32_t`, in
ticks. -/
theorem clockAbstime2ticks_eq (hnow : clockGettime msecPerTick c clockRealtime = .ok now)
    (hn : now.Normal) (ha : abstime.Normal) (hle : now.nanos ≤ abstime.nanos) :
    clockAbstime2ticks msecPerTick c clockRealtime abstime =
      .ok ((int32 ((abstime.nanos - now.nanos) / 1000)).tdiv (msecPerTick * 1000)) := by
  obtain ⟨⟨h0, h1⟩, h2, h3⟩ := And.intro hn ha
  have hlt := abstime.sec.toNat_lt
  rw [clockAbstime2ticks, hnow]
  simp only [Timespec.nanos] at hle ⊢
  split <;> rename_i hborrow <;> rw [clockTime2ticks] <;>
    simp only [UInt32.toNat_sub, UInt32.reduceToNat] <;> congr 3 <;>
    rw [Int.tdiv_eq_ediv_of_nonneg (by omega)] <;> omega

/-- The law of a deadline: it is converted into the whole ticks until then, which are not negative,
and an earlier deadline is not converted into more ticks. -/
def DeadlineLaw (msecPerTick : ℕ) (c : Clock) (now abstime : Timespec) : Prop :=
  ∃ ticks, clockAbstime2ticks msecPerTick c clockRealtime abstime = .ok ticks ∧
    ticks = (abstime.nanos - now.nanos) / 1000 / (msecPerTick * 1000) ∧ 0 ≤ ticks ∧
    ∀ earlier : Timespec, earlier.Normal → now.nanos ≤ earlier.nanos →
      earlier.nanos ≤ abstime.nanos →
      ∃ ticks', clockAbstime2ticks msecPerTick c clockRealtime earlier = .ok ticks' ∧ ticks' ≤ ticks

theorem tdiv_int32 {x : ℤ} (h0 : 0 ≤ x) (h : x < 0x80000000) (d : ℕ) :
    (int32 x).tdiv (d * 1000) = x / (d * 1000) := by
  rw [int32_of_lt h0 h, Int.tdiv_eq_ediv_of_nonneg h0]

/-- **A deadline is converted rightly if it is less than `2 ^ 31` microseconds ahead, and not
otherwise.** -/
theorem clockAbstime2ticks_law_iff (hnow : clockGettime msecPerTick c clockRealtime = .ok now)
    (hn : now.Normal) (ha : abstime.Normal) (hle : now.nanos ≤ abstime.nanos)
    (hpos : 0 < msecPerTick) (hint : msecPerTick * 1000 < 0x80000000) :
    DeadlineLaw msecPerTick c now abstime ↔ (abstime.nanos - now.nanos) / 1000 < 0x80000000 := by
  constructor
  · rintro ⟨ticks, hticks, heq, h0, -⟩
    rw [clockAbstime2ticks_eq hnow hn ha hle] at hticks
    generalize (abstime.nanos - now.nanos) / 1000 = usec at *
    -- the remainders are less than a tick, but the quotient is that of a number smaller by `2 ^ 32`
    have hquot := Int.mul_tdiv_add_tmod (int32 usec) (msecPerTick * 1000)
    have hrem := Int.lt_tmod_of_pos (int32 usec) (b := msecPerTick * 1000) (by omega)
    have hquot' := Int.lt_mul_ediv_self_add (x := usec) (k := msecPerTick * 1000) (by omega)
    rw [Except.ok.inj hticks, heq] at hquot
    by_contra hge
    unfold int32 at hquot hrem
    omega
  · intro hlt
    refine ⟨_, clockAbstime2ticks_eq hnow hn ha hle, tdiv_int32 (by omega) hlt _, ?_, ?_⟩
    · rw [tdiv_int32 (by omega) hlt]
      exact Int.ediv_nonneg (by omega) (by omega)
    · intro earlier he hge hle'
      refine ⟨_, clockAbstime2ticks_eq hnow hn he hge, ?_⟩
      rw [tdiv_int32 (by omega) hlt, tdiv_int32 (by omega) (by omega)]
      exact Int.ediv_le_ediv (by omega) (by omega)

theorem clockAbstime2ticks_law_2147 : DeadlineLaw 10 ⟨0, 0, ⟨0, 0⟩⟩ ⟨0, 0⟩ ⟨2147, 0⟩ :=
  (clockAbstime2ticks_law_iff (by decide +kernel) (by decide) (by decide) (by decide +kernel)
    (by decide) (by decide)).mpr (by decide +kernel)

/-- A deadline 2148 seconds ahead is converted into a negative number of ticks, and has passed. -/
theorem clockAbstime2ticks_negative :
    clockGettime 10 ⟨0, 0, ⟨0, 0⟩⟩ clockRealtime = .ok ⟨0, 0⟩ ∧
      clockAbstime2ticks 10 ⟨0, 0, ⟨0, 0⟩⟩ clockRealtime ⟨2148, 0⟩ = .ok (-214696) ∧
      ¬ DeadlineLaw 10 ⟨0, 0, ⟨0, 0⟩⟩ ⟨0, 0⟩ ⟨2148, 0⟩ := by
  have hticks : clockAbstime2ticks 10 ⟨0, 0, ⟨0, 0⟩⟩ clockRealtime ⟨2148, 0⟩ = .ok (-214696) := by
    decide +kernel
  refine ⟨by decide +kernel, hticks, ?_⟩
  rintro ⟨ticks, heq, -, h0, -⟩
  obtain rfl := Except.ok.inj (hticks.symm.trans heq)
  exact absurd h0 (by decide)

end NuttX
