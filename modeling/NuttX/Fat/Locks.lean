import NuttX.Fat.Faults
import NuttX.Fat.Read

/-!
# The semaphore of a FAT volume

`fat_read`, `fat_write`, `fat_seek` and `fat_sync` take the semaphore of the volume first and give
it at their common ends, whatever becomes of the transfers in between: none of the functions that
they call touches it (`NuttX.FatM.semaphore`). But `fat_read` and `fat_write` have an end of their
own for a current sector that is refused, and there they return with the semaphore. That happens
exactly if the file has no current sector and its position is behind its end
(`NuttX.lockCall_law_iff`), as it is for a file of two gigabytes that has just been opened, whose
size is negative as an `off_t` (`NuttX.lockCall_refused`).
-/

namespace NuttX

namespace FatM

variable {vol : FatGeometry} {α : Type} {w w' : FatWorld vol} {w : FatWorld vol}

def semaphore (w : FatWorld vol) : ℕ × ℕ := (w.takes, w.gives)

def besides (w : FatWorld vol) : (ℕ × ℕ) × FatFile := ((w.takes, w.gives), w.ff)

variable {m first rest : FatM vol ℤ} {γ : Type} {π : FatWorld vol → γ}

/-! ### Pieces -/

theorem keeps_getFs : Keeps π (getFs : FatM vol _) := .bind .get fun _ => .pure _

theorem leaves_getFf : Leaves π (getFf : FatM vol _) := .bind .get fun _ => .pure _

theorem keeps_modifyFs (f : FatMountpt vol → FatMountpt vol) : Keeps besides (modifyFs f) :=
  .modify fun _ => rfl

theorem leaves_modifyFf (f : FatFile → FatFile) : Leaves semaphore (modifyFf f : FatM vol Unit) :=
  .modify fun _ => rfl

theorem keeps_check (hfirst : Keeps π first) (hrest : Keeps π rest) :
    Keeps π (check first rest) :=
  hfirst.bind fun _ => .ite (.pure _) hrest

theorem leaves_check (hfirst : Leaves π first) (hrest : Leaves π rest) :
    Leaves π (check first rest) :=
  hfirst.bind fun _ => .ite (.pure _) hrest

theorem keeps_checkWith (err : ℤ) (hfirst : Keeps π first) (hrest : Keeps π rest) :
    Keeps π (checkWith err first rest) :=
  hfirst.bind fun _ => .ite (.pure _) hrest

theorem leaves_of_keeps {m : FatM vol α} (h : Keeps besides m) : Leaves semaphore m :=
  h.leaves.comp Prod.fst

/-! ### The volume

The functions of the volume return, and leave the semaphore and the file alone.
-/

theorem keeps_nextOutcome : Keeps besides (nextOutcome : FatM vol _) :=
  fun w => ⟨w.outcomes 0, { w with outcomes := fun n => w.outcomes (n + 1) }, rfl, rfl⟩

theorem keeps_fatHwread (sector : ℤ) : Keeps besides (fatHwread sector : FatM vol _) :=
  keeps_nextOutcome.bind fun outcome => keeps_getFs.bind fun _ => by
    cases outcome with
    | done | fails ret buffer dev => exact .pure _

theorem keeps_fatHwwrite (buffer : ℕ → UInt8) (sector : ℤ) (nsectors : ℕ) :
    Keeps besides (fatHwwrite buffer sector nsectors : FatM vol _) :=
  keeps_nextOutcome.bind fun outcome => by
    cases outcome with
    | done | fails ret buffer dev => exact (keeps_modifyFs _).bind fun _ => .pure _

theorem keeps_flushCopies (n : ℕ) : Keeps besides (flushCopies n : FatM vol _) := by
  fun_induction flushCopies n with
  | case1 n ih =>
    exact (keeps_modifyFs _).bind fun _ => keeps_getFs.bind fun _ =>
      keeps_check (keeps_fatHwwrite _ _ _) ih
  | case2 n _ => exact .pure _

theorem keeps_fatFscacheflush : Keeps besides (fatFscacheflush : FatM vol _) :=
  keeps_getFs.bind fun _ => .ite
    (keeps_check (keeps_fatHwwrite _ _ _) (keeps_check (.ite (keeps_flushCopies _) (.pure _))
      ((keeps_modifyFs _).bind fun _ => .pure _)))
    (.pure _)

theorem keeps_fatFscacheread (sector : ℤ) : Keeps besides (fatFscacheread sector : FatM vol _) :=
  keeps_getFs.bind fun _ => .ite
    (keeps_check keeps_fatFscacheflush ((keeps_fatHwread _).bind fun _ =>
      (keeps_modifyFs _).bind fun _ => .ite (.pure _) ((keeps_modifyFs _).bind fun _ => .pure _)))
    (.pure _)

theorem keeps_nextByte (fatsector : ℤ) (fatindex : ℕ) :
    Keeps besides (nextByte fatsector fatindex : FatM vol _) :=
  .ite ((keeps_fatFscacheread _).bind fun _ => .pure _) (.pure _)

theorem keeps_fatGetcluster (clusterno : ℕ) :
    Keeps besides (fatGetcluster clusterno : FatM vol _) := by
  refine .ite ?_ (.pure _)
  cases vol.type with
  | fat12 =>
    exact keeps_checkWith _ (keeps_fatFscacheread _) (keeps_getFs.bind fun _ =>
      (keeps_nextByte _ _).bind fun _ => .ite (.pure _)
        (keeps_getFs.bind fun _ => .ite (.pure _) (.pure _)))
  | fat16 | fat32 =>
    exact keeps_checkWith _ (keeps_fatFscacheread _) (keeps_getFs.bind fun _ => .pure _)

theorem keeps_fatPutcluster12 (clusterno nextcluster : ℕ) :
    Keeps besides (fatPutcluster12 clusterno nextcluster : FatM vol _) :=
  (keeps_fatFscacheread _).bind fun _ => .ite (.pure _) ((keeps_modifyFs _).bind fun _ =>
    (keeps_modifyFs _).bind fun _ => (keeps_nextByte _ _).bind fun _ =>
      .ite (.pure _) (keeps_modifyFs _))

theorem keeps_putEntry (fatoffset : ℕ) (put : (ℕ → UInt8) → ℕ → ℕ → UInt8) :
    Keeps besides (putEntry fatoffset put : FatM vol _) :=
  (keeps_fatFscacheread _).bind fun _ => .ite (.pure _) (keeps_modifyFs _)

theorem keeps_fatPutcluster (clusterno nextcluster : ℕ) :
    Keeps besides (fatPutcluster clusterno nextcluster : FatM vol _) := by
  have hend : ∀ m : FatM vol Unit, Keeps besides m → Keeps besides (do
      m
      modifyFs fun fs => { fs with dirty := true }
      return (0 : ℤ)) :=
    fun _ hm => hm.bind fun _ => (keeps_modifyFs _).bind fun _ => .pure _
  refine .ite ?_ (.pure _)
  cases vol.type with
  | fat12 => exact hend _ (keeps_fatPutcluster12 _ _)
  | fat16 | fat32 => exact hend _ (keeps_putEntry _ _)

theorem keeps_linkCluster (cluster newcluster : ℕ) :
    Keeps besides (linkCluster cluster newcluster : FatM vol _) :=
  keeps_check (keeps_fatPutcluster _ _) (keeps_check (.ite (keeps_fatPutcluster _ _) (.pure _))
    ((keeps_modifyFs _).bind fun _ => .pure _))

/-- The rounds that the loop of `fat_extendchain` needs: up to `startcluster`, perhaps once around
the end of the table. -/
def extendRounds (vol : FatGeometry) (startcluster newcluster : ℕ) : ℕ :=
  if newcluster < startcluster then startcluster - newcluster
  else vol.nclusters - newcluster + startcluster

theorem keeps_extendLoop (cluster startcluster newcluster fuel : ℕ) (hpos : 0 < startcluster)
    (hstart : startcluster < vol.nclusters ∨ startcluster = 1)
    (hnew : newcluster < vol.nclusters ∨ startcluster = 1)
    (hfuel : extendRounds vol startcluster newcluster ≤ fuel) :
    Keeps besides (extendLoop cluster startcluster newcluster fuel : FatM vol _) := by
  induction fuel generalizing newcluster with
  | zero =>
    unfold extendRounds at hfuel
    split_ifs at hfuel <;> omega
  | succ fuel ih =>
    unfold extendLoop
    by_cases hend : vol.nclusters ≤ newcluster + 1 ∧ startcluster < 2
    · rw [if_pos hend]
      exact .pure _
    rw [if_neg hend]
    refine (keeps_fatGetcluster _).bind fun _ => .ite (keeps_linkCluster _ _) (.ite (.pure _) ?_)
    set candidate := if vol.nclusters ≤ newcluster + 1 then 2 else newcluster + 1 with hcandidate
    by_cases hlast : candidate = startcluster
    · rw [if_pos hlast]
      exact .pure _
    · rw [if_neg hlast]
      -- the candidate is one round nearer to `startcluster`
      unfold extendRounds at hfuel ih
      refine ih candidate ?_ ?_ <;> split_ifs at * <;> omega

/-- The loop of `fat_extendchain` has enough rounds. -/
theorem keeps_fatExtendchain (cluster : ℕ) :
    Keeps besides (fatExtendchain cluster : FatM vol _) := by
  have hloop : ∀ start, 0 < start → (start < vol.nclusters ∨ start = 1) → Keeps besides
      (extendLoop cluster start start (vol.nclusters + 1) : FatM vol _) := by
    intro start hpos hstart
    refine keeps_extendLoop _ _ _ _ hpos hstart hstart ?_
    rw [extendRounds, if_neg (Nat.lt_irrefl _)]
    omega
  unfold fatExtendchain
  by_cases hzero : cluster = 0
  · subst hzero
    refine keeps_getFs.bind fun fs => ?_
    by_cases hnext : fs.fsinextfree = 0 ∨ vol.nclusters ≤ fs.fsinextfree.toNat
    · rw [if_pos hnext]
      exact hloop 1 Nat.one_pos (.inr rfl)
    · rw [if_neg hnext]
      obtain ⟨hne, hlt⟩ := not_or.mp hnext
      exact hloop _ (Nat.pos_of_ne_zero fun h => hne (UInt32.toNat_inj.mp h))
        (.inl (Nat.not_le.mp hlt))
  · rw [if_neg hzero]
    by_cases hvalid : 2 ≤ cluster ∧ cluster < vol.nclusters
    · exact (keeps_fatGetcluster _).bind fun _ => .ite (.pure _) (.ite (.pure _)
        (.ite (.pure _) (hloop _ (by omega) (.inl hvalid.2))))
    · -- a cluster that is not one has no entry
      have hget : (fatGetcluster cluster : FatM vol ℤ) = pure (-eINVAL) := if_neg hvalid
      rw [hget, pure_bind, if_pos (by decide)]
      exact .pure _

theorem keeps_fatUpdatefsinfo : Keeps besides (fatUpdatefsinfo : FatM vol _) :=
  keeps_fatFscacheflush.bind fun _ => .ite
    (.bind .get fun _ => .ite ((keeps_modifyFs _).bind fun _ => keeps_fatFscacheflush.bind fun _ =>
      (keeps_modifyFs _).bind fun _ => .pure _) (.pure _))
    (.pure _)

/-! ### The file -/

theorem leaves_fatFfcacheflush : Leaves semaphore (fatFfcacheflush : FatM vol _) :=
  leaves_getFf.bind fun _ => .ite
    (leaves_check (leaves_of_keeps (keeps_fatHwwrite _ _ _))
        ((leaves_modifyFf _).bind fun _ => .pure _))
    (.pure _)

theorem leaves_fatFfcacheread (sector : ℤ) :
    Leaves semaphore (fatFfcacheread sector : FatM vol _) :=
  leaves_getFf.bind fun _ => .ite
    (leaves_check leaves_fatFfcacheflush ((leaves_of_keeps (keeps_fatHwread _)).bind fun _ =>
      (leaves_modifyFf _).bind fun _ => .ite (.pure _) ((leaves_modifyFf _).bind fun _ => .pure _)))
    (.pure _)

theorem leaves_fatFfcacheinvalidate : Leaves semaphore (fatFfcacheinvalidate : FatM vol _) :=
  leaves_getFf.bind fun _ => .ite
    (leaves_check leaves_fatFfcacheflush ((leaves_modifyFf _).bind fun _ => .pure _)) (.pure _)

theorem leaves_fatCurrentsector (position : ℤ) :
    Leaves semaphore (fatCurrentsector position : FatM vol _) :=
  leaves_getFf.bind fun _ => .ite ((leaves_modifyFf _).bind fun _ => .pure _) (.pure _)

theorem leaves_fetch (buflen : ℕ) : Leaves semaphore (fetch buflen : FatM vol _) :=
  leaves_getFf.bind fun _ => .ite
    (leaves_fatFfcacheinvalidate.bind fun _ => (leaves_of_keeps (keeps_fatHwread _)).bind fun _ =>
      .ite (.pure _) ((leaves_modifyFf _).bind fun _ => .pure _))
    ((leaves_fatFfcacheread _).bind fun _ => .ite (.pure _)
      ((leaves_modifyFf _).bind fun _ => leaves_getFf.bind fun _ => .pure _))

theorem leaves_readLoop (buflen : ℕ) (userbuffer : List UInt8) (fuel : ℕ) :
    Leaves semaphore (readLoop buflen userbuffer fuel : FatM vol _) := by
  induction fuel generalizing buflen userbuffer with
  | zero => exact .none
  | succ fuel ih =>
    exact .ite (.pure _) ((leaves_fetch _).bind fun _ => .ite (.pure _)
      ((leaves_modifyFf _).bind fun _ => leaves_getFf.bind fun _ => .ite
        ((leaves_of_keeps (keeps_fatGetcluster _)).bind fun _ => .ite (.pure _)
          ((leaves_modifyFf _).bind fun _ => ih _ _))
        (ih _ _)))

theorem leaves_loadSector : Leaves semaphore (loadSector : FatM vol _) :=
  leaves_getFf.bind fun _ => .ite (leaves_fatFfcacheread _)
    (leaves_check leaves_fatFfcacheflush ((leaves_modifyFf _).bind fun _ => .pure _))

theorem leaves_transfer (userbuffer : ℕ → UInt8) (buflen : ℕ) :
    Leaves semaphore (transfer userbuffer buflen : FatM vol _) :=
  leaves_getFf.bind fun _ => .ite
    (leaves_fatFfcacheinvalidate.bind fun _ =>
      (leaves_of_keeps (keeps_fatHwwrite _ _ _)).bind fun _ =>
      .ite (.pure _) ((leaves_modifyFf _).bind fun _ => (leaves_modifyFf _).bind fun _ => .pure _))
    (leaves_loadSector.bind fun _ => .ite (.pure _)
      ((leaves_modifyFf _).bind fun _ => (leaves_modifyFf _).bind fun _ => .pure _))

theorem leaves_writeLoop (userbuffer : ℕ → UInt8) (buflen byteswritten fuel : ℕ) :
    Leaves semaphore (writeLoop userbuffer buflen byteswritten fuel : FatM vol _) := by
  induction fuel generalizing userbuffer buflen byteswritten with
  | zero => exact .none
  | succ fuel ih =>
    exact .ite ((leaves_modifyFf _).bind fun _ => .pure _) ((leaves_transfer _ _).bind fun _ =>
      .ite (.pure _) ((leaves_modifyFf _).bind fun _ => leaves_getFf.bind fun _ => .ite
        ((leaves_of_keeps (keeps_fatExtendchain _)).bind fun _ => .ite (.pure _) (.ite (.pure _)
          ((leaves_modifyFf _).bind fun _ => ih _ _ _)))
        (ih _ _ _)))

theorem leaves_nextCluster (cluster : ℤ) : Leaves semaphore (nextCluster cluster : FatM vol _) :=
  leaves_getFf.bind fun _ => .ite (leaves_of_keeps (keeps_fatExtendchain _))
    (leaves_of_keeps (keeps_fatGetcluster _))

theorem leaves_seekLoop (cluster position : ℤ) (fuel : ℕ) :
    Leaves semaphore (seekLoop cluster position fuel : FatM vol _) := by
  induction fuel generalizing cluster position with
  | zero => exact .none
  | succ fuel ih =>
    exact (leaves_modifyFf _).bind fun _ => .ite (.pure _) ((leaves_nextCluster _).bind fun _ =>
      .ite (.pure _) (.ite (.pure _) (.ite (.pure _) ((leaves_modifyFf _).bind fun _ => ih _ _))))

theorem leaves_seekSize : Leaves semaphore (seekSize : FatM vol _) :=
  (leaves_modifyFf _).bind fun _ => .pure _

theorem leaves_seekFollow (cluster position : ℤ) (fuel : ℕ) :
    Leaves semaphore (seekFollow cluster position fuel : FatM vol _) :=
  (leaves_seekLoop _ _ _).bind fun res => by
    cases res with
    | error ret => exact .pure _
    | ok rest =>
      exact (leaves_modifyFf _).bind fun _ => leaves_getFf.bind fun _ =>
        (leaves_fatCurrentsector _).bind fun _ => leaves_getFf.bind fun _ =>
          leaves_check (.ite (leaves_fatFfcacheread _) (.pure _)) leaves_seekSize

theorem leaves_seekTo (position : ℤ) (fuel : ℕ) :
    Leaves semaphore (seekTo position fuel : FatM vol _) :=
  leaves_check leaves_fatFfcacheflush (leaves_getFf.bind fun _ =>
    (leaves_modifyFf _).bind fun _ => .ite
    ((leaves_of_keeps (keeps_fatExtendchain _)).bind fun _ => .ite (.pure _)
      ((leaves_modifyFf _).bind fun _ => .ite leaves_seekSize (leaves_seekFollow _ _ _)))
    (.ite leaves_seekSize (leaves_seekFollow _ _ _)))

theorem keeps_fatCheckmount : Keeps besides (fatCheckmount : FatM vol _) :=
  .bind .get fun _ => .ite (.pure _) (.bind (.modify fun _ => rfl) fun _ => .pure _)

/-! ### Giving the semaphore -/

theorem giving_spec {m : FatM vol α} (hm : Leaves semaphore m) {r : α}
    (hrun : giving m w = some (r, w')) : w'.takes = w.takes ∧ w'.gives = w.gives + 1 := by
  obtain ⟨a, w1, hfirst, hrest⟩ := bind_inv hrun
  obtain ⟨-, rfl⟩ := Prod.mk.inj (Option.some.inj hrest)
  have hsem := Prod.mk.inj (hm w a w1 hfirst)
  exact ⟨hsem.1, congrArg (· + 1) hsem.2⟩

theorem leaves_startChain :
    Leaves (fun w => (semaphore w, w.ff.size)) (startChain : FatM vol _) :=
  leaves_getFf.bind fun _ => .ite
    (((keeps_fatExtendchain 0).leaves.comp fun p => (p.1, p.2.size)).bind fun _ =>
      .modify fun _ => rfl)
    (.pure _)

theorem fatCheckmount_of_mounted (h : w.mounted = true ∧ w.available = true) :
    fatCheckmount w = some (0, w) := by
  change (if w.mounted = true ∧ w.available = true then _ else _ : FatM vol ℤ) w = _
  rw [if_pos h]
  rfl

theorem fatCheckmount_of_not_mounted (h : ¬ (w.mounted = true ∧ w.available = true)) :
    fatCheckmount w = some (shortTransfer, { w with mounted := false }) := by
  change (if w.mounted = true ∧ w.available = true then _ else _ : FatM vol ℤ) w = _
  rw [if_neg h]
  rfl

theorem fatCurrentsector_of_lt {position : ℤ} (h : w.ff.size < position) :
    fatCurrentsector position w = some (-eNOSPC, w) := by
  change (if position ≤ w.ff.size then _ else _ : FatM vol ℤ) w = _
  rw [if_neg (not_le.mpr h)]
  rfl

/-- The current sector is looked up and the function goes on, or it is refused and the function
returns without giving the semaphore. -/
theorem currentsector_spec {m : FatM vol α} (hm : Leaves semaphore m) {position : ℤ} {err : ℤ → α}
    {r : α} (hrun : (do
      let ret ← fatCurrentsector position
      if ret < 0 then return err ret else giving m) w = some (r, w')) :
    w'.takes = w.takes ∧ w'.gives = if w.ff.size < position then w.gives else w.gives + 1 := by
  by_cases hlt : w.ff.size < position
  · rw [bind_of_run (fatCurrentsector_of_lt hlt), if_pos (by decide)] at hrun
    cases hrun
    exact ⟨rfl, (if_pos hlt).symm⟩
  obtain ⟨ret, w1, hsector, hrest⟩ := bind_inv hrun
  have hsem := Prod.mk.inj (leaves_fatCurrentsector position w ret w1 hsector)
  have hret : ret = 0 := by
    change (if position ≤ w.ff.size then _ else _ : FatM vol ℤ) w = _ at hsector
    rw [if_pos (not_lt.mp hlt)] at hsector
    exact (Prod.mk.inj (Option.some.inj hsector)).1.symm
  rw [hret, if_neg (Int.lt_irrefl 0)] at hrest
  obtain ⟨htakes, hgives⟩ := giving_spec hm hrest
  rw [if_neg hlt]
  exact ⟨htakes.trans hsem.1, hgives.trans (congrArg (· + 1) hsem.2)⟩

end FatM

/-! ### Calls -/

/-- A call of one of the functions of an open file. -/
inductive LockCall
  | read (buflen : ℕ)
  | write (userbuffer : ℕ → UInt8) (buflen : ℕ)
  | seek (offset : ℤ) (whence : Whence)
  | sync

namespace LockCall

variable {vol : FatGeometry}

/-- The function that is called, with its status. -/
def run (fuel : ℕ) : LockCall → FatM vol ℤ
  | .read buflen => Prod.snd <$> FatM.fatRead buflen fuel
  | .write userbuffer buflen => FatM.fatWrite userbuffer buflen fuel
  | .seek offset whence => FatM.fatSeek offset whence fuel
  | .sync => FatM.fatSync

/-- The call gets as far as the current sector, and has none to go on with: the volume is there, the
file may be read or written, and its position is behind its end. -/
def Refused (w : FatWorld vol) : LockCall → Prop
  | .read _ => w.mounted = true ∧ w.available = true ∧ w.ff.rdok = true ∧
      w.ff.currentsector = 0 ∧ w.ff.size < w.ff.pos
  | .write _ buflen => w.mounted = true ∧ w.available = true ∧ w.ff.wrok = true ∧
      bits32 w.ff.size ≤ (bits32 w.ff.size + buflen) % 0x100000000 ∧
      w.ff.currentsector = 0 ∧ w.ff.size < w.ff.pos
  | .seek _ _ => False
  | .sync => False

instance (w : FatWorld vol) (call : LockCall) : Decidable (call.Refused w) :=
  match call with
  | .read _ => inferInstanceAs (Decidable (_ ∧ _))
  | .write _ _ => inferInstanceAs (Decidable (_ ∧ _))
  | .seek _ _ => inferInstanceAs (Decidable False)
  | .sync => inferInstanceAs (Decidable False)

end LockCall

variable {vol : FatGeometry}

/-- A call that has taken the semaphore has given it back, once. -/
def LockLaw (w w' : FatWorld vol) : Prop :=
  w'.takes = w.takes ∧ w'.gives = w.gives ∨ w'.takes = w.takes + 1 ∧ w'.gives = w.gives + 1

/-- A call has taken the semaphore, and given it unless `c`. -/
def GivenUnless (c : Prop) [Decidable c] (w w' : FatWorld vol) : Prop :=
  w'.takes = w.takes + 1 ∧ w'.gives = if c then w.gives else w.gives + 1

theorem GivenUnless.of_not {c : Prop} [Decidable c] (hc : ¬ c)
    (h : w'.takes = w.takes + 1 ∧ w'.gives = w.gives + 1) : GivenUnless c w w' := by
  refine ⟨h.1, ?_⟩
  rw [if_neg hc]
  exact h.2

namespace FatM

/-- The head of `fat_read` and `fat_write`: if the volume is not there that is an error, and the
semaphore is given. -/
theorem head_cases {α : Type} {err : ℤ → α} {rest : FatFile → FatM vol α} {r : α} (hrun : (do
      fatSemtake
      let ret ← fatCheckmount
      if ret ≠ 0 then giving (return err ret)
      else
        let ff ← getFf
        rest ff) w = some (r, w')) :
    ¬ (w.mounted = true ∧ w.available = true) ∧ w'.takes = w.takes + 1 ∧ w'.gives = w.gives + 1 ∨
    (w.mounted = true ∧ w.available = true) ∧
      rest w.ff { w with takes := w.takes + 1 } = some (r, w') := by
  set w1 : FatWorld vol := { w with takes := w.takes + 1 } with hw1
  obtain ⟨_, w2, htake, hrun⟩ := bind_inv hrun
  obtain rfl : w1 = w2 := (Prod.mk.inj (Option.some.inj htake)).2
  by_cases hmount : w1.mounted = true ∧ w1.available = true
  · rw [bind_of_run (fatCheckmount_of_mounted hmount), if_neg (by decide)] at hrun
    exact .inr ⟨hmount, hrun⟩
  · rw [bind_of_run (fatCheckmount_of_not_mounted hmount), if_pos (by decide)] at hrun
    exact .inl ⟨hmount, giving_spec (.pure _) hrun⟩

theorem fatRead_givenUnless {buflen fuel : ℕ} {r : List UInt8 × ℤ}
    (hrun : fatRead buflen fuel w = some (r, w')) :
    GivenUnless ((LockCall.read buflen).Refused w) w w' := by
  rcases head_cases hrun with ⟨hmount, hgiven⟩ | ⟨hmount, hrun⟩
  · exact .of_not (fun h => hmount ⟨h.1, h.2.1⟩) hgiven
  by_cases hrdok : w.ff.rdok = false
  · rw [if_pos hrdok] at hrun
    exact .of_not (fun h => absurd (hrdok.symm.trans h.2.2.1) Bool.false_ne_true)
      (giving_spec (.pure _) hrun)
  rw [if_neg hrdok] at hrun
  by_cases hsector : w.ff.currentsector = 0
  · rw [if_pos hsector] at hrun
    obtain ⟨htakes, hgives⟩ := currentsector_spec (leaves_readLoop _ _ _) hrun
    refine ⟨htakes, hgives.trans (if_congr ?_ rfl rfl)⟩
    exact ⟨fun h => ⟨hmount.1, hmount.2, Bool.eq_true_of_not_eq_false hrdok, hsector, h⟩,
      fun h => h.2.2.2.2⟩
  · rw [if_neg hsector] at hrun
    exact .of_not (fun h => hsector h.2.2.2.1) (giving_spec (leaves_readLoop _ _ _) hrun)

/-- `fat_write` gives the semaphore unless the current sector is refused. -/
theorem fatWrite_givenUnless {userbuffer : ℕ → UInt8} {buflen fuel : ℕ} {r : ℤ}
    (hrun : fatWrite userbuffer buflen fuel w = some (r, w')) :
    GivenUnless ((LockCall.write userbuffer buflen).Refused w) w w' := by
  rcases head_cases hrun with ⟨hmount, hgiven⟩ | ⟨hmount, hrun⟩
  · exact .of_not (fun h => hmount ⟨h.1, h.2.1⟩) hgiven
  by_cases hwrok : w.ff.wrok = false
  · rw [if_pos hwrok] at hrun
    exact .of_not (fun h => absurd (hwrok.symm.trans h.2.2.1) Bool.false_ne_true)
      (giving_spec (.pure _) hrun)
  rw [if_neg hwrok] at hrun
  by_cases hbig : (bits32 w.ff.size + buflen) % 0x100000000 < bits32 w.ff.size
  · rw [if_pos hbig] at hrun
    exact .of_not (fun h => absurd h.2.2.2.1 (not_le.mpr hbig)) (giving_spec (.pure _) hrun)
  rw [if_neg hbig] at hrun
  by_cases hsector : w.ff.currentsector = 0
  · rw [if_pos hsector] at hrun
    -- a new chain changes neither the semaphore nor the size that the position is compared with
    obtain ⟨u, w1, hstart, hrun⟩ := bind_inv hrun
    obtain ⟨hsem, hsize⟩ := Prod.mk.inj (leaves_startChain _ u w1 hstart)
    obtain ⟨htakes, hgives⟩ := currentsector_spec (leaves_writeLoop _ _ _ _) hrun
    rw [hsize] at hgives
    obtain ⟨htakes₁, hgives₁⟩ := Prod.mk.inj hsem
    rw [htakes₁] at htakes
    rw [hgives₁] at hgives
    refine ⟨htakes, hgives.trans (if_congr ?_ rfl rfl)⟩
    exact ⟨fun h => ⟨hmount.1, hmount.2, Bool.eq_true_of_not_eq_false hwrok, not_lt.mp hbig,
      hsector, h⟩, fun h => h.2.2.2.2.2⟩
  · rw [if_neg hsector] at hrun
    exact .of_not (fun h => hsector h.2.2.2.2.1) (giving_spec (leaves_writeLoop _ _ _ _) hrun)

theorem fatSeek_lockLaw {offset : ℤ} {whence : Whence} {fuel : ℕ} {r : ℤ}
    (hrun : fatSeek offset whence fuel w = some (r, w')) : LockLaw w w' := by
  obtain ⟨ff, w1, hff, hrun⟩ := bind_inv hrun
  obtain ⟨-, rfl⟩ := Prod.mk.inj (Option.some.inj hff)
  cases hposition : seekPosition ff offset whence with
  | none =>
    rw [hposition] at hrun
    obtain ⟨-, rfl⟩ := Prod.mk.inj (Option.some.inj hrun)
    exact .inl ⟨rfl, rfl⟩
  | some position =>
    rw [hposition] at hrun
    obtain ⟨u, w2, htake, hrun⟩ := bind_inv hrun
    obtain ⟨-, rfl⟩ := Prod.mk.inj (Option.some.inj htake)
    exact .inr (giving_spec ((leaves_of_keeps keeps_fatCheckmount).bind fun _ =>
      .ite (.pure _) (leaves_seekTo _ _)) hrun)

theorem fatSync_lockLaw {r : ℤ} (hrun : fatSync w = some (r, w')) : LockLaw w w' := by
  obtain ⟨u, w1, htake, hrun⟩ := bind_inv hrun
  cases htake
  refine .inr (giving_spec ?_ hrun)
  exact (leaves_of_keeps keeps_fatCheckmount).bind fun _ => .ite (.pure _)
    (leaves_getFf.bind fun _ => .ite
      (leaves_check leaves_fatFfcacheflush (.bind .get fun _ =>
        leaves_check (leaves_of_keeps (keeps_fatFscacheread _)) (leaves_getFf.bind fun _ =>
          (leaves_of_keeps (keeps_modifyFs _)).bind fun _ => (leaves_modifyFf _).bind fun _ =>
            (leaves_of_keeps (keeps_modifyFs _)).bind fun _ =>
              leaves_of_keeps keeps_fatUpdatefsinfo)))
      (.pure _))

end FatM

theorem GivenUnless.lockLaw_iff {c : Prop} [Decidable c] (h : GivenUnless c w w') :
    LockLaw w w' ↔ ¬ c := by
  obtain ⟨htakes, hgives⟩ := h
  by_cases hc : c
  · rw [if_pos hc] at hgives
    refine iff_of_false ?_ (not_not.mpr hc)
    rintro (⟨h, -⟩ | ⟨-, h⟩) <;> omega
  · rw [if_neg hc] at hgives
    exact ⟨fun _ => hc, fun _ => .inr ⟨htakes, hgives⟩⟩

/-- **A call gives the semaphore of the volume as often as it has taken it, once or never, exactly
if it is not refused its current sector**: for every state of the volume and of the file and
whatever the block driver answers. -/
theorem lockCall_law_iff (call : LockCall) (fuel : ℕ) (w w' : FatWorld vol) (r : ℤ)
    (hrun : call.run fuel w = some (r, w')) : LockLaw w w' ↔ ¬ call.Refused w := by
  cases call with
  | read buflen =>
    obtain ⟨⟨bytes, w₁⟩, hread, hstatus⟩ := Option.bind_eq_some_iff.mp hrun
    cases hstatus
    exact (FatM.fatRead_givenUnless hread).lockLaw_iff
  | write userbuffer buflen => exact (FatM.fatWrite_givenUnless hrun).lockLaw_iff
  | seek offset whence => exact iff_of_true (FatM.fatSeek_lockLaw hrun) not_false
  | sync => exact iff_of_true (FatM.fatSync_lockLaw hrun) not_false

/-- A file of the small volume that has just been opened, with its size as an `off_t`. -/
def openedWorld (size : ℤ) : FatWorld smallVolume :=
  { fs := smallMount
    ff := (smallFile size).ff
    dirsector := 0
    dirindex := 0
    fsinfo := 0
    mounted := true
    available := true
    outcomes := fun _ => .done
    takes := 0
    gives := 0 }

theorem lockCall_law_iff_ten :
    ∃ w', (LockCall.read 10).run 5 (openedWorld 600) = some (10, w') ∧ w'.takes = 1 ∧
      LockLaw (openedWorld 600) w' := by
  have hrun : (((LockCall.read 10).run 5 (openedWorld 600)).map fun r => (r.1, r.2.takes)) =
      some (10, 1) := by decide +kernel
  obtain ⟨⟨r, w'⟩, hrun, hval⟩ := Option.map_eq_some_iff.mp hrun
  obtain ⟨rfl, htakes⟩ := Prod.mk.inj hval
  exact ⟨w', hrun, htakes,
    (lockCall_law_iff (.read 10) 5 (openedWorld 600) w' 10 hrun).mpr (by decide +kernel)⟩

/-- **A file of two gigabytes cannot be read, and the volume is locked afterwards**: its size is
negative as an `off_t`, the first sector is refused, and `fat_read` returns with the semaphore. -/
theorem lockCall_refused :
    ∃ w', (LockCall.read 10).run 5 (openedWorld (offT 0x80000000)) = some (-eNOSPC, w') ∧
      w'.takes = 1 ∧ w'.gives = 0 ∧ ¬ LockLaw (openedWorld (offT 0x80000000)) w' := by
  refine ⟨{ openedWorld (offT 0x80000000) with takes := 1 }, rfl, rfl, rfl, ?_⟩
  rintro (⟨h, -⟩ | ⟨-, h⟩)
  · exact absurd h (by decide)
  · exact absurd h (by decide)

end NuttX
