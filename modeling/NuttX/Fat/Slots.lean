import NuttX.Fat.Settled

/-!
# The slots of a directory

The slots of a directory are numbered, whether they are in the clusters of a chain or in the fixed
area of the root directory: `NuttX.DirSlots`. `NuttX.Track` says that `fat_nextdirentry` visits
them in this order; then the searches of `fat_allocatesfnentry` and `fat_allocatelfnentry` find a
row of free slots exactly if there is one (`NuttX.FatMountpt.searchSlots_spec`).
-/

namespace NuttX

open FatVolume FatMountpt

/-- The slots of a directory: their number, and the sector of each. -/
structure DirSlots where
  count : ℕ
  sector : ℕ → ℤ

namespace DirSlots

/-- A slot is free on a device with the contents `f`. -/
def Free (vol : FatVolume) (f : ℤ → ℕ → UInt8) (S : DirSlots) (i : ℕ) : Prop :=
  dirEmpty (f (S.sector i) (i % vol.dirsecNdirs * 32)) = true

/-- There are `n` free slots in a row. -/
def Room (vol : FatVolume) (f : ℤ → ℕ → UInt8) (S : DirSlots) (n i : ℕ) : Prop :=
  i + n ≤ S.count ∧ ∀ j < n, S.Free vol f (i + j)

def Full (vol : FatVolume) (f : ℤ → ℕ → UInt8) (S : DirSlots) (n : ℕ) : Prop :=
  ∀ i, ¬ S.Room vol f n i

/-- The recorded place is that of `n` slots in a row, from the slot `i` on. -/
structure Recorded (vol : FatVolume) (S : DirSlots) (n i : ℕ) (seq : FatDirseq) : Prop where
  lfnsector : seq.lfnsector = S.sector i
  lfnoffset : seq.lfnoffset = i % vol.dirsecNdirs * 32
  sector : seq.sector = S.sector (i + n - 1)
  offset : seq.offset = (i + n - 1) % vol.dirsecNdirs * 32

end DirSlots

/-- The slots that a name needs. -/
def FatDirinfo.slots (info : FatDirinfo) : ℕ :=
  if info.lfname ≠ [] then lfnEntries info.lfname.length else 1

theorem lfnEntries_pos (n : ℕ) : 1 ≤ lfnEntries n := Nat.succ_le_succ (Nat.zero_le _)

theorem FatDirinfo.slots_congr {info info' : FatDirinfo} (h : info'.lfname = info.lfname) :
    info'.slots = info.slots := by
  rw [slots, slots, h]

theorem FatDirinfo.slots_pos (info : FatDirinfo) : 1 ≤ info.slots := by
  unfold FatDirinfo.slots
  split_ifs
  · exact lfnEntries_pos _
  · exact Nat.le_refl 1

/-! ### Tracks -/

/-- `fat_nextdirentry` visits the slots in their order: `At dir i` says that a position is that of a
slot, and `Ends dir` what a position is like after the last one. -/
structure Track {vol : FatVolume} (fs₀ : FatMountpt vol) (root : FatRoot) (S : DirSlots)
    (At : FatDir → ℕ → Prop) (Ends : FatDir → Prop) : Prop where
  place : ∀ dir i, At dir i → i < S.count ∧ dir.currsector = S.sector i ∧
    vol.diroffset dir.index = i % vol.dirsecNdirs * 32
  next : ∀ (fs : FatMountpt vol) dir i, fs₀.Looks fs → At dir i →
    fs₀.Looks (fs.fatNextdirentry root dir).1 ∧
      (i + 1 < S.count ∧ (fs.fatNextdirentry root dir).2.2 = 0 ∧
          At (fs.fatNextdirentry root dir).2.1 (i + 1) ∨
        i + 1 = S.count ∧ (fs.fatNextdirentry root dir).2.2 = -eNOSPC ∧
          Ends (fs.fatNextdirentry root dir).2.1)

namespace FatMountpt

variable {vol : FatVolume} {fs₀ fs fs' : FatMountpt vol} {root : FatRoot} {S : DirSlots}
  {At : FatDir → ℕ → Prop} {Ends : FatDir → Prop} {info : FatDirinfo} {n needed a i : ℕ}
  {seq : FatDirseq}

/-- What a search for `n` slots ends with. -/
def SlotsSearched (fs₀ : FatMountpt vol) (S : DirSlots) (Ends : FatDir → Prop) (info : FatDirinfo)
    (n : ℕ) (r : Option (FatMountpt vol × FatDirinfo × ℤ)) : Prop :=
  ∃ fs' info' ret, r = some (fs', info', ret) ∧ fs₀.Looks fs' ∧ info'.lfname = info.lfname ∧
    (ret = 0 ∧ (∃ i, S.Room vol fs₀.settled n i ∧ S.Recorded vol n i info'.seq) ∨
      ret = -eNOSPC ∧ S.Full vol fs₀.settled n ∧ Ends info'.dir)

/-- The state of the search at the slot `i`: the free slots from `a` on have been counted, and there
is no room before. -/
structure Counted (fs₀ : FatMountpt vol) (S : DirSlots) (n needed a i : ℕ) (seq : FatDirseq) :
    Prop where
  sum : a + n = i + needed
  pos : 1 ≤ needed
  le : a ≤ i
  free : ∀ j, a ≤ j → j < i → S.Free vol fs₀.settled j
  used : ∀ k, k + 1 = a → ¬ S.Free vol fs₀.settled k
  first : a < i → seq.lfnsector = S.sector a ∧ seq.lfnoffset = a % vol.dirsecNdirs * 32
  noRoom : ∀ k, k + n ≤ i → ¬ ∀ j < n, S.Free vol fs₀.settled (k + j)

theorem Counted.full (h : Counted fs₀ S n needed a i seq) (hend : i = S.count) :
    S.Full vol fs₀.settled n :=
  fun k hroom => h.noRoom k (hend ▸ hroom.1) hroom.2

/-- A slot that is not free starts the search again. -/
theorem Counted.reset (h : Counted fs₀ S n needed a i seq) (hused : ¬ S.Free vol fs₀.settled i)
    (hn : 1 ≤ n) :
    Counted fs₀ S n n (i + 1) (i + 1) seq where
  sum := rfl
  pos := hn
  le := Nat.le_refl _
  free j hj hj' := absurd hj' (Nat.not_lt.mpr hj)
  used k hk := by
    obtain rfl : k = i := Nat.succ.inj hk
    exact hused
  first hlt := absurd hlt (Nat.lt_irrefl _)
  noRoom k hk hall := by
    rcases Nat.lt_or_ge (k + n) (i + 1) with hlt | hge
    · exact h.noRoom k (by omega) hall
    · have hlast := hall (n - 1) (by omega)
      rw [show k + (n - 1) = i by omega] at hlast
      exact hused hlast

theorem Counted.take {seq seq' : FatDirseq} (h : Counted fs₀ S n needed a i seq)
    (hfree : S.Free vol fs₀.settled i) (hmore : 1 < needed)
    (hseq : seq'.lfnsector = S.sector a ∧ seq'.lfnoffset = a % vol.dirsecNdirs * 32) :
    Counted fs₀ S n (needed - 1) a (i + 1) seq' where
  sum := by
    have hsum := h.sum
    omega
  pos := by omega
  le := Nat.le_succ_of_le h.le
  free j hj hj' := by
    rcases Nat.lt_or_ge j i with hlt | hge
    · exact h.free j hj hlt
    · obtain rfl : j = i := by omega
      exact hfree
  used := h.used
  first _ := hseq
  noRoom k hk hall := by
    have hsum := h.sum
    have hle := h.le
    rcases Nat.lt_or_ge (k + n) (i + 1) with hlt | hge
    · exact h.noRoom k (by omega) hall
    -- the row would start before `a`, where a slot is not free
    have hlast := hall (a - 1 - k) (by omega)
    refine h.used (a - 1) (by omega) ?_
    rw [show k + (a - 1 - k) = a - 1 by omega] at hlast
    exact hlast

theorem Counted.room {n a i : ℕ} (h : Counted fs₀ S n 1 a i seq) (hfree : S.Free vol fs₀.settled i)
    (hlt : i < S.count) : S.Room vol fs₀.settled n a := by
  have hsum := h.sum
  refine ⟨by omega, fun j hj => ?_⟩
  rcases Nat.lt_or_ge (a + j) i with hbefore | hge
  · exact h.free _ (Nat.le_add_right ..) hbefore
  · rw [show a + j = i by omega]
    exact hfree

/-- **The search for a row of free slots.** -/
theorem lfnLoop_spec (htrack : Track fs₀ root S At Ends) {startsector : ℤ} (fuel : ℕ)
    (hlooks : fs₀.Looks fs) (hat : At info.dir i) (hn : 1 ≤ n)
    (hcount : Counted fs₀ S n needed a i info.seq) (hfuel : S.count - i ≤ fuel) :
    fs₀.SlotsSearched S Ends info n (fs.lfnLoop root info startsector n needed fuel) := by
  induction fuel generalizing fs info needed a i with
  | zero =>
    have hlt := (htrack.place _ _ hat).1
    omega
  | succ fuel ih =>
    obtain ⟨hlt, hsector, hoffset⟩ := htrack.place _ _ hat
    have hread := hlooks.trans (looks_fatFscacheread hlooks.fresh info.dir.currsector)
    have hbyte : (fs.fatFscacheread info.dir.currsector).buffer (vol.diroffset info.dir.index) =
        fs₀.settled (S.sector i) (i % vol.dirsecNdirs * 32) := by
      rw [buffer_read_eq_settled hlooks.fresh, hlooks.settled, hsector, hoffset]
    have hcur : (fs.fatFscacheread info.dir.currsector).currentsector = S.sector i := by
      rw [currentsector_fatFscacheread, hsector]
    have hsum := hcount.sum
    have hneg : -eNOSPC < 0 := by decide
    obtain ⟨hlooks', hnext⟩ := htrack.next _ _ _ hread hat
    unfold lfnLoop
    dsimp only
    rw [hbyte, hcur, hoffset]
    generalize hempty : dirEmpty (fs₀.settled (S.sector i) (i % vol.dirsecNdirs * 32)) = empty
    -- the first slot of the row is recorded, now or before
    have hseq : empty = true → ∀ seq, seq = (if empty = true ∧ needed = n then
        info.seq.recordLfn (S.sector i) (i % vol.dirsecNdirs * 32) info.dir.currcluster startsector
      else info.seq) → seq.lfnsector = S.sector a ∧ seq.lfnoffset = a % vol.dirsecNdirs * 32 := by
      rintro rfl seq rfl
      by_cases hfirst : needed = n
      · obtain rfl : a = i := by omega
        rw [if_pos ⟨rfl, hfirst⟩]
        exact ⟨rfl, rfl⟩
      · rw [if_neg fun h => hfirst h.2]
        have hle := hcount.le
        exact hcount.first (by omega)
    obtain ⟨seq1, hseq1⟩ : ∃ seq1, seq1 = (if empty = true ∧ needed = n then
        info.seq.recordLfn (S.sector i) (i % vol.dirsecNdirs * 32) info.dir.currcluster startsector
      else info.seq) := ⟨_, rfl⟩
    rw [← hseq1]
    by_cases hlast : empty = true ∧ needed ≤ 1
    · have hpos := hcount.pos
      obtain ⟨rfl, hone⟩ := hlast
      obtain rfl : needed = 1 := by omega
      refine ⟨_, _, _, rfl, hread, rfl, .inl ⟨rfl, a, hcount.room hempty hlt, ?_⟩⟩
      rw [show i = a + n - 1 by omega]
      exact ⟨(hseq rfl _ hseq1).1, (hseq rfl _ hseq1).2, rfl, rfl⟩
    rw [if_neg hlast]
    have hcount' : Counted fs₀ S n (if empty = true then needed - 1 else n)
        (if empty = true then a else i + 1) (i + 1) seq1 := by
      cases empty with
      | true =>
        exact hcount.take hempty (Nat.lt_of_not_le fun h => hlast ⟨rfl, h⟩) (hseq rfl _ hseq1)
      | false =>
        have hfalse : ¬ (false = true ∧ needed = n) := fun h => Bool.false_ne_true h.1
        rw [hseq1, if_neg hfalse]
        exact hcount.reset (fun h => Bool.false_ne_true (hempty.symm.trans h)) hn
    rcases hnext with ⟨hlt', hret, hat'⟩ | ⟨hend, hret, hends⟩
    · rw [hret, if_neg (Int.lt_irrefl 0)]
      exact ih hlooks' hat' hcount' (by omega)
    · rw [hret, if_pos hneg]
      exact ⟨_, _, _, rfl, hlooks', rfl, .inr ⟨rfl, hcount'.full hend, hends⟩⟩

theorem sfnLoop_eq {startsector : ℤ} (fuel : ℕ) :
    fs.sfnLoop root info startsector fuel = fs.lfnLoop root info startsector 1 1 fuel := by
  induction fuel generalizing fs info with
  | zero => rfl
  | succ fuel ih =>
    unfold sfnLoop lfnLoop
    dsimp only
    generalize dirEmpty ((fs.fatFscacheread info.dir.currsector).buffer
      (vol.diroffset info.dir.index)) = empty
    cases empty with
    | true =>
      rfl
    | false =>
      have hfalse : ∀ p : Prop, ¬ (false = true ∧ p) := fun _ h => Bool.false_ne_true h.1
      rw [if_neg Bool.false_ne_true, if_neg (hfalse _), if_neg (hfalse _),
        if_neg Bool.false_ne_true, ih]

theorem Counted.start {n : ℕ} (hn : 1 ≤ n) (seq : FatDirseq) : Counted fs₀ S n n 0 0 seq where
  sum := rfl
  pos := hn
  le := Nat.le_refl 0
  free _ _ h := absurd h (Nat.not_lt_zero _)
  used _ h := absurd h (Nat.succ_ne_zero _)
  first h := absurd h (Nat.lt_irrefl 0)
  noRoom k hk := by omega

/-- **The search finds room exactly if there is room.** -/
theorem searchSlots_spec (htrack : Track fs₀ root S At Ends) (hlooks : fs₀.Looks fs)
    (hat : At info.dir 0) (hfuel : S.count ≤ slotFuel vol root) :
    fs₀.SlotsSearched S Ends info info.slots (fs.searchSlots root info) := by
  unfold searchSlots FatDirinfo.slots
  by_cases hname : info.lfname ≠ []
  · rw [if_pos hname, if_pos hname]
    exact lfnLoop_spec htrack _ hlooks hat (lfnEntries_pos _) (.start (lfnEntries_pos _) _) hfuel
  · rw [if_neg hname, if_neg hname, fatAllocatesfnentry, sfnLoop_eq]
    exact lfnLoop_spec htrack _ hlooks hat (Nat.le_refl 1) (.start (Nat.le_refl 1) _) hfuel

end FatMountpt

/-! ### Slots in a sector -/

theorem succ_div_cases (d i : ℕ) :
    (i + 1) % d ≠ 0 ∧ (i + 1) / d = i / d ∧ (i + 1) % d = i % d + 1 ∨
      (i + 1) % d = 0 ∧ (i + 1) / d = i / d + 1 := by
  have hdiv := Nat.div_add_mod i d
  have hdiv' := Nat.div_add_mod (i + 1) d
  by_cases hmod : (i + 1) % d = 0
  · exact .inr ⟨hmod, Nat.succ_div_of_dvd (Nat.dvd_of_mod_eq_zero hmod)⟩
  · have hsame : (i + 1) / d = i / d := Nat.succ_div_of_not_dvd (mt Nat.mod_eq_zero_of_dvd hmod)
    rw [hsame] at hdiv'
    exact .inl ⟨hmod, hsame, by omega⟩

namespace FatVolume

variable {vol : FatVolume}

section

variable (h : 32 ≤ vol.hwsectorsize)

include h

theorem dirsecNdirs_eq : ∃ k ≤ 10, vol.dirsecNdirs = 2 ^ k ∧ vol.hwsectorsize = 2 ^ k * 32 := by
  obtain ⟨k, hk⟩ := vol.hwsectorsize_eq
  have hlt := vol.hwsectorsize_lt
  rw [hk] at h hlt
  have hlow : 5 ≤ k + 2 := (Nat.pow_le_pow_iff_right (by omega : 1 < 2)).mp h
  have hhigh : k + 2 < 16 := (Nat.pow_lt_pow_iff_right (by omega : 1 < 2)).mp hlt
  have hsplit : vol.hwsectorsize = 2 ^ (k - 3) * 32 := by
    rw [hk, show k + 2 = k - 3 + 5 by omega, Nat.pow_add]
  refine ⟨k - 3, by omega, ?_, hsplit⟩
  rw [FatGeometry.dirsecNdirs, Nat.shiftRight_eq_div_pow, hsplit]
  exact Nat.mul_div_cancel _ (by decide)

theorem dirsecNdirs_pos : 0 < vol.dirsecNdirs := by
  obtain ⟨k, -, hk, -⟩ := dirsecNdirs_eq h
  rw [hk]
  exact Nat.two_pow_pos k

theorem and_dirsecNdirs (x : ℕ) : x &&& (vol.dirsecNdirs - 1) = x % vol.dirsecNdirs := by
  obtain ⟨k, -, hk, -⟩ := dirsecNdirs_eq h
  rw [hk]
  exact Nat.and_two_pow_sub_one_eq_mod x k

end

theorem and_fatsecperclus (x : ℕ) :
    x &&& (vol.fatsecperclus - 1) = x % vol.fatsecperclus := by
  obtain ⟨k, -, hk⟩ := vol.fatsecperclus_eq
  rw [hk]
  exact Nat.and_two_pow_sub_one_eq_mod x k

section

variable (h : 32 ≤ vol.hwsectorsize)

include h

theorem mod_dirsecNdirs (x : ℕ) : x % 0x100000000 % vol.dirsecNdirs = x % vol.dirsecNdirs := by
  obtain ⟨k, hle, hk, -⟩ := dirsecNdirs_eq h
  rw [hk, show 0x100000000 = 2 ^ 32 from rfl]
  exact Nat.mod_mod_of_dvd _ (Nat.pow_dvd_pow 2 (by omega))

theorem div_dirsecNdirs (x : ℕ) :
    x % 0x100000000 / vol.dirsecNdirs % vol.fatsecperclus =
      x / vol.dirsecNdirs % vol.fatsecperclus := by
  obtain ⟨k, hle, hk, -⟩ := dirsecNdirs_eq h
  obtain ⟨j, hj, hspc⟩ := vol.fatsecperclus_eq
  rw [hk, hspc, show 0x100000000 = 2 ^ k * 2 ^ (32 - k) by
    rw [← Nat.pow_add, show k + (32 - k) = 32 by omega], Nat.mod_mul_right_div_self]
  exact Nat.mod_mod_of_dvd _ (Nat.pow_dvd_pow 2 (by omega))

theorem diroffset_eq (i : ℕ) : vol.diroffset (i % 0x100000000) = i % vol.dirsecNdirs * 32 := by
  have hmask : vol.dirsecNdxmask = vol.dirsecNdirs - 1 := by
    obtain ⟨k, -, hk, hsize⟩ := dirsecNdirs_eq h
    rw [FatGeometry.dirsecNdxmask, Nat.shiftRight_eq_div_pow, hk, hsize]
    omega
  have hlt := Nat.mod_lt i (dirsecNdirs_pos h)
  have hsize : vol.dirsecNdirs * 32 < 0x10000 := by
    obtain ⟨k, -, hk, hsize⟩ := dirsecNdirs_eq h
    rw [hk, ← hsize]
    exact vol.hwsectorsize_lt
  rw [FatGeometry.diroffset, hmask, and_dirsecNdirs h, mod_dirsecNdirs h]
  exact Nat.mod_eq_of_lt (by omega)

end

end FatVolume

/-! ### The slots of the fixed root directory -/

/-- The root directory fits to the rest of the volume: it has an area of its own before the data, or
it is a chain. -/
structure FatRoot.Fits (root : FatRoot) (vol : FatVolume) : Prop where
  slot_le : 32 ≤ vol.hwsectorsize
  rootentcnt_lt : root.rootentcnt < 2 ^ 16
  rootentcnt_pos : vol.type ≠ .fat32 → 0 < root.rootentcnt
  behind : vol.type ≠ .fat32 → vol.BehindFat root.rootbase
  before_data : vol.type ≠ .fat32 →
    root.rootbase + ((root.rootentcnt + vol.dirsecNdirs - 1) / vol.dirsecNdirs : ℕ) ≤ vol.database
  cluster : vol.type = .fat32 → 2 ≤ root.rootbase ∧ root.rootbase < vol.nclusters

/-- The slots of the fixed root directory. The last sector is used as a whole. -/
def rootSlots (vol : FatVolume) (root : FatRoot) : DirSlots where
  count := (root.rootentcnt + vol.dirsecNdirs - 1) / vol.dirsecNdirs * vol.dirsecNdirs
  sector i := root.rootbase + (i / vol.dirsecNdirs : ℕ)

/-- The position of a slot of the root directory. -/
def AtRoot (vol : FatVolume) (root : FatRoot) (dir : FatDir) (i : ℕ) : Prop :=
  i < (rootSlots vol root).count ∧ dir.currcluster = 0 ∧
    dir.currsector = (rootSlots vol root).sector i ∧ dir.index = i

section Tracks

variable {vol : FatVolume} {root : FatRoot} {fs₀ fs : FatMountpt vol} {dir : FatDir} {i : ℕ}

theorem rootSlots_count_lt (hfits : root.Fits vol) : (rootSlots vol root).count < 0x10000000 := by
  obtain ⟨k, hk, hdirs, -⟩ := dirsecNdirs_eq hfits.slot_le
  have hle : vol.dirsecNdirs ≤ 2 ^ 10 := by
    rw [hdirs]
    exact Nat.pow_le_pow_right (by decide) hk
  have hcount : (rootSlots vol root).count ≤ root.rootentcnt + vol.dirsecNdirs - 1 :=
    Nat.div_mul_le_self ..
  have hlt := hfits.rootentcnt_lt
  omega

/-- After a whole sector there is another one if there are more entries. -/
theorem rootSlots_next (hfits : root.Fits vol) (hi : i < (rootSlots vol root).count)
    (hmod : (i + 1) % vol.dirsecNdirs = 0) :
    root.rootentcnt ≤ i + 1 ∧ i + 1 = (rootSlots vol root).count ∨
      ¬ root.rootentcnt ≤ i + 1 ∧ i + 1 < (rootSlots vol root).count := by
  have hpos := dirsecNdirs_pos hfits.slot_le
  change i < (root.rootentcnt + vol.dirsecNdirs - 1) / vol.dirsecNdirs * vol.dirsecNdirs at hi
  change _ ∧ i + 1 = (root.rootentcnt + vol.dirsecNdirs - 1) / vol.dirsecNdirs * vol.dirsecNdirs ∨
    _ ∧ i + 1 < (root.rootentcnt + vol.dirsecNdirs - 1) / vol.dirsecNdirs * vol.dirsecNdirs
  obtain ⟨m, hm⟩ := Nat.dvd_of_mod_eq_zero hmod
  rw [Nat.mul_comm] at hm
  generalize vol.dirsecNdirs = d at *
  by_cases hend : root.rootentcnt ≤ i + 1
  · refine .inl ⟨hend, Nat.le_antisymm hi ?_⟩
    rw [hm]
    refine Nat.mul_le_mul_right d (Nat.lt_succ_iff.mp ?_)
    rw [Nat.div_lt_iff_lt_mul hpos, Nat.succ_mul]
    omega
  · refine .inr ⟨hend, ?_⟩
    rw [hm]
    refine Nat.mul_lt_mul_of_pos_right ?_ hpos
    rw [← Nat.succ_le_iff, Nat.le_div_iff_mul_le hpos, Nat.succ_mul]
    omega

/-- The fixed root directory is visited slot by slot. -/
theorem track_root (hfits : root.Fits vol) (htype : vol.type ≠ .fat32) :
    Track fs₀ root (rootSlots vol root) (AtRoot vol root) fun _ => True where
  place dir i hat := by
    obtain ⟨hlt, -, hsector, hindex⟩ := hat
    have hcount := rootSlots_count_lt hfits
    have hoffset := diroffset_eq hfits.slot_le i
    rw [Nat.mod_eq_of_lt (by omega)] at hoffset
    exact ⟨hlt, hsector, hindex ▸ hoffset⟩
  next fs dir i hlooks hat := by
    obtain ⟨hlt, hcluster, hsector, hindex⟩ := hat
    have hcount := rootSlots_count_lt hfits
    have hpos := dirsecNdirs_pos hfits.slot_le
    have hndx : (dir.index + 1) % 0x100000000 = i + 1 := by
      rw [hindex]
      exact Nat.mod_eq_of_lt (by omega)
    unfold fatNextdirentry
    dsimp only
    rw [hndx, and_dirsecNdirs hfits.slot_le]
    rcases succ_div_cases vol.dirsecNdirs i with ⟨hmod, hdiv, -⟩ | ⟨hmod, hdiv⟩
    · -- the next slot is in the same sector
      rw [if_neg hmod]
      have hne : i + 1 ≠ (rootSlots vol root).count := by
        intro heq
        exact hmod (heq ▸ Nat.mul_mod_left ..)
      refine ⟨hlooks, .inl ⟨by omega, rfl, by omega, hcluster, ?_, rfl⟩⟩
      dsimp only [rootSlots] at hsector ⊢
      rw [hsector, hdiv]
    rw [if_pos hmod, if_pos hcluster]
    have hstep : offT (dir.currsector + 1) = (rootSlots vol root).sector (i + 1) := by
      have hlast : i / vol.dirsecNdirs <
          (root.rootentcnt + vol.dirsecNdirs - 1) / vol.dirsecNdirs :=
        (Nat.div_lt_iff_lt_mul hpos).mpr hlt
      have hdata := hfits.before_data htype
      have hbehind := hfits.behind htype
      have hfit := vol.sectors_fit
      have hbase := vol.fatbase_nonneg
      unfold BehindFat at hbehind
      dsimp only [rootSlots] at hsector ⊢
      rw [hsector, hdiv]
      generalize i / vol.dirsecNdirs = q at hlast ⊢
      rw [offT_of_lt (by omega) (by omega)]
      omega
    rcases rootSlots_next hfits hlt hmod with ⟨hend, hlast⟩ | ⟨hend, hmore⟩
    · rw [if_pos hend]
      exact ⟨hlooks, .inr ⟨hlast, rfl, trivial⟩⟩
    · rw [if_neg hend]
      exact ⟨hlooks, .inl ⟨hmore, rfl, hmore, hcluster, hstep, rfl⟩⟩

/-! ### The slots of a chain -/

/-- The slots of groups of sectors that are as large as a cluster, given by their first sectors. -/
def blockSlots (vol : FatVolume) (bases : List ℤ) : DirSlots where
  count := bases.length * vol.fatsecperclus * vol.dirsecNdirs
  sector i := bases.getD (i / vol.dirsecNdirs / vol.fatsecperclus) 0 +
    (i / vol.dirsecNdirs % vol.fatsecperclus : ℕ)

/-- The slots of a directory with the chain `l`. -/
def chainSlots (vol : FatVolume) (l : List ℕ) : DirSlots :=
  blockSlots vol (l.map fun c => vol.fatCluster2sector c)

/-- The position of a slot, while the clusters of `l` are followed. -/
def AtBlock (vol : FatVolume) (l : List ℕ) (bases : List ℤ) (dir : FatDir) (i : ℕ) : Prop :=
  i < (blockSlots vol bases).count ∧
    l[i / vol.dirsecNdirs / vol.fatsecperclus]? = some dir.currcluster ∧
    dir.currsector = (blockSlots vol bases).sector i ∧ dir.index = i % 0x100000000

theorem FatType.entry_lt (t : FatType) (p : ℕ → UInt8) (c : ℕ) : t.entry p c < 2 ^ 28 := by
  cases t with
  | fat12 =>
    have h0 := (p (c * 3 / 2)).toNat_lt
    have h1 := (p (c * 3 / 2 + 1)).toNat_lt
    rw [entry]
    split_ifs
    · omega
    · omega
  | fat16 =>
    have h0 := (p (2 * c)).toNat_lt
    have h1 := (p (2 * c + 1)).toNat_lt
    rw [entry, fatGetfat16_eq]
    omega
  | fat32 => exact Nat.mod_lt _ (by decide)

/-- The clusters of a chain are followed. The first group of sectors may be another one than the
first cluster. -/
theorem track_block (hslot : 32 ≤ vol.hwsectorsize) (h : fs₀.Fresh) {s : ℕ} {l : List ℕ}
    {bases : List ℤ} (hpath : vol.links.Path fs₀.link s l) (hlen : bases.length = l.length)
    (hbases : ∀ j c, l[j + 1]? = some c → bases.getD (j + 1) 0 = vol.fatCluster2sector c)
    (hbound : ∀ j < bases.length, 0 ≤ bases.getD j 0 ∧
      bases.getD j 0 + vol.fatsecperclus < 2 ^ 31) :
    Track fs₀ root (blockSlots vol bases) (AtBlock vol l bases)
      fun dir => l.getLast? = some dir.currcluster where
  place dir i hat := by
    obtain ⟨hlt, -, hsector, hindex⟩ := hat
    exact ⟨hlt, hsector, hindex ▸ diroffset_eq hslot i⟩
  next fs dir i hlooks hat := by
    obtain ⟨hlt, hcluster, hsector, hindex⟩ := hat
    have hpos := dirsecNdirs_pos hslot
    have hspc := vol.fatsecperclus_pos
    have hmem := List.mem_of_getElem? hcluster
    have hvalid := hpath.valid hmem
    have hne : dir.currcluster ≠ 0 := by
      have hrange : 2 ≤ dir.currcluster := hvalid.1
      omega
    have hndx : (dir.index + 1) % 0x100000000 = (i + 1) % 0x100000000 := by
      rw [hindex, Nat.mod_add_mod]
    have hq : i / vol.dirsecNdirs < bases.length * vol.fatsecperclus :=
      (Nat.div_lt_iff_lt_mul hpos).mpr hlt
    unfold fatNextdirentry
    dsimp only
    rw [hndx, and_dirsecNdirs hslot, mod_dirsecNdirs hslot]
    rcases succ_div_cases vol.dirsecNdirs i with ⟨hmod, hdiv, -⟩ | ⟨hmod, hdiv⟩
    · -- the next slot is in the same sector
      rw [if_neg hmod]
      have hmore : i + 1 < (blockSlots vol bases).count := by
        refine Nat.lt_of_le_of_ne hlt fun heq => hmod ?_
        rw [heq]
        exact Nat.mul_mod_left ..
      refine ⟨hlooks, .inl ⟨hmore, rfl, hmore, ?_, ?_, rfl⟩⟩
      · rw [hdiv]
        exact hcluster
      · dsimp only [blockSlots] at hsector ⊢
        rw [hdiv]
        exact hsector
    rw [if_pos hmod, if_neg hne, and_fatsecperclus, div_dirsecNdirs hslot, hdiv]
    rcases succ_div_cases vol.fatsecperclus (i / vol.dirsecNdirs) with
      ⟨hmod', hdiv', hmod''⟩ | ⟨hmod', hdiv'⟩
    · -- the next slot is in the next sector of the cluster
      rw [if_neg hmod']
      have hq' : i / vol.dirsecNdirs + 1 < bases.length * vol.fatsecperclus := by
        refine Nat.lt_of_le_of_ne hq fun heq => hmod' ?_
        rw [heq]
        exact Nat.mul_mod_left ..
      have hmore : i + 1 < (blockSlots vol bases).count := by
        refine (Nat.div_lt_iff_lt_mul hpos).mp ?_
        rw [hdiv]
        exact hq'
      refine ⟨hlooks, .inl ⟨hmore, rfl, hmore, ?_, ?_, rfl⟩⟩
      · rw [hdiv, hdiv']
        exact hcluster
      have hj : i / vol.dirsecNdirs / vol.fatsecperclus < bases.length :=
        (Nat.div_lt_iff_lt_mul hspc).mpr hq
      obtain ⟨hlow, hhigh⟩ := hbound _ hj
      have hlast := Nat.mod_lt (i / vol.dirsecNdirs) hspc
      dsimp only [blockSlots] at hsector ⊢
      rw [hdiv, hdiv', hmod'', hsector]
      generalize bases.getD (i / vol.dirsecNdirs / vol.fatsecperclus) 0 = base at hlow hhigh ⊢
      generalize i / vol.dirsecNdirs % vol.fatsecperclus = r at hlast ⊢
      rw [offT_of_lt (by omega) (by omega)]
      omega
    · -- the next slot is in the next cluster
      rw [if_pos hmod']
      have hlook := looks_fatGetcluster hlooks.fresh dir.currcluster
      have hsnd := fatGetcluster_snd hlooks.fresh.coherent hvalid
      rw [hlooks.link_eq h] at hsnd
      have hentry : fs₀.link dir.currcluster < 2 ^ 28 := by
        rw [link_of_valid h.coherent hvalid]
        exact FatType.entry_lt ..
      rw [hsnd, FatIo.bits32_natCast (by omega)]
      have hcount : i + 1 = (i / vol.dirsecNdirs / vol.fatsecperclus + 1) * vol.fatsecperclus *
          vol.dirsecNdirs := by
        have h1 := Nat.div_mul_cancel (Nat.dvd_of_mod_eq_zero hmod)
        have h2 := Nat.div_mul_cancel (Nat.dvd_of_mod_eq_zero hmod')
        rw [← hdiv', h2, ← hdiv, h1]
      by_cases hnext : vol.links.Valid (fs₀.link dir.currcluster)
      · have hrange : 2 ≤ fs₀.link dir.currcluster ∧ fs₀.link dir.currcluster < vol.nclusters :=
          hnext
        have hsucc := hpath.getElem?_succ hcluster hnext
        have hj : i / vol.dirsecNdirs / vol.fatsecperclus + 1 < bases.length := by
          rw [hlen]
          exact (List.getElem?_eq_some_iff.mp hsucc).1
        have hmore : i + 1 < (blockSlots vol bases).count := by
          rw [hcount]
          exact Nat.mul_lt_mul_of_pos_right (Nat.mul_lt_mul_of_pos_right hj hspc) hpos
        rw [if_neg (by omega)]
        refine ⟨hlooks.trans hlook, .inl ⟨hmore, rfl, hmore, ?_, ?_, rfl⟩⟩
        · rw [hdiv, hdiv']
          exact hsucc
        · dsimp only [blockSlots]
          rw [hdiv, hdiv', hmod', Nat.cast_zero, Int.add_zero, hbases _ _ hsucc]
      · have hend := hpath.end_of_not_valid hmem hnext
        have hrange : ¬ (2 ≤ fs₀.link dir.currcluster ∧
          fs₀.link dir.currcluster < vol.nclusters) := hnext
        rw [if_pos (by omega)]
        refine ⟨hlooks.trans hlook, .inr ⟨?_, rfl, hpath.getLast?_of_end hmem hend⟩⟩
        rw [hcount, ← hpath.length_of_end hcluster hend, ← hlen]
        rfl

end Tracks

end NuttX
