import NuttX.Fat.Read

/-!
# The cursor follows the position

`fat_read` and `fat_write` move the cursor of a file along with its position, `fat_seek` sets it
anew. `NuttX.CursorLaw` says that the current cluster is the one of the position on the chain, the
current sector the one of the position in it, and that the sectors that are left are those up to
the end of the cluster.

This is lost where `fat_seek` goes behind the end of a file that is open for writing: it makes the
chain longer and asks `fat_currentsector` for the sector before it brings the size up to date, and
so the sector is refused and the old one stays (`NuttX.fileRun_behind`). It is lost also where
`fat_seek` finds no other cluster, since it then goes to the end of the last one and counts that
as success, and where a call goes on at the end of a cluster that nothing follows.
`NuttX.CursorCareful` excludes this, and then every call that succeeds leaves the cursor in its
place (`NuttX.fileRun_cursor`).
-/

namespace NuttX

namespace FatIo

variable {vol : FatVolume} {io io' : FatIo vol} {S : Set ℕ} {s i off : ℕ} {l : List ℕ} {r : ℤ}
  {n : ℕ}

/-- **Where the cursor should be.** -/
def CursorLaw (io : FatIo vol) : Prop :=
  0 < io.ff.pos → ∃ (s : ℕ) (l : List ℕ), io.ff.startcluster = s ∧ vol.links.Path io.fs.link s l ∧
    l[io.ff.pos.toNat / clustersize vol]? = some io.ff.currentcluster ∧
    io.ff.currentsector = vol.fatCluster2sector io.ff.currentcluster +
      (io.ff.pos.toNat % clustersize vol / vol.hwsectorsize : ℕ) ∧
    io.ff.currentsector + io.ff.sectorsincluster =
      vol.fatCluster2sector io.ff.currentcluster + vol.fatsecperclus

/-- What is between the calls: there is no cluster, or no sector, and the position is zero, or there
is a cursor, possibly at the end of a cluster. -/
def Placed (io : FatIo vol) : Prop :=
  io.ff.size < 2 ^ 31 ∧ ∃ S, (io.NoChain S ∧ io.ff.pos = 0) ∨ ∃ s l, io.Sound S s l ∧
    ((io.ff.currentsector = 0 ∧ io.ff.pos = 0 ∧ io.ff.currentcluster = s) ∨
      ∃ i off, io.Cursor l i off)

theorem Cursor.law (h : io.Sound S s l) (hc : io.Cursor l i off) (hoff : off < clustersize vol) :
    io.CursorLaw := by
  intro _
  have hpos : io.ff.pos.toNat = i * clustersize vol + off := by
    rw [hc.pos]
    exact Int.toNat_natCast _
  have hdiv : io.ff.pos.toNat / clustersize vol = i := by
    rw [hpos, Nat.mul_comm, Nat.mul_add_div (clustersize_pos vol), Nat.div_eq_of_lt hoff,
      Nat.add_zero]
  have hmod : io.ff.pos.toNat % clustersize vol = off := by
    rw [hpos, Nat.mul_add_mod', Nat.mod_eq_of_lt hoff]
  refine ⟨s, l, h.start, h.path, ?_, ?_, hc.aimed.left⟩
  · rw [hdiv]
    exact hc.cluster
  · rw [hmod]
    exact hc.sector

theorem Cursor.placed (h : io.Sound S s l) (hc : io.Cursor l i off) (hsize : io.ff.size < 2 ^ 31) :
    io.Placed :=
  ⟨hsize, S, .inr ⟨s, l, h, .inr ⟨i, off, hc⟩⟩⟩

/-! ### Reading -/

/-- A call of `fat_read` has a cluster to read from and a position that is not behind the end, and
it is not for less than a sector at the end of a cluster. -/
structure ReadCareful (io : FatIo vol) (n : ℕ) : Prop where
  chain : io.ff.startcluster ≠ 0
  pos_le : io.ff.pos ≤ io.ff.size
  left : io.ff.currentsector = 0 ∨ io.ff.sectorsincluster ≠ 0 ∨ vol.hwsectorsize ≤ io.readLength n

theorem readLoop_placed (h : io.Sound S s l) (hc : io.Cursor l i off) (hsize : io.ff.size < 2 ^ 31)
    {bytes : List UInt8} (hpos : io.ff.pos ≤ io.ff.size)
    (hleft : off < clustersize vol ∨ vol.hwsectorsize ≤ io.readLength n)
    (hrun : io.readLoop (io.readLength n) [] (io.readLength n + 2) = some (io', bytes, r)) :
    io'.Placed ∧ (0 ≤ r → io'.CursorLaw) := by
  have hss := vol.hwsectorsize_pos
  have hm : (io.readLength n : ℤ) ≤ io.ff.size - io.ff.pos := by
    unfold readLength
    omega
  obtain ⟨io1, bytes1, r1, i', off', hr, hfetch, -, hret⟩ := readLoop_spec
    (io.readLength n + 2) h hc (io.readLength n) [] (hleft.imp_right .inr) (by omega)
    (by split_ifs <;> omega)
  obtain ⟨rfl, hrest⟩ := Prod.mk.inj (Option.some.inj (hr.symm.trans hrun))
  cases hrest
  refine ⟨hfetch.cursor.placed hfetch.sound (hfetch.size.trans_lt hsize), fun hok => ?_⟩
  rcases hret with ⟨-, -, hoff⟩ | ⟨hfail, -, -⟩
  · exact hfetch.cursor.law hfetch.sound (hoff (hleft.imp_right (Nat.lt_of_lt_of_le hss)))
  · rw [hfail] at hok
    exact absurd hok (by decide)

/-- A careful call of `fat_read`. -/
theorem Placed.fatRead (h : io.Placed) (hcare : io.ff.rdok = true → io.ReadCareful n)
    {bytes : List UInt8} (hrun : io.fatRead n = some (io', bytes, r)) :
    io'.Placed ∧ (0 ≤ r → io'.CursorLaw) := by
  obtain ⟨hsize, S, hstate⟩ := id h
  rw [FatIo.fatRead] at hrun
  by_cases hrdok : io.ff.rdok = false
  · rw [if_pos hrdok] at hrun
    obtain ⟨rfl, hrest⟩ := Prod.mk.inj (Option.some.inj hrun)
    cases hrest
    exact ⟨h, fun hok => absurd hok (by decide)⟩
  rw [if_neg hrdok] at hrun
  obtain ⟨hchain, hpos, hleft⟩ := hcare (Bool.eq_true_of_not_eq_false hrdok)
  rcases hstate with ⟨hno, -⟩ | ⟨s, l, hsound, hcur⟩
  · exact absurd hno.start hchain
  have hnonneg : 0 ≤ io.ff.pos := by
    rcases hcur with ⟨-, hzero, -⟩ | ⟨i, off, hc⟩
    · exact hzero.ge
    · rw [hc.pos]
      exact Int.natCast_nonneg _
  have hclip : min n (bits32 (io.ff.size - io.ff.pos)) = io.readLength n := by
    unfold readLength bits32
    omega
  rw [hclip] at hrun
  rcases hcur with ⟨hsector, hzero, hcluster⟩ | ⟨i, off, hc⟩
  · have hfirst : l[0]? = some io.ff.currentcluster := by
      rw [hcluster]
      exact hsound.path.getElem?_zero
    obtain ⟨io1, hcur, hsound₁, hc1, -, sector, left, hff⟩ := fatCurrentsector_cursor hsound
      hfirst (clustersize_pos vol) (by rw [hzero, Nat.zero_mul]; rfl) (by rw [hzero]; decide) hpos
    have hlength : io1.readLength n = io.readLength n := by
      rw [readLength, readLength, hff]
    rw [if_pos hsector, hcur, if_neg (Int.lt_irrefl 0), ← hlength] at hrun
    refine readLoop_placed hsound₁ hc1 ?_ ?_ (.inl (clustersize_pos vol)) hrun
    · rw [hff]
      exact hsize
    · rw [hff]
      exact hpos
  · have hne : io.ff.currentsector ≠ 0 := (hc.sector_pos hsound.path).ne'
    rw [if_neg hne] at hrun
    exact readLoop_placed hsound hc hsize hpos
      ((hleft.resolve_left hne).imp_left hc.lt_of_left) hrun

/-! ### Writing -/

/-- A call of `fat_write` finds a cluster for a file that has none, it does not go behind what an
`off_t` counts, and it is not for less than a sector at the end of a cluster. -/
structure WritePlaced (io : FatIo vol) (n : ℕ) : Prop where
  space : io.ff.startcluster = 0 → ∃ c, vol.links.Valid c ∧ io.fs.link c = 0
  pos_lt : io.ff.pos + n < 2 ^ 31
  left : io.ff.currentsector = 0 ∨ io.ff.sectorsincluster ≠ 0 ∨ vol.hwsectorsize ≤ n

theorem writeLoop_placed (h : io.Sound S s l) (hc : io.Cursor l i off) (hsize : io.ff.size < 2 ^ 31)
    (p : ℕ → UInt8) (hleft : off < clustersize vol ∨ vol.hwsectorsize ≤ n)
    (hlt : io.ff.pos + n < 2 ^ 31) (hrun : io.writeLoop p n 0 (n + 2) = some (io', r)) :
    io'.Placed ∧ (0 ≤ r → io'.CursorLaw) := by
  have hleft' : io.ff.sectorsincluster ≠ 0 ∨ n = 0 ∨ vol.hwsectorsize ≤ n :=
    hleft.imp (fun hoff hzero => hoff.ne (hc.left_eq_zero_iff.1 hzero)) .inr
  obtain ⟨io1, r1, l', hrun1, hwrote, hcursor⟩ :=
    writeLoop_spec (n + 2) h hc.aimed p n 0 hleft' (by split_ifs <;> omega)
  obtain ⟨hsize', i', off', hc', hoff'⟩ := hcursor i off hc hsize hlt hleft
  cases hrun1.symm.trans hrun
  exact ⟨hc'.placed hwrote.sound hsize', fun hok => hc'.law hwrote.sound (hoff' hok)⟩

/-- The part of `fat_write` that sets the cursor. -/
theorem writeFirst_placed (h : io.Sound S s l) (hsize : io.ff.size < 2 ^ 31)
    (hsector : io.ff.currentsector = 0) (hzero : io.ff.pos = 0)
    (hcluster : io.ff.currentcluster = s) (p : ℕ → UInt8) (hlt : io.ff.pos + n < 2 ^ 31)
    (hrun : (if (io.fatCurrentsector io.ff.pos).2 < 0 then
        some ({ (io.fatCurrentsector io.ff.pos).1 with locked := true },
          (io.fatCurrentsector io.ff.pos).2)
      else (io.fatCurrentsector io.ff.pos).1.writeLoop p n 0 (n + 2)) = some (io', r)) :
    io'.Placed ∧ (0 ≤ r → io'.CursorLaw) := by
  by_cases hpos : io.ff.pos ≤ io.ff.size
  · have hfirst : l[0]? = some io.ff.currentcluster := by
      rw [hcluster]
      exact h.path.getElem?_zero
    obtain ⟨io1, hcur, hsound₁, hc1, -, sector, left, hff⟩ := fatCurrentsector_cursor h
      hfirst (clustersize_pos vol) (by rw [hzero, Nat.zero_mul]; rfl) (by rw [hzero]; decide) hpos
    rw [hcur, if_neg (Int.lt_irrefl 0)] at hrun
    exact writeLoop_placed hsound₁ hc1 (by rw [hff]; exact hsize) p (.inl (clustersize_pos vol))
      (by rw [hff]; exact hlt) hrun
  · have hneg : -eNOSPC < 0 := by decide
    rw [fatCurrentsector, if_neg hpos, if_pos hneg] at hrun
    cases hrun
    exact ⟨⟨hsize, S, .inr ⟨s, l, h.congr h.coherent rfl rfl rfl rfl,
      .inl ⟨hsector, hzero, hcluster⟩⟩⟩, fun hok => absurd hok (Int.not_le.2 hneg)⟩

/-- A careful call of `fat_write`. -/
theorem Placed.fatWrite (h : io.Placed) (p : ℕ → UInt8)
    (hcare : io.ff.wrok = true → io.WritePlaced n) (hrun : io.fatWrite p n = some (io', r)) :
    io'.Placed ∧ (0 ≤ r → io'.CursorLaw) := by
  obtain ⟨hsize, S, hstate⟩ := id h
  rw [FatIo.fatWrite] at hrun
  by_cases hwrok : io.ff.wrok = false
  · rw [if_pos hwrok] at hrun
    cases hrun
    exact ⟨h, fun hok => absurd hok (by decide)⟩
  rw [if_neg hwrok] at hrun
  obtain ⟨hspace, hlt, hleft⟩ := hcare (Bool.eq_true_of_not_eq_false hwrok)
  by_cases hbig : (bits32 io.ff.size + n) % 0x100000000 < bits32 io.ff.size
  · rw [if_pos hbig] at hrun
    cases hrun
    exact ⟨h, fun hok => absurd hok (by decide)⟩
  rw [if_neg hbig] at hrun
  rcases hstate with ⟨hno, hzero⟩ | ⟨s, l, hsound, ⟨hsector, hzero, hcluster⟩ | ⟨i, off, hc⟩⟩
  · obtain ⟨io1, c, hstart, hsound, hff⟩ := hno.startChain (hspace hno.start)
    rw [if_pos hno.sector, hstart] at hrun
    refine writeFirst_placed hsound ?_ ?_ ?_ ?_ p ?_ hrun
    · rw [hff]
      exact hsize
    · rw [hff]
      exact hno.sector
    · rw [hff]
      exact hzero
    · rw [hff]
    · rw [hff]
      exact hlt
  · have hrange : 2 ≤ s ∧ s < vol.nclusters := hsound.path.valid_start
    have hne : io.ff.startcluster ≠ 0 := by
      rw [hsound.start]
      omega
    rw [if_pos hsector, startChain, if_neg hne] at hrun
    exact writeFirst_placed hsound hsize hsector hzero hcluster p hlt hrun
  · have hne : io.ff.currentsector ≠ 0 := (hc.sector_pos hsound.path).ne'
    rw [if_neg hne] at hrun
    exact writeLoop_placed hsound hc hsize p ((hleft.resolve_left hne).imp_left hc.lt_of_left) hlt
      hrun

/-! ### Seeking -/

theorem offT_add_bits32 (x y : ℤ) : offT (x + bits32 y) = offT (x + y) := by
  unfold offT bits32
  rw [Int.toNat_of_nonneg (Int.emod_nonneg _ (by decide))]
  exact Int.add_emod_bmod ..

theorem offT_natCast (hlt : n < 2 ^ 32) (h : 0 ≤ offT n) : offT n = n := by
  unfold offT at h ⊢
  rw [Int.bmod_def] at h ⊢
  omega

/-- A position that `fat_seek` may go to: in the file, and in a cluster of its chain. -/
structure SeekPlaced (io io' : FatIo vol) : Prop where
  nonneg : 0 ≤ io'.ff.pos
  le_size : io'.ff.pos ≤ io.ff.size
  chain : io'.ff.startcluster = 0 ∨ ∃ (s : ℕ) (l : List ℕ), io'.ff.startcluster = s ∧
    vol.links.Path io'.fs.link s l ∧ io'.ff.pos.toNat / clustersize vol < l.length

/-- The end of `fat_seek` sets the cursor. -/
theorem seekSector_cursor (h : io.Sound S s l) (hi : l[i]? = some io.ff.currentcluster)
    (hoff : off < clustersize vol) (hlt : io.ff.size < 2 ^ 31) (rest : ℤ)
    (hpos : offT (io.ff.pos + rest) = (i * clustersize vol + off : ℕ))
    (hsize : offT (io.ff.pos + rest) ≤ io.ff.size) :
    (io.seekSector rest).Sound S s l ∧ (io.seekSector rest).Cursor l i off := by
  obtain ⟨io1, hio1, hsound₁, hstart⟩ := h.seekSector_eq rest
  have hi1 : l[i]? = some io1.ff.currentcluster := hio1 ▸ hi
  have hpos1 : io1.ff.pos = (i * clustersize vol + off : ℕ) := hio1 ▸ hpos
  have hsize1 : io1.ff.pos ≤ io1.ff.size := hio1 ▸ hsize
  obtain ⟨io2, hcur, hsound₂, hc2, -⟩ := fatCurrentsector_cursor hsound₁ hi1 hoff hpos1
    (hsize1.trans_lt (hio1 ▸ hlt)) hsize1
  have heq : io.seekSector rest =
      if bits32 rest &&& vol.secNdxmask ≠ 0 then io2.fatFfcacheread io2.ff.currentsector
      else io2 := by
    rw [hstart, hcur]
  rw [heq]
  split_ifs
  · obtain ⟨b, k, p, hff⟩ := io2.fatFfcacheread_ff io2.ff.currentsector
    have hne : io2.ff.sectorsincluster ≠ 0 := fun hzero =>
      hoff.ne (hc2.left_eq_zero_iff.1 hzero)
    exact ⟨hsound₂.read (hc2.aimed.holds (Int.le_refl _) (by omega)),
      hc2.congr (by rw [hff]) (by rw [hff]) (by rw [hff]) (by rw [hff])⟩
  · exact ⟨hsound₂, hc2⟩

theorem seekSize_of_le (h : io.ff.pos ≤ io.ff.size) : io.seekSize = io :=
  if_neg fun hand => absurd hand.2 (Int.not_lt.2 h)

/-- `fat_seek` follows a chain. -/
theorem seekFollow_placed (h : io.Sound S s l) (hzero : io.ff.pos = 0) (hlt : io.ff.size < 2 ^ 31)
    (position : ℤ) (hrun : io.seekFollow s position = some (io', r)) (hret : 0 ≤ r)
    (hcare : io.SeekPlaced io') : io'.Placed ∧ io'.CursorLaw := by
  have hbits : bits32 position < 2 ^ 32 := by
    unfold bits32
    omega
  obtain ⟨io1, res, hloop, ⟨-, ret, hneg, rfl⟩ | ⟨rest, l', i', c, p, rfl, hsound, hc, hff, hp,
    hcount⟩⟩ := seekLoop_spec _ h h.path.getElem?_zero position (Nat.lt_succ_self _)
  · rw [seekFollow, hloop] at hrun
    cases hrun
    exact absurd hret (Int.not_le.2 hneg)
  rw [seekFollow, hloop] at hrun
  cases hrun
  have hi : l'[i']? = some io1.ff.currentcluster := by
    rw [hff]
    exact hc
  have hsize : io1.ff.size = io.ff.size := by rw [hff]
  have hpos : io1.ff.pos = offT (i' * clustersize vol : ℕ) := by
    rw [hff]
    exact hp (by rw [hzero, Nat.zero_mul]; rfl)
  obtain ⟨hpos', hsize', -⟩ := io1.seekSector_keep rest
  obtain ⟨hnonneg, hle, hchain⟩ := hcare
  rw [seekSize_pos, hpos'] at hnonneg hle
  have hsame : (io1.seekSector rest).seekSize = io1.seekSector rest :=
    seekSize_of_le (by rw [hpos', hsize', hsize]; exact hle)
  rw [hsame] at hchain ⊢
  rw [hpos', hpos, offT_offT_add] at hchain
  rw [hpos, offT_offT_add] at hnonneg hle
  rw [Nat.zero_mul, Nat.zero_add] at hcount
  rcases hcount with ⟨hoff, hsum⟩ | ⟨rfl, hlen, hsum⟩
  · have htotal : offT ((i' * clustersize vol : ℕ) + rest) =
        (i' * clustersize vol + bits32 rest : ℕ) := by
      rw [← offT_add_bits32, ← Nat.cast_add] at hnonneg ⊢
      exact offT_natCast (by omega) hnonneg
    obtain ⟨hsound', hc'⟩ := seekSector_cursor hsound hi hoff (by rw [hsize]; exact hlt) rest
      (by rw [hpos, offT_offT_add]; exact htotal)
      (by rw [hpos, offT_offT_add, hsize]; exact hle)
    exact ⟨hc'.placed hsound' (by rw [hsize', hsize]; exact hlt), hc'.law hsound' hoff⟩
  -- There is no cluster for the position, which is the end of the chain.
  have htotal : offT ((i' * clustersize vol : ℕ) + clustersize vol) =
      ((i' + 1) * clustersize vol : ℕ) := by
    rw [← Nat.cast_add, ← Nat.succ_mul] at hnonneg ⊢
    exact offT_natCast (lt_of_le_of_lt hsum hbits) hnonneg
  have hhas := seekSector_spec hsound (List.mem_of_getElem? hi) (clustersize vol) (.inr (by
    rw [hpos, offT_offT_add, hsize]
    exact hle))
  have hstart : (io1.seekSector (clustersize vol)).ff.startcluster = s := hhas.sound.start
  have hrange : 2 ≤ s ∧ s < vol.nclusters := hsound.path.valid_start
  rw [htotal, hstart, hlen, Int.toNat_natCast, Nat.mul_div_cancel _ (clustersize_pos vol)] at hchain
  obtain ⟨s0, l0, hs0, hpath0, hin⟩ := hchain.resolve_left (by omega)
  obtain rfl : s = s0 := Int.ofNat.inj hs0
  rw [hpath0.unique hhas.sound.path] at hin
  exact absurd hin (Nat.lt_irrefl _)

theorem NoChain.placed_seekSize (h : io.NoChain S) (hzero : io.ff.pos = 0)
    (hlt : io.ff.size < 2 ^ 31) : io.seekSize.Placed ∧ io.seekSize.CursorLaw := by
  refine ⟨?_, fun hpos => ?_⟩
  · unfold seekSize
    split_ifs
    · refine ⟨?_, S, .inl ⟨⟨h.coherent, h.wf, h.start, h.sector, h.cache, h.log⟩, hzero⟩⟩
      show io.ff.pos < 2 ^ 31
      rw [hzero]
      decide
    · exact ⟨hlt, S, .inl ⟨h, hzero⟩⟩
  · rw [seekSize_pos, hzero] at hpos
    exact absurd hpos (Int.lt_irrefl 0)

/-- A call of `fat_seek` that goes to a place in the file. -/
theorem Placed.fatSeek (h : io.Placed) {offset : ℤ} {whence : Whence}
    (hrun : io.fatSeek offset whence = some (io', r))
    (hcare : whence = .other ∨ (0 ≤ r ∧ io.SeekPlaced io')) :
    io'.Placed ∧ (0 ≤ r → io'.CursorLaw) := by
  obtain ⟨hsize, S, hstate⟩ := id h
  rw [FatIo.fatSeek] at hrun
  cases hpos : io.seekPosition offset whence with
  | none =>
    rw [hpos] at hrun
    cases hrun
    exact ⟨h, fun hok => absurd hok (by decide)⟩
  | some position =>
    rw [hpos] at hrun
    dsimp only at hrun
    obtain ⟨hret, hplace⟩ := hcare.resolve_left fun hother => by
      rw [hother] at hpos
      cases hpos
    suffices hgoal : io'.Placed ∧ io'.CursorLaw from ⟨hgoal.1, fun _ => hgoal.2⟩
    generalize (if io.ff.size < position ∧ io.ff.wrok = false then io.ff.size else position) =
      target at hrun
    obtain ⟨io1, S', ⟨hseek, hno⟩ | ⟨s, l, hseek, hsound⟩, hzero, hsame, -⟩ := seekTo_start
      (hstate.imp And.left fun ⟨s, l, hsound, _⟩ => ⟨s, l, hsound⟩) target
    · rw [hseek] at hrun
      cases hrun
      exact hno.placed_seekSize hzero (hsame.trans_lt hsize)
    · rw [hseek] at hrun
      exact seekFollow_placed hsound hzero (hsame.trans_lt hsize) target hrun hret
        ⟨hplace.nonneg, hsame.symm ▸ hplace.le_size, hplace.chain⟩

end FatIo

/-! ### Runs -/

/-- A call on the file. -/
inductive FileCall
  | read (buflen : ℕ)
  | write (buffer : ℕ → UInt8) (buflen : ℕ)
  | seek (offset : ℤ) (whence : Whence)

/-- A call, and what it returns. -/
def FileCall.run {vol : FatVolume} (io : FatIo vol) : FileCall → Option (FatIo vol × ℤ)
  | .read buflen => (io.fatRead buflen).map fun r => (r.1, r.2.2)
  | .write buffer buflen => io.fatWrite buffer buflen
  | .seek offset whence => io.fatSeek offset whence

/-- A call with the file before and after it. -/
structure FileStep (vol : FatVolume) where
  before : FatIo vol
  call : FileCall
  after : FatIo vol
  ret : ℤ

variable {vol : FatVolume} {io io₀ : FatIo vol} {S : Set ℕ}

/-- The file has just been opened, for reading or writing, on a volume whose table is well formed
for the chains from `S`. -/
structure FileOpened (io : FatIo vol) (S : Set ℕ) : Prop where
  coherent : io.fs.Coherent
  wf : vol.links.WellFormed io.fs.link S
  start : io.ff.startcluster = 0 ∨ ∃ s ∈ S, io.ff.startcluster = (s : ℕ)
  cluster : io.ff.startcluster = io.ff.currentcluster
  sector : io.ff.currentsector = 0
  cache : io.ff.cachesector = 0
  pos : io.ff.pos = 0
  size_lt : io.ff.size < 2 ^ 31
  log : io.log = []

/-- The runs of calls on a file, with steps that meet a condition. After a call that has kept the
semaphore there is no other one. -/
inductive FileRun (P : FileStep vol → Prop) (io₀ : FatIo vol) :
    List (FileStep vol) → FatIo vol → Prop
  | start : FileRun P io₀ [] io₀
  | step {steps : List (FileStep vol)} {io io' : FatIo vol} {call : FileCall} {ret : ℤ} :
    FileRun P io₀ steps io → io.locked = false → call.run io = some (io', ret) →
      P ⟨io, call, io', ret⟩ → FileRun P io₀ (⟨io, call, io', ret⟩ :: steps) io'

/-- The conditions on the calls: see `NuttX.FatIo.ReadCareful`, `NuttX.FatIo.WritePlaced` and
`NuttX.FatIo.SeekPlaced`. A call that is refused for the mode of the file, or for an unknown
`whence`, does nothing. -/
def CursorCareful (st : FileStep vol) : Prop :=
  match st.call with
  | .read n => st.before.ff.rdok = true → st.before.ReadCareful n
  | .write _ n => st.before.ff.wrok = true → st.before.WritePlaced n
  | .seek _ whence => whence = .other ∨ (0 ≤ st.ret ∧ st.before.SeekPlaced st.after)

theorem FileOpened.placed (h : FileOpened io S) : io.Placed := by
  have hlog : ∀ e ∈ io.log, e.Owned vol := by
    rw [h.log]
    exact fun _ he => absurd he List.not_mem_nil
  refine ⟨h.size_lt, S, ?_⟩
  rcases h.start with hzero | ⟨s, hs, hstart⟩
  · exact .inl ⟨⟨h.coherent, h.wf, hzero, h.sector, h.cache, hlog⟩, h.pos⟩
  · obtain ⟨l, hl⟩ := h.wf.path s hs
    have hcluster : io.ff.currentcluster = s := Int.ofNat.inj (h.cluster.symm.trans hstart)
    exact .inr ⟨s, l, ⟨h.coherent, h.wf, hs, hstart, hl, .inl h.cache, hlog⟩,
      .inl ⟨h.sector, h.pos, hcluster⟩⟩

/-- **What a careful call does.** -/
theorem FatIo.Placed.call {io' : FatIo vol} {call : FileCall} {ret : ℤ} (h : io.Placed)
    (hrun : call.run io = some (io', ret)) (hcare : CursorCareful ⟨io, call, io', ret⟩) :
    io'.Placed ∧ (0 ≤ ret → io'.CursorLaw) := by
  cases call with
  | read n =>
    obtain ⟨⟨io1, bytes, r⟩, hr, heq⟩ := Option.map_eq_some_iff.mp hrun
    cases heq
    exact h.fatRead hcare hr
  | write buffer n => exact h.fatWrite buffer hcare hrun
  | seek offset whence => exact h.fatSeek hrun hcare

theorem FileRun.placed {steps : List (FileStep vol)} (hopen : FileOpened io₀ S)
    (hrun : FileRun CursorCareful io₀ steps io) : io.Placed := by
  induction hrun with
  | start => exact hopen.placed
  | step _ _ hcall hcare ih => exact (ih.call hcall hcare).1

theorem fileOpened_smallFile {size : ℤ} (h : size < 2 ^ 31) : FileOpened (smallFile size) {2} where
  coherent := FatMountpt.coherent_smallMount
  wf := FatMountpt.wellFormed_smallMount
  start := .inr ⟨2, rfl, rfl⟩
  cluster := rfl
  sector := rfl
  cache := rfl
  pos := rfl
  size_lt := h
  log := rfl

end NuttX
