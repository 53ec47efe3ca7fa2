import NuttX.Fat.Cursor

/-!
# Calls on an open file

What `fat_write` and `fat_seek` do to a file, and with it whole runs of `fat_write` and `fat_seek` on a file
that has just been opened. In a run whose calls all meet `NuttX.FatCareful`, what `fat_write`
writes and buffers belongs to the chain of the file (`NuttX.fatRun_law`). Without the conditions
it need not: on a full volume the first write to an empty file goes to sector -22, the negated
error number of `fat_cluster2sector` (`NuttX.fatRun_astray`).
-/

namespace NuttX

open FatIo List

namespace FatIo

variable {vol : FatVolume} {io io' : FatIo vol} {S : Set ℕ} {s i : ℕ} {l : List ℕ}

/-! ### `fat_write` -/

theorem write_first (h : io.Sound S s l) (hc : io.ff.currentcluster ∈ l)
    (hwrok : io.ff.wrok = true) (hsector : io.ff.currentsector = 0) (p : ℕ → UInt8) (buflen : ℕ) :
    ∃ io' r, (if (io.fatCurrentsector io.ff.pos).2 < 0 then
        some ({ (io.fatCurrentsector io.ff.pos).1 with locked := true },
          (io.fatCurrentsector io.ff.pos).2)
      else (io.fatCurrentsector io.ff.pos).1.writeLoop p buflen 0 (buflen + 2)) = some (io', r) ∧
      io'.Kept ∧ ∀ e ∈ io'.log, e.Owned vol := by
  rcases fatCurrentsector_spec h hc io.ff.pos with ⟨hsound, haimed, hsic, hret⟩ | ⟨hsame, hret, -⟩
  · rw [if_neg (by omega)]
    obtain ⟨io', r, l', hrun, hwrote, -⟩ := writeLoop_spec (buflen + 2) hsound haimed p buflen 0
      (.inl hsic) (by rw [if_neg hsic]; omega)
    have hwrok' : (io.fatCurrentsector io.ff.pos).1.ff.wrok = true := by
      unfold fatCurrentsector
      split_ifs <;> exact hwrok
    exact ⟨io', r, hrun, ⟨hwrote.wrok.trans hwrok', S, .inr ⟨s, l', hwrote.sound,
      hwrote.aimed.cluster, .inr hwrote.aimed⟩⟩, hwrote.sound.log⟩
  · rw [if_pos (by omega), hsame]
    exact ⟨_, _, rfl, ⟨hwrok, S, .inr ⟨s, l, h.congr h.coherent rfl rfl rfl rfl, hc,
      .inl hsector⟩⟩, h.log⟩

/-- **A careful call of `fat_write` returns and keeps to the chain of the file.** -/
theorem fatWrite_spec (h : io.Kept) (hlog : io.log = []) (p : ℕ → UInt8) (buflen : ℕ)
    (hcare : io.WriteCareful buflen) :
    ∃ io' r, io.fatWrite p buflen = some (io', r) ∧ io'.Kept ∧ ∀ e ∈ io'.log, e.Owned vol := by
  have hnil : ∀ e ∈ io.log, e.Owned vol := by
    rw [hlog]
    exact fun e he => absurd he not_mem_nil
  obtain ⟨hwrok, S, hstate⟩ := id h
  rw [fatWrite, if_neg (by rw [hwrok]; decide)]
  by_cases hbig : (bits32 io.ff.size + buflen) % 0x100000000 < bits32 io.ff.size
  · rw [if_pos hbig]
    exact ⟨io, _, rfl, h, hnil⟩
  rw [if_neg hbig]
  by_cases hsector : io.ff.currentsector = 0
  · obtain ⟨io1, S, s, l, hstart, hsound, hcluster, hwrok1, hsector₁⟩ :=
      startChain_spec h hsector (hcare.space hsector)
    rw [if_pos hsector, hstart]
    exact write_first hsound hcluster hwrok1 hsector₁ p buflen
  rw [if_neg hsector]
  rcases hstate with hno | ⟨s, l, hhas⟩
  · exact absurd hno.sector hsector
  have haimed := hhas.aimed.resolve_left hsector
  obtain ⟨io', r, l', hrun, hwrote, -⟩ := writeLoop_spec (buflen + 2) hhas.sound haimed p buflen 0
    (by
      by_cases hsic : io.ff.sectorsincluster = 0
      · exact .inr (hcare.whole hsector hsic)
      · exact .inl hsic)
    (by split_ifs <;> omega)
  exact ⟨io', r, hrun, ⟨hwrote.wrok.trans hwrok, S, .inr ⟨s, l', hwrote.sound,
    hwrote.aimed.cluster, .inr hwrote.aimed⟩⟩, hwrote.sound.log⟩

/-! ### `fat_seek` -/

theorem bits32_sub {x : ℤ} {n : ℕ} (h : n ≤ bits32 x) : bits32 (x - n) = bits32 x - n := by
  unfold bits32 at h ⊢
  omega

theorem offT_offT_add (x y : ℤ) : offT (offT x + y) = offT (x + y) := Int.bmod_add_bmod ..

theorem Sound.nextCluster {c : ℕ} (h : io.Sound S s l) (hi : l[i]? = some c) :
    ∃ fs r, io.nextCluster c = some (fs, r) ∧
      ((r = 0 ∧ l.length = i + 1 ∧ FatIo.Sound { io with fs := fs } S s l) ∨
        (io.ff.wrok = false ∧ vol.nclusters ≤ r ∧ r ≠ 0) ∨
        ∃ (c' : ℕ) (l' : List ℕ), r = c' ∧ l'[i + 1]? = some c' ∧
          FatIo.Sound { io with fs := fs } S s l') := by
  have hvalid := h.path.valid (mem_of_getElem? hi)
  have hrange : 2 ≤ c ∧ c < vol.nclusters := hvalid
  have hlt := vol.nclusters_lt_two_pow
  rw [FatIo.nextCluster, bits32_natCast (n := c) (by omega)]
  by_cases hwrok : io.ff.wrok = true
  · rw [if_pos hwrok]
    obtain ⟨fs, r, hr, hnone | ⟨c', l', hc', hi', -, hsound⟩⟩ := h.extend_at hi
    · exact ⟨fs, r, hr, .inl hnone⟩
    · exact ⟨fs, r, hr, .inr (.inr ⟨c', l', hc', hi', hsound⟩)⟩
  rw [if_neg hwrok]
  obtain ⟨hreads, -⟩ := FatMountpt.fatGetcluster_spec h.coherent hvalid
  have hret := FatMountpt.fatGetcluster_snd h.coherent hvalid
  refine ⟨(io.fs.fatGetcluster c).1, (io.fs.fatGetcluster c).2, rfl, .inr ?_⟩
  by_cases hnext : vol.links.Valid (io.fs.link c)
  · exact .inr ⟨_, l, hret, h.path.getElem?_succ hi hnext,
      h.congr hreads.coherent (hreads.link_eq h.coherent) rfl rfl rfl⟩
  · have hend : 0 < io.fs.link c ∧ vol.nclusters ≤ io.fs.link c :=
      h.path.end_of_not_valid (mem_of_getElem? hi) hnext
    exact .inl ⟨Bool.eq_false_iff.mpr hwrok, by omega, by omega⟩

/-- **The loop of `fat_seek`** counts the clusters that it passes, and ends in the cluster of the
position, or where there is no other cluster. It fails only where it cannot extend the chain. -/
theorem seekLoop_spec (fuel : ℕ) {c : ℕ} (h : io.Sound S s l) (hi : l[i]? = some c) (position : ℤ)
    (hfuel : bits32 position / clustersize vol < fuel) :
    ∃ io' res, io.seekLoop c position fuel = some (io', res) ∧
      ((io.ff.wrok = false ∧ ∃ ret < 0, res = .error ret) ∨
        ∃ rest l' i' c' p, res = .ok rest ∧ io'.Sound S s l' ∧ l'[i']? = some c' ∧
          io'.ff = { io.ff with currentcluster := c', pos := p } ∧
          (io.ff.pos = offT (i * clustersize vol : ℕ) → p = offT (i' * clustersize vol : ℕ)) ∧
          ((bits32 rest < clustersize vol ∧
              i' * clustersize vol + bits32 rest = i * clustersize vol + bits32 position) ∨
            (rest = clustersize vol ∧ i' + 1 = l'.length ∧
              (i' + 1) * clustersize vol ≤ i * clustersize vol + bits32 position))) := by
  induction fuel generalizing io l c i position with
  | zero => exact absurd hfuel (Nat.not_lt_zero _)
  | succ fuel ih =>
    have hlt := vol.nclusters_lt_two_pow
    have hcrange : 2 ≤ c ∧ c < vol.nclusters := h.path.valid (mem_of_getElem? hi)
    rw [seekLoop, bits32_natCast (n := c) (by omega)]
    have hsound : Sound { io with ff := { io.ff with currentcluster := c } } S s l :=
      h.congr h.coherent rfl rfl rfl rfl
    by_cases hshort : bits32 position < clustersize vol
    · rw [if_pos hshort]
      exact ⟨_, _, rfl, .inr ⟨position, l, i, c, _, rfl, hsound, hi, rfl, id, .inl ⟨hshort, rfl⟩⟩⟩
    rw [if_neg hshort]
    obtain ⟨fs, r, hr, ⟨rfl, hlen, hsound'⟩ | ⟨hwrok, hmark, hne⟩ | ⟨c', l', rfl, hi', hsound'⟩⟩ :=
      hsound.nextCluster hi
    · rw [hr]
      refine ⟨_, _, rfl, .inr ⟨_, l, i, c, _, rfl, hsound', hi, rfl, id, .inr ⟨rfl, hlen.symm, ?_⟩⟩⟩
      rw [Nat.succ_mul]
      omega
    · rw [hr]
      dsimp only
      rw [if_neg (by omega), if_neg hne, if_pos hmark]
      exact ⟨_, _, rfl, .inl ⟨hwrok, _, by decide, rfl⟩⟩
    have hrange : 2 ≤ c' ∧ c' < vol.nclusters := hsound'.path.valid (mem_of_getElem? hi')
    rw [hr]
    dsimp only
    rw [if_neg (by omega), if_neg (by omega), if_neg (by omega)]
    have hsound₂ : Sound { io with
        fs := fs
        ff := { io.ff with
          currentcluster := c
          pos := offT (io.ff.pos + clustersize vol) } } S s l' :=
      hsound'.congr hsound'.coherent rfl rfl rfl rfl
    have hbits : bits32 (offT (position - clustersize vol)) =
        bits32 position - clustersize vol := by
      rw [bits32_offT, bits32_sub (by omega)]
    have hdiv := Nat.div_eq_sub_div (clustersize_pos vol) (Nat.le_of_not_lt hshort)
    obtain ⟨io', res, hrun, herr | ⟨rest, l'', i'', c'', p, hres, hsound₃, hi3, hff, hpos,
      hcount⟩⟩ := ih hsound₂ hi' (offT (position - clustersize vol)) (by rw [hbits]; omega)
    · exact ⟨io', res, hrun, .inl herr⟩
    rw [hbits, Nat.succ_mul] at hcount
    refine ⟨io', res, hrun, .inr ⟨rest, l'', i'', c'', p, hres, hsound₃, hi3, hff,
      fun hstart => hpos ?_, by omega⟩⟩
    rw [hstart, offT_offT_add, Nat.succ_mul, Nat.cast_add]

theorem Sound.read_zero (h : io.Sound S s l) :
    Sound { io.fatFfcacheread 0 with log := [] } S s l := by
  have hnil : ∀ e ∈ ([] : List FatEvent), e.Owned vol := fun e he => absurd he not_mem_nil
  unfold fatFfcacheread
  split_ifs
  · have hflush := h.flush
    exact ⟨hflush.coherent, hflush.wf, hflush.mem, hflush.start, hflush.path, .inl rfl, hnil⟩
  · exact { h with log := hnil }

theorem fatFfcacheread_ff (io : FatIo vol) (sector : ℤ) : ∃ b k p,
    (io.fatFfcacheread sector).ff = { io.ff with bflags := b, cachesector := k, buffer := p } := by
  obtain ⟨b, hb⟩ := io.fatFfcacheflush_ff
  unfold fatFfcacheread
  split_ifs
  · exact ⟨_, _, _, by simp only [readSector, hb]; rfl⟩
  · exact ⟨_, _, _, rfl⟩

theorem Aimed.congr (h : io.Aimed l) (hcluster : io'.ff.currentcluster = io.ff.currentcluster)
    (hsector : io'.ff.currentsector = io.ff.currentsector)
    (hleft : io'.ff.sectorsincluster = io.ff.sectorsincluster) (hpos : io'.ff.pos = io.ff.pos) :
    io'.Aimed l := by
  have haligned := sectorindex_congr hpos
  refine ⟨hcluster ▸ h.cluster, ?_, ?_, ?_⟩
  · rw [hcluster, hsector]
    exact h.low
  · rw [hcluster, hsector, hleft]
    exact h.left
  · rw [hleft, haligned]
    exact h.aligned

theorem Sound.clear (h : io.Sound S s l) : Sound { io with log := [] } S s l :=
  { h with log := fun _ he => absurd he not_mem_nil }

theorem seekSector_keep (io : FatIo vol) (rest : ℤ) :
    (io.seekSector rest).ff.pos = offT (io.ff.pos + rest) ∧
      (io.seekSector rest).ff.size = io.ff.size ∧ (io.seekSector rest).ff.wrok = io.ff.wrok := by
  have hcurrent : ∀ (io : FatIo vol) (q : ℤ), (io.fatCurrentsector q).1.ff.pos = io.ff.pos ∧
      (io.fatCurrentsector q).1.ff.size = io.ff.size ∧
      (io.fatCurrentsector q).1.ff.wrok = io.ff.wrok := by
    intro io q
    unfold fatCurrentsector
    split_ifs <;> exact ⟨rfl, rfl, rfl⟩
  unfold seekSector
  split_ifs
  · obtain ⟨b, k, p, hff⟩ := fatFfcacheread_ff (fatCurrentsector
      ({ io with ff := { io.ff with pos := offT (io.ff.pos + rest) } } : FatIo vol)
      (offT (io.ff.pos + rest))).1 _
    rw [hff]
    exact hcurrent _ _
  · exact hcurrent _ _

theorem Sound.seekSector_eq (h : io.Sound S s l) (rest : ℤ) : ∃ io1 : FatIo vol,
    io1 = { io with ff := { io.ff with pos := offT (io.ff.pos + rest) } } ∧ io1.Sound S s l ∧
      io.seekSector rest = if bits32 rest &&& vol.secNdxmask ≠ 0 then
        (io1.fatCurrentsector io1.ff.pos).1.fatFfcacheread
          (io1.fatCurrentsector io1.ff.pos).1.ff.currentsector
        else (io1.fatCurrentsector io1.ff.pos).1 :=
  ⟨_, rfl, h.congr h.coherent rfl rfl rfl rfl, rfl⟩

/-- **Where `fat_seek` leaves the file.** A position behind the end of the file is refused, and then
the current sector stays, which is harmless if there is none. -/
theorem seekSector_spec (h : io.Sound S s l) (hc : io.ff.currentcluster ∈ l) (rest : ℤ)
    (hcare : io.ff.currentsector = 0 ∨ offT (io.ff.pos + rest) ≤ io.ff.size) :
    HasChain { io.seekSector rest with log := [] } S s l := by
  obtain ⟨io1, hio1, hsound₁, heq⟩ := h.seekSector_eq rest
  have hc1 : io1.ff.currentcluster ∈ l := by
    rw [hio1]
    exact hc
  have hcare1 : io1.ff.currentsector = 0 ∨ io1.ff.pos ≤ io1.ff.size := by
    rw [hio1]
    exact hcare
  rw [heq]
  rcases fatCurrentsector_spec hsound₁ hc1 io1.ff.pos with
    ⟨hsound, haimed, hsic, -⟩ | ⟨hsame, -, hbehind⟩
  · generalize (io1.fatCurrentsector io1.ff.pos).1 = io2 at hsound haimed hsic ⊢
    obtain ⟨b, k, p, hff⟩ := io2.fatFfcacheread_ff io2.ff.currentsector
    split_ifs
    · have hread : (io2.fatFfcacheread io2.ff.currentsector).Aimed l :=
        haimed.congr (by rw [hff]) (by rw [hff]) (by rw [hff]) (by rw [hff])
      have hsound₃ := (hsound.read (haimed.holds (Int.le_refl _) (by omega))).clear
      exact ⟨hsound₃, hread.cluster, .inr (hread.congr rfl rfl rfl rfl)⟩
    · exact ⟨hsound.clear, haimed.cluster, .inr (haimed.congr rfl rfl rfl rfl)⟩
  · have hzero : io1.ff.currentsector = 0 := hcare1.resolve_right (by omega)
    rw [hsame, hzero]
    obtain ⟨b, k, p, hff⟩ := io1.fatFfcacheread_ff 0
    split_ifs
    · refine ⟨hsound₁.read_zero, ?_, .inl ?_⟩
      · rw [hff]
        exact hc1
      · rw [hff]
        exact hzero
    · exact ⟨hsound₁.clear, hc1, .inl hzero⟩

theorem Kept.seekSize (h : Kept { io with log := [] }) : Kept { io.seekSize with log := [] } := by
  unfold FatIo.seekSize
  split_ifs
  · obtain ⟨hwrok, S, hno | ⟨s, l, hhas⟩⟩ := h
    · exact ⟨hwrok, S, .inl ⟨hno.coherent, hno.wf, hno.start, hno.sector, hno.cache, hno.log⟩⟩
    · exact ⟨hwrok, S, .inr ⟨s, l, hhas.sound.congr hhas.sound.coherent rfl rfl rfl rfl,
        hhas.cluster, hhas.aimed.imp_right fun ha => ha.congr rfl rfl rfl rfl⟩⟩
  · exact h

theorem seekSize_pos (io : FatIo vol) : io.seekSize.ff.pos = io.ff.pos := by
  unfold seekSize
  split_ifs <;> rfl

theorem seek_follow (h : io.Sound S s l) (hwrok : io.ff.wrok = true) (position : ℤ) :
    ∃ io', io.seekFollow s position = some (io', 0) ∧
      (io.ff.currentsector = 0 ∨ io'.ff.pos ≤ io.ff.size → Kept { io' with log := [] }) := by
  obtain ⟨io2, res, hrun, ⟨hro, -⟩ | ⟨rest, l', i', c, p, rfl, hsound, hc, hff, -⟩⟩ := seekLoop_spec
    (bits32 position / clustersize vol + 1) h h.path.getElem?_zero position (Nat.lt_succ_self _)
  · exact absurd (hwrok.symm.trans hro) Bool.noConfusion
  rw [seekFollow, hrun]
  refine ⟨_, rfl, fun hcare => Kept.seekSize ?_⟩
  obtain ⟨hpos, -, hmode⟩ := io2.seekSector_keep rest
  rw [seekSize_pos, hpos] at hcare
  have hsector : io2.ff.currentsector = io.ff.currentsector := by rw [hff]
  have hsize : io2.ff.size = io.ff.size := by rw [hff]
  have hcluster : io2.ff.currentcluster ∈ l' := by
    rw [hff]
    exact mem_of_getElem? hc
  rw [← hsector, ← hsize] at hcare
  refine ⟨?_, S, .inr ⟨s, l', seekSector_spec hsound hcluster rest hcare⟩⟩
  rw [hmode, hff]
  exact hwrok

theorem NoChain.flush_eq (h : io.NoChain S) : io.fatFfcacheflush = io := by
  rw [fatFfcacheflush, if_neg fun hand => hand.1 h.cache]

theorem NoChain.rewind (h : io.NoChain S) : NoChain { io with
    ff := { io.ff with pos := 0, sectorsincluster := vol.fatsecperclus } } S :=
  ⟨h.coherent, h.wf, h.start, h.sector, h.cache, h.log⟩

theorem Sound.rewind (h : io.Sound S s l) : Sound { io.fatFfcacheflush with
    ff := { io.fatFfcacheflush.ff with pos := 0, sectorsincluster := vol.fatsecperclus } } S s l :=
  h.flush.congr h.flush.coherent rfl rfl rfl rfl

/-- **How `fat_seek` sets out**: from the start of the file, which has no cluster still, or has a
chain to follow, possibly a new one. -/
theorem seekTo_start (h : io.NoChain S ∨ ∃ s l, io.Sound S s l) (position : ℤ) :
    ∃ (io1 : FatIo vol) (S' : Set ℕ),
      ((io.fatFfcacheflush.seekTo position = some (io1.seekSize, 0) ∧ io1.NoChain S') ∨
        ∃ (s : ℕ) (l : List ℕ), io.fatFfcacheflush.seekTo position = io1.seekFollow s position ∧
          io1.Sound S' s l) ∧
      io1.ff.pos = 0 ∧ io1.ff.size = io.ff.size ∧ io1.ff.wrok = io.ff.wrok ∧
      io1.ff.currentsector = io.ff.currentsector := by
  rw [seekTo, seekChain]
  rcases h with hno | ⟨s, l, hsound⟩
  · -- Without a cluster there is nothing to flush, and a first cluster may be found.
    rw [hno.flush_eq]
    by_cases hcreate : io.ff.startcluster = 0 ∧ 0 < position
    · rw [if_pos hcreate]
      obtain ⟨fs, r, hr, ⟨rfl, -, hno1⟩ | ⟨c, rfl, hlow, hhigh, hsound⟩⟩ := hno.rewind.create
      · rw [hr]
        exact ⟨_, S, .inl ⟨rfl, hno1.coherent, hno1.wf, rfl, hno.sector, hno.cache, hno.log⟩,
          rfl, rfl, rfl, rfl⟩
      · rw [hr]
        dsimp only
        rw [if_neg (by omega)]
        dsimp only
        rw [if_neg (by omega)]
        exact ⟨_, _, .inr ⟨c, [c], rfl, hsound⟩, rfl, rfl, rfl, rfl⟩
    · rw [if_neg hcreate]
      dsimp only
      rw [if_pos hno.start]
      exact ⟨_, S, .inl ⟨rfl, hno.rewind⟩, rfl, rfl, rfl, rfl⟩
  · obtain ⟨b, hff⟩ := io.fatFfcacheflush_ff
    have hrange : 2 ≤ s ∧ s < vol.nclusters := hsound.path.valid_start
    have hstart : io.fatFfcacheflush.ff.startcluster = s := by
      rw [hff]
      exact hsound.start
    have hne : ¬ (io.fatFfcacheflush.ff.startcluster = 0 ∧ 0 < position) := by
      omega
    rw [if_neg hne]
    dsimp only
    rw [if_neg (by omega)]
    refine ⟨_, S, .inr ⟨s, l, congrArg (seekFollow _ · position) hstart, hsound.rewind⟩, rfl, ?_,
      ?_, ?_⟩
    all_goals rw [hff]

/-- **`fat_seek` returns**, and it keeps the file unless it has gone behind its end with a current
sector. -/
theorem fatSeek_spec (h : io.Kept) (hlog : io.log = []) (offset : ℤ) (whence : Whence) :
    ∃ io' r, io.fatSeek offset whence = some (io', r) ∧
      (io.ff.currentsector = 0 ∨ io'.ff.pos ≤ io.ff.size → Kept { io' with log := [] }) := by
  obtain ⟨hwrok, S, hstate⟩ := id h
  unfold fatSeek
  cases hpos : io.seekPosition offset whence with
  | none =>
    refine ⟨io, _, rfl, fun _ => ?_⟩
    rw [← hlog]
    exact h
  | some position =>
    dsimp only
    rw [if_neg fun hand => by rw [hwrok] at hand; exact Bool.noConfusion hand.2]
    obtain ⟨io1, S', ⟨hseek, hno⟩ | ⟨s, l, hseek, hsound⟩, -, hsize, hmode, hsector⟩ :=
      seekTo_start (hstate.imp_right fun ⟨s, l, hhas⟩ => ⟨s, l, hhas.sound⟩) position
    · rw [hseek]
      exact ⟨_, _, rfl, fun _ => Kept.seekSize ⟨hmode.trans hwrok, S', .inl
        { hno with log := fun _ he => absurd he not_mem_nil }⟩⟩
    · obtain ⟨io', hrun, hkept⟩ := seek_follow hsound (hmode.trans hwrok) position
      rw [hsize, hsector] at hkept
      exact ⟨io', 0, hseek.trans hrun, hkept⟩

end FatIo

/-! ### Runs -/

/-- A call on the file. -/
inductive FatCall
  | write (buffer : ℕ → UInt8) (buflen : ℕ)
  | seek (offset : ℤ) (whence : Whence)

/-- A call, and what it returns. Every call has a log of its own. -/
def FatCall.run {vol : FatVolume} (io : FatIo vol) : FatCall → Option (FatIo vol × ℤ)
  | .write buffer buflen => FatIo.fatWrite { io with log := [] } buffer buflen
  | .seek offset whence => FatIo.fatSeek { io with log := [] } offset whence

/-- A call with the file before and after it. -/
structure FatStep (vol : FatVolume) where
  before : FatIo vol
  call : FatCall
  after : FatIo vol
  ret : ℤ

variable {vol : FatVolume} {io io₀ : FatIo vol} {S : Set ℕ}

/-- The file has just been opened for writing, on a volume whose table is well formed for the chains
from `S`. -/
structure FatOpened (io : FatIo vol) (S : Set ℕ) : Prop where
  coherent : io.fs.Coherent
  wf : vol.links.WellFormed io.fs.link S
  wrok : io.ff.wrok = true
  start : io.ff.startcluster = 0 ∨ ∃ s ∈ S, io.ff.startcluster = (s : ℕ)
  cluster : io.ff.startcluster = io.ff.currentcluster
  left : io.ff.sectorsincluster = vol.fatsecperclus
  sector : io.ff.currentsector = 0
  cache : io.ff.cachesector = 0
  bflags : io.ff.bflags = 0
  pos : io.ff.pos = 0

/-- The runs of calls on a file, with steps that meet a condition. After a call that has kept the
semaphore there is no other one. -/
inductive FatRun (P : FatStep vol → Prop) (io₀ : FatIo vol) : List (FatStep vol) → FatIo vol → Prop
  | start : FatRun P io₀ [] io₀
  | step {steps : List (FatStep vol)} {io io' : FatIo vol} {call : FatCall} {ret : ℤ} :
    FatRun P io₀ steps io → io.locked = false → call.run io = some (io', ret) →
      P ⟨io, call, io', ret⟩ → FatRun P io₀ (⟨io, call, io', ret⟩ :: steps) io'

/-- What a call of `fat_write` should do: the sectors that it writes and buffers belong to the chain
of the file, and if there is no cluster for a file that has none, it fails with `ENOSPC` and writes
nothing. -/
def FatLaw (st : FatStep vol) : Prop :=
  ∀ buffer buflen, st.call = .write buffer buflen →
    (∀ e ∈ st.after.log, e.Owned vol) ∧
      (st.before.ff.startcluster = 0 → st.before.ff.currentsector = 0 →
        (∀ c, vol.links.Valid c → st.before.fs.link c ≠ 0) →
        st.ret = -eNOSPC ∧ st.after.fs.dev = st.before.fs.dev)

/-- The conditions on the calls: see `NuttX.FatIo.WriteCareful`, and `fat_seek` does not leave a
position behind the end of a file that has a current sector. -/
def FatCareful (st : FatStep vol) : Prop :=
  match st.call with
  | .write _ buflen => st.before.WriteCareful buflen
  | .seek _ _ => st.before.ff.currentsector = 0 ∨ st.after.ff.pos ≤ st.before.ff.size

/-- An empty file that has just been opened for writing, on the small volume. -/
def emptyFile (fs : FatMountpt smallVolume) : FatIo smallVolume where
  fs := fs
  ff := {
    bflags := 0
    rdok := true
    wrok := true
    sectorsincluster := 1
    currentcluster := 0
    size := 0
    startcluster := 0
    currentsector := 0
    cachesector := 0
    buffer := fun _ => 0
    pos := 0 }
  locked := false
  log := []

/-- The small volume with no free cluster: cluster 4 is a chain of its own. -/
def fullMount : FatMountpt smallVolume :=
  { smallMount with
    buffer := fun i => if i = 6 then 0xff else if i = 7 then 0x0f else smallFat i
    dirty := true }

theorem fatOpened_emptyFile {fs : FatMountpt smallVolume} (h : fs.Coherent)
    (hwf : smallVolume.links.WellFormed fs.link S) : FatOpened (emptyFile fs) S :=
  ⟨h, hwf, rfl, .inl rfl, rfl, rfl, rfl, rfl, rfl, rfl⟩

theorem path_fullMount_two : smallVolume.links.Path fullMount.link 2 [2, 3] := by
  refine .cons ⟨by decide, by decide⟩ ?_
  refine .last ⟨by decide, by decide⟩ ?_
  exact ⟨by decide, by decide⟩

theorem path_fullMount_four : smallVolume.links.Path fullMount.link 4 [4] := by
  refine .last ⟨by decide, by decide⟩ ?_
  exact ⟨by decide, by decide⟩

theorem mem_path_fullMount {c : ℕ} (hc : smallVolume.links.Valid c) :
    ∃ s ∈ ({2, 4} : Set ℕ), ∃ l, smallVolume.links.Path fullMount.link s l ∧ c ∈ l := by
  obtain ⟨hlow, hhigh⟩ : 2 ≤ c ∧ c < 5 := hc
  interval_cases c
  · exact ⟨2, .inl rfl, _, path_fullMount_two, by decide⟩
  · exact ⟨2, .inl rfl, _, path_fullMount_two, by decide⟩
  · exact ⟨4, .inr rfl, _, path_fullMount_four, by decide⟩

/-- No cluster is free. -/
theorem link_fullMount_ne_zero {c : ℕ} (hc : smallVolume.links.Valid c) : fullMount.link c ≠ 0 := by
  obtain ⟨s, -, l, hl, hmem⟩ := mem_path_fullMount hc
  exact hl.next_ne_null hmem

theorem wellFormed_fullMount : smallVolume.links.WellFormed fullMount.link {2, 4} := by
  have hdisjoint : List.Disjoint [2, 3] [4] := by simp
  refine ⟨?_, ?_, ?_⟩
  · rintro s (rfl | rfl)
    · exact ⟨_, path_fullMount_two⟩
    · exact ⟨_, path_fullMount_four⟩
  · rintro s (rfl | rfl) t (rfl | rfl) hne l l' hl hl'
    · exact absurd rfl hne
    · rw [hl.unique path_fullMount_two, hl'.unique path_fullMount_four]
      exact hdisjoint
    · rw [hl.unique path_fullMount_four, hl'.unique path_fullMount_two]
      exact List.disjoint_symm hdisjoint
    · exact absurd rfl hne
  · exact fun c hc _ => mem_path_fullMount hc

theorem FatOpened.kept (h : FatOpened io S) : Kept { io with log := [] } := by
  refine ⟨h.wrok, S, ?_⟩
  rcases h.start with hzero | ⟨s, hs, hstart⟩
  · exact .inl ⟨h.coherent, h.wf, hzero, h.sector, h.cache, fun _ he => absurd he not_mem_nil⟩
  obtain ⟨l, hl⟩ := h.wf.path s hs
  have hcluster : io.ff.currentcluster = s := by
    have := h.cluster
    omega
  refine .inr ⟨s, l, ⟨h.coherent, h.wf, hs, hstart, hl, .inl h.cache,
    fun _ he => absurd he not_mem_nil⟩, ?_, .inl h.sector⟩
  rw [hcluster]
  exact hl.mem_start

theorem FatIo.Kept.clear (h : io.Kept) : Kept { io with log := [] } := by
  obtain ⟨hwrok, S, hno | ⟨s, l, hhas⟩⟩ := h
  · exact ⟨hwrok, S, .inl { hno with log := fun _ he => absurd he not_mem_nil }⟩
  · exact ⟨hwrok, S, .inr ⟨s, l, hhas.sound.clear, hhas.cluster,
      hhas.aimed.imp_right fun ha => ha.congr rfl rfl rfl rfl⟩⟩

/-- Every step keeps the file. -/
theorem FatRun.kept {steps : List (FatStep vol)} (hopen : FatOpened io₀ S)
    (hrun : FatRun FatCareful io₀ steps io) : Kept { io with log := [] } := by
  induction hrun with
  | start => exact hopen.kept
  | @step steps io io' call ret _ _ hcall hcare ih =>
    cases call with
    | write buffer buflen =>
      have hcare' : io.WriteCareful buflen := hcare
      obtain ⟨io1, r, hr, hkept, -⟩ := fatWrite_spec ih rfl buffer buflen
        ⟨hcare'.space, hcare'.whole⟩
      have heq := Option.some.inj (hcall.symm.trans hr)
      cases heq
      exact hkept.clear
    | seek offset whence =>
      obtain ⟨io1, r, hr, hkept⟩ := fatSeek_spec ih rfl offset whence
      have heq := Option.some.inj (hcall.symm.trans hr)
      cases heq
      exact hkept hcare

theorem fatLaw_of_kept {st : FatStep vol} (h : Kept { st.before with log := [] })
    (hcall : st.call.run st.before = some (st.after, st.ret)) (hcare : FatCareful st) :
    FatLaw st := by
  intro buffer buflen hwrite
  rw [FatCareful, hwrite] at hcare
  rw [hwrite] at hcall
  have hcare' : st.before.WriteCareful buflen := hcare
  obtain ⟨io1, r, hr, -, howned⟩ := fatWrite_spec h rfl buffer buflen ⟨hcare'.space, hcare'.whole⟩
  have heq := Option.some.inj (hcall.symm.trans hr)
  obtain ⟨hio, -⟩ := Prod.mk.inj heq
  refine ⟨hio ▸ howned, fun hzero hsector hnone => ?_⟩
  obtain ⟨c, hc, hfree⟩ := hcare'.space hsector hzero
  exact absurd hfree (hnone c hc)

/-- **What `fat_write` writes stays inside the file.** In every run of careful calls on a file that
has been opened, on a volume with any number of free clusters, every call of `fat_write` is lawful;
and every call from a state that is reached returns, a call of `fat_write` that meets its conditions
and every call of `fat_seek`. -/
theorem fatRun_law {steps : List (FatStep vol)} (hopen : FatOpened io₀ S)
    (hrun : FatRun FatCareful io₀ steps io) :
    (∀ st ∈ steps, FatLaw st) ∧
      (∀ buffer buflen, io.WriteCareful buflen →
        ∃ r, (FatCall.write buffer buflen).run io = some r) ∧
      ∀ offset whence, ∃ r, (FatCall.seek offset whence).run io = some r := by
  have hkept := hrun.kept hopen
  refine ⟨?_, fun buffer buflen hcare => ?_, fun offset whence => ?_⟩
  · clear hkept
    induction hrun with
    | start => exact fun st hst => absurd hst List.not_mem_nil
    | step hrun' _ hcall hcare ih =>
      intro st hst
      rcases List.mem_cons.mp hst with rfl | hst
      · exact fatLaw_of_kept (hrun'.kept hopen) hcall hcare
      · exact ih st hst
  · obtain ⟨io', r, hr, -⟩ := FatIo.fatWrite_spec hkept rfl buffer buflen
      ⟨hcare.space, hcare.whole⟩
    exact ⟨_, hr⟩
  · obtain ⟨io', r, hr, -⟩ := FatIo.fatSeek_spec hkept rfl offset whence
    exact ⟨_, hr⟩

theorem fatRun_law_ten : ∃ st : FatStep smallVolume,
    FatRun FatCareful (emptyFile smallMount) [st] st.after ∧ st.ret = 10 ∧ FatLaw st := by
  have hret : ((FatCall.write (fun _ => 0) 10).run (emptyFile smallMount)).map (fun r => r.2) =
      some 10 := by decide +kernel
  obtain ⟨⟨io, ret⟩, hr, hten⟩ := Option.map_eq_some_iff.mp hret
  have hspace : ∃ c, smallVolume.links.Valid c ∧ (emptyFile smallMount).fs.link c = 0 :=
    ⟨4, ⟨by decide, by decide⟩, by decide +kernel⟩
  have hcare : FatCareful ⟨emptyFile smallMount, .write (fun _ => 0) 10, io, ret⟩ :=
    ⟨fun _ _ => hspace, fun hne => absurd rfl hne⟩
  have hrun := FatRun.start.step rfl hr hcare
  have hopen := fatOpened_emptyFile FatMountpt.coherent_smallMount FatMountpt.wellFormed_smallMount
  exact ⟨_, hrun, hten, (fatRun_law hopen hrun).1 _ List.mem_cons_self⟩

/-- **On a full volume the first write to an empty file goes astray**: it returns as if it had
written, and the sector in the buffer of the file is sector -22. -/
theorem fatRun_astray : ∃ st : FatStep smallVolume,
    FatOpened (emptyFile fullMount) {2, 4} ∧
      FatRun (fun _ => True) (emptyFile fullMount) [st] st.after ∧ st.ret = 10 ∧
      st.after.ff.cachesector = -22 ∧ ¬ FatLaw st := by
  have hret : ((FatCall.write (fun _ => 0) 10).run (emptyFile fullMount)).map
      (fun r => (r.2, r.1.ff.cachesector)) = some (10, -22) := by decide +kernel
  obtain ⟨⟨io, ret⟩, hr, heq⟩ := Option.map_eq_some_iff.mp hret
  obtain ⟨hten, hcache⟩ := Prod.mk.inj heq
  have hcoh : fullMount.Coherent := fun hclean => Bool.noConfusion hclean
  have hopen := fatOpened_emptyFile hcoh wellFormed_fullMount
  refine ⟨⟨emptyFile fullMount, .write (fun _ => 0) 10, io, ret⟩, hopen,
    FatRun.start.step rfl hr trivial, hten, hcache, fun hlaw => ?_⟩
  obtain ⟨-, hspace⟩ := hlaw _ _ rfl
  have hwrong : ret = -eNOSPC := (hspace rfl rfl fun _ => link_fullMount_ne_zero).1
  rw [show ret = 10 from hten] at hwrong
  exact absurd hwrong (by decide)

end NuttX
