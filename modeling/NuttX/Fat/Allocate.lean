import NuttX.Fat.Slots

/-!
# Slots for a new name

`fat_allocatedirentry` looks for slots in a directory and, if there is no room, appends a cluster
of zeros to its chain and looks there. What it records are free slots of the directory, or of the
cluster that has been appended, and a full directory of a full volume is an error that changes
nothing (`NuttX.DirLaw`), with one exception. `fat_extendchain` returns zero if no cluster is
free, and zero is taken for the next cluster of the directory: sectors from `-EINVAL` on are
cleared, and then the search goes on at `fs_rootbase`, as if the directory were the root
directory. So slots of the root directory are handed out for a file of another one
(`NuttX.fatAllocatedirentry_law_iff`, `NuttX.fatAllocatedirentry_root`).
-/

namespace NuttX

open Function FatVolume FatMountpt List

variable {vol : FatVolume} {root : FatRoot} {fs fs₁ fs₂ fs' : FatMountpt vol}
  {info info' : FatDirinfo} {l : List ℕ} {c d t fuel : ℕ}

/-! ### Sectors of clusters -/

namespace FatVolume

theorem Holds.unique {k : ℤ} (h : vol.Holds c k) (hc : vol.links.Valid c) (h' : vol.Holds d k)
    (hd : vol.links.Valid d) : c = d := by
  have hnot : ∀ {c d}, vol.Holds c k → vol.links.Valid c → vol.Holds d k → vol.links.Valid d →
      ¬ c < d := by
    intro c d h hc h' hd hlt
    have hlow : 2 ≤ c := hc.1
    have hmul : (c - 2 + 1) * vol.fatsecperclus ≤ (d - 2) * vol.fatsecperclus :=
      Nat.mul_le_mul_right _ (by omega)
    rw [Nat.succ_mul] at hmul
    have hhigh := h.2
    have hstart := h'.1
    rw [(fatCluster2sector_of_valid hc).1] at hhigh
    rw [(fatCluster2sector_of_valid hd).1] at hstart
    omega
  exact Nat.le_antisymm (Nat.not_lt.mp (hnot h' hd h hc)) (Nat.not_lt.mp (hnot h hc h' hd))

theorem Holds.behind {k : ℤ} (h : vol.Holds c k) (hc : vol.links.Valid c) : vol.BehindFat k := by
  have hlow := h.1
  rw [(fatCluster2sector_of_valid hc).1] at hlow
  have hdata := vol.fat_before_data
  unfold BehindFat
  omega

end FatVolume

def perCluster (vol : FatVolume) : ℕ := vol.fatsecperclus * vol.dirsecNdirs

theorem count_blockSlots (bases : List ℤ) :
    (blockSlots vol bases).count = bases.length * perCluster vol := Nat.mul_assoc ..

theorem count_chainSlots (l : List ℕ) : (chainSlots vol l).count = l.length * perCluster vol := by
  rw [chainSlots, count_blockSlots, length_map]

/-- A slot of a chain is in a sector of one of its clusters. -/
theorem chainSlots_holds (hslot : 32 ≤ vol.hwsectorsize) {i : ℕ}
    (hi : i < (chainSlots vol l).count) :
    ∃ c ∈ l, vol.Holds c ((chainSlots vol l).sector i) := by
  have hpos := dirsecNdirs_pos hslot
  have hspc := vol.fatsecperclus_pos
  have hq : i / vol.dirsecNdirs < (l.map fun c => vol.fatCluster2sector c).length *
      vol.fatsecperclus := (Nat.div_lt_iff_lt_mul hpos).mpr hi
  have hj : i / vol.dirsecNdirs / vol.fatsecperclus < l.length := by
    rw [length_map] at hq
    exact (Nat.div_lt_iff_lt_mul hspc).mpr hq
  have hlast := Nat.mod_lt (i / vol.dirsecNdirs) hspc
  refine ⟨l[i / vol.dirsecNdirs / vol.fatsecperclus], getElem_mem hj, ?_⟩
  have hbase : (l.map fun c => vol.fatCluster2sector c).getD
      (i / vol.dirsecNdirs / vol.fatsecperclus) 0 =
        vol.fatCluster2sector l[i / vol.dirsecNdirs / vol.fatsecperclus] := by
    rw [getD_eq_getElem?_getD, getElem?_map, getElem?_eq_getElem hj, Option.map_some,
      Option.getD_some]
  change vol.Holds _ ((l.map fun c => vol.fatCluster2sector c).getD
      (i / vol.dirsecNdirs / vol.fatsecperclus) 0 + (i / vol.dirsecNdirs % vol.fatsecperclus : ℕ))
  rw [hbase]
  exact ⟨Int.le_add_of_nonneg_right (Int.natCast_nonneg _),
    Int.add_lt_add_left (Nat.cast_lt.mpr hlast) _⟩

theorem chainSlots_append (hslot : 32 ≤ vol.hwsectorsize) {i : ℕ} (hi : i < perCluster vol) :
    (chainSlots vol (l ++ [c])).sector (l.length * perCluster vol + i) =
      (chainSlots vol [c]).sector i ∧
    (l.length * perCluster vol + i) % vol.dirsecNdirs = i % vol.dirsecNdirs := by
  have hpos := dirsecNdirs_pos hslot
  have hspc := vol.fatsecperclus_pos
  have hdiv : (l.length * perCluster vol + i) / vol.dirsecNdirs =
      l.length * vol.fatsecperclus + i / vol.dirsecNdirs := by
    rw [perCluster, ← Nat.mul_assoc, Nat.add_comm, Nat.add_mul_div_right _ _ hpos, Nat.add_comm]
  have hq : i / vol.dirsecNdirs < vol.fatsecperclus := (Nat.div_lt_iff_lt_mul hpos).mpr hi
  have hj : (l.length * vol.fatsecperclus + i / vol.dirsecNdirs) / vol.fatsecperclus =
      l.length := by
    rw [Nat.add_comm, Nat.add_mul_div_right _ _ hspc, Nat.div_eq_of_lt hq, Nat.zero_add]
  have hmod : (l.length * vol.fatsecperclus + i / vol.dirsecNdirs) % vol.fatsecperclus =
      i / vol.dirsecNdirs % vol.fatsecperclus := Nat.mul_add_mod_self_right ..
  refine ⟨?_, ?_⟩
  · dsimp only [chainSlots, blockSlots]
    rw [hdiv, hj, hmod, Nat.div_eq_of_lt hq, map_append, getD_append_right _ _ _ _ (by simp),
      length_map, Nat.sub_self]
  · rw [perCluster, ← Nat.mul_assoc, Nat.mul_add_mod_self_right]

/-! ### One round -/

namespace FatMountpt

theorem looks_fatNextdirentry (h : fs.Fresh) (dir : FatDir) :
    fs.Looks (fs.fatNextdirentry root dir).1 := by
  unfold fatNextdirentry
  dsimp only
  split_ifs
  · exact .refl h
  · exact .refl h
  · exact looks_fatGetcluster h _
  · exact looks_fatGetcluster h _
  · exact .refl h
  · exact .refl h

theorem looks_lfnLoop {startsector ret : ℤ} {n needed : ℕ} (h : fs.Fresh)
    (hrun : fs.lfnLoop root info startsector n needed fuel = some (fs', info', ret)) :
    fs.Looks fs' := by
  induction fuel generalizing fs info needed with
  | zero => exact nomatch hrun
  | succ fuel ih =>
    have hread := looks_fatFscacheread h info.dir.currsector
    have hnext : fs.Looks
        ((fs.fatFscacheread info.dir.currsector).fatNextdirentry root info.dir).1 :=
      hread.trans (looks_fatNextdirentry hread.fresh info.dir)
    unfold lfnLoop at hrun
    by_cases hlast : dirEmpty ((fs.fatFscacheread info.dir.currsector).buffer
        (vol.diroffset info.dir.index)) = true ∧ needed ≤ 1
    · rw [if_pos hlast] at hrun
      cases hrun
      exact hread
    rw [if_neg hlast] at hrun
    by_cases hret : ((fs.fatFscacheread info.dir.currsector).fatNextdirentry root info.dir).2.2 < 0
    · rw [if_pos hret] at hrun
      cases hrun
      exact hnext
    · rw [if_neg hret] at hrun
      exact hnext.trans (ih hnext.fresh hrun)

theorem looks_searchSlots {ret : ℤ} (h : fs.Fresh)
    (hrun : fs.searchSlots root info = some (fs', info', ret)) : fs.Looks fs' := by
  unfold searchSlots at hrun
  split_ifs at hrun
  · exact looks_lfnLoop h hrun
  · rw [fatAllocatesfnentry, sfnLoop_eq] at hrun
    exact looks_lfnLoop h hrun

theorem searchSlots_block (hslot : 32 ≤ vol.hwsectorsize) (h : fs.Fresh) {bases : List ℤ}
    (hpath : vol.links.Path fs.link d l) (hlen : bases.length = l.length)
    (hbases : ∀ j c, l[j + 1]? = some c → bases.getD (j + 1) 0 = vol.fatCluster2sector c)
    (hbound : ∀ j < bases.length, 0 ≤ bases.getD j 0 ∧ bases.getD j 0 + vol.fatsecperclus < 2 ^ 31)
    (hcluster : info.dir.currcluster = d) (hsector : info.dir.currsector = bases.getD 0 0)
    (hindex : info.dir.index = 0) :
    fs.SlotsSearched (blockSlots vol bases) (fun dir => l.getLast? = some dir.currcluster) info
      info.slots (fs.searchSlots root info) := by
  have hpos := dirsecNdirs_pos hslot
  have hspc := vol.fatsecperclus_pos
  have hne : 0 < l.length := length_pos_iff.mpr hpath.ne_nil
  refine searchSlots_spec (track_block hslot h hpath hlen hbases hbound) (.refl h) ?_ ?_
  · refine ⟨?_, ?_, ?_, ?_⟩
    · rw [count_blockSlots, hlen]
      exact Nat.mul_pos hne (Nat.mul_pos hspc hpos)
    · rw [Nat.zero_div, Nat.zero_div, hcluster]
      exact hpath.getElem?_zero
    · dsimp only [blockSlots]
      rw [Nat.zero_div, Nat.zero_div, Nat.zero_mod, Nat.cast_zero, Int.add_zero]
      exact hsector
    · rw [hindex, Nat.zero_mod]
  · have hle := length_le_of_path hpath
    rw [count_blockSlots, hlen, slotFuel]
    have hmul : l.length * perCluster vol ≤ vol.nclusters * perCluster vol :=
      Nat.mul_le_mul_right _ hle
    change _ ≤ vol.nclusters * perCluster vol + _ + _ + _
    omega

theorem searchSlots_chain (hslot : 32 ≤ vol.hwsectorsize) (h : fs.Fresh)
    (hpath : vol.links.Path fs.link d l) (hcluster : info.dir.currcluster = d)
    (hsector : info.dir.currsector = vol.fatCluster2sector d) (hindex : info.dir.index = 0) :
    fs.SlotsSearched (chainSlots vol l) (fun dir => l.getLast? = some dir.currcluster) info
      info.slots (fs.searchSlots root info) := by
  have hget : ∀ j c, l[j]? = some c →
      (l.map fun c => vol.fatCluster2sector c).getD j 0 = vol.fatCluster2sector c := by
    intro j c hc
    rw [getD_eq_getElem?_getD, getElem?_map, hc, Option.map_some, Option.getD_some]
  refine searchSlots_block hslot h hpath (length_map ..) (fun j => hget (j + 1)) ?_ hcluster ?_
    hindex
  · intro j hj
    rw [length_map] at hj
    have hc := getElem?_eq_getElem hj
    have hvalid := hpath.valid (mem_of_getElem? hc)
    obtain ⟨heq, hlt⟩ := fatCluster2sector_of_valid hvalid
    rw [hget j _ hc]
    refine ⟨?_, hlt⟩
    have hbase := vol.database_nonneg
    omega
  · rw [hsector, hget 0 d hpath.getElem?_zero]

/-- **The search after `fat_extendchain` has found no cluster**: in as many sectors as a cluster
has, from `fs_rootbase` on. -/
theorem allocateLoop_zero (fuel : ℕ) (hfits : root.Fits vol) (h : fs.Fresh)
    (ht : vol.links.Valid t) (hend : vol.links.End (fs.link t))
    (hcluster : info.dir.currcluster = t) :
    ∃ fs' info' ret, fs.allocateLoop root info 0 (fuel + 1) = some (fs', info', ret) ∧
      (ret = 0 ∧ (∃ i, (blockSlots vol [root.rootbase]).Room vol fs.settled info.slots i) ∨
        ret = -eNOSPC ∧ fs.Looks fs' ∧
          (blockSlots vol [root.rootbase]).Full vol fs.settled info.slots) := by
  have hbound : 0 ≤ root.rootbase ∧ root.rootbase + vol.fatsecperclus < 2 ^ 31 := by
    have hrange : 2 ≤ t ∧ t < vol.nclusters := ht
    have hfit := vol.sectors_fit
    have hbase := vol.fatbase_nonneg
    have hspc := vol.fatsecperclus_le
    have hmul : 1 * vol.fatsecperclus ≤ vol.nclusters * vol.fatsecperclus :=
      Nat.mul_le_mul_right _ (by omega)
    by_cases htype : vol.type = .fat32
    · have hroot := hfits.cluster htype
      have hlt := vol.nclusters_lt_two_pow
      omega
    have hbehind := hfits.behind htype
    have hdata := hfits.before_data htype
    unfold BehindFat at hbehind
    generalize (root.rootentcnt + vol.dirsecNdirs - 1) / vol.dirsecNdirs = m at hdata
    omega
  have hsearch : fs.SlotsSearched (blockSlots vol [root.rootbase])
      (fun dir => [t].getLast? = some dir.currcluster)
      { info with dir := startDir vol root info.dir 0 } info.slots
      (fs.searchSlots root { info with dir := startDir vol root info.dir 0 }) := by
    refine searchSlots_block hfits.slot_le h (.last ht hend) rfl ?_ ?_ hcluster rfl rfl
    · intro j c hc
      exact nomatch hc
    intro j hj
    obtain rfl : j = 0 := by
      have hone : j < 1 := hj
      omega
    exact hbound
  obtain ⟨fs', info', ret, hrun, hlooks, -, hcases⟩ := hsearch
  rw [allocateLoop, hrun]
  rcases hcases with ⟨rfl, i, hroom, -⟩ | ⟨rfl, hfull, -⟩
  · exact ⟨fs', info', 0, rfl, .inl ⟨rfl, i, hroom⟩⟩
  · exact ⟨fs', info', -eNOSPC, rfl, .inr ⟨rfl, hlooks, hfull⟩⟩

/-- What a round of `fat_allocatedirentry` in a directory with a chain does: it finds room, or it
goes on with the zero of `fat_extendchain`, or with a new cluster that is linked and cleared. -/
theorem allocateLoop_chain (info : FatDirinfo) (fuel : ℕ) (hfits : root.Fits vol) (h : fs.Fresh)
    (hpath : vol.links.Path fs.link d l) :
    (∃ fs' info', fs.allocateLoop root info d (fuel + 1) = some (fs', info', 0) ∧ fs.Looks fs' ∧
      ∃ i, (chainSlots vol l).Room vol fs.settled info.slots i ∧
        (chainSlots vol l).Recorded vol info.slots i info'.seq) ∨
    (chainSlots vol l).Full vol fs.settled info.slots ∧
      ∃ t fs₂ info1, l.getLast? = some t ∧ info1.dir.currcluster = t ∧ info1.lfname = info.lfname ∧
        ((∀ c, vol.links.Valid c → fs.link c ≠ 0) ∧ fs.Looks fs₂ ∧
            fs.allocateLoop root info d (fuel + 1) =
              (fs₂.clearCluster 0).allocateLoop root info1 0 fuel ∨
          ∃ c, vol.links.Valid c ∧ fs.link c = 0 ∧ fs.Tabled fs₂ ∧ fs₂.link = fs.linked t c ∧
            fs.allocateLoop root info d (fuel + 1) =
              (fs₂.clearCluster c).allocateLoop root info1 c fuel) := by
  have hvalid := hpath.valid_start
  have hne : d ≠ 0 := by
    have hrange : 2 ≤ d := hvalid.1
    omega
  have hstart : startDir vol root info.dir d =
      { info.dir with
        currcluster := d
        currsector := vol.fatCluster2sector d
        index := 0 } := if_pos hne
  have hsearch : fs.SlotsSearched (chainSlots vol l) (fun dir => l.getLast? = some dir.currcluster)
      { info with dir := startDir vol root info.dir d } info.slots
      (fs.searchSlots root { info with dir := startDir vol root info.dir d }) :=
    searchSlots_chain hfits.slot_le h hpath (by rw [hstart]) (by rw [hstart]) (by rw [hstart])
  obtain ⟨fs₁, info1, ret, hrun, hlooks, hname, hcases⟩ := hsearch
  have hnospc : ¬ (-eNOSPC = 0 ∨ -eNOSPC ≠ -eNOSPC) := by decide
  rw [allocateLoop, hrun]
  dsimp only
  rcases hcases with ⟨rfl, hroom⟩ | ⟨rfl, hfull, hlast⟩
  · exact .inl ⟨fs₁, info1, rfl, hlooks, hroom⟩
  rw [if_neg hnospc, if_neg hne]
  refine .inr ⟨hfull, info1.dir.currcluster, ?_⟩
  have hmem := mem_of_getLast? hlast
  have htvalid := hpath.valid hmem
  have hend := hpath.end_getLast hlast
  have hlink := hlooks.link_eq h
  rw [← hlink] at hend
  obtain ⟨fs₂, r, hext, hspec⟩ := fatExtendchain_spec _ hlooks.fresh.coherent (.inr ⟨htvalid, hend⟩)
  have hinv := fatExtendchain_inv hlooks.fresh htvalid hend hext
  rw [hext]
  refine ⟨fs₂, info1, hlast, rfl, hname, ?_⟩
  rcases hspec with ⟨rfl, hnone, -⟩ | ⟨c, rfl, hc, hfree, htakes⟩
  · rw [hlink] at hnone
    rcases hinv with ⟨-, hlooks'⟩ | ⟨hpos, -⟩
    · exact .inl ⟨hnone, hlooks.trans hlooks', rfl⟩
    · exact absurd hpos (Int.lt_irrefl 0)
  · have hcpos : 2 ≤ c := hc.1
    rw [hlink] at hfree
    rcases hinv with ⟨hle, -⟩ | ⟨-, htabled⟩
    · omega
    · refine .inr ⟨c, hc, hfree, ⟨htabled.fresh, htabled.sector, fun t ht => ?_⟩, ?_, rfl⟩
      · rw [htabled.behind t ht, hlooks.settled]
      · rw [htakes.link, linked, linked, hlink]

/-! ### A new cluster -/

theorem slot_lt (hslot : 32 ≤ vol.hwsectorsize) (i : ℕ) :
    i % vol.dirsecNdirs * 32 < vol.hwsectorsize := by
  obtain ⟨k, -, hk, hsize⟩ := dirsecNdirs_eq hslot
  have hlt := Nat.mod_lt i (dirsecNdirs_pos hslot)
  omega

theorem clearCluster_of_valid (h : fs.Fresh) (hc : vol.links.Valid c) :
    (fs.clearCluster c).Fresh ∧ (fs.clearCluster c).link = fs.link ∧
      (∀ s, ¬ vol.Holds c s → (fs.clearCluster c).settled s = fs.settled s) ∧
      ∀ s, vol.Holds c s → ∀ i < vol.hwsectorsize, (fs.clearCluster c).settled s i = 0 := by
  obtain ⟨heq, hlt⟩ := fatCluster2sector_of_valid hc
  have hlow : -2 ^ 31 ≤ vol.fatCluster2sector c := by
    have hbase := vol.database_nonneg
    omega
  obtain ⟨hfresh, hothers, hzero⟩ := fs.clearCluster_spec hlow hlt
  refine ⟨hfresh, link_eq_of_settled h hfresh fun s hs i _ => ?_, hothers, hzero⟩
  rw [hothers s fun hholds => (Holds.bounds hholds hc).2.2 hs]

theorem room_of_cleared (hslot : 32 ≤ vol.hwsectorsize)
    (hzero : ∀ s, vol.Holds c s → ∀ i < vol.hwsectorsize, fs.settled s i = 0) {n : ℕ}
    (hn : n ≤ perCluster vol) : (chainSlots vol [c]).Room vol fs.settled n 0 := by
  have hcount : (chainSlots vol [c]).count = perCluster vol := by
    rw [count_chainSlots, length_singleton, Nat.one_mul]
  refine ⟨by omega, fun j hj => ?_⟩
  rw [Nat.zero_add]
  obtain ⟨c', hmem, hholds⟩ := chainSlots_holds hslot (show j < (chainSlots vol [c]).count by omega)
  rw [mem_singleton.mp hmem] at hholds
  unfold DirSlots.Free
  rw [hzero _ hholds _ (slot_lt hslot j)]
  rfl

theorem path_linked (hpath : vol.links.Path fs.link d l) (hlast : l.getLast? = some t)
    (hc : vol.links.Valid c) (hfree : fs.link c = 0) (hlink : fs'.link = fs.linked t c) :
    vol.links.Path fs'.link d (l ++ [c]) ∧ vol.links.Path fs'.link c [c] := by
  have hmem := mem_of_getLast? hlast
  have hused : ∀ x ∈ l, x ≠ c := by
    rintro x hx rfl
    exact hpath.next_ne_null hx hfree
  have ht : t ≠ 0 := by
    have hrange : 2 ≤ t := (hpath.valid hmem).1
    omega
  rw [linked, if_neg ht] at hlink
  have hend : vol.links.End (fs'.link c) := by
    rw [hlink, update_of_ne (hused t hmem).symm, update_self]
    exact end_endMark vol
  refine ⟨hpath.append hlast hc (fun x hx hxt => ?_) ?_ hend, .last hc hend⟩
  · rw [hlink, update_of_ne hxt, update_of_ne (hused x hx)]
  · rw [hlink, update_self]

theorem clearCluster_zero (fs : FatMountpt vol) (ht : vol.links.Valid t) :
    (fs.clearCluster 0).Fresh ∧
      (∀ s, ¬ (-eINVAL ≤ s ∧ s < -eINVAL + vol.fatsecperclus) →
        (fs.clearCluster 0).settled s = fs.settled s) ∧
      ∀ s, -eINVAL ≤ s ∧ s < -eINVAL + vol.fatsecperclus →
        ∀ i < vol.hwsectorsize, (fs.clearCluster 0).settled s i = 0 := by
  have hrange : 2 ≤ t ∧ t < vol.nclusters := ht
  have hlt := vol.nclusters_lt_two_pow
  have hspc := vol.fatsecperclus_le
  have hsector : vol.fatCluster2sector 0 = -eINVAL := by
    rw [FatGeometry.fatCluster2sector, if_pos]
    omega
  have hspec := fs.clearCluster_spec (c := 0)
  rw [hsector] at hspec
  exact hspec (by decide) (by unfold eINVAL; omega)

/-- **A name that is too long for a cluster uses up the volume.** No row of slots in one new cluster
is long enough, and so clusters are appended until none is free. -/
theorem allocateLoop_long (hfits : root.Fits vol) (hname : info.slots ≤ 21)
    (hlong : perCluster vol < info.slots) (h : fs.Fresh) (hpath : vol.links.Path fs.link c [c])
    (hfuel : fs.freeClusters + 2 ≤ fuel) :
    ∃ fs' info', fs.allocateLoop root info c fuel = some (fs', info', -eNOSPC) := by
  have hpos := dirsecNdirs_pos hfits.slot_le
  induction fuel generalizing fs info c with
  | zero => omega
  | succ fuel ih =>
    have hone : ∀ bases : List ℤ, bases.length = 1 → ∀ {f : ℤ → ℕ → UInt8} {i : ℕ},
        ¬ (blockSlots vol bases).Room vol f info.slots i := by
      intro bases hlen f i hroom
      have hle := hroom.1
      rw [count_blockSlots, hlen, Nat.one_mul] at hle
      omega
    rcases allocateLoop_chain info fuel hfits h hpath with
      ⟨-, -, -, -, i, hroom, -⟩ | ⟨-, t, fs₂, info1, hlast, hcluster, hlfname, hcases⟩
    · exact absurd hroom (hone _ rfl)
    have hslots := FatDirinfo.slots_congr hlfname
    obtain rfl : c = t := Option.some.inj hlast
    rcases hcases with ⟨-, hlooks, hrun⟩ | ⟨x, hx, hfree, htabled, hlink, hrun⟩
    · obtain ⟨hfresh, hothers, -⟩ := clearCluster_zero fs₂ hpath.valid_start
      -- so few slots in a cluster: the sectors that are cleared have no numbers of the table
      have hsmall : vol.fatsecperclus * 1 ≤ perCluster vol := Nat.mul_le_mul_left _ hpos
      have hlink : (fs₂.clearCluster 0).link = fs.link := by
        rw [← hlooks.link_eq h]
        refine link_eq_of_settled hlooks.fresh hfresh fun s hs i _ => ?_
        have hlow := hs.1
        have hbase := vol.fatbase_nonneg
        rw [hothers s fun hs' => by unfold eINVAL at hs'; omega]
      have hend := hpath.end_getLast rfl
      rw [← hlink] at hend
      obtain ⟨fuel, rfl⟩ : ∃ m, fuel = m + 1 := ⟨fuel - 1, by omega⟩
      obtain ⟨fs', info', ret, hrun', hret⟩ :=
        allocateLoop_zero fuel hfits hfresh hpath.valid_start hend hcluster
      rcases hret with ⟨-, i, hroom⟩ | ⟨rfl, -⟩
      · rw [hslots] at hroom
        exact absurd hroom (hone _ rfl)
      · exact ⟨fs', info', hrun.trans hrun'⟩
    · obtain ⟨hfresh, hlink', -⟩ := clearCluster_of_valid htabled.fresh hx
      rw [hlink] at hlink'
      obtain ⟨-, hpath'⟩ := path_linked hpath hlast hx hfree hlink'
      have hone' := freeClusters_of_linked hlink' hx hfree (.inr (hpath.next_ne_null mem_cons_self))
      obtain ⟨fs', info', hrun'⟩ := ih (hslots ▸ hname) (hslots ▸ hlong) hfresh hpath' (by omega)
      exact ⟨fs', info', hrun.trans hrun'⟩

end FatMountpt

/-! ### The law -/

/-- The slots of the directory that starts with the cluster `d`: those of its chain `l`, or those of
the fixed root directory. -/
def dirSlots (vol : FatVolume) (root : FatRoot) (d : ℕ) (l : List ℕ) : DirSlots :=
  if d = 0 then rootSlots vol root else chainSlots vol l

/-- A directory and a name for which `fat_finddirentry` has looked there: a volume that fits, a
sector in the buffer that is the one on the device or has been changed, and a directory that is a
chain, or the fixed root directory. -/
structure DirAsked (fs : FatMountpt vol) (root : FatRoot) (info : FatDirinfo) (l : List ℕ) :
    Prop where
  fresh : fs.Fresh
  fits : root.Fits vol
  name : info.lfname.length ≤ 255
  dir : info.dir.startcluster = 0 ∧ info.dir.currcluster = 0 ∧ vol.type ≠ .fat32 ∨
    vol.links.Path fs.link info.dir.startcluster l

/-- The slots that are recorded are free slots of the directory, whose chain may have been
extended by a cluster that was free and has been cleared; the slots that it had are as they were.
-/
def Allocated (root : FatRoot) (d : ℕ) (l : List ℕ) (n : ℕ) (fs fs' : FatMountpt vol)
    (seq : FatDirseq) : Prop :=
  ∃ l' i,
    (l' = l ∨ d ≠ 0 ∧ ∃ c, vol.links.Valid c ∧ fs.link c = 0 ∧ l' = l ++ [c] ∧
      ∀ s, vol.Holds c s → ∀ b < vol.hwsectorsize, fs'.settled s b = 0) ∧
    (d ≠ 0 → vol.links.Path fs'.link d l') ∧
    (dirSlots vol root d l').Room vol fs'.settled n i ∧
    (dirSlots vol root d l').Recorded vol n i seq ∧
    ∀ k < (dirSlots vol root d l).count, fs'.settled ((dirSlots vol root d l).sector k) =
      fs.settled ((dirSlots vol root d l).sector k)

/-- The directory has no room for the name, and no cluster is free. -/
def Exhausted (fs : FatMountpt vol) (root : FatRoot) (info : FatDirinfo) (l : List ℕ) : Prop :=
  (dirSlots vol root info.dir.startcluster l).Full vol fs.settled info.slots ∧
    ∀ c, vol.links.Valid c → fs.link c ≠ 0

def SameDevice (vol : FatVolume) (f f' : ℤ → ℕ → UInt8) : Prop :=
  ∀ s, ∀ b < vol.hwsectorsize, f' s b = f s b

/-- **Slots are allocated in the right directory**: success means free slots of the directory, and
if the directory is full and no cluster is free there is an error and nothing changes on the
device. -/
def DirLaw (fs : FatMountpt vol) (root : FatRoot) (info : FatDirinfo) (l : List ℕ) : Prop :=
  ∃ fs' info' ret, fs.fatAllocatedirentry root info = some (fs', info', ret) ∧
    (ret = 0 → Allocated root info.dir.startcluster l info.slots fs fs' info'.seq) ∧
    (Exhausted fs root info l → ret = -eNOSPC ∧ SameDevice vol fs.settled fs'.settled)

/-- The directory is a chain without room, no cluster is free, and the zero of `fat_extendchain`
does harm: there is room in the sectors from `fs_rootbase` on, or something to clear in the
sectors from `-EINVAL` on. -/
def Misled (fs : FatMountpt vol) (root : FatRoot) (info : FatDirinfo) (l : List ℕ) : Prop :=
  info.dir.startcluster ≠ 0 ∧ Exhausted fs root info l ∧
    ((∃ i, (blockSlots vol [root.rootbase]).Room vol fs.settled info.slots i) ∨
      ∃ s, (-eINVAL ≤ s ∧ s < -eINVAL + vol.fatsecperclus) ∧
        ∃ b < vol.hwsectorsize, fs.settled s b ≠ 0)

theorem SameDevice.free_iff {f f' : ℤ → ℕ → UInt8} (h : SameDevice vol f f')
    (hslot : 32 ≤ vol.hwsectorsize) (S : DirSlots) (i : ℕ) : S.Free vol f' i ↔ S.Free vol f i := by
  unfold DirSlots.Free
  rw [h _ _ (slot_lt hslot i)]

theorem SameDevice.room_iff {f f' : ℤ → ℕ → UInt8} (h : SameDevice vol f f')
    (hslot : 32 ≤ vol.hwsectorsize) (S : DirSlots) (n i : ℕ) :
    S.Room vol f' n i ↔ S.Room vol f n i :=
  and_congr_right fun _ => forall₂_congr fun j _ => h.free_iff hslot S (i + j)

theorem FatDirinfo.slots_le (h : info.lfname.length ≤ 255) : info.slots ≤ 21 := by
  unfold FatDirinfo.slots lfnEntries
  split_ifs <;> omega

theorem Allocated.of_looks {n i : ℕ} {seq : FatDirseq} (h : fs.Fresh) (hlooks : fs.Looks fs')
    (hpath : d ≠ 0 → vol.links.Path fs.link d l)
    (hroom : (dirSlots vol root d l).Room vol fs.settled n i)
    (hseq : (dirSlots vol root d l).Recorded vol n i seq) : Allocated root d l n fs fs' seq := by
  refine ⟨l, i, .inl rfl, ?_, ?_, hseq, fun k _ => ?_⟩
  · rw [hlooks.link_eq h]
    exact hpath
  · rw [hlooks.settled]
    exact hroom
  · rw [hlooks.settled]

/-- The fixed root directory. -/
theorem dirLaw_root (hasked : DirAsked fs root info l) (hstart : info.dir.startcluster = 0)
    (hcurr : info.dir.currcluster = 0) (htype : vol.type ≠ .fat32) : DirLaw fs root info l := by
  have hslots : dirSlots vol root info.dir.startcluster l = rootSlots vol root := if_pos hstart
  have hpos := dirsecNdirs_pos hasked.fits.slot_le
  have hsearch : fs.SlotsSearched (rootSlots vol root) (fun _ => True)
      { info with dir := startDir vol root info.dir 0 } info.slots
      (fs.searchSlots root { info with dir := startDir vol root info.dir 0 }) := by
    refine searchSlots_spec (track_root hasked.fits htype) (.refl hasked.fresh) ?_ ?_
    · refine ⟨?_, hcurr, ?_, rfl⟩
      · have hentries := hasked.fits.rootentcnt_pos htype
        exact Nat.mul_pos (Nat.div_pos (by omega) hpos) hpos
      · dsimp only [rootSlots]
        rw [Nat.zero_div, Nat.cast_zero, Int.add_zero]
        rfl
    · have hle : (rootSlots vol root).count ≤ root.rootentcnt + vol.dirsecNdirs - 1 :=
        Nat.div_mul_le_self ..
      unfold slotFuel
      omega
  obtain ⟨fs', info', ret, hrun, hlooks, -, hcases⟩ := hsearch
  unfold DirLaw fatAllocatedirentry
  rw [hstart, allocateLoop, hrun]
  rw [hstart] at hslots
  rcases hcases with ⟨rfl, i, hroom, hseq⟩ | ⟨rfl, hfull, -⟩
  · refine ⟨fs', info', 0, rfl, fun _ => ?_, fun hex => ?_⟩
    · exact .of_looks hasked.fresh hlooks (absurd rfl) (hslots ▸ hroom) (hslots ▸ hseq)
    · have hnone := hex.1
      rw [hstart, hslots] at hnone
      exact absurd hroom (hnone i)
  · refine ⟨fs', info', -eNOSPC, rfl, fun hzero => absurd hzero (by decide), fun _ => ⟨rfl, ?_⟩⟩
    intro s b _
    rw [hlooks.settled]

/-- Slots that have been found in a new cluster. -/
theorem Allocated.of_cleared {fs3 : FatMountpt vol} {n i : ℕ} {seq : FatDirseq}
    (hfits : root.Fits vol) (hpath : vol.links.Path fs.link d l) (hlast : l.getLast? = some t)
    (hc : vol.links.Valid c) (hfree : fs.link c = 0) (htabled : fs.Tabled fs₂)
    (hlink : fs₂.link = fs.linked t c) (hfs3 : fs3 = fs₂.clearCluster c) (hlooks : fs3.Looks fs')
    (hroom : (chainSlots vol [c]).Room vol fs3.settled n i)
    (hseq : (chainSlots vol [c]).Recorded vol n i seq) (hn : 1 ≤ n) :
    Allocated root d l n fs fs' seq := by
  obtain ⟨hfresh, hlink', hothers, hzero⟩ := clearCluster_of_valid htabled.fresh hc
  rw [← hfs3] at hfresh hlink' hothers hzero
  obtain ⟨hpath', -⟩ := path_linked hpath hlast hc hfree (hlink'.trans hlink)
  have hne : d ≠ 0 := by
    have hrange : 2 ≤ d := hpath.valid_start.1
    omega
  have hslots : ∀ l', dirSlots vol root d l' = chainSlots vol l' := fun _ => if_neg hne
  have hle := hroom.1
  rw [count_chainSlots, length_singleton, Nat.one_mul] at hle
  have happend : ∀ j < perCluster vol,
      (chainSlots vol (l ++ [c])).sector (l.length * perCluster vol + j) =
          (chainSlots vol [c]).sector j ∧
        (l.length * perCluster vol + j) % vol.dirsecNdirs = j % vol.dirsecNdirs :=
    fun j hj => chainSlots_append hfits.slot_le hj
  refine ⟨l ++ [c], l.length * perCluster vol + i, .inr ⟨hne, c, hc, hfree, rfl, ?_⟩, fun _ => ?_,
    ?_, ?_, fun k hk => ?_⟩
  · intro s hs b hb
    rw [hlooks.settled]
    exact hzero s hs b hb
  · rw [hlooks.link_eq hfresh]
    exact hpath'
  · rw [hslots, hlooks.settled]
    refine ⟨?_, fun j hj => ?_⟩
    · rw [count_chainSlots, length_append, length_singleton, Nat.succ_mul]
      omega
    have hj' := hroom.2 j hj
    unfold DirSlots.Free at hj' ⊢
    obtain ⟨hsector, hmod⟩ := happend (i + j) (by omega)
    rw [Nat.add_assoc, hsector, hmod]
    exact hj'
  · rw [hslots]
    obtain ⟨hsector, hmod⟩ := happend i (by omega)
    obtain ⟨hsector', hmod'⟩ := happend (i + n - 1) (by omega)
    have hassoc : l.length * perCluster vol + i + n - 1 =
        l.length * perCluster vol + (i + n - 1) := by omega
    refine ⟨?_, ?_, ?_, ?_⟩
    · rw [hsector]
      exact hseq.lfnsector
    · rw [hmod]
      exact hseq.lfnoffset
    · rw [hassoc, hsector']
      exact hseq.sector
    · rw [hassoc, hmod']
      exact hseq.offset
  · -- the sectors that the directory had are neither of the table nor of the new cluster
    rw [hslots] at hk ⊢
    obtain ⟨x, hx, hholds⟩ := chainSlots_holds hfits.slot_le hk
    have hvalid := hpath.valid hx
    rw [hlooks.settled, hothers, htabled.behind _ (hholds.behind hvalid)]
    intro hholds'
    obtain rfl := hholds.unique hvalid hholds' hc
    exact hpath.next_ne_null hx hfree

theorem looks_allocateLoop_zero {ret : ℤ} (h : fs.Fresh)
    (hrun : fs.allocateLoop root info 0 (fuel + 1) = some (fs', info', ret)) : fs.Looks fs' := by
  rw [allocateLoop] at hrun
  cases hsearch : fs.searchSlots root { info with dir := startDir vol root info.dir 0 } with
  | none =>
    rw [hsearch] at hrun
    exact nomatch hrun
  | some r =>
    have hlooks := looks_searchSlots h hsearch
    rw [hsearch] at hrun
    dsimp only at hrun
    rw [if_pos rfl] at hrun
    split_ifs at hrun
    · cases hrun
      exact hlooks
    · cases hrun
      exact hlooks

/-- The zero of `fat_extendchain`: the law holds exactly if there was nothing to clear and there
is no room where the search goes on. -/
theorem dirLaw_zero_iff {info1 : FatDirinfo} (hasked : DirAsked fs root info l)
    (hpath : vol.links.Path fs.link info.dir.startcluster l) (hlast : l.getLast? = some t)
    (hcluster : info1.dir.currcluster = t) (hlfname : info1.lfname = info.lfname)
    (hex : Exhausted fs root info l) (hlooks : fs.Looks fs₂)
    (hrun : fs.fatAllocatedirentry root info =
      (fs₂.clearCluster 0).allocateLoop root info1 0 (fuel + 1)) :
    DirLaw fs root info l ↔
      ¬ ((∃ i, (blockSlots vol [root.rootbase]).Room vol fs.settled info.slots i) ∨
        ∃ s, (-eINVAL ≤ s ∧ s < -eINVAL + vol.fatsecperclus) ∧
          ∃ b < vol.hwsectorsize, fs.settled s b ≠ 0) := by
  have hslot := hasked.fits.slot_le
  have hmem := mem_of_getLast? hlast
  have hvalid := hpath.valid hmem
  have hslots := FatDirinfo.slots_congr hlfname
  obtain ⟨hfresh, hothers, hzero⟩ := clearCluster_zero fs₂ hvalid
  rw [hlooks.settled] at hothers
  -- if nothing was to be cleared, then the device is the same and so is the table
  have hsame : (∀ s, (-eINVAL ≤ s ∧ s < -eINVAL + vol.fatsecperclus) →
      ∀ b < vol.hwsectorsize, fs.settled s b = 0) →
      SameDevice vol fs.settled (fs₂.clearCluster 0).settled := by
    intro hclear s b hb
    by_cases hs : -eINVAL ≤ s ∧ s < -eINVAL + vol.fatsecperclus
    · rw [hzero s hs b hb, hclear s hs b hb]
    · rw [hothers s hs]
  have hend (hdev : SameDevice vol fs.settled (fs₂.clearCluster 0).settled) :
      vol.links.End ((fs₂.clearCluster 0).link t) := by
    rw [link_eq_of_settled hasked.fresh hfresh fun s _ b hb => hdev s b hb]
    exact hpath.end_getLast hlast
  refine ⟨?_, fun hharm => ?_⟩
  · rintro ⟨fs', info', ret, hret, -, herr⟩ hharm
    obtain ⟨rfl, hdev⟩ := herr hex
    rw [hrun] at hret
    have hlooks' := looks_allocateLoop_zero hfresh hret
    rw [hlooks'.settled] at hdev
    rcases hharm with ⟨i, hroom⟩ | ⟨s, hs, b, hb, hne⟩
    · obtain ⟨fs3, info3, ret3, hret3, hcases⟩ :=
        allocateLoop_zero fuel hasked.fits hfresh hvalid (hend hdev) hcluster
      rw [hret] at hret3
      obtain ⟨-, hpair⟩ := Prod.mk.inj (Option.some.inj hret3)
      cases hpair
      rcases hcases with ⟨hok, -⟩ | ⟨-, -, hfull⟩
      · exact absurd hok (by decide)
      · rw [hslots] at hfull
        exact hfull i ((hdev.room_iff hslot _ _ _).mpr hroom)
    · exact hne ((hdev s b hb).symm.trans (hzero s hs b hb))
  · obtain ⟨hnoroom, hclear⟩ := not_or.mp hharm
    have hdev := hsame fun s hs b hb => by
      by_contra hne
      exact hclear ⟨s, hs, b, hb, hne⟩
    obtain ⟨fs3, info3, ret3, hret3, hcases⟩ :=
      allocateLoop_zero fuel hasked.fits hfresh hvalid (hend hdev) hcluster
    rcases hcases with ⟨-, i, hroom⟩ | ⟨rfl, hlooks₃, -⟩
    · rw [hslots] at hroom
      exact absurd ⟨i, (hdev.room_iff hslot _ _ _).mp hroom⟩ hnoroom
    · refine ⟨fs3, info3, -eNOSPC, hrun.trans hret3, fun hzero => absurd hzero (by decide),
        fun _ => ⟨rfl, ?_⟩⟩
      rw [hlooks₃.settled]
      exact hdev

/-- **Slots for a new name are allocated in the right directory, exactly if the zero of
`fat_extendchain` does no harm**: for every directory of a volume that fits, every name and any
number of free clusters. -/
theorem fatAllocatedirentry_law_iff (hasked : DirAsked fs root info l) :
    DirLaw fs root info l ↔ ¬ Misled fs root info l := by
  rcases hasked.dir with ⟨hstart, hcurr, htype⟩ | hpath
  · exact iff_of_true (dirLaw_root hasked hstart hcurr htype) fun h => h.1 hstart
  have hne : info.dir.startcluster ≠ 0 := by
    have hrange : 2 ≤ info.dir.startcluster := hpath.valid_start.1
    omega
  have hslots : dirSlots vol root info.dir.startcluster l = chainSlots vol l := if_neg hne
  rcases FatMountpt.allocateLoop_chain info (vol.nclusters + 2) hasked.fits hasked.fresh hpath with
    ⟨fs', info', hrun, hlooks, i, hroom, hseq⟩ |
    ⟨hfull, t, fs₂, info₁, hlast, hcluster, hlfname, hcases⟩
  · -- there is room in the directory
    have hroom' : ¬ Exhausted fs root info l := by
      intro hex
      have hnone := hex.1
      rw [hslots] at hnone
      exact hnone i hroom
    refine iff_of_true ⟨fs', info', 0, hrun, fun _ => ?_, fun hex => absurd hex hroom'⟩
      fun h => hroom' h.2.1
    exact .of_looks hasked.fresh hlooks (fun _ => hpath) (hslots ▸ hroom) (hslots ▸ hseq)
  rcases hcases with ⟨hnone, hlooks, hrun⟩ | ⟨c, hc, hfree, htabled, hlink, hrun⟩
  · -- no cluster is free
    have hex : Exhausted fs root info l := ⟨hslots ▸ hfull, hnone⟩
    rw [dirLaw_zero_iff hasked hpath hlast hcluster hlfname hex hlooks hrun]
    exact not_congr ⟨fun h => ⟨hne, hex, h⟩, fun h => h.2.2⟩
  -- a cluster is appended
  have hex : ¬ Exhausted fs root info l := fun hex => hex.2 c hc hfree
  refine iff_of_true ?_ fun h => hex h.2.1
  have hslots₁ := FatDirinfo.slots_congr hlfname
  obtain ⟨hfresh, hlink', -, hzero⟩ := FatMountpt.clearCluster_of_valid htabled.fresh hc
  obtain ⟨-, hpath'⟩ := FatMountpt.path_linked hpath hlast hc hfree (hlink'.trans hlink)
  rcases Nat.lt_or_ge (perCluster vol) info.slots with hlong | hshort
  · have hname := FatDirinfo.slots_le hasked.name
    have hcard : (fs₂.clearCluster c).freeClusters ≤ vol.nclusters := by
      refine (Finset.card_filter_le ..).trans ?_
      rw [Nat.card_Ico]
      omega
    obtain ⟨fs', info', hrun'⟩ := FatMountpt.allocateLoop_long hasked.fits (hslots₁ ▸ hname)
      (hslots₁ ▸ hlong) hfresh hpath' (Nat.add_le_add_right hcard 2)
    exact ⟨fs', info', -eNOSPC, hrun.trans hrun', fun h => absurd h (by decide),
      fun h => absurd h hex⟩
  · have hroom := FatMountpt.room_of_cleared hasked.fits.slot_le hzero hshort
    rcases FatMountpt.allocateLoop_chain info₁ (vol.nclusters + 1) hasked.fits hfresh hpath' with
      ⟨fs', info', hrun', hlooks, i, hroom', hseq⟩ | ⟨hfull', -⟩
    · rw [hslots₁] at hroom' hseq
      exact ⟨fs', info', 0, hrun.trans hrun', fun _ =>
        .of_cleared hasked.fits hpath hlast hc hfree
        htabled hlink rfl hlooks hroom' hseq info.slots_pos, fun h => absurd h hex⟩
    · rw [hslots₁] at hfull'
      exact absurd hroom (hfull' 0)

/-! ### A full directory -/

def smallRoot : FatRoot where
  rootbase := 3
  rootentcnt := 16

theorem fits_smallRoot : smallRoot.Fits smallVolume where
  slot_le := by decide
  rootentcnt_lt := by decide
  rootentcnt_pos _ := by decide
  behind _ := show (1 : ℤ) + (2 * 1 : ℕ) ≤ 3 by decide
  before_data _ := show (3 : ℤ) + ((16 + 16 - 1) / 16 : ℕ) ≤ 4 by decide
  cluster h := nomatch h

/-- No slot of the clusters 2 and 3 is free. -/
def crowded (fs : FatMountpt smallVolume) : FatMountpt smallVolume :=
  { fs with dev := fun s => if s = 4 ∨ s = 5 then fun _ => 0x41 else fs.dev s }

/-- A short file name, in the directory that starts with cluster 2. -/
def shortName : FatDirinfo where
  dir := { startcluster := 2, currcluster := 2, currsector := 4, index := 2 }
  seq := {
    sector := 0
    offset := 0
    cluster := 0
    startsector := 0
    lfnsector := 0
    lfnoffset := 0
    lfncluster := 0 }
  lfname := []

theorem path_crowded_smallMount : smallVolume.links.Path (crowded smallMount).link 2 [2, 3] := by
  refine .cons ⟨by decide, by decide⟩ ?_
  refine .last ⟨by decide, by decide⟩ ?_
  exact ⟨by decide, by decide⟩

theorem link_crowded_fullMount : (crowded fullMount).link = fullMount.link := by
  refine link_eq_of_settled (fun h => nomatch h) (fun h => nomatch h) fun s hs i _ => ?_
  obtain rfl : s = 1 := by
    have hlow : 1 ≤ s := hs.1
    have hhigh : s < 1 + (1 : ℕ) := hs.2
    omega
  rfl

theorem fatAllocatedirentry_law_iff_small :
    ((crowded smallMount).fatAllocatedirentry smallRoot shortName).map
        (fun r => (r.2.2, r.2.1.seq.sector, r.2.1.seq.offset)) = some (0, 6, 0) ∧
      DirLaw (crowded smallMount) smallRoot shortName [2, 3] := by
  refine ⟨by decide +kernel, (fatAllocatedirentry_law_iff ?_).mpr fun hmisled => ?_⟩
  · exact ⟨fun _ => rfl, fits_smallRoot, by decide, .inr path_crowded_smallMount⟩
  · have hfree : (crowded smallMount).link 4 = 0 := by decide +kernel
    exact hmisled.2.1.2 4 ⟨by decide, by decide⟩ hfree

/-- **A slot of the root directory is handed out for a file of another directory.** The directory
that starts with cluster 2 is full, and so is the volume. -/
theorem fatAllocatedirentry_root :
    smallVolume.links.WellFormed (crowded fullMount).link {2, 4} ∧
      DirAsked (crowded fullMount) smallRoot shortName [2, 3] ∧
      ((crowded fullMount).fatAllocatedirentry smallRoot shortName).map
        (fun r => (r.2.2, r.2.1.seq.sector, r.2.1.seq.offset)) = some (0, 3, 0) ∧
      ¬ DirLaw (crowded fullMount) smallRoot shortName [2, 3] := by
  have hret : ((crowded fullMount).fatAllocatedirentry smallRoot shortName).map
      (fun r => (r.2.2, r.2.1.seq.sector, r.2.1.seq.offset)) = some (0, 3, 0) := by decide +kernel
  refine ⟨?_, ⟨(fun h => nomatch h), fits_smallRoot, by decide, .inr ?_⟩, hret, ?_⟩
  · rw [link_crowded_fullMount]
    exact wellFormed_fullMount
  · rw [link_crowded_fullMount]
    exact path_fullMount_two
  rintro ⟨fs', info', ret, hrun, -, herr⟩
  rw [hrun] at hret
  obtain ⟨hzero, -⟩ := Prod.mk.inj (Option.some.inj hret)
  have hex : Exhausted (crowded fullMount) smallRoot shortName [2, 3] := by
    refine ⟨fun i hroom => ?_, fun c hc => ?_⟩
    · -- every slot of the two clusters begins with the byte `0x41`
      have htaken : ∀ i < (chainSlots smallVolume [2, 3]).count, dirEmpty
          ((crowded fullMount).settled ((chainSlots smallVolume [2, 3]).sector i)
            (i % smallVolume.dirsecNdirs * 32)) = false := by decide +kernel
      exact absurd ((htaken i hroom.1).symm.trans (hroom.2 0 (by decide))) nofun
    · rw [link_crowded_fullMount]
      exact link_fullMount_ne_zero hc
  have hnospc := (herr hex).1
  rw [show ret = 0 from hzero] at hnospc
  exact absurd hnospc (by decide)

end NuttX
