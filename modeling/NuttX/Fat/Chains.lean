import NuttX.Fat.Table
import NuttX.Lib.Links

/-!
# Chains of clusters in the file allocation table

The entries of the table are links in the sense of `NuttX.Links`: `NuttX.FatMountpt.link` is what
`fat_getcluster` returns, a value from `fs_nclusters` on ends a chain and zero is the entry of a
free cluster. With the lemmas of `NuttX.Fat.Table` the table that `fat_extendchain` leaves is the
old one with one or two entries changed, and the one that `fat_removechain` leaves the old one
with a chain of entries set to zero. The search of `fat_extendchain` for a free cluster goes up
from where it starts to the end of the table and then from cluster 2 up to where it started, and
so it finds a free cluster if there is one (`NuttX.FatMountpt.fatExtendchain_zero`).
-/

namespace NuttX

open Function List

/-- Entries of the table as links. Where the volume has clusters at all, an entry from
`fs_nclusters` on is not zero. -/
def FatVolume.links (vol : FatVolume) : Links ℕ where
  Valid c := 2 ≤ c ∧ c < vol.nclusters
  End v := 0 < v ∧ vol.nclusters ≤ v
  null := 0
  not_valid_of_end h h' := by omega
  not_valid_null h := by omega
  not_end_null h := by omega

/-- A volume of `fat12` with the clusters 2, 3 and 4. -/
def smallVolume : FatVolume where
  type := .fat12
  hwsectorsize := 512
  fatsecperclus := 1
  fatbase := 1
  nfatsects := 1
  fatnumfats := 2
  database := 4
  nclusters := 5
  hwsectorsize_eq := ⟨7, rfl⟩
  hwsectorsize_lt := by decide
  fatsecperclus_eq := ⟨0, by decide, rfl⟩
  entries_fit := by decide
  nclusters_lt := by decide
  fatbase_nonneg := by decide
  fat_before_data := by decide
  one_le_fatnumfats := by decide
  sectors_fit := by decide

/-- The bytes of a table of `fat12` in which cluster 2 is followed by cluster 3, and nothing follows
that. -/
def smallFat : ℕ → UInt8
  | 3 => 0x03
  | 4 => 0xf0
  | 5 => 0xff
  | _ => 0

/-- The small volume, mounted. One cluster is free, and none is known to be. -/
def smallMount : FatMountpt smallVolume where
  dev s := if s = 1 ∨ s = 2 then smallFat else fun _ => 0
  buffer := smallFat
  currentsector := 1
  dirty := false
  fsifreecount := 0
  fsinextfree := 0
  fsidirty := false
  writes := []

namespace FatType

theorem entry_congr {p q : ℕ → UInt8} (t : FatType) {c : ℕ}
    (h : ∀ k, 2 * k < (c + 1) * t.nibbles → p k = q k) : t.entry p c = t.entry q c := by
  cases t with
  | fat12 =>
    simp only [nibbles] at h
    rw [entry, entry, h _ (by omega), h (c * 3 / 2 + 1) (by omega)]
  | fat16 =>
    simp only [nibbles] at h
    exact fatGetfat16_congr fun k hk => h _ (by omega)
  | fat32 =>
    simp only [nibbles] at h
    rw [entry, entry, fatGetfat32_congr fun k hk => h _ (by omega)]

end FatType

namespace FatMountpt

variable {vol : FatVolume} {fs fs' fs₁ : FatMountpt vol} {c v : ℕ} {cluster : ℕ} {l : List ℕ}
  {P Q : ℕ → Prop}

/-! ### The table as a function -/

/-- The entry at a cluster, as `fat_getcluster` returns it. -/
def link {g : FatGeometry} (fs : FatMountpt g) (c : ℕ) : ℕ := (fs.fatGetcluster c).2.toNat

def freeClusters {g : FatGeometry} (fs : FatMountpt g) : ℕ :=
  ((Finset.Ico 2 g.nclusters).filter fun c => fs.link c = 0).card

theorem link_of_valid (h : fs.Coherent) (hc : vol.links.Valid c) :
    fs.link c = vol.type.entry fs.fatByte c := by
  rw [link, (fatGetcluster_spec h hc).2, Int.toNat_natCast]

theorem link_of_not_valid (fs : FatMountpt vol) (hc : ¬ vol.links.Valid c) : fs.link c = 0 := by
  have hrange : ¬ (2 ≤ c ∧ c < vol.nclusters) := hc
  rw [link, fatGetcluster, if_neg hrange]
  rfl

theorem fatGetcluster_snd (h : fs.Coherent) (hc : vol.links.Valid c) :
    (fs.fatGetcluster c).2 = fs.link c := by
  rw [link_of_valid h hc, (fatGetcluster_spec h hc).2]

theorem Reads.link_eq (h : fs.Coherent) (hreads : fs.Reads fs') : fs'.link = fs.link := by
  funext c
  by_cases hc : vol.links.Valid c
  · rw [link_of_valid hreads.coherent hc, link_of_valid h hc]
    exact vol.type.entry_congr fun k hk => hreads.bytes k (inFat_entry hc.2 hk)
  · rw [link_of_not_valid _ hc, link_of_not_valid _ hc]

theorem Writes.link_eq (h : fs.Coherent) (hwrites : fs.Writes fs' c v) (hc : vol.links.Valid c) :
    fs'.link = update fs.link c (v % 2 ^ vol.type.bits) := by
  funext x
  by_cases hx : vol.links.Valid x
  · have hentry : fs'.link x = vol.type.entry (vol.type.setEntry fs.fatByte c v) x := by
      rw [link_of_valid hwrites.coherent hx]
      exact vol.type.entry_congr fun k hk => hwrites.bytes k (inFat_entry hx.2 hk)
    rw [hentry]
    rcases eq_or_ne x c with rfl | hne
    · rw [FatType.entry_setEntry_self, update_self]
    · rw [FatType.entry_setEntry_of_ne _ _ _ hne, update_of_ne hne, link_of_valid h hx]
  · have hne : x ≠ c := fun heq => hx (heq ▸ hc)
    rw [link_of_not_valid _ hx, update_of_ne hne, link_of_not_valid _ hx]

theorem link_congr (hdev : fs'.dev = fs.dev) (hbuffer : fs'.buffer = fs.buffer)
    (hcur : fs'.currentsector = fs.currentsector) (hdirty : fs'.dirty = fs.dirty)
    (h : fs.Coherent) : fs'.Coherent ∧ fs'.link = fs.link := by
  have h' : fs'.Coherent := by
    unfold Coherent
    rw [hdev, hbuffer, hcur, hdirty]
    exact h
  refine ⟨h', funext fun c => ?_⟩
  by_cases hc : vol.links.Valid c
  · have hbyte : fs'.fatByte = fs.fatByte := by
      funext i
      rw [fatByte, fatByte, hdev, hbuffer, hcur]
    rw [link_of_valid h' hc, link_of_valid h hc, hbyte]
  · rw [link_of_not_valid _ hc, link_of_not_valid _ hc]

theorem countFreed_link (h : fs.Coherent) :
    fs.countFreed.Coherent ∧ fs.countFreed.link = fs.link := by
  unfold countFreed
  split_ifs
  · exact link_congr rfl rfl rfl rfl h
  · exact ⟨h, rfl⟩

theorem countTaken_link (h : fs.Coherent) :
    fs.countTaken.Coherent ∧ fs.countTaken.link = fs.link := by
  unfold countTaken
  split_ifs
  · exact link_congr rfl rfl rfl rfl h
  · exact ⟨h, rfl⟩

/-! ### Linking a free cluster -/

/-- The mark that `fat_extendchain` writes, as far as an entry has room for it. -/
def endMark (vol : FatVolume) : ℕ := 0x0fffffff % 2 ^ vol.type.bits

theorem end_endMark (vol : FatVolume) : vol.links.End (endMark vol) := by
  have hlt := vol.nclusters_lt
  show 0 < endMark vol ∧ vol.nclusters ≤ endMark vol
  unfold endMark
  cases ht : vol.type with
  | fat12 | fat16 | fat32 =>
    simp only [ht, FatType.bits] at hlt ⊢
    omega

/-- The table with a new cluster, linked from `cluster` unless that is zero. -/
def linked (fs : FatMountpt vol) (cluster c : ℕ) : ℕ → ℕ :=
  if cluster = 0 then update fs.link c (endMark vol)
  else update (update fs.link c (endMark vol)) cluster c

/-- What taking the free cluster `c` leaves. -/
structure Takes (fs fs' : FatMountpt vol) (cluster c : ℕ) : Prop where
  coherent : fs'.Coherent
  link : fs'.link = fs.linked cluster c
  freecount : fs'.fsifreecount =
    if fs.fsifreecount ≠ 0xffffffff then fs.fsifreecount - 1 else fs.fsifreecount

theorem Takes.of_count {next : UInt32} (h : fs₁.Coherent) (hlink : fs₁.link = fs.linked cluster c)
    (hcount : fs₁.fsifreecount = fs.fsifreecount) :
    fs.Takes (countTaken { fs₁ with fsinextfree := next }) cluster c := by
  have hsame : Coherent { fs₁ with fsinextfree := next } ∧
      FatMountpt.link { fs₁ with fsinextfree := next } = fs₁.link := link_congr rfl rfl rfl rfl h
  obtain ⟨hcoh2, hlink2⟩ := hsame
  obtain ⟨hcoh3, hlink3⟩ := countTaken_link hcoh2
  refine ⟨hcoh3, hlink3.trans (hlink2.trans hlink), ?_⟩
  rw [← hcount]
  unfold countTaken
  split_ifs <;> rfl

theorem linkCluster_spec (h : fs.Coherent) (hc : vol.links.Valid c)
    (hcluster : cluster = 0 ∨ vol.links.Valid cluster) :
    fs.Takes (fs.linkCluster cluster c).1 cluster c ∧ (fs.linkCluster cluster c).2 = c := by
  obtain ⟨hput, hret⟩ := fatPutcluster_spec h hc 0x0fffffff
  have hlink := hput.link_eq h hc
  have hmod : c % 2 ^ vol.type.bits = c := Nat.mod_eq_of_lt (hc.2.trans vol.nclusters_lt)
  unfold linkCluster
  rw [if_neg (by omega)]
  by_cases hzero : cluster = 0
  · rw [if_neg (not_not.mpr hzero), if_neg (Int.lt_irrefl 0)]
    refine ⟨.of_count hput.coherent ?_ hput.freecount, rfl⟩
    rw [hlink, linked, if_pos hzero, endMark]
  have hvalid := hcluster.resolve_left hzero
  obtain ⟨hput', hret'⟩ := fatPutcluster_spec hput.coherent hvalid c
  rw [if_pos hzero, if_neg (by omega)]
  refine ⟨.of_count hput'.coherent ?_ (hput'.freecount.trans hput.freecount), rfl⟩
  rw [hput'.link_eq hput.coherent hvalid, hlink, hmod, linked, if_neg hzero, endMark]

/-! ### The search for a free cluster -/

/-- What a search among some clusters ends with: none of them is free, or one is and is taken. -/
def Searched (fs : FatMountpt vol) (cluster : ℕ) (P : ℕ → Prop)
    (r : Option (FatMountpt vol × ℤ)) : Prop :=
  (∃ fs', fs.Reads fs' ∧ r = some (fs', 0) ∧ ∀ c, P c → fs.link c ≠ 0) ∨
    ∃ c fs₁, P c ∧ fs.link c = 0 ∧ fs.Reads fs₁ ∧ r = some (fs₁.linkCluster cluster c)

theorem Searched.skip {cluster x : ℕ} {r : Option (FatMountpt vol × ℤ)} (h : fs.Coherent)
    (hreads : fs.Reads fs₁) (hx : fs.link x ≠ 0) (hPQ : ∀ c, P c → c = x ∨ Q c)
    (hQP : ∀ c, Q c → P c) (hr : fs₁.Searched cluster Q r) : fs.Searched cluster P r := by
  rcases hr with ⟨fs', hreads', hr, hnone⟩ | ⟨c, fs2, hc, hfree, hreads', hr⟩
  · refine .inl ⟨fs', hreads.trans hreads', hr, fun c hc => ?_⟩
    rcases hPQ c hc with rfl | hc
    · exact hx
    · rw [← hreads.link_eq h]
      exact hnone c hc
  · rw [hreads.link_eq h] at hfree
    exact .inr ⟨c, fs2, hQP c hc, hfree, hreads.trans hreads', hr⟩

theorem Searched.congr {r : Option (FatMountpt vol × ℤ)} (hr : fs.Searched cluster Q r)
    (hPQ : ∀ c, P c ↔ Q c) : fs.Searched cluster P r := by
  rw [show P = Q from funext fun c => propext (hPQ c)]
  exact hr

/-- One step of the search, at a cluster of the table. -/
theorem extendLoop_step {cluster start k fuel x : ℕ} (h : fs.Coherent) (hx : vol.links.Valid x)
    (hwrap : ¬ (vol.nclusters ≤ k + 1 ∧ start < 2))
    (hcand : (if vol.nclusters ≤ k + 1 then 2 else k + 1) = x) (hPx : P x)
    (hPQ : ∀ c, P c → c = x ∨ Q c) (hQP : ∀ c, Q c → P c) (hlast : x = start → ∀ c, ¬ Q c)
    (hnext : x ≠ start → ∀ fs₁, fs.Reads fs₁ →
      fs₁.Searched cluster Q (fs₁.extendLoop cluster start x fuel)) :
    fs.Searched cluster P (fs.extendLoop cluster start k (fuel + 1)) := by
  obtain ⟨hreads, -⟩ := fatGetcluster_spec h hx
  have hret := fatGetcluster_snd h hx
  rw [extendLoop, if_neg hwrap, hcand]
  by_cases hfree : fs.link x = 0
  · rw [if_pos (by omega)]
    exact .inr ⟨x, _, hPx, hfree, hreads, rfl⟩
  rw [if_neg (by omega), if_neg (by omega)]
  refine Searched.skip h hreads hfree hPQ hQP ?_
  by_cases hstart : x = start
  · rw [if_pos hstart]
    exact .inl ⟨_, .refl hreads.coherent, rfl, fun c hc => absurd hc (hlast hstart c)⟩
  · rw [if_neg hstart]
    exact hnext hstart _ hreads

theorem searched_below {cluster start : ℕ} (hstart : start < vol.nclusters) (fuel k : ℕ)
    (fs : FatMountpt vol) (h : fs.Coherent) (hk : 1 ≤ k) (hks : k < start)
    (hfuel : start - k ≤ fuel) :
    fs.Searched cluster (fun c => k < c ∧ c ≤ start) (fs.extendLoop cluster start k fuel) := by
  induction fuel generalizing k fs with
  | zero => omega
  | succ fuel ih =>
    refine extendLoop_step (Q := fun c => k + 1 < c ∧ c ≤ start) h ⟨by omega, by omega⟩
      (by omega) (if_neg (by omega)) (by omega) (by omega) (by omega) (by omega) ?_
    intro hne fs₁ hreads
    exact ih (k + 1) fs₁ hreads.coherent (by omega) (by omega) (by omega)

/-- **The search of `fat_extendchain`**: from where it starts up to the end of the table, and then
from cluster 2 up to where it started. -/
theorem searched_from (cluster start : ℕ) (hstart : start < vol.nclusters ∨ start = 1)
    (hone : 1 ≤ start) (fuel k : ℕ) (fs : FatMountpt vol) (h : fs.Coherent) (hk : start ≤ k)
    (hfuel : vol.nclusters - k + start ≤ fuel) :
    fs.Searched cluster (fun c => (k < c ∧ c < vol.nclusters) ∨ (2 ≤ c ∧ c ≤ start))
      (fs.extendLoop cluster start k fuel) := by
  induction fuel generalizing k fs with
  | zero => omega
  | succ fuel ih =>
    by_cases hend : vol.nclusters ≤ k + 1
    · by_cases htwo : start < 2
      · rw [extendLoop, if_pos ⟨hend, htwo⟩]
        exact .inl ⟨fs, .refl h, rfl, fun c hc => by omega⟩
      -- Cluster 2 is examined next, and then the clusters below the start.
      refine extendLoop_step (Q := fun c => 2 < c ∧ c ≤ start) h ⟨by omega, by omega⟩
        (by omega) (if_pos hend) (by omega) (by omega) (by omega) (by omega) ?_
      intro hne fs₁ hreads
      exact searched_below (by omega) fuel 2 fs₁ hreads.coherent (by omega) (by omega) (by omega)
    · refine extendLoop_step
        (Q := fun c => (k + 1 < c ∧ c < vol.nclusters) ∨ (2 ≤ c ∧ c ≤ start)) h ⟨by omega, by omega⟩
        (by omega) (if_neg hend) (by omega) (by omega) (by omega) (by omega) ?_
      intro hne fs₁ hreads
      exact ih (k + 1) fs₁ hreads.coherent (by omega) (by omega)

/-- What `fat_extendchain` returns for the last cluster of a chain, or for zero. -/
theorem fatExtendchain_spec (cluster : ℕ) (h : fs.Coherent)
    (hcluster : cluster = 0 ∨ vol.links.Valid cluster ∧ vol.links.End (fs.link cluster)) :
    ∃ fs' r, fs.fatExtendchain cluster = some (fs', r) ∧
      ((r = 0 ∧ (∀ c, vol.links.Valid c → fs.link c ≠ 0) ∧ fs.Reads fs') ∨
        ∃ c : ℕ, r = c ∧ vol.links.Valid c ∧ fs.link c = 0 ∧ fs.Takes fs' cluster c) := by
  have hsearch : fs.Searched cluster vol.links.Valid (fs.fatExtendchain cluster) := by
    rcases hcluster with rfl | ⟨hvalid, hend⟩
    · -- A bad hint is replaced by the beginning of the table.
      rw [fatExtendchain, if_pos rfl]
      split_ifs with hhint
      · have hall := searched_from 0 1 (.inr rfl) (Nat.le_refl 1) (vol.nclusters + 1) 1
          fs h (Nat.le_refl 1) (by omega)
        exact hall.congr fun c => by
          show 2 ≤ c ∧ c < vol.nclusters ↔ _
          omega
      · have hpos : fs.fsinextfree.toNat ≠ 0 := fun hzero => hhint
          (.inl (UInt32.toNat_inj.mp hzero))
        have hall := searched_from 0 fs.fsinextfree.toNat (.inl (by omega))
          (by omega) (vol.nclusters + 1) fs.fsinextfree.toNat fs h (Nat.le_refl _) (by omega)
        exact hall.congr fun c => by
          show 2 ≤ c ∧ c < vol.nclusters ↔ _
          omega
    · obtain ⟨hreads, -⟩ := fatGetcluster_spec h hvalid
      have hret := fatGetcluster_snd h hvalid
      have hrange : 2 ≤ cluster ∧ cluster < vol.nclusters := hvalid
      have hmark : 0 < fs.link cluster ∧ vol.nclusters ≤ fs.link cluster := hend
      rw [fatExtendchain, if_neg (by omega)]
      rw [if_neg (by omega), if_neg (by omega), if_neg (by omega)]
      have hall := searched_from cluster cluster (.inl hrange.2) (by omega)
        (vol.nclusters + 1) cluster _ hreads.coherent (Nat.le_refl _) (by omega)
      refine Searched.skip (x := cluster) h hreads (by omega) (fun c hc => .inr ?_) (fun c hc => ?_)
        hall
      · have hc' : 2 ≤ c ∧ c < vol.nclusters := hc
        omega
      · show 2 ≤ c ∧ c < vol.nclusters
        omega
  rcases hsearch with ⟨fs', hreads, hr, hnone⟩ | ⟨c, fs₁, hc, hfree, hreads, hr⟩
  · exact ⟨fs', 0, hr, .inl ⟨rfl, hnone, hreads⟩⟩
  obtain ⟨htakes, hret⟩ := linkCluster_spec hreads.coherent hc (hcluster.imp_right And.left)
  refine ⟨(fs₁.linkCluster cluster c).1, _, hr, .inr ⟨c, hret, hc, hfree, htakes.coherent, ?_, ?_⟩⟩
  · rw [htakes.link, linked, linked, hreads.link_eq h]
  · rw [htakes.freecount, hreads.freecount]

/-! ### Removing a chain -/

theorem free_step (h : fs.Coherent) (hc : vol.links.Valid c) :
    ((fs.fatGetcluster c).1.fatPutcluster c 0).2 = 0 ∧
      ((fs.fatGetcluster c).1.fatPutcluster c 0).1.countFreed.Coherent ∧
      ((fs.fatGetcluster c).1.fatPutcluster c 0).1.countFreed.link = update fs.link c 0 ∧
      ((fs.fatGetcluster c).1.fatPutcluster c 0).1.countFreed.fsifreecount =
        if fs.fsifreecount ≠ 0xffffffff then fs.fsifreecount + 1 else fs.fsifreecount := by
  obtain ⟨hreads, -⟩ := fatGetcluster_spec h hc
  obtain ⟨hwrites, hret⟩ := fatPutcluster_spec hreads.coherent hc 0
  obtain ⟨hcoh, hlink⟩ := countFreed_link hwrites.coherent
  refine ⟨hret, hcoh, ?_, ?_⟩
  · rw [hlink, hwrites.link_eq hreads.coherent hc, hreads.link_eq h, Nat.zero_mod]
  · rw [← hreads.freecount, ← hwrites.freecount]
    unfold countFreed
    split_ifs <;> rfl

/-- **The loop of `fat_removechain`.** The induction is on the chain: what is left of it does not
come back to the cluster that has been set free. -/
theorem removeLoop_spec {s : ℕ} (hpath : vol.links.Path fs.link s l) (h : fs.Coherent) {fuel : ℕ}
    (hfuel : l.length < fuel) :
    ∃ fs', fs.removeLoop s fuel = some (fs', 0) ∧ fs'.Coherent ∧ (∀ x ∈ l, fs'.link x = 0) ∧
      (∀ x, x ∉ l → fs'.link x = fs.link x) ∧
      (fs.fsifreecount ≠ 0xffffffff → fs.fsifreecount.toNat + l.length ≤ 0xffffffff →
        fs'.fsifreecount.toNat = fs.fsifreecount.toNat + l.length) := by
  induction l generalizing fs s fuel with
  | nil => exact absurd rfl hpath.ne_nil
  | cons a l ih =>
    obtain ⟨fuel, rfl⟩ : ∃ n, fuel = n + 1 := ⟨fuel - 1, by omega⟩
    obtain rfl : s = a := by
      cases hpath with
      | last _ _ | cons _ _ => rfl
    have hvalid := hpath.valid_start
    have hrange : 2 ≤ s ∧ s < vol.nclusters := hvalid
    have hret := fatGetcluster_snd h hvalid
    obtain ⟨hret', hcoh, hlink, hcount⟩ := free_step h hvalid
    have hstep : fs.removeLoop s (fuel + 1) =
        ((fs.fatGetcluster s).1.fatPutcluster s 0).1.countFreed.removeLoop (fs.link s) fuel := by
      rw [removeLoop, if_pos hrange]
      rw [if_neg (by omega), if_neg (by omega)]
      rfl
    have hone : fs.fsifreecount ≠ 0xffffffff → fs.fsifreecount.toNat + 1 ≤ 0xffffffff →
        (if fs.fsifreecount ≠ 0xffffffff then fs.fsifreecount + 1 else fs.fsifreecount).toNat =
          fs.fsifreecount.toNat + 1 := by
      intro hknown hle
      rw [if_pos hknown, UInt32.toNat_add, UInt32.toNat_one]
      omega
    rw [hstep]
    generalize ((fs.fatGetcluster s).1.fatPutcluster s 0).1.countFreed = fs₁ at hcoh hlink hcount
    have hnodup := nodup_cons.mp hpath.nodup
    cases hpath with
    | last _ hend =>
      -- The link of the last cluster is not a cluster, and the loop ends.
      have hmark : 0 < fs.link s ∧ vol.nclusters ≤ fs.link s := hend
      obtain ⟨fuel, rfl⟩ : ∃ n, fuel = n + 1 := ⟨fuel - 1, by simp at hfuel; omega⟩
      refine ⟨fs₁, ?_, hcoh, ?_, ?_, ?_⟩
      · rw [removeLoop, if_neg (by omega)]
      · intro x hx
        rw [mem_singleton.mp hx, hlink, update_self]
      · intro x hx
        rw [hlink, update_of_ne (ne_of_not_mem_cons hx)]
      · intro hknown hle
        rw [hcount]
        exact hone hknown hle
    | cons _ htail =>
      have hrest : vol.links.Path fs₁.link (fs.link s) l := by
        refine htail.congr fun x hx => ?_
        have hne : x ≠ s := fun heq => hnodup.1 (heq ▸ hx)
        rw [hlink, update_of_ne hne]
      obtain ⟨fs', hr, hcoh', hfreed, hkept, hcount'⟩ :=
        ih hrest hcoh (Nat.lt_of_succ_lt_succ hfuel)
      have hlen := length_pos_of_ne_nil htail.ne_nil
      refine ⟨fs', hr, hcoh', ?_, ?_, ?_⟩
      · intro x hx
        rcases mem_cons.mp hx with rfl | hx
        · rw [hkept x hnodup.1, hlink, update_self]
        · exact hfreed x hx
      · intro x hx
        rw [hkept x (not_mem_of_not_mem_cons hx), hlink, update_of_ne (ne_of_not_mem_cons hx)]
      intro hknown hle
      rw [length_cons] at hle ⊢
      have hfirst := hone hknown (by omega)
      rw [← hcount] at hfirst
      rw [hcount' (fun heq => ?_) (by omega)]
      · omega
      · rw [heq] at hfirst
        have hmax : (0xffffffff : UInt32).toNat = 0xffffffff := rfl
        omega

/-! ### Ownership -/

/-- The number of free clusters that is kept has followed the number of free clusters, if what it
should be then is a number of 32 bits. -/
def CountFollows (fs fs' : FatMountpt vol) : Prop :=
  fs.fsifreecount ≠ 0xffffffff →
    0 ≤ (fs.fsifreecount.toNat : ℤ) + fs'.freeClusters - fs.freeClusters →
    (fs.fsifreecount.toNat : ℤ) + fs'.freeClusters - fs.freeClusters ≤ 0xffffffff →
    (fs'.fsifreecount.toNat : ℤ) = fs.fsifreecount.toNat + fs'.freeClusters - fs.freeClusters

theorem CountFollows.of_reads (h : fs.Coherent) (hreads : fs.Reads fs') :
    fs.CountFollows fs' := by
  intro _ _ _
  have hfree : fs'.freeClusters = fs.freeClusters := by
    rw [freeClusters, freeClusters, hreads.link_eq h]
  rw [hreads.freecount, hfree]
  omega

/-- The clusters of a new table that are still free. -/
theorem linked_eq_zero_iff {cluster x : ℕ} (hc : vol.links.Valid c) (hfree : fs.link c = 0)
    (hcluster : cluster = 0 ∨ fs.link cluster ≠ 0) :
    fs.linked cluster c x = 0 ↔ x ≠ c ∧ fs.link x = 0 := by
  have hmark := (end_endMark vol).1
  have hrange : 2 ≤ c ∧ c < vol.nclusters := hc
  unfold linked
  split_ifs with hzero
  · rcases eq_or_ne x c with rfl | hne
    · rw [update_self]
      omega
    · rw [update_of_ne hne]
      tauto
  rcases eq_or_ne x cluster with rfl | hne
  · rw [update_self]
    omega
  rw [update_of_ne hne]
  rcases eq_or_ne x c with rfl | hne'
  · rw [update_self]
    omega
  · rw [update_of_ne hne']
    tauto

theorem freeClusters_of_linked (hlink : fs'.link = fs.linked cluster c) (hc : vol.links.Valid c)
    (hfree : fs.link c = 0) (hcluster : cluster = 0 ∨ fs.link cluster ≠ 0) :
    fs'.freeClusters + 1 = fs.freeClusters := by
  have hmem : c ∈ (Finset.Ico 2 vol.nclusters).filter fun x => fs.link x = 0 :=
    Finset.mem_filter.mpr ⟨Finset.mem_Ico.mpr hc, hfree⟩
  have herase : ((Finset.Ico 2 vol.nclusters).filter fun x => fs'.link x = 0) =
      ((Finset.Ico 2 vol.nclusters).filter fun x => fs.link x = 0).erase c := by
    ext x
    simp only [Finset.mem_filter, Finset.mem_erase, hlink, linked_eq_zero_iff hc hfree hcluster]
    tauto
  unfold FatMountpt.freeClusters
  rw [herase, Finset.card_erase_add_one hmem]

theorem Takes.countFollows (htakes : fs.Takes fs' cluster c) (hc : vol.links.Valid c)
    (hfree : fs.link c = 0) (hcluster : cluster = 0 ∨ fs.link cluster ≠ 0) :
    fs.CountFollows fs' := by
  have hone := freeClusters_of_linked htakes.link hc hfree hcluster
  intro hknown hlow _
  have hpos : (1 : UInt32) ≤ fs.fsifreecount := by
    rw [UInt32.le_iff_toNat_le, UInt32.toNat_one]
    omega
  rw [htakes.freecount, if_pos hknown, UInt32.toNat_sub_of_le _ _ hpos, UInt32.toNat_one]
  omega

theorem freeClusters_of_removed {s : ℕ} (hpath : vol.links.Path fs.link s l)
    (hfreed : ∀ x ∈ l, fs'.link x = 0) (hkept : ∀ x, x ∉ l → fs'.link x = fs.link x) :
    fs'.freeClusters = fs.freeClusters + l.length := by
  have hunion : ((Finset.Ico 2 vol.nclusters).filter fun x => fs'.link x = 0) =
      ((Finset.Ico 2 vol.nclusters).filter fun x => fs.link x = 0) ∪ l.toFinset := by
    ext x
    by_cases hx : x ∈ l
    · have hvalid : 2 ≤ x ∧ x < vol.nclusters := hpath.valid hx
      simp [hx, hfreed x hx, hvalid]
    · simp [hx, hkept x hx]
  have hdisjoint : Disjoint ((Finset.Ico 2 vol.nclusters).filter fun x => fs.link x = 0)
      l.toFinset := by
    rw [Finset.disjoint_right]
    intro x hx hmem
    exact hpath.next_ne_null (mem_toFinset.mp hx) (Finset.mem_filter.mp hmem).2
  rw [freeClusters, hunion, Finset.card_union_of_disjoint hdisjoint,
    toFinset_card_of_nodup hpath.nodup, freeClusters]

theorem length_le_of_path {s : ℕ} (hpath : vol.links.Path fs.link s l) :
    l.length ≤ vol.nclusters := by
  have hsub : l.toFinset ⊆ Finset.range vol.nclusters := by
    intro x hx
    exact Finset.mem_range.mpr (hpath.valid (mem_toFinset.mp hx)).2
  have hcard := Finset.card_le_card hsub
  rwa [toFinset_card_of_nodup hpath.nodup, Finset.card_range] at hcard

/-- **`fat_removechain` sets the clusters of a chain free.** -/
theorem fatRemovechain_spec {s : ℕ} (h : fs.Coherent) (hpath : vol.links.Path fs.link s l) :
    ∃ fs', fs.fatRemovechain s = some (fs', 0) ∧ fs'.Coherent ∧ (∀ x ∈ l, fs'.link x = 0) ∧
      (∀ x, x ∉ l → fs'.link x = fs.link x) ∧ fs.CountFollows fs' := by
  obtain ⟨fs', hr, hcoh, hfreed, hkept, hcount⟩ :=
    removeLoop_spec hpath h (Nat.lt_succ_of_le (length_le_of_path hpath))
  refine ⟨fs', hr, hcoh, hfreed, hkept, fun hknown _ hle => ?_⟩
  have hfree := freeClusters_of_removed hpath hfreed hkept
  have hnew := hcount hknown (by omega)
  omega

theorem coherent_smallMount : smallMount.Coherent := fun _ _ => rfl

theorem path_smallMount : smallVolume.links.Path smallMount.link 2 [2, 3] := by
  refine .cons ⟨by decide, by decide⟩ ?_
  refine .last ⟨by decide, by decide⟩ ?_
  exact ⟨by decide, by decide⟩

theorem wellFormed_smallMount :
    smallVolume.links.WellFormed smallMount.link {2} := by
  refine ⟨?_, ?_, ?_⟩
  · rintro s rfl
    exact ⟨_, path_smallMount⟩
  · rintro s rfl t rfl hne
    exact absurd rfl hne
  intro c hc hused
  have hrange : 2 ≤ c ∧ c < 5 := hc
  have hfour : smallMount.link 4 = 0 := by decide +kernel
  refine ⟨2, rfl, _, path_smallMount, ?_⟩
  obtain ⟨h0, h1⟩ := hrange
  interval_cases c
  · decide
  · decide
  · exact absurd hfour hused

end FatMountpt

end NuttX
