import NuttX.Mm.Align

/-!
# What a critical section does to the heap

The functions of the memory manager change a layout at one place. Seen from outside, what matters is
which chunks are used before and after (`NuttX.MmLayout.used`), that the regions stay where they are
(`NuttX.MmLayout.spans`), that no two free chunks come to lie side by side
(`NuttX.MmLayout.Coalesced`), and that sizes which are multiples of 16 stay so
(`NuttX.MmLayout.Even`). `NuttX.Alters` puts this together, and there is one lemma for each critical
section: `NuttX.HeapWhole.malloc`, `NuttX.HeapWhole.free`, `NuttX.HeapWhole.realloc` and
`NuttX.HeapWhole.align`.
-/

namespace NuttX

open MmCtx List

/-! ### What can be seen of a layout -/

/-- The used chunks: their addresses and sizes. -/
def MmLayout.used (L : MmLayout) : Set (ℕ × ℕ) := {q | (q.1, (⟨q.2, true⟩ : Chunk)) ∈ L.bodies}

def MmLayout.spans (L : MmLayout) : List (ℕ × ℕ) := L.map fun R => (R.base, R.last)

def OneUsed (c d : Chunk) : Prop := c.used = true ∨ d.used = true

/-- No two free chunks lie side by side. -/
def MmLayout.Coalesced (L : MmLayout) : Prop := ∀ R ∈ L, R.chunks.IsChain OneUsed

def MmLayout.Even (L : MmLayout) : Prop := ∀ R ∈ L, ∀ c ∈ R.body, 16 ∣ c.size

theorem isChain_around {α : Type*} {R : α → α → Prop} {A M C : List α} {p q : α}
    (hA : A.getLast? = some p) (hC : C.head? = some q) :
    (A ++ (M ++ C)).IsChain R ↔ (A.IsChain R ∧ C.IsChain R) ∧ (p :: (M ++ [q])).IsChain R := by
  have hhead : (M ++ C).head? = (M ++ [q]).head? := by
    cases M with
    | nil => exact hC
    | cons x M => rfl
  rw [isChain_append, isChain_append, isChain_cons, isChain_append, hA, hC, hhead]
  simp only [Option.mem_some_iff, forall_eq', head?_cons, isChain_singleton, true_and]
  tauto

def usedIn (a : ℕ) (cs : List Chunk) : Set (ℕ × ℕ) :=
  {q | (q.1, (⟨q.2, true⟩ : Chunk)) ∈ place Chunk.size a cs}

section UsedIn

variable {a s : ℕ} {cs ds : List Chunk}

@[simp]
theorem usedIn_nil : usedIn a [] = ∅ := by
  ext q
  simp [usedIn]

@[simp]
theorem usedIn_cons_true : usedIn a (⟨s, true⟩ :: cs) = insert (a, s) (usedIn (a + s) cs) := by
  ext q
  simp only [usedIn, place_cons, mem_cons, Chunk.mk.injEq, and_true,
    Set.mem_ofPred_eq, Set.mem_insert_iff, Prod.ext_iff]

@[simp]
theorem usedIn_cons_false : usedIn a (⟨s, false⟩ :: cs) = usedIn (a + s) cs := by
  ext q
  simp [usedIn]

@[simp]
theorem usedIn_append : usedIn a (cs ++ ds) = usedIn a cs ∪ usedIn (a + extent Chunk.size cs) ds := by
  ext q
  simp [usedIn]

@[simp]
theorem usedIn_pad : usedIn a (pad s) = ∅ := by
  unfold pad
  split_ifs <;> simp

end UsedIn

namespace MmCtx

variable {nl : ℕ} {k : MmCtx} {mid mid' : List Chunk}

theorem spans_fill (hext : extent Chunk.size mid' = extent Chunk.size mid) :
    (k.fill mid').spans = (k.fill mid).spans := by
  simp [MmLayout.spans, fill, region, MmRegion.last, hext]

theorem used_fill (h : (k.fill mid).Sound nl)
    (hext : extent Chunk.size mid' = extent Chunk.size mid) :
    (k.fill mid').used = (k.fill mid).used \ usedIn k.addr mid ∪ usedIn k.addr mid' := by
  ext q
  simp only [MmLayout.used, usedIn, Set.mem_union, Set.mem_sdiff, Set.mem_ofPred_eq,
    mem_bodies_fill, hext]
  refine or_congr_left ⟨fun hq => ⟨.inl hq, fun hin => ?_⟩, fun hq => hq.1.resolve_right hq.2⟩
  exact outer_ne h hin hq rfl

theorem getLast?_left : (Chunk.guard :: k.left).getLast? = some k.prev := by
  unfold prev
  rcases eq_nil_or_concat k.left with h | ⟨l, c, h⟩
  · rw [h]
    rfl
  · rw [h, concat_eq_append, getLastD_concat, ← cons_append, getLast?_concat]

theorem head?_right : (k.right ++ [Chunk.guard]).head? = some k.next := by
  unfold next
  cases k.right <;> rfl

theorem coalesced_region :
    (k.region mid).chunks.IsChain OneUsed ↔
      ((Chunk.guard :: k.left).IsChain OneUsed ∧ (k.right ++ [Chunk.guard]).IsChain OneUsed) ∧
        (k.prev :: (mid ++ [k.next])).IsChain OneUsed := by
  rw [chunks_region]
  exact isChain_around getLast?_left head?_right

theorem coalesced_fill (h : (k.fill mid).Coalesced)
    (hmid : (k.prev :: (mid' ++ [k.next])).IsChain OneUsed) : (k.fill mid').Coalesced := by
  obtain ⟨hself, hothers⟩ := forall_mem_fill.mp h
  exact forall_mem_fill.mpr ⟨coalesced_region.mpr ⟨(coalesced_region.mp hself).1, hmid⟩, hothers⟩

theorem isChain_of_coalesced (h : (k.fill mid).Coalesced) :
    (k.prev :: (mid ++ [k.next])).IsChain OneUsed :=
  (coalesced_region.mp (h _ region_mem_fill)).2

theorem even_fill (h : (k.fill mid).Even) (hmid : ∀ c ∈ mid', 16 ∣ c.size) :
    (k.fill mid').Even := by
  obtain ⟨hself, hothers⟩ := forall_mem_fill.mp h
  obtain ⟨hleft, -, hright⟩ := forall_mem_region.mp hself
  exact forall_mem_fill.mpr ⟨forall_mem_region.mpr ⟨hleft, hmid, hright⟩, hothers⟩

theorem dvd_of_even (h : (k.fill mid).Even) : ∀ c ∈ mid, 16 ∣ c.size :=
  (forall_mem_region.mp (h _ region_mem_fill)).2.1

end MmCtx

/-- **A critical section turns one layout into another one**: the regions stay where they are, and
the used chunks in `old` are replaced by those in `new`, which are at the places of no other ones. -/
structure Alters (L L' : MmLayout) (old new : Set (ℕ × ℕ)) : Prop where
  spans : L'.spans = L.spans
  used : L'.used = L.used \ old ∪ new
  fresh : ∀ a s t, (a, s) ∈ new → (a, t) ∈ L.used → (a, t) ∈ old

theorem Alters.mem_used {L L' : MmLayout} {old : Set (ℕ × ℕ)} {q : ℕ × ℕ}
    (h : Alters L L' old {q}) : q ∈ L'.used := by
  rw [h.used]
  exact .inr rfl

variable {k : MmCtx}

theorem MmCtx.alters {nl : ℕ} {mid mid' : List Chunk} {old new : Set (ℕ × ℕ)}
    (h : (k.fill mid).Sound nl) (h' : (k.fill mid').Sound nl)
    (hext : extent Chunk.size mid' = extent Chunk.size mid) (hold : usedIn k.addr mid = old)
    (hnew : usedIn k.addr mid' = new) : Alters (k.fill mid) (k.fill mid') old new := by
  subst hold hnew
  refine ⟨spans_fill hext, used_fill h hext, fun a s t hs ht => ?_⟩
  rcases mem_bodies_fill.mp ht with hout | hin
  · rw [← hext] at hout
    exact absurd rfl (outer_ne h' hs hout)
  · exact hin

/-! ### Neighbours that are used -/

section Neighbours

variable {k : MmCtx} {mid : List Chunk} {c : Chunk} {p q : ℕ}

theorem MmCtx.isChain_of_used (hprev : k.prev.used = true) (hnext : k.next.used = true)
    (hmid : mid.IsChain OneUsed) : (k.prev :: (mid ++ [k.next])).IsChain OneUsed := by
  rw [isChain_cons, isChain_append]
  exact ⟨fun _ _ => .inl hprev, hmid, isChain_singleton _, fun _ _ y hy => .inr (by
    rw [head?_cons, Option.mem_some_iff] at hy
    rw [← hy, hnext])⟩

theorem MmCtx.next_used_of_coalesced (h : (k.fill (mid ++ (c :: pad q))).Coalesced)
    (hq : q = 0 → k.next.used = true) : k.next.used = true := by
  rcases Nat.eq_zero_or_pos q with rfl | hpos
  · exact hq rfl
  have hchain := isChain_of_coalesced h
  rw [pad_of_pos hpos] at hchain
  have hsplit : k.prev :: (mid ++ [c, ⟨q, false⟩] ++ [k.next])
      = (k.prev :: (mid ++ [c])) ++ [⟨q, false⟩, k.next] := by simp
  rw [hsplit] at hchain
  have hlast := hchain.right_of_append
  rw [isChain_cons_cons] at hlast
  exact hlast.1.resolve_left (by simp)

/-- What comes before and behind the free neighbours of a chunk is used. -/
theorem MmCtx.used_of_coalesced (h : (k.fill (pad p ++ (c :: pad q))).Coalesced)
    (hp : p = 0 → k.prev.used = true) (hq : q = 0 → k.next.used = true) :
    k.prev.used = true ∧ k.next.used = true := by
  refine ⟨?_, next_used_of_coalesced h hq⟩
  have hchain := isChain_of_coalesced h
  rcases Nat.eq_zero_or_pos p with rfl | hpos
  · exact hp rfl
  · rw [pad_of_pos hpos, singleton_append, cons_append, isChain_cons_cons] at hchain
    exact hchain.1.resolve_right (by simp)

theorem isChain_pads {u : Bool} {n : ℕ} (hu : u = true) :
    (pad p ++ (⟨n, u⟩ :: pad q)).IsChain OneUsed := by
  unfold pad
  split_ifs <;> simp [OneUsed, hu]

end Neighbours

/-! ### The critical sections -/

variable {nl : ℕ} {m m' : MmMem} {L L' : MmLayout} {a j n s : ℕ}

/-- **`malloc`**: nothing happens, or there is one more used chunk, which is large enough. -/
theorem HeapWhole.malloc (h : HeapWhole nl m L) (hn : 8 ≤ n ∧ 8 ∣ n) :
    mallocChunk nl m n = some (m, 0) ∨
      ∃ m' L' a s, mallocChunk nl m n = some (m', a + sizeofAllocnode) ∧ n ≤ s ∧
        HeapWhole nl m' L' ∧ Alters L L' ∅ {(a, s)} ∧
        (L.Coalesced → L'.Coalesced) ∧ (16 ∣ n → L.Even → L'.Even) := by
  refine (mallocChunk_spec h hn).imp And.left ?_
  rintro ⟨k, s, m', rfl, ⟨hle, -⟩, hmalloc, hwhole⟩
  -- the neighbours of a free chunk are used
  have hcoalesced : (k.fill [⟨s, false⟩]).Coalesced → ∀ {mid}, mid.IsChain OneUsed →
      (k.fill mid).Coalesced := by
    intro hcoal mid hmid
    have hchain := isChain_of_coalesced hcoal
    simp only [singleton_append, isChain_cons_cons, OneUsed, Bool.false_eq_true,
      or_false, false_or] at hchain
    exact coalesced_fill hcoal (isChain_of_used hchain.1 hchain.2.1 hmid)
  unfold allocated at hwhole
  split_ifs at hwhole with hsplit
  · refine ⟨m', _, k.addr, n, hmalloc, le_refl n, hwhole, ?_, fun hcoal => ?_,
      fun hn16 heven => ?_⟩
    · refine alters h.sound hwhole.sound ?_ (by simp) (by simp)
      simp only [extent_cons, extent_nil]
      omega
    · exact hcoalesced hcoal (by simp [OneUsed])
    · have hs := dvd_of_even heven _ mem_cons_self
      refine even_fill heven ?_
      simp only [forall_mem_cons]
      exact ⟨hn16, Nat.dvd_sub hs hn16, by simp⟩
  · refine ⟨m', _, k.addr, s, hmalloc, hle, hwhole, ?_, fun hcoal => ?_, fun _ heven => ?_⟩
    · exact alters h.sound hwhole.sound rfl (by simp) (by simp)
    · exact hcoalesced hcoal (isChain_singleton _)
    · exact even_fill heven (by simpa using dvd_of_even heven)

/-- The size of the chunk behind a node, if it is free. -/
def nextFree (m : MmMem) (node : ℕ) : ℕ :=
  if m.preceding (node + m.size node) &&& mmAllocBit = 0 then m.size (node + m.size node) else 0

/-- The size of the chunk before a node, if it is free. -/
def prevFree (m : MmMem) (node : ℕ) : ℕ :=
  if m.preceding (node - (m.preceding node &&& mmSizeMask)) &&& mmAllocBit = 0 then
    m.size (node - (m.preceding node &&& mmSizeMask)) else 0

/-- The chunk that `free` puts on the list has room for the pointers. -/
def FreeOk (m : MmMem) (mem : ℕ) : Prop :=
  sizeofFreenode ≤ prevFree m (mem - sizeofAllocnode) + m.size (mem - sizeofAllocnode) +
    nextFree m (mem - sizeofAllocnode)

/-- **A used chunk with its free neighbours.** -/
theorem HeapWhole.exists_pads (h : HeapWhole nl m L) (ha : (a, s) ∈ L.used) :
    ∃ k : MmCtx, L = ((k.padLeft (prevFree m a)).padRight (nextFree m a)).fill [⟨s, true⟩] ∧
      a = k.addr + prevFree m a ∧ m.size a = s ∧ (prevFree m a = 0 → k.prev.used = true) ∧
      (nextFree m a = 0 → k.next.used = true) := by
  obtain ⟨k, rfl, rfl⟩ := exists_fill ha
  have hheld := h.held (by simp)
  obtain ⟨k', hk, hp, hq⟩ := hheld.eq_pads
  have hheld' := hheld
  have haddr : k.addr = k'.addr + k.prev.freeSize := by
    rw [hk, addr_padRight, addr_padLeft, ← hk]
  rw [hk] at hheld'
  obtain ⟨hsize, hnext, hprev, -⟩ := hheld'.sizes hp hq
  rw [← haddr] at hsize hnext hprev
  have hp' : prevFree m k.addr = k.prev.freeSize := hprev
  have hq' : nextFree m k.addr = k.next.freeSize := by
    unfold nextFree
    rw [hsize]
    exact hnext
  rw [hp', hq']
  exact ⟨k', congrArg (fun k => fill k [⟨s, true⟩]) hk, haddr, hsize, hp, hq⟩

/-- **`free`**: the chunk is not used any more. -/
theorem HeapWhole.free (h : HeapWhole nl m L) (ha : (a, s) ∈ L.used)
    (hok : FreeOk m (a + sizeofAllocnode)) :
    ∃ m' L', mmFree nl m (a + sizeofAllocnode) = some m' ∧ HeapWhole nl m' L' ∧
      Alters L L' {(a, s)} ∅ ∧ (L.Coalesced → L'.Coalesced) ∧ (L.Even → L'.Even) := by
  obtain ⟨k, hL, haddr, hsize, hp, hq⟩ := h.exists_pads ha
  unfold FreeOk at hok
  rw [Nat.add_sub_cancel, hsize] at hok
  generalize prevFree m a = p at *
  generalize nextFree m a = q at *
  subst hL haddr
  obtain ⟨m', hfree, hwhole⟩ := mmFree_spec h hp hq hok
  refine ⟨m', _, hfree, hwhole, ?_, fun hcoal => ?_, fun heven => ?_⟩
  · have hsound := h.sound
    rw [fill_padRight, fill_padLeft] at hsound ⊢
    exact alters hsound hwhole.sound (by simp [Nat.add_assoc]) (by simp) (by simp)
  · rw [fill_padRight, fill_padLeft] at hcoal
    obtain ⟨hprev, hnext⟩ := used_of_coalesced hcoal hp hq
    exact coalesced_fill hcoal (isChain_of_used hprev hnext (isChain_singleton _))
  rw [fill_padRight, fill_padLeft] at heven
  have hdvd := dvd_of_even heven
  have hsum : 16 ∣ extent Chunk.size (pad p ++ ([⟨s, true⟩] ++ pad q)) := dvd_extent hdvd
  refine even_fill heven ?_
  simpa [Nat.add_assoc] using hsum

/-- What `realloc` leaves of the free neighbours has room for the pointers. -/
def GrowOk (m : MmMem) (mem n : ℕ) : Prop :=
  let node := mem - sizeofAllocnode
  let takes := reallocTakes (n - m.size node) (prevFree m node) (nextFree m node)
  m.size node < n → n ≤ nextFree m node + prevFree m node + m.size node →
    LeavesRoom takes.1 (prevFree m node) ∧ LeavesRoom takes.2 (nextFree m node)

/-- A chunk is cut and its end freed, if what comes behind is used. -/
theorem MmCtx.coalesced_cut {q t : ℕ} {pre : List Chunk}
    (h : (k.fill (⟨s, true⟩ :: pad q)).Coalesced) (hq : q = 0 → k.next.used = true)
    (hpre : (k.prev :: (pre ++ [⟨n, true⟩])).IsChain OneUsed) :
    (k.fill (pre ++ [⟨n, true⟩, ⟨t, false⟩])).Coalesced := by
  have hnext := next_used_of_coalesced (show (k.fill ([] ++ (_ :: pad q))).Coalesced from h) hq
  refine coalesced_fill h ?_
  have hsplit : k.prev :: (pre ++ [⟨n, true⟩, ⟨t, false⟩] ++ [k.next])
      = (k.prev :: (pre ++ [⟨n, true⟩])) ++ [⟨t, false⟩, k.next] := by simp
  rw [hsplit, isChain_append]
  refine ⟨hpre, by simp [OneUsed, hnext], ?_⟩
  rw [← cons_append, getLast?_concat]
  simp [OneUsed]

theorem HeapWhole.grow {p q : ℕ} (h : HeapWhole nl m (((k.padLeft p).padRight q).fill [⟨s, true⟩]))
    (hp : p = 0 → k.prev.used = true) (hq : q = 0 → k.next.used = true) (hn : 8 ∣ n) (hlt : s < n)
    (hle : n ≤ q + p + s) (hleft : LeavesRoom (reallocTakes (n - s) p q).1 p)
    (hright : LeavesRoom (reallocTakes (n - s) p q).2 q) :
    ∃ m' L' a', reallocChunk nl m (k.addr + p + sizeofAllocnode) n
        = some (m', some (a' + sizeofAllocnode)) ∧ HeapWhole nl m' L' ∧
      Alters (((k.padLeft p).padRight q).fill [⟨s, true⟩]) L' {(k.addr + p, s)} {(a', n)} ∧
      ((((k.padLeft p).padRight q).fill [⟨s, true⟩]).Coalesced → L'.Coalesced) ∧
      (16 ∣ n → (((k.padLeft p).padRight q).fill [⟨s, true⟩]).Even → L'.Even) := by
  obtain ⟨m', hrealloc, hwhole⟩ := reallocChunk_grow h hp hq hn hlt hle hleft hright
  have hspec := reallocTakes_spec (n - s) p q (by omega) (by omega)
  have hsound := h.sound
  rw [fill_padRight, fill_padLeft] at hsound ⊢
  refine ⟨m', _, _, hrealloc, hwhole, ?_, fun hcoal => ?_, fun hn16 heven => ?_⟩
  · refine alters hsound hwhole.sound ?_ (by simp) (by simp)
    simp only [extent_append, extent_pad, extent_cons, extent_nil]
    omega
  · obtain ⟨hprev, hnext⟩ := used_of_coalesced hcoal hp hq
    refine coalesced_fill hcoal (isChain_of_used hprev hnext ?_)
    rw [append_assoc]
    exact isChain_pads rfl
  have hdvd := dvd_of_even heven
  simp only [forall_mem_append, dvd_pad_iff, forall_mem_cons] at hdvd
  obtain ⟨hp16, ⟨hs16, -⟩, hq16⟩ := hdvd
  have htakes := dvd_reallocTakes (Nat.dvd_sub hn16 hs16) hp16 hq16
  refine even_fill heven ?_
  simp only [forall_mem_append, dvd_pad_iff, forall_mem_cons]
  exact ⟨⟨Nat.dvd_sub hp16 htakes.1, hn16, by simp⟩, Nat.dvd_sub hq16 htakes.2⟩

theorem Alters.refl (hL : L.Sound nl) (ha : (a, s) ∈ L.used) :
    Alters L L {(a, s)} {(a, s)} := by
  refine ⟨rfl, ?_, fun b t u hb hu => ?_⟩
  · rw [Set.sdiff_union_self, Set.union_singleton, Set.insert_eq_of_mem ha]
  · obtain ⟨rfl, rfl⟩ := Prod.mk.inj hb
    have hsize : u = t := congrArg Chunk.size (hL.bodies_unique hu ha)
    rw [hsize]
    rfl

theorem HeapWhole.shrink {q : ℕ} (h : HeapWhole nl m ((k.padRight q).fill [⟨s, true⟩]))
    (hq : q = 0 → k.next.used = true) (hn : 8 ≤ n ∧ 8 ∣ n) (hle : n ≤ s) :
    ∃ m' L' s', reallocChunk nl m (k.addr + sizeofAllocnode) n
        = some (m', some (k.addr + sizeofAllocnode)) ∧ n ≤ s' ∧ HeapWhole nl m' L' ∧
      Alters ((k.padRight q).fill [⟨s, true⟩]) L' {(k.addr, s)} {(k.addr, s')} ∧
      (((k.padRight q).fill [⟨s, true⟩]).Coalesced → L'.Coalesced) ∧
      (16 ∣ n → ((k.padRight q).fill [⟨s, true⟩]).Even → L'.Even) := by
  rcases reallocChunk_shrink h hq hn hle with hsame | ⟨⟨hlt, -⟩, m', hrealloc, hwhole⟩
  · have hused : (k.addr, s) ∈ ((k.padRight q).fill [⟨s, true⟩]).used := by
      refine mem_bodies_fill.mpr (.inr ?_)
      simp
    exact ⟨m, _, s, hsame, hle, h, Alters.refl h.sound hused, id, fun _ => id⟩
  have hsound := h.sound
  rw [fill_padRight] at hsound ⊢
  refine ⟨m', _, n, hrealloc, le_refl n, hwhole, ?_, fun hcoal => ?_, fun hn16 heven => ?_⟩
  · refine alters hsound hwhole.sound ?_ (by simp) (by simp)
    simp only [extent_append, extent_pad, extent_cons, extent_nil]
    omega
  · have hcut : (k.fill ([] ++ [⟨n, true⟩, ⟨s - n + q, false⟩])).Coalesced :=
      coalesced_cut hcoal hq (by simp [OneUsed])
    exact hcut
  have hdvd := dvd_of_even heven
  simp only [forall_mem_append, dvd_pad_iff, forall_mem_cons] at hdvd
  obtain ⟨⟨hs16, -⟩, hq16⟩ := hdvd
  refine even_fill heven ?_
  simp only [forall_mem_cons]
  exact ⟨hn16, Nat.dvd_add (Nat.dvd_sub hs16 hn16) hq16, by simp⟩

/-- **`realloc`**: the chunk cannot be extended and nothing happens, or it is replaced by one that is
large enough. -/
theorem HeapWhole.realloc (h : HeapWhole nl m L) (ha : (a, s) ∈ L.used)
    (hn : 8 ≤ n ∧ 8 ∣ n) (hok : GrowOk m (a + sizeofAllocnode) n) :
    (reallocChunk nl m (a + sizeofAllocnode) n = some (m, none) ∧ s < n) ∨
      ∃ m' L' a' s', reallocChunk nl m (a + sizeofAllocnode) n
          = some (m', some (a' + sizeofAllocnode)) ∧ n ≤ s' ∧ HeapWhole nl m' L' ∧
        Alters L L' {(a, s)} {(a', s')} ∧ (L.Coalesced → L'.Coalesced) ∧
        (16 ∣ n → L.Even → L'.Even) := by
  obtain ⟨k, hL, haddr, hsize, hp, hq⟩ := h.exists_pads ha
  unfold GrowOk at hok
  simp only [Nat.add_sub_cancel, hsize] at hok
  generalize prevFree m a = p at *
  generalize nextFree m a = q at *
  subst hL haddr
  rcases Nat.lt_or_ge s n with hlt | hge
  · rcases Nat.lt_or_ge (q + p + s) n with hbig | hle
    · exact .inl ⟨reallocChunk_none h hp hq hbig, hlt⟩
    · obtain ⟨hleft, hright⟩ := hok hlt hle
      obtain ⟨m', L', a', hrealloc, hwhole, hrest⟩ := h.grow hp hq hn.2 hlt hle hleft hright
      exact .inr ⟨m', L', a', n, hrealloc, le_refl n, hwhole, hrest⟩
  · obtain ⟨m', L', s', hrealloc, hle, hwhole, hrest⟩ :=
      h.shrink (by rwa [next_padLeft]) hn hge
    rw [addr_padLeft] at hrealloc hrest
    exact .inr ⟨m', L', k.addr + p, s', hrealloc, hle, hwhole, hrest⟩

/-- The chunk that `memalign` frees before the aligned address does not lie behind a free one. -/
def AlignOk (m : MmMem) (alignment rawchunk : ℕ) : Prop :=
  prevFree m (rawchunk - sizeofAllocnode) = 0 ∨ alignHead alignment rawchunk = 0

/-- **`memalign`**: the chunk is replaced by a part of it. No two free chunks come to lie side by
side, if the chunk does not lie behind a free one. -/
theorem HeapWhole.align (h : HeapWhole nl m L) (ha : (a, s) ∈ L.used)
    (hj : mmMinChunk < 2 ^ j) (hn : 8 ∣ n) (hs : n + 2 * 2 ^ j + 16 ≤ s) :
    ∃ m' L' a', alignChunk nl m (2 ^ j) n (n + 2 * 2 ^ j) (a + sizeofAllocnode)
        = some (m', a' + sizeofAllocnode) ∧ HeapWhole nl m' L' ∧
      Alters L L' {(a, s)} {(a', n + sizeofAllocnode)} ∧
      (AlignOk m (2 ^ j) (a + sizeofAllocnode) → L.Coalesced → L'.Coalesced) := by
  obtain ⟨k, hL, haddr, hsize, hp, hq⟩ := h.exists_pads ha
  unfold AlignOk
  rw [Nat.add_sub_cancel]
  generalize prevFree m a = p at *
  have haddr' : a = (k.padLeft p).addr := by rw [addr_padLeft, haddr]
  have hd8 : 8 ∣ a + sizeofAllocnode := by
    have hdvd := ((hL ▸ h).held (by simp)).addr_bounds.1
    rw [addr_padRight, ← haddr'] at hdvd
    exact Nat.dvd_add hdvd (Nat.dvd_refl 8)
  have hdle := (alignHead_spec hj hd8).2.2
  obtain ⟨d, hd⟩ : ∃ d, d = alignHead (2 ^ j) (a + sizeofAllocnode) := ⟨_, rfl⟩
  rw [← hd] at hdle ⊢
  rw [haddr'] at hd
  obtain ⟨m', halign, hwhole⟩ := alignChunk_spec (hL ▸ h) (by rwa [next_padLeft]) hj hn hs hd
  rw [← haddr'] at halign
  refine ⟨m', _, a + d, halign, hwhole, ?_, fun hok hcoal => ?_⟩
  · have hsound := h.sound
    rw [hL, fill_padRight] at hsound ⊢
    refine alters hsound hwhole.sound ?_ (by simp [← haddr']) (by simp [← haddr'])
    unfold sizeofAllocnode
    simp only [extent_append, extent_pad, extent_cons, extent_nil]
    omega
  · rw [hL, fill_padRight] at hcoal
    refine coalesced_cut hcoal (by rwa [next_padLeft]) ?_
    rcases hok with rfl | rfl
    · rw [isChain_cons, padLeft_zero]
      exact ⟨fun _ _ => .inl (hp rfl), isChain_pads (q := 0) rfl⟩
    · simp [pad, OneUsed]

end NuttX
