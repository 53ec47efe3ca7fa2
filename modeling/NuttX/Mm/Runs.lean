import NuttX.Mm.Calls

/-!
# Runs of the memory manager

`NuttX.MmReach` has the heaps that can be reached: a heap is made by `mm_initialize`, regions are
added to it, and then tasks call the memory manager, one call after the other, and write into what
they have been given. A run is allowed such calls only as meet a condition, which is a parameter.

If `memalign` is not called and `realloc` passes on no size that wraps, every heap in a run is well
formed (`NuttX.heapOk_of_reach`). If no call puts a chunk on the list that is too small for the
pointers, then every free chunk in a run has room for them (`NuttX.freeRoom_of_reach`). Without these
conditions neither is true: `realloc` rounds a size twice, and the second time it can wrap to zero,
so that an element of `g_nodelist` itself is allocated (`NuttX.realloc_takes_hook`); and `memalign`
leaves chunks whose sizes are not multiples of 16, which can have eight bytes when they are freed
(`NuttX.free_makes_sliver`).
-/

namespace NuttX

open MmLayout Option MmCall List

/-- A region lies apart from the array `g_nodelist` and from the regions that are there. -/
def RegionClear (nl : ℕ) (h : MmHeap) (base stop : ℕ) : Prop :=
  (∀ r ∈ h.heapstart.zip h.heapend, r.2 + sizeofAllocnode ≤ base ∨ stop ≤ r.1) ∧
    (stop ≤ nl ∨ nl + sizeofNodelist ≤ base)

/-- **The heaps that can be reached**, with the pointers that are allocated, when every call meets
the condition `ok`. -/
inductive MmReach (nl : ℕ) (ok : MmMem → MmCall → Prop) : MmHeap → Set ℕ → Prop
  | init {m : MmMem} {h : MmHeap} {heapstart heapsize base stop : ℕ} (hpos : 0 < nl)
      (hspace : nl + sizeofNodelist ≤ 0x100000000)
      (hr : RegionAt heapstart heapsize base stop)
      (hclear : stop ≤ nl ∨ nl + sizeofNodelist ≤ base)
      (hinit : mmInitialize nl m heapstart heapsize = some h) : MmReach nl ok h ∅
  | addregion {h h' : MmHeap} {live : Set ℕ} {heapstart heapsize base stop : ℕ}
      (hreach : MmReach nl ok h live) (hr : RegionAt heapstart heapsize base stop)
      (hclear : RegionClear nl h base stop)
      (hadd : mmAddregion nl h heapstart heapsize = some h') : MmReach nl ok h' live
  | call {h : MmHeap} {live : Set ℕ} {c : MmCall} {m' : MmMem} {ret : ℕ}
      (hreach : MmReach nl ok h live) (hlive : c.OnLive live) (hfits : c.Fits)
      (hok : ok h.mem c) (hcall : mmCall nl h.mem c = some (m', ret)) :
      MmReach nl ok { h with mem := m' } (c.liveAfter live ret)
  | write {h : MmHeap} {live : Set ℕ} {p w v : ℕ} (hreach : MmReach nl ok h live)
      (hp : p ∈ live) (hge : p ≤ w) (hlt : w < p - sizeofAllocnode + h.mem.size (p - sizeofAllocnode)) :
      MmReach nl ok { h with mem := Function.update h.mem w v } live

variable {nl : ℕ} {ok : MmMem → MmCall → Prop} {h : MmHeap} {live : Set ℕ} {L : MmLayout}

/-- **One step of a run**: a call returns, and the layout of the heap says which pointers are then
allocated. -/
theorem HeapShape.call (hs : HeapShape nl h L) {c : MmCall} (hlive : c.OnLive L.pointers)
    (hfits : c.Fits) (hok : c.NoSliver nl h.mem) :
    ∃ m' ret L', mmCall nl h.mem c = some (m', ret) ∧
      HeapShape nl { h with mem := m' } L' ∧ L'.pointers = c.liveAfter L.pointers ret ∧
      (c.Plain → Tidy L L') := by
  obtain ⟨m', ret, L', A, hcall, hA, hstep⟩ := hs.whole.call hlive hfits hok
  refine ⟨m', ret, L', hcall, hs.alter hstep.whole hstep.spans, ?_, fun hplain => ?_⟩
  · rw [hstep.pointers, MmOutcome.owns, HeapWhole.liveAfter_claims hlive zero_notMem_pointers]
  · exact ⟨hstep.coalesced (hA hplain), hstep.even hplain⟩

theorem HeapShape.write (hs : HeapShape nl h L) {p w v : ℕ} (hp : p ∈ L.pointers) (hge : p ≤ w)
    (hlt : w < p - sizeofAllocnode + h.mem.size (p - sizeofAllocnode)) :
    HeapShape nl { h with mem := Function.update h.mem w v } L := by
  obtain ⟨⟨a, s⟩, ha, rfl⟩ := hp
  rw [Nat.add_sub_cancel, hs.whole.size_used ha] at hlt
  refine ⟨hs.whole.payload ha fun z hz => ?_, hs.starts, hs.ends, hs.size⟩
  exact Function.update_of_ne (by dsimp only at hge; omega) _ _

theorem pointers_newRegion (L : MmLayout) (base stop : ℕ) :
    pointers (L ++ [newRegion base stop]) = L.pointers := by
  ext p
  simp [pointers, used, bodies, MmRegion.bodies, newRegion]

/-- **The layouts of the heaps in a run**: a property of layouts holds in every run, if it holds of a
new region, and calls and new regions preserve it. -/
theorem MmReach.induct {P : MmLayout → Prop} (hreach : MmReach nl ok h live)
    (hnil : P []) (hregion : ∀ {L base stop heapstart heapsize},
      RegionAt heapstart heapsize base stop → P L → P (L ++ [newRegion base stop]))
    (hcall : ∀ {L m c}, HeapWhole nl m L → P L → c.OnLive L.pointers → c.Fits → ok m c →
      c.NoSliver nl m ∧ ∀ L', (c.Plain → Tidy L L') → P L') :
    ∃ L, HeapShape nl h L ∧ live = L.pointers ∧ P L := by
  induction hreach with
  | init hpos hspace hr hclear hinit =>
    obtain ⟨h', hinit', hshape⟩ := HeapShape.initialize hr hpos hspace hclear
    rw [hinit] at hinit'
    cases hinit'
    refine ⟨_, hshape, ?_, hregion hr hnil⟩
    ext p
    simp [pointers, used, bodies, MmRegion.bodies, newRegion]
  | addregion _ hr hclear hadd ih =>
    obtain ⟨L, hshape, rfl, hP⟩ := ih
    rw [RegionClear, hshape.zip_eq] at hclear
    obtain ⟨h', hadd', hshape'⟩ := hshape.addregion hr hclear.1 hclear.2
    rw [hadd] at hadd'
    cases hadd'
    exact ⟨_, hshape', (pointers_newRegion L _ _).symm, hregion hr hP⟩
  | call _ hlive hfits hok heq ih =>
    obtain ⟨L, hshape, rfl, hP⟩ := ih
    obtain ⟨hsliver, hP'⟩ := hcall hshape.whole hP hlive hfits hok
    obtain ⟨m', ret, L', heq', hshape', hpointers, htidy⟩ := hshape.call hlive hfits hsliver
    rw [heq] at heq'
    cases heq'
    exact ⟨L', hshape', hpointers.symm, hP' L' htidy⟩
  | write _ hp hge hlt ih =>
    obtain ⟨L, hshape, rfl, hP⟩ := ih
    exact ⟨L, hshape.write hp hge hlt, rfl, hP⟩

theorem coalesced_newRegion (hL : L.Coalesced) (base stop : ℕ) :
    Coalesced (L ++ [newRegion base stop]) := by
  intro R hR
  rcases mem_append.mp hR with hR | hR
  · exact hL R hR
  · rw [mem_singleton.mp hR]
    simp [newRegion, MmRegion.chunks, OneUsed, Chunk.guard]

theorem even_newRegion (hL : L.Even) {heapstart heapsize base stop : ℕ}
    (hr : RegionAt heapstart heapsize base stop) : Even (L ++ [newRegion base stop]) := by
  intro R hR
  rcases mem_append.mp hR with hR | hR
  · exact hL R hR
  have hbase := hr.base_eq
  have hstop := hr.stop_eq
  rw [mem_singleton.mp hR]
  simp only [newRegion, forall_mem_cons, not_mem_nil, false_implies, implies_true, and_true]
  unfold sizeofAllocnode
  omega

/-! ### A small heap -/

/-- An array `g_nodelist`, and a heap of half a kilobyte. -/
def smallHeap : Option MmHeap := mmInitialize 0x1000 (fun _ => 0) 0x10000 0x200

/-- A sequence of calls: the heap, and what the calls have returned. -/
def mmCalls (nl : ℕ) : MmHeap → List MmCall → Option (MmHeap × List ℕ)
  | h, [] => some (h, [])
  | h, c :: cs => do
    let (m, ret) ← mmCall nl h.mem c
    let (h, rets) ← mmCalls nl { h with mem := m } cs
    return (h, ret :: rets)

/-- The calls of a sequence are made with allocated pointers, and with sizes that do not wrap. -/
def CallsFit (P : MmCall → Prop) : Set ℕ → List MmCall → List ℕ → Prop
  | live, c :: cs, ret :: rets =>
    c.OnLive live ∧ c.Fits ∧ P c ∧ CallsFit P (c.liveAfter live ret) cs rets
  | _, _, _ => True

/-- The pointers that are allocated after a sequence of calls. -/
def liveAfterAll : Set ℕ → List MmCall → List ℕ → Set ℕ
  | live, c :: cs, ret :: rets => liveAfterAll (c.liveAfter live ret) cs rets
  | live, _, _ => live

/-- A sequence of calls is a run. -/
theorem MmReach.calls {P : MmCall → Prop} {cs : List MmCall} :
    ∀ {h h' : MmHeap} {live : Set ℕ} {rets : List ℕ}, MmReach nl (fun _ c => P c) h live →
      mmCalls nl h cs = some (h', rets) → CallsFit P live cs rets →
      MmReach nl (fun _ c => P c) h' (liveAfterAll live cs rets) := by
  induction cs with
  | nil =>
    intro h h' live rets hreach heq _
    cases heq
    exact hreach
  | cons c cs ih =>
    intro h h' live rets hreach heq hfit
    rw [mmCalls, bind_eq_bind, bind_eq_some_iff] at heq
    obtain ⟨⟨m, ret⟩, hcall, heq⟩ := heq
    rw [bind_eq_bind, bind_eq_some_iff] at heq
    obtain ⟨⟨h1, rets1⟩, hcalls, heq⟩ := heq
    cases heq
    obtain ⟨hlive, hfits, hP, hrest⟩ := hfit
    exact ih (hreach.call hlive hfits hP hcall) hcalls hrest

theorem regionAt_small : RegionAt 0x10000 0x200 0x10000 0x10200 :=
  ⟨by decide, by decide, by decide, by decide, by decide⟩

theorem reach_small {P : MmCall → Prop} {cs : List MmCall} {rets : List ℕ} {h : MmHeap}
    (heq : (smallHeap.bind fun h => mmCalls 0x1000 h cs) = some (h, rets))
    (hfit : CallsFit P ∅ cs rets) :
    MmReach 0x1000 (fun _ c => P c) h (liveAfterAll ∅ cs rets) := by
  obtain ⟨h0, hinit, hcalls⟩ := bind_eq_some_iff.mp heq
  refine MmReach.calls (.init ?_ ?_ regionAt_small ?_ hinit) hcalls hfit <;> decide

/-! ### Heaps without `memalign` -/

/-- The size that `realloc` passes on to `malloc` does not wrap when it is rounded again. -/
def MmCall.NoRewrap : MmCall → Prop
  | .realloc _ size => chunkSize size + 23 < 0x100000000
  | _ => True

/-- **Every heap in a run is well formed**, and every call returns, if `memalign` is not called and
`realloc` passes on no size that wraps. -/
theorem heapOk_of_reach (hreach : MmReach nl (fun _ c => c.Plain ∧ c.NoRewrap) h live) :
    HeapOk nl h live ∧ ∀ c : MmCall, c.OnLive live → c.Fits → c.Plain → c.NoRewrap →
      ∃ r, mmCall nl h.mem c = some r := by
  have hsliver : ∀ {L m} {c : MmCall}, HeapWhole nl m L → L.Even → c.OnLive L.pointers →
      c.Fits → c.NoRewrap → c.NoSliver nl m := by
    intro L m c hwhole heven hlive hfits hwrap
    exact hwhole.noSliver_of_even heven hlive hfits fun oldmem size hc => by
      rw [hc] at hwrap
      exact hwrap
  obtain ⟨L, hshape, rfl, hcoal, heven⟩ :
      ∃ L, HeapShape nl h L ∧ live = L.pointers ∧ L.Coalesced ∧ L.Even := by
    refine hreach.induct (P := fun L => L.Coalesced ∧ L.Even) ?_ ?_ ?_
    · exact ⟨by simp [MmLayout.Coalesced], by simp [MmLayout.Even]⟩
    · rintro L base stop heapstart heapsize hr ⟨hcoal, heven⟩
      exact ⟨coalesced_newRegion hcoal base stop, even_newRegion heven hr⟩
    · rintro L m c hwhole ⟨hcoal, heven⟩ hlive hfits ⟨hplain, hwrap⟩
      refine ⟨hsliver hwhole heven hlive hfits hwrap, fun L' htidy => ?_⟩
      exact ⟨(htidy hplain).coalesced hcoal, (htidy hplain).even heven⟩
  refine ⟨hshape.heapOk hcoal, fun c hlive hfits hplain hwrap => ?_⟩
  obtain ⟨m', ret, -, hcall, -⟩ :=
    hshape.call hlive hfits (hsliver hshape.whole heven hlive hfits hwrap)
  exact ⟨_, hcall⟩

theorem heapOk_of_reach_malloc : ∃ h, HeapOk 0x1000 h {65552} := by
  have hrun : (smallHeap.bind fun h => mmCalls 0x1000 h [.malloc 8]).map Prod.snd
      = some [65552] := by
    decide +kernel
  obtain ⟨⟨h, rets⟩, heq, rfl⟩ := map_eq_some_iff.mp hrun
  have hreach : MmReach 0x1000 (fun _ c => c.Plain ∧ c.NoRewrap) h
      (liveAfterAll ∅ [.malloc 8] [65552]) :=
    reach_small (P := fun c => c.Plain ∧ c.NoRewrap) heq
      ⟨trivial, (by decide : 8 + 23 < 0x100000000), ⟨trivial, trivial⟩, trivial⟩
  have hlive : liveAfterAll ∅ [.malloc 8] [65552] = {65552} := by
    simp [liveAfterAll, liveAfter]
  rw [hlive] at hreach
  exact ⟨h, (heapOk_of_reach hreach).1⟩

theorem Visited.le {m : MmMem} {start stop node : ℕ} (h : Visited m start stop node) :
    start ≤ node := by
  induction h with
  | start => exact le_refl start
  | step _ _ ih => omega

/-- **`realloc` takes an element of `g_nodelist` for a free chunk**: the size is rounded to
0xfffffff0, and `malloc` rounds it again, to zero. -/
theorem realloc_takes_hook :
    ∃ h live, MmReach 0x1000 (fun _ c => c.Plain) h live ∧ ¬HeapOk 0x1000 h live := by
  have hrun : (smallHeap.bind fun h =>
      mmCalls 0x1000 h [.malloc 8, .realloc 65552 0xffffffe8]).map
        (fun r => (r.2, r.1.mem.flink 0x1000, r.1.heapstart.zip r.1.heapend))
      = some ([65552, 0x1018], 0x1020, [(0x10000, 0x101f8)]) := by
    decide +kernel
  obtain ⟨⟨h, rets⟩, heq, hrets⟩ := map_eq_some_iff.mp hrun
  obtain ⟨rfl, hflink, hregions⟩ : rets = [65552, 0x1018] ∧ h.mem.flink 0x1000 = 0x1020 ∧
      h.heapstart.zip h.heapend = [(0x10000, 0x101f8)] := by
    simpa using hrets
  have hfits₁ : (malloc 8).Fits := (by decide : 8 + 23 < 0x100000000)
  have hfits₂ : (realloc 65552 0xffffffe8).Fits :=
    (by decide : 0xffffffe8 + 23 < 0x100000000)
  refine ⟨h, _, reach_small heq ⟨trivial, hfits₁, trivial, .inr ?_, hfits₂, trivial, trivial⟩,
    fun hok => ?_⟩
  · simp [liveAfter]
  -- the first bucket is followed by the third element of the array, and not by the second one
  obtain ⟨B, hlist, hB⟩ := hok.list
  have hlinked := hlist.linked
  rw [chain_eq (i := 0) (by decide)] at hlinked
  have hnext : h.mem.flink 0x1000 = (B 0 ++ chainFrom 0x1000 B 0).headD 0 :=
    hlinked.next_eq
  rw [hflink] at hnext
  cases hB0 : B 0 with
  | nil =>
    rw [hB0] at hnext
    simp [chainFrom, range'_succ, nodeHook, mmNnodes] at hnext
  | cons x b =>
    rw [hB0] at hnext
    obtain ⟨r, hr, hvisited, -⟩ := (hB x).mp ⟨0, by decide, by rw [hB0]; exact mem_cons_self⟩
    rw [hregions, mem_singleton] at hr
    rw [hr] at hvisited
    have hle := hvisited.le
    simp only [cons_append, headD_cons] at hnext
    omega

/-! ### Heaps with `memalign` -/

/-- Every free chunk has room for the pointers of the list. -/
def FreeRoom (h : MmHeap) : Prop :=
  ∀ r ∈ h.heapstart.zip h.heapend, ∀ node, Visited h.mem r.1 r.2 node → NodeFree h.mem node →
    sizeofFreenode ≤ h.mem.size node

theorem HeapShape.freeRoom (hs : HeapShape nl h L) : FreeRoom h := by
  intro r hr node hvisited hfree
  rw [hs.zip_eq] at hr
  obtain ⟨R, hR, rfl⟩ := mem_spans.mp hr
  obtain ⟨s, hs16, hnode⟩ := hs.whole.listed node (hs.whole.freeSet_iff.mpr ⟨R, hR, hvisited, hfree⟩)
  rw [hs.whole.size_eq (mem_placed_of_mem_bodies hnode)]
  exact hs16

/-- **Every free chunk in a run has room for the pointers of the list**, and every call returns, if
no call puts a chunk on the list that has not. -/
theorem freeRoom_of_reach (hreach : MmReach nl (fun m c => c.NoSliver nl m) h live) :
    FreeRoom h ∧ ∀ c : MmCall, c.OnLive live → c.Fits → c.NoSliver nl h.mem →
      ∃ r, mmCall nl h.mem c = some r := by
  obtain ⟨L, hshape, rfl, -⟩ : ∃ L, HeapShape nl h L ∧ live = L.pointers ∧ True :=
    hreach.induct (P := fun _ => True) trivial (fun _ _ => trivial)
      fun _ _ _ _ hok => ⟨hok, fun _ _ => trivial⟩
  refine ⟨hshape.freeRoom, fun c hlive hfits hok => ?_⟩
  obtain ⟨m', ret, -, hcall, -⟩ := hshape.call hlive hfits hok
  exact ⟨_, hcall⟩

theorem freeRoom_of_reach_memalign : ∃ h m ret, smallHeap = some h ∧
    mmCall 0x1000 h.mem (.memalign 64 16) = some (m, ret) ∧ ret ≠ 0 ∧
    FreeRoom { h with mem := m } := by
  have hrun : (smallHeap.bind fun h => mmCall 0x1000 h.mem (.memalign 64 16)).map Prod.snd
      = some 65600 := by
    decide +kernel
  obtain ⟨⟨m, ret⟩, heq, rfl⟩ := map_eq_some_iff.mp hrun
  obtain ⟨h, hinit, hcall⟩ := bind_eq_some_iff.mp heq
  have hfits : (memalign 64 16).Fits := ⟨⟨6, rfl⟩, by decide⟩
  have hreach : MmReach 0x1000 (fun m c => c.NoSliver 0x1000 m) h ∅ := by
    refine .init ?_ ?_ regionAt_small ?_ hinit <;> decide
  have hreach' := hreach.call (c := .memalign 64 16) trivial hfits trivial hcall
  exact ⟨h, m, 65600, hinit, hcall, by decide, (freeRoom_of_reach hreach').1⟩

/-- **A chunk of eight bytes is freed**: `memalign` has made it, and the chunks at both sides have
been allocated. -/
theorem free_makes_sliver :
    ∃ h live, MmReach 0x1000 (fun _ _ => True) h live ∧ ¬FreeRoom h := by
  have hrun : (smallHeap.bind fun h =>
      mmCalls 0x1000 h [.memalign 64 0, .malloc 0x20, .malloc 0x150, .free 65600]).map
        (fun r => (r.2, r.1.heapstart.zip r.1.heapend, r.1.mem.size 65536, r.1.mem.size 65544,
          r.1.mem.size 65592, decide (NodeFree r.1.mem 65592)))
      = some ([65600, 65552, 65608, 0], [(0x10000, 0x101f8)], 8, 48, 8, true) := by
    decide +kernel
  obtain ⟨⟨h, rets⟩, heq, hrets⟩ := map_eq_some_iff.mp hrun
  obtain ⟨rfl, hregions, hsize₁, hsize₂, hsize₃, hfree⟩ : rets = [65600, 65552, 65608, 0] ∧
      h.heapstart.zip h.heapend = [(0x10000, 0x101f8)] ∧ h.mem.size 65536 = 8 ∧
      h.mem.size 65544 = 48 ∧ h.mem.size 65592 = 8 ∧ NodeFree h.mem 65592 := by
    simpa using hrets
  have hfits₁ : (memalign 64 0).Fits := ⟨⟨6, rfl⟩, by decide⟩
  have hfits₂ : (malloc 0x20).Fits := (by decide : 0x20 + 23 < 0x100000000)
  have hfits₃ : (malloc 0x150).Fits := (by decide : 0x150 + 23 < 0x100000000)
  refine ⟨h, _, reach_small heq ⟨trivial, hfits₁, trivial, trivial, hfits₂, trivial, trivial,
    hfits₃, trivial, .inr ?_, trivial, trivial, trivial⟩, fun hroom => ?_⟩
  · simp [liveAfter]
  -- the walk visits the first guard node, a chunk of 48 bytes, and the one of eight bytes
  have hvisited : Visited h.mem 0x10000 0x101f8 65592 := by
    have hstart : Visited h.mem 0x10000 0x101f8 0x10000 := .start
    have hfirst := hstart.step (by decide)
    rw [hsize₁] at hfirst
    have hsecond := hfirst.step (by decide)
    rwa [hsize₂] at hsecond
  have hsmall := hroom (0x10000, 0x101f8) (by rw [hregions]; exact mem_cons_self) 65592
    hvisited hfree
  rw [hsize₃] at hsmall
  exact absurd hsmall (by decide)

end NuttX
