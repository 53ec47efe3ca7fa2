import NuttX.Mm.WellFormed

/-!
# Calls of the memory manager

A task calls `malloc`, `free`, `realloc` or `memalign`, with pointers that it has been given and has
not freed. It holds the semaphore of the memory manager only for a part of a call: `realloc` gives it
back before it calls `malloc`, and again before it calls `free`; `memalign` gives it back after
`malloc`, and takes it again to cut the chunk down. What a call does while it holds the semaphore is
one step here, and `NuttX.MmWork` is what is then left to do. A call that is not interrupted does
what `NuttX.mmCall` does (`NuttX.mmCall_eq`).

`NuttX.StepOk` says what a step does to the heap. From it `NuttX.HeapWhole.call` has that a call
returns, that the heap is whole afterwards, and which pointers are then allocated. This needs a
condition on the call (`NuttX.MmCall.NoSliver`): that no chunk is put on the list that has no room
for the pointers of the list, and that the size which `realloc` passes on to `malloc`, rounded as it
is, does not wrap when it is rounded again.
-/

namespace NuttX

open MmLayout Option Set

/-- A call of the memory manager. -/
inductive MmCall where
  | malloc (size : ℕ)
  | free (mem : ℕ)
  | realloc (oldmem size : ℕ)
  | memalign (alignment size : ℕ)

/-- What a call does to memory, and what it returns. -/
def mmCall (nl : ℕ) (m : MmMem) : MmCall → Option (MmMem × ℕ)
  | .malloc size => mmMalloc nl m size
  | .free mem => (mmFree nl m mem).map fun m => (m, 0)
  | .realloc oldmem size => mmRealloc nl m oldmem size
  | .memalign alignment size => mmMemalign nl m alignment size

namespace MmCall

/-- The pointers that are allocated after a call that has returned `ret`. -/
def liveAfter (live : Set ℕ) : MmCall → ℕ → Set ℕ
  | .malloc _, ret => if ret = 0 then live else insert ret live
  | .free mem, _ => live \ {mem}
  | .realloc oldmem size, ret =>
    if oldmem ≠ 0 ∧ size = 0 then live \ {oldmem}
    else if ret = 0 then live else insert ret (live \ {oldmem})
  | .memalign _ _, ret => if ret = 0 then live else insert ret live

/-- A call frees or reallocates nothing but an allocated pointer, or the null pointer. -/
def OnLive (live : Set ℕ) : MmCall → Prop
  | .free mem => mem = 0 ∨ mem ∈ live
  | .realloc oldmem _ => oldmem = 0 ∨ oldmem ∈ live
  | _ => True

/-- The size that is asked for does not wrap when it is rounded, and an alignment is a power of
two. -/
def Fits : MmCall → Prop
  | .malloc size => size + 23 < 0x100000000
  | .free _ => True
  | .realloc _ size => size + 23 < 0x100000000
  | .memalign alignment size =>
    (∃ j, alignment = 2 ^ j) ∧
      if alignment ≤ mmMinChunk then size + 23 < 0x100000000
      else (size + 15) / 16 * 16 + 2 * alignment + 23 < 0x100000000

/-- The number of bytes that are asked for. -/
def asked : MmCall → ℕ
  | .free _ => 0
  | .malloc size | .realloc _ size | .memalign _ size => size

/-- `realloc` can allocate another chunk and free the one that it has been given. -/
def MoveOk (nl : ℕ) (m : MmMem) (oldmem n : ℕ) : Prop :=
  reallocChunk nl m oldmem n = some (m, none) →
    n + 23 < 0x100000000 ∧ ∀ m' newmem, mmMalloc nl m n = some (m', newmem) → newmem ≠ 0 →
      FreeOk (m'.memcpy newmem oldmem (m.size (oldmem - sizeofAllocnode))) oldmem

/-- **No chunk is put on the list that has no room for the pointers**, and `realloc` does not pass on
a size that wraps. -/
def NoSliver (nl : ℕ) (m : MmMem) : MmCall → Prop
  | .free mem => mem ≠ 0 → FreeOk m mem
  | .realloc oldmem size =>
    oldmem ≠ 0 → if size = 0 then FreeOk m oldmem
      else GrowOk m oldmem (chunkSize size) ∧ MoveOk nl m oldmem (chunkSize size)
  | _ => True

/-- `memalign` is not called. -/
def Plain : MmCall → Prop
  | .memalign _ _ => False
  | _ => True

end MmCall

/-! ### The steps of a call -/

/-- What a call has still to do when it has given the semaphore back. -/
inductive MmWork where
  | align (alignment size allocsize rawchunk : ℕ)
  | regrow (oldmem oldsize size : ℕ)
  | moved (oldmem newmem : ℕ)
deriving DecidableEq

/-- A step ends a call, or leaves something to do. -/
inductive MmOutcome where
  | done (ret : ℕ)
  | more (w : MmWork)
deriving DecidableEq

/-- The first step of a call. -/
def callStep (nl : ℕ) (m : MmMem) : MmCall → Option (MmMem × MmOutcome)
  | .malloc size => (mmMalloc nl m size).map fun (m, ret) => (m, .done ret)
  | .free mem => (mmFree nl m mem).map fun m => (m, .done 0)
  | .realloc oldmem size =>
    if oldmem = 0 then (mmMalloc nl m size).map fun (m, ret) => (m, .done ret)
    else if size = 0 then (mmFree nl m oldmem).map fun m => (m, .done 0)
    else
      let oldsize := m.size (oldmem - sizeofAllocnode)
      (reallocChunk nl m oldmem (chunkSize size)).map fun (m, ret) =>
        match ret with
        | some newmem => (m, .done newmem)
        | none => (m, .more (.regrow oldmem oldsize (chunkSize size)))
  | .memalign alignment size =>
    if alignment ≤ mmMinChunk then
      (mmMalloc nl m size).map fun (m, ret) => (m, .done ret)
    else
      let size := mmAlignUp size
      let allocsize := wrap32 (size + 2 * alignment)
      (mmMalloc nl m allocsize).map fun (m, rawchunk) =>
        if rawchunk = 0 then (m, .done 0)
        else (m, .more (.align alignment size allocsize rawchunk))

/-- A further step of a call. The copy of `realloc` goes with the step that allocates the chunk. -/
def workStep (nl : ℕ) (m : MmMem) : MmWork → Option (MmMem × MmOutcome)
  | .align alignment size allocsize rawchunk =>
    (alignChunk nl m alignment size allocsize rawchunk).map fun (m, ret) => (m, .done ret)
  | .regrow oldmem oldsize size =>
    (mmMalloc nl m size).map fun (m, newmem) =>
      if newmem ≠ 0 then (m.memcpy newmem oldmem oldsize, .more (.moved oldmem newmem))
      else (m, .done 0)
  | .moved oldmem newmem => (mmFree nl m oldmem).map fun m => (m, .done newmem)

/-- A call goes on without interruption, for a number of steps at most. -/
def finish (nl : ℕ) : ℕ → MmMem × MmOutcome → Option (MmMem × ℕ)
  | _, (m, .done ret) => some (m, ret)
  | 0, (_, .more _) => none
  | k + 1, (m, .more w) => (workStep nl m w).bind (finish nl k)

/-- A step that a task makes. -/
inductive MmStep where
  | call (c : MmCall)
  | work (w : MmWork)

/-- **No free chunk is too small or comes to lie behind another**: a chunk that is freed has room for
the pointers of the list, `realloc` passes on no size that wraps, and the chunk that `memalign` cuts
down does not lie behind a free one. -/
def MmStep.Tidy (m : MmMem) : MmStep → Prop
  | .call (.free mem) => mem ≠ 0 → FreeOk m mem
  | .call (.realloc oldmem size) =>
    oldmem ≠ 0 → if size = 0 then FreeOk m oldmem else GrowOk m oldmem (chunkSize size)
  | .call _ => True
  | .work (.align alignment _ _ rawchunk) => AlignOk m alignment rawchunk
  | .work (.regrow _ _ size) => size + 23 < 0x100000000
  | .work (.moved oldmem _) => FreeOk m oldmem

variable {nl : ℕ} {m m' : MmMem} {c : MmCall} {w : MmWork} {o : MmOutcome} {P : Set ℕ}
  {L L' : MmLayout} {a a' j n s s' : ℕ}

/-- **A call that is not interrupted**: its steps are the call. -/
theorem mmCall_eq (m : MmMem) (c : MmCall) :
    mmCall nl m c = (callStep nl m c).bind (finish nl 2) := by
  have hmalloc : ∀ size, mmMalloc nl m size =
      ((mmMalloc nl m size).map fun x => (x.1, MmOutcome.done x.2)).bind (finish nl 2) := by
    intro size
    cases mmMalloc nl m size <;> rfl
  have hfree : ∀ mem, ((mmFree nl m mem).map fun m => (m, 0)) =
      ((mmFree nl m mem).map fun m => (m, MmOutcome.done 0)).bind (finish nl 2) := by
    intro mem
    cases mmFree nl m mem <;> rfl
  cases c with
  | malloc size => exact hmalloc size
  | free mem => exact hfree mem
  | realloc oldmem size =>
    simp only [mmCall, mmRealloc, callStep]
    split_ifs with hold hsize
    · exact hmalloc size
    · cases mmFree nl m oldmem <;> rfl
    simp only [bind_eq_bind]
    cases reallocChunk nl m oldmem (chunkSize size) with
    | none => rfl
    | some r =>
      obtain ⟨m1, _ | newmem⟩ := r
      · -- another chunk is allocated, and the contents are copied
        simp only [bind_some, map_some, finish, workStep]
        cases mmMalloc nl m1 (chunkSize size) with
        | none => rfl
        | some r =>
          obtain ⟨m2, newmem⟩ := r
          simp only [bind_some, map_some]
          split_ifs with hnew
          · simp only [finish, workStep]
            cases mmFree nl (m2.memcpy newmem oldmem _) oldmem <;> rfl
          · rfl
      · rfl
  | memalign alignment size =>
    simp only [mmCall, mmMemalign, callStep]
    split_ifs with halign
    · exact hmalloc size
    simp only [bind_eq_bind]
    cases mmMalloc nl m (wrap32 (mmAlignUp size + 2 * alignment)) with
    | none => rfl
    | some r =>
      obtain ⟨m1, rawchunk⟩ := r
      simp only [bind_some, map_some]
      split_ifs with hraw
      · rfl
      · simp only [finish, workStep]
        cases alignChunk nl m1 alignment (mmAlignUp size)
          (wrap32 (mmAlignUp size + 2 * alignment)) rawchunk <;> rfl

/-! ### Pointers -/

/-- The pointers that a call takes from its task, until it gives them or others back. -/
def MmCall.claims : MmCall → Set ℕ
  | .free mem => {mem} \ {0}
  | .realloc oldmem _ => {oldmem} \ {0}
  | _ => ∅

/-- The pointers that a call holds while it has work to do. -/
def MmWork.holds : MmWork → Set ℕ
  | .align _ _ _ rawchunk => {rawchunk}
  | .regrow oldmem _ _ => {oldmem}
  | .moved oldmem newmem => {oldmem, newmem}

/-- The pointers that a call gives back to its task, or holds on to. -/
def MmOutcome.owns (c : MmCall) : MmOutcome → Set ℕ
  | .done ret => c.liveAfter c.claims ret
  | .more w => w.holds

theorem add_sizeofAllocnode_ne_zero (a : ℕ) : a + sizeofAllocnode ≠ 0 := Nat.succ_ne_zero _

@[simp] theorem sizeofAllocnode_ne_zero : sizeofAllocnode ≠ 0 := by decide

theorem zero_notMem_pointers : 0 ∉ L.pointers := by
  rintro ⟨q, -, hq⟩
  unfold sizeofAllocnode at hq
  omega

theorem MmLayout.mem_pointers : a + sizeofAllocnode ∈ L.pointers ↔ ∃ s, (a, s) ∈ L.used := by
  constructor
  · rintro ⟨⟨b, s⟩, hb, hab⟩
    exact ⟨s, Nat.add_right_cancel hab ▸ hb⟩
  · rintro ⟨s, hs⟩
    exact ⟨(a, s), hs, rfl⟩

theorem MmLayout.Sound.used_unique (h : L.Sound nl) (ha : (a, s) ∈ L.used)
    (ha' : (a, s') ∈ L.used) : s = s' :=
  congrArg Chunk.size (h.bodies_unique ha ha')

/-- The pointers of a set of chunks. -/
def pointersOf (S : Set (ℕ × ℕ)) : Set ℕ := Set.image (fun q => q.1 + sizeofAllocnode) S

@[simp] theorem pointersOf_empty : pointersOf ∅ = ∅ := Set.image_empty _

@[simp] theorem pointersOf_singleton : pointersOf {(a, s)} = {a + sizeofAllocnode} :=
  Set.image_singleton

theorem MmLayout.pointers_eq (L : MmLayout) : L.pointers = pointersOf L.used :=
  ext fun _ => exists_congr fun _ => and_congr_right fun _ => eq_comm

theorem Alters.pointers {old new : Set (ℕ × ℕ)} (h : Alters L L' old new) (hL : L.Sound nl)
    (hold : old ⊆ L.used) : L'.pointers = L.pointers \ pointersOf old ∪ pointersOf new := by
  -- a used chunk is known by its address
  have hinj : L.used.InjOn fun q => q.1 + sizeofAllocnode := by
    rintro ⟨b, t⟩ hb ⟨b', t'⟩ hb' heq
    obtain rfl : b = b' := Nat.add_right_cancel heq
    rw [hL.used_unique hb hb']
  rw [pointers_eq, h.used, pointersOf, image_union, hinj.image_sdiff_subset hold, pointers_eq]
  rfl

/-! ### What a step does -/

/-- A pointer of a used chunk with room for `n` bytes. -/
def MmLayout.Holds (L : MmLayout) (ret n : ℕ) : Prop :=
  ∃ a s, ret = a + sizeofAllocnode ∧ (a, s) ∈ L.used ∧ n + sizeofAllocnode ≤ s

/-- What `malloc`, `free` and `realloc` preserve. -/
structure Tidy (L L' : MmLayout) : Prop where
  coalesced : L.Coalesced → L'.Coalesced
  even : L.Even → L'.Even

theorem chunkSize_spec (hn : n + 23 < 0x100000000) :
    8 ≤ chunkSize n ∧ 16 ∣ chunkSize n ∧ n + sizeofAllocnode ≤ chunkSize n := by
  rw [chunkSize_eq hn]
  unfold sizeofAllocnode
  omega

/-- What is left to do is about chunks of the heap, and belongs to the call. -/
def MmWork.Fine (L : MmLayout) : MmCall → MmWork → Prop
  | .memalign _ n, .align alignment size allocsize rawchunk =>
    ∃ j a s, alignment = 2 ^ j ∧ mmMinChunk < 2 ^ j ∧ 8 ∣ size ∧ n ≤ size ∧
      allocsize = size + 2 * 2 ^ j ∧ size + 2 * 2 ^ j + 16 ≤ s ∧ rawchunk = a + sizeofAllocnode ∧
      (a, s) ∈ L.used
  | .realloc old n, .regrow oldmem oldsize newsize =>
    old = oldmem ∧ n ≠ 0 ∧ n + sizeofAllocnode ≤ newsize ∧ oldsize < newsize ∧
      ∃ a, oldmem = a + sizeofAllocnode ∧ (a, oldsize) ∈ L.used
  | .realloc old n, .moved oldmem newmem =>
    old = oldmem ∧ n ≠ 0 ∧ oldmem ≠ newmem ∧ oldmem ∈ L.pointers ∧ L.Holds newmem n
  | _, _ => False

/-- A call that has returned a pointer has one with room for what it has asked for. -/
def MmOutcome.Fine (L : MmLayout) (c : MmCall) : MmOutcome → Prop
  | .done ret => ret ≠ 0 → L.Holds ret c.asked
  | .more w => w.Fine L c

/-- Used chunks stay as they are, but for those with pointers in a set. -/
def KeepsBut (L L' : MmLayout) (P : Set ℕ) : Prop :=
  ∀ a s, (a, s) ∈ L.used → a + sizeofAllocnode ∉ P → (a, s) ∈ L'.used

theorem KeepsBut.pointers {p : ℕ} (h : KeepsBut L L' P) (hp : p ∈ L.pointers) (hne : p ∉ P) :
    p ∈ L'.pointers := by
  obtain ⟨⟨a, s⟩, ha, rfl⟩ := hp
  exact ⟨_, h a s ha hne, rfl⟩

theorem MmLayout.Holds.mem_pointers {ret : ℕ} (h : L.Holds ret n) : ret ∈ L.pointers := by
  obtain ⟨a, s, rfl, ha, -⟩ := h
  exact MmLayout.mem_pointers.mpr ⟨s, ha⟩

/-- **What a step does**, in a call that holds the pointers `P`: the chunks of others are kept, and
what the call holds or gives back are pointers that it has held, or new ones. Under the condition `A`
no two free chunks come to lie side by side. -/
structure StepOk (nl : ℕ) (A : Prop) (L : MmLayout) (c : MmCall) (P : Set ℕ) (m' : MmMem)
    (o : MmOutcome) (L' : MmLayout) : Prop where
  whole : HeapWhole nl m' L'
  spans : L'.spans = L.spans
  coalesced : A → L.Coalesced → L'.Coalesced
  even : c.Plain → L.Even → L'.Even
  keeps : KeepsBut L L' P
  pointers : L'.pointers = L.pointers \ P ∪ o.owns c
  fresh : ∀ p ∈ o.owns c, p ∈ P ∨ p ∉ L.pointers
  fine : o.Fine L' c

namespace StepOk

variable {A B : Prop}

/-- **A step that alters chunks of the call.** -/
theorem of_alters {old new : Set (ℕ × ℕ)} (hL : L.Sound nl) (h : HeapWhole nl m' L')
    (halters : Alters L L' old new) (hold : old ⊆ L.used)
    (hcoal : A → L.Coalesced → L'.Coalesced) (heven : c.Plain → L.Even → L'.Even)
    (hP : P ⊆ L.pointers) (hsub : pointersOf old ⊆ P)
    (howns : o.owns c = P \ pointersOf old ∪ pointersOf new) (hfine : o.Fine L' c) :
    StepOk nl A L c P m' o L' := by
  refine ⟨h, halters.spans, hcoal, heven, fun b t hb hne => ?_, ?_, ?_, hfine⟩
  · rw [halters.used]
    exact .inl ⟨hb, fun hmem => hne (hsub ⟨_, hmem, rfl⟩)⟩
  · rw [halters.pointers hL hold, howns, ← union_assoc, sdiff_union_sdiff_cancel hP hsub]
  · rw [howns]
    rintro p (hp | ⟨⟨b, t⟩, hb, rfl⟩)
    · exact .inl hp.1
    · refine or_iff_not_imp_right.mpr fun hmem => ?_
      obtain ⟨t', ht'⟩ := MmLayout.mem_pointers.mp (not_not.mp hmem)
      exact hsub ⟨_, halters.fresh b t t' hb ht', rfl⟩

/-- A step that does nothing. -/
theorem refl (h : HeapWhole nl m L) (hP : P ⊆ L.pointers) (howns : o.owns c = P)
    (hfine : o.Fine L c) : StepOk nl A L c P m o L :=
  of_alters h.sound h (show Alters L L ∅ ∅ from ⟨rfl, by simp, fun _ _ _ hfalse => hfalse.elim⟩)
    (empty_subset _) (fun _ => id) (fun _ => id) hP (by simp) (by simp [howns]) hfine

/-- **Two steps of a call**, one after the other. -/
theorem comp {m₁ : MmMem} {L₁ : MmLayout} (h : StepOk nl A L c P m₁ (.more w) L₁)
    (h' : StepOk nl B L₁ c w.holds m' o L') : StepOk nl (A ∧ B) L c P m' o L' := by
  have hnew : ∀ p ∈ w.holds, p ∈ L.pointers → p ∈ P :=
    fun p hp hmem => (h.fresh p hp).resolve_right (not_not.mpr hmem)
  refine ⟨h'.whole, h'.spans.trans h.spans, fun hAB => h'.coalesced hAB.2 ∘ h.coalesced hAB.1,
    fun hplain => h'.even hplain ∘ h.even hplain, fun a s ha hne => ?_, ?_, fun p hp => ?_, h'.fine⟩
  · exact h'.keeps a s (h.keeps a s ha hne) fun hw => hne (hnew _ hw (mem_pointers.mpr ⟨s, ha⟩))
  · have hdisj : Disjoint (L.pointers \ P) w.holds :=
      disjoint_left.mpr fun p hp hw => hp.2 (hnew p hw hp.1)
    rw [h'.pointers, h.pointers, MmOutcome.owns, union_sdiff_right, hdisj.sdiff_eq_left]
  · rcases h'.fresh p hp with hw | hnot
    · exact h.fresh p hw
    · rw [h.pointers] at hnot
      exact or_iff_not_imp_left.mpr fun hP hmem => hnot (.inl ⟨hmem, hP⟩)

end StepOk

namespace HeapWhole

section

variable (h : HeapWhole nl m L)

include h

/-- **`malloc`**, for a size that does not wrap. -/
theorem mmMalloc (hn : n + 23 < 0x100000000) :
    NuttX.mmMalloc nl m n = some (m, 0) ∨
      ∃ m' L' a s, NuttX.mmMalloc nl m n = some (m', a + sizeofAllocnode) ∧
        chunkSize n ≤ s ∧ HeapWhole nl m' L' ∧ Alters L L' ∅ {(a, s)} ∧ Tidy L L' := by
  unfold NuttX.mmMalloc
  split_ifs with hzero
  · exact .inl rfl
  · obtain ⟨hlarge, hdvd, -⟩ := chunkSize_spec hn
    refine (h.malloc ⟨hlarge, (by decide : 8 ∣ 16).trans hdvd⟩).imp_right ?_
    rintro ⟨m', L', a, s, hmalloc, hle, hwhole, halters, hcoal, heven⟩
    exact ⟨m', L', a, s, hmalloc, hle, hwhole, halters, hcoal, heven hdvd⟩

theorem payload (ha : (a, s) ∈ L.used)
    (hm : ∀ w, (w < a + sizeofAllocnode ∨ a + s ≤ w) → m' w = m w) : HeapWhole nl m' L := by
  obtain ⟨k, rfl, rfl⟩ := MmCtx.exists_fill ha
  exact ((h.held (by simp)).payload hm).whole (by simp)

theorem size_used (ha : (a, s) ∈ L.used) : m.size a = s :=
  h.size_eq (mem_placed_of_mem_bodies ha)

theorem mmMalloc_copy (ha : (a, s) ∈ L.used) (hlt : s < n) (hn : n + 23 < 0x100000000) :
    NuttX.mmMalloc nl m n = some (m, 0) ∨
      ∃ m1 L1 a' s', NuttX.mmMalloc nl m n = some (m1, a' + sizeofAllocnode) ∧
        HeapWhole nl (m1.memcpy (a' + sizeofAllocnode) (a + sizeofAllocnode) s) L1 ∧
        Alters L L1 ∅ {(a', s')} ∧ n ≤ s' ∧ (a, s) ∈ L1.used ∧ a' ≠ a ∧ Tidy L L1 := by
  refine (h.mmMalloc hn).imp_right ?_
  rintro ⟨m1, L1, a', s', hmalloc, hle, hwhole, halters, htidy⟩
  have hlarge := (chunkSize_spec hn).2.2
  refine ⟨m1, L1, a', s', hmalloc, ?_, halters, by omega, ?_, ?_, htidy⟩
  · -- the copy stays inside of the new chunk
    refine hwhole.payload halters.mem_used fun w hw => ?_
    unfold MmMem.memcpy
    rw [if_neg (by omega)]
  · rw [halters.used, sdiff_empty]
    exact .inl ha
  · rintro rfl
    exact halters.fresh a' s' s rfl ha

/-! ### The steps -/

theorem step_malloc (hn : n + 23 < 0x100000000) (hclaims : c.claims = ∅) (hasked : c.asked = n)
    (howns : ∀ ret, (MmOutcome.done ret).owns c = if ret = 0 then ∅ else {ret}) :
    ∃ m' o L', ((NuttX.mmMalloc nl m n).map fun x => (x.1, MmOutcome.done x.2)) = some (m', o) ∧
      StepOk nl True L c c.claims m' o L' := by
  rw [hclaims]
  rcases h.mmMalloc hn with hnone | ⟨m', L', a, s, hmalloc, hle, hwhole, halters, htidy⟩
  · refine ⟨m, .done 0, L, by rw [hnone]; rfl, .refl h (empty_subset _) ?_ (absurd rfl)⟩
    rw [howns, if_pos rfl]
  · refine ⟨m', .done (a + sizeofAllocnode), L', by rw [hmalloc]; rfl,
      .of_alters h.sound hwhole halters (empty_subset _) (fun _ => htidy.coalesced)
        (fun _ => htidy.even) (empty_subset _) (by simp) ?_ fun _ => ?_⟩
    · simp [howns]
    · rw [hasked]
      exact ⟨a, s, rfl, halters.mem_used, (chunkSize_spec hn).2.2.trans hle⟩

theorem step_free {mem : ℕ} (hmem : mem ∈ L.pointers) (hok : FreeOk m mem)
    (hclaims : c.claims = {mem}) (howns : (MmOutcome.done 0).owns c = ∅) :
    ∃ m' o L', ((mmFree nl m mem).map fun m => (m, MmOutcome.done 0)) = some (m', o) ∧
      StepOk nl True L c c.claims m' o L' := by
  obtain ⟨⟨a, s⟩, ha, rfl⟩ := hmem
  obtain ⟨m', L', hfree, hwhole, halters, hcoal, heven⟩ := h.free ha hok
  rw [hclaims]
  exact ⟨m', .done 0, L', by rw [hfree]; rfl, .of_alters h.sound hwhole halters
    (singleton_subset_iff.mpr ha) (fun _ => hcoal) (fun _ => heven)
    (singleton_subset_iff.mpr (mem_pointers.mpr ⟨s, ha⟩)) (by simp) (by simp [howns])
    (absurd rfl)⟩

omit h in
theorem claims_realloc (a n : ℕ) :
    (MmCall.realloc (a + sizeofAllocnode) n).claims = {a + sizeofAllocnode} := by
  simp [MmCall.claims, sdiff_singleton_eq_self, (add_sizeofAllocnode_ne_zero a).symm]

theorem step_realloc (ha : (a, s) ∈ L.used) (hn0 : n ≠ 0) (hn : n + 23 < 0x100000000)
    (hok : GrowOk m (a + sizeofAllocnode) (chunkSize n)) :
    ∃ m' o L', callStep nl m (.realloc (a + sizeofAllocnode) n) = some (m', o) ∧
      StepOk nl True L (.realloc (a + sizeofAllocnode) n) {a + sizeofAllocnode} m' o L' := by
  obtain ⟨hlarge, hdvd, hroom⟩ := chunkSize_spec hn
  have hptr : {a + sizeofAllocnode} ⊆ L.pointers :=
    singleton_subset_iff.mpr (mem_pointers.mpr ⟨s, ha⟩)
  simp only [callStep, if_neg (add_sizeofAllocnode_ne_zero a), if_neg hn0, Nat.add_sub_cancel,
    h.size_used ha]
  rcases h.realloc ha ⟨hlarge, (by decide : 8 ∣ 16).trans hdvd⟩ hok with
    ⟨hnone, hlt⟩ | ⟨m', L', a', s', hsome, hle, hwhole, halters, hcoal, heven⟩
  · exact ⟨m, .more (.regrow (a + sizeofAllocnode) s (chunkSize n)), L, by rw [hnone]; rfl,
      .refl h hptr rfl ⟨rfl, hn0, hroom, hlt, a, rfl, ha⟩⟩
  · refine ⟨m', _, L', by rw [hsome]; rfl, .of_alters h.sound hwhole halters
      (singleton_subset_iff.mpr ha) (fun _ => hcoal) (fun _ => heven hdvd) hptr (by simp) ?_ ?_⟩
    · simp [MmOutcome.owns, MmCall.liveAfter, claims_realloc, hn0]
    · exact fun _ => ⟨a', s', rfl, halters.mem_used, hroom.trans hle⟩

theorem step_memalign (hj : mmMinChunk < 2 ^ j)
    (hn : (n + 15) / 16 * 16 + 2 * 2 ^ j + 23 < 0x100000000) :
    ∃ m' o L', callStep nl m (.memalign (2 ^ j) n) = some (m', o) ∧
      StepOk nl True L (.memalign (2 ^ j) n) ∅ m' o L' := by
  have hpow := dvd_two_pow hj
  obtain ⟨n', hn'⟩ : ∃ n', n' = (n + 15) / 16 * 16 := ⟨_, rfl⟩
  rw [← hn'] at hn
  have hup : mmAlignUp n = n' := by
    rw [mmAlignUp_eq (by omega), hn']
  have hwrap : wrap32 (n' + 2 * 2 ^ j) = n' + 2 * 2 ^ j := Nat.mod_eq_of_lt (by omega)
  have hchunk : n' + 2 * 2 ^ j + 16 ≤ chunkSize (n' + 2 * 2 ^ j) := by
    rw [chunkSize_eq (by omega)]
    omega
  simp only [callStep, if_neg (not_le.mpr hj), hup, hwrap]
  rcases h.mmMalloc hn with hnone | ⟨m', L', a, s, hmalloc, hle, hwhole, halters, htidy⟩
  · refine ⟨m, .done 0, L, by rw [hnone]; rfl, .refl h (empty_subset _) ?_ (absurd rfl)⟩
    simp [MmOutcome.owns, MmCall.liveAfter, MmCall.claims]
  refine ⟨m', .more (.align (2 ^ j) n' (n' + 2 * 2 ^ j) (a + sizeofAllocnode)), L', ?_,
    .of_alters h.sound hwhole halters (empty_subset _) (fun _ => htidy.coalesced)
      (fun _ => htidy.even) (empty_subset _) (by simp) (by simp [MmOutcome.owns, MmWork.holds])
      ⟨j, a, s, rfl, hj, by omega, by omega, rfl, hchunk.trans hle, rfl, halters.mem_used⟩⟩
  simp only [hmalloc, map_some, if_neg (add_sizeofAllocnode_ne_zero a)]

/-- **The first step of a call.** -/
theorem callStep_spec (hlive : c.OnLive L.pointers) (hfits : c.Fits)
    (hok : (MmStep.call c).Tidy m) :
    ∃ m' o L', callStep nl m c = some (m', o) ∧ StepOk nl True L c c.claims m' o L' := by
  cases c with
  | malloc size =>
    exact h.step_malloc hfits rfl rfl fun ret => by
      simp [MmOutcome.owns, MmCall.liveAfter, MmCall.claims]
  | free mem =>
    rcases Nat.eq_zero_or_pos mem with rfl | hpos
    · refine ⟨m, .done 0, L, rfl, .refl h ?_ ?_ (absurd rfl)⟩ <;>
      · simp [MmOutcome.owns, MmCall.liveAfter, MmCall.claims]
    · exact h.step_free (hlive.resolve_left hpos.ne') (hok hpos.ne')
        (Set.sdiff_singleton_eq_self hpos.ne)
        (by simp [MmOutcome.owns, MmCall.liveAfter, MmCall.claims])
  | realloc oldmem size =>
    rcases Nat.eq_zero_or_pos oldmem with rfl | hpos
    · exact h.step_malloc hfits (Set.sdiff_self ..) rfl fun ret => by
        simp [MmOutcome.owns, MmCall.liveAfter, MmCall.claims]
    have hok := hok hpos.ne'
    obtain ⟨⟨a, s⟩, ha, rfl⟩ := hlive.resolve_left hpos.ne'
    rcases Nat.eq_zero_or_pos size with rfl | hsize
    · refine h.step_free (mem_pointers.mpr ⟨s, ha⟩) hok (claims_realloc a 0) ?_
      simp only [MmOutcome.owns, MmCall.liveAfter, claims_realloc]
      rw [if_pos ⟨hpos.ne', trivial⟩, Set.sdiff_self]
    · rw [if_neg hsize.ne'] at hok
      rw [claims_realloc]
      exact h.step_realloc ha hsize.ne' hfits hok
  | memalign alignment size =>
    obtain ⟨⟨j, rfl⟩, hsize⟩ := hfits
    by_cases hj : 2 ^ j ≤ mmMinChunk
    · rw [if_pos hj] at hsize
      simp only [callStep, if_pos hj]
      exact h.step_malloc hsize rfl rfl fun ret => by
        simp [MmOutcome.owns, MmCall.liveAfter, MmCall.claims]
    · rw [if_neg hj] at hsize
      exact h.step_memalign (not_le.mp hj) hsize

/-- **A further step of a call.** -/
theorem workStep_spec (hw : (MmOutcome.more w).Fine L c) (hok : c.Plain → (MmStep.work w).Tidy m) :
    ∃ m' o L', workStep nl m w = some (m', o) ∧
      StepOk nl ((MmStep.work w).Tidy m) L c w.holds m' o L' := by
  cases w with
  | align alignment size allocsize rawchunk =>
    cases c with
    | memalign _ _ =>
      obtain ⟨j, a, s, rfl, hj, hdvd, hasked, rfl, hle, rfl, ha⟩ := hw
      obtain ⟨m', L', a', halign, hwhole, halters, hcoal⟩ := h.align ha hj hdvd hle
      refine ⟨m', .done (a' + sizeofAllocnode), L', by rw [workStep, halign]; rfl,
        .of_alters h.sound hwhole halters (singleton_subset_iff.mpr ha) hcoal False.elim
          (singleton_subset_iff.mpr (mem_pointers.mpr ⟨s, ha⟩)) (by simp [MmWork.holds]) ?_
          fun _ => ⟨a', _, rfl, halters.mem_used, Nat.add_le_add_right hasked _⟩⟩
      simp [MmOutcome.owns, MmWork.holds, MmCall.liveAfter, MmCall.claims]
    | _ => exact hw.elim
  | regrow oldmem oldsize size =>
    cases c with
    | realloc old n =>
      obtain ⟨rfl, hn, hroom, hlt, a, rfl, ha⟩ := hw
      have hptr : {a + sizeofAllocnode} ⊆ L.pointers :=
        singleton_subset_iff.mpr (mem_pointers.mpr ⟨oldsize, ha⟩)
      rcases h.mmMalloc_copy ha hlt (hok trivial) with
        hnone | ⟨m1, L1, a', s', hmalloc, hcopy, halters, hle, hused, hne, htidy⟩
      · refine ⟨m, .done 0, L, by rw [workStep, hnone]; rfl, .refl h hptr ?_ (absurd rfl)⟩
        simp [MmOutcome.owns, MmWork.holds, MmCall.liveAfter, claims_realloc, hn]
      · refine ⟨_, .more (.moved (a + sizeofAllocnode) (a' + sizeofAllocnode)), L1, ?_,
          .of_alters h.sound hcopy halters (empty_subset _) (fun _ => htidy.coalesced)
            (fun _ => htidy.even) hptr (by simp) ?_ ⟨rfl, hn,
              fun heq => hne (Nat.add_right_cancel heq).symm, mem_pointers.mpr ⟨_, hused⟩, a', s',
              rfl, halters.mem_used, hroom.trans hle⟩⟩
        · rw [workStep, hmalloc]
          simp only [map_some, ne_eq, add_sizeofAllocnode_ne_zero, not_false_eq_true, if_true]
        · simp [MmOutcome.owns, MmWork.holds, pair_comm]
    | _ => exact hw.elim
  | moved oldmem newmem =>
    cases c with
    | realloc old n =>
      obtain ⟨rfl, hn, hne, ⟨⟨a, s⟩, ha, rfl⟩, hnew⟩ := hw
      obtain ⟨m', L', hfree, hwhole, halters, hcoal, heven⟩ := h.free ha (hok trivial)
      have hnull : newmem ≠ 0 := fun hnull => zero_notMem_pointers (hnull ▸ hnew.mem_pointers)
      refine ⟨m', .done newmem, L', by rw [workStep, hfree]; rfl,
        .of_alters h.sound hwhole halters (singleton_subset_iff.mpr ha) (fun _ => hcoal)
          (fun _ => heven) (insert_subset (mem_pointers.mpr ⟨s, ha⟩)
            (singleton_subset_iff.mpr hnew.mem_pointers)) (by simp [MmWork.holds]) ?_
          fun _ => ?_⟩
      · have hnot : a + sizeofAllocnode ∉ ({newmem} : Set ℕ) := hne
        simp [MmOutcome.owns, MmWork.holds, MmCall.liveAfter, claims_realloc, hn, hnull,
          insert_sdiff_of_mem, sdiff_singleton_eq_self hnot]
      · obtain ⟨b, t, rfl, hb, hle⟩ := hnew
        refine ⟨b, t, rfl, ?_, hle⟩
        rw [halters.used]
        exact .inl ⟨hb, fun heq => hne (congrArg (·.1 + sizeofAllocnode) heq.symm)⟩
    | _ => exact hw.elim

/-! ### Whole calls -/

omit h in
/-- What a call takes and what it gives back. -/
theorem liveAfter_claims {live : Set ℕ} {ret : ℕ} (hlive : c.OnLive live) (h0 : 0 ∉ live) :
    live \ c.claims ∪ c.liveAfter c.claims ret = c.liveAfter live ret := by
  have hne : ∀ p ∈ live, p ≠ 0 := fun p hp hzero => h0 (hzero ▸ hp)
  cases c with
  | malloc size | memalign alignment size =>
    ext p
    simp only [MmCall.liveAfter, MmCall.claims]
    grind
  | free mem =>
    ext p
    simp only [MmCall.liveAfter, MmCall.claims]
    grind
  | realloc oldmem size =>
    ext p
    simp only [MmCall.OnLive, MmCall.liveAfter, MmCall.claims] at *
    grind

theorem realloc_none (ha : (a, s) ∈ L.used) (hn : n + 23 < 0x100000000)
    (hok : GrowOk m (a + sizeofAllocnode) (chunkSize n))
    (hchunk : reallocChunk nl m (a + sizeofAllocnode) (chunkSize n) = some (m', none)) :
    m' = m ∧ s < chunkSize n := by
  obtain ⟨hlarge, hdvd, -⟩ := chunkSize_spec hn
  rcases h.realloc ha ⟨hlarge, (by decide : 8 ∣ 16).trans hdvd⟩ hok with
    ⟨hnone, hlt⟩ | ⟨m₁, L₁, a', s', hsome, -⟩
  · rw [hchunk] at hnone
    cases hnone
    exact ⟨rfl, hlt⟩
  · rw [hchunk] at hsome
    cases hsome

omit h in
theorem callStep_regrow {oldmem size : ℕ}
    (hstep : callStep nl m (.realloc oldmem size) = some (m', .more w)) :
    oldmem ≠ 0 ∧ size ≠ 0 ∧ reallocChunk nl m oldmem (chunkSize size) = some (m', none) ∧
      w = .regrow oldmem (m.size (oldmem - sizeofAllocnode)) (chunkSize size) := by
  simp only [callStep] at hstep
  split_ifs at hstep with hold hsize <;> obtain ⟨r, hr, heq⟩ := Option.map_eq_some_iff.mp hstep
  · cases heq
  · cases heq
  · obtain ⟨m₁, _ | newmem⟩ := r
    · cases heq
      exact ⟨hold, hsize, hr, rfl⟩
    · cases heq

/-- **A call of the memory manager**: it returns, and the heap is whole. -/
theorem call (hlive : c.OnLive L.pointers) (hfits : c.Fits) (hok : c.NoSliver nl m) :
    ∃ m' ret L' A, mmCall nl m c = some (m', ret) ∧ (c.Plain → A) ∧
      StepOk nl A L c c.claims m' (.done ret) L' := by
  have htidy : (MmStep.call c).Tidy m := by
    cases c with
    | realloc oldmem size =>
      intro hne
      have hok := hok hne
      split_ifs at hok ⊢
      exacts [hok, hok.1]
    | _ => exact hok
  obtain ⟨m₁, o, L₁, hcall, hstep⟩ := h.callStep_spec hlive hfits htidy
  rw [mmCall_eq, hcall, bind_some]
  rcases o with ret | w
  · exact ⟨m₁, ret, L₁, True, rfl, fun _ => trivial, hstep⟩
  have hfine : w.Fine L₁ c := hstep.fine
  cases c with
  | realloc oldmem size =>
    obtain ⟨hold, hsize, hchunk, rfl⟩ := callStep_regrow hcall
    obtain ⟨⟨a, s⟩, ha, rfl⟩ := hlive.resolve_left hold
    have hok := hok hold
    rw [if_neg hsize] at hok
    obtain ⟨rfl, -⟩ := h.realloc_none ha hfits hok.1 hchunk
    obtain ⟨hwrap, hfree⟩ := hok.2 hchunk
    obtain ⟨m₂, o₂, L₂, hwork, hstep₂⟩ := hstep.whole.workStep_spec hstep.fine fun _ => hwrap
    obtain ⟨⟨m', newmem⟩, hmalloc, hr⟩ := Option.map_eq_some_iff.mp hwork
    have hcomp := hstep.comp hstep₂
    simp only [finish, hwork, bind_some]
    dsimp only at hr
    split_ifs at hr with hnew
    · cases hr
      obtain ⟨m₃, o₃, L₃, hwork₃, hstep₃⟩ :=
        hstep₂.whole.workStep_spec hstep₂.fine fun _ => hfree _ _ hmalloc hnew
      obtain ⟨m₃', -, hr₃⟩ := Option.map_eq_some_iff.mp hwork₃
      cases hr₃
      exact ⟨m₃, newmem, L₃, _, by simp only [finish, hwork₃, bind_some],
        fun _ => ⟨⟨trivial, hwrap⟩, hfree _ _ hmalloc hnew⟩, hcomp.comp hstep₃⟩
    · cases hr
      exact ⟨m₂, 0, L₂, _, rfl, fun _ => ⟨trivial, hwrap⟩, hcomp⟩
  | memalign alignment size =>
    cases w with
    | align _ _ _ rawchunk =>
      obtain ⟨m₂, o₂, L₂, hwork, hstep₂⟩ := hstep.whole.workStep_spec hstep.fine False.elim
      obtain ⟨⟨m', ret⟩, -, hr⟩ := Option.map_eq_some_iff.mp hwork
      cases hr
      exact ⟨m₂, ret, L₂, _, by simp only [finish, hwork, bind_some], False.elim, hstep.comp hstep₂⟩
    | _ => exact hfine.elim
  | _ => cases w <;> exact hfine.elim

/-! ### Sizes that are multiples of 16 -/

theorem freeOk_of_even (heven : L.Even) (ha : (a, s) ∈ L.used) :
    FreeOk m (a + sizeofAllocnode) := by
  obtain ⟨R, hR, hx⟩ := mem_bodies.mp ha
  have hdvd := heven R hR _ (mem_of_mem_place hx)
  have hroom := h.sound.room_placed (mem_placed_of_mem_bodies ha)
  unfold FreeOk
  rw [Nat.add_sub_cancel, h.size_used ha]
  unfold sizeofAllocnode at hroom
  unfold sizeofFreenode
  dsimp only at hdvd hroom
  omega

theorem growOk_of_even (heven : L.Even) (ha : (a, s) ∈ L.used) (hn : 16 ∣ n) :
    GrowOk m (a + sizeofAllocnode) n := by
  obtain ⟨k, hL, -, hsize, -⟩ := h.exists_pads ha
  rw [hL, MmCtx.fill_padRight, MmCtx.fill_padLeft] at heven
  have hdvd := MmCtx.dvd_of_even heven
  simp only [List.forall_mem_append, dvd_pad_iff, List.forall_mem_cons] at hdvd
  obtain ⟨hp, ⟨hs, -⟩, hq⟩ := hdvd
  unfold GrowOk
  simp only [Nat.add_sub_cancel, hsize]
  intro hlt hle
  have htakes := dvd_reallocTakes (Nat.dvd_sub hn hs) hp hq
  have hspec := reallocTakes_spec (n - s) (prevFree m a) (nextFree m a) (by omega) (by omega)
  unfold LeavesRoom sizeofFreenode
  omega

/-- **When all sizes are multiples of 16**, every chunk has room for the pointers. -/
theorem noSliver_of_even {c : MmCall} (heven : L.Even) (hlive : c.OnLive L.pointers)
    (hfits : c.Fits)
    (hwrap : ∀ oldmem size, c = .realloc oldmem size → chunkSize size + 23 < 0x100000000) :
    c.NoSliver nl m := by
  cases c with
  | malloc size | memalign alignment size => trivial
  | free mem =>
    intro hne
    obtain ⟨⟨a, s⟩, ha, rfl⟩ := hlive.resolve_left hne
    exact h.freeOk_of_even heven ha
  | realloc oldmem size =>
    intro hne
    obtain ⟨⟨a, s⟩, ha, rfl⟩ := hlive.resolve_left hne
    have hwrap := hwrap _ _ rfl
    split_ifs with hsize
    · exact h.freeOk_of_even heven ha
    have hgrow := h.growOk_of_even heven ha (chunkSize_spec hfits).2.1
    refine ⟨hgrow, fun hnone => ⟨hwrap, ?_⟩⟩
    intro m' newmem hmalloc hnew
    obtain ⟨-, hlt⟩ := h.realloc_none ha hfits hgrow hnone
    rcases h.mmMalloc_copy ha hlt hwrap with
      hzero | ⟨m1, L1, a', s', hsome, hcopy, -, -, hused, -, htidy⟩
    · rw [hzero] at hmalloc
      exact absurd (Prod.mk.inj (some.inj hmalloc)).2.symm hnew
    · rw [hsome] at hmalloc
      cases hmalloc
      rw [Nat.add_sub_cancel, h.size_used ha]
      exact hcopy.freeOk_of_even (htidy.even heven) hused

end

end HeapWhole

end NuttX
