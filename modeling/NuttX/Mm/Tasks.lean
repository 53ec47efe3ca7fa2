import NuttX.Mm.Runs

/-!
# Tasks that share a heap

Between the steps of a call other tasks can make theirs. `NuttX.TasksReach` has the states that any
number of tasks can reach in any order of these steps. If
the chunk that `memalign` cuts down does not lie behind a free one when the semaphore is taken again,
then no two free chunks lie side by side (`NuttX.coalesced_of_tasks`). Without this condition they
can: the chunk before it may have been freed in between (`NuttX.memalign_leaves_neighbours`).
-/

namespace NuttX

open Function MmCall MmLayout Option Set

/-! ### States of the tasks -/

/-- The heap, the pointers that are allocated and that no call has taken, and the calls of the tasks
that have work to do. -/
structure MmTasks where
  heap : MmHeap
  live : Set ℕ
  pending : ℕ → Option (MmCall × MmWork)

/-- The state after a step of the task `t`, in its call `c`. -/
def MmTasks.after (s : MmTasks) (t : ℕ) (c : MmCall) (m : MmMem) (o : MmOutcome) : MmTasks where
  heap := { s.heap with mem := m }
  live := match o with
    | .done _ => (s.live \ c.claims) ∪ o.owns c
    | .more _ => s.live \ c.claims
  pending := update s.pending t <| match o with
    | .done _ => none
    | .more w => some (c, w)

/-- **The states that the tasks can reach**, in any order of their steps, when every step meets the
condition `ok`. The heap at the start is made by `mm_initialize` and `mm_addregion`, without calls. -/
inductive TasksReach (nl : ℕ) (ok : MmMem → MmStep → Prop) : MmTasks → Prop
  | init {h : MmHeap} (hreach : MmReach nl (fun _ _ => False) h ∅) :
      TasksReach nl ok ⟨h, ∅, fun _ => none⟩
  | call {s : MmTasks} {t : ℕ} {c : MmCall} {m' : MmMem} {o : MmOutcome}
      (hreach : TasksReach nl ok s) (hidle : s.pending t = none) (hlive : c.OnLive s.live)
      (hfits : c.Fits) (hok : ok s.heap.mem (.call c))
      (hstep : callStep nl s.heap.mem c = some (m', o)) :
      TasksReach nl ok (s.after t c m' o)
  | work {s : MmTasks} {t : ℕ} {c : MmCall} {w : MmWork} {m' : MmMem} {o : MmOutcome}
      (hreach : TasksReach nl ok s) (hpending : s.pending t = some (c, w))
      (hok : ok s.heap.mem (.work w)) (hstep : workStep nl s.heap.mem w = some (m', o)) :
      TasksReach nl ok (s.after t c m' o)
  | write {s : MmTasks} {p w v : ℕ} (hreach : TasksReach nl ok s) (hp : p ∈ s.live) (hge : p ≤ w)
      (hlt : w < p - sizeofAllocnode + s.heap.mem.size (p - sizeofAllocnode)) :
      TasksReach nl ok { s with heap := { s.heap with mem := update s.heap.mem w v } }

/-! ### The work of a call -/

variable {nl : ℕ} {m m' : MmMem} {L L' : MmLayout} {c : MmCall} {w : MmWork} {o : MmOutcome}
  {P : Set ℕ}

/-- The work of a call is about the pointers that the call holds. -/
theorem MmWork.Fine.mono (h : w.Fine L c) (hkeep : KeepsBut L L' P) (hdisj : Disjoint w.holds P) :
    w.Fine L' c := by
  have hout : ∀ p ∈ w.holds, p ∉ P := fun p hp hP => disjoint_left.mp hdisj hp hP
  cases w with
  | align alignment size allocsize rawchunk =>
    cases c with
    | memalign _ _ =>
      obtain ⟨j, a, s, h1, h2, h3, h4, h5, h6, rfl, ha⟩ := h
      exact ⟨j, a, s, h1, h2, h3, h4, h5, h6, rfl, hkeep a s ha (hout _ rfl)⟩
    | _ => exact h.elim
  | regrow oldmem oldsize size =>
    cases c with
    | realloc _ _ =>
      obtain ⟨h1, h2, h3, h4, a, rfl, ha⟩ := h
      exact ⟨h1, h2, h3, h4, a, rfl, hkeep a _ ha (hout _ rfl)⟩
    | _ => exact h.elim
  | moved oldmem newmem =>
    cases c with
    | realloc _ _ =>
      obtain ⟨h1, h2, h3, hold, a, s, rfl, ha, hle⟩ := h
      exact ⟨h1, h2, h3, hkeep.pointers hold (hout _ (.inl rfl)), a, s, rfl,
        hkeep a s ha (hout _ (.inr rfl)), hle⟩
    | _ => exact h.elim

/-! ### Runs of the tasks -/

theorem MmWork.Fine.holds_subset (h : w.Fine L c) : w.holds ⊆ L.pointers := by
  cases w with
  | align alignment size allocsize rawchunk =>
    cases c with
    | memalign _ _ =>
      obtain ⟨j, a, s, -, -, -, -, -, -, rfl, ha⟩ := h
      exact singleton_subset_iff.mpr (mem_pointers.mpr ⟨s, ha⟩)
    | _ => exact h.elim
  | regrow oldmem oldsize size =>
    cases c with
    | realloc _ _ =>
      obtain ⟨-, -, -, -, a, rfl, ha⟩ := h
      exact singleton_subset_iff.mpr (mem_pointers.mpr ⟨_, ha⟩)
    | _ => exact h.elim
  | moved oldmem newmem =>
    cases c with
    | realloc _ _ =>
      obtain ⟨-, -, -, hold, hnew⟩ := h
      exact insert_subset hold (singleton_subset_iff.mpr hnew.mem_pointers)
    | _ => exact h.elim

/-- **What holds between the steps**: every pointer is held by one call, or by none. -/
structure TasksInv (nl : ℕ) (s : MmTasks) (L : MmLayout) : Prop where
  shape : HeapShape nl s.heap L
  coalesced : L.Coalesced
  live : s.live ⊆ L.pointers
  fine : ∀ {t c w}, s.pending t = some (c, w) → w.Fine L c
  apart : ∀ {t c w}, s.pending t = some (c, w) → Disjoint w.holds s.live
  disjoint : ∀ {t t' c c' w w'}, t ≠ t' → s.pending t = some (c, w) →
    s.pending t' = some (c', w') → Disjoint w.holds w'.holds

namespace TasksInv

variable {s : MmTasks} {t : ℕ} {A : Prop}

theorem disjoint_owns {X : Set ℕ} (hX : X ⊆ L.pointers) (hP : Disjoint X P)
    (hstep : StepOk nl A L c P m' o L') : Disjoint X (o.owns c) := by
  rw [disjoint_left] at hP ⊢
  intro p hp hown
  exact (hstep.fresh p hown).elim (hP hp) fun hnot => hnot (hX hp)

/-- **A step of a task**, which holds the pointers `P` before it. -/
theorem after (h : TasksInv nl s L) (hlive : Disjoint (s.live \ c.claims) P)
    (hothers : ∀ {t' c' w'}, t' ≠ t → s.pending t' = some (c', w') → Disjoint w'.holds P)
    (hA : A) (hstep : StepOk nl A L c P m' o L') : TasksInv nl (s.after t c m' o) L' := by
  have hrest : s.live \ c.claims ⊆ L.pointers := sdiff_subset.trans h.live
  have hkept : s.live \ c.claims ⊆ L'.pointers :=
    fun p hp => hstep.keeps.pointers (hrest hp) (disjoint_left.mp hlive hp)
  have hother : ∀ {t' c' w'}, t' ≠ t → s.pending t' = some (c', w') →
      Disjoint w'.holds (o.owns c) :=
    fun hne heq => disjoint_owns (h.fine heq).holds_subset (hothers hne heq) hstep
  have hapart : ∀ {t' c' w'}, s.pending t' = some (c', w') →
      Disjoint w'.holds (s.live \ c.claims) :=
    fun heq => (h.apart heq).mono_right sdiff_subset
  -- the other tasks hold what they have held
  have hold : ∀ {t' c' w'}, (s.after t c m' o).pending t' = some (c', w') → t' ≠ t →
      s.pending t' = some (c', w') := by
    intro t' c' w' heq hne
    exact (update_of_ne hne _ _).symm.trans heq
  have hself : ∀ {c' w'}, (s.after t c m' o).pending t = some (c', w') → c' = c ∧ o = .more w' := by
    intro c' w' heq
    replace heq := (update_self _ _ _).symm.trans heq
    cases o with
    | done ret => cases heq
    | more w =>
      cases heq
      exact ⟨rfl, rfl⟩
  refine ⟨h.shape.alter hstep.whole hstep.spans, hstep.coalesced hA h.coalesced, ?_, ?_, ?_, ?_⟩
  · cases o with
    | done ret => exact union_subset hkept (hstep.pointers ▸ subset_union_right)
    | more w => exact hkept
  · intro t' c' w' heq
    rcases eq_or_ne t' t with rfl | hne
    · obtain ⟨rfl, rfl⟩ := hself heq
      exact hstep.fine
    · have heq := hold heq hne
      exact (h.fine heq).mono hstep.keeps (hothers hne heq)
  · intro t' c' w' heq
    rcases eq_or_ne t' t with rfl | hne
    · obtain ⟨rfl, rfl⟩ := hself heq
      exact (disjoint_owns hrest hlive hstep).symm
    · have hpend := hold heq hne
      cases o with
      | done ret => exact disjoint_union_right.mpr ⟨hapart hpend, hother hne hpend⟩
      | more w => exact hapart hpend
  · intro t1 t2 c1 c2 w1 w2 hne heq1 heq2
    rcases eq_or_ne t1 t with rfl | hne1
    · obtain ⟨rfl, rfl⟩ := hself heq1
      exact (hother hne.symm (hold heq2 hne.symm)).symm
    · rcases eq_or_ne t2 t with rfl | hne2
      · obtain ⟨rfl, rfl⟩ := hself heq2
        exact hother hne1 (hold heq1 hne1)
      · exact h.disjoint hne (hold heq1 hne1) (hold heq2 hne2)

theorem onLive_mono {live : Set ℕ} (h : c.OnLive live) (hsub : live ⊆ L.pointers) :
    c.OnLive L.pointers := by
  cases c with
  | free mem | realloc oldmem size => exact Or.imp_right (fun hmem => hsub hmem) h
  | _ => trivial

theorem claims_subset {live : Set ℕ} (h : c.OnLive live) : c.claims ⊆ live := by
  cases c with
  | free mem | realloc oldmem size =>
    rintro p ⟨rfl, hp⟩
    exact h.resolve_left hp
  | _ => exact empty_subset live

theorem call (h : TasksInv nl s L) (t : ℕ) (hlive : c.OnLive s.live) (hfits : c.Fits)
    (hok : (MmStep.call c).Tidy s.heap.mem) :
    ∃ m' o L', callStep nl s.heap.mem c = some (m', o) ∧ TasksInv nl (s.after t c m' o) L' := by
  obtain ⟨m', o, L', hcall, hstep⟩ :=
    h.shape.whole.callStep_spec (onLive_mono hlive h.live) hfits hok
  refine ⟨m', o, L', hcall, h.after disjoint_sdiff_left ?_ trivial hstep⟩
  exact fun _ heq => (h.apart heq).mono_right (claims_subset hlive)

theorem work (h : TasksInv nl s L) (hpending : s.pending t = some (c, w))
    (hok : (MmStep.work w).Tidy s.heap.mem) :
    ∃ m' o L', workStep nl s.heap.mem w = some (m', o) ∧ TasksInv nl (s.after t c m' o) L' := by
  obtain ⟨m', o, L', hwork, hstep⟩ := h.shape.whole.workStep_spec (h.fine hpending) fun _ => hok
  refine ⟨m', o, L', hwork, h.after ?_ ?_ hok hstep⟩
  · exact (h.apart hpending).symm.mono_left sdiff_subset
  · exact fun hne heq => h.disjoint hne heq hpending

end TasksInv

theorem TasksReach.inv {s : MmTasks} (h : TasksReach nl (fun m a => a.Tidy m) s) :
    ∃ L, TasksInv nl s L := by
  induction h with
  | init hreach =>
    obtain ⟨L, hshape, hlive, hcoal⟩ : ∃ L, HeapShape nl _ L ∧ ∅ = L.pointers ∧ L.Coalesced :=
      hreach.induct (by simp [Coalesced])
        (fun _ hcoal => coalesced_newRegion hcoal _ _) fun _ _ _ _ hfalse => hfalse.elim
    exact ⟨L, hshape, hcoal, empty_subset _, by simp, by simp, by simp⟩
  | @call _ t _ _ _ _ _ hlive hfits hok heq ih =>
    obtain ⟨L, hinv⟩ := ih
    obtain ⟨m', o, L', heq', hinv'⟩ := hinv.call t hlive hfits hok
    rw [heq] at heq'
    cases heq'
    exact ⟨L', hinv'⟩
  | work _ hpending hok heq ih =>
    obtain ⟨L, hinv⟩ := ih
    obtain ⟨m', o, L', heq', hinv'⟩ := hinv.work hpending hok
    rw [heq] at heq'
    cases heq'
    exact ⟨L', hinv'⟩
  | write _ hp hge hlt ih =>
    obtain ⟨L, hinv⟩ := ih
    exact ⟨L, hinv.shape.write (hinv.live hp) hge hlt, hinv.coalesced, hinv.live, hinv.fine,
      hinv.apart, hinv.disjoint⟩

/-- No two free chunks lie side by side. -/
def NoFreePair (h : MmHeap) : Prop :=
  ∀ r ∈ h.heapstart.zip h.heapend, ∀ node, Visited h.mem r.1 r.2 node → node < r.2 →
    ¬(NodeFree h.mem node ∧ NodeFree h.mem (node + h.mem.size node))

/-- **No two free chunks lie side by side between the steps of the tasks**, and every step that a
task makes comes to its end, if no chunk that is freed is too small, and no chunk that `memalign` cuts
down lies behind a free one. -/
theorem coalesced_of_tasks {s : MmTasks} (h : TasksReach nl (fun m a => a.Tidy m) s) :
    NoFreePair s.heap ∧
      (∀ c : MmCall, c.OnLive s.live → c.Fits → (MmStep.call c).Tidy s.heap.mem →
        ∃ r, callStep nl s.heap.mem c = some r) ∧
      ∀ t c w, s.pending t = some (c, w) → (MmStep.work w).Tidy s.heap.mem →
        ∃ r, workStep nl s.heap.mem w = some r := by
  obtain ⟨L, hinv⟩ := h.inv
  refine ⟨?_, fun c hlive hfits hok => ?_, fun t c w hpending hok => ?_⟩
  · intro r hr
    rw [hinv.shape.zip_eq] at hr
    obtain ⟨R, hR, rfl⟩ := MmLayout.mem_spans.mp hr
    exact (hinv.shape.whole.regionOk hR hinv.coalesced).coalesced
  · obtain ⟨m', o, -, hcall, -⟩ := hinv.call 0 hlive hfits hok
    exact ⟨_, hcall⟩
  · obtain ⟨m', o, -, hwork, -⟩ := hinv.work hpending hok
    exact ⟨_, hwork⟩

/-! ### Two tasks -/

/-- A step of the tasks on memory. -/
def mmStep (nl : ℕ) (m : MmMem) : MmStep → Option (MmMem × MmOutcome)
  | .call c => callStep nl m c
  | .work w => workStep nl m w

/-- A sequence of steps on memory. -/
def mmSteps (nl : ℕ) : MmMem → List MmStep → Option (MmMem × List MmOutcome)
  | m, [] => some (m, [])
  | m, a :: as => do
    let (m, o) ← mmStep nl m a
    let (m, os) ← mmSteps nl m as
    return (m, o :: os)

theorem mmSteps_cons {a : MmStep} {as : List MmStep} {os : List MmOutcome} :
    mmSteps nl m (a :: as) = some (m', o :: os) ↔
      ∃ m1, mmStep nl m a = some (m1, o) ∧ mmSteps nl m1 as = some (m', os) := by
  simp only [mmSteps, bind_eq_bind, bind_eq_some_iff, Prod.exists]
  constructor
  · rintro ⟨m1, o1, hstep, m2, os2, hsteps, heq⟩
    obtain ⟨rfl, hcons⟩ := Prod.mk.inj (some.inj heq)
    obtain ⟨rfl, rfl⟩ := List.cons.inj hcons
    exact ⟨m1, hstep, hsteps⟩
  · rintro ⟨m1, hstep, hsteps⟩
    exact ⟨m1, o, hstep, m', os, hsteps, rfl⟩

theorem tasksReach_small (ok : MmMem → MmStep → Prop) {h : MmHeap} (hinit : smallHeap = some h) :
    TasksReach 0x1000 ok ⟨h, ∅, fun _ => none⟩ := by
  refine .init (.init ?_ ?_ regionAt_small ?_ hinit) <;> decide

/-- The condition can be met: `memalign` is not interrupted. -/
theorem coalesced_of_tasks_memalign : ∃ s : MmTasks, s.live = {65600} ∧ NoFreePair s.heap := by
  have hrun : (smallHeap.bind fun h => (callStep 0x1000 h.mem (.memalign 64 0)).bind fun r₁ =>
      (workStep 0x1000 r₁.1 (.align 64 0 128 65552)).map fun r₂ => (prevFree r₁.1 65544, r₁.2, r₂.2))
      = some (0, .more (.align 64 0 128 65552), .done 65600) := by
    decide +kernel
  obtain ⟨h, hinit, hrun⟩ := Option.bind_eq_some_iff.mp hrun
  obtain ⟨⟨m₁, o₁⟩, hcall, hrun⟩ := Option.bind_eq_some_iff.mp hrun
  obtain ⟨⟨m₂, o₂⟩, hwork, heq⟩ := Option.map_eq_some_iff.mp hrun
  obtain ⟨hprev, rfl, rfl⟩ : prevFree m₁ 65544 = 0 ∧
      o₁ = .more (.align 64 0 128 65552) ∧ o₂ = .done 65600 := by
    simpa using heq
  have hfits : (MmCall.memalign 64 0).Fits := ⟨⟨6, rfl⟩, by decide⟩
  have hreach₁ := (tasksReach_small (fun m a => a.Tidy m) hinit).call (t := 0)
    (c := .memalign 64 0) rfl trivial hfits trivial hcall
  have hreach₂ := hreach₁.work (t := 0) rfl (Or.inl hprev) hwork
  refine ⟨_, ?_, (coalesced_of_tasks hreach₂).1⟩
  simp [MmTasks.after, MmOutcome.owns, MmCall.liveAfter, MmCall.claims]

/-- **Two free chunks lie side by side**: while `memalign` has given the semaphore back, another task
frees the chunk before the one that is cut down. -/
theorem memalign_leaves_neighbours :
    ∃ s, TasksReach 0x1000 (fun _ _ => True) s ∧ ¬NoFreePair s.heap := by
  have hrun : (smallHeap.bind fun h => (mmSteps 0x1000 h.mem
        [.call (.malloc 8), .call (.memalign 64 0), .call (.free 65552),
          .work (.align 64 0 128 65568)]).map fun r =>
        (h.heapstart.zip h.heapend, r.2, r.1.size 65536, r.1.size 65544,
          decide (NodeFree r.1 65544), decide (NodeFree r.1 65560)))
      = some ([(0x10000, 0x101f8)], [.done 65552, .more (.align 64 0 128 65568), .done 0,
          .done 65600], 8, 16, true, true) := by
    decide +kernel
  obtain ⟨h, hinit, hrun⟩ := Option.bind_eq_some_iff.mp hrun
  obtain ⟨⟨m, os⟩, hsteps, heq⟩ := Option.map_eq_some_iff.mp hrun
  obtain ⟨hregions, rfl, hsize₁, hsize₂, hfree₁, hfree₂⟩ :
      h.heapstart.zip h.heapend = [(0x10000, 0x101f8)] ∧
      os = [.done 65552, .more (.align 64 0 128 65568), .done 0, .done 65600] ∧
      m.size 65536 = 8 ∧ m.size 65544 = 16 ∧ NodeFree m 65544 ∧ NodeFree m 65560 := by
    simpa using heq
  obtain ⟨m₁, hstep₁, hsteps⟩ := mmSteps_cons.mp hsteps
  obtain ⟨m₂, hstep₂, hsteps⟩ := mmSteps_cons.mp hsteps
  obtain ⟨m₃, hstep₃, hsteps⟩ := mmSteps_cons.mp hsteps
  obtain ⟨m₄, hstep₄, hsteps⟩ := mmSteps_cons.mp hsteps
  obtain ⟨rfl, -⟩ := Prod.mk.inj (Option.some.inj hsteps)
  -- the first task allocates and frees, while the second one is in `memalign`
  have hfits₁ : (MmCall.malloc 8).Fits := (by decide : 8 + 23 < 0x100000000)
  have hfits₂ : (MmCall.memalign 64 0).Fits := ⟨⟨6, rfl⟩, by decide⟩
  have hreach₁ := (tasksReach_small (fun _ _ => True) hinit).call (t := 0) (c := .malloc 8)
    rfl trivial hfits₁ trivial hstep₁
  have hreach₂ := hreach₁.call (t := 1) (c := .memalign 64 0) rfl trivial hfits₂ trivial hstep₂
  have hreach₃ := hreach₂.call (t := 0) (c := .free 65552) rfl
    (.inr (by simp [MmTasks.after, MmOutcome.owns, MmCall.liveAfter, MmCall.claims]))
    trivial trivial hstep₃
  have hreach₄ := hreach₃.work (t := 1) rfl trivial hstep₄
  refine ⟨_, hreach₄, fun hpair => ?_⟩
  have hvisited : Visited m₄ 0x10000 0x101f8 65544 := by
    have hstart : Visited m₄ 0x10000 0x101f8 0x10000 := .start
    have hfirst := hstart.step (by decide)
    rwa [hsize₁] at hfirst
  have hmem : (0x10000, 0x101f8) ∈ h.heapstart.zip h.heapend := by
    rw [hregions]
    exact List.mem_cons_self
  refine hpair (0x10000, 0x101f8) hmem 65544 hvisited (by decide) ⟨hfree₁, ?_⟩
  show NodeFree m₄ (65544 + m₄.size 65544)
  rw [hsize₂]
  exact hfree₂

end NuttX
