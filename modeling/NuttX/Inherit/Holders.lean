import NuttX.Inherit.Model

/-!
# The holders of a semaphore

What the functions of `sem_holder.c` that keep the lists of holders do to
`NuttX.PiKernel.holders`: which tasks are in the list, each of them once.
-/

namespace NuttX

open PiSem List

variable {k k' : PiKernel} {m : PiSem} {sem s : SemId} {h r t : Tid} {f : Semholder → Semholder}

/-! ### Containers -/

theorem PiSem.holders_modify (hf : ∀ c, (f c).holder = c.holder) :
    (m.modify t f).holders.map Semholder.holder = m.holders.map Semholder.holder := by
  have hite : ∀ c : Semholder, (if c.holder = t then f c else c).holder = c.holder := by
    intro c
    split
    · exact hf c
    · rfl
  cases hl : m.hlist <;> simp [holders, modify, hl, hite, Function.comp_def]

theorem PiSem.find_eq_none : m.find t = none ↔ t ∉ m.holders.map Semholder.holder := by
  simp [find]

theorem PiKernel.holders_setSem :
    (k.setSem sem m).holders s =
      if s = sem then m.holders.map Semholder.holder else k.holders s := by
  rcases eq_or_ne s sem with rfl | hs
  · simp [holders, setSem]
  · simp [holders, setSem, hs]

theorem PiKernel.holders_addCount {d : ℤ} : (k.addCount sem d).holders s = k.holders s := by
  rw [addCount, holders_setSem]
  split
  · rename_i hs
    rw [hs]
    rfl
  · rfl

/-- The lists of holders, and nothing else, change. -/
structure SemOnly (k k' : PiKernel) : Prop where
  sched : k'.sched = k.sched
  tasks : k'.tasks = k.tasks
  basePriority : k'.basePriority = k.basePriority
  pendReprios : k'.pendReprios = k.pendReprios
  waitsem : k'.waitsem = k.waitsem
  pc : k'.pc = k.pc
  saved : k'.saved = k.saved
  pterrno : k'.pterrno = k.pterrno

theorem SemOnly.refl (k : PiKernel) : SemOnly k k := ⟨rfl, rfl, rfl, rfl, rfl, rfl, rfl, rfl⟩

theorem SemOnly.trans {k1 k2 k3 : PiKernel} (h : SemOnly k1 k2) (h' : SemOnly k2 k3) :
    SemOnly k1 k3 :=
  ⟨h'.sched.trans h.sched, h'.tasks.trans h.tasks, h'.basePriority.trans h.basePriority,
    h'.pendReprios.trans h.pendReprios, h'.waitsem.trans h.waitsem, h'.pc.trans h.pc,
    h'.saved.trans h.saved, h'.pterrno.trans h.pterrno⟩

theorem PiKernel.setSem_semOnly : SemOnly k (k.setSem sem m) :=
  ⟨rfl, rfl, rfl, rfl, rfl, rfl, rfl, rfl⟩

/-! ### Adding a holder -/

theorem PiKernel.holders_addHeld : (k.addHeld sem r).holders s = k.holders s := by
  rw [addHeld, holders_setSem]
  split
  · rename_i hs
    rw [hs]
    exact holders_modify fun _ => rfl
  · rfl

theorem PiKernel.holders_semReleaseholder : (semReleaseholder k sem r).holders s = k.holders s := by
  rw [semReleaseholder, holders_setSem]
  split
  · rename_i hs
    rw [hs]
    exact holders_modify fun c => by split <;> rfl
  · rfl

theorem semAllocholder_spec (halloc : semAllocholder k sem r = some k') :
    SemOnly k k' ∧ (∀ s, s ≠ sem → k'.holders s = k.holders s) ∧
      (k'.holders sem).Perm (r :: k.holders sem) := by
  rw [semAllocholder] at halloc
  split at halloc
  · rename_i hnone
    cases halloc
    refine ⟨PiKernel.setSem_semOnly, fun s hs => ?_, ?_⟩
    · rw [PiKernel.holders_setSem, if_neg hs]
    · rw [PiKernel.holders_setSem, if_pos rfl, PiKernel.holders, holders, holders, hnone]
      exact Perm.refl _
  · rename_i c hsome
    split at halloc
    · cases halloc
    cases halloc
    refine ⟨⟨rfl, rfl, rfl, rfl, rfl, rfl, rfl, rfl⟩, fun s hs => ?_, ?_⟩
    · rw [PiKernel.holders_setSem, if_neg hs]
      rfl
    · rw [PiKernel.holders_setSem, if_pos rfl, PiKernel.holders, holders, holders, hsome]
      exact Perm.swap _ _ _

theorem semAddholder_spec (k : PiKernel) (sem : SemId) (r : Tid) :
    SemOnly k (semAddholder k sem r) ∧
    (∀ s, s ≠ sem → (semAddholder k sem r).holders s = k.holders s) ∧
    ((semAddholder k sem r).holders sem = k.holders sem ∨
      r ∉ k.holders sem ∧ ((semAddholder k sem r).holders sem).Perm (r :: k.holders sem)) := by
  rw [semAddholder]
  split
  · exact ⟨PiKernel.setSem_semOnly, fun s _ => PiKernel.holders_addHeld,
      Or.inl PiKernel.holders_addHeld⟩
  rename_i hnone
  split
  · exact ⟨SemOnly.refl k, fun _ _ => rfl, Or.inl rfl⟩
  rename_i k1 halloc
  obtain ⟨hsem, hother, hperm⟩ := semAllocholder_spec halloc
  refine ⟨hsem.trans PiKernel.setSem_semOnly, fun s hs => ?_, Or.inr ⟨?_, ?_⟩⟩
  · rw [PiKernel.holders_addHeld, hother s hs]
  · exact find_eq_none.mp hnone
  · rw [PiKernel.holders_addHeld]
    exact hperm

theorem nodup_semAddholder (hnd : ∀ s, (k.holders s).Nodup) (s : SemId) :
    ((semAddholder k sem r).holders s).Nodup := by
  obtain ⟨-, hother, hsem⟩ := semAddholder_spec k sem r
  rcases eq_or_ne s sem with rfl | hs
  · rcases hsem with heq | ⟨hr, hperm⟩
    · rw [heq]
      exact hnd s
    · rw [hperm.nodup_iff]
      exact (hnd s).cons hr
  · rw [hother s hs]
    exact hnd s

theorem mem_semAddholder (hm : h ∈ (semAddholder k sem r).holders s) :
    h ∈ k.holders s ∨ h = r ∧ s = sem := by
  obtain ⟨-, hother, hsem⟩ := semAddholder_spec k sem r
  rcases eq_or_ne s sem with rfl | hs
  · rcases hsem with heq | ⟨-, hperm⟩
    · exact Or.inl (heq ▸ hm)
    · exact ((mem_cons.mp (hperm.mem_iff.mp hm)).imp_left fun hr => ⟨hr, rfl⟩).symm
  · rw [hother s hs] at hm
    exact Or.inl hm

theorem mem_semAddholder_iff (hrec : r ∈ (semAddholder k sem r).holders sem) :
    h ∈ (semAddholder k sem r).holders s ↔ h ∈ k.holders s ∨ h = r ∧ s = sem := by
  refine ⟨mem_semAddholder, ?_⟩
  obtain ⟨-, hother, hsem⟩ := semAddholder_spec k sem r
  rintro (hm | ⟨rfl, rfl⟩)
  · rcases eq_or_ne s sem with rfl | hs
    · rcases hsem with heq | ⟨-, hperm⟩
      · rw [heq]
        exact hm
      · exact hperm.mem_iff.mpr (mem_cons_of_mem _ hm)
    · rw [hother s hs]
      exact hm
  · exact hrec

/-! ### Freeing a holder -/

/-- What `sem_freeholder` does. -/
theorem semFreeholder_spec (k : PiKernel) (sem : SemId) (r : Tid) :
    SemOnly k (semFreeholder k sem r) ∧
    ∀ s, (semFreeholder k sem r).holders s =
      if s = sem then (k.holders s).erase r else k.holders s := by
  rw [semFreeholder]
  split
  · rename_i hhead
    refine ⟨PiKernel.setSem_semOnly, fun s => ?_⟩
    rw [PiKernel.holders_setSem]
    split
    · rename_i hs
      subst hs
      obtain ⟨c, hc, rfl⟩ := Option.map_eq_some_iff.mp hhead
      simp [PiKernel.holders, holders, hc]
    · rfl
  rename_i hhead
  -- the container within the semaphore is not the one that is looked for
  have hne : r ∉ (k.sem sem).hlist.toList.map Semholder.holder := by
    intro hm
    cases hl : (k.sem sem).hlist with
    | none => simp [hl] at hm
    | some c => exact hhead (by simpa [hl, eq_comm] using hm)
  split
  · rename_i hnone
    refine ⟨SemOnly.refl k, fun s => ?_⟩
    split
    · rename_i hs
      subst hs
      rw [erase_of_not_mem]
      intro hm
      rw [PiKernel.holders, holders, map_append, mem_append] at hm
      obtain ⟨c, hc, rfl⟩ : ∃ c ∈ (k.sem s).flink, c.2.holder = r := by
        simpa using hm.resolve_left hne
      have := find?_eq_none.mp hnone c hc
      simp at this
    · rfl
  · refine ⟨⟨rfl, rfl, rfl, rfl, rfl, rfl, rfl, rfl⟩, fun s => ?_⟩
    rw [PiKernel.holders_setSem]
    split
    · rename_i hs
      subst hs
      have herase : ((k.sem s).flink.map fun c => c.2.holder).erase r =
          ((k.sem s).flink.eraseP fun c => c.2.holder = r).map fun c => c.2.holder := by
        rw [erase_eq_eraseP, eraseP_map]
        congr 2
        funext c
        rw [Function.comp_apply, Bool.eq_iff_iff, beq_iff_eq, decide_eq_true_eq]
        exact eq_comm
      simp only [PiKernel.holders, holders, map_append, map_map,
        Function.comp_def, erase_append_right _ hne, herase]
    · rfl

theorem semDropholder_semOnly : SemOnly k (semDropholder k sem r) := by
  rw [semDropholder]
  split
  · exact SemOnly.refl k
  split
  · exact (semFreeholder_spec k sem r).1
  · exact SemOnly.refl k

theorem semDropholder_spec (hnd : ∀ s, (k.holders s).Nodup) (sem : SemId) (r : Tid) :
    (∀ s, ((semDropholder k sem r).holders s).Nodup) ∧
      ((∀ s, (semDropholder k sem r).holders s = k.holders s) ∨
        ∀ h s, h ∈ (semDropholder k sem r).holders s ↔ h ∈ k.holders s ∧ ¬ (h = r ∧ s = sem)) := by
  rw [semDropholder]
  split
  · exact ⟨hnd, Or.inl fun _ => rfl⟩
  split
  swap
  · exact ⟨hnd, Or.inl fun _ => rfl⟩
  obtain ⟨-, hlist⟩ := semFreeholder_spec k sem r
  refine ⟨fun s => ?_, Or.inr fun h s => ?_⟩
  · rw [hlist s]
    split
    · exact (hnd s).erase r
    · exact hnd s
  rw [hlist s]
  split
  · rename_i hs
    rw [(hnd s).mem_erase_iff]
    simp [hs, and_comm]
  · rename_i hs
    simp [hs]

end NuttX
