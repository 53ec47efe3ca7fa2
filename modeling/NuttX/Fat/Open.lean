import NuttX.Fat.Model

/-!
# Files that are open on a FAT volume

`fs_head` is meant to be the list of the files that are open on a volume: `fat_unbind` refuses to
unmount the volume while the list is not empty. `fat_open` sets the link of the new file to the
head of the list, but then sets the head to that link, and not to the file; and `fat_close`
releases a file without looking at the list. So the list never changes, and the volume can be
unmounted under open files (`NuttX.openRun_unbind`).
-/

namespace NuttX

def eBUSY : ℤ := 16

/-- The list of the files of a volume. Files are known by their addresses, and zero is no address.
-/
structure FatFiles where
  head : ℕ
  next : ℕ → ℕ
  opened : List ℕ

/-- A successful call of `fat_open`, for which `kzalloc` returns a structure, or of `fat_close`. -/
inductive OpenOp
  | fatOpen (ff : ℕ)
  | fatClose (ff : ℕ)

namespace FatFiles

def mounted (next : ℕ → ℕ) : FatFiles := ⟨0, next, []⟩

def fatOpen (f : FatFiles) (ff : ℕ) : FatFiles :=
  let next := Function.update f.next ff f.head
  { head := next ff, next := next, opened := ff :: f.opened }

def fatClose (f : FatFiles) (ff : ℕ) : FatFiles := { f with opened := f.opened.erase ff }

def fatUnbind (f : FatFiles) : ℤ := if f.head ≠ 0 then -eBUSY else 0

/-- A step: a structure that is allocated is not one of an open file, and a file that is closed is
open. -/
def step (f : FatFiles) : OpenOp → Option FatFiles
  | .fatOpen ff => if ff = 0 ∨ ff ∈ f.opened then none else some (f.fatOpen ff)
  | .fatClose ff => if ff ∈ f.opened then some (f.fatClose ff) else none

/-- Following the links from an address leads through the files of the list to zero. -/
inductive Listed (next : ℕ → ℕ) : ℕ → List ℕ → Prop
  | nil : Listed next 0 []
  | cons {a : ℕ} {l : List ℕ} : a ≠ 0 → Listed next (next a) l → Listed next a (a :: l)

/-- What the list is for: it has the files that are open, each once, and `fat_unbind` fails if and
only if there is one. -/
def Law (f : FatFiles) : Prop :=
  (∃ l, Listed f.next f.head l ∧ l.Nodup ∧ ∀ ff, ff ∈ l ↔ ff ∈ f.opened) ∧
    (f.fatUnbind ≠ 0 ↔ f.opened ≠ [])

end FatFiles

/-- The runs of calls of `fat_open` and `fat_close` on a volume that has just been mounted, with
steps that meet a condition. -/
inductive OpenRun (P : FatFiles → OpenOp → FatFiles → Prop) : FatFiles → Prop
  | start (next : ℕ → ℕ) : OpenRun P (FatFiles.mounted next)
  | step {f f' : FatFiles} (op : OpenOp) : OpenRun P f → f.step op = some f' → P f op f' →
    OpenRun P f'

namespace FatFiles

variable {f f' : FatFiles}

theorem step_head {op : OpenOp} (h : f.step op = some f') : f'.head = f.head := by
  cases op with
  | fatOpen ff =>
    rw [step] at h
    split_ifs at h
    cases h
    exact Function.update_self ..
  | fatClose ff =>
    rw [step] at h
    split_ifs at h
    cases h
    rfl

theorem law_iff (h : f.head = 0) : f.Law ↔ f.opened = [] := by
  have hunbind : f.fatUnbind = 0 := by
    rw [fatUnbind, h]
    rfl
  refine ⟨fun hlaw => ?_, fun hnone => ⟨⟨[], ?_, List.nodup_nil, fun ff => ?_⟩, ?_⟩⟩
  · by_contra hne
    exact hlaw.2.mpr hne hunbind
  · rw [h]
    exact .nil
  · rw [hnone]
  · rw [hunbind, hnone]
    simp

end FatFiles

variable {P : FatFiles → OpenOp → FatFiles → Prop} {f : FatFiles}

theorem OpenRun.head (h : OpenRun P f) : f.head = 0 := by
  induction h with
  | start next => rfl
  | step op _ hstep _ ih => rw [FatFiles.step_head hstep, ih]

/-- **The list of open files is right only while no file is open**: in every state of a run the law
holds if and only if no file is open, and so it holds in every state of a run whose steps leave no
file open. -/
theorem openRun_law (hrun : OpenRun P f) :
    (f.Law ↔ f.opened = []) ∧ ((∀ g op g', P g op g' → g'.opened = []) → f.Law) := by
  have hiff := FatFiles.law_iff hrun.head
  refine ⟨hiff, fun hP => hiff.mpr ?_⟩
  cases hrun with
  | start next => rfl
  | step op _ _ hstep => exact hP _ _ _ hstep

theorem openRun_law_closed : ∃ f, OpenRun (fun _ _ _ => True) f ∧ f.Law := by
  have hopen :
      OpenRun (fun _ _ _ => True) (FatFiles.fatOpen (FatFiles.mounted fun _ => 0) 0x1000) :=
    .step (.fatOpen 0x1000) (.start _) rfl trivial
  have hclose : OpenRun (fun _ _ _ => True)
      (FatFiles.fatClose (FatFiles.fatOpen (FatFiles.mounted fun _ => 0) 0x1000) 0x1000) :=
    .step (.fatClose 0x1000) hopen rfl trivial
  exact ⟨_, hclose, (openRun_law hclose).1.mpr rfl⟩

/-- **A volume can be unmounted under an open file.** -/
theorem openRun_unbind : ∃ f, OpenRun (fun _ _ _ => True) f ∧ f.opened = [0x1000] ∧
    f.fatUnbind = 0 ∧ ¬ f.Law := by
  have hopen :
      OpenRun (fun _ _ _ => True) (FatFiles.fatOpen (FatFiles.mounted fun _ => 0) 0x1000) :=
    .step (.fatOpen 0x1000) (.start _) rfl trivial
  exact ⟨_, hopen, rfl, rfl, fun hlaw => absurd ((FatFiles.law_iff hopen.head).mp hlaw) (by decide)⟩

end NuttX
