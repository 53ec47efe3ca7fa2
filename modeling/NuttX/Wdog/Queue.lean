import NuttX.Wdog.Model

/-!
# The timer queue as a list of deadlines

Decoded against a clock reading `t`, the watchdog queue is a list of deadlines
(`NuttX.Wdog.queue`). Under the invariant `NuttX.Wdog.QueueInv` – no watchdog is linked twice,
no lag is negative, every linked watchdog is marked active – each operation of
`NuttX.Wdog.Model` is one edit of that list: cancelling removes one deadline
(`NuttX.Wdog.wdCancel_spec`), starting inserts one behind every deadline that is not later
(`NuttX.Wdog.wdStart_spec`), the tick leaves all deadlines where they are
(`NuttX.Wdog.queue_wdTimerTick`), and the body of the expiry loop takes the first
(`NuttX.Wdog.wdTimerExpire_spec`). No lag is mentioned after this file.
-/

namespace NuttX

open List

namespace Wdog

open Delta

/-! ### Reading back the field updates -/

section Fields

variable {s : WdState} {w c : WdogId} {v : ℤ} {b : Bool} {l : List WdogId} {f n : ℕ} {p : List ℕ}

/-- A field of the watchdogs after one of them is written. -/
theorem field_update {β : Type} (f : WdogT → β) (x : WdogT) :
    f (Function.update s.wdog w x c) = if c = w then f x else f (s.wdog c) := by
  rw [Function.update_apply]
  exact apply_ite ..

theorem field_update_of_eq {β : Type} (f : WdogT → β) {x : WdogT} (hx : f x = f (s.wdog w)) :
    f (Function.update s.wdog w x c) = f (s.wdog c) := by
  rw [field_update f, hx, ite_eq_right_iff]
  rintro rfl
  rfl

theorem lag_setLag : (s.setLag w v).lag c = if c = w then v else s.lag c :=
  field_update WdogT.lag _

@[simp] theorem lag_setActive : (s.setActive w b).lag c = s.lag c :=
  field_update_of_eq WdogT.lag rfl

@[simp] theorem lag_setCall : (s.setCall w f n p).lag c = s.lag c :=
  field_update_of_eq WdogT.lag rfl

@[simp] theorem active_setLag : ((s.setLag w v).wdog c).active = (s.wdog c).active :=
  field_update_of_eq WdogT.active rfl

theorem active_setActive :
    ((s.setActive w b).wdog c).active = if c = w then b else (s.wdog c).active :=
  field_update WdogT.active _

@[simp] theorem active_setCall : ((s.setCall w f n p).wdog c).active = (s.wdog c).active :=
  field_update_of_eq WdogT.active rfl

@[simp] theorem activeList_setLag : (s.setLag w v).activeList = s.activeList := rfl

@[simp] theorem activeList_setActive : (s.setActive w b).activeList = s.activeList := rfl

@[simp] theorem activeList_setCall : (s.setCall w f n p).activeList = s.activeList := rfl

@[simp] theorem freeList_setLag : (s.setLag w v).freeList = s.freeList := rfl

@[simp] theorem freeList_setActive : (s.setActive w b).freeList = s.freeList := rfl

@[simp] theorem freeList_setCall : (s.setCall w f n p).freeList = s.freeList := rfl

@[simp] theorem active_addHeadLag : ((s.addHeadLag l v).wdog c).active = (s.wdog c).active := by
  cases l <;> simp [WdState.addHeadLag]

@[simp] theorem activeList_addHeadLag : (s.addHeadLag l v).activeList = s.activeList := by
  cases l <;> rfl

@[simp] theorem freeList_addHeadLag : (s.addHeadLag l v).freeList = s.freeList := by
  cases l <;> rfl

theorem lag_addHeadLag_of_notMem (h : c ∉ l) : (s.addHeadLag l v).lag c = s.lag c := by
  cases l with
  | nil => rfl
  | cons n l =>
    rw [WdState.addHeadLag, lag_setLag, if_neg]
    exact fun hc => h (by simp [hc])

theorem lag_addHeadLag_cons {n : WdogId} (h : (n :: l).Nodup) :
    (s.addHeadLag (n :: l) v).lag n = s.lag n + v ∧
      ∀ d ∈ l, (s.addHeadLag (n :: l) v).lag d = s.lag d := by
  refine ⟨by simp [WdState.addHeadLag, lag_setLag], fun d hd => ?_⟩
  rw [WdState.addHeadLag, lag_setLag, if_neg]
  rintro rfl
  exact (nodup_cons.mp h).1 hd

theorem times_addHeadLag {t : ℤ} (h : l.Nodup) :
    times (s.addHeadLag l v).lag t l = times s.lag (t + v) l := by
  refine times_shift fun c r hl => ?_
  subst hl
  exact lag_addHeadLag_cons h

end Fields

/-! ### The decoded queue and its invariant -/

/-- The deadlines of the queue, read at tick `t`. -/
def queue (s : WdState) (t : ℤ) : List (WdogId × ℤ) := times s.lag t s.activeList

/-- The invariant of the timer queue. -/
structure QueueInv (s : WdState) : Prop where
  nodup : s.activeList.Nodup
  nonneg : ∀ w ∈ s.activeList, 0 ≤ s.lag w
  active : ∀ w ∈ s.activeList, (s.wdog w).active = true

variable {s : WdState} {w : WdogId} {t : ℤ} {delay : ℤ} {pre post : List WdogId} {lag : WdogId → ℤ}

@[simp] theorem map_fst_queue : (queue s t).map Prod.fst = s.activeList := map_fst_times

@[simp] theorem queue_setActive {b : Bool} : queue (s.setActive w b) t = queue s t :=
  times_congr fun _ _ => lag_setActive

theorem QueueInv.pairwise (h : QueueInv s) (t : ℤ) :
    (queue s t).Pairwise fun p q => p.2 ≤ q.2 := pairwise_times h.nonneg

theorem QueueInv.clock_le (h : QueueInv s) {p : WdogId × ℤ} (hp : p ∈ queue s t) : t ≤ p.2 :=
  le_of_mem_times h.nonneg hp

theorem span_ne (h : w ∉ pre) :
    (pre ++ w :: post).span (fun c => decide (c ≠ w)) = (pre, w :: post) := by
  have hpre : ∀ c ∈ pre, decide (c ≠ w) = true := by
    intro c hc
    refine decide_eq_true ?_
    rintro rfl
    exact h hc
  rw [span_eq_takeWhile_dropWhile, takeWhile_append_of_pos hpre, dropWhile_append_of_pos hpre]
  simp

/-! ### Cancelling -/

theorem filter_times_split {d t' : ℤ} (hpre : w ∉ pre) (hpost : w ∉ post) :
    (times lag t pre ++ (w, d) :: times lag t' post).filter (fun p => decide (p.1 ≠ w)) =
      times lag t pre ++ times lag t' post := by
  have hkeep : ∀ (l : List WdogId) (u : ℤ), w ∉ l →
      (times lag u l).filter (fun p => decide (p.1 ≠ w)) = times lag u l := by
    intro l u hl
    rw [filter_eq_self]
    intro p hp
    refine decide_eq_true ?_
    rintro rfl
    exact hl (mem_of_mem_times hp)
  rw [filter_append, filter_cons_of_neg (by simp), hkeep _ _ hpre, hkeep _ _ hpost]

/-- The deadline of a watchdog is gone, and no other is touched. -/
structure Unlinked (w : WdogId) (s s' : WdState) : Prop where
  inv : QueueInv s'
  freeList : s'.freeList = s.freeList
  active : ∀ c, (s'.wdog c).active = if c = w then false else (s.wdog c).active
  queue : ∀ t, queue s' t = (queue s t).filter (fun p => decide (p.1 ≠ w))

theorem Unlinked.notMem {s' : WdState} (h : Unlinked w s s') : w ∉ s'.activeList := by
  intro hmem
  have hact := h.inv.active w hmem
  rw [h.active w, if_pos rfl] at hact
  cases hact

theorem QueueInv.notMem (h : QueueInv s) (ha : (s.wdog w).active = false) : w ∉ s.activeList :=
  fun hmem => Bool.noConfusion ((h.active w hmem).symm.trans ha)

/-- A watchdog that is not active has no deadline. -/
theorem QueueInv.unlinked_self (h : QueueInv s) (ha : (s.wdog w).active = false) :
    Unlinked w s s := by
  refine ⟨h, rfl, fun c => ?_, fun t => ?_⟩
  · split
    · rename_i hc
      rw [hc, ha]
    · rfl
  · refine (filter_eq_self.mpr fun p hp => decide_eq_true ?_).symm
    rintro rfl
    exact h.notMem ha (mem_of_mem_times hp)

/-- Unlinking a watchdog whose lag the next one inherits, as `wd_cancel` and the expiry loop do
it. -/
theorem unlink_spec (h : QueueInv s) (hl : s.activeList = pre ++ w :: post) {s' : WdState}
    (hs' : s' =
      ({ s.addHeadLag post (s.lag w) with activeList := pre ++ post }).setActive w false) :
    Unlinked w s s' := by
  have hnd : (pre ++ w :: post).Nodup := hl ▸ h.nodup
  obtain ⟨hndpre, hndpost', hdisj⟩ := nodup_append.mp hnd
  obtain ⟨hwpost, hndpost⟩ := nodup_cons.mp hndpost'
  have hwpre : w ∉ pre := fun hc => hdisj w hc w (by simp) rfl
  have hlag : ∀ c, s'.lag c = (s.addHeadLag post (s.lag w)).lag c := by
    intro c
    rw [hs', lag_setActive]
    rfl
  have hact : ∀ c, (s'.wdog c).active = if c = w then false else (s.wdog c).active := by
    intro c
    rw [hs', active_setActive]
    split
    · rfl
    · exact active_addHeadLag
  have hpre : ∀ c ∈ pre, s'.lag c = s.lag c := by
    intro c hc
    rw [hlag c, lag_addHeadLag_of_notMem]
    exact fun hcp => hdisj c hc c (by simp [hcp]) rfl
  have hlist : s'.activeList = pre ++ post := by rw [hs']; rfl
  have hqueue : ∀ t, queue s' t = (queue s t).filter (fun p => decide (p.1 ≠ w)) := by
    intro t
    rw [queue, hlist, times_append, times_congr hpre, span_congr hpre,
      times_congr fun c _ => hlag c, times_addHeadLag hndpost, queue, hl, times_append, times_cons,
      filter_times_split hwpre hwpost]
  refine ⟨⟨?_, ?_, ?_⟩, by rw [hs', freeList_setActive]; exact freeList_addHeadLag, hact, hqueue⟩
  · rw [hlist]
    exact hnd.sublist ((Sublist.refl pre).append (sublist_cons_self w post))
  · have hsub : (queue s' 0).Sublist (queue s 0) := hqueue 0 ▸ filter_sublist
    exact nonneg_of_times (fun p hp => h.clock_le (hsub.mem hp)) ((h.pairwise 0).sublist hsub)
  · intro c hc
    rw [hact c, if_neg]
    · refine h.active c ?_
      rw [hlist, mem_append] at hc
      rw [hl]
      rcases hc with hc | hc <;> simp [hc]
    · rintro rfl
      rw [hlist, mem_append] at hc
      exact hc.elim hwpre hwpost

/-- **`wd_cancel` removes one deadline** and touches no other. -/
theorem wdCancel_spec (h : QueueInv s) (hw : (s.wdog w).active = true → w ∈ s.activeList) :
    ∃ s' r, wdCancel s (some w) = .ok (s', r) ∧ Unlinked w s s' := by
  cases ha : (s.wdog w).active with
  | true =>
    obtain ⟨pre, post, hl⟩ := append_of_mem (hw ha)
    have hwpre : w ∉ pre := by
      have hnd := h.nodup
      rw [hl, nodup_append] at hnd
      exact fun hc => hnd.2.2 w hc w (by simp) rfl
    refine ⟨_, .ok, ?_, unlink_spec h hl rfl⟩
    simp only [wdCancel]
    rw [if_pos ha, hl, span_ne hwpre]
  | false => exact ⟨s, .error, by simp [wdCancel, ha], h.unlinked_self ha⟩

/-! ### Searching -/

/-- What the search of `wd_start` has established when it stops at `c`: nothing it passed is
later than the new watchdog, and it stopped because `curr` is later or the last. -/
structure Found (lag : WdogId → ℤ) (delay : ℤ) (l : List WdogId) (c : Cursor) : Prop where
  split : l = c.pre ++ c.curr :: c.post
  now_eq : c.now = span lag (c.pre ++ [c.curr])
  passed : ∀ t, ∀ p ∈ times lag t c.pre, p.2 ≤ t + delay
  span_le : span lag c.pre ≤ delay
  stop : delay < c.now ∨ c.post = []

theorem passed_concat {pre : List WdogId} {curr : WdogId}
    (hpre : ∀ p ∈ times lag t pre, p.2 ≤ t + delay) (hcurr : span lag pre + lag curr ≤ delay) :
    ∀ p ∈ times lag t (pre ++ [curr]), p.2 ≤ t + delay := by
  intro p hp
  rw [times_append, mem_append] at hp
  rcases hp with hp | hp
  · exact hpre p hp
  · rw [times_cons, times_nil, mem_singleton] at hp
    rw [hp]
    omega

theorem pastShorter_found :
    ∀ (post pre : List WdogId) (curr : WdogId) (now : ℤ),
      now = span lag (pre ++ [curr]) → span lag pre ≤ delay →
      (∀ t, ∀ p ∈ times lag t pre, p.2 ≤ t + delay) →
      Found lag delay (pre ++ curr :: post) (pastShorter lag delay pre curr now post)
  | [], _, _, _, hnow, hspan, hpre => ⟨rfl, hnow, hpre, hspan, Or.inr rfl⟩
  | n :: post, pre, curr, now, hnow, hspan, hpre => by
    rw [pastShorter]
    split
    · rename_i hle
      have hsplit : pre ++ curr :: n :: post = (pre ++ [curr]) ++ n :: post := by simp
      rw [hsplit]
      refine pastShorter_found post (pre ++ [curr]) n (now + lag n) ?_ ?_ ?_
      · rw [span_append, ← hnow, span_cons, span_nil]
        omega
      · rw [← hnow]
        exact hle
      · rw [span_concat] at hnow
        exact fun t => passed_concat (hpre t) (by omega)
    · rename_i hlt
      exact ⟨rfl, hnow, hpre, hspan, Or.inl (not_le.mp hlt)⟩

theorem wdSearch_found (lag : WdogId → ℤ) {head : WdogId} (rest : List WdogId)
    (hhead : 0 ≤ lag head) (hdelay : 0 ≤ delay) :
    Found lag delay (head :: rest) (wdSearch lag delay head rest) := by
  have hpos : toPositive lag [] head 0 rest = ⟨[], head, rest, lag head⟩ := by
    cases rest with
    | nil => simp [toPositive]
    | cons n post => rw [toPositive, if_neg (by omega), zero_add]
  rw [wdSearch, hpos]
  exact pastShorter_found rest [] head (lag head) (by simp) hdelay (by simp)

/-! ### Starting -/

theorem wdDelay_eq (h0 : 0 ≤ delay) (h1 : delay < intMax) : wdDelay delay = delay + 1 := by
  have hwrap : toInt (delay + 1) = delay + 1 := by
    unfold intMax at h1
    rw [toInt, Int.bmod_eq_of_le_mul_two] <;> push_cast <;> omega
  rw [wdDelay]
  rcases eq_or_lt_of_le h0 with rfl | hpos
  · simp
  · rw [if_neg (by omega), hwrap, if_neg (by omega)]

/-- Linking a watchdog into the queue, as `wd_start` does it: its lag is taken from the watchdog
behind it. -/
theorem link_spec (h : QueueInv s) {s' : WdState} {d delay : ℤ} (hl : s.activeList = pre ++ post)
    (hw : w ∉ s.activeList)
    (hs' : s' = ({ s.addHeadLag post (-d) with activeList := pre ++ w :: post }).setLag w d)
    (hd : d = delay - span s.lag pre) (hdelay : 0 ≤ delay)
    (hlater : ∀ c r, post = c :: r → delay < span s.lag (pre ++ [c]))
    (hpassed : ∀ t, ∀ p ∈ times s.lag t pre, p.2 ≤ t + delay) :
    QueueInv (s'.setActive w true) ∧ s'.freeList = s.freeList ∧
      (∀ c, (s'.wdog c).active = (s.wdog c).active) ∧
      ∀ t, queue (s'.setActive w true) t = insertTime w (t + delay) (queue s t) := by
  have hlist : s'.activeList = pre ++ w :: post := by rw [hs']; rfl
  have hlag : ∀ c, s'.lag c = if c = w then d else (s.addHeadLag post (-d)).lag c := by
    intro c
    rw [hs', lag_setLag]
    rfl
  have hact : ∀ c, (s'.wdog c).active = (s.wdog c).active := by
    intro c
    rw [hs', active_setLag]
    exact active_addHeadLag
  have hnd : (pre ++ post).Nodup := hl ▸ h.nodup
  have hwl : w ∉ pre ++ post := hl ▸ hw
  obtain ⟨hndpre, hndpost, hdisj⟩ := nodup_append.mp hnd
  have hne : ∀ c ∈ pre ++ post, c ≠ w := fun c hc hcw => hwl (hcw ▸ hc)
  have hpre : ∀ c ∈ pre, s'.lag c = s.lag c := by
    intro c hc
    rw [hlag c, if_neg (hne c (by simp [hc])), lag_addHeadLag_of_notMem]
    exact fun hcp => hdisj c hc c hcp rfl
  have hself : s'.lag w = d := by rw [hlag w, if_pos rfl]
  have hpost : ∀ c ∈ post, s'.lag c = (s.addHeadLag post (-d)).lag c :=
    fun c hc => (hlag c).trans (if_neg (hne c (by simp [hc])))
  have hqueue : ∀ t, queue (s'.setActive w true) t = insertTime w (t + delay) (queue s t) := by
    intro t
    rw [queue_setActive, queue, hlist, times_append, times_congr hpre, span_congr hpre, times_cons, hself,
      times_congr hpost, times_addHeadLag hndpost, Int.add_neg_cancel_right,
      show t + span s.lag pre + d = t + delay by omega, queue, hl, times_append]
    refine (insertTime_of_split (hpassed t) ?_).symm
    intro x r hx
    cases post with
    | nil => simp at hx
    | cons c r' =>
      rw [times_cons, cons.injEq] at hx
      have hlt := hlater c r' rfl
      rw [span_concat] at hlt
      rw [← hx.1]
      change t + delay < t + span s.lag pre + s.lag c
      omega
  refine ⟨⟨?_, ?_, ?_⟩, by rw [hs', freeList_setLag]; exact freeList_addHeadLag, hact, hqueue⟩
  · rw [activeList_setActive, hlist]
    exact nodup_middle.mpr (nodup_cons.mpr ⟨hwl, hnd⟩)
  · refine nonneg_of_times (t := 0) (fun p hp => ?_) ?_
    · rw [← queue, hqueue, mem_insertTime] at hp
      rcases hp with rfl | hp
      · exact (zero_add delay).symm ▸ hdelay
      · exact h.clock_le hp
    · rw [← queue, hqueue]
      exact pairwise_insertTime (h.pairwise 0)
  · intro c hc
    rw [active_setActive]
    split
    · rfl
    rename_i hcw
    rw [hact c]
    refine h.active c ?_
    rw [activeList_setActive, hlist, mem_append, mem_cons] at hc
    rw [hl, mem_append]
    exact hc.imp_right fun hc => hc.resolve_left hcw

/-- **Inserting a watchdog** puts its deadline behind every deadline that is not later. -/
theorem wdInsert_spec (h : QueueInv s) (hw : w ∉ s.activeList) (hdelay : 0 ≤ delay) :
    QueueInv ((wdInsert s w delay).setActive w true) ∧ (wdInsert s w delay).freeList = s.freeList ∧
      (∀ c, ((wdInsert s w delay).wdog c).active = (s.wdog c).active) ∧
      ∀ t, queue ((wdInsert s w delay).setActive w true) t =
        insertTime w (t + delay) (queue s t) := by
  cases hl : s.activeList with
  | nil =>
    have hins : wdInsert s w delay = ({ s.addHeadLag [] (-delay) with
        activeList := [] ++ [w] }).setLag w delay := by
      rw [wdInsert, hl]
      rfl
    exact link_spec h hl hw hins (by simp) hdelay (by simp) (by simp)
  | cons head rest =>
    have hfound := wdSearch_found s.lag rest (h.nonneg head (by simp [hl])) hdelay
    set c := wdSearch s.lag delay head rest with hc
    have hnow := hfound.now_eq
    rw [span_concat] at hnow
    by_cases hlt : delay < c.now
    · have hins : wdInsert s w delay =
          ({ s.addHeadLag (c.curr :: c.post) (-(delay - (c.now - s.lag c.curr))) with
              activeList := c.pre ++ w :: c.curr :: c.post }).setLag w
            (delay - (c.now - s.lag c.curr)) := by
        simp only [wdInsert, hl, ← hc, if_pos hlt]
        rfl
      have hle := hfound.span_le
      refine link_spec h (hl.trans hfound.split) hw hins (by omega) (by omega) ?_ hfound.passed
      intro a r ha
      obtain ⟨rfl, -⟩ := cons.inj ha
      rw [← hfound.now_eq]
      exact hlt
    · -- the search ran to the last watchdog, so the new one goes to the end
      have hpost : c.post = [] := hfound.stop.resolve_left hlt
      have hins : wdInsert s w delay = ({ s.addHeadLag [] (-(delay - c.now)) with
          activeList := (c.pre ++ [c.curr]) ++ [w] }).setLag w (delay - c.now) := by
        simp only [wdInsert, hl, ← hc, if_neg hlt, hpost, append_assoc]
        rfl
      have hsplit : s.activeList = (c.pre ++ [c.curr]) ++ [] := by
        rw [hl, hfound.split, hpost, append_nil]
      refine link_spec h hsplit hw hins (by rw [hfound.now_eq]) (by omega) (by simp) ?_
      exact fun t => passed_concat (hfound.passed t) (by omega)

theorem QueueInv.setCall (h : QueueInv s) : QueueInv (s.setCall w f n p) :=
  ⟨h.nodup, fun c hc => by rw [lag_setCall]; exact h.nonneg c hc,
    fun c hc => by rw [active_setCall]; exact h.active c hc⟩

@[simp] theorem queue_setCall : queue (s.setCall w f n p) t = queue s t :=
  times_congr fun _ _ => lag_setCall

theorem wdStop_spec (h : QueueInv s) (hw : (s.wdog w).active = true → w ∈ s.activeList) :
    ∃ s', wdStop s w = .ok s' ∧ Unlinked w s s' := by
  cases ha : (s.wdog w).active with
  | true =>
    obtain ⟨s', r, hrun, hout⟩ := wdCancel_spec h hw
    exact ⟨s', by rw [wdStop, if_pos ha, hrun]; rfl, hout⟩
  | false => exact ⟨s, by simp [wdStop, ha, pure, Except.pure], h.unlinked_self ha⟩

/-- A watchdog has been started at tick `t`: it is due at tick `t + delay + 1`, behind every watchdog
that is not later, and no other deadline is touched. -/
structure Started (w : WdogId) (delay : ℤ) (s s' : WdState) : Prop where
  inv : QueueInv s'
  freeList : s'.freeList = s.freeList
  active : ∀ c, (s'.wdog c).active = if c = w then true else (s.wdog c).active
  queue : ∀ t, queue s' t = insertTime w (t + (delay + 1))
    ((queue s t).filter (fun p => decide (p.1 ≠ w)))

/-- **`wd_start` sets one deadline** and touches no other. -/
theorem wdStart_spec {maxParms argc : ℕ} (func : ℕ) (parm : List ℕ) (h : QueueInv s)
    (hw : (s.wdog w).active = true → w ∈ s.activeList) (hargc : argc ≤ maxParms) (h0 : 0 ≤ delay)
    (h1 : delay < intMax) :
    ∃ s', wdStart maxParms s (some w) delay func argc parm = .ok (s', .ok, .ok) ∧
      Started w delay s s' := by
  obtain ⟨s1, hrun, hout⟩ := wdStop_spec h hw
  have hinv' := hout.inv.setCall (w := w) (f := func) (n := argc) (p := parm)
  obtain ⟨hinv2, hfree2, hact2, hq2⟩ :=
    wdInsert_spec hinv' hout.notMem (show 0 ≤ delay + 1 by omega)
  refine ⟨(wdInsert (s1.setCall w func argc parm) w (delay + 1)).setActive w true, ?_, hinv2, ?_,
    ?_, ?_⟩
  · simp only [wdStart]
    rw [if_neg (by omega), hrun, wdDelay_eq h0 h1]
    rfl
  · rw [freeList_setActive, hfree2, freeList_setCall, hout.freeList]
  · intro c
    rw [active_setActive]
    split
    · rfl
    · rename_i hc
      rw [hact2 c, active_setCall, hout.active c, if_neg hc]
  · intro t
    rw [hq2 t, queue_setCall, hout.queue t]

/-! ### The timer interrupt -/

/-- **The tick leaves every deadline where it is**: the clock and the head lag move together. -/
theorem queue_wdTimerTick (h : s.activeList.Nodup) : queue (wdTimerTick s) (t + 1) = queue s t := by
  unfold queue wdTimerTick
  rw [activeList_addHeadLag, times_addHeadLag h, Int.add_neg_cancel_right]

theorem QueueInv.wdTimerTick (h : QueueInv s) (hpos : ∀ n l, s.activeList = n :: l → 0 < s.lag n) :
    QueueInv (wdTimerTick s) := by
  have hlist : (Wdog.wdTimerTick s).activeList = s.activeList := activeList_addHeadLag
  refine ⟨by rw [hlist]; exact h.nodup, ?_, ?_⟩
  · intro w hw
    rw [hlist] at hw
    unfold Wdog.wdTimerTick
    cases hl : s.activeList with
    | nil => simp [hl] at hw
    | cons n l =>
      obtain ⟨hn, hr⟩ := lag_addHeadLag_cons (s := s) (v := -1) (hl ▸ h.nodup)
      rcases mem_cons.mp (hl ▸ hw) with rfl | hw'
      · have := hpos w l hl
        omega
      · rw [hr w hw']
        exact h.nonneg w hw
  · intro w hw
    rw [hlist] at hw
    unfold Wdog.wdTimerTick
    rw [active_addHeadLag]
    exact h.active w hw

theorem wdTimerDue_iff : wdTimerDue s = true ↔ ∃ p q, queue s t = p :: q ∧ p.2 ≤ t := by
  unfold wdTimerDue queue
  cases hl : s.activeList with
  | nil => simp
  | cons n l =>
    simp only [decide_eq_true_eq, times_cons, cons.injEq, exists_and_right]
    constructor
    · intro hle
      exact ⟨_, ⟨_, rfl, rfl⟩, by change t + s.lag n ≤ t; omega⟩
    · rintro ⟨p, ⟨q, rfl, -⟩, hp⟩
      omega

/-- **The expiry loop takes the first deadline** and touches no other. -/
theorem wdTimerExpire_spec (h : QueueInv s) {p : WdogId × ℤ} {q : List (WdogId × ℤ)}
    (hq : queue s t = p :: q) :
    ∃ s', wdTimerExpire s = (s', some p.1) ∧ Unlinked p.1 s s' ∧ queue s' t = q := by
  cases hl : s.activeList with
  | nil => simp [queue, hl] at hq
  | cons n l =>
    have hnl : n ∉ l := (nodup_cons.mp (hl ▸ h.nodup)).1
    have hq' := hq
    rw [queue, hl, times_cons] at hq'
    obtain ⟨rfl, rfl⟩ := cons.inj hq'
    have hout := unlink_spec h (show s.activeList = [] ++ n :: l from hl) rfl
    refine ⟨_, by rw [wdTimerExpire, hl]; rfl, hout, (hout.queue t).trans ?_⟩
    rw [hq]
    exact filter_times_split (t := t) not_mem_nil hnl

/-! ### Reading a deadline -/

theorem sumLags_of_mem (lag : WdogId → ℤ) {l : List WdogId} (h : w ∈ l) (d : ℤ) :
    (w, d + sumLags lag w 0 l) ∈ times lag d l := by
  suffices hgen : ∀ (l : List WdogId) (d e : ℤ), w ∈ l →
      (w, d + sumLags lag w e l) ∈ times lag (d + e) l by
    simpa using hgen l d 0 h
  intro l
  induction l with
  | nil => intro d e hm; simp at hm
  | cons c l ih =>
    intro d e hm
    rw [sumLags, times_cons]
    split
    · rename_i hc
      refine mem_cons.mpr (Or.inl ?_)
      rw [hc, add_assoc]
    rename_i hc
    have hml : w ∈ l := (mem_cons.mp hm).resolve_left fun h => hc h.symm
    refine mem_cons_of_mem _ ?_
    rw [add_assoc]
    exact ih d (e + lag c) hml

/-- **`wd_gettime` reads the deadline**, less the current tick. -/
theorem wdGettime_of_mem (h : QueueInv s) {d : ℤ} (hd : (w, d) ∈ queue s t) :
    wdGettime s (some w) = d - t := by
  have hw : w ∈ s.activeList := mem_of_mem_times hd
  have hm := sumLags_of_mem s.lag hw t
  have hnd : ((queue s t).map Prod.fst).Nodup := by
    rw [map_fst_queue]
    exact h.nodup
  have heq : d = t + sumLags s.lag w 0 s.activeList :=
    congrArg Prod.snd (inj_on_of_nodup_map hnd hd hm rfl)
  simp only [wdGettime]
  rw [if_pos (h.active w hw), heq]
  omega

theorem wdGettime_of_not_active (h : (s.wdog w).active = false) : wdGettime s (some w) = 0 := by
  simp [wdGettime, h]

end Wdog

end NuttX
