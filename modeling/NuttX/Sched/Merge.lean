import NuttX.Sched.Lists

/-!
# Merging and inserting

`sched_mergepending` puts the pending tasks into `g_readytorun` in one pass: each search goes on at
the task that has been inserted last. `NuttX.insertPending` takes the pending tasks off their list
one after the other, inserts each with `sched_addprioritized`, and sets the states as
`sched_addreadytorun` does. Both end in the same state (`NuttX.schedMergepending_insertPending`).
-/

namespace NuttX

open Function Prio List

/-- The pending tasks are inserted one after the other. The result is true when the running task has
changed. -/
def insertPending : List Tid → Bool → Sched → Os (Sched × Bool)
  | [], ret, s => .ok (s, ret)
  | pndtcb :: pnd, ret, s => do
    let (s, first) ← schedAddprioritized (s.dqRem pndtcb .pendingtasks) pndtcb .readytorun
    if first then
      match flink pndtcb (s.list .readytorun) with
      | none => .error .nullDeref
      | some next =>
        insertPending pnd true ((s.setState next .readyToRun).setState pndtcb .running)
    else insertPending pnd ret (s.setState pndtcb .readyToRun)

variable {s : Sched} {t : Tid} {new l : List Tid}

/-- The scheduler while the tasks in `new` are still pending. -/
def Sched.halfMerged (s : Sched) (new l : List Tid) : Sched :=
  (s.setList .readytorun l).setList .pendingtasks new

theorem schedAddprioritized_halfMerged (hp : 1 ≤ s.prio t) :
    schedAddprioritized ((s.halfMerged (t :: new) l).dqRem t .pendingtasks) t .readytorun =
      .ok (s.halfMerged new (insert s.prio t l), (ahead s.prio (s.prio t) l).isEmpty) := by
  have hlist : ((s.halfMerged (t :: new) l).dqRem t .pendingtasks).list .readytorun = l := by
    simp [Sched.halfMerged]
  refine schedAddprioritized_ok.mpr ⟨hp, ?_, by rw [hlist]; rfl⟩
  refine congrArg (Sched.mk s.tcb) (funext fun L => ?_)
  cases L <;> simp [Sched.halfMerged]

/-- What a merge leaves, when `new` has been merged into `l` and the head was `h₀`. -/
structure MergedInto (s s' : Sched) (new l : List Tid) (h₀ : Option Tid) (ret : Bool) : Prop where
  list : s'.list = update s.list .readytorun (new.foldl (fun l a => Prio.insert s.prio a l) l)
  changed : ret = true ↔ (s'.list .readytorun).head? ≠ h₀

/-- The loop of `sched_mergepending` and the insertions: the tasks that have been passed are not
below those to come. -/
theorem mergeLoop_insertPending (h0 : Option Tid) :
    ∀ (new done rest : List Tid) (ret : Bool) (s : Sched),
    Prio.Desc s.prio new → (∀ c ∈ done, ∀ a ∈ new, s.prio a ≤ s.prio c) →
    (∃ b ∈ rest, ∀ a ∈ new, s.prio b < s.prio a) → (∀ a ∈ new, some a ≠ h0) →
    (ret = true ↔ (done ++ rest).head? ≠ h0) →
    ∃ s' ret', mergeLoop new done rest ret s = .ok (s', ret') ∧
      insertPending new ret (s.halfMerged new (done ++ rest)) =
        .ok (s'.setList .pendingtasks [], ret') ∧
      MergedInto s s' new (done ++ rest) h0 ret'
  | [], done, rest, ret, s, _, _, _, _, hret => by
    refine ⟨_, ret, rfl, rfl, rfl, ?_⟩
    rw [Sched.list_setList, update_self]
    exact hret
  | t :: new, done, rest, ret, s, hnew, habove, ⟨b, hb, hlt⟩, hne, hret => by
    obtain ⟨hfirst, hnew'⟩ := pairwise_cons.mp hnew
    have hmem : ∀ {a}, a ∈ new → a ∈ t :: new := mem_cons_of_mem t
    have hself : t ∈ t :: new := mem_cons_self
    have hlt' : s.prio b < s.prio t := hlt t hself
    obtain ⟨c, rest', hc⟩ := exists_cons_of_ne_nil (Prio.behind_ne_nil hb hlt')
    have hins : Prio.insert s.prio t (done ++ rest) =
        done ++ Prio.ahead s.prio (s.prio t) rest ++ t :: c :: rest' := by
      rw [Prio.insert_append fun c hc => habove c hc t hself, Prio.insert, hc, append_assoc]
    have hhead : (done ++ Prio.ahead s.prio (s.prio t) rest ++ t :: c :: rest').head? =
        if done ++ Prio.ahead s.prio (s.prio t) rest = [] then some t else (done ++ rest).head? := by
      rw [← hins, Prio.head?_insert, Prio.ahead_append fun c hc => habove c hc t hself]
    have hstep : ∀ (ret1 : Bool) (s1 : Sched), s1.prio = s.prio → s1.list = s.list →
        (ret1 = true ↔ (done ++ Prio.ahead s.prio (s.prio t) rest ++ t :: c :: rest').head? ≠ h0) →
        ∃ s' ret', mergeLoop new (done ++ Prio.ahead s.prio (s.prio t) rest) (t :: c :: rest') ret1
            s1 = .ok (s', ret') ∧
          insertPending new ret1 (s1.halfMerged new (Prio.insert s.prio t (done ++ rest))) =
            .ok (s'.setList .pendingtasks [], ret') ∧
          MergedInto s s' (t :: new) (done ++ rest) h0 ret' := by
      intro ret1 s1 hprio hlist hret1
      have hdone : ∀ c ∈ done ++ Prio.ahead s.prio (s.prio t) rest, ∀ a ∈ new,
          s1.prio a ≤ s1.prio c := by
        intro c hc a ha
        rw [hprio]
        rcases mem_append.mp hc with hc | hc
        · exact habove c hc a (hmem ha)
        · exact (hfirst a ha).trans (Prio.le_of_mem_ahead hc)
      obtain ⟨s', ret', hmerge, hinsert, hlist', hchanged⟩ :=
        mergeLoop_insertPending h0 new _ _ ret1 s1 (by rw [hprio]; exact hnew') hdone
        ⟨b, mem_cons_of_mem t (hc ▸ Prio.mem_behind hb hlt'),
          fun a ha => by rw [hprio]; exact hlt a (hmem ha)⟩
        (fun a ha => hne a (hmem ha)) hret1
      rw [hins]
      refine ⟨s', ret', hmerge, hinsert, ?_, hchanged⟩
      rw [hlist', hprio, hlist, ← hins]
      rfl
    rw [mergeLoop, insertPending, hc, schedAddprioritized_halfMerged (by omega), ok_bind,
      Prio.ahead_append fun c hc => habove c hc t hself]
    simp only
    split <;> rename_i hnil
    · rw [if_pos hnil] at hhead
      obtain ⟨s', ret', h⟩ := hstep true ((s.setState c .readyToRun).setState t .running) (by simp)
        (by simp) (by rw [hhead]; simpa using hne t hself)
      refine ⟨s', ret', ?_⟩
      rw [hnil] at h hins ⊢
      have hflink : flink t ((s.halfMerged new (Prio.insert s.prio t (done ++ rest))).list
          .readytorun) = some c := by
        simp [Sched.halfMerged, hins, flink]
      simp only [isEmpty_nil, if_true, hflink]
      exact h
    · rw [if_neg hnil] at hhead
      rw [if_neg (by simpa using hnil)]
      exact hstep ret (s.setState t .readyToRun) (by simp) (by simp) (by rw [hhead]; exact hret)

/-- **`sched_mergepending` is one-by-one insertion**: it ends in the state in which the pending tasks
have been inserted one after the other. No task is lost or doubled, tasks of the same priority stay
in order, and the result says whether there is a new head. -/
theorem schedMergepending_insertPending (hpending : Prio.Desc s.prio (s.list .pendingtasks))
    (hready : Prio.Desc s.prio (s.list .readytorun))
    (hlast : (s.list .readytorun).getLast? = some idle)
    (hidle : ∀ t ∈ s.list .pendingtasks, s.prio idle < s.prio t)
    (hdisj : ∀ t ∈ s.list .pendingtasks, t ∉ s.list .readytorun) :
    ∃ s' ret, schedMergepending s = .ok (s', ret) ∧
      insertPending (s.list .pendingtasks) false s = .ok (s', ret) ∧
      s'.list .pendingtasks = [] ∧
      (s'.list .readytorun).Perm (s.list .pendingtasks ++ s.list .readytorun) ∧
      (∀ p, (s'.list .readytorun).filter (s.prio · = p) =
        (s.list .readytorun).filter (s.prio · = p) ++
          (s.list .pendingtasks).filter (s.prio · = p)) ∧
      (s'.list .readytorun).getLast? = some idle ∧
      (ret = true ↔ (s'.list .readytorun).head? ≠ (s.list .readytorun).head?) := by
  have hmem := mem_of_getLast? hlast
  obtain ⟨s', ret, hmerge, hinsert, hlist, hchanged⟩ :=
    mergeLoop_insertPending (s.list .readytorun).head? _ [] _ false s hpending nofun
      ⟨idle, hmem, hidle⟩ (fun t ht hhead => hdisj t ht (mem_of_head? hhead.symm)) (by simp)
  obtain ⟨-, -, ⟨l, hl, hlist'⟩, -⟩ := mergeLoop_spec hmerge
  have hself : s.halfMerged (s.list .pendingtasks) (s.list .readytorun) = s := by
    simp [Sched.halfMerged, Sched.setList]
  have hready' : s'.list .readytorun = l := by rw [hlist', update_self]
  have hset : (s'.setList .pendingtasks []).list .readytorun = s'.list .readytorun := by simp
  rw [nil_append, hself] at hinsert
  refine ⟨_, ret, ?_, hinsert, by simp, ?_⟩
  · rw [schedMergepending, hmerge]
    rfl
  rw [hset]
  refine ⟨hready' ▸ Prio.merge_perm hl, fun p => ?_, ?_, hchanged⟩
  · rw [hlist, update_self]
    exact hready.filter_foldl_insert p
  · rw [hready', Prio.getLast?_merge hl (ne_nil_of_mem hmem)]
    exact hlast

/-- The tasks 3 and 4 of priority 100 wait for a place behind task 2. -/
def twoPending : Sched where
  tcb t := ⟨if t = 0 then 0 else if t = 1 then 50 else 100, .readyToRun, 0, 0, false⟩
  list
    | .readytorun => [2, 1, 0]
    | .pendingtasks => [3, 4]
    | _ => []

theorem schedMergepending_insertPending_two : ∃ s' ret,
    schedMergepending twoPending = .ok (s', ret) ∧
    insertPending [3, 4] false twoPending = .ok (s', ret) :=
  let ⟨s', ret, hmerge, hinsert, _⟩ := schedMergepending_insertPending (s := twoPending)
    (by rw [Prio.Desc]; decide) (by rw [Prio.Desc]; decide) rfl (by decide) (by decide)
  ⟨s', ret, hmerge, hinsert⟩

end NuttX
