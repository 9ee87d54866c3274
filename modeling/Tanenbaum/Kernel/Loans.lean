import Tanenbaum.Kernel.Inversion

namespace Tanenbaum.Kernel.Scheduler

open Lib.Runs Lists ListUse Selection

section Loans

variable {τ μ : Type} {s s' : State τ μ} {idle t : τ} {m : μ}

/-- A holder has its own priority or that of the first in line, and no wait is about to end
without the mutex. -/
structure Matched (s : State τ μ) : Prop where
  loan : ∀ m h, s.xMutexHolder m = some h → s.uxPriority h = s.uxBasePriority h ∨
    ∃ t, (s.xTasksWaitingToReceive m).head? = some t ∧ s.uxPriority t = s.uxPriority h
  untimed : ∀ t m, s.pc t ≠ .expired m ∧ s.pc t ≠ .disinherit m

theorem Matched.warranted (h : Matched s) (hinv : Inv idle s) {l : Label τ μ}
    (hl : Legal idle s l) : Warranted s l := by
  cases l with
  | give m =>
    intro t ht
    rcases h.loan m _ hl.2.2 with hown | ⟨t', ht', hprio⟩
    · exact .inl hown
    · obtain rfl : t' = t := Option.some.inj (ht'.symm.trans ht)
      have hbase := hinv.lent.base_le s.pxCurrentTCB
      rw [← hprio] at hbase ⊢
      omega
  | _ => trivial

theorem Matched.beside (h : Matched s) (r : Ready τ) (current : τ) (suspended : ℕ)
    (pending : List τ) (y y' : Bool) (f : τ → Bool) :
    Matched { s with
      ready := r
      pxCurrentTCB := current
      uxSchedulerSuspended := suspended
      xPendingReadyList := pending
      xYieldPending := y
      pendSV := y'
      xInheritanceOccurred := f } :=
  ⟨h.loan, h.untimed⟩

variable [DecidableEq τ]

theorem Matched.goto (h : Matched s) {pc : Pc μ} (hpc : ∀ m, pc ≠ .expired m ∧ pc ≠ .disinherit m)
    (t : τ) : Matched (s.goto t pc) := by
  refine ⟨h.loan, fun u m ↦ ?_⟩
  by_cases hu : u = t
  · subst hu
    simp only [State.goto, Function.update_self]
    exact hpc m
  · simp only [State.goto, Function.update_of_ne hu]
    exact h.untimed u m

theorem Matched.unblock (h : Matched s) (t : τ) :
    Matched (let (higher, s) := unblock t s
      if higher then s.yield else s) := by
  by_cases hs : s.uxSchedulerSuspended = 0
  · rw [unblock_running t hs]
    dsimp only
    rw [yield_if]
    exact h.beside ..
  · rw [unblock_suspended t hs]
    dsimp only
    rw [yield_if]
    exact h.beside ..

theorem Matched.resumeAll (h : Matched s) (hs' : xTaskResumeAll s = some s') : Matched s' := by
  rw [xTaskResumeAll] at hs'
  split at hs'
  · cases hs'
  · dsimp only at hs'
    split at hs'
    · rw [readyLoop_eq, yield_if] at hs'
      obtain rfl := Option.some.inj hs'
      exact h.beside ..
    · obtain rfl := Option.some.inj hs'
      exact h.beside ..

theorem Matched.pendSV (h : Matched s)
    (hs' : (vTaskSwitchContext s).map (fun s ↦ { s with pendSV := false }) = some s') :
    Matched s' := by
  obtain ⟨s₁, hs₁, rfl⟩ := Option.map_eq_some_iff.mp hs'
  rw [vTaskSwitchContext] at hs₁
  split at hs₁
  · obtain rfl := Option.some.inj hs₁
    exact h.beside ..
  · obtain ⟨⟨t, r⟩, -, rfl⟩ := Option.map_eq_some_iff.mp hs₁
    exact h.beside ..

variable [DecidableEq μ]

/-- Whoever takes a mutex has held none, and so has its own priority. -/
theorem Matched.acquire (h : Matched s) (hinv : Inv idle s)
    (hpc : s.pc s.pxCurrentTCB = .attempt m) :
    Matched { s.goto s.pxCurrentTCB .run with
      xMutexHolder := Function.update s.xMutexHolder m (some s.pxCurrentTCB)
      uxMutexesHeld := Function.update s.uxMutexesHeld s.pxCurrentTCB
        (s.uxMutexesHeld s.pxCurrentTCB + 1) } := by
  refine ⟨fun m' v hv ↦ ?_, (h.goto (by simp) s.pxCurrentTCB).untimed⟩
  by_cases hmm : m' = m
  · subst hmm
    simp only [Function.update_self] at hv
    cases hv
    exact .inl (hinv.lent.own _ (hinv.lent.attempt_held hpc))
  · simp only [Function.update_of_ne hmm] at hv
    exact h.loan m' v hv

/-- Whoever lends its priority is the first in line. -/
theorem Matched.inherit (h : Matched s) (hinv : Inv idle s)
    (hpc : s.pc s.pxCurrentTCB = .check m) {v : τ} (hm : s.xMutexHolder m = some v)
    (f : τ → Bool) :
    Matched (place m { (xTaskPriorityInherit (some v) s).2 with xInheritanceOccurred := f }) := by
  have hvalue (t u : τ) : s.xEventListItem t ≤ s.xEventListItem u ↔
      s.uxPriority u ≤ s.uxPriority t := by
    rw [hinv.lent.item, hinv.lent.item, eventValue_le_iff (hinv.lent.bound u)]
  have hne : s.pxCurrentTCB ≠ v := by
    rintro rfl
    apply hinv.lent.not_inside hm
    rw [hpc]
    trivial
  have hwaiting {m' : μ} {t : τ} (ht : t ∈ s.xTasksWaitingToReceive m') : t ≠ v := by
    rintro rfl
    apply hinv.lent.not_inside hm
    rw [(hinv.lent.waiting m' t).mp ht]
    trivial
  have hplaced : Matched (s.goto s.pxCurrentTCB (.waiting m)) := h.goto (by simp) _
  have huntimed := hplaced.untimed
  rw [xTaskPriorityInherit]
  dsimp only
  split
  · next hlt =>
    obtain ⟨r, hr, -⟩ := hinv.ranked.changePriority v (s.uxPriority s.pxCurrentTCB)
    rw [hr]
    refine ⟨fun m' u hu ↦ ?_, huntimed⟩
    change s.xMutexHolder m' = some u at hu
    simp only [place, State.goto, State.setPriority]
    by_cases hmm : m' = m
    · subst hmm
      obtain rfl : v = u := Option.some.inj (hm.symm.trans hu)
      refine .inr ⟨s.pxCurrentTCB, ?_, ?_⟩
      · rw [Function.update_self]
        cases hw : s.xTasksWaitingToReceive m' with
        | nil => rfl
        | cons w ws =>
          have hin : w ∈ s.xTasksWaitingToReceive m' := hw ▸ List.mem_cons_self ..
          have hbefore : ¬ s.xEventListItem w ≤ s.xEventListItem s.pxCurrentTCB := by
            rw [hvalue]
            exact Nat.not_le_of_lt ((hinv.lent.lent m' v hm w hin).trans_lt hlt)
          rw [insertSorted_cons, Function.update_of_ne (hwaiting hin), Function.update_of_ne hne,
            if_neg hbefore, List.head?_cons]
      · rw [Function.update_self, Function.update_of_ne hne]
    · have huv : u ≠ v := by
        rintro rfl
        exact hmm (hinv.lent.single m' m u hu hm)
      rw [Function.update_of_ne huv, Function.update_of_ne hmm]
      rcases h.loan m' u hu with hown | ⟨t, ht, hprio⟩
      · exact .inl hown
      · refine .inr ⟨t, ht, ?_⟩
        rw [Function.update_of_ne (hwaiting (List.mem_of_mem_head? ht))]
        exact hprio
  · next hle =>
    refine ⟨fun m' u hu ↦ ?_, huntimed⟩
    change s.xMutexHolder m' = some u at hu
    rcases h.loan m' u hu with hown | ⟨t, ht, hprio⟩
    · exact .inl hown
    · refine .inr ⟨t, ?_, hprio⟩
      by_cases hmm : m' = m
      · subst hmm
        obtain rfl : v = u := Option.some.inj (hm.symm.trans hu)
        obtain ⟨ts, hts⟩ := List.head?_eq_some_iff.mp ht
        have hbehind : s.xEventListItem t ≤ s.xEventListItem s.pxCurrentTCB := by
          rw [hvalue, hprio]
          exact Nat.le_of_not_lt hle
        simp only [place, Function.update_self]
        rw [hts, insertSorted_cons, if_pos hbehind, List.head?_cons]
      · simp only [place, Function.update_of_ne hmm]
        exact ht

theorem Matched.take (h : Matched s) (hinv : Inv idle s) (hs' : take false s = some s') :
    Matched s' := by
  rw [Scheduler.take] at hs'
  dsimp only at hs'
  cases hpc : s.pc s.pxCurrentTCB with
  | attempt m =>
    rw [hpc] at hs'
    dsimp only at hs'
    cases hm : s.xMutexHolder m with
    | none =>
      rw [hm] at hs'
      obtain rfl := Option.some.inj hs'
      exact h.acquire hinv hpc
    | some v =>
      rw [hm] at hs'
      obtain rfl := Option.some.inj hs'
      exact h.goto (by simp) _
  | check m =>
    rw [hpc] at hs'
    dsimp only at hs'
    rw [if_neg Bool.false_ne_true] at hs'
    cases hm : s.xMutexHolder m with
    | none =>
      rw [hm] at hs'
      obtain rfl := Option.some.inj hs'
      exact h.goto (by simp) _
    | some v =>
      rw [hm] at hs'
      obtain rfl := Option.some.inj hs'
      exact h.inherit hinv hpc hm _
  | expired m => exact absurd hpc (h.untimed _ m).1
  | disinherit m => exact absurd hpc (h.untimed _ m).2
  | _ =>
    rw [hpc] at hs'
    cases hs'

/-- The holder of another mutex is not the current task, and the line for it does not move. -/
theorem Matched.release (h : Matched s) (hinv : Inv idle s) (hpc : s.pc s.pxCurrentTCB = .run)
    (hm : s.xMutexHolder m = some s.pxCurrentTCB) (r : Ready τ) (ts : List τ) :
    Matched { s.release m r with
      xTasksWaitingToReceive := Function.update s.xTasksWaitingToReceive m ts } := by
  refine ⟨fun m' v hv ↦ ?_, h.untimed⟩
  change Function.update s.xMutexHolder m none m' = some v at hv
  have hmm : m' ≠ m := by
    rintro rfl
    rw [Function.update_self] at hv
    cases hv
  rw [Function.update_of_ne hmm] at hv
  have hne : v ≠ s.pxCurrentTCB := by
    rintro rfl
    exact hmm (hinv.lent.single m' m _ hv hm)
  simp only [State.release, State.setPriority, Function.update_of_ne hmm, Function.update_of_ne hne]
  rcases h.loan m' v hv with hown | ⟨t, ht, hprio⟩
  · exact .inl hown
  · refine .inr ⟨t, ht, ?_⟩
    have hout : t ≠ s.pxCurrentTCB := by
      rintro rfl
      have hwait := (hinv.lent.waiting m' s.pxCurrentTCB).mp (List.mem_of_mem_head? ht)
      rw [hpc] at hwait
      cases hwait
    rw [Function.update_of_ne hout]
    exact hprio

theorem Matched.give (h : Matched s) (hinv : Inv idle s) (hruns : s.Runs)
    (hpc : s.pc s.pxCurrentTCB = .run) (hm : s.xMutexHolder m = some s.pxCurrentTCB)
    (hs' : give m s = some s') : Matched s' := by
  obtain ⟨y, s₁, r, hdis, hs₁, -⟩ := hinv.disinherit_release hruns hm
  rw [Scheduler.give, hdis] at hs'
  obtain rfl := Option.some.inj hs'
  rw [hs₁, unblockFirst]
  have hrelease := h.release hinv hpc hm r
  cases hw : s.xTasksWaitingToReceive m with
  | nil =>
    have hw' : (s.release m r).xTasksWaitingToReceive m = [] := hw
    rw [hw']
    dsimp only
    rw [yield_if]
    have hsame := hrelease []
    rw [← hw, Function.update_eq_self] at hsame
    exact hsame.beside ..
  | cons t ts =>
    have hw' : (s.release m r).xTasksWaitingToReceive m = t :: ts := hw
    rw [hw']
    exact ((hrelease ts).goto (by simp) t).unblock t

/-- A task whose time is up stood in no line. -/
theorem Matched.expire (h : Matched s) (ht : ∀ m, s.pc t ≠ .waiting m) :
    Matched (expire t s) := by
  rw [Scheduler.expire]
  cases hpc : s.pc t with
  | waiting m => exact absurd hpc (ht m)
  | _ => exact (h.goto (by simp) t).beside ..

theorem expire_ne_waiting (ht : ∀ m, s.pc t ≠ .waiting m) {u : τ} (hu : ∀ m, s.pc u ≠ .waiting m)
    (m : μ) : (expire t s).pc u ≠ .waiting m := by
  have hpc : (expire t s).pc = Function.update s.pc t .run := by
    rw [expire]
    cases hpc : s.pc t with
    | waiting m => exact absurd hpc (ht m)
    | _ => rfl
  rw [hpc]
  by_cases hut : u = t
  · subst hut
    simp
  · rw [Function.update_of_ne hut]
    exact hu m

theorem Matched.expireLoop {ts : List τ} {b : Bool} (h : Matched s)
    (hts : ∀ t ∈ ts, ∀ m, s.pc t ≠ .waiting m) : Matched (expireLoop ts b s).2 := by
  induction ts generalizing s b with
  | nil => exact h
  | cons t ts ih =>
    obtain ⟨ht, hts⟩ := List.forall_mem_cons.mp hts
    exact ih (h.expire ht) fun u hu ↦ expire_ne_waiting ht (hts u hu)

theorem Matched.tick (h : Matched s) {expired : List τ}
    (hts : ∀ t ∈ expired, ∀ m, s.pc t ≠ .waiting m) :
    Matched (let (xSwitchRequired, s) := xTaskIncrementTick expired s
      if xSwitchRequired then s.yield else s) := by
  by_cases hs : s.uxSchedulerSuspended = 0
  · rw [xTaskIncrementTick, if_pos hs]
    dsimp only
    rw [yield_if]
    exact (h.expireLoop hts).beside ..
  · rw [xTaskIncrementTick, if_neg hs]
    exact h

theorem Matched.step (h : Matched s) (hinv : Inv idle s) {l : Label τ μ} (hl : Legal idle s l)
    (huntimed : Untimed s l) (hs' : step s l = some s') : Matched s' := by
  cases l with
  | take m =>
    obtain rfl := Option.some.inj hs'
    exact (h.goto (by simp) _).beside ..
  | go timedOut =>
    obtain rfl : timedOut = false := huntimed
    exact h.take hinv hs'
  | give m => exact h.give hinv hl.1 hl.2.1 hl.2.2 hs'
  | block =>
    obtain rfl := Option.some.inj hs'
    exact (h.goto (by simp) _).beside ..
  | suspendAll =>
    obtain rfl := Option.some.inj hs'
    exact h.beside ..
  | resumeAll => exact h.resumeAll hs'
  | wake t =>
    obtain rfl := Option.some.inj hs'
    exact (h.goto (by simp) t).unblock t
  | tick expired =>
    obtain rfl := Option.some.inj hs'
    exact h.tick huntimed
  | pendSV => exact h.pendSV hs'

omit [DecidableEq μ] in
theorem Matched.create (h : Matched s) (t : τ) : Matched (prvAddNewTaskToReadyList s t) := by
  rw [prvAddNewTaskToReadyList]
  dsimp only [prvAddTaskToReadyList]
  refine (Matched.goto ?_ (by simp) t).beside ..
  split
  · exact h.beside ..
  · exact h

omit [DecidableEq μ] in
theorem matched_start (prio : τ → ℕ) (t : τ) (ts : List τ) :
    Matched (start prio t ts : State τ μ) := by
  have hblank : Matched (blank prio t : State τ μ) := by
    refine ⟨fun m h hm ↦ ?_, by simp [blank]⟩
    cases hm
  rw [start]
  exact List.foldlRecOn (t :: ts) prvAddNewTaskToReadyList hblank fun s hs u _ ↦ hs.create u

/-- Where no wait times out, each mutex is given back by a task with a priority it was lent by
the first in line, or with its own. -/
theorem warranted_along {prio : τ → ℕ} (hprio : ∀ t, prio t < configMaxPriorities)
    {ts : List τ} (hts : (t :: ts).Nodup) (hidle : idle ∈ t :: ts) {labels : List (Label τ μ)}
    (hlegal : Along Scheduler.step (Legal idle) (start prio t ts) labels)
    (huntimed : Along Scheduler.step Untimed (start prio t ts) labels) :
    Along Scheduler.step Warranted (start prio t ts) labels := by
  refine along_of_along (I := fun s ↦ Inv idle s ∧ Matched s) (fun s l s' hs hl hs' ↦ ?_)
    (fun s l hs hl ↦ hs.2.warranted hs.1 hl.1)
    ⟨inv_start hprio hts hidle, matched_start prio t ts⟩ (along_and hlegal huntimed)
  obtain ⟨hinv, hmatched⟩ := hs
  obtain ⟨s₁, hs₁, hinv₁⟩ := hinv.step l hl.1 (hmatched.warranted hinv hl.1)
  obtain rfl : s₁ = s' := Option.some.inj (hs₁.symm.trans hs')
  exact ⟨hinv₁, hmatched.step hinv hl.1 hl.2 hs'⟩

theorem untimed_of_no_expiry {labels : List (Label τ μ)} (hgo : .go true ∉ labels)
    (htick : ∀ expired, .tick expired ∉ labels) : Along Scheduler.step Untimed s labels := by
  apply along_of_invariant (A := fun l ↦ l ≠ .go true ∧ ∀ expired, l ≠ .tick expired)
    (I := fun _ ↦ True)
  · exact fun _ _ _ _ _ _ ↦ trivial
  · intro s l hl _
    cases l with
    | go timedOut =>
      cases timedOut with
      | true => exact absurd rfl hl.1
      | false => rfl
    | tick expired => exact absurd rfl (hl.2 expired)
    | _ => trivial
  · trivial
  · intro l hl
    refine ⟨?_, fun expired ↦ ?_⟩ <;> rintro rfl
    · exact hgo hl
    · exact htick expired hl

theorem warranted_of_no_give {labels : List (Label τ μ)} (h : ∀ m, .give m ∉ labels) :
    Along Scheduler.step Warranted s labels := by
  apply along_of_invariant (A := fun l ↦ ∀ m, l ≠ .give m) (I := fun _ ↦ True)
  · exact fun _ _ _ _ _ _ ↦ trivial
  · intro s l hl _
    cases l with
    | give m => exact absurd rfl (hl m)
    | _ => trivial
  · trivial
  · rintro l hl m rfl
    exact h m hl

theorem inv_run {prio : τ → ℕ} (hprio : ∀ t, prio t < configMaxPriorities) {ts : List τ}
    (hts : (t :: ts).Nodup) (hidle : idle ∈ t :: ts) {labels : List (Label τ μ)}
    (hlegal : Along Scheduler.step (Legal idle) (start prio t ts) labels)
    (hwait : Along Scheduler.step Warranted (start prio t ts) labels) :
    ∃ s, run Scheduler.step (start prio t ts) labels = some s ∧ Inv idle s :=
  run_enabled_along (fun _ l hs hl ↦ Inv.step hs l hl.1 hl.2) (inv_start hprio hts hidle)
    (along_and hlegal hwait)

/-- The assertions hold, the task that runs is one of the highest priority of those that are
ready, and nobody who waits for a mutex has a higher priority than its holder. So while the
holder is ready, nobody runs who is below one who waits. -/
theorem runs_highest_priority {prio : τ → ℕ} (hprio : ∀ t, prio t < configMaxPriorities)
    {ts : List τ} (hts : (t :: ts).Nodup) (hidle : idle ∈ t :: ts) {labels : List (Label τ μ)}
    (hlegal : Along Scheduler.step (Legal idle) (start prio t ts) labels)
    (hwait : Along Scheduler.step Untimed (start prio t ts) labels ∨
      Along Scheduler.step Warranted (start prio t ts) labels) :
    ∃ s, run Scheduler.step (start prio t ts) labels = some s ∧
      (s.Runs → s.IsReady s.pxCurrentTCB ∧
        ∀ u, s.IsReady u → s.uxPriority u ≤ s.uxPriority s.pxCurrentTCB) ∧
      (∀ m h, s.xMutexHolder m = some h → ∀ u ∈ s.xTasksWaitingToReceive m,
        s.uxPriority u ≤ s.uxPriority h) ∧
      (∀ u, s.uxMutexesHeld u = 0 → s.uxPriority u = s.uxBasePriority u) ∧
      ∀ m h u, s.Runs → s.xMutexHolder m = some h → s.IsReady h →
        u ∈ s.xTasksWaitingToReceive m → s.uxBasePriority u ≤ s.uxPriority s.pxCurrentTCB := by
  have hwarranted : Along Scheduler.step Warranted (start prio t ts) labels :=
    hwait.elim (warranted_along hprio hts hidle hlegal) id
  obtain ⟨s, hrun, h⟩ := inv_run hprio hts hidle hlegal hwarranted
  have hhighest (hruns : s.Runs) := h.ranked.runs (.inl hruns.1)
  refine ⟨s, hrun, hhighest, h.lent.lent, h.lent.own, fun m v u hruns hm hv hu ↦ ?_⟩
  calc s.uxBasePriority u ≤ s.uxPriority u := h.lent.base_le u
    _ ≤ s.uxPriority v := h.lent.lent m v hm u hu
    _ ≤ s.uxPriority s.pxCurrentTCB := (hhighest hruns).2 v hv

/-- Task 3 waits for a mutex that task 1 holds. Then task 2, which is between the two, is woken. -/
def inversion : List (Label (Fin 4) Unit) :=
  [.block, .pendSV, .block, .pendSV, .take (), .go false, .wake 3, .pendSV, .take (), .go false,
    .go false, .pendSV, .wake 2]

theorem holder_runs_before_middle : ∃ s, run step (start Fin.val 3 [2, 1, 0]) inversion = some s ∧
    s.pxCurrentTCB = 1 ∧ s.IsReady 2 ∧ s.uxBasePriority 3 ≤ s.uxPriority 1 := by
  have hlegal : Along step (Legal 0) (start Fin.val 3 [2, 1, 0]) inversion :=
    along_of_check (fun _ _ ↦ of_decide_eq_true) (by decide)
  have hprio (t : Fin 4) : t.val < configMaxPriorities := t.isLt.trans (by decide)
  have huntimed : Along step Untimed (start Fin.val 3 [2, 1, 0]) inversion :=
    untimed_of_no_expiry (by simp [inversion]) (by simp [inversion])
  obtain ⟨s, hrun, -, -, -, hmiddle⟩ :=
    runs_highest_priority hprio (by decide) (by decide) hlegal (.inl huntimed)
  obtain rfl : _ = s := Option.some.inj hrun
  exact ⟨_, rfl, rfl, ⟨trivial, List.not_mem_nil⟩,
    hmiddle () 1 3 ⟨rfl, rfl⟩ rfl ⟨trivial, List.not_mem_nil⟩ (List.mem_singleton_self 3)⟩

/-- The first in line becomes ready, and the current task goes on with its own priority. -/
theorem Inv.drop (h : Inv idle s) (hl : Legal idle s (.give m)) (hnot : ¬ Warranted s (.give m)) :
    ∃ s', Scheduler.step s (.give m) = some s' ∧ s'.Runs ∧ s'.pxCurrentTCB = s.pxCurrentTCB ∧
      s'.uxPriority s.pxCurrentTCB = s.uxBasePriority s.pxCurrentTCB ∧
      (∀ u, u ≠ s.pxCurrentTCB → s'.uxPriority u = s.uxPriority u) ∧
      (∀ u, s.IsReady u → s'.IsReady u) ∧
      ∀ u, s'.IsReady u → s.IsReady u ∨ s.uxPriority u ≤ s.uxBasePriority s.pxCurrentTCB := by
  obtain ⟨hruns, hpc, hm⟩ := hl
  simp only [Warranted, not_forall, not_or] at hnot
  obtain ⟨t, ht, -, hle⟩ := hnot
  obtain ⟨ts, hts⟩ := List.head?_eq_some_iff.mp ht
  have hwaiting : s.pc t = .waiting m := by
    rw [← h.lent.waiting, hts]
    exact List.mem_cons_self ..
  have hne : t ≠ s.pxCurrentTCB := by
    rintro rfl
    rw [hpc] at hwaiting
    cases hwaiting
  obtain ⟨y, s₁, r, hdis, hs₁, -⟩ := h.disinherit_release hruns hm
  have hline : (s.release m r).xTasksWaitingToReceive m = t :: ts := hts
  have hlow : ¬ (s.release m r).uxPriority t > (s.release m r).uxPriority s.pxCurrentTCB := by
    simp only [State.release, State.setPriority, Function.update_self, Function.update_of_ne hne]
    exact hle
  rw [Scheduler.step, Scheduler.give, hdis]
  refine ⟨_, rfl, ?_⟩
  rw [hs₁, unblockFirst, hline]
  dsimp only
  rw [unblock_running t (by exact hruns.2), yield_if]
  refine ⟨⟨Bool.or_eq_false_iff.mpr ⟨hruns.1, decide_eq_false hlow⟩, hruns.2⟩, rfl,
    Function.update_self .., fun u hu ↦ Function.update_of_ne hu .., fun u hu ↦ ⟨?_, hu.2⟩,
    fun u hu ↦ ?_⟩
  · have hut : u ≠ t := by
      rintro rfl
      exact hu.1.ne_waiting m hwaiting
    simp only [State.goto, Function.update_of_ne hut]
    exact hu.1
  · by_cases hut : u = t
    · subst hut
      exact .inr (Nat.le_of_not_lt hle)
    · have hawake := hu.1
      simp only [State.goto, Function.update_of_ne hut] at hawake
      exact .inl ⟨hawake, hu.2⟩

/-- Where the first in line is not above the own priority of a task that gives the mutex back
with a priority lent to it, the loan ends and the task goes on, whoever else is ready. -/
theorem drops_without_switch {prio : τ → ℕ} (hprio : ∀ t, prio t < configMaxPriorities)
    {ts : List τ} (hts : (t :: ts).Nodup) (hidle : idle ∈ t :: ts) {labels : List (Label τ μ)}
    (hlegal : Along step (Legal idle) (start prio t ts) labels)
    (hwait : Along step Warranted (start prio t ts) labels)
    (hrun : run step (start prio t ts) labels = some s)
    (hgive : Legal idle s (.give m)) (hnot : ¬ Warranted s (.give m)) :
    ∃ s', run step (start prio t ts) (labels ++ [.give m]) = some s' ∧ s'.Runs ∧
      s'.pxCurrentTCB = s.pxCurrentTCB ∧
      s'.uxPriority s.pxCurrentTCB = s.uxBasePriority s.pxCurrentTCB ∧
      ((∀ u, s'.IsReady u → s'.uxPriority u ≤ s'.uxPriority s'.pxCurrentTCB) ↔
        ∀ u, s.IsReady u → u ≠ s.pxCurrentTCB →
          s.uxPriority u ≤ s.uxBasePriority s.pxCurrentTCB) := by
  obtain ⟨s₀, hrun₀, h⟩ := inv_run hprio hts hidle hlegal hwait
  obtain rfl : s₀ = s := Option.some.inj (hrun₀.symm.trans hrun)
  obtain ⟨s', hs', hruns, hcurrent, hown, hother, hready, hback⟩ := h.drop hgive hnot
  have hlast : run step s₀ [.give m] = some s' := run_cons.mpr ⟨s', hs', rfl⟩
  refine ⟨s', ?_, hruns, hcurrent, hown, ?_⟩
  · rw [run_append, hrun]
    exact hlast
  rw [hcurrent, hown]
  constructor
  · intro hall u hu hne
    rw [← hother u hne]
    exact hall u (hready u hu)
  · intro hall u hu
    by_cases hne : u = s₀.pxCurrentTCB
    · rw [hne, hown]
    · rw [hother u hne]
      exact (hback u hu).elim (fun hold ↦ hall u hold hne) id

/-- Task 2 holds a mutex that task 1 waits for. Task 3 lends its priority until its time is up.
It then shares the processor with task 2, whose turn it is when it has not yet gone on. -/
def expiry : List (Label (Fin 4) Unit) :=
  [.block, .pendSV, .take (), .go false, .block, .pendSV, .take (), .go false, .go false, .pendSV,
    .wake 2, .pendSV, .wake 3, .pendSV, .take (), .go false, .go false, .pendSV, .tick [3], .pendSV,
    .tick [], .pendSV]

theorem expired_waiter_passed_over : ∃ s,
    run step (start Fin.val 3 [2, 1, 0]) (expiry ++ [.give ()]) = some s ∧ s.Runs ∧
      s.pxCurrentTCB = 2 ∧ s.uxPriority 2 = 2 ∧
      ¬ ∀ u, s.IsReady u → s.uxPriority u ≤ s.uxPriority s.pxCurrentTCB := by
  have hlegal : Along step (Legal 0) (start Fin.val 3 [2, 1, 0]) expiry :=
    along_of_check (fun _ _ ↦ of_decide_eq_true) (by decide)
  have hwait : Along step Warranted (start Fin.val 3 [2, 1, 0]) expiry :=
    warranted_of_no_give (by simp [expiry])
  have hprio (t : Fin 4) : t.val < configMaxPriorities := t.isLt.trans (by decide)
  obtain ⟨s, hrun, hruns, hcurrent, hown, hiff⟩ := drops_without_switch hprio (by decide)
    (by decide) hlegal hwait rfl (m := ()) ⟨⟨rfl, rfl⟩, rfl, rfl⟩ fun hw ↦ (hw 1 rfl).elim
      (fun heq ↦ absurd (show 3 = 2 from heq) (by decide))
      (fun hlt ↦ absurd (show 2 < 1 from hlt) (by decide))
  refine ⟨s, hrun, hruns, hcurrent, hown, fun hall ↦ ?_⟩
  have hle : 3 ≤ 2 := hiff.mp hall 3 ⟨trivial, List.not_mem_nil⟩ (show (3 : Fin 4) ≠ 2 by decide)
  exact absurd hle (by decide)

end Loans

end Tanenbaum.Kernel.Scheduler
