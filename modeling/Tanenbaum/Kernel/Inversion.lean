import Tanenbaum.Kernel.Priorities

namespace Tanenbaum.Kernel.Scheduler

open Lib.Runs Lists ListUse Selection

section Invariant

variable {τ μ : Type} {s s' : State τ μ} {idle t : τ} {m : μ} [DecidableEq τ] [DecidableEq μ]

section Rouse

variable {pc : Pc μ} {waiting : μ → List τ} {r : Ready τ} {pending : List τ} {y y' : Bool}

omit [DecidableEq μ]

/-- The state in which a task is no longer asleep. -/
def State.rouse (s : State τ μ) (t : τ) (pc : Pc μ) (waiting : μ → List τ) (ready : Ready τ)
    (pending : List τ) (xYieldPending pendSV : Bool) : State τ μ :=
  { s.goto t pc with
    xTasksWaitingToReceive := waiting
    ready := ready
    xPendingReadyList := pending
    xYieldPending := xYieldPending
    pendSV := pendSV }

theorem Lent.rouse (h : Lent s) (hpc : pc.Awake) (hin : pc.Inside → s.uxMutexesHeld t = 0)
    (hmem : ∀ m u, u ∈ waiting m ↔ u ∈ s.xTasksWaitingToReceive m ∧ u ≠ t)
    (hsub : ∀ m, (waiting m).Sublist (s.xTasksWaitingToReceive m)) :
    Lent (s.rouse t pc waiting r pending y y') := by
  refine ⟨h.bound, h.item, h.base_le, h.own, h.held, h.single, fun u hu ↦ ?_, fun m u ↦ ?_,
    fun m ↦ (h.nodup m).sublist (hsub m), fun m ↦ (h.sorted m).sublist (hsub m),
    fun m v hv u hu ↦ h.lent m v hv u ((hsub m).subset hu)⟩
  · by_cases hut : u = t
    · subst hut
      simp only [State.rouse, State.goto, Function.update_self] at hu
      exact hin hu
    · simp only [State.rouse, State.goto, Function.update_of_ne hut] at hu
      exact h.inside u hu
  · refine (hmem m u).trans ?_
    by_cases hut : u = t
    · subst hut
      simp only [State.rouse, State.goto, Function.update_self]
      exact iff_of_false (fun hu ↦ hu.2 rfl) (hpc.ne_waiting m)
    · simp only [State.rouse, State.goto, Function.update_of_ne hut]
      rw [h.waiting]
      exact and_iff_left hut

theorem State.Next.rouse (h : s.Next m) (ht : ¬ (s.pc t).Awake)
    (hsub : (waiting m).Sublist (s.xTasksWaitingToReceive m))
    (hready : ∀ u, s.IsReady u → (s.rouse t pc waiting r pending y y').IsReady u) :
    (s.rouse t pc waiting r pending y y').Next m := by
  intro hm hw
  have hold : s.xTasksWaitingToReceive m ≠ [] := by
    intro hnil
    rw [hnil] at hsub
    exact hw (List.sublist_nil.mp hsub)
  obtain ⟨d, hd, hpcd, hall⟩ := h hm hold
  have hdt : d ≠ t := by
    rintro rfl
    exact ht hd.1
  exact ⟨d, hready d hd, (Function.update_of_ne hdt ..).trans hpcd,
    fun u hu ↦ hall u (hsub.subset hu)⟩

theorem isReady_rouse (hs : s.xPendingReadyList = []) (ht : ¬ (s.pc t).Awake) (hpc : pc.Awake)
    (u : τ) : (s.rouse t pc waiting r s.xPendingReadyList y y').IsReady u ↔
      u = t ∨ s.IsReady u := by
  by_cases hut : u = t
  · subst hut
    simpa [State.IsReady, State.rouse, State.goto, hs] using hpc
  · simp [State.IsReady, State.rouse, State.goto, hut, hs]

/-- It is put on the list of its priority, and unless a switch follows its priority is not
above that of the current task. -/
theorem Ranked.rouse (h : Ranked idle s) (hs : s.uxSchedulerSuspended = 0)
    (ht : ¬ (s.pc t).Awake) (hpc : pc.Awake)
    (hy : y' = false → s.IsReady s.pxCurrentTCB ∧
      (∀ u, s.IsReady u → s.uxPriority u ≤ s.uxPriority s.pxCurrentTCB) ∧
      s.uxPriority t ≤ s.uxPriority s.pxCurrentTCB) :
    Ranked idle
      (s.rouse t pc waiting (s.ready.add (s.uxPriority t) t) s.xPendingReadyList y y') := by
  have hnil := h.resumed hs
  have hready (u : τ) : (s.rouse t pc waiting (s.ready.add (s.uxPriority t) t)
      s.xPendingReadyList y y').IsReady u ↔ u = t ∨ s.IsReady u := isReady_rouse hnil ht hpc u
  have hne : idle ≠ t := by
    rintro rfl
    exact ht h.idle.1.1
  refine ⟨(h.holds.add fun hR ↦ ht hR.1).congr hready, fun _ ↦ hnil, fun u hu ↦ ?_,
    h.nodup, ?_, fun hruns ↦ ?_⟩
  · change u ∈ s.xPendingReadyList at hu
    rw [hnil] at hu
    cases hu
  · exact ⟨(hready idle).mpr (.inr h.idle.1), (Function.update_of_ne hne ..).trans h.idle.2⟩
  · obtain ⟨hcurrent, hall, hle⟩ := hy (hruns.resolve_right fun hne ↦ hne hs)
    refine ⟨(hready _).mpr (.inr hcurrent), fun u hu ↦ ?_⟩
    rcases (hready u).mp hu with rfl | hu
    · exact hle
    · exact hall u hu

/-- While the scheduler is suspended it is held pending, and the ready lists stay. -/
theorem isReady_pend (ht : ¬ (s.pc t).Awake) (u : τ) :
    (s.rouse t pc waiting s.ready (s.xPendingReadyList ++ [t]) y y').IsReady u ↔ s.IsReady u := by
  by_cases hut : u = t
  · subst hut
    simp [State.IsReady, State.rouse, ht]
  · simp [State.IsReady, State.rouse, State.goto, hut]

theorem Ranked.pend (h : Ranked idle s) (hs : s.uxSchedulerSuspended ≠ 0) (ht : s.pc t = .asleep) :
    Ranked idle (s.rouse t .run waiting s.ready (s.xPendingReadyList ++ [t]) y y') := by
  have hasleep : ¬ (s.pc t).Awake := fun hawake ↦ hawake.ne_asleep ht
  have hready (u : τ) :
      (s.rouse t .run waiting s.ready (s.xPendingReadyList ++ [t]) y y').IsReady u ↔
      s.IsReady u := isReady_pend hasleep u
  have hne {u : τ} (hu : s.pc u = .run) : u ≠ t := by
    rintro rfl
    rw [ht] at hu
    cases hu
  refine ⟨h.holds.congr hready, fun hzero ↦ absurd hzero hs, fun u hu ↦ ?_, ?_,
    ⟨(hready idle).mpr h.idle.1, (Function.update_of_ne (hne h.idle.2) ..).trans h.idle.2⟩,
    fun _ ↦ ?_⟩
  · rcases List.mem_append.mp hu with hu | hu
    · have hrun := h.pended u hu
      exact (Function.update_of_ne (hne hrun) ..).trans hrun
    · obtain rfl := List.mem_singleton.mp hu
      exact Function.update_self ..
  · change (s.xPendingReadyList ++ [t]).Nodup
    rw [List.nodup_append_comm, List.singleton_append, List.nodup_cons]
    exact ⟨fun hmem ↦ hne (h.pended t hmem) rfl, h.nodup⟩
  · obtain ⟨hcurrent, hall⟩ := h.runs (.inr hs)
    exact ⟨(hready _).mpr hcurrent, fun u hu ↦ hall u ((hready u).mp hu)⟩

theorem unblock_running (t : τ) (hs : s.uxSchedulerSuspended = 0) :
    unblock t s = (decide (s.uxPriority t > s.uxPriority s.pxCurrentTCB),
      { s with
        ready := s.ready.add (s.uxPriority t) t
        xYieldPending := s.xYieldPending ||
          decide (s.uxPriority t > s.uxPriority s.pxCurrentTCB) }) := by
  rw [unblock, if_pos hs]
  dsimp only [prvAddTaskToReadyList]
  by_cases hgt : s.uxPriority t > s.uxPriority s.pxCurrentTCB
  · rw [decide_eq_true hgt, Bool.or_true]
    exact if_pos hgt
  · rw [decide_eq_false hgt, Bool.or_false]
    exact if_neg hgt

theorem unblock_suspended (t : τ) (hs : s.uxSchedulerSuspended ≠ 0) :
    unblock t s = (decide (s.uxPriority t > s.uxPriority s.pxCurrentTCB),
      { s with
        xPendingReadyList := s.xPendingReadyList ++ [t]
        xYieldPending := s.xYieldPending ||
          decide (s.uxPriority t > s.uxPriority s.pxCurrentTCB) }) := by
  rw [unblock, if_neg hs]
  dsimp only
  by_cases hgt : s.uxPriority t > s.uxPriority s.pxCurrentTCB
  · rw [decide_eq_true hgt, Bool.or_true]
    exact if_pos hgt
  · rw [decide_eq_false hgt, Bool.or_false]
    exact if_neg hgt

omit [DecidableEq τ] in
theorem yield_if (b : Bool) (s : State τ μ) :
    (if b = true then s.yield else s) = { s with pendSV := s.pendSV || b } := by
  cases b
  · rw [Bool.or_false]
    rfl
  · rw [Bool.or_true]
    rfl

theorem Inv.wake (h : Inv idle s) (ht : s.pc t = .asleep) :
    Inv idle (let (higher, s) := unblock t (s.goto t .run)
      if higher then s.yield else s) := by
  have hasleep : ¬ (s.pc t).Awake := fun hawake ↦ hawake.ne_asleep ht
  have hout (m : μ) : t ∉ s.xTasksWaitingToReceive m := by
    rw [h.lent.waiting, ht]
    simp
  have hmem (m : μ) (u : τ) : u ∈ s.xTasksWaitingToReceive m ↔
      u ∈ s.xTasksWaitingToReceive m ∧ u ≠ t := by
    refine (and_iff_left_of_imp fun hu ↦ ?_).symm
    rintro rfl
    exact hout m hu
  have hsub (m : μ) : (s.xTasksWaitingToReceive m).Sublist (s.xTasksWaitingToReceive m) :=
    List.Sublist.refl _
  by_cases hs : s.uxSchedulerSuspended = 0
  · rw [unblock_running t (show (s.goto t .run).uxSchedulerSuspended = 0 from hs)]
    dsimp only
    rw [yield_if]
    refine ⟨h.ranked.rouse hs hasleep trivial fun hy ↦ ?_, h.lent.rouse trivial (fun hin ↦ hin.elim)
      hmem hsub, fun m ↦ (h.next m).rouse hasleep (hsub m) fun u hu ↦ ?_⟩
    · obtain ⟨hpend, hle⟩ := Bool.or_eq_false_iff.mp hy
      obtain ⟨hcurrent, hall⟩ := h.ranked.runs (.inl hpend)
      exact ⟨hcurrent, hall, Nat.le_of_not_lt (of_decide_eq_false hle)⟩
    · exact (isReady_rouse (h.ranked.resumed hs) hasleep (show Pc.Awake .run from trivial) u).mpr
        (.inr hu)
  · rw [unblock_suspended t (show (s.goto t .run).uxSchedulerSuspended ≠ 0 from hs)]
    dsimp only
    rw [yield_if]
    refine ⟨h.ranked.pend hs ht, h.lent.rouse trivial (fun hin ↦ hin.elim) hmem hsub,
      fun m ↦ (h.next m).rouse hasleep (hsub m) fun u hu ↦ (isReady_pend hasleep u).mpr hu⟩

end Rouse

/-- Whoever stops waiting for a mutex leaves the others in line. -/
theorem Lent.leave (h : Lent s) (ht : s.pc t = .waiting m) (m' : μ) :
    (∀ u, u ∈ Function.update s.xTasksWaitingToReceive m
        ((s.xTasksWaitingToReceive m).erase t) m' ↔ u ∈ s.xTasksWaitingToReceive m' ∧ u ≠ t) ∧
      (Function.update s.xTasksWaitingToReceive m
        ((s.xTasksWaitingToReceive m).erase t) m').Sublist (s.xTasksWaitingToReceive m') := by
  by_cases hmm : m' = m
  · subst hmm
    rw [Function.update_self]
    refine ⟨fun u ↦ ?_, List.erase_sublist⟩
    rw [(h.nodup m').mem_erase_iff, and_comm]
  · rw [Function.update_of_ne hmm]
    refine ⟨fun u ↦ (and_iff_left_of_imp fun hu ↦ ?_).symm, List.Sublist.refl _⟩
    rintro rfl
    have hpc := (h.waiting m' u).mp hu
    rw [ht] at hpc
    exact hmm (Pc.waiting.inj hpc).symm

/-- A task whose time is up is roused, from the line for a mutex or from elsewhere. -/
theorem Lent.expire (h : Lent s) (ht : ¬ (s.pc t).Awake) : ∃ pc waiting, pc.Awake ∧
    (pc.Inside → s.uxMutexesHeld t = 0) ∧
    (∀ m u, u ∈ waiting m ↔ u ∈ s.xTasksWaitingToReceive m ∧ u ≠ t) ∧
    (∀ m, (waiting m).Sublist (s.xTasksWaitingToReceive m)) ∧
    expire t s = s.rouse t pc waiting (s.ready.add (s.uxPriority t) t) s.xPendingReadyList
      s.xYieldPending s.pendSV := by
  rw [Scheduler.expire]
  cases hpc : s.pc t with
  | waiting m =>
    have hheld := h.waiting_held ((h.waiting m t).mpr hpc)
    exact ⟨.attempt m, _, trivial, fun _ ↦ hheld, fun m' ↦ (h.leave hpc m').1,
      fun m' ↦ (h.leave hpc m').2, rfl⟩
  | asleep =>
    refine ⟨.run, s.xTasksWaitingToReceive, trivial, fun hin ↦ hin.elim, fun m u ↦ ?_,
      fun m ↦ List.Sublist.refl _, rfl⟩
    refine (and_iff_left_of_imp fun hu ↦ ?_).symm
    rintro rfl
    rw [h.waiting, hpc] at hu
    cases hu
  | _ =>
    rw [hpc] at ht
    exact absurd trivial ht

omit [DecidableEq τ] [DecidableEq μ] in
theorem Inv.yield (h : Inv idle s) (b : Bool) : Inv idle { s with pendSV := s.pendSV || b } :=
  ⟨⟨h.ranked.holds, h.ranked.resumed, h.ranked.pended, h.ranked.nodup, h.ranked.idle,
    fun hruns ↦ h.ranked.runs (hruns.imp_left fun hno ↦ (Bool.or_eq_false_iff.mp hno).1)⟩,
    h.lent.beside .., h.next⟩

/-- One round of the loop of `xTaskIncrementTick`, which has found that a switch is required
where `b` is true. -/
theorem Inv.expire {b : Bool} (h : Inv idle { s with pendSV := s.pendSV || b })
    (hs : s.uxSchedulerSuspended = 0) (ht : ¬ (s.pc t).Awake) :
    Inv idle { expire t s with pendSV := s.pendSV ||
      (b || decide (s.uxPriority t > s.uxPriority s.pxCurrentTCB)) } := by
  obtain ⟨pc, waiting, hawake, hin, hmem, hsub, heq⟩ := Lent.expire (s := s) (h.lent.beside ..) ht
  rw [heq]
  refine ⟨h.ranked.rouse hs ht hawake fun hno ↦ ?_, h.lent.rouse hawake hin hmem hsub,
    fun m ↦ (h.next m).rouse ht (hsub m) fun u hu ↦ ?_⟩
  · rw [← Bool.or_assoc] at hno
    obtain ⟨hpend, hle⟩ := Bool.or_eq_false_iff.mp hno
    obtain ⟨hcurrent, hall⟩ := h.ranked.runs (.inl hpend)
    exact ⟨hcurrent, hall, Nat.le_of_not_lt (of_decide_eq_false hle)⟩
  · exact (isReady_rouse (h.ranked.resumed hs) ht hawake u).mpr (.inr hu)

theorem Inv.expireLoop {ts : List τ} {b : Bool} (h : Inv idle { s with pendSV := s.pendSV || b })
    (hs : s.uxSchedulerSuspended = 0) (hts : ts.Nodup) (hasleep : ∀ t ∈ ts, ¬ (s.pc t).Awake) :
    Inv idle { (expireLoop ts b s).2 with
      pendSV := (expireLoop ts b s).2.pendSV || (expireLoop ts b s).1 } := by
  induction ts generalizing s b with
  | nil => exact h
  | cons t ts ih =>
    obtain ⟨hnot, hts⟩ := List.nodup_cons.mp hts
    obtain ⟨ht, hasleep⟩ := List.forall_mem_cons.mp hasleep
    obtain ⟨pc, waiting, -, -, -, -, heq⟩ := Lent.expire (s := s) (h.lent.beside ..) ht
    have hone := h.expire hs ht
    rw [Scheduler.expireLoop]
    rw [heq] at hone ⊢
    refine ih hone hs hts fun u hu ↦ ?_
    have hne : u ≠ t := by
      rintro rfl
      exact hnot hu
    simp only [State.rouse, State.goto, Function.update_of_ne hne]
    exact hasleep u hu

theorem Inv.tick (h : Inv idle s) {expired : List τ} (hts : expired.Nodup)
    (hasleep : ∀ t ∈ expired, ¬ (s.pc t).Awake) :
    Inv idle (let (xSwitchRequired, s) := xTaskIncrementTick expired s
      if xSwitchRequired then s.yield else s) := by
  by_cases hs : s.uxSchedulerSuspended = 0
  · rw [xTaskIncrementTick, if_pos hs]
    dsimp only
    rw [yield_if, Bool.or_assoc, ← Bool.or_assoc]
    exact (Inv.expireLoop (h.yield false) hs hts hasleep).yield _
  · rw [xTaskIncrementTick, if_neg hs]
    exact h

/-- The state in which the current task has given a mutex back, with its own priority. -/
def State.release (s : State τ μ) (m : μ) (r : Ready τ) : State τ μ :=
  { s.setPriority s.pxCurrentTCB (s.uxBasePriority s.pxCurrentTCB) with
    uxMutexesHeld := Function.update s.uxMutexesHeld s.pxCurrentTCB 0
    xMutexHolder := Function.update s.xMutexHolder m none
    ready := r }

theorem Inv.disinherit_release (h : Inv idle s) (hruns : s.Runs)
    (hm : s.xMutexHolder m = some s.pxCurrentTCB) :
    ∃ y s₁ r, xTaskPriorityDisinherit (s.xMutexHolder m) s = some (y, s₁) ∧
      { s₁ with xMutexHolder := Function.update s₁.xMutexHolder m none } = s.release m r ∧
      Holds r (s.release m r).uxPriority s.IsReady ∧
      (y = false → s.uxPriority s.pxCurrentTCB = s.uxBasePriority s.pxCurrentTCB) := by
  have hone := h.lent.held m _ hm
  have hready := (h.ranked.runs (.inl hruns.1)).1
  rw [hm, xTaskPriorityDisinherit, if_neg (by simp [hone]), hone]
  dsimp only
  split
  · next hne =>
    have hnone : Function.update s.uxMutexesHeld s.pxCurrentTCB (1 - 1) s.pxCurrentTCB = 0 :=
      Function.update_self ..
    rw [if_pos hnone]
    refine ⟨true, _, _, rfl, rfl, ?_, fun hy ↦ nomatch hy⟩
    have hremoved := (h.ranked.holds.remove hready).reprioritise (t := s.pxCurrentTCB)
      (fun hR ↦ hR.2 rfl) (s.uxBasePriority s.pxCurrentTCB)
    have hadded := hremoved.add (t := s.pxCurrentTCB) fun hR ↦ hR.2 rfl
    rw [Function.update_self] at hadded
    refine hadded.congr fun u ↦ ?_
    by_cases hu : u = s.pxCurrentTCB
    · subst hu
      exact iff_of_true hready (.inl rfl)
    · simp [hu]
  · next hne =>
    have heq := not_not.mp hne
    refine ⟨false, _, s.ready, rfl, ?_, ?_, fun _ ↦ heq⟩
    · rw [State.release, State.setPriority, ← heq, ← h.lent.item, Function.update_eq_self,
        Function.update_eq_self]
    · change Holds _ (Function.update s.uxPriority s.pxCurrentTCB _) _
      rw [← heq, Function.update_eq_self]
      exact h.ranked.holds

section Release

variable {r : Ready τ} (hpc : s.pc s.pxCurrentTCB = .run)
include hpc

omit [DecidableEq μ] in
theorem priority_inside {t : τ} (ht : (s.pc t).Inside) (p : ℕ) :
    Function.update s.uxPriority s.pxCurrentTCB p t = s.uxPriority t := by
  refine Function.update_of_ne ?_ ..
  rintro rfl
  rw [hpc] at ht
  exact ht

theorem Lent.release (h : Lent s) (hm : s.xMutexHolder m = some s.pxCurrentTCB) :
    Lent (s.release m r) := by
  have hwaiting {m' : μ} {t : τ} (ht : t ∈ s.xTasksWaitingToReceive m') :
      (s.release m r).uxPriority t = s.uxPriority t := by
    apply priority_inside hpc
    rw [(h.waiting m' t).mp ht]
    trivial
  have hholder {m' : μ} {t : τ} (ht : (s.release m r).xMutexHolder m' = some t) :
      s.xMutexHolder m' = some t ∧ t ≠ s.pxCurrentTCB := by
    by_cases hmm : m' = m
    · subst hmm
      simp only [State.release, Function.update_self] at ht
      cases ht
    · simp only [State.release, Function.update_of_ne hmm] at ht
      refine ⟨ht, ?_⟩
      rintro rfl
      exact hmm (h.single m' m _ ht hm)
  have hcases (t : τ) : t = s.pxCurrentTCB ∨ t ≠ s.pxCurrentTCB := eq_or_ne ..
  refine ⟨fun t ↦ ?_, fun t ↦ ?_, fun t ↦ ?_, fun t ht ↦ ?_, fun m' t ht ↦ ?_,
    fun m₁ m₂ t h₁ h₂ ↦ h.single m₁ m₂ t (hholder h₁).1 (hholder h₂).1, fun t ht ↦ ?_, h.waiting,
    h.nodup, fun m' ↦ ?_, fun m' v hv t ht ↦ ?_⟩
  · rcases hcases t with rfl | hne
    · simp only [State.release, State.setPriority, Function.update_self]
      exact (h.base_le _).trans_lt (h.bound _)
    · simp only [State.release, State.setPriority, Function.update_of_ne hne]
      exact h.bound t
  · rcases hcases t with rfl | hne
    · simp only [State.release, State.setPriority, Function.update_self]
    · simp only [State.release, State.setPriority, Function.update_of_ne hne]
      exact h.item t
  · rcases hcases t with rfl | hne
    · simp only [State.release, State.setPriority, Function.update_self]
      exact Nat.le_refl _
    · simp only [State.release, State.setPriority, Function.update_of_ne hne]
      exact h.base_le t
  · rcases hcases t with rfl | hne
    · simp only [State.release, State.setPriority, Function.update_self]
    · simp only [State.release, State.setPriority, Function.update_of_ne hne] at ht ⊢
      exact h.own t ht
  · obtain ⟨ht, hne⟩ := hholder ht
    simp only [State.release, Function.update_of_ne hne]
    exact h.held m' t ht
  · rcases hcases t with rfl | hne
    · simp only [State.release, Function.update_self]
    · simp only [State.release, Function.update_of_ne hne]
      exact h.inside t ht
  · refine (h.sorted m').imp_of_mem fun {t u} ht hu hle ↦ ?_
    rwa [hwaiting ht, hwaiting hu]
  · obtain ⟨hv, hne⟩ := hholder hv
    rw [hwaiting ht]
    simp only [State.release, State.setPriority, Function.update_of_ne hne]
    exact h.lent m' v hv t ht

theorem Inv.next_release (h : Inv idle s) {m' : μ} (hmm : m' ≠ m) : (s.release m r).Next m' := by
  intro hm' hw
  simp only [State.release, Function.update_of_ne hmm] at hm'
  obtain ⟨d, hd, hpcd, hall⟩ := h.next m' hm' hw
  refine ⟨d, hd, hpcd, fun t ht ↦ ?_⟩
  have hd' : (s.release m r).uxPriority d = s.uxPriority d := by
    apply priority_inside hpc
    rw [hpcd]
    trivial
  have ht' : (s.release m r).uxPriority t = s.uxPriority t := by
    apply priority_inside hpc
    rw [(h.lent.waiting m' t).mp ht]
    trivial
  rw [hd', ht']
  exact hall t ht

/-- A switch follows when the current task has lost its priority, as the first in line had
lent it or nobody waits. -/
theorem Inv.give (h : Inv idle s) (hruns : s.Runs) (hm : s.xMutexHolder m = some s.pxCurrentTCB)
    (hlent : ∀ t ∈ (s.xTasksWaitingToReceive m).head?,
      s.uxPriority s.pxCurrentTCB = s.uxBasePriority s.pxCurrentTCB ∨
        s.uxBasePriority s.pxCurrentTCB < s.uxPriority t) :
    ∃ s', give m s = some s' ∧ Inv idle s' := by
  obtain ⟨y, s₁, r, hdis, hs₁, hholds, hy⟩ := h.disinherit_release hruns hm
  have hlentr : Lent (s.release m r) := h.lent.release hpc hm
  have hranked : Ranked idle { s.release m r with pendSV := true } :=
    ⟨hholds, h.ranked.resumed, h.ranked.pended, h.ranked.nodup, h.ranked.idle,
      fun hswitch ↦ hswitch.elim (fun hy ↦ nomatch hy) fun hne ↦ absurd hruns.2 hne⟩
  -- With its own priority the current task is still one of the highest.
  have hsame (heq : s.uxPriority s.pxCurrentTCB = s.uxBasePriority s.pxCurrentTCB) :
      (s.release m r).uxPriority = s.uxPriority := by
    change Function.update s.uxPriority s.pxCurrentTCB _ = _
    rw [← heq, Function.update_eq_self]
  obtain ⟨hcurrent, hall⟩ := h.ranked.runs (.inl hruns.1)
  rw [Scheduler.give, hdis]
  refine ⟨_, rfl, ?_⟩
  rw [hs₁, unblockFirst]
  cases hw : s.xTasksWaitingToReceive m with
  | nil =>
    have hw' : (s.release m r).xTasksWaitingToReceive m = [] := hw
    rw [hw']
    dsimp only
    rw [yield_if]
    refine ⟨⟨hholds, h.ranked.resumed, h.ranked.pended, h.ranked.nodup, h.ranked.idle,
      fun hswitch ↦ ?_⟩, ?_, fun m' ↦ ?_⟩
    · have hno := (Bool.or_eq_false_iff.mp (hswitch.resolve_right fun hne ↦ hne hruns.2)).2
      refine ⟨hcurrent, fun t ht ↦ ?_⟩
      change (s.release m r).uxPriority t ≤ (s.release m r).uxPriority s.pxCurrentTCB
      rw [hsame (hy hno)]
      exact hall t ht
    · exact hlentr.beside ..
    · by_cases hmm : m' = m
      · subst hmm
        exact fun _ hne ↦ absurd hw hne
      · have hnext : (s.release m r).Next m' := h.next_release hpc hmm
        exact hnext
  | cons t ts =>
    have hw' : (s.release m r).xTasksWaitingToReceive m = t :: ts := hw
    have ht : s.pc t = .waiting m := by
      rw [← h.lent.waiting, hw]
      exact List.mem_cons_self ..
    have hasleep : ¬ (s.pc t).Awake := fun hawake ↦ hawake.ne_waiting m ht
    have hleave := hlentr.leave (t := t) ht
    have hts : ts = ((s.release m r).xTasksWaitingToReceive m).erase t := by
      rw [hw', List.erase_cons_head]
    rw [hw']
    dsimp only
    rw [unblock_running t (by exact hruns.2), yield_if, hts]
    have hheld : (s.release m r).uxMutexesHeld t = 0 :=
      hlentr.waiting_held ((hlentr.waiting m t).mpr ht)
    have hawake : (Pc.attempt m).Awake := trivial
    refine ⟨hranked.rouse hruns.2 hasleep hawake fun hno ↦ ?_, hlentr.rouse hawake (fun _ ↦ hheld)
      (fun m' ↦ (hleave m').1) fun m' ↦ (hleave m').2, fun m' ↦ ?_⟩
    · have hle : (s.release m r).uxPriority t ≤ (s.release m r).uxPriority s.pxCurrentTCB :=
        Nat.le_of_not_lt (of_decide_eq_false (Bool.or_eq_false_iff.mp hno).2)
      have hprio : (s.release m r).uxPriority t = s.uxPriority t := by
        apply priority_inside hpc
        rw [ht]
        trivial
      have hbase : (s.release m r).uxPriority s.pxCurrentTCB = s.uxBasePriority s.pxCurrentTCB :=
        Function.update_self ..
      rw [hprio, hbase] at hle
      have heq := (hlent t (by rw [hw]; rfl)).resolve_right (Nat.not_lt_of_le hle)
      refine ⟨hcurrent, fun u hu ↦ ?_, ?_⟩
      · change (s.release m r).uxPriority u ≤ (s.release m r).uxPriority s.pxCurrentTCB
        rw [hsame heq]
        exact hall u hu
      · change (s.release m r).uxPriority t ≤ (s.release m r).uxPriority s.pxCurrentTCB
        rw [hprio, hbase]
        exact hle
    · have hnil : (s.release m r).xPendingReadyList = [] := h.ranked.resumed hruns.2
      by_cases hmm : m' = m
      · subst hmm
        intro _ _
        refine ⟨t, (isReady_rouse hnil hasleep hawake t).mpr (.inl rfl), Function.update_self ..,
          fun u hu ↦ ?_⟩
        have hmem := ((hleave m').1 u).mp hu
        have hsorted := hlentr.sorted m'
        rw [hw'] at hsorted hmem
        exact (List.pairwise_cons.mp hsorted).1 u
          ((List.mem_cons.mp hmem.1).resolve_left hmem.2)
      · have hnext : (s.release m r).Next m' := h.next_release hpc hmm
        exact hnext.rouse hasleep (hleave m').2
          fun u hu ↦ (isReady_rouse hnil hasleep hawake u).mpr (.inr hu)

end Release

omit [DecidableEq τ] [DecidableEq μ] in
theorem yieldPending_if (p : Prop) [Decidable p] (s : State τ μ) :
    (if p then { s with xYieldPending := true } else s) =
      { s with xYieldPending := s.xYieldPending || decide p } := by
  by_cases hp : p
  · rw [if_pos hp, decide_eq_true hp, Bool.or_true]
  · rw [if_neg hp, decide_eq_false hp, Bool.or_false]

omit [DecidableEq μ] in
theorem readyLoop_eq (ts : List τ) (s : State τ μ) : readyLoop ts s = { s with
    ready := ts.foldl (fun r t ↦ r.add (s.uxPriority t) t) s.ready
    xYieldPending := s.xYieldPending ||
      ts.any fun t ↦ s.uxPriority t ≥ s.uxPriority s.pxCurrentTCB
    xPendingReadyList := [] } := by
  induction ts generalizing s with
  | nil =>
    rw [List.any_nil, Bool.or_false]
    rfl
  | cons t ts ih =>
    rw [readyLoop, yieldPending_if, ih, List.any_cons, ← Bool.or_assoc]
    rfl

omit [DecidableEq μ] in
/-- The tasks that were held pending become ready, and a switch follows if one of them has the
priority of the current task or a higher one. -/
theorem Inv.resumeAll (h : Inv idle s) (hs : s.uxSchedulerSuspended ≠ 0) :
    ∃ s', xTaskResumeAll s = some s' ∧ Inv idle s' := by
  obtain ⟨hcurrent, hall⟩ := h.ranked.runs (.inr hs)
  rw [xTaskResumeAll, if_neg hs]
  dsimp only
  by_cases hone : s.uxSchedulerSuspended - 1 = 0
  · rw [if_pos hone, readyLoop_eq, yield_if]
    refine ⟨_, rfl, ?_⟩
    have hawake {t : τ} (ht : t ∈ s.xPendingReadyList) : (s.pc t).Awake := by
      rw [h.ranked.pended t ht]
      trivial
    have hready (u : τ) : ((s.pc u).Awake ∧ u ∉ ([] : List τ)) ↔
        u ∈ s.xPendingReadyList ∨ s.IsReady u := by
      simp only [State.IsReady, List.not_mem_nil, not_false_eq_true, and_true]
      have himp := hawake (t := u)
      tauto
    have hholds := h.ranked.holds.addAll h.ranked.nodup fun t ht hR ↦ hR.2 ht
    refine ⟨⟨hholds.congr hready, fun _ ↦ rfl, (fun t ht ↦ absurd ht List.not_mem_nil),
      List.nodup_nil, ⟨(hready idle).mpr (.inr h.ranked.idle.1), h.ranked.idle.2⟩, fun hruns ↦ ?_⟩,
      h.lent.beside .., fun m hm hw ↦ ?_⟩
    · refine ⟨(hready _).mpr (.inr hcurrent), fun t ht ↦ ?_⟩
      rcases (hready t).mp ht with ht | ht
      · have hno := (Bool.or_eq_false_iff.mp (hruns.resolve_right fun hne ↦ hne hone)).2
        have hnone := List.any_eq_false.mp (Bool.or_eq_false_iff.mp hno).2 t ht
        exact Nat.le_of_not_le (by simpa using hnone)
      · exact hall t ht
    · obtain ⟨d, hd, hpcd, hd'⟩ := h.next m hm hw
      exact ⟨d, (hready d).mpr (.inr hd), hpcd, hd'⟩
  · rw [if_neg hone]
    refine ⟨_, rfl, ⟨h.ranked.holds, fun hzero ↦ absurd hzero hone, h.ranked.pended,
      h.ranked.nodup, h.ranked.idle, fun _ ↦ ⟨hcurrent, hall⟩⟩,
      h.lent.beside .., h.next⟩

omit [DecidableEq μ] in
theorem Inv.pendSV (h : Inv idle s) :
    ∃ s', (vTaskSwitchContext s).map (fun s ↦ { s with pendSV := false }) = some s' ∧
      Inv idle s' := by
  rw [vTaskSwitchContext]
  by_cases hs : s.uxSchedulerSuspended = 0
  · rw [if_neg (not_not.mpr hs)]
    obtain ⟨t, r, hselect, ht, hall, hholds⟩ := h.ranked.holds.select h.ranked.idle.1
    dsimp only
    rw [hselect]
    exact ⟨_, rfl, ⟨hholds, h.ranked.resumed, h.ranked.pended, h.ranked.nodup, h.ranked.idle,
      fun _ ↦ ⟨ht, hall⟩⟩, h.lent.beside .., h.next⟩
  · rw [if_pos hs]
    exact ⟨_, rfl, ⟨h.ranked.holds, h.ranked.resumed, h.ranked.pended, h.ranked.nodup,
      h.ranked.idle, fun _ ↦ h.ranked.runs (.inr hs)⟩,
      h.lent.beside .., h.next⟩

theorem Inv.step (h : Inv idle s) (l : Label τ μ) (hl : Legal idle s l) (hw : Warranted s l) :
    ∃ s', step s l = some s' ∧ Inv idle s' := by
  cases l with
  | take m =>
    obtain ⟨hruns, hpc, hne, hheld⟩ := hl
    have hcurrent := (h.ranked.runs (.inl hruns.1)).1
    have hgo : Inv idle (s.goto s.pxCurrentTCB (.attempt m)) :=
      h.goto trivial hcurrent hne (fun _ ↦ hheld) (by simp [hpc])
    exact ⟨_, rfl, hgo.remember _⟩
  | go timedOut => exact h.take timedOut hl.1 hl.2
  | give m =>
    obtain ⟨hruns, hpc, hm⟩ := hl
    exact h.give hpc hruns hm hw
  | block => exact ⟨_, rfl, h.block hl.1 hl.2.1 hl.2.2⟩
  | suspendAll =>
    exact ⟨_, rfl, ⟨h.ranked.holds, fun hzero ↦ absurd hzero (Nat.succ_ne_zero _), h.ranked.pended,
      h.ranked.nodup, h.ranked.idle, fun _ ↦ h.ranked.runs (.inl hl.1)⟩, h.lent.beside .., h.next⟩
  | resumeAll => exact h.resumeAll hl.2
  | wake t => exact ⟨_, rfl, h.wake hl⟩
  | tick expired => exact ⟨_, rfl, h.tick hl.1 hl.2⟩
  | pendSV => exact h.pendSV

section Start

variable {prio : τ → ℕ}

/-- The state before the scheduler runs, when these tasks have been created. -/
def booted (prio : τ → ℕ) (current : τ) (r : Ready τ) (created : List τ) : State τ μ :=
  { blank prio current with
    ready := r
    pc := fun t ↦ if t ∈ created then .run else .asleep }

omit [DecidableEq μ] in
theorem booted_create (prio : τ → ℕ) (current t : τ) (r : Ready τ) (created : List τ) :
    prvAddNewTaskToReadyList (booted prio current r created : State τ μ) t =
      booted prio (if prio current ≤ prio t then t else current) (r.add (prio t) t)
        (t :: created) := by
  have hpc : Function.update (fun u ↦ if u ∈ created then Pc.run else Pc.asleep) t Pc.run =
      fun u ↦ if u ∈ t :: created then (Pc.run : Pc μ) else .asleep := by
    funext u
    by_cases hu : u = t
    · subst hu
      simp
    · simp [hu]
  have hadd (s : State τ μ) (c : τ) (hs : s = booted prio c r created) :
      prvAddTaskToReadyList t (s.goto t .run) =
        booted prio c (r.add (prio t) t) (t :: created) := by
    rw [hs, booted, booted, ← hpc]
    rfl
  by_cases hle : prio current ≤ prio t
  · rw [if_pos hle]
    exact hadd _ t (if_pos hle)
  · rw [if_neg hle]
    exact hadd _ current (if_neg hle)

omit [DecidableEq μ] in
/-- The first task to run is one of the highest priority. -/
theorem booted_start (ts : List τ) {current : τ} {r : Ready τ} {created : List τ}
    (hts : ts.Nodup) (hnew : ∀ t ∈ ts, t ∉ created) (hholds : Holds r prio (· ∈ created))
    (hmem : current ∈ created) (hall : ∀ t ∈ created, prio t ≤ prio current) :
    ∃ current' r' created', ts.foldl prvAddNewTaskToReadyList
        (booted prio current r created : State τ μ) = booted prio current' r' created' ∧
      (∀ t, t ∈ created' ↔ t ∈ ts ∨ t ∈ created) ∧ Holds r' prio (· ∈ created') ∧
      current' ∈ created' ∧ ∀ t ∈ created', prio t ≤ prio current' := by
  induction ts generalizing current r created with
  | nil => exact ⟨current, r, created, rfl, by simp, hholds, hmem, hall⟩
  | cons t ts ih =>
    obtain ⟨ht, hts⟩ := List.nodup_cons.mp hts
    have hadded : Holds (r.add (prio t) t) prio (· ∈ t :: created) :=
      (hholds.add (hnew t (List.mem_cons_self ..))).congr fun u ↦ List.mem_cons
    have hnew' (u : τ) (hu : u ∈ ts) : u ∉ t :: created := by
      intro hin
      rcases List.mem_cons.mp hin with rfl | hin
      · exact ht hu
      · exact hnew u (List.mem_cons_of_mem t hu) hin
    have hmem' : (if prio current ≤ prio t then t else current) ∈ t :: created := by
      split
      · exact List.mem_cons_self ..
      · exact List.mem_cons_of_mem t hmem
    have hall' (u : τ) (hu : u ∈ t :: created) :
        prio u ≤ prio (if prio current ≤ prio t then t else current) := by
      split
      · next hle =>
        rcases List.mem_cons.mp hu with rfl | hu
        · exact Nat.le_refl _
        · exact (hall u hu).trans hle
      · next hlt =>
        rcases List.mem_cons.mp hu with rfl | hu
        · exact Nat.le_of_not_le hlt
        · exact hall u hu
    obtain ⟨current', r', created', heq, hcreated, hrest⟩ := ih hts hnew' hadded hmem' hall'
    rw [List.foldl_cons, booted_create]
    refine ⟨current', r', created', heq, fun u ↦ ?_, hrest⟩
    rw [hcreated, List.mem_cons, List.mem_cons]
    tauto

omit [DecidableEq μ] in
theorem inv_booted (hprio : ∀ t, prio t < configMaxPriorities) {current : τ} {r : Ready τ}
    {created : List τ} (hholds : Holds r prio (· ∈ created)) (hmem : current ∈ created)
    (hall : ∀ t ∈ created, prio t ≤ prio current) (hidle : idle ∈ created) :
    Inv idle (booted prio current r created : State τ μ) := by
  have hready (t : τ) : (booted prio current r created : State τ μ).IsReady t ↔ t ∈ created := by
    by_cases ht : t ∈ created
    · simp [State.IsReady, booted, blank, ht, Pc.Awake]
    · simp [State.IsReady, booted, blank, ht, Pc.Awake]
  have hfree {P : Prop} {m : μ} {t : τ}
      (hm : (booted prio current r created : State τ μ).xMutexHolder m = some t) : P := by
    cases hm
  refine ⟨⟨hholds.congr hready, fun _ ↦ rfl, (fun t ht ↦ absurd ht List.not_mem_nil),
    List.nodup_nil, ⟨(hready idle).mpr hidle, if_pos hidle⟩, fun _ ↦ ⟨(hready current).mpr hmem,
    fun t ht ↦ hall t ((hready t).mp ht)⟩⟩, ⟨hprio, fun _ ↦ rfl, fun _ ↦ Nat.le_refl _,
    fun _ _ ↦ rfl, fun _ _ hm ↦ hfree hm, fun _ _ _ hm ↦ hfree hm, fun _ _ ↦ rfl,
    fun m t ↦ ?_, fun _ ↦ List.nodup_nil, fun _ ↦ List.Pairwise.nil, fun _ _ hm ↦ hfree hm⟩,
    fun _ _ hw ↦ absurd rfl hw⟩
  refine iff_of_false List.not_mem_nil ?_
  change (if t ∈ created then Pc.run else Pc.asleep) ≠ Pc.waiting m
  split <;> simp

omit [DecidableEq μ] in
theorem inv_start (hprio : ∀ t, prio t < configMaxPriorities) {t : τ} {ts : List τ}
    (hts : (t :: ts).Nodup) (hidle : idle ∈ t :: ts) : Inv idle (start prio t ts : State τ μ) := by
  obtain ⟨ht, hts⟩ := List.nodup_cons.mp hts
  have hempty : Holds ⟨fun _ ↦ [], fun _ ↦ none, tskIdlePriority⟩ prio fun _ : τ ↦ False :=
    ⟨by simp, fun _ ↦ List.nodup_nil, by simp, by simp⟩
  have hfirst : Holds (Ready.add ⟨fun _ ↦ [], fun _ ↦ none, tskIdlePriority⟩ (prio t) t) prio
      (· ∈ [t]) := (hempty.add not_false).congr fun u ↦ by simp
  obtain ⟨current, r, created, heq, hcreated, hholds, hmem, hall⟩ :=
    booted_start (μ := μ) ts hts (fun u hu ↦ by
      rw [List.mem_singleton]
      exact fun heq ↦ ht (heq ▸ hu)) hfirst (List.mem_singleton_self t) fun u hu ↦ by
      rw [List.mem_singleton.mp hu]
  have hblank : (blank prio t : State τ μ) =
      booted prio t ⟨fun _ ↦ [], fun _ ↦ none, tskIdlePriority⟩ [] := by
    simp [booted, blank]
  rw [start, List.foldl_cons, hblank, booted_create, if_pos (Nat.le_refl _), heq]
  refine inv_booted hprio hholds hmem hall ?_
  rw [hcreated, List.mem_singleton, or_comm, ← List.mem_cons]
  exact hidle

end Start

end Invariant

end Tanenbaum.Kernel.Scheduler
