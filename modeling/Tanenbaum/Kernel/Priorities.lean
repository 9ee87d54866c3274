import Tanenbaum.Kernel.Scheduler

namespace Tanenbaum.Kernel.Scheduler

open Lib.Bytes Lists ListUse Selection

section Invariant

variable {τ μ : Type} {s s' : State τ μ} {idle t : τ} {m : μ}

def State.IsReady (s : State τ μ) (t : τ) : Prop :=
  (s.pc t).Awake ∧ t ∉ s.xPendingReadyList

/-- In a section of `xQueueSemaphoreTake`, or asleep there. -/
def Pc.Inside : Pc μ → Prop
  | .run => False
  | .asleep => False
  | _ => True

/-- The ready lists have the tasks that are ready, and the task that runs is one of the
highest priority, unless a switch is about to happen. -/
structure Ranked (idle : τ) (s : State τ μ) : Prop where
  holds : Holds s.ready s.uxPriority s.IsReady
  resumed : s.uxSchedulerSuspended = 0 → s.xPendingReadyList = []
  pended : ∀ t ∈ s.xPendingReadyList, s.pc t = .run
  nodup : s.xPendingReadyList.Nodup
  idle : s.IsReady idle ∧ s.pc idle = .run
  runs : s.pendSV = false ∨ s.uxSchedulerSuspended ≠ 0 →
    s.IsReady s.pxCurrentTCB ∧ ∀ t, s.IsReady t → s.uxPriority t ≤ s.uxPriority s.pxCurrentTCB

/-- The holder of a mutex has at least the priority of everyone who waits for it. -/
structure Lent (s : State τ μ) : Prop where
  bound : ∀ t, s.uxPriority t < configMaxPriorities
  item : ∀ t, s.xEventListItem t = eventValue (s.uxPriority t)
  base_le : ∀ t, s.uxBasePriority t ≤ s.uxPriority t
  own : ∀ t, s.uxMutexesHeld t = 0 → s.uxPriority t = s.uxBasePriority t
  held : ∀ m t, s.xMutexHolder m = some t → s.uxMutexesHeld t = 1
  single : ∀ m m' t, s.xMutexHolder m = some t → s.xMutexHolder m' = some t → m = m'
  inside : ∀ t, (s.pc t).Inside → s.uxMutexesHeld t = 0
  waiting : ∀ m t, t ∈ s.xTasksWaitingToReceive m ↔ s.pc t = .waiting m
  nodup : ∀ m, (s.xTasksWaitingToReceive m).Nodup
  sorted : ∀ m, (s.xTasksWaitingToReceive m).Pairwise fun t u ↦ s.uxPriority u ≤ s.uxPriority t
  lent : ∀ m h, s.xMutexHolder m = some h →
    ∀ t ∈ s.xTasksWaitingToReceive m, s.uxPriority t ≤ s.uxPriority h

/-- When nobody holds a mutex, one who is about to take it has at least the priority of
everyone who waits for it. -/
def State.Next (s : State τ μ) (m : μ) : Prop :=
  s.xMutexHolder m = none → s.xTasksWaitingToReceive m ≠ [] →
    ∃ d, s.IsReady d ∧ s.pc d = .attempt m ∧
      ∀ t ∈ s.xTasksWaitingToReceive m, s.uxPriority t ≤ s.uxPriority d

structure Inv (idle : τ) (s : State τ μ) : Prop where
  ranked : Ranked idle s
  lent : Lent s
  next : ∀ m, s.Next m

theorem toNat_eventValue (p : ℕ) : (eventValue p).toNat = configMaxPriorities - p := by
  have hle : configMaxPriorities - p ≤ 56 := Nat.sub_le ..
  rw [eventValue, BitVec.toNat_ofNat, Nat.mod_eq_of_lt (by omega)]

theorem eventValue_le_iff {p q : ℕ} (hq : q < configMaxPriorities) :
    eventValue p ≤ eventValue q ↔ q ≤ p := by
  rw [BitVec.le_def, toNat_eventValue, toNat_eventValue]
  omega

theorem Pc.Awake.ne_waiting {pc : Pc μ} (h : pc.Awake) (m : μ) : pc ≠ .waiting m := by
  rintro rfl
  exact h

theorem Pc.Awake.ne_asleep {pc : Pc μ} (h : pc.Awake) : pc ≠ .asleep := by
  rintro rfl
  exact h

theorem Lent.not_inside (h : Lent s) (hm : s.xMutexHolder m = some t) : ¬ (s.pc t).Inside := by
  intro hin
  have hzero := h.inside t hin
  rw [h.held m t hm] at hzero
  cases hzero

theorem Lent.attempt_held (h : Lent s) (hpc : s.pc t = .attempt m) : s.uxMutexesHeld t = 0 := by
  apply h.inside
  rw [hpc]
  trivial

theorem Lent.waiting_held (h : Lent s) (ht : t ∈ s.xTasksWaitingToReceive m) :
    s.uxMutexesHeld t = 0 := by
  apply h.inside
  rw [(h.waiting m t).mp ht]
  trivial

/-- The variables of the scheduler do not matter for the mutexes. -/
theorem Lent.beside (h : Lent s) (r : Ready τ) (current : τ) (suspended : ℕ) (pending : List τ)
    (y y' : Bool) (f : τ → Bool) :
    Lent { s with
      ready := r
      pxCurrentTCB := current
      uxSchedulerSuspended := suspended
      xPendingReadyList := pending
      xYieldPending := y
      pendSV := y'
      xInheritanceOccurred := f } :=
  ⟨h.bound, h.item, h.base_le, h.own, h.held, h.single, h.inside, h.waiting, h.nodup, h.sorted,
    h.lent⟩

/-- What a call remembers of the inheritance does not matter. -/
theorem Inv.remember (h : Inv idle s) (f : τ → Bool) :
    Inv idle { s with xInheritanceOccurred := f } :=
  ⟨⟨h.ranked.holds, h.ranked.resumed, h.ranked.pended, h.ranked.nodup, h.ranked.idle,
    h.ranked.runs⟩, h.lent.beside .., h.next⟩

variable [DecidableEq τ]

theorem isReady_goto {pc : Pc μ} (hpc : pc.Awake) (ht : s.IsReady t) (u : τ) :
    (s.goto t pc).IsReady u ↔ s.IsReady u := by
  by_cases hu : u = t
  · subst hu
    refine iff_of_true ⟨?_, ht.2⟩ ht
    simpa only [State.goto, Function.update_self] using hpc
  · simp only [State.IsReady, State.goto, Function.update_of_ne hu]

/-- A task that is ready and goes on in another section, not from a mutex that is free. -/
theorem Inv.goto (h : Inv idle s) {pc : Pc μ} (hpc : pc.Awake) (ht : s.IsReady t)
    (hne : t ≠ idle) (hin : pc.Inside → s.uxMutexesHeld t = 0)
    (hnext : ∀ m, s.pc t = .attempt m → s.xMutexHolder m ≠ none) : Inv idle (s.goto t pc) := by
  have hready := isReady_goto hpc ht
  refine ⟨⟨h.ranked.holds.congr hready, h.ranked.resumed, fun u hu ↦ ?_, h.ranked.nodup, ?_,
    fun hruns ↦ ?_⟩, ⟨h.lent.bound, h.lent.item, h.lent.base_le, h.lent.own, h.lent.held,
    h.lent.single, fun u hu ↦ ?_, fun m u ↦ ?_, h.lent.nodup, h.lent.sorted, h.lent.lent⟩,
    fun m hm hw ↦ ?_⟩
  · have hu' : u ≠ t := by
      rintro rfl
      exact ht.2 hu
    exact (Function.update_of_ne hu' ..).trans (h.ranked.pended u hu)
  · exact ⟨(hready idle).mpr h.ranked.idle.1,
      (Function.update_of_ne hne.symm ..).trans h.ranked.idle.2⟩
  · obtain ⟨hcurrent, hall⟩ := h.ranked.runs hruns
    exact ⟨(hready _).mpr hcurrent, fun u hu ↦ hall u ((hready u).mp hu)⟩
  · by_cases hu' : u = t
    · subst hu'
      simp only [State.goto, Function.update_self] at hu
      exact hin hu
    · simp only [State.goto, Function.update_of_ne hu'] at hu
      exact h.lent.inside u hu
  · by_cases hu' : u = t
    · subst hu'
      simp only [State.goto, Function.update_self]
      rw [h.lent.waiting]
      exact iff_of_false (ht.1.ne_waiting m) (hpc.ne_waiting m)
    · simp only [State.goto, Function.update_of_ne hu']
      exact h.lent.waiting m u
  · obtain ⟨d, hd, hpcd, hall⟩ := h.next m hm hw
    have hdt : d ≠ t := by
      rintro rfl
      exact hnext m hpcd hm
    exact ⟨d, (hready d).mpr hd, (Function.update_of_ne hdt ..).trans hpcd, hall⟩

/-- A task that is ready is moved to the list of its new priority. -/
theorem Ranked.changePriority (h : Ranked idle s) (t : τ) (p : ℕ) :
    ∃ r, s.changePriority t p = { s.setPriority t p with ready := r } ∧
      Holds r (Function.update s.uxPriority t p) s.IsReady := by
  rw [State.changePriority]
  split
  · next hmem =>
    have ht := ((h.holds.mem _ t).mp hmem).1
    refine ⟨_, rfl, ?_⟩
    have hremoved := (h.holds.remove ht).reprioritise (t := t) (fun hR ↦ hR.2 rfl) p
    have hadded := hremoved.add (t := t) fun hR ↦ hR.2 rfl
    rw [Function.update_self] at hadded
    refine hadded.congr fun u ↦ ?_
    by_cases hu : u = t
    · subst hu
      exact iff_of_true ht (.inl rfl)
    · simp [hu]
  · next hmem =>
    refine ⟨s.ready, rfl, h.holds.reprioritise (fun ht ↦ hmem ?_) p⟩
    exact (h.holds.mem _ t).mpr ⟨ht, rfl⟩

/-- The holder of a mutex gets another priority, as high as its own and that of everyone who
waits for the mutex, and not above the task that runs. -/
theorem Inv.changePriority (h : Inv idle s) {u : τ} {p : ℕ} (hm : s.xMutexHolder m = some u)
    (hne : u ≠ s.pxCurrentTCB) (hp : p < configMaxPriorities) (hbase : s.uxBasePriority u ≤ p)
    (hlent : ∀ t ∈ s.xTasksWaitingToReceive m, s.uxPriority t ≤ p)
    (htop : s.IsReady u → p ≤ s.uxPriority s.pxCurrentTCB) : Inv idle (s.changePriority u p) := by
  obtain ⟨r, hr, hholds⟩ := h.ranked.changePriority u p
  have hheld := h.lent.held m u hm
  have hold {t : τ} (ht : s.uxMutexesHeld t = 0) :
      Function.update s.uxPriority u p t = s.uxPriority t := by
    refine Function.update_of_ne ?_ ..
    rintro rfl
    rw [hheld] at ht
    cases ht
  have hwaiting {m' : μ} {t : τ} (ht : t ∈ s.xTasksWaitingToReceive m') :
      Function.update s.uxPriority u p t = s.uxPriority t := hold (h.lent.waiting_held ht)
  rw [hr]
  refine ⟨⟨hholds, h.ranked.resumed, h.ranked.pended, h.ranked.nodup, h.ranked.idle,
    fun hruns ↦ ?_⟩, ⟨fun t ↦ ?_, fun t ↦ ?_, fun t ↦ ?_, fun t ht ↦ ?_, h.lent.held,
    h.lent.single, h.lent.inside, h.lent.waiting, h.lent.nodup, fun m' ↦ ?_, fun m' v hv t ht ↦ ?_⟩,
    fun m' hfree hw ↦ ?_⟩
  · obtain ⟨hcurrent, hall⟩ := h.ranked.runs hruns
    refine ⟨hcurrent, fun t ht ↦ ?_⟩
    change Function.update s.uxPriority u p t ≤ Function.update s.uxPriority u p s.pxCurrentTCB
    rw [Function.update_of_ne hne.symm]
    by_cases htu : t = u
    · subst htu
      rw [Function.update_self]
      exact htop ht
    · rw [Function.update_of_ne htu]
      exact hall t ht
  · change Function.update s.uxPriority u p t < _
    by_cases htu : t = u
    · subst htu
      rwa [Function.update_self]
    · rw [Function.update_of_ne htu]
      exact h.lent.bound t
  · change Function.update s.xEventListItem u _ t = eventValue (Function.update s.uxPriority u p t)
    by_cases htu : t = u
    · subst htu
      rw [Function.update_self, Function.update_self]
    · rw [Function.update_of_ne htu, Function.update_of_ne htu]
      exact h.lent.item t
  · change _ ≤ Function.update s.uxPriority u p t
    by_cases htu : t = u
    · subst htu
      rwa [Function.update_self]
    · rw [Function.update_of_ne htu]
      exact h.lent.base_le t
  · exact (hold ht).trans (h.lent.own t ht)
  · refine (h.lent.sorted m').imp_of_mem fun {t t'} ht ht' hle ↦ ?_
    change Function.update s.uxPriority u p t' ≤ Function.update s.uxPriority u p t
    rwa [hwaiting ht, hwaiting ht']
  · change Function.update s.uxPriority u p t ≤ Function.update s.uxPriority u p v
    rw [hwaiting ht]
    by_cases hvu : v = u
    · subst hvu
      rw [Function.update_self]
      obtain rfl := h.lent.single m m' v hm hv
      exact hlent t ht
    · rw [Function.update_of_ne hvu]
      exact h.lent.lent m' v hv t ht
  · obtain ⟨d, hd, hpc, hall⟩ := h.next m' hfree hw
    refine ⟨d, hd, hpc, fun t ht ↦ ?_⟩
    change Function.update s.uxPriority u p t ≤ Function.update s.uxPriority u p d
    rw [hwaiting ht, hold (h.lent.attempt_held hpc)]
    exact hall t ht

/-- When the current task stops being ready and a switch follows. -/
theorem Ranked.sleep (h : Ranked idle s) (hruns : s.Runs) (hne : s.pxCurrentTCB ≠ idle)
    (pc : Pc μ) (hpc : ¬ pc.Awake) (s' : State τ μ)
    (hs' : s' = { s.goto s.pxCurrentTCB pc with
      xTasksWaitingToReceive := s'.xTasksWaitingToReceive
      ready := s.ready.remove (s.uxPriority s.pxCurrentTCB) s.pxCurrentTCB
      pendSV := true }) :
    Ranked idle s' ∧ ∀ u, s'.IsReady u ↔ s.IsReady u ∧ u ≠ s.pxCurrentTCB := by
  have hnil := h.resumed hruns.2
  have hready (u : τ) : s'.IsReady u ↔ s.IsReady u ∧ u ≠ s.pxCurrentTCB := by
    rw [hs']
    by_cases hu : u = s.pxCurrentTCB
    · subst hu
      simp [State.IsReady, State.goto, hpc]
    · simp [State.IsReady, State.goto, hu]
  refine ⟨?_, hready⟩
  have hholds := (h.holds.remove (h.runs (.inl hruns.1)).1).congr hready
  rw [hs'] at hholds ⊢
  refine ⟨hholds, fun _ ↦ hnil, fun u hu ↦ ?_, h.nodup, ?_, fun hswitch ↦ ?_⟩
  · change u ∈ s.xPendingReadyList at hu
    rw [hnil] at hu
    cases hu
  · rw [← hs', hready]
    refine ⟨⟨h.idle.1, hne.symm⟩, ?_⟩
    rw [hs']
    exact (Function.update_of_ne hne.symm ..).trans h.idle.2
  · rcases hswitch with hfalse | hsuspended
    · cases hfalse
    · exact absurd hruns.2 hsuspended

theorem Inv.block (h : Inv idle s) (hruns : s.Runs) (hpc : s.pc s.pxCurrentTCB = .run)
    (hne : s.pxCurrentTCB ≠ idle) : Inv idle (block s) := by
  obtain ⟨hranked, hready⟩ := h.ranked.sleep hruns hne .asleep id (Scheduler.block s) rfl
  refine ⟨hranked, ⟨h.lent.bound, h.lent.item, h.lent.base_le, h.lent.own, h.lent.held,
    h.lent.single, fun t ht ↦ ?_, fun m t ↦ ?_, h.lent.nodup, h.lent.sorted, h.lent.lent⟩,
    fun m hm hw ↦ ?_⟩
  · by_cases htc : t = s.pxCurrentTCB
    · subst htc
      simp only [Scheduler.block, State.goto, Function.update_self] at ht
      exact ht.elim
    · simp only [Scheduler.block, State.goto, Function.update_of_ne htc] at ht
      exact h.lent.inside t ht
  · by_cases htc : t = s.pxCurrentTCB
    · subst htc
      simp only [Scheduler.block, State.goto, Function.update_self]
      rw [h.lent.waiting, hpc]
      simp
    · simp only [Scheduler.block, State.goto, Function.update_of_ne htc]
      exact h.lent.waiting m t
  · obtain ⟨d, hd, hpcd, hall⟩ := h.next m hm hw
    have hdc : d ≠ s.pxCurrentTCB := by
      rintro rfl
      rw [hpc] at hpcd
      cases hpcd
    exact ⟨d, (hready d).mpr ⟨hd, hdc⟩, (Function.update_of_ne hdc ..).trans hpcd, hall⟩

omit [DecidableEq τ] in
/-- Whoever waits for a mutex stands behind those of its priority. -/
theorem Lent.pairwise_place (h : Lent s) (t : τ) (m : μ) :
    (insertSorted s.xEventListItem t (s.xTasksWaitingToReceive m)).Pairwise
      fun t u ↦ s.uxPriority u ≤ s.uxPriority t := by
  have hiff (t u : τ) : s.xEventListItem t ≤ s.xEventListItem u ↔
      s.uxPriority u ≤ s.uxPriority t := by
    rw [h.item, h.item, eventValue_le_iff (h.bound u)]
  have hsorted := (h.sorted m).imp fun {t u} hle ↦ (hiff t u).mpr hle
  exact (pairwise_insertSorted hsorted).imp fun {t u} hle ↦ (hiff t u).mp hle

variable [DecidableEq μ]

/-- Whoever takes a free mutex has at least the priority of those who wait for it, as one of
them is ready and does not run. -/
theorem Inv.acquire (h : Inv idle s) (hruns : s.Runs) (hpc : s.pc s.pxCurrentTCB = .attempt m)
    (hm : s.xMutexHolder m = none) :
    Inv idle { s.goto s.pxCurrentTCB .run with
      xMutexHolder := Function.update s.xMutexHolder m (some s.pxCurrentTCB)
      uxMutexesHeld := Function.update s.uxMutexesHeld s.pxCurrentTCB
        (s.uxMutexesHeld s.pxCurrentTCB + 1) } := by
  obtain ⟨hcurrent, hall⟩ := h.ranked.runs (.inl hruns.1)
  have hne : s.pxCurrentTCB ≠ idle := by
    intro heq
    have hidle := h.ranked.idle.2
    rw [← heq, hpc] at hidle
    cases hidle
  have hzero := h.lent.attempt_held hpc
  have hfree {m' : μ} {t : τ} (hm' : s.xMutexHolder m' = some t) : t ≠ s.pxCurrentTCB := by
    rintro rfl
    have hone := h.lent.held m' _ hm'
    rw [hzero] at hone
    cases hone
  have hready (u : τ) : (s.goto s.pxCurrentTCB .run).IsReady u ↔ s.IsReady u :=
    isReady_goto (show Pc.Awake .run from trivial) hcurrent u
  refine ⟨⟨h.ranked.holds.congr hready, h.ranked.resumed, fun u hu ↦ ?_, h.ranked.nodup,
    ⟨(hready idle).mpr h.ranked.idle.1, ?_⟩, fun _ ↦ ⟨(hready _).mpr hcurrent,
    fun u hu ↦ hall u ((hready u).mp hu)⟩⟩, ⟨h.lent.bound, h.lent.item, h.lent.base_le,
    fun t ht ↦ ?_, fun m' t ht ↦ ?_, fun m₁ m₂ t h₁ h₂ ↦ ?_, fun t ht ↦ ?_, fun m' t ↦ ?_,
    h.lent.nodup, h.lent.sorted, fun m' v hv t ht ↦ ?_⟩, fun m' hm' hw ↦ ?_⟩
  · change u ∈ s.xPendingReadyList at hu
    rw [h.ranked.resumed hruns.2] at hu
    cases hu
  · exact (Function.update_of_ne hne.symm ..).trans h.ranked.idle.2
  · by_cases htc : t = s.pxCurrentTCB
    · subst htc
      simp only [Function.update_self] at ht
      cases ht
    · simp only [Function.update_of_ne htc] at ht
      exact h.lent.own t ht
  · by_cases hmm : m' = m
    · subst hmm
      simp only [Function.update_self] at ht
      cases ht
      simp only [Function.update_self, hzero]
    · simp only [Function.update_of_ne hmm] at ht
      simp only [Function.update_of_ne (hfree ht)]
      exact h.lent.held m' t ht
  · by_cases hm₁ : m₁ = m <;> by_cases hm₂ : m₂ = m
    · exact hm₁.trans hm₂.symm
    · subst hm₁
      simp only [Function.update_self, Function.update_of_ne hm₂] at h₁ h₂
      cases h₁
      exact absurd rfl (hfree h₂)
    · subst hm₂
      simp only [Function.update_self, Function.update_of_ne hm₁] at h₁ h₂
      cases h₂
      exact absurd rfl (hfree h₁)
    · simp only [Function.update_of_ne hm₁, Function.update_of_ne hm₂] at h₁ h₂
      exact h.lent.single m₁ m₂ t h₁ h₂
  · by_cases htc : t = s.pxCurrentTCB
    · subst htc
      simp only [State.goto, Function.update_self] at ht
      exact ht.elim
    · simp only [State.goto, Function.update_of_ne htc] at ht ⊢
      exact h.lent.inside t ht
  · by_cases htc : t = s.pxCurrentTCB
    · subst htc
      simp only [State.goto, Function.update_self]
      rw [h.lent.waiting]
      exact iff_of_false (hcurrent.1.ne_waiting m') (by simp)
    · simp only [State.goto, Function.update_of_ne htc]
      exact h.lent.waiting m' t
  · by_cases hmm : m' = m
    · subst hmm
      simp only [Function.update_self] at hv
      cases hv
      obtain ⟨d, hd, -, hd'⟩ := h.next m' hm (List.ne_nil_of_mem ht)
      exact (hd' t ht).trans (hall d hd)
    · simp only [Function.update_of_ne hmm] at hv
      exact h.lent.lent m' v hv t ht
  · have hmm : m' ≠ m := by
      rintro rfl
      simp only [Function.update_self] at hm'
      cases hm'
    simp only [Function.update_of_ne hmm] at hm'
    obtain ⟨d, hd, hpcd, hall'⟩ := h.next m' hm' hw
    have hdc : d ≠ s.pxCurrentTCB := by
      rintro rfl
      rw [hpc] at hpcd
      exact hmm (Pc.attempt.inj hpcd).symm
    exact ⟨d, (hready d).mpr hd, (Function.update_of_ne hdc ..).trans hpcd, hall'⟩

theorem Inv.place (h : Inv idle s) (hruns : s.Runs) (hpc : s.pc s.pxCurrentTCB = .check m)
    {v : τ} (hm : s.xMutexHolder m = some v) (hle : s.uxPriority s.pxCurrentTCB ≤ s.uxPriority v) :
    Inv idle (place m s) := by
  have hne : s.pxCurrentTCB ≠ idle := by
    intro heq
    have hidle := h.ranked.idle.2
    rw [← heq, hpc] at hidle
    cases hidle
  have hout (m' : μ) : s.pxCurrentTCB ∉ s.xTasksWaitingToReceive m' := by
    rw [h.lent.waiting, hpc]
    simp
  obtain ⟨hranked, hready⟩ :=
    h.ranked.sleep hruns hne (.waiting m) id (Scheduler.place m s) rfl
  refine ⟨hranked, ⟨h.lent.bound, h.lent.item, h.lent.base_le, h.lent.own, h.lent.held,
    h.lent.single, fun t ht ↦ ?_, fun m' t ↦ ?_, fun m' ↦ ?_, fun m' ↦ ?_, fun m' w hw t ht ↦ ?_⟩,
    fun m' hm' hw ↦ ?_⟩
  · by_cases htc : t = s.pxCurrentTCB
    · subst htc
      apply h.lent.inside
      rw [hpc]
      trivial
    · simp only [Scheduler.place, State.goto, Function.update_of_ne htc] at ht
      exact h.lent.inside t ht
  · by_cases hmm : m' = m
    · subst hmm
      simp only [Scheduler.place, State.goto, Function.update_self]
      rw [mem_insertSorted, h.lent.waiting]
      by_cases htc : t = s.pxCurrentTCB
      · subst htc
        simp
      · simp [htc]
    · simp only [Scheduler.place, State.goto, Function.update_of_ne hmm]
      rw [h.lent.waiting]
      by_cases htc : t = s.pxCurrentTCB
      · subst htc
        simp [hpc, Ne.symm hmm]
      · simp [htc]
  · by_cases hmm : m' = m
    · subst hmm
      simp only [Scheduler.place, Function.update_self]
      rw [(insertSorted_perm ..).nodup_iff]
      exact List.nodup_cons.mpr ⟨hout m', h.lent.nodup m'⟩
    · simp only [Scheduler.place, Function.update_of_ne hmm]
      exact h.lent.nodup m'
  · by_cases hmm : m' = m
    · subst hmm
      simp only [Scheduler.place, Function.update_self]
      exact h.lent.pairwise_place _ m'
    · simp only [Scheduler.place, Function.update_of_ne hmm]
      exact h.lent.sorted m'
  · by_cases hmm : m' = m
    · subst hmm
      obtain rfl : v = w := Option.some.inj (hm.symm.trans hw)
      simp only [Scheduler.place, Function.update_self] at ht
      rcases mem_insertSorted.mp ht with rfl | ht
      · exact hle
      · exact h.lent.lent m' v hw t ht
    · simp only [Scheduler.place, Function.update_of_ne hmm] at ht
      exact h.lent.lent m' w hw t ht
  · change s.xMutexHolder m' = none at hm'
    have hmm : m' ≠ m := by
      rintro rfl
      rw [hm] at hm'
      cases hm'
    simp only [Scheduler.place, Function.update_of_ne hmm] at hw ⊢
    obtain ⟨d, hd, hpcd, hall⟩ := h.next m' hm' hw
    have hdc : d ≠ s.pxCurrentTCB := by
      rintro rfl
      rw [hpc] at hpcd
      cases hpcd
    exact ⟨d, (hready d).mpr ⟨hd, hdc⟩, (Function.update_of_ne hdc ..).trans hpcd, hall⟩

/-- The current task lends its priority to the holder and waits. -/
theorem Inv.inherit (h : Inv idle s) (hruns : s.Runs) (hpc : s.pc s.pxCurrentTCB = .check m)
    {v : τ} (hm : s.xMutexHolder m = some v) (f : τ → Bool) :
    Inv idle (Scheduler.place m { (xTaskPriorityInherit (some v) s).2 with
      xInheritanceOccurred := f }) := by
  have hne : v ≠ s.pxCurrentTCB := by
    rintro rfl
    apply h.lent.not_inside hm
    rw [hpc]
    trivial
  rw [xTaskPriorityInherit]
  dsimp only
  split
  · next hlt =>
    have hchanged := h.changePriority hm hne (h.lent.bound s.pxCurrentTCB)
      ((h.lent.base_le v).trans (Nat.le_of_lt hlt))
      (fun t ht ↦ (h.lent.lent m v hm t ht).trans (Nat.le_of_lt hlt)) fun _ ↦ Nat.le_refl _
    obtain ⟨r, hr, -⟩ := h.ranked.changePriority v (s.uxPriority s.pxCurrentTCB)
    rw [hr] at hchanged ⊢
    refine (hchanged.remember _).place hruns hpc hm ?_
    simp only [State.setPriority, Function.update_self, Function.update_of_ne hne.symm]
    exact Nat.le_refl _
  · next hle => exact (h.remember _).place hruns hpc hm (Nat.le_of_not_lt hle)

omit [DecidableEq τ] [DecidableEq μ] in
/-- The first in line has the highest priority of those who wait. -/
theorem Lent.disinheritPriority (h : Lent s) {v : τ} (hm : s.xMutexHolder m = some v) :
    (∀ t ∈ s.xTasksWaitingToReceive m,
      s.uxPriority t ≤ prvGetDisinheritPriorityAfterTimeout s m) ∧
      prvGetDisinheritPriorityAfterTimeout s m ≤ s.uxPriority v := by
  rw [prvGetDisinheritPriorityAfterTimeout]
  have hsorted := h.sorted m
  have hlent := h.lent m v hm
  cases hw : s.xTasksWaitingToReceive m with
  | nil => exact ⟨by simp, Nat.zero_le _⟩
  | cons w ws =>
    rw [hw] at hsorted hlent
    have hbound := h.bound w
    have hvalue : configMaxPriorities - (s.xEventListItem w).toNat = s.uxPriority w := by
      rw [h.item, toNat_eventValue]
      omega
    dsimp only
    rw [hvalue]
    refine ⟨fun t ht ↦ ?_, hlent w (List.mem_cons_self ..)⟩
    rcases List.mem_cons.mp ht with rfl | ht
    · exact Nat.le_refl _
    · exact (List.pairwise_cons.mp hsorted).1 t ht

omit [DecidableEq μ] in
/-- The holder gives back what it was lent by a task whose time is up, but keeps what the
others lend it. -/
theorem Inv.disinherit (h : Inv idle s) (hruns : s.Runs)
    (hpc : s.pc s.pxCurrentTCB = .disinherit m) :
    ∃ s', vTaskPriorityDisinheritAfterTimeout (s.xMutexHolder m)
        (prvGetDisinheritPriorityAfterTimeout s m) s = some s' ∧
      Inv idle s' ∧ s'.pxCurrentTCB = s.pxCurrentTCB ∧ s'.pc = s.pc ∧ s'.pendSV = s.pendSV := by
  cases hm : s.xMutexHolder m with
  | none => exact ⟨s, rfl, h, rfl, rfl, rfl⟩
  | some v =>
    rw [vTaskPriorityDisinheritAfterTimeout]
    obtain ⟨hwaiting, hle⟩ := h.lent.disinheritPriority hm
    have hheld := h.lent.held m v hm
    have hne : v ≠ s.pxCurrentTCB := by
      rintro rfl
      apply h.lent.not_inside hm
      rw [hpc]
      trivial
    have hbase := h.lent.base_le v
    have hbound := h.lent.bound v
    dsimp only
    generalize prvGetDisinheritPriorityAfterTimeout s m = highest at *
    obtain ⟨p, hp, hbasep, hhighest, hpv⟩ : ∃ p,
        p = (if s.uxBasePriority v < highest then highest else s.uxBasePriority v) ∧
          s.uxBasePriority v ≤ p ∧ highest ≤ p ∧ p ≤ s.uxPriority v := by
      refine ⟨_, rfl, ?_⟩
      split <;> omega
    rw [← hp, hheld, if_neg Nat.one_ne_zero, if_pos rfl, if_neg hne]
    split
    · have hchanged := h.changePriority hm hne (hpv.trans_lt hbound) hbasep
        (fun t ht ↦ (hwaiting t ht).trans hhighest)
        fun hv ↦ hpv.trans ((h.ranked.runs (.inl hruns.1)).2 v hv)
      obtain ⟨r, hr, -⟩ := h.ranked.changePriority v p
      rw [hr] at hchanged ⊢
      exact ⟨_, rfl, hchanged, rfl, rfl, rfl⟩
    · exact ⟨s, rfl, h, rfl, rfl, rfl⟩

theorem Inv.take (h : Inv idle s) (timedOut : Bool) (hruns : s.Runs)
    (hpc : s.pc s.pxCurrentTCB ≠ .run) : ∃ s', take timedOut s = some s' ∧ Inv idle s' := by
  have hcurrent := (h.ranked.runs (.inl hruns.1)).1
  have hne : s.pxCurrentTCB ≠ idle := fun heq ↦ hpc (heq ▸ h.ranked.idle.2)
  have hinside (hin : (s.pc s.pxCurrentTCB).Inside) : s.uxMutexesHeld s.pxCurrentTCB = 0 :=
    h.lent.inside _ hin
  rw [Scheduler.take]
  cases hat : s.pc s.pxCurrentTCB with
  | run => exact absurd hat hpc
  | asleep => exact absurd hat hcurrent.1.ne_asleep
  | waiting m => exact absurd hat (hcurrent.1.ne_waiting m)
  | attempt m =>
    dsimp only
    cases hm : s.xMutexHolder m with
    | none => exact ⟨_, rfl, h.acquire hruns hat hm⟩
    | some v =>
      refine ⟨_, rfl, h.goto trivial hcurrent hne (fun _ ↦ h.lent.attempt_held hat) fun m' hm' ↦ ?_⟩
      rw [hat] at hm'
      cases hm'
      rw [hm]
      simp
  | check m =>
    dsimp only
    rw [hat] at hinside
    have hgo {pc : Pc μ} (hawake : pc.Awake) : Inv idle (s.goto s.pxCurrentTCB pc) :=
      h.goto hawake hcurrent hne (fun _ ↦ hinside trivial) (by simp [hat])
    cases timedOut with
    | true => exact ⟨_, rfl, hgo trivial⟩
    | false =>
      cases hm : s.xMutexHolder m with
      | none => exact ⟨_, rfl, hgo trivial⟩
      | some v => exact ⟨_, rfl, h.inherit hruns hat hm _⟩
  | expired m =>
    dsimp only
    rw [hat] at hinside
    have hgo {pc : Pc μ} (hawake : pc.Awake) : Inv idle (s.goto s.pxCurrentTCB pc) :=
      h.goto hawake hcurrent hne (fun _ ↦ hinside trivial) (by simp [hat])
    cases hm : s.xMutexHolder m with
    | none => exact ⟨_, rfl, hgo trivial⟩
    | some v =>
      refine ⟨_, rfl, hgo ?_⟩
      split <;> trivial
  | disinherit m =>
    obtain ⟨s', hs', hinv, hsame, hpcs, hpend⟩ := h.disinherit hruns hat
    dsimp only
    rw [hs']
    have hcurrent' := (hinv.ranked.runs (.inl (hpend.trans hruns.1))).1
    rw [hsame] at hcurrent'
    exact ⟨_, rfl, hinv.goto trivial hcurrent' hne (fun hin ↦ hin.elim) (by simp [hpcs, hat])⟩

end Invariant

end Tanenbaum.Kernel.Scheduler
