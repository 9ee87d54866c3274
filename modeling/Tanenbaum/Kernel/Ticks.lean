import Tanenbaum.Lib.Epochs
import Tanenbaum.Lib.Runs
import Tanenbaum.Kernel.ListUse

namespace Tanenbaum.Kernel.Ticks

open Lib.Bytes Lib.Runs Lib.Epochs Lists ListUse

/-- The variables of `tasks.c` that have to do with time. A task that is on none of the
lists is ready. The scheduler is suspended less than `2 ^ 32` times over. -/
structure State (τ : Type) where
  xTickCount : Word
  xNumOfOverflows : Word
  xNextTaskUnblockTime : Word
  xPendedTicks : Word
  uxSchedulerSuspended : ℕ
  value : τ → Word
  pxDelayedTaskList : List τ
  pxOverflowDelayedTaskList : List τ
  xSuspendedTaskList : List τ
  xPendingReadyList : List τ

inductive Label (τ : Type)
  | delay (t : τ) (xTicksToWait : Word) (xCanBlockIndefinitely : Bool)
  | event (t : τ)
  | tick
  | suspendAll
  | resumeAll

section Functions

variable {τ : Type} [DecidableEq τ]

/-- A list in order of the wake times, as `vListInsert` makes it. -/
def prvAddCurrentTaskToDelayedList (t : τ) (xTicksToWait : Word) (xCanBlockIndefinitely : Bool)
    (s : State τ) : State τ :=
  if xTicksToWait = portMaxDelay ∧ xCanBlockIndefinitely then
    { s with xSuspendedTaskList := s.xSuspendedTaskList ++ [t] }
  else
    let xTimeToWake := s.xTickCount + xTicksToWait
    let s := { s with value := Function.update s.value t xTimeToWake }
    if xTimeToWake < s.xTickCount then
      { s with pxOverflowDelayedTaskList := insertSorted s.value t s.pxOverflowDelayedTaskList }
    else
      let s := { s with pxDelayedTaskList := insertSorted s.value t s.pxDelayedTaskList }
      if xTimeToWake < s.xNextTaskUnblockTime then { s with xNextTaskUnblockTime := xTimeToWake }
      else s

def prvResetNextTaskUnblockTime (s : State τ) : State τ :=
  match s.pxDelayedTaskList with
  | [] => { s with xNextTaskUnblockTime := portMaxDelay }
  | t :: _ => { s with xNextTaskUnblockTime := s.value t }

/-- `none` when its assertion stops the system. -/
def taskSwitchDelayedLists (s : State τ) : Option (State τ) :=
  if s.pxDelayedTaskList ≠ [] then none
  else
    let pxTemp := s.pxDelayedTaskList
    let s := { s with pxDelayedTaskList := s.pxOverflowDelayedTaskList }
    let s := { s with pxOverflowDelayedTaskList := pxTemp }
    let s := { s with xNumOfOverflows := s.xNumOfOverflows + 1 }
    some (prvResetNextTaskUnblockTime s)

/-- The loop of `xTaskIncrementTick`: the tasks that stay, and the next time to look. -/
def unblockLoop (value : τ → Word) (xConstTickCount : Word) : List τ → List τ × Word
  | [] => ([], portMaxDelay)
  | t :: ts => if xConstTickCount < value t then (t :: ts, value t)
    else unblockLoop value xConstTickCount ts

def unblock (s : State τ) : State τ :=
  if s.xTickCount ≥ s.xNextTaskUnblockTime then
    let (list, next) := unblockLoop s.value s.xTickCount s.pxDelayedTaskList
    { s with pxDelayedTaskList := list, xNextTaskUnblockTime := next }
  else s

def xTaskIncrementTick (s : State τ) : Option (State τ) :=
  if s.uxSchedulerSuspended = 0 then
    let s := { s with xTickCount := s.xTickCount + 1 }
    if s.xTickCount = 0 then (taskSwitchDelayedLists s).map unblock else some (unblock s)
  else some { s with xPendedTicks := s.xPendedTicks + 1 }

/-- `listREMOVE_ITEM` of the state list item, from the list it is on. -/
def removeStateItem (t : τ) (s : State τ) : State τ :=
  { s with
    pxDelayedTaskList := s.pxDelayedTaskList.erase t
    pxOverflowDelayedTaskList := s.pxOverflowDelayedTaskList.erase t
    xSuspendedTaskList := s.xSuspendedTaskList.erase t }

/-- What `xTaskRemoveFromEventList` does with the task that an event wakes. -/
def xTaskRemoveFromEventList (t : τ) (s : State τ) : State τ :=
  if s.uxSchedulerSuspended = 0 then removeStateItem t s
  else { s with xPendingReadyList := s.xPendingReadyList ++ [t] }

/-- The loop of `xTaskResumeAll` over the pending tasks. -/
def readyLoop : List τ → State τ → State τ
  | [], s => { s with xPendingReadyList := [] }
  | t :: ts, s => readyLoop ts (removeStateItem t s)

def tickLoop : ℕ → State τ → Option (State τ)
  | 0, s => some s
  | n + 1, s => (xTaskIncrementTick s).bind (tickLoop n)

/-- `none` when it does not match a call of `vTaskSuspendAll`. -/
def xTaskResumeAll (s : State τ) : Option (State τ) :=
  if s.uxSchedulerSuspended = 0 then none
  else
    let s := { s with uxSchedulerSuspended := s.uxSchedulerSuspended - 1 }
    if s.uxSchedulerSuspended = 0 then
      let pending := s.xPendingReadyList
      let s := readyLoop pending s
      let s := if pending ≠ [] then prvResetNextTaskUnblockTime s else s
      (tickLoop s.xPendedTicks.toNat s).map fun s ↦ { s with xPendedTicks := 0 }
    else some s

def step (s : State τ) : Label τ → Option (State τ)
  | .delay t xTicksToWait xCanBlockIndefinitely =>
    some (prvAddCurrentTaskToDelayedList t xTicksToWait xCanBlockIndefinitely s)
  | .event t => some (xTaskRemoveFromEventList t s)
  | .tick => xTaskIncrementTick s
  | .suspendAll => some { s with uxSchedulerSuspended := s.uxSchedulerSuspended + 1 }
  | .resumeAll => xTaskResumeAll s

/-- After `prvInitialiseTaskLists` and `vTaskStartScheduler`. -/
def init : State τ := ⟨0, 0, portMaxDelay, 0, 0, fun _ ↦ 0, [], [], [], []⟩

end Functions

section Clock

/-- What a task sleeps for. -/
inductive Sleep
  | awake
  | till (due : ℕ)
  | forever
  deriving DecidableEq

/-- A clock that does not overflow, and what everyone sleeps for. -/
structure Clock (τ : Type) where
  now : ℕ
  sleep : τ → Sleep
  depth : ℕ
  pended : ℕ
  called : List τ

variable {τ : Type} [DecidableEq τ]

def Clock.advance (c : Clock τ) : Clock τ :=
  { c with
    now := c.now + 1
    sleep := fun t ↦ match c.sleep t with
      | .till due => if due ≤ c.now + 1 then .awake else .till due
      | other => other }

def Clock.lay (c : Clock τ) (t : τ) (sleep : Sleep) : Clock τ :=
  { c with sleep := Function.update c.sleep t sleep }

def Clock.wake (c : Clock τ) (t : τ) : Clock τ := c.lay t .awake

/-- What a task that blocks for so many ticks sleeps for. -/
def Clock.sleepFor (c : Clock τ) (n : Word) (indefinitely : Bool) : Sleep :=
  if n = portMaxDelay ∧ indefinitely then .forever else .till (c.now + n.toNat)

/-- Ideal time: a task sleeps until its time comes or an event calls it. Callers see to
it that only a task that is awake goes to sleep, and for at least a tick; that only a
sleeper is called, and once; and that the scheduler is not suspended for `2 ^ 32` ticks. -/
def Clock.step (c : Clock τ) : Label τ → Option (Clock τ)
  | .delay t n indefinitely =>
    if c.sleep t = .awake ∧ n ≠ 0 then
      some (c.lay t (c.sleepFor n indefinitely))
    else none
  | .event t =>
    if c.sleep t ≠ .awake ∧ t ∉ c.called then
      some (if c.depth = 0 then c.wake t else { c with called := c.called ++ [t] })
    else none
  | .tick =>
    if c.depth = 0 then some c.advance
    else if c.pended + 1 < 2 ^ 32 then some { c with pended := c.pended + 1 }
    else none
  | .suspendAll => some { c with depth := c.depth + 1 }
  | .resumeAll =>
    if c.depth = 0 then none
    else if c.depth = 1 then
      let c := c.called.foldl Clock.wake { c with depth := 0, called := [] }
      some { (Clock.advance^[c.pended] c) with pended := 0 }
    else some { c with depth := c.depth - 1 }

def Clock.init : Clock τ := ⟨0, fun _ ↦ .awake, 0, 0, []⟩

end Clock

section Tracks

variable {τ : Type} {s s' : State τ} {c : Clock τ} {t : τ} {last : ℕ}

/-- The lists as they should be for what everyone sleeps for, when those due by `last` have
been woken: the delayed list has the wake times before the next overflow, the other list
those behind it. -/
structure Listed (last : ℕ) (s : State τ) (c : Clock τ) : Prop where
  count : s.xTickCount = stamp 32 c.now
  overflows : s.xNumOfOverflows = stamp 32 (epoch 32 c.now)
  delayed : ∀ t, t ∈ s.pxDelayedTaskList ↔
    ∃ d, c.sleep t = .till d ∧ epoch 32 d = epoch 32 c.now
  overflow : ∀ t, t ∈ s.pxOverflowDelayedTaskList ↔
    ∃ d, c.sleep t = .till d ∧ epoch 32 d = epoch 32 c.now + 1
  forever : ∀ t, t ∈ s.xSuspendedTaskList ↔ c.sleep t = .forever
  due : ∀ t d, c.sleep t = .till d →
    last < d ∧ epoch 32 d ≤ epoch 32 c.now + 1 ∧ s.value t = stamp 32 d
  nodup : s.pxDelayedTaskList.Nodup ∧ s.pxOverflowDelayedTaskList.Nodup ∧
    s.xSuspendedTaskList.Nodup
  sorted : s.pxDelayedTaskList.Pairwise (s.value · ≤ s.value ·) ∧
    s.pxOverflowDelayedTaskList.Pairwise (s.value · ≤ s.value ·)

/-- And the next time to look is not too late. -/
structure Tracks (last : ℕ) (s : State τ) (c : Clock τ) : Prop extends Listed last s c where
  next : ∀ t ∈ s.pxDelayedTaskList, s.xNextTaskUnblockTime ≤ s.value t

/-- The variables of the suspended scheduler. -/
structure Beside (s s' : State τ) : Prop where
  suspended : s'.uxSchedulerSuspended = s.uxSchedulerSuspended
  pended : s'.xPendedTicks = s.xPendedTicks
  ready : s'.xPendingReadyList = s.xPendingReadyList

theorem beside_reset (s : State τ) : Beside s (prvResetNextTaskUnblockTime s) := by
  rw [prvResetNextTaskUnblockTime]
  split <;> exact ⟨rfl, rfl, rfl⟩

theorem beside_unblock (s : State τ) : Beside s (unblock s) := by
  rw [unblock]
  split <;> exact ⟨rfl, rfl, rfl⟩

theorem Listed.reset (h : Listed last s c) :
    Tracks last (prvResetNextTaskUnblockTime s) c := by
  rw [prvResetNextTaskUnblockTime]
  split
  · next hnil =>
    refine ⟨⟨h.count, h.overflows, h.delayed, h.overflow, h.forever, h.due, h.nodup, h.sorted⟩, ?_⟩
    intro t ht
    change t ∈ s.pxDelayedTaskList at ht
    rw [hnil] at ht
    cases ht
  · next t₀ ts hcons =>
    refine ⟨⟨h.count, h.overflows, h.delayed, h.overflow, h.forever, h.due, h.nodup, h.sorted⟩, ?_⟩
    intro t ht
    change t ∈ s.pxDelayedTaskList at ht
    have hsorted := h.sorted.1
    rw [hcons] at ht hsorted
    rcases List.mem_cons.mp ht with rfl | ht
    · exact Nat.le_refl _
    · exact (List.pairwise_cons.mp hsorted).1 t ht

theorem unblockLoop_spec {value : τ → Word} (count : Word) {ts : List τ}
    (hts : ts.Pairwise (value · ≤ value ·)) :
    (unblockLoop value count ts).1.Sublist ts ∧
      (∀ t ∈ ts, t ∈ (unblockLoop value count ts).1 ↔ count < value t) ∧
      ∀ t ∈ (unblockLoop value count ts).1, (unblockLoop value count ts).2 ≤ value t := by
  induction ts with
  | nil => exact ⟨List.Sublist.refl _, by simp, by simp [unblockLoop]⟩
  | cons u ts ih =>
    rw [List.pairwise_cons] at hts
    rw [unblockLoop]
    split
    · next hlt =>
      have hall (t : τ) (ht : t ∈ u :: ts) : value u ≤ value t := by
        rcases List.mem_cons.mp ht with rfl | ht
        · exact Nat.le_refl _
        · exact hts.1 t ht
      exact ⟨List.Sublist.refl _, fun t ht ↦ iff_of_true ht (Nat.lt_of_lt_of_le hlt (hall t ht)),
        hall⟩
    · next hlt =>
      obtain ⟨hsub, hmem, hnext⟩ := ih hts.2
      refine ⟨hsub.cons u, fun t ht ↦ ?_, hnext⟩
      rcases List.mem_cons.mp ht with rfl | ht
      · exact iff_of_false (fun hin ↦ hlt ((hmem t (hsub.subset hin)).mp hin)) hlt
      · exact hmem t ht

theorem advance_till {d : ℕ} :
    c.advance.sleep t = .till d ↔ c.sleep t = .till d ∧ c.now + 1 < d := by
  simp only [Clock.advance]
  cases c.sleep t with
  | awake => simp
  | forever => simp
  | till due =>
    by_cases hdue : due ≤ c.now + 1
    · simp only [if_pos hdue, reduceCtorEq, Sleep.till.injEq, false_iff]
      omega
    · simp only [if_neg hdue, Sleep.till.injEq]
      omega

theorem advance_forever : c.advance.sleep t = .forever ↔ c.sleep t = .forever := by
  simp only [Clock.advance]
  cases c.sleep t with
  | awake => simp
  | forever => simp
  | till due => by_cases hdue : due ≤ c.now + 1 <;> simp [hdue]

/-- The variables of the suspended scheduler do not matter for the lists. -/
theorem Tracks.beside (h : Tracks last s c) (suspended depth pended : ℕ) (pendedTicks : Word)
    (ready called : List τ) :
    Tracks last
      { s with
        uxSchedulerSuspended := suspended
        xPendedTicks := pendedTicks
        xPendingReadyList := ready }
      { c with depth := depth, pended := pended, called := called } :=
  ⟨⟨h.count, h.overflows, h.delayed, h.overflow, h.forever, h.due, h.nodup, h.sorted⟩, h.next⟩

/-- Those whose time has come leave the list. -/
theorem Tracks.kept {list : List τ} {next : Word} (h : Tracks c.now s { c with now := c.now + 1 })
    (hs' : s' = { s with pxDelayedTaskList := list, xNextTaskUnblockTime := next })
    (hsub : list.Sublist s.pxDelayedTaskList)
    (hmem : ∀ t ∈ s.pxDelayedTaskList, t ∈ list ↔ s.xTickCount < s.value t)
    (hnext : ∀ t ∈ list, next ≤ s.value t) : Tracks (c.now + 1) s' c.advance := by
  subst hs'
  refine ⟨⟨h.count, h.overflows, fun t ↦ ?_, fun t ↦ ?_, fun t ↦ ?_, fun t d hd ↦ ?_,
    ⟨h.nodup.1.sublist hsub, h.nodup.2⟩, ⟨h.sorted.1.sublist hsub, h.sorted.2⟩⟩, hnext⟩
  · constructor
    · intro ht
      obtain ⟨d, hd, hepoch⟩ := (h.delayed t).mp (hsub.subset ht)
      have hlt := (hmem t (hsub.subset ht)).mp ht
      rw [h.count, (h.due t d hd).2.2, stamp_lt_iff hepoch.symm] at hlt
      exact ⟨d, advance_till.mpr ⟨hd, hlt⟩, hepoch⟩
    · rintro ⟨d, hd, hepoch⟩
      obtain ⟨hd, hlt⟩ := advance_till.mp hd
      rw [hmem t ((h.delayed t).mpr ⟨d, hd, hepoch⟩), h.count, (h.due t d hd).2.2]
      exact (stamp_lt_iff hepoch.symm).mpr hlt
  · refine (h.overflow t).trans ⟨fun ⟨d, hd, hepoch⟩ ↦ ?_, fun ⟨d, hd, hepoch⟩ ↦ ?_⟩
    · -- A wake time behind the next overflow is not now.
      have hlt : c.now + 1 < d := by
        by_contra hle
        have hmono := epoch_mono (w := 32) (Nat.le_of_not_lt hle)
        dsimp only at hepoch
        omega
      exact ⟨d, advance_till.mpr ⟨hd, hlt⟩, hepoch⟩
    · exact ⟨d, (advance_till.mp hd).1, hepoch⟩
  · rw [advance_forever]
    exact h.forever t
  · obtain ⟨hd, hlt⟩ := advance_till.mp hd
    exact ⟨hlt, (h.due t d hd).2⟩

/-- Everyone whose time has come is woken; before the next time to look there is no one. -/
theorem Tracks.unblock (h : Tracks c.now s { c with now := c.now + 1 }) :
    Tracks (c.now + 1) (unblock s) c.advance := by
  rw [Ticks.unblock]
  split
  · obtain ⟨hsub, hmem, hnext⟩ := unblockLoop_spec s.xTickCount h.sorted.1
    exact h.kept rfl hsub hmem hnext
  · next hearly =>
    refine h.kept rfl (List.Sublist.refl _) (fun t ht ↦ iff_of_true ht ?_) h.next
    exact Nat.lt_of_lt_of_le (Nat.lt_of_not_le hearly) (h.next t ht)

/-- Before the overflow the lists stay. -/
theorem Tracks.count_up (h : Tracks c.now s c) (hepoch : epoch 32 (c.now + 1) = epoch 32 c.now)
    (hs' : s' = { s with xTickCount := stamp 32 (c.now + 1) }) :
    Tracks c.now s' { c with now := c.now + 1 } := by
  subst hs'
  refine ⟨⟨rfl, ?_, fun t ↦ ?_, fun t ↦ ?_, h.forever, fun t d hd ↦ ?_, h.nodup, h.sorted⟩, h.next⟩
  · dsimp only
    rw [hepoch]
    exact h.overflows
  · dsimp only
    rw [hepoch]
    exact h.delayed t
  · dsimp only
    rw [hepoch]
    exact h.overflow t
  · dsimp only
    rw [hepoch]
    exact h.due t d hd

/-- At the overflow nobody is left on the delayed list, so that the lists can change places. -/
theorem Tracks.switch (h : Tracks c.now s c)
    (hepoch : epoch 32 (c.now + 1) = epoch 32 c.now + 1) :
    ∃ s', taskSwitchDelayedLists { s with xTickCount := stamp 32 (c.now + 1) } = some s' ∧
      Tracks c.now s' { c with now := c.now + 1 } ∧ Beside s s' := by
  have hempty : s.pxDelayedTaskList = [] := by
    rw [List.eq_nil_iff_forall_not_mem]
    intro t ht
    obtain ⟨d, hd, hsame⟩ := (h.delayed t).mp ht
    have hmono := epoch_mono (w := 32) (h.due t d hd).1
    rw [Nat.succ_eq_add_one] at hmono
    omega
  rw [taskSwitchDelayedLists, if_neg (not_not.mpr hempty)]
  refine ⟨_, rfl, Listed.reset ⟨rfl, ?_, fun t ↦ ?_, fun t ↦ ?_, h.forever, fun t d hd ↦ ?_,
    ⟨h.nodup.2.1, h.nodup.1, h.nodup.2.2⟩, ⟨h.sorted.2, h.sorted.1⟩⟩, ?_⟩
  · dsimp only
    rw [hepoch, h.overflows]
    exact stamp_add _ 1
  · dsimp only
    rw [hepoch]
    exact h.overflow t
  · dsimp only
    rw [hempty]
    refine iff_of_false List.not_mem_nil ?_
    rintro ⟨d, hd, hfar⟩
    have hdue := (h.due t d hd).2.1
    omega
  · obtain ⟨hlt, hle, hvalue⟩ := h.due t d hd
    dsimp only
    exact ⟨hlt, by omega, hvalue⟩
  · obtain ⟨hsuspended, hpended, hready⟩ := beside_reset { s with
      xTickCount := stamp 32 (c.now + 1)
      pxDelayedTaskList := s.pxOverflowDelayedTaskList
      pxOverflowDelayedTaskList := s.pxDelayedTaskList
      xNumOfOverflows := s.xNumOfOverflows + 1 }
    exact ⟨hsuspended, hpended, hready⟩

/-- A tick that the scheduler does not hold back. -/
theorem Tracks.tick (h : Tracks c.now s c) (hs : s.uxSchedulerSuspended = 0) :
    ∃ s', xTaskIncrementTick s = some s' ∧ Tracks c.advance.now s' c.advance ∧ Beside s s' := by
  have hcount : s.xTickCount + 1 = stamp 32 (c.now + 1) := by
    rw [h.count]
    exact stamp_add c.now 1
  rw [xTaskIncrementTick, if_pos hs]
  dsimp only
  rw [hcount]
  have hepoch := epoch_succ (w := 32) c.now
  split
  · next hzero =>
    rw [if_pos hzero] at hepoch
    obtain ⟨s', hswitch, htracks, hbeside⟩ := h.switch hepoch
    rw [hswitch]
    obtain ⟨hsuspended, hpended, hready⟩ := beside_unblock s'
    exact ⟨_, rfl, htracks.unblock, hsuspended.trans hbeside.suspended,
      hpended.trans hbeside.pended, hready.trans hbeside.ready⟩
  · next hzero =>
    rw [if_neg hzero] at hepoch
    obtain ⟨hsuspended, hpended, hready⟩ :=
      beside_unblock { s with xTickCount := stamp 32 (c.now + 1) }
    exact ⟨_, rfl, (h.count_up hepoch rfl).unblock, hsuspended, hpended, hready⟩

variable [DecidableEq τ]

theorem wake_sleep {u : τ} {x : Sleep} (hx : x ≠ .awake) :
    (c.wake t).sleep u = x ↔ u ≠ t ∧ c.sleep u = x := by
  simp only [Clock.wake, Clock.lay]
  by_cases hne : u = t
  · subst hne
    simp [Ne.symm hx]
  · simp [hne]

/-- A task that an event calls leaves the list it is on. -/
theorem Tracks.wake (h : Tracks last s c) (t : τ) :
    Tracks last (removeStateItem t s) (c.wake t) := by
  refine ⟨⟨h.count, h.overflows, fun u ↦ ?_, fun u ↦ ?_, fun u ↦ ?_, fun u d hd ↦ ?_, ?_, ?_⟩,
    fun u hu ↦ h.next u (List.mem_of_mem_erase hu)⟩
  · change u ∈ s.pxDelayedTaskList.erase t ↔ _
    rw [h.nodup.1.mem_erase_iff, h.delayed]
    simp only [wake_sleep (show Sleep.till _ ≠ .awake by simp)]
    exact ⟨fun ⟨hne, d, hd, he⟩ ↦ ⟨d, ⟨hne, hd⟩, he⟩, fun ⟨d, ⟨hne, hd⟩, he⟩ ↦ ⟨hne, d, hd, he⟩⟩
  · change u ∈ s.pxOverflowDelayedTaskList.erase t ↔ _
    rw [h.nodup.2.1.mem_erase_iff, h.overflow]
    simp only [wake_sleep (show Sleep.till _ ≠ .awake by simp)]
    exact ⟨fun ⟨hne, d, hd, he⟩ ↦ ⟨d, ⟨hne, hd⟩, he⟩, fun ⟨d, ⟨hne, hd⟩, he⟩ ↦ ⟨hne, d, hd, he⟩⟩
  · change u ∈ s.xSuspendedTaskList.erase t ↔ _
    rw [h.nodup.2.2.mem_erase_iff, h.forever, wake_sleep (by simp)]
  · exact h.due u d ((wake_sleep (by simp)).mp hd).2
  · exact ⟨h.nodup.1.erase t, h.nodup.2.1.erase t, h.nodup.2.2.erase t⟩
  · exact ⟨h.sorted.1.sublist List.erase_sublist, h.sorted.2.sublist List.erase_sublist⟩

/-- A task is put into a list by its new wake time. -/
theorem pairwise_insert_update {value : τ → Word} {ts : List τ} (ht : t ∉ ts) (v : Word)
    (hts : ts.Pairwise (value · ≤ value ·)) :
    let value' := Function.update value t v
    ts.Pairwise (value' · ≤ value' ·) ∧
      (insertSorted value' t ts).Pairwise (value' · ≤ value' ·) := by
  intro value'
  have hold {u : τ} (hu : u ∈ ts) : value' u = value u :=
    Function.update_of_ne (fun heq : u = t ↦ ht (heq ▸ hu)) ..
  have hkept : ts.Pairwise (value' · ≤ value' ·) := by
    refine hts.imp_of_mem fun {u v} hu hv hle ↦ ?_
    rwa [hold hu, hold hv]
  exact ⟨hkept, pairwise_insertSorted hkept⟩

theorem lay_sleep {u : τ} {x y : Sleep} (hawake : c.sleep t = .awake) (hy : y ≠ .awake) :
    (c.lay t x).sleep u = y ↔ u = t ∧ x = y ∨ c.sleep u = y := by
  simp only [Clock.lay]
  by_cases hne : u = t
  · subst hne
    simp [hawake, Ne.symm hy]
  · simp [hne]

theorem Tracks.block (h : Tracks c.now s c) (hawake : c.sleep t = .awake) :
    Tracks c.now { s with xSuspendedTaskList := s.xSuspendedTaskList ++ [t] }
      (c.lay t .forever) := by
  have hforever : t ∉ s.xSuspendedTaskList := by
    rw [h.forever]
    simp [hawake]
  refine ⟨⟨h.count, h.overflows, fun u ↦ ?_, fun u ↦ ?_, fun u ↦ ?_, fun u d hd ↦ ?_, ?_,
    h.sorted⟩, h.next⟩
  · simp only [lay_sleep hawake (show Sleep.till _ ≠ .awake by simp), reduceCtorEq, and_false,
      false_or]
    exact h.delayed u
  · simp only [lay_sleep hawake (show Sleep.till _ ≠ .awake by simp), reduceCtorEq, and_false,
      false_or]
    exact h.overflow u
  · rw [lay_sleep hawake (by simp), ← h.forever, List.mem_append, List.mem_singleton]
    tauto
  · simp only [lay_sleep hawake (show Sleep.till _ ≠ .awake by simp), reduceCtorEq, and_false,
      false_or] at hd
    exact h.due u d hd
  · refine ⟨h.nodup.1, h.nodup.2.1, ?_⟩
    rw [List.nodup_append_comm, List.singleton_append, List.nodup_cons]
    exact ⟨hforever, h.nodup.2.2⟩

theorem exists_lay_till {u : τ} {m e : ℕ} (hawake : c.sleep t = .awake) :
    (∃ d, (c.lay t (.till m)).sleep u = .till d ∧ epoch 32 d = e) ↔
      u = t ∧ epoch 32 m = e ∨ ∃ d, c.sleep u = .till d ∧ epoch 32 d = e := by
  simp only [lay_sleep hawake (show Sleep.till _ ≠ .awake by simp), Sleep.till.injEq]
  constructor
  · rintro ⟨d, ⟨rfl, rfl⟩ | hd, he⟩
    · exact .inl ⟨rfl, he⟩
    · exact .inr ⟨d, hd, he⟩
  · rintro (⟨rfl, he⟩ | ⟨d, hd, he⟩)
    · exact ⟨m, .inl ⟨rfl, rfl⟩, he⟩
    · exact ⟨d, .inr hd, he⟩

/-- A task that blocks goes into the list of the epoch in which its time comes. -/
theorem Tracks.delay {n : Word} (h : Tracks c.now s c) (hawake : c.sleep t = .awake)
    (hn : n ≠ 0) {indefinitely : Bool} (hfinite : ¬ (n = portMaxDelay ∧ indefinitely = true)) :
    Tracks c.now (prvAddCurrentTaskToDelayedList t n indefinitely s)
      (c.lay t (.till (c.now + n.toNat))) := by
  have hdelayed : t ∉ s.pxDelayedTaskList := by
    rw [h.delayed]
    simp [hawake]
  have hoverflow : t ∉ s.pxOverflowDelayedTaskList := by
    rw [h.overflow]
    simp [hawake]
  have hwake : s.xTickCount + n = stamp 32 (c.now + n.toNat) := by
    rw [h.count]
    exact stamp_add c.now n
  have hepoch := epoch_add c.now n
  rw [← h.count] at hepoch
  have hsorted₁ := pairwise_insert_update hdelayed (stamp 32 (c.now + n.toNat)) h.sorted.1
  have hsorted₂ := pairwise_insert_update hoverflow (stamp 32 (c.now + n.toNat)) h.sorted.2
  have hnodup {ts : List τ} (ht : t ∉ ts) (hts : ts.Nodup) (value : τ → Word) :
      (insertSorted value t ts).Nodup := by
    rw [(insertSorted_perm value t ts).nodup_iff]
    exact List.nodup_cons.mpr ⟨ht, hts⟩
  have hforever (u : τ) : u ∈ s.xSuspendedTaskList ↔
      (c.lay t (.till (c.now + n.toNat))).sleep u = .forever := by
    rw [lay_sleep hawake (by simp), h.forever]
    simp
  have hdue (u : τ) (d : ℕ) (hd : (c.lay t (.till (c.now + n.toNat))).sleep u = .till d) :
      c.now < d ∧ epoch 32 d ≤ epoch 32 c.now + 1 ∧
        Function.update s.value t (stamp 32 (c.now + n.toNat)) u = stamp 32 d := by
    rcases (lay_sleep hawake (by simp)).mp hd with ⟨rfl, heq⟩ | hold
    · obtain rfl := Sleep.till.inj heq
      refine ⟨?_, ?_, Function.update_self ..⟩
      · have hpos := toNat_pos hn
        omega
      · rw [hepoch]
        split <;> omega
    · have hne : u ≠ t := by
        rintro rfl
        rw [hawake] at hold
        cases hold
      rw [Function.update_of_ne hne]
      exact h.due u d hold
  rw [prvAddCurrentTaskToDelayedList, if_neg hfinite]
  simp only [hwake]
  have hother {u : τ} {ts : List τ} (ht : t ∉ ts) (hu : u ∈ ts) :
      Function.update s.value t (stamp 32 (c.now + n.toNat)) u = s.value u :=
    Function.update_of_ne (fun heq : u = t ↦ ht (heq ▸ hu)) ..
  have hnow (u : τ) : (∃ d, (c.lay t (.till (c.now + n.toNat))).sleep u = .till d ∧
      epoch 32 d = epoch 32 c.now) ↔
      u = t ∧ epoch 32 (c.now + n.toNat) = epoch 32 c.now ∨ u ∈ s.pxDelayedTaskList := by
    rw [exists_lay_till hawake, h.delayed]
  have hthen (u : τ) : (∃ d, (c.lay t (.till (c.now + n.toNat))).sleep u = .till d ∧
      epoch 32 d = epoch 32 c.now + 1) ↔
      u = t ∧ epoch 32 (c.now + n.toNat) = epoch 32 c.now + 1 ∨
        u ∈ s.pxOverflowDelayedTaskList := by
    rw [exists_lay_till hawake, h.overflow]
  by_cases hlt : stamp 32 (c.now + n.toNat) < s.xTickCount
  · rw [if_pos hlt] at hepoch ⊢
    refine ⟨⟨h.count, h.overflows, fun u ↦ ?_, fun u ↦ ?_, hforever, hdue,
      ⟨h.nodup.1, hnodup hoverflow h.nodup.2.1 _, h.nodup.2.2⟩, ⟨hsorted₁.1, hsorted₂.2⟩⟩,
      fun u hu ↦ ?_⟩
    · refine Iff.trans ⟨.inr, fun hu ↦ hu.resolve_left fun ⟨_, he⟩ ↦ ?_⟩ (hnow u).symm
      rw [hepoch] at he
      exact absurd he (Nat.succ_ne_self _)
    · refine mem_insertSorted.trans (Iff.trans ?_ (hthen u).symm)
      exact or_congr_left (and_iff_left hepoch).symm
    · dsimp only at hu ⊢
      rw [hother hdelayed hu]
      exact h.next u hu
  · rw [if_neg hlt] at hepoch ⊢
    have hlisted (next : Word) : Listed c.now { s with
        xNextTaskUnblockTime := next
        value := Function.update s.value t (stamp 32 (c.now + n.toNat))
        pxDelayedTaskList := insertSorted (Function.update s.value t (stamp 32 (c.now + n.toNat)))
          t s.pxDelayedTaskList } (c.lay t (.till (c.now + n.toNat))) := by
      refine ⟨h.count, h.overflows, fun u ↦ ?_, fun u ↦ ?_, hforever, hdue,
        ⟨hnodup hdelayed h.nodup.1 _, h.nodup.2⟩, ⟨hsorted₁.2, hsorted₂.1⟩⟩
      · refine mem_insertSorted.trans (Iff.trans ?_ (hnow u).symm)
        exact or_congr_left (and_iff_left hepoch).symm
      · refine Iff.trans ⟨.inr, fun hu ↦ hu.resolve_left fun ⟨_, he⟩ ↦ ?_⟩ (hthen u).symm
        rw [hepoch] at he
        exact absurd he.symm (Nat.succ_ne_self _)
    have hcases {u : τ} (hu : u ∈ insertSorted (Function.update s.value t
        (stamp 32 (c.now + n.toNat))) t s.pxDelayedTaskList) :
        Function.update s.value t (stamp 32 (c.now + n.toNat)) u = stamp 32 (c.now + n.toNat) ∨
          s.xNextTaskUnblockTime ≤
            Function.update s.value t (stamp 32 (c.now + n.toNat)) u := by
      rcases mem_insertSorted.mp hu with rfl | hu
      · exact .inl (Function.update_self ..)
      · rw [hother hdelayed hu]
        exact .inr (h.next u hu)
    split
    · next hfirst =>
      refine ⟨hlisted _, fun u hu ↦ ?_⟩
      rcases hcases hu with heq | hle
      · change stamp 32 (c.now + n.toNat) ≤
          Function.update s.value t (stamp 32 (c.now + n.toNat)) u
        rw [heq]
        exact Nat.le_refl _
      · exact Nat.le_trans (Nat.le_of_lt hfirst) hle
    · next hfirst =>
      refine ⟨hlisted _, fun u hu ↦ ?_⟩
      rcases hcases hu with heq | hle
      · change s.xNextTaskUnblockTime ≤
          Function.update s.value t (stamp 32 (c.now + n.toNat)) u
        rw [heq]
        exact Nat.le_of_not_lt hfirst
      · exact hle

theorem beside_delay (n : Word) (indefinitely : Bool) (s : State τ) :
    Beside s (prvAddCurrentTaskToDelayedList t n indefinitely s) := by
  rw [prvAddCurrentTaskToDelayedList]
  split
  · exact ⟨rfl, rfl, rfl⟩
  · dsimp only
    split
    · exact ⟨rfl, rfl, rfl⟩
    · split <;> exact ⟨rfl, rfl, rfl⟩

end Tracks

section Follows

variable {τ : Type} [DecidableEq τ] {s s' : State τ} {c c' : Clock τ}

/-- The variables of the kernel follow the ideal clock. -/
structure Follows (s : State τ) (c : Clock τ) : Prop where
  tracks : Tracks c.now s c
  pended : s.xPendedTicks = stamp 32 c.pended
  bound : c.pended < 2 ^ 32
  suspended : s.uxSchedulerSuspended = c.depth
  called : s.xPendingReadyList = c.called
  idle : c.depth = 0 → c.pended = 0 ∧ c.called = []

omit [DecidableEq τ] in
theorem follows_init : Follows (init : State τ) Clock.init := by
  have hepoch : epoch 32 0 = 0 := Nat.zero_div _
  refine ⟨⟨⟨rfl, ?_, fun t ↦ ?_, fun t ↦ ?_, fun t ↦ ?_, fun t d hd ↦ ?_, ?_, ?_⟩, ?_⟩, rfl,
    Nat.two_pow_pos 32, rfl, rfl, fun _ ↦ ⟨rfl, rfl⟩⟩
  · change 0 = stamp 32 (epoch 32 0)
    rw [hepoch]
    rfl
  · simp [init, Clock.init]
  · simp [init, Clock.init]
  · simp [init, Clock.init]
  · cases hd
  · exact ⟨List.nodup_nil, List.nodup_nil, List.nodup_nil⟩
  · exact ⟨List.Pairwise.nil, List.Pairwise.nil⟩
  · intro t ht
    cases ht

/-- What the loop over the pending tasks does, and what it leaves alone. -/
theorem readyLoop_spec {last : ℕ} (ts : List τ) (h : Tracks last s c) :
    Tracks last (readyLoop ts s) (ts.foldl Clock.wake c) ∧
      (readyLoop ts s).xPendingReadyList = [] ∧
      (readyLoop ts s).xPendedTicks = s.xPendedTicks ∧
      (readyLoop ts s).uxSchedulerSuspended = s.uxSchedulerSuspended := by
  induction ts generalizing s c with
  | nil => exact ⟨h.beside .., rfl, rfl, rfl⟩
  | cons t ts ih => exact ih (h.wake t)

omit [DecidableEq τ] in
/-- The ticks that were held back pass one after the other. -/
theorem tickLoop_spec (n : ℕ) (h : Tracks c.now s c) (hs : s.uxSchedulerSuspended = 0) :
    ∃ s', tickLoop n s = some s' ∧ Tracks (Clock.advance^[n] c).now s' (Clock.advance^[n] c) ∧
      Beside s s' := by
  induction n generalizing s c with
  | zero => exact ⟨s, rfl, h, rfl, rfl, rfl⟩
  | succ n ih =>
    obtain ⟨s₁, htick, htracks, hbeside₁⟩ := h.tick hs
    obtain ⟨s', hloop, htracks', hbeside⟩ := ih htracks (hbeside₁.suspended.trans hs)
    refine ⟨s', ?_, htracks', hbeside.suspended.trans hbeside₁.suspended,
      hbeside.pended.trans hbeside₁.pended, hbeside.ready.trans hbeside₁.ready⟩
    rw [tickLoop, htick]
    exact hloop

theorem Follows.delay {t : τ} {n : Word} {indefinitely : Bool} (h : Follows s c)
    (hc : c.step (.delay t n indefinitely) = some c') :
    ∃ s', step s (.delay t n indefinitely) = some s' ∧ Follows s' c' := by
  rw [Clock.step] at hc
  split at hc
  · next henabled =>
    obtain ⟨hawake, hn⟩ := henabled
    obtain rfl := Option.some.inj hc
    obtain ⟨hsuspended, hpended, hready⟩ := beside_delay (t := t) n indefinitely s
    refine ⟨_, rfl, ?_, hpended.trans h.pended, h.bound, hsuspended.trans h.suspended,
      hready.trans h.called, h.idle⟩
    rw [Clock.sleepFor]
    split
    · next hforever =>
      rw [prvAddCurrentTaskToDelayedList, if_pos hforever]
      exact h.tracks.block hawake
    · next hfinite => exact h.tracks.delay hawake hn hfinite
  · cases hc

theorem Follows.event {t : τ} (h : Follows s c) (hc : c.step (.event t) = some c') :
    ∃ s', step s (.event t) = some s' ∧ Follows s' c' := by
  rw [Clock.step] at hc
  split at hc
  · obtain rfl := Option.some.inj hc
    refine ⟨_, rfl, ?_⟩
    by_cases hdepth : c.depth = 0
    · rw [xTaskRemoveFromEventList, if_pos (h.suspended.trans hdepth), if_pos hdepth]
      exact ⟨h.tracks.wake t, h.pended, h.bound, h.suspended, h.called, h.idle⟩
    · rw [xTaskRemoveFromEventList, h.suspended, if_neg hdepth, if_neg hdepth, h.called]
      exact ⟨h.tracks.beside .., h.pended, h.bound, rfl, rfl, fun hzero ↦ absurd hzero hdepth⟩
  · cases hc

theorem Follows.tick (h : Follows s c) (hc : c.step .tick = some c') :
    ∃ s', step s .tick = some s' ∧ Follows s' c' := by
  rw [Clock.step] at hc
  split at hc
  · next hdepth =>
    obtain rfl := Option.some.inj hc
    obtain ⟨s', htick, htracks, hbeside⟩ := h.tracks.tick (h.suspended.trans hdepth)
    exact ⟨s', htick, htracks, hbeside.pended.trans h.pended, h.bound,
      hbeside.suspended.trans h.suspended, hbeside.ready.trans h.called, h.idle⟩
  · next hdepth =>
    split at hc
    · next hbound =>
      obtain rfl := Option.some.inj hc
      rw [Ticks.step, xTaskIncrementTick, h.suspended, if_neg hdepth]
      refine ⟨_, rfl, h.tracks.beside .., ?_, hbound, rfl, h.called,
        fun hzero ↦ absurd hzero hdepth⟩
      dsimp only
      rw [h.pended]
      exact stamp_add c.pended 1
    · cases hc

theorem Follows.suspendAll (h : Follows s c) (hc : c.step .suspendAll = some c') :
    ∃ s', step s .suspendAll = some s' ∧ Follows s' c' := by
  obtain rfl := Option.some.inj hc
  refine ⟨_, rfl, h.tracks.beside .., h.pended, h.bound, ?_, h.called,
    fun hzero ↦ absurd hzero (Nat.succ_ne_zero _)⟩
  dsimp only
  rw [h.suspended]

theorem wakes_rest (ts : List τ) (c : Clock τ) :
    (ts.foldl Clock.wake c).now = c.now ∧ (ts.foldl Clock.wake c).depth = c.depth ∧
      (ts.foldl Clock.wake c).pended = c.pended ∧ (ts.foldl Clock.wake c).called = c.called := by
  induction ts generalizing c with
  | nil => exact ⟨rfl, rfl, rfl, rfl⟩
  | cons t ts ih => exact ih (c.wake t)

omit [DecidableEq τ] in
theorem advances_rest (n : ℕ) (c : Clock τ) :
    (Clock.advance^[n] c).depth = c.depth ∧ (Clock.advance^[n] c).called = c.called := by
  induction n generalizing c with
  | zero => exact ⟨rfl, rfl⟩
  | succ n ih => exact ih c.advance

/-- First those that were called wake, then the ticks that were held back pass. -/
theorem Tracks.resume (h : Tracks c.now s c) (hs : s.uxSchedulerSuspended = 0)
    (called : List τ) (n : ℕ) {s₁ : State τ}
    (hs₁ : s₁ = if called ≠ [] then prvResetNextTaskUnblockTime (readyLoop called s)
      else readyLoop called s) :
    s₁.xPendedTicks = s.xPendedTicks ∧ ∃ s', tickLoop n s₁ = some s' ∧
      Tracks (Clock.advance^[n] (called.foldl Clock.wake c)).now s'
        (Clock.advance^[n] (called.foldl Clock.wake c)) ∧
      s'.uxSchedulerSuspended = 0 ∧ s'.xPendingReadyList = [] := by
  obtain ⟨hloop, hready, hpended, hsuspended⟩ := readyLoop_spec called h
  rw [← (wakes_rest called c).1] at hloop
  obtain ⟨hreset, hbeside⟩ : Tracks (called.foldl Clock.wake c).now s₁
      (called.foldl Clock.wake c) ∧ Beside (readyLoop called s) s₁ := by
    rw [hs₁]
    split
    · exact ⟨hloop.toListed.reset, beside_reset _⟩
    · exact ⟨hloop, rfl, rfl, rfl⟩
  have hrunning := (hbeside.suspended.trans hsuspended).trans hs
  obtain ⟨s', hticks, htracks, hbeside'⟩ := tickLoop_spec n hreset hrunning
  exact ⟨hbeside.pended.trans hpended, s', hticks, htracks, hbeside'.suspended.trans hrunning,
    hbeside'.ready.trans (hbeside.ready.trans hready)⟩

theorem Follows.resumeAll (h : Follows s c) (hc : c.step .resumeAll = some c') :
    ∃ s', step s .resumeAll = some s' ∧ Follows s' c' := by
  rw [Clock.step] at hc
  split at hc
  · cases hc
  · next hdepth =>
    rw [Ticks.step, xTaskResumeAll, if_neg (h.suspended.trans_ne hdepth)]
    split at hc
    · next hone =>
      obtain rfl := Option.some.inj hc
      have hzero : s.uxSchedulerSuspended - 1 = 0 := by rw [h.suspended, hone]
      dsimp only
      rw [if_pos hzero, h.called]
      have hstart : Tracks c.now
          { s with
            uxSchedulerSuspended := s.uxSchedulerSuspended - 1
            xPendingReadyList := c.called }
          { c with depth := 0, called := [] } :=
        h.tracks.beside _ 0 c.pended s.xPendedTicks c.called []
      obtain ⟨hpended, s', hticks, htracks, hrunning, hready⟩ :=
        Tracks.resume (c := { c with depth := 0, called := [] }) hstart hzero c.called c.pended rfl
      obtain ⟨-, hdepth₁, hpended₁, hcalled₁⟩ :=
        wakes_rest c.called { c with depth := 0, called := [] }
      obtain ⟨hdepth₂, hcalled₂⟩ := advances_rest c.pended
        (c.called.foldl Clock.wake { c with depth := 0, called := [] })
      have hcount : s.xPendedTicks.toNat = c.pended := by
        rw [h.pended, toNat_stamp, Nat.mod_eq_of_lt h.bound]
      rw [hpended, hcount, hticks, hpended₁]
      refine ⟨_, rfl, htracks.beside .., rfl, Nat.two_pow_pos 32,
        hrunning.trans (hdepth₂.trans hdepth₁).symm, hready.trans (hcalled₂.trans hcalled₁).symm,
        fun _ ↦ ⟨rfl, hcalled₂.trans hcalled₁⟩⟩
    · next hone =>
      obtain rfl := Option.some.inj hc
      dsimp only
      rw [h.suspended, if_neg (show c.depth - 1 ≠ 0 by omega)]
      exact ⟨_, rfl, h.tracks.beside .., h.pended, h.bound, rfl, h.called, fun hzero ↦ by
        dsimp only at hzero
        omega⟩

theorem Follows.step (l : Label τ) (h : Follows s c) (hc : c.step l = some c') :
    ∃ s', step s l = some s' ∧ Follows s' c' := by
  cases l with
  | delay t n indefinitely => exact h.delay hc
  | event t => exact h.event hc
  | tick => exact h.tick hc
  | suspendAll => exact h.suspendAll hc
  | resumeAll => exact h.resumeAll hc

omit [DecidableEq τ] in
/-- Whoever is on one of the two delayed lists has its time still to come. -/
theorem Follows.asleep (h : Follows s c) (t : τ) :
    (t ∈ s.pxDelayedTaskList ∨ t ∈ s.pxOverflowDelayedTaskList) ↔
      ∃ d, c.sleep t = .till d ∧ c.now < d := by
  rw [h.tracks.delayed, h.tracks.overflow]
  constructor
  · rintro (⟨d, hd, -⟩ | ⟨d, hd, -⟩)
    · exact ⟨d, hd, (h.tracks.due t d hd).1⟩
    · exact ⟨d, hd, (h.tracks.due t d hd).1⟩
  · rintro ⟨d, hd, hlt⟩
    have hle := (h.tracks.due t d hd).2.1
    have hmono := epoch_mono (w := 32) (Nat.le_of_lt hlt)
    rcases Nat.lt_or_ge (epoch 32 c.now) (epoch 32 d) with hnext | hsame
    · exact .inr ⟨d, hd, by omega⟩
    · exact .inl ⟨d, hd, by omega⟩

/-- The lists, the counter and the assertion stay in step with a clock that does not
overflow, whatever the order of delays, events, ticks and suspensions. -/
theorem ticks_refine_clock {ls : List (Label τ)} (hc : run Clock.step Clock.init ls = some c) :
    ∃ s, run step init ls = some s ∧ s.xTickCount.toNat = c.now % 2 ^ 32 ∧
      (∀ t, (t ∈ s.pxDelayedTaskList ∨ t ∈ s.pxOverflowDelayedTaskList) ↔
        ∃ d, c.sleep t = .till d ∧ c.now < d) ∧
      (∀ t, t ∈ s.xSuspendedTaskList ↔ c.sleep t = .forever) ∧
      s.uxSchedulerSuspended = c.depth ∧ s.xPendedTicks.toNat = c.pended ∧
      s.xPendingReadyList = c.called := by
  obtain ⟨s, hrun, h⟩ := run_simulates (fun _ _ l _ ↦ Follows.step l) follows_init hc
  refine ⟨s, hrun, ?_, h.asleep, h.tracks.forever, h.suspended, ?_, h.called⟩
  · rw [h.tracks.count, toNat_stamp]
  · rw [h.pended, toNat_stamp, Nat.mod_eq_of_lt h.bound]

/-- One sleeps for three ticks and one without end; while the scheduler is suspended two
ticks pass and an event calls the second. -/
def twoSleepers : List (Label Bool) :=
  [.delay false 3 true, .delay true portMaxDelay true, .suspendAll, .tick, .event true, .tick,
    .resumeAll]

theorem ticks_refine_two_sleepers : ∃ s, run step init twoSleepers = some s ∧
    s.xTickCount.toNat = 2 ∧
    (false ∈ s.pxDelayedTaskList ∨ false ∈ s.pxOverflowDelayedTaskList) ∧
    true ∉ s.xSuspendedTaskList := by
  obtain ⟨s, hrun, hcount, hdelayed, hforever, -⟩ :=
    ticks_refine_clock (rfl : run Clock.step Clock.init twoSleepers = some _)
  refine ⟨s, hrun, hcount, (hdelayed false).mpr ⟨3, rfl, Nat.lt_succ_self 2⟩, ?_⟩
  rw [hforever]
  exact fun heq ↦ nomatch heq

end Follows

end Tanenbaum.Kernel.Ticks
