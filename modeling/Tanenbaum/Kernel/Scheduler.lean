import Tanenbaum.Lib.Runs
import Tanenbaum.Kernel.Selection

namespace Tanenbaum.Kernel.Scheduler

open Lib.Bytes Lib.Runs Lists ListUse Selection

def configMaxPriorities : ℕ := 56

def tskIdlePriority : ℕ := 0

/-- Where a task is: in no call that matters here, in one of the sections of
`xQueueSemaphoreTake`, asleep for a mutex or asleep for something else. -/
inductive Pc (μ : Type)
  | run
  | attempt (m : μ)
  | check (m : μ)
  | expired (m : μ)
  | disinherit (m : μ)
  | waiting (m : μ)
  | asleep
  deriving DecidableEq

def Pc.Awake {μ : Type} : Pc μ → Prop
  | .waiting _ => False
  | .asleep => False
  | _ => True

instance {μ : Type} : (pc : Pc μ) → Decidable pc.Awake
  | .waiting _ | .asleep => .isFalse id
  | .run | .attempt _ | .check _ | .expired _ | .disinherit _ => .isTrue trivial

/-- The variables of the scheduler and of the mutexes. A mutex without a holder is there
to be taken: its `uxMessagesWaiting` is one. The scheduler is suspended less than `2 ^ 32`
times over. -/
structure State (τ μ : Type) where
  uxPriority : τ → ℕ
  uxBasePriority : τ → ℕ
  uxMutexesHeld : τ → ℕ
  xEventListItem : τ → Word
  ready : Ready τ
  pxCurrentTCB : τ
  uxSchedulerSuspended : ℕ
  xPendingReadyList : List τ
  xYieldPending : Bool
  pendSV : Bool
  xMutexHolder : μ → Option τ
  xTasksWaitingToReceive : μ → List τ
  pc : τ → Pc μ
  xInheritanceOccurred : τ → Bool

/-- What the task that runs does, and what interrupts do. A tick comes with the tasks whose
time is up, in the order of the delayed list. -/
inductive Label (τ μ : Type)
  | take (m : μ)
  | go (timedOut : Bool)
  | give (m : μ)
  | block
  | suspendAll
  | resumeAll
  | wake (t : τ)
  | tick (expired : List τ)
  | pendSV

section Functions

variable {τ μ : Type} [DecidableEq τ]

/-- The value of the event list item of a task, lower for a higher priority. -/
def eventValue (p : ℕ) : Word := BitVec.ofNat 32 (configMaxPriorities - p)

def State.setPriority (s : State τ μ) (t : τ) (p : ℕ) : State τ μ :=
  { s with
    uxPriority := Function.update s.uxPriority t p
    xEventListItem := Function.update s.xEventListItem t (eventValue p) }

/-- A new priority, with the move to another list of a task that is ready. -/
def State.changePriority (s : State τ μ) (t : τ) (p : ℕ) : State τ μ :=
  if t ∈ s.ready.items (s.uxPriority t) then
    { s.setPriority t p with ready := (s.ready.remove (s.uxPriority t) t).add p t }
  else s.setPriority t p

def xTaskPriorityInherit (pxMutexHolder : Option τ) (s : State τ μ) : Bool × State τ μ :=
  match pxMutexHolder with
  | none => (false, s)
  | some h =>
    if s.uxPriority h < s.uxPriority s.pxCurrentTCB then
      (true, s.changePriority h (s.uxPriority s.pxCurrentTCB))
    else (decide (s.uxBasePriority h < s.uxPriority s.pxCurrentTCB), s)

/-- `none` when an assertion fails. -/
def xTaskPriorityDisinherit (pxMutexHolder : Option τ) (s : State τ μ) :
    Option (Bool × State τ μ) :=
  match pxMutexHolder with
  | none => some (false, s)
  | some h =>
    if h ≠ s.pxCurrentTCB ∨ s.uxMutexesHeld h = 0 then none
    else
      let s := { s with uxMutexesHeld := Function.update s.uxMutexesHeld h (s.uxMutexesHeld h - 1) }
      if s.uxPriority h ≠ s.uxBasePriority h then
        if s.uxMutexesHeld h = 0 then
          some (true, { s.setPriority h (s.uxBasePriority h) with
            ready := (s.ready.remove (s.uxPriority h) h).add (s.uxBasePriority h) h })
        else some (false, s)
      else some (false, s)

def vTaskPriorityDisinheritAfterTimeout (pxMutexHolder : Option τ)
    (uxHighestPriorityWaitingTask : ℕ) (s : State τ μ) : Option (State τ μ) :=
  match pxMutexHolder with
  | none => some s
  | some h =>
    if s.uxMutexesHeld h = 0 then none
    else
      let uxPriorityToUse := if s.uxBasePriority h < uxHighestPriorityWaitingTask then
        uxHighestPriorityWaitingTask else s.uxBasePriority h
      if s.uxPriority h ≠ uxPriorityToUse then
        if s.uxMutexesHeld h = 1 then
          if h = s.pxCurrentTCB then none else some (s.changePriority h uxPriorityToUse)
        else some s
      else some s

def prvGetDisinheritPriorityAfterTimeout (s : State τ μ) (m : μ) : ℕ :=
  match s.xTasksWaitingToReceive m with
  | [] => tskIdlePriority
  | t :: _ => configMaxPriorities - (s.xEventListItem t).toNat

/-- `portYIELD`, which sets the interrupt of `vTaskSwitchContext` pending. -/
def State.yield (s : State τ μ) : State τ μ := { s with pendSV := true }

def prvAddTaskToReadyList (t : τ) (s : State τ μ) : State τ μ :=
  { s with ready := s.ready.add (s.uxPriority t) t }

/-- What `xTaskRemoveFromEventList` does once the task is off its event list. -/
def unblock (t : τ) (s : State τ μ) : Bool × State τ μ :=
  let s := if s.uxSchedulerSuspended = 0 then prvAddTaskToReadyList t s
    else { s with xPendingReadyList := s.xPendingReadyList ++ [t] }
  if s.uxPriority t > s.uxPriority s.pxCurrentTCB then (true, { s with xYieldPending := true })
  else (false, s)

def State.goto (s : State τ μ) (t : τ) (pc : Pc μ) : State τ μ :=
  { s with pc := Function.update s.pc t pc }

/-- `vTaskSwitchContext`; `none` when no list has a task. -/
def vTaskSwitchContext (s : State τ μ) : Option (State τ μ) :=
  if s.uxSchedulerSuspended ≠ 0 then some { s with xYieldPending := true }
  else
    let s := { s with xYieldPending := false }
    s.ready.select.map fun (t, ready) ↦ { s with pxCurrentTCB := t, ready }

/-- The loop of `xTaskResumeAll` over the pending tasks. -/
def readyLoop : List τ → State τ μ → State τ μ
  | [], s => { s with xPendingReadyList := [] }
  | t :: ts, s =>
    let s := prvAddTaskToReadyList t s
    readyLoop ts (if s.uxPriority t ≥ s.uxPriority s.pxCurrentTCB then
      { s with xYieldPending := true } else s)

/-- Its ticks are interrupts that come right after. -/
def xTaskResumeAll (s : State τ μ) : Option (State τ μ) :=
  if s.uxSchedulerSuspended = 0 then none
  else
    let s := { s with uxSchedulerSuspended := s.uxSchedulerSuspended - 1 }
    if s.uxSchedulerSuspended = 0 then
      let s := readyLoop s.xPendingReadyList s
      some (if s.xYieldPending then s.yield else s)
    else some s

variable [DecidableEq μ]

/-- What `xQueueGenericSend` does for those who wait once the mutex is free. -/
def unblockFirst (m : μ) (xYieldRequired : Bool) (s : State τ μ) : State τ μ :=
  match s.xTasksWaitingToReceive m with
  | t :: ts =>
    let s := { s with
      xTasksWaitingToReceive := Function.update s.xTasksWaitingToReceive m ts }
    let (higher, s) := unblock t (s.goto t (.attempt m))
    if higher then s.yield else s
  | [] => if xYieldRequired then s.yield else s

/-- `xQueueGenericSend` of a mutex. -/
def give (m : μ) (s : State τ μ) : Option (State τ μ) := do
  let (xYieldRequired, s) ← xTaskPriorityDisinherit (s.xMutexHolder m) s
  return unblockFirst m xYieldRequired
    { s with xMutexHolder := Function.update s.xMutexHolder m none }

/-- `vTaskPlaceOnEventList`, with `prvAddCurrentTaskToDelayedList`, and the yield behind. -/
def place (m : μ) (s : State τ μ) : State τ μ :=
  let t := s.pxCurrentTCB
  { s.goto t (.waiting m) with
    xTasksWaitingToReceive := Function.update s.xTasksWaitingToReceive m
      (insertSorted s.xEventListItem t (s.xTasksWaitingToReceive m))
    ready := s.ready.remove (s.uxPriority t) t
    pendSV := true }

/-- The next section of `xQueueSemaphoreTake`: the attempt, the check while the scheduler is
suspended, and what follows when the time is up. -/
def take (timedOut : Bool) (s : State τ μ) : Option (State τ μ) :=
  let t := s.pxCurrentTCB
  match s.pc t with
  | .attempt m =>
    match s.xMutexHolder m with
    | none => some { s.goto t .run with
        xMutexHolder := Function.update s.xMutexHolder m (some t)
        uxMutexesHeld := Function.update s.uxMutexesHeld t (s.uxMutexesHeld t + 1) }
    | some _ => some (s.goto t (.check m))
  | .check m =>
    if timedOut then some (s.goto t (.expired m))
    else match s.xMutexHolder m with
      | none => some (s.goto t (.attempt m))
      | some h =>
        let (inherited, s) := xTaskPriorityInherit (some h) s
        some (place m { s with
          xInheritanceOccurred := Function.update s.xInheritanceOccurred t inherited })
  | .expired m =>
    match s.xMutexHolder m with
    | none => some (s.goto t (.attempt m))
    | some _ => some (s.goto t (if s.xInheritanceOccurred t then .disinherit m else .run))
  | .disinherit m =>
    (vTaskPriorityDisinheritAfterTimeout (s.xMutexHolder m)
      (prvGetDisinheritPriorityAfterTimeout s m) s).map fun s ↦ s.goto t .run
  | _ => none

/-- The current task goes to sleep for something that is not a mutex. -/
def block (s : State τ μ) : State τ μ :=
  { s.goto s.pxCurrentTCB .asleep with
    ready := s.ready.remove (s.uxPriority s.pxCurrentTCB) s.pxCurrentTCB
    pendSV := true }

/-- The time of a task is up: off its event list, if it is on one, and ready. -/
def expire (t : τ) (s : State τ μ) : State τ μ :=
  prvAddTaskToReadyList t (match s.pc t with
    | .waiting m => { s.goto t (.attempt m) with
        xTasksWaitingToReceive := Function.update s.xTasksWaitingToReceive m
          ((s.xTasksWaitingToReceive m).erase t) }
    | _ => s.goto t .run)

/-- The loop of `xTaskIncrementTick` over the delayed list. -/
def expireLoop : List τ → Bool → State τ μ → Bool × State τ μ
  | [], xSwitchRequired, s => (xSwitchRequired, s)
  | t :: ts, xSwitchRequired, s =>
    let s := expire t s
    expireLoop ts (xSwitchRequired || decide (s.uxPriority t > s.uxPriority s.pxCurrentTCB)) s

/-- The expiries, then the time slice, then a yield that is pending. While the scheduler is
suspended a tick is only counted. -/
def xTaskIncrementTick (expired : List τ) (s : State τ μ) : Bool × State τ μ :=
  if s.uxSchedulerSuspended = 0 then
    let (xSwitchRequired, s) := expireLoop expired false s
    (xSwitchRequired || decide ((s.ready.items (s.uxPriority s.pxCurrentTCB)).length > 1) ||
      s.xYieldPending, s)
  else (false, s)

def step (s : State τ μ) : Label τ μ → Option (State τ μ)
  | .take m => some { s.goto s.pxCurrentTCB (.attempt m) with
      xInheritanceOccurred := Function.update s.xInheritanceOccurred s.pxCurrentTCB false }
  | .go timedOut => take timedOut s
  | .give m => give m s
  | .block => some (block s)
  | .suspendAll => some { s with uxSchedulerSuspended := s.uxSchedulerSuspended + 1 }
  | .resumeAll => xTaskResumeAll s
  | .wake t =>
    let (higher, s) := unblock t (s.goto t .run)
    some (if higher then s.yield else s)
  | .tick expired =>
    let (xSwitchRequired, s) := xTaskIncrementTick expired s
    some (if xSwitchRequired then s.yield else s)
  | .pendSV => (vTaskSwitchContext s).map fun s ↦ { s with pendSV := false }

/-- `prvAddNewTaskToReadyList` before the scheduler runs. -/
def prvAddNewTaskToReadyList (s : State τ μ) (t : τ) : State τ μ :=
  let s := if s.uxPriority s.pxCurrentTCB ≤ s.uxPriority t then { s with pxCurrentTCB := t } else s
  prvAddTaskToReadyList t (s.goto t .run)

/-- Before any task is created, with the priorities they will have. -/
def blank (prio : τ → ℕ) (t : τ) : State τ μ where
  uxPriority := prio
  uxBasePriority := prio
  uxMutexesHeld := fun _ ↦ 0
  xEventListItem := fun t ↦ eventValue (prio t)
  ready := ⟨fun _ ↦ [], fun _ ↦ none, tskIdlePriority⟩
  pxCurrentTCB := t
  uxSchedulerSuspended := 0
  xPendingReadyList := []
  xYieldPending := false
  pendSV := false
  xMutexHolder := fun _ ↦ none
  xTasksWaitingToReceive := fun _ ↦ []
  pc := fun _ ↦ .asleep
  xInheritanceOccurred := fun _ ↦ false

/-- The scheduler is started once these tasks have been created. -/
def start (prio : τ → ℕ) (t : τ) (ts : List τ) : State τ μ :=
  (t :: ts).foldl prvAddNewTaskToReadyList (blank prio t)

end Functions

section Contract

variable {τ μ : Type}

/-- The current task can go on. -/
def State.Runs (s : State τ μ) : Prop := s.pendSV = false ∧ s.uxSchedulerSuspended = 0

/-- What callers see to: a task that takes a mutex holds none; the idle task does not wait;
nobody waits or uses a mutex while the scheduler is suspended; and a mutex is given back by
its holder. The tasks on the delayed list are asleep, and on it once. -/
def Legal (idle : τ) (s : State τ μ) : Label τ μ → Prop
  | .take _ => s.Runs ∧ s.pc s.pxCurrentTCB = .run ∧ s.pxCurrentTCB ≠ idle ∧
    s.uxMutexesHeld s.pxCurrentTCB = 0
  | .go _ => s.Runs ∧ s.pc s.pxCurrentTCB ≠ .run
  | .give m => s.Runs ∧ s.pc s.pxCurrentTCB = .run ∧ s.xMutexHolder m = some s.pxCurrentTCB
  | .block => s.Runs ∧ s.pc s.pxCurrentTCB = .run ∧ s.pxCurrentTCB ≠ idle
  | .suspendAll => s.pendSV = false ∧ s.pc s.pxCurrentTCB = .run
  | .resumeAll => s.pendSV = false ∧ s.uxSchedulerSuspended ≠ 0
  | .wake t => s.pc t = .asleep
  | .tick expired => expired.Nodup ∧ ∀ t ∈ expired, ¬ (s.pc t).Awake
  | .pendSV => s.pendSV = true

instance (s : State τ μ) : Decidable s.Runs := inferInstanceAs (Decidable (_ ∧ _))

instance [DecidableEq τ] [DecidableEq μ] (idle : τ) (s : State τ μ) :
    (l : Label τ μ) → Decidable (Legal idle s l)
  | .take _ => inferInstanceAs (Decidable (_ ∧ _ ∧ _ ∧ _))
  | .go _ => inferInstanceAs (Decidable (_ ∧ _))
  | .give _ => inferInstanceAs (Decidable (_ ∧ _ ∧ _))
  | .block => inferInstanceAs (Decidable (_ ∧ _ ∧ _))
  | .suspendAll => inferInstanceAs (Decidable (_ ∧ _))
  | .resumeAll => inferInstanceAs (Decidable (_ ∧ _))
  | .wake _ => inferInstanceAs (Decidable (_ = _))
  | .tick expired => inferInstanceAs (Decidable (expired.Nodup ∧ ∀ t ∈ expired, _))
  | .pendSV => inferInstanceAs (Decidable (_ = _))

/-- No wait for a mutex times out, as in the calls with `portMAX_DELAY`. -/
def Untimed (s : State τ μ) : Label τ μ → Prop
  | .go timedOut => timedOut = false
  | .tick expired => ∀ t ∈ expired, ∀ m, s.pc t ≠ .waiting m
  | _ => True

/-- Whoever gives a mutex back has its own priority, or else the first in line has a higher one
than that. -/
def Warranted (s : State τ μ) : Label τ μ → Prop
  | .give m => ∀ t ∈ (s.xTasksWaitingToReceive m).head?,
    s.uxPriority s.pxCurrentTCB = s.uxBasePriority s.pxCurrentTCB ∨
      s.uxBasePriority s.pxCurrentTCB < s.uxPriority t
  | _ => True

end Contract

end Tanenbaum.Kernel.Scheduler
