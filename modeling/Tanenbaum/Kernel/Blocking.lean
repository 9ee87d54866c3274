import Tanenbaum.Lib.Runs
import Tanenbaum.Lib.Waiting
import Tanenbaum.Kernel.ListUse
import Mathlib.Data.Fintype.Card

namespace Tanenbaum.Kernel.Blocking

open Lib.Bytes Lib.Runs Lib.Waiting Lists ListUse

/-- `xQueueReceive` (or `xQueueSemaphoreTake`), `xQueuePeek` and `xQueueGenericSend`. -/
inductive Kind
  | receive
  | peek
  | send
  deriving DecidableEq

/-- `xTasksWaitingToReceive` and `xTasksWaitingToSend`. -/
inductive EventList
  | toReceive
  | toSend
  deriving DecidableEq

def Kind.list : Kind → EventList
  | .receive | .peek => .toReceive
  | .send => .toSend

/-- What a task does when it has unlocked the queue. -/
inductive After
  | retry
  | expired
  deriving DecidableEq

/-- Where a task is in one of the blocking functions: each place is followed by
one critical section, or by one call that only the running task makes. -/
inductive Pc
  | idle
  | attempt (k : Kind)
  | suspend (k : Kind)
  | lock (k : Kind)
  | timeout (k : Kind)
  | check (k : Kind)
  | place (k : Kind)
  | unlockTx (k : Kind) (a : After)
  | unlockRx (k : Kind) (a : After)
  | resume (k : Kind) (a : After)
  | recheck (k : Kind)
  deriving DecidableEq

/-- The queue, the scheduler and the tasks. The lock that is kept for the tasks
waiting to receive is `cTxLock`, the other one `cRxLock`; `none` is `queueUNLOCKED`. -/
structure State (τ : Type) where
  uxMessagesWaiting : ℕ
  waiting : EventList → List τ
  lock : EventList → Option ℕ
  suspended : Option τ
  pc : τ → Pc

section Functions

variable {τ : Type} [DecidableEq τ]

def State.goto (s : State τ) (t : τ) (p : Pc) : State τ :=
  { s with pc := Function.update s.pc t p }

/-- The first task on the list becomes ready, or pending when the scheduler is suspended. -/
def xTaskRemoveFromEventList (l : EventList) (s : State τ) : State τ :=
  { s with waiting := Function.update s.waiting l (s.waiting l).tail }

def notify (l : EventList) (s : State τ) : State τ :=
  if s.waiting l ≠ [] then xTaskRemoveFromEventList l s else s

/-- The loop of `prvUnlockQueue`. -/
def unlockLoop : ℕ → List τ → List τ
  | 0, ws => ws
  | _ + 1, [] => []
  | k + 1, _ :: ws => unlockLoop k ws

/-- One half of `prvUnlockQueue`. -/
def unlock (l : EventList) (s : State τ) : State τ :=
  { s with
    waiting := Function.update s.waiting l (unlockLoop ((s.lock l).getD 0) (s.waiting l))
    lock := Function.update s.lock l none }

def prvLockQueue (s : State τ) : State τ :=
  { s with lock := fun l ↦ if s.lock l = none then some 0 else s.lock l }

def vTaskPlaceOnEventList (value : τ → Word) (l : EventList) (t : τ) (s : State τ) : State τ :=
  { s with waiting := Function.update s.waiting l (insertSorted value t (s.waiting l)) }

variable (uxLength : ℕ)

/-- The critical section at the head of the loop; `none` when the task would have to wait. -/
def attempt (k : Kind) (s : State τ) : Option (State τ) :=
  match k with
  | .receive => if 0 < s.uxMessagesWaiting then
      some (notify .toSend { s with uxMessagesWaiting := s.uxMessagesWaiting - 1 }) else none
  | .peek => if 0 < s.uxMessagesWaiting then some (notify .toReceive s) else none
  | .send => if s.uxMessagesWaiting < uxLength then
      some (notify .toReceive { s with uxMessagesWaiting := s.uxMessagesWaiting + 1 }) else none

/-- `prvIsQueueEmpty` for the tasks that receive, `prvIsQueueFull` for those that send. -/
def MustWait (k : Kind) (s : State τ) : Prop :=
  s.uxMessagesWaiting = match k with
    | .receive | .peek => 0
    | .send => uxLength

instance (k : Kind) (s : State τ) : Decidable (MustWait uxLength k s) :=
  inferInstanceAs (Decidable (_ = _))

/-- A task that waited for room gives up at once, one that waited for an item looks again. -/
def afterResume : After → Kind → Pc
  | .retry, k => .attempt k
  | .expired, .send => .idle
  | .expired, k => .recheck k

/-- The next step of a task. The choice stands for the time: that the caller does
not want to wait, or that `xTaskCheckForTimeOut` finds its wait expired. -/
def taskStep (value : τ → Word) (t : τ) (choice : Bool) (s : State τ) : Option (State τ) :=
  match s.pc t with
  | .idle => none
  | .attempt k => match attempt uxLength k s with
    | some s' => some (s'.goto t .idle)
    | none => some (s.goto t (if choice then .idle else .suspend k))
  | .suspend k => some ({ s with suspended := some t }.goto t (.lock k))
  | .lock k => some ((prvLockQueue s).goto t (.timeout k))
  | .timeout k => some (s.goto t (if choice then .unlockTx k .expired else .check k))
  | .check k => some (s.goto t (if MustWait uxLength k s then .place k else .unlockTx k .retry))
  | .place k => some ((vTaskPlaceOnEventList value k.list t s).goto t (.unlockTx k .retry))
  | .unlockTx k a => some ((unlock .toReceive s).goto t (.unlockRx k a))
  | .unlockRx k a => some ((unlock .toSend s).goto t (.resume k a))
  | .resume k a => some ({ s with suspended := none }.goto t (afterResume a k))
  | .recheck k => some (s.goto t (if MustWait uxLength k s then .idle else .attempt k))

variable [Fintype τ]

/-- `prvIncrementQueueTxLock` and `prvIncrementQueueRxLock`. -/
def prvIncrementQueueLock (l : EventList) (k : ℕ) (s : State τ) : State τ :=
  if k < Fintype.card τ then { s with lock := Function.update s.lock l (some (k + 1)) } else s

def notifyFromISR (l : EventList) (s : State τ) : State τ :=
  match s.lock l with
  | none => notify l s
  | some k => prvIncrementQueueLock l k s

/-- Also `xQueueGiveFromISR`. -/
def xQueueGenericSendFromISR (s : State τ) : State τ :=
  if s.uxMessagesWaiting < uxLength then
    notifyFromISR .toReceive { s with uxMessagesWaiting := s.uxMessagesWaiting + 1 }
  else s

def xQueueReceiveFromISR (s : State τ) : State τ :=
  if 0 < s.uxMessagesWaiting then
    notifyFromISR .toSend { s with uxMessagesWaiting := s.uxMessagesWaiting - 1 }
  else s

inductive Label (τ : Type)
  | call (t : τ) (k : Kind)
  | task (t : τ) (choice : Bool)
  | sendFromISR
  | receiveFromISR
  | tick (t : τ)

/-- Only the task that suspended the scheduler runs until it resumes it; else every
task that does not wait may be chosen. -/
def Runnable (s : State τ) (t : τ) : Prop :=
  s.suspended = some t ∨
    s.suspended = none ∧ t ∉ s.waiting .toReceive ∧ t ∉ s.waiting .toSend

instance (s : State τ) (t : τ) : Decidable (Runnable s t) :=
  inferInstanceAs (Decidable (_ ∨ _))

/-- Tasks, interrupts, and the tick that ends the wait of a task. Ticks are held
back while the scheduler is suspended. -/
def step (value : τ → Word) (s : State τ) : Label τ → Option (State τ)
  | .call t k => if Runnable s t ∧ s.pc t = .idle then some (s.goto t (.attempt k)) else none
  | .task t choice => if Runnable s t then taskStep uxLength value t choice s else none
  | .sendFromISR => some (xQueueGenericSendFromISR uxLength s)
  | .receiveFromISR => some (xQueueReceiveFromISR s)
  | .tick t => if s.suspended = none then
      some { s with waiting := fun l ↦ (s.waiting l).erase t } else none

/-- A new queue, with all tasks elsewhere. -/
def init : State τ := ⟨0, fun _ ↦ [], fun _ ↦ none, none, fun _ ↦ .idle⟩

end Functions

section Invariant

variable {τ : Type} {l : EventList} {k : Kind} {t u : τ} {s s' : State τ} {n : ℕ}

/-- The task goes to the head of its loop next. -/
def Pc.Retries (l : EventList) : Pc → Prop
  | .attempt k | .unlockTx k .retry | .unlockRx k .retry | .resume k .retry => k.list = l
  | _ => False

instance (l : EventList) : DecidablePred (Pc.Retries l)
  | .attempt k | .unlockTx k .retry | .unlockRx k .retry | .resume k .retry =>
    inferInstanceAs (Decidable (k.list = l))
  | .idle | .suspend _ | .lock _ | .timeout _ | .check _ | .place _ | .unlockTx _ .expired
  | .unlockRx _ .expired | .resume _ .expired | .recheck _ => inferInstanceAs (Decidable False)

/-- Between `vTaskSuspendAll` and `xTaskResumeAll`. -/
def Pc.Suspends : Pc → Prop
  | .lock _ | .timeout _ | .check _ | .place _ | .unlockTx .. | .unlockRx .. | .resume .. => True
  | _ => False

/-- Between `prvLockQueue` and the half of `prvUnlockQueue` that serves the list. -/
def Pc.Locks (l : EventList) : Pc → Prop
  | .timeout _ | .check _ | .place _ | .unlockTx .. => True
  | .unlockRx .. => l = .toSend
  | _ => False

/-- What the tasks on a list wait for. -/
def State.avail (n : ℕ) (s : State τ) : EventList → ℕ
  | .toReceive => s.uxMessagesWaiting
  | .toSend => n - s.uxMessagesWaiting

def State.owed (s : State τ) (l : EventList) : ℕ := (s.lock l).getD 0

variable [DecidableEq τ] [Fintype τ]

def State.awake (s : State τ) (l : EventList) : Finset τ :=
  Finset.univ.filter fun t ↦ (s.pc t).Retries l ∧ t ∉ s.waiting l

def State.resource (n : ℕ) (s : State τ) (l : EventList) : Resource τ :=
  ⟨s.avail n l, s.waiting l, s.owed l, s.awake l⟩

structure Inv (n : ℕ) (s : State τ) : Prop where
  bound : s.uxMessagesWaiting ≤ n
  nodup : ∀ l, (s.waiting l).Nodup
  retries : ∀ l, ∀ t ∈ s.waiting l, (s.pc t).Retries l
  suspends : ∀ t, (s.pc t).Suspends ↔ s.suspended = some t
  locks : ∀ l, s.lock l ≠ none ↔ ∃ t, (s.pc t).Locks l
  place : ∀ t k, s.pc t = .place k →
    s.avail n k.list ≤ s.owed k.list ∨ Fintype.card τ ≤ s.owed k.list
  balanced : ∀ l, (s.resource n l).Balanced

theorem mem_awake : t ∈ s.awake l ↔ (s.pc t).Retries l ∧ t ∉ s.waiting l := by
  simp [State.awake]

theorem Pc.Locks.suspends {p : Pc} (h : p.Locks l) : p.Suspends := by
  cases p <;> trivial

theorem awake_subset (hpc : ∀ u, (s.pc u).Retries l → u ∉ s.waiting l → (s'.pc u).Retries l)
    (hwaiting : s'.waiting l ⊆ s.waiting l) : s.awake l ⊆ s'.awake l := by
  intro u hu
  rw [mem_awake] at hu ⊢
  exact ⟨hpc u hu.1 hu.2, fun hmem ↦ hu.2 (hwaiting hmem)⟩

/-- Only the task that runs has suspended the scheduler. -/
theorem Inv.not_suspends (h : Inv n s) (hrun : Runnable s t) (hne : u ≠ t) :
    ¬ (s.pc u).Suspends := by
  rw [h.suspends]
  rcases hrun with hrun | ⟨hrun, -⟩
  · rw [hrun]
    exact fun heq ↦ hne (Option.some.inj heq).symm
  · rw [hrun]
    exact fun heq ↦ by cases heq

theorem Inv.lock_iff (h : Inv n s) (hrun : Runnable s t) :
    s.lock l ≠ none ↔ (s.pc t).Locks l := by
  rw [h.locks]
  refine ⟨fun ⟨u, hu⟩ ↦ ?_, fun ht ↦ ⟨t, ht⟩⟩
  by_cases hne : u = t
  · rwa [← hne]
  · exact absurd hu.suspends (h.not_suspends hrun hne)

/-- A step of a task: what there is to show of its new place. -/
theorem Inv.moved {p : Pc} (h : Inv n s) (hrun : Runnable s t)
    (hpc : s'.pc = Function.update s.pc t p) (hbound : s'.uxMessagesWaiting ≤ n)
    (hnodup : ∀ l, (s'.waiting l).Nodup) (hretries : ∀ l, ∀ u ∈ s'.waiting l, (s'.pc u).Retries l)
    (hsuspended : s'.suspended = some t ∧ p.Suspends ∨ s'.suspended = none ∧ ¬ p.Suspends)
    (hlocks : ∀ l, s'.lock l ≠ none ↔ p.Locks l)
    (hplace : ∀ k, p = .place k →
      s'.avail n k.list ≤ s'.owed k.list ∨ Fintype.card τ ≤ s'.owed k.list)
    (hbalanced : ∀ l, (s'.resource n l).Balanced) : Inv n s' := by
  have hself : s'.pc t = p := by rw [hpc, Function.update_self]
  have hother {u : τ} (hne : u ≠ t) : s'.pc u = s.pc u := by
    rw [hpc, Function.update_of_ne hne]
  refine ⟨hbound, hnodup, hretries, fun u ↦ ?_, fun l ↦ ?_, fun u k hu ↦ ?_, hbalanced⟩
  · by_cases hne : u = t
    · rw [hne, hself]
      rcases hsuspended with ⟨heq, hp⟩ | ⟨heq, hp⟩
      · simp [heq, hp]
      · simp [heq, hp]
    · rw [hother hne]
      refine iff_of_false (h.not_suspends hrun hne) fun heq ↦ ?_
      rcases hsuspended with ⟨heq', -⟩ | ⟨heq', -⟩
      · exact hne (Option.some.inj (heq.symm.trans heq'))
      · cases heq.symm.trans heq'
  · rw [hlocks]
    refine ⟨fun hp ↦ ⟨t, by rwa [hself]⟩, fun ⟨u, hu⟩ ↦ ?_⟩
    by_cases hne : u = t
    · rwa [hne, hself] at hu
    · rw [hother hne] at hu
      exact absurd hu.suspends (h.not_suspends hrun hne)
  · by_cases hne : u = t
    · rw [hne, hself] at hu
      exact hplace k hu
    · rw [hother hne] at hu
      have hsuspends : (s.pc u).Suspends := by rw [hu]; trivial
      exact absurd hsuspends (h.not_suspends hrun hne)

theorem Inv.suspended_eq (h : Inv n s) (hrun : Runnable s t) :
    s.suspended = some t ∧ (s.pc t).Suspends ∨ s.suspended = none ∧ ¬ (s.pc t).Suspends := by
  rw [h.suspends]
  rcases hrun with hrun | ⟨hrun, -⟩
  · exact .inl ⟨hrun, hrun⟩
  · exact .inr ⟨hrun, by simp [hrun]⟩

omit [Fintype τ] in
theorem retries_update {p : Pc} (hkeep : (s.pc t).Retries l → p.Retries l)
    (hu : (s.pc u).Retries l) : (Function.update s.pc t p u).Retries l := by
  by_cases hne : u = t
  · rw [hne, Function.update_self]
    exact hkeep (hne ▸ hu)
  · rwa [Function.update_of_ne hne]

theorem Inv.balanced_of_move {p : Pc} (h : Inv n s) (hpc : s'.pc = Function.update s.pc t p)
    (havail : s'.avail n l ≤ s.avail n l) (hwaiting : s'.waiting l = s.waiting l)
    (howed : s'.owed l = s.owed l) (hkeep : (s.pc t).Retries l → p.Retries l) :
    (s'.resource n l).Balanced := by
  refine (h.balanced l).mono havail (by rw [State.resource, hwaiting]; rfl) howed ?_
  refine awake_subset (fun u hu _ ↦ ?_) (by rw [hwaiting]; exact List.Subset.refl _)
  rw [hpc]
  exact retries_update hkeep hu

/-- A move that leaves the lists alone. -/
theorem Inv.retries_of_move {p : Pc} (h : Inv n s) (hpc : s'.pc = Function.update s.pc t p)
    (hwaiting : ∀ l, s'.waiting l ⊆ s.waiting l)
    (hkeep : ∀ l, t ∈ s'.waiting l → (s.pc t).Retries l → p.Retries l) :
    ∀ l, ∀ u ∈ s'.waiting l, (s'.pc u).Retries l := by
  intro l u hu
  have hold := h.retries l u (hwaiting l hu)
  rw [hpc]
  by_cases hne : u = t
  · subst hne
    rw [Function.update_self]
    exact hkeep l hu hold
  · rwa [Function.update_of_ne hne]

/-- A step that only moves on. A task may turn away from what it wants when there is none. -/
theorem Inv.goto {p₀ p : Pc} (h : Inv n s) (hrun : Runnable s t) (hpc : s.pc t = p₀)
    (hsuspends : p₀.Suspends ↔ p.Suspends) (hlocks : ∀ l, p₀.Locks l ↔ p.Locks l)
    (hkeep : ∀ l, p₀.Retries l → p.Retries l ∨ s.avail n l = 0 ∧ t ∉ s.waiting l)
    (hplace : ∀ k, p = .place k → s.avail n k.list = 0) : Inv n (s.goto t p) := by
  subst hpc
  refine h.moved hrun rfl h.bound h.nodup ?_ ?_ ?_ ?_ ?_
  · refine h.retries_of_move rfl (fun l ↦ List.Subset.refl _) fun l ht hold ↦ ?_
    exact (hkeep l hold).resolve_right fun hnone ↦ hnone.2 ht
  · rw [← hsuspends]
    exact h.suspended_eq hrun
  · intro l
    rw [← hlocks]
    exact h.lock_iff hrun
  · intro k hk
    exact .inl (by rw [show (s.goto t p).avail n k.list = 0 from hplace k hk]; exact Nat.zero_le _)
  · intro l
    by_cases hold : (s.pc t).Retries l
    · rcases hkeep l hold with hp | ⟨hzero, -⟩
      · exact h.balanced_of_move rfl le_rfl rfl rfl fun _ ↦ hp
      · exact .of_avail hzero
    · exact h.balanced_of_move rfl le_rfl rfl rfl fun hold' ↦ absurd hold' hold

/-- A step from a place where the task is not about to retry. -/
theorem Inv.goto_of_not {p₀ p : Pc} (h : Inv n s) (hrun : Runnable s t) (hpc : s.pc t = p₀)
    (hsuspends : p₀.Suspends ↔ p.Suspends) (hlocks : ∀ l, p₀.Locks l ↔ p.Locks l)
    (hkeep : ∀ l, ¬ p₀.Retries l) (hplace : ∀ k, p ≠ .place k) : Inv n (s.goto t p) :=
  h.goto hrun hpc hsuspends hlocks (fun l hold ↦ absurd hold (hkeep l))
    fun k hk ↦ absurd hk (hplace k)

omit [DecidableEq τ] [Fintype τ] in
theorem notify_eq (l : EventList) (s : State τ) :
    notify l s = { s with waiting := Function.update s.waiting l (s.waiting l).tail } := by
  rw [notify]
  split
  · rfl
  · next hnil =>
    have htail : (s.waiting l).tail = s.waiting l := by
      rw [not_not.mp hnil]
      rfl
    rw [htail, Function.update_eq_self]

/-- One more to take, and the first of those who wait for it woken. -/
theorem Inv.balanced_notify (h : Inv n s)
    (hpc : ∀ u, (s.pc u).Retries l → (s'.pc u).Retries l)
    (havail : s'.avail n l ≤ s.avail n l + 1) (hwaiting : s'.waiting l = (s.waiting l).tail)
    (howed : s.owed l = 0) (howed' : s'.owed l = 0) : (s'.resource n l).Balanced := by
  cases hlist : s.waiting l with
  | nil =>
    rw [hlist] at hwaiting
    exact fun hne ↦ absurd hwaiting hne
  | cons w ws =>
    rw [hlist, List.tail_cons] at hwaiting
    have hnodup := h.nodup l
    have hretries := h.retries l w (by rw [hlist]; exact List.mem_cons_self ..)
    rw [hlist, List.nodup_cons] at hnodup
    refine (h.balanced l).wake [w] ?_ (List.nodup_singleton w) ?_ ?_ howed' fun _ ↦ ?_
    · change s.waiting l = [w] ++ s'.waiting l
      rw [hlist, hwaiting, List.singleton_append]
    · refine awake_subset (fun u hu _ ↦ hpc u hu) ?_
      rw [hwaiting, hlist]
      exact List.subset_cons_self w ws
    · intro u hu
      obtain rfl := List.mem_singleton.mp hu
      change u ∈ s'.awake l ∧ u ∉ s.awake l
      rw [mem_awake, mem_awake, hwaiting, hlist]
      exact ⟨⟨hpc u hretries, hnodup.1⟩, fun hmem ↦ hmem.2 (List.mem_cons_self ..)⟩
    · change s'.avail n l + s.owed l ≤ s.avail n l + 1 ∧ s.owed l ≤ 1
      omega

theorem Inv.outside (h : Inv n s) (hrun : Runnable s t) (hpc : ¬ (s.pc t).Suspends) :
    s.suspended = none ∧ (∀ l, t ∉ s.waiting l) ∧ ∀ l, s.lock l = none := by
  have hsuspended := (h.suspended_eq hrun).resolve_left fun hnot ↦ hpc hnot.2
  refine ⟨hsuspended.1, fun l ↦ ?_, fun l ↦ ?_⟩
  · rcases hrun with hrun | ⟨-, hreceive, hsend⟩
    · cases hsuspended.1.symm.trans hrun
    · cases l
      · exact hreceive
      · exact hsend
  · by_contra hlock
    exact hpc ((h.lock_iff hrun).mp hlock).suspends

omit [DecidableEq τ] [Fintype τ] in
theorem tail_sublist (s : State τ) (l l' : EventList) :
    (Function.update s.waiting l (s.waiting l).tail l').Sublist (s.waiting l') := by
  by_cases hne : l' = l
  · subst hne
    rw [Function.update_self]
    exact List.tail_sublist _
  · rw [Function.update_of_ne hne]

/-- A task that got what it wanted goes, and the first of a list is told. -/
theorem Inv.served {m : ℕ} (h : Inv n s) (hrun : Runnable s t) (hpc : s.pc t = .attempt k)
    (hm : m ≤ n) (hs' : s' = (notify l { s with uxMessagesWaiting := m }).goto t .idle)
    (hbalanced : ∀ l, (s'.resource n l).Balanced) : Inv n s' := by
  have hnot : ¬ (s.pc t).Suspends := by
    rw [hpc]
    exact fun hfalse ↦ hfalse
  obtain ⟨hsuspended, hout, hlock⟩ := h.outside hrun hnot
  rw [notify_eq] at hs'
  have hpc' : s'.pc = Function.update s.pc t .idle := by rw [hs']; rfl
  have hwaiting (l' : EventList) : s'.waiting l' ⊆ s.waiting l' := by
    rw [hs']
    exact (tail_sublist s l l').subset
  refine h.moved hrun hpc' ?_ ?_ ?_ ?_ ?_ ?_ hbalanced
  · rw [hs']
    exact hm
  · intro l'
    refine (h.nodup l').sublist ?_
    rw [hs']
    exact tail_sublist s l l'
  · exact h.retries_of_move hpc' hwaiting fun l' hmem ↦ absurd (hwaiting l' hmem) (hout l')
  · exact .inr ⟨by rw [hs']; exact hsuspended, fun hfalse ↦ hfalse⟩
  · intro l'
    refine iff_of_false ?_ fun hfalse ↦ hfalse
    rw [hs']
    exact not_not.mpr (hlock l')
  · intro k' hk'
    cases hk'

theorem awake_subset_insert {p : Pc} (hpc : s'.pc = Function.update s.pc t p)
    (hwaiting : s'.waiting l ⊆ s.waiting l) : s.awake l ⊆ insert t (s'.awake l) := by
  intro u hu
  rw [mem_awake] at hu
  rw [Finset.mem_insert, mem_awake, hpc]
  by_cases hne : u = t
  · exact .inl hne
  · rw [Function.update_of_ne hne]
    exact .inr ⟨hu.1, fun hmem ↦ hu.2 (hwaiting hmem)⟩

/-- A task that leaves everything there wakes another in its place. -/
theorem Inv.balanced_relay {p : Pc} (h : Inv n s) (hpc : s'.pc = Function.update s.pc t p)
    (havail : s'.avail n l = s.avail n l) (hwaiting : s'.waiting l = (s.waiting l).tail)
    (howed : s'.owed l = s.owed l) (ht : t ∉ s.waiting l) : (s'.resource n l).Balanced := by
  cases hlist : s.waiting l with
  | nil =>
    rw [hlist] at hwaiting
    exact fun hne ↦ absurd hwaiting hne
  | cons w ws =>
    rw [hlist, List.tail_cons] at hwaiting
    have hw : w ∈ s.waiting l := by
      rw [hlist]
      exact List.mem_cons_self ..
    have hnodup := h.nodup l
    rw [hlist, List.nodup_cons] at hnodup
    refine (h.balanced l).relay (t := t) (w := w) havail ?_ howed ?_ ?_ ?_
    · change s.waiting l = w :: s'.waiting l
      rw [hlist, hwaiting]
    · refine awake_subset_insert hpc ?_
      rw [hwaiting, hlist]
      exact List.subset_cons_self w ws
    · change w ∈ s'.awake l
      have hne : w ≠ t := fun heq ↦ ht (heq ▸ hw)
      rw [mem_awake, hwaiting, hpc, Function.update_of_ne hne]
      exact ⟨h.retries l w hw, hnodup.1⟩
    · change w ∉ s.awake l
      rw [mem_awake]
      exact fun hmem ↦ hmem.2 hw

omit [Fintype τ] in
theorem retries_of_other {p : Pc} (hpc : s.pc t = .attempt k) (hl : k.list ≠ l)
    (hpc' : s'.pc = Function.update s.pc t p) (u : τ) (hu : (s.pc u).Retries l) :
    (s'.pc u).Retries l := by
  have hne : u ≠ t := by
    rintro rfl
    rw [hpc] at hu
    exact hl hu
  rwa [hpc', Function.update_of_ne hne]

/-- A task that takes what it waits for, in front of the others or woken by them. -/
theorem Inv.attempt (h : Inv n s) (hrun : Runnable s t) (hpc : s.pc t = .attempt k)
    (hok : attempt n k s = some s') : Inv n (s'.goto t .idle) := by
  have hnot : ¬ (s.pc t).Suspends := by
    rw [hpc]
    exact fun hfalse ↦ hfalse
  obtain ⟨-, hout, hlock⟩ := h.outside hrun hnot
  have howed (l : EventList) : s.owed l = 0 := by rw [State.owed, hlock, Option.getD_none]
  have hbound := h.bound
  cases k with
  | receive =>
    rw [Blocking.attempt] at hok
    split at hok
    · next hpos =>
      cases hok
      refine h.served hrun hpc (by omega) rfl fun l ↦ ?_
      rw [notify_eq]
      cases l with
      | toReceive =>
        refine (h.balanced .toReceive).take ?_ rfl rfl
          (awake_subset_insert (t := t) rfl (List.Subset.refl _))
        change s.uxMessagesWaiting - 1 + 1 ≤ s.uxMessagesWaiting
        omega
      | toSend =>
        refine h.balanced_notify (retries_of_other hpc (by decide) rfl) ?_ rfl (howed _) (howed _)
        change n - (s.uxMessagesWaiting - 1) ≤ n - s.uxMessagesWaiting + 1
        omega
    · cases hok
  | peek =>
    rw [Blocking.attempt] at hok
    split at hok
    · cases hok
      refine h.served hrun hpc hbound rfl fun l ↦ ?_
      rw [notify_eq]
      cases l with
      | toReceive => exact h.balanced_relay rfl rfl rfl rfl (hout _)
      | toSend => exact h.balanced_of_move rfl le_rfl rfl rfl (by rw [hpc]; decide)
    · cases hok
  | send =>
    rw [Blocking.attempt] at hok
    split at hok
    · next hroom =>
      cases hok
      refine h.served hrun hpc (by omega) rfl fun l ↦ ?_
      rw [notify_eq]
      cases l with
      | toReceive =>
        exact h.balanced_notify (retries_of_other hpc (by decide) rfl) le_rfl rfl (howed _)
          (howed _)
      | toSend =>
        refine (h.balanced .toSend).take ?_ rfl rfl
          (awake_subset_insert (t := t) rfl (List.Subset.refl _))
        change n - (s.uxMessagesWaiting + 1) + 1 ≤ n - s.uxMessagesWaiting
        omega
    · cases hok

omit [DecidableEq τ] [Fintype τ] in
theorem unlockLoop_eq_drop (k : ℕ) (ws : List τ) : unlockLoop k ws = ws.drop k := by
  induction k generalizing ws with
  | zero => rfl
  | succ k ih =>
    cases ws with
    | nil => rfl
    | cons w ws => exact ih ws

/-- Unlocking pays the wake-ups that are owed. -/
theorem Inv.unlock {p : Pc} (h : Inv n s) (hrun : Runnable s t) (hin : (s.pc t).Suspends)
    (hp : p.Suspends) (hlocks : ∀ l', p.Locks l' ↔ l' ≠ l ∧ (s.pc t).Locks l')
    (hkeep : ∀ l', (s.pc t).Retries l' → p.Retries l') (hplace : ∀ k, p ≠ .place k) :
    Inv n ((unlock l s).goto t p) := by
  have hsuspended := (h.suspended_eq hrun).resolve_right fun hnot ↦ hnot.2 hin
  have hsublist (l' : EventList) : (((Blocking.unlock l s).goto t p).waiting l').Sublist
      (s.waiting l') := by
    change (Function.update s.waiting l (unlockLoop ((s.lock l).getD 0) (s.waiting l)) l').Sublist _
    by_cases hne : l' = l
    · subst hne
      rw [Function.update_self, unlockLoop_eq_drop]
      exact List.drop_sublist _ _
    · rw [Function.update_of_ne hne]
  have hretries : ∀ l', ∀ u ∈ ((Blocking.unlock l s).goto t p).waiting l',
      (((Blocking.unlock l s).goto t p).pc u).Retries l' :=
    h.retries_of_move rfl (fun l' ↦ (hsublist l').subset) fun l' _ ↦ hkeep l'
  refine h.moved hrun rfl h.bound (fun l' ↦ (h.nodup l').sublist (hsublist l')) hretries
    (.inl ⟨hsuspended.1, hp⟩) (fun l' ↦ ?_) (fun k hk ↦ absurd hk (hplace k)) fun l' ↦ ?_
  · rw [hlocks, ← h.lock_iff hrun]
    change Function.update s.lock l none l' ≠ none ↔ _
    by_cases hne : l' = l
    · subst hne
      simp
    · simp [hne]
  · by_cases hne : l' = l
    · subst hne
      have hlist : ((Blocking.unlock l' s).goto t p).waiting l' =
          (s.waiting l').drop (s.owed l') := by
        change Function.update s.waiting l' _ l' = _
        rw [Function.update_self, unlockLoop_eq_drop]
        rfl
      have hmoved (u : τ) (hu : (s.pc u).Retries l') :
          (((Blocking.unlock l' s).goto t p).pc u).Retries l' := retries_update (hkeep l') hu
      refine (h.balanced l').wake ((s.waiting l').take (s.owed l')) ?_ ?_ ?_ ?_ ?_ ?_
      · change s.waiting l' = _ ++ ((Blocking.unlock l' s).goto t p).waiting l'
        rw [hlist, List.take_append_drop]
      · exact (h.nodup l').sublist (List.take_sublist ..)
      · exact awake_subset (fun u hu _ ↦ hmoved u hu) (hsublist l').subset
      · intro u hu
        have hmem := List.mem_of_mem_take hu
        change u ∈ ((Blocking.unlock l' s).goto t p).awake l' ∧ u ∉ s.awake l'
        rw [mem_awake, mem_awake, hlist]
        refine ⟨⟨hmoved u (h.retries l' u hmem), fun hdrop ↦ ?_⟩, fun hawake ↦ hawake.2 hmem⟩
        exact List.disjoint_take_drop (h.nodup l') le_rfl hu hdrop
      · change (Function.update s.lock l' none l').getD 0 = 0
        rw [Function.update_self, Option.getD_none]
      · intro hne
        change ((Blocking.unlock l' s).goto t p).waiting l' ≠ [] at hne
        rw [hlist] at hne
        change s.avail n l' + s.owed l' ≤ s.avail n l' + _ ∧ s.owed l' ≤ _
        have hlong : s.owed l' ≤ (s.waiting l').length := by
          by_contra hshort
          exact hne (List.drop_eq_nil_of_le (by omega))
        rw [List.length_take]
        omega
    · refine h.balanced_of_move rfl le_rfl (Function.update_of_ne hne ..) ?_ (hkeep l')
      change (Function.update s.lock l none l').getD 0 = (s.lock l').getD 0
      rw [Function.update_of_ne hne]

/-- A task goes to sleep when it has found nothing, and whatever came since is owed. -/
theorem Inv.placed {value : τ → Word} (h : Inv n s) (hrun : Runnable s t)
    (hpc : s.pc t = .place k) :
    Inv n ((vTaskPlaceOnEventList value k.list t s).goto t (.unlockTx k .retry)) := by
  have hin : (s.pc t).Suspends := by
    rw [hpc]
    trivial
  have hsuspended := (h.suspended_eq hrun).resolve_right fun hnot ↦ hnot.2 hin
  have hout (l : EventList) : t ∉ s.waiting l := by
    intro hmem
    have hretries := h.retries l t hmem
    rw [hpc] at hretries
    exact hretries
  have hself : Function.update s.waiting k.list (insertSorted value t (s.waiting k.list)) k.list =
      insertSorted value t (s.waiting k.list) := Function.update_self ..
  have hnodup (l : EventList) : (Function.update s.waiting k.list
      (insertSorted value t (s.waiting k.list)) l).Nodup := by
    by_cases hne : l = k.list
    · rw [hne, hself, (insertSorted_perm value t _).nodup_iff]
      exact List.nodup_cons.mpr ⟨hout _, h.nodup _⟩
    · rw [Function.update_of_ne hne]
      exact h.nodup l
  refine h.moved hrun rfl h.bound hnodup ?_ (.inl ⟨hsuspended.1, trivial⟩) ?_ ?_ ?_
  · intro l u hu
    change (Function.update s.pc t (.unlockTx k .retry) u).Retries l
    change u ∈ Function.update s.waiting k.list (insertSorted value t (s.waiting k.list)) l at hu
    by_cases hne : u = t
    · subst hne
      rw [Function.update_self]
      by_contra hl
      rw [Function.update_of_ne (Ne.symm hl)] at hu
      exact hout l hu
    · rw [Function.update_of_ne hne]
      by_cases hl : l = k.list
      · subst hl
        rw [hself, mem_insertSorted] at hu
        exact h.retries _ u (hu.resolve_left hne)
      · rw [Function.update_of_ne hl] at hu
        exact h.retries l u hu
  · intro l
    refine (h.lock_iff hrun).trans ?_
    rw [hpc]
    rfl
  · intro k' hk'
    cases hk'
  · intro l
    by_cases hl : l = k.list
    · subst hl
      exact .block (h.place t k hpc) (hnodup _).length_le_card
    · refine h.balanced_of_move rfl le_rfl (Function.update_of_ne hl ..) rfl fun hold ↦ ?_
      rw [hpc] at hold
      exact hold.elim

theorem Inv.avail_of_attempt (h : Inv n s) (hfail : Blocking.attempt n k s = none) :
    s.avail n k.list = 0 := by
  have hbound := h.bound
  cases k with
  | receive =>
    rw [Blocking.attempt] at hfail
    split at hfail
    · cases hfail
    · next hzero => exact Nat.eq_zero_of_not_pos hzero
  | peek =>
    rw [Blocking.attempt] at hfail
    split at hfail
    · cases hfail
    · next hzero => exact Nat.eq_zero_of_not_pos hzero
  | send =>
    rw [Blocking.attempt] at hfail
    split at hfail
    · cases hfail
    · next hfull =>
      change n - s.uxMessagesWaiting = 0
      omega

omit [DecidableEq τ] [Fintype τ] in
theorem avail_of_mustWait (hwait : MustWait n k s) : s.avail n k.list = 0 := by
  cases k with
  | receive => exact hwait
  | peek => exact hwait
  | send =>
    change n - s.uxMessagesWaiting = 0
    rw [show s.uxMessagesWaiting = n from hwait, Nat.sub_self]

/-- A step of the running task. -/
theorem Inv.taskStep {value : τ → Word} {choice : Bool} (h : Inv n s) (hrun : Runnable s t)
    (hstep : taskStep n value t choice s = some s') : Inv n s' := by
  rw [Blocking.taskStep.eq_def] at hstep
  cases hpc : s.pc t with
  | idle =>
    simp only [hpc] at hstep
    cases hstep
  | attempt k =>
    simp only [hpc] at hstep
    cases hok : Blocking.attempt n k s with
    | some s₁ =>
      rw [hok] at hstep
      cases hstep
      exact h.attempt hrun hpc hok
    | none =>
      rw [hok] at hstep
      cases hstep
      have hzero := h.avail_of_attempt hok
      have hout := (h.outside hrun (by rw [hpc]; exact fun hfalse ↦ hfalse)).2.1
      cases choice with
      | true =>
        refine h.goto hrun hpc Iff.rfl (fun l ↦ Iff.rfl) ?_ fun k' hk' ↦ by cases hk'
        rintro l rfl
        exact .inr ⟨hzero, hout _⟩
      | false =>
        refine h.goto hrun hpc Iff.rfl (fun l ↦ Iff.rfl) ?_ fun k' hk' ↦ by cases hk'
        rintro l rfl
        exact .inr ⟨hzero, hout _⟩
  | suspend k =>
    simp only [hpc] at hstep
    cases hstep
    have hlock := (h.outside hrun (by rw [hpc]; exact fun hfalse ↦ hfalse)).2.2
    refine h.moved hrun rfl h.bound h.nodup ?_ (.inl ⟨rfl, trivial⟩)
      (fun l ↦ iff_of_false (not_not.mpr (hlock l)) fun hfalse ↦ hfalse)
      (fun k' hk' ↦ by cases hk') fun l ↦ ?_
    · refine h.retries_of_move rfl (fun l ↦ List.Subset.refl _) fun l _ hold ↦ ?_
      rw [hpc] at hold
      exact hold.elim
    · refine h.balanced_of_move rfl le_rfl rfl rfl fun hold ↦ ?_
      rw [hpc] at hold
      exact hold.elim
  | lock k =>
    simp only [hpc] at hstep
    cases hstep
    have hsuspended := (h.suspended_eq hrun).resolve_right
      fun hnot ↦ hnot.2 (by rw [hpc]; trivial)
    have hlock (l : EventList) : s.lock l = none := by
      by_contra hsome
      have hlocks := (h.lock_iff hrun).mp hsome
      rw [hpc] at hlocks
      exact hlocks
    refine h.moved hrun rfl h.bound h.nodup ?_ (.inl ⟨hsuspended.1, trivial⟩)
      (fun l ↦ iff_of_true ?_ trivial) (fun k' hk' ↦ by cases hk') fun l ↦ ?_
    · refine h.retries_of_move rfl (fun l ↦ List.Subset.refl _) fun l _ hold ↦ ?_
      rw [hpc] at hold
      exact hold.elim
    · change (if s.lock l = none then some 0 else s.lock l) ≠ none
      simp [hlock]
    · refine h.balanced_of_move rfl le_rfl rfl ?_ fun hold ↦ ?_
      · change (if s.lock l = none then some 0 else s.lock l).getD 0 = (s.lock l).getD 0
        simp [hlock]
      · rw [hpc] at hold
        exact hold.elim
  | timeout k =>
    simp only [hpc] at hstep
    cases hstep
    cases choice with
    | true =>
      exact h.goto_of_not hrun hpc Iff.rfl (fun l ↦ Iff.rfl) (fun l hfalse ↦ hfalse) (by simp)
    | false =>
      exact h.goto_of_not hrun hpc Iff.rfl (fun l ↦ Iff.rfl) (fun l hfalse ↦ hfalse) (by simp)
  | check k =>
    simp only [hpc] at hstep
    cases hstep
    split
    · next hwait =>
      refine h.goto hrun hpc Iff.rfl (fun l ↦ Iff.rfl) (fun l hfalse ↦ hfalse.elim) ?_
      rintro k' hk'
      cases hk'
      exact avail_of_mustWait hwait
    · exact h.goto_of_not hrun hpc Iff.rfl (fun l ↦ Iff.rfl) (fun l hfalse ↦ hfalse) (by simp)
  | place k =>
    simp only [hpc] at hstep
    cases hstep
    exact h.placed hrun hpc
  | unlockTx k a =>
    simp only [hpc] at hstep
    cases hstep
    refine h.unlock hrun (by rw [hpc]; trivial) ?_ ?_ ?_ ?_
    · trivial
    · intro l
      rw [hpc]
      cases l <;> simp [Pc.Locks]
    · intro l
      rw [hpc]
      cases a <;> exact id
    · simp
  | unlockRx k a =>
    simp only [hpc] at hstep
    cases hstep
    refine h.unlock hrun (by rw [hpc]; trivial) ?_ ?_ ?_ ?_
    · trivial
    · intro l
      rw [hpc]
      cases l <;> simp [Pc.Locks]
    · intro l
      rw [hpc]
      cases a <;> exact id
    · simp
  | resume k a =>
    simp only [hpc] at hstep
    cases hstep
    have hlock (l : EventList) : s.lock l = none := by
      by_contra hsome
      have hlocks := (h.lock_iff hrun).mp hsome
      rw [hpc] at hlocks
      exact hlocks
    have hkeep (l : EventList) (hold : (s.pc t).Retries l) : (afterResume a k).Retries l := by
      rw [hpc] at hold
      cases a with
      | retry => exact hold
      | expired => exact hold.elim
    refine h.moved hrun rfl h.bound h.nodup ?_ (.inr ⟨rfl, ?_⟩)
      (fun l ↦ iff_of_false (not_not.mpr (hlock l)) ?_) ?_ fun l ↦ ?_
    · exact h.retries_of_move rfl (fun l ↦ List.Subset.refl _) fun l _ ↦ hkeep l
    · cases a <;> cases k <;> exact fun hfalse ↦ hfalse
    · cases a <;> cases k <;> exact fun hfalse ↦ hfalse
    · cases a <;> cases k <;> simp [afterResume]
    · exact h.balanced_of_move rfl le_rfl rfl rfl (hkeep l)
  | recheck k =>
    simp only [hpc] at hstep
    cases hstep
    split
    · exact h.goto_of_not hrun hpc Iff.rfl (fun l ↦ Iff.rfl) (fun l hfalse ↦ hfalse) (by simp)
    · exact h.goto_of_not hrun hpc Iff.rfl (fun l ↦ Iff.rfl) (fun l hfalse ↦ hfalse) (by simp)

/-- One more to take while the queue is locked: a wake-up is owed, or there are as many
as tasks. -/
theorem Inv.posted {m : ℕ} {lock : EventList → Option ℕ} (h : Inv n s) (hm : m ≤ n)
    (hs' : s' = { s with uxMessagesWaiting := m, lock := lock })
    (havail : s'.avail n l ≤ s.avail n l + 1) (hother : ∀ l' ≠ l, s'.avail n l' ≤ s.avail n l')
    (hlock : ∀ l', lock l' ≠ none ↔ s.lock l' ≠ none)
    (howed : s'.owed l = s.owed l + 1 ∨ s'.owed l = s.owed l ∧ Fintype.card τ ≤ s.owed l)
    (hothers : ∀ l' ≠ l, s'.owed l' = s.owed l') : Inv n s' := by
  subst hs'
  refine ⟨hm, h.nodup, h.retries, h.suspends, fun l' ↦ (hlock l').trans (h.locks l'),
    fun u k hu ↦ ?_, fun l' ↦ ?_⟩
  · have hold := h.place u k hu
    by_cases hne : k.list = l
    · rw [hne] at hold ⊢
      omega
    · have := hother _ hne
      rw [hothers _ hne]
      omega
  · by_cases hne : l' = l
    · subst hne
      exact (h.balanced l').post havail rfl (Finset.Subset.refl _) howed (h.nodup l').length_le_card
    · exact (h.balanced l').mono (hother l' hne) le_rfl (hothers l' hne) (Finset.Subset.refl _)

/-- An interrupt tells a list that there is one more, or leaves word of it. -/
theorem Inv.notifyFromISR {m : ℕ} (h : Inv n s) (hm : m ≤ n)
    (havail : ({ s with uxMessagesWaiting := m } : State τ).avail n l ≤ s.avail n l + 1)
    (hother : ∀ l' ≠ l, ({ s with uxMessagesWaiting := m } : State τ).avail n l' ≤ s.avail n l') :
    Inv n (notifyFromISR l { s with uxMessagesWaiting := m }) := by
  rw [Blocking.notifyFromISR]
  cases hlock : s.lock l with
  | none =>
    simp only [notify_eq]
    refine ⟨hm, fun l' ↦ (h.nodup l').sublist (tail_sublist s l l'),
      fun l' u hu ↦ h.retries l' u ((tail_sublist s l l').subset hu), h.suspends, h.locks,
      fun u k hu ↦ ?_, fun l' ↦ ?_⟩
    · have hlocks : s.lock l ≠ none := (h.locks l).mpr ⟨u, by rw [show s.pc u = _ from hu]; trivial⟩
      exact absurd hlock hlocks
    · by_cases hne : l' = l
      · subst hne
        have howed : s.owed l' = 0 := by rw [State.owed, hlock, Option.getD_none]
        exact h.balanced_notify (fun u hu ↦ hu) havail (Function.update_self ..) howed howed
      · refine (h.balanced l').mono (hother l' hne) ?_ rfl (awake_subset (fun u hu _ ↦ hu)
          (tail_sublist s l l').subset)
        exact (tail_sublist s l l').length_le
  | some c =>
    have howed : s.owed l = c := by rw [State.owed, hlock, Option.getD_some]
    simp only [prvIncrementQueueLock]
    split
    · refine h.posted hm rfl havail hother (fun l' ↦ ?_) (.inl ?_) fun l' hne ↦ ?_
      · by_cases hne : l' = l
        · rw [hne, Function.update_self, hlock]
          simp
        · rw [Function.update_of_ne hne]
      · change (Function.update s.lock l (some (c + 1)) l).getD 0 = s.owed l + 1
        rw [Function.update_self, Option.getD_some, howed]
      · change (Function.update s.lock l (some (c + 1)) l').getD 0 = (s.lock l').getD 0
        rw [Function.update_of_ne hne]
    · exact h.posted hm rfl havail hother (fun l' ↦ Iff.rfl) (.inr ⟨rfl, by omega⟩) fun l' _ ↦ rfl

theorem Inv.step {value : τ → Word} {label : Label τ} (h : Inv n s)
    (hstep : step n value s label = some s') : Inv n s' := by
  have hbound := h.bound
  cases label with
  | call t k =>
    rw [Blocking.step] at hstep
    split at hstep
    · next hrun =>
      cases hstep
      exact h.goto_of_not hrun.1 hrun.2 Iff.rfl (fun l ↦ Iff.rfl) (fun l hfalse ↦ hfalse) (by simp)
    · cases hstep
  | task t choice =>
    rw [Blocking.step] at hstep
    split at hstep
    · next hrun => exact h.taskStep hrun hstep
    · cases hstep
  | sendFromISR =>
    rw [Blocking.step, xQueueGenericSendFromISR] at hstep
    split at hstep
    · cases hstep
      refine h.notifyFromISR (by omega) le_rfl fun l' hne ↦ ?_
      cases l' with
      | toReceive => exact absurd rfl hne
      | toSend => exact Nat.sub_le_sub_left (Nat.le_succ _) n
    · cases hstep
      exact h
  | receiveFromISR =>
    rw [Blocking.step, xQueueReceiveFromISR] at hstep
    split at hstep
    · cases hstep
      refine h.notifyFromISR (by omega) ?_ fun l' hne ↦ ?_
      · change n - (s.uxMessagesWaiting - 1) ≤ n - s.uxMessagesWaiting + 1
        omega
      · cases l' with
        | toReceive => exact Nat.sub_le ..
        | toSend => exact absurd rfl hne
    · cases hstep
      exact h
  | tick t =>
    rw [Blocking.step] at hstep
    split at hstep
    · cases hstep
      refine ⟨h.bound, fun l ↦ (h.nodup l).erase t, ?_, h.suspends, h.locks, h.place, fun l ↦ ?_⟩
      · exact fun l u hu ↦ h.retries l u (List.mem_of_mem_erase hu)
      · refine (h.balanced l).mono le_rfl List.length_erase_le rfl ?_
        exact awake_subset (fun u hu _ ↦ hu) List.erase_subset
    · cases hstep

theorem inv_init (n : ℕ) : Inv n (init : State τ) := by
  refine ⟨Nat.zero_le n, fun l ↦ List.nodup_nil, fun l t ht ↦ ?_, fun t ↦ ?_, fun l ↦ ?_,
    fun t k ht ↦ ?_, fun l hne ↦ absurd rfl hne⟩
  · cases ht
  · exact iff_of_false (fun hfalse ↦ hfalse) fun heq ↦ nomatch heq
  · exact iff_of_false (not_not.mpr rfl) fun ⟨t, ht⟩ ↦ ht
  · cases ht

/-- No wake-up is lost. Whatever tasks, interrupts and time do: when the scheduler is
not suspended and a task sleeps on the queue, there are at least as many tasks awake and on their
way to the queue as it has items to receive, or places to send to. -/
theorem queue_loses_no_wakeup (n : ℕ) (value : τ → Word) (labels : List (Label τ)) {s : State τ}
    (hrun : run (step n value) init labels = some s) (hs : s.suspended = none) (l : EventList)
    (hwaiting : s.waiting l ≠ []) :
    s.avail n l ≤ (s.awake l).card ∧ ∀ t ∈ s.awake l, ∃ k, k.list = l ∧ s.pc t = .attempt k := by
  have h := run_invariant (fun s a t ht hstep ↦ Inv.step ht hstep) (inv_init n) hrun
  have hnone (t : τ) : ¬ (s.pc t).Suspends := by
    rw [h.suspends, hs]
    exact fun heq ↦ nomatch heq
  have howed : s.owed l = 0 := by
    have hlock : s.lock l = none := by
      by_contra hsome
      obtain ⟨t, ht⟩ := (h.locks l).mp hsome
      exact hnone t ht.suspends
    rw [State.owed, hlock, Option.getD_none]
  refine ⟨?_, fun t ht ↦ ?_⟩
  · have hbalanced : s.avail n l ≤ (s.awake l).card + s.owed l ∨ (s.waiting l).length ≤ s.owed l :=
      h.balanced l hwaiting
    have hpos := List.length_pos_iff.mpr hwaiting
    omega
  · have hretries := (mem_awake.mp ht).1
    have hout := hnone t
    cases hpc : s.pc t <;> rw [hpc] at hretries hout
    case attempt k => exact ⟨k, hretries, rfl⟩
    all_goals first | exact hretries.elim | exact absurd trivial hout

/-- The steps of a task from its call until it sleeps. -/
def toSleep (t : τ) : List (Label τ) := .call t .receive :: List.replicate 9 (.task t false)

/-- Two tasks sleep on an empty queue; the item that comes wakes the first of them. -/
theorem queue_wakes_first_of_two : ∃ s, run (step 16 fun _ ↦ 0) (init : State Bool)
      (toSleep true ++ toSleep false ++ [.sendFromISR]) = some s ∧
    s.waiting .toReceive = [false] ∧ s.uxMessagesWaiting = 1 ∧
    1 ≤ (s.awake .toReceive).card := by
  refine ⟨_, rfl, rfl, rfl, ?_⟩
  exact (queue_loses_no_wakeup 16 (fun _ : Bool ↦ 0)
    (toSleep true ++ toSleep false ++ [.sendFromISR]) rfl rfl .toReceive
    (List.cons_ne_nil false [])).1

end Invariant

end Tanenbaum.Kernel.Blocking
