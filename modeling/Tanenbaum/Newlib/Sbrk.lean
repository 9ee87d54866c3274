import Tanenbaum.Lib.Runs
import Tanenbaum.Lib.Bytes
import Mathlib.Data.Int.Notation

namespace Tanenbaum.Newlib.Sbrk

open Lib.Runs Lib.Bytes

-- `MEMORY` and `_estack` of the linker script
def ccmramOrigin : Word := 0x10000000
def ccmramLength : Word := 64 * 1024
def estack : Word := ccmramOrigin + ccmramLength

def heapSize : Word := 64 * 1024

/-- The array `heap` is the only object of section `.ccmram`, so it starts the region. -/
def heap : Word := ccmramOrigin

def enomem : ℤ := 12

/-- The variables `_sbrk` works on: the nesting counter of the scheduler, its
own static `heap_end` and the caller's `errno`. The counter has 32 bits, and
is taken not to wrap: fewer than `2 ^ 32` suspensions are open at a time. -/
structure State where
  uxSchedulerSuspended : ℕ
  heapEnd : Word
  errno : ℤ
  deriving DecidableEq

def vTaskSuspendAll (s : State) : State :=
  { s with uxSchedulerSuspended := s.uxSchedulerSuspended + 1 }

/-- The first statement is `configASSERT(uxSchedulerSuspended)`, which never
returns when it fails. The ready lists that the rest of the function updates
are no part of this state. -/
def xTaskResumeAll (s : State) : Option State :=
  if s.uxSchedulerSuspended = 0 then none
  else some { s with uxSchedulerSuspended := s.uxSchedulerSuspended - 1 }

def sbrk (s : State) (incr : Word) : Option (Word × State) :=
  let s := vTaskSuspendAll s
  let prevHeapEnd := s.heapEnd
  if s.heapEnd + incr > heap + heapSize then
    some (-1, { s with errno := enomem })
  else
    (xTaskResumeAll { s with heapEnd := s.heapEnd + incr }).map fun s ↦ (prevHeapEnd, s)

def start (depth : ℕ) (errno : ℤ) : State := ⟨depth, heap, errno⟩

def step (s : State) (incr : Word) : Option State := (sbrk s incr).map Prod.snd

theorem sbrk_refused {s : State} {incr : Word} (h : s.heapEnd + incr > heap + heapSize) :
    sbrk s incr = some (-1, ⟨s.uxSchedulerSuspended + 1, s.heapEnd, enomem⟩) := by
  simp only [sbrk, vTaskSuspendAll]
  exact if_pos h

theorem sbrk_granted {s : State} {incr : Word} (h : s.heapEnd + incr ≤ heap + heapSize) :
    sbrk s incr = some (s.heapEnd, { s with heapEnd := s.heapEnd + incr }) := by
  have hn : ¬ s.heapEnd + incr > heap + heapSize := BitVec.not_lt.mpr h
  simp [sbrk, vTaskSuspendAll, xTaskResumeAll, if_neg hn]

theorem sbrk_returns (s : State) (incr : Word) : ∃ r, sbrk s incr = some r := by
  by_cases hb : s.heapEnd + incr ≤ heap + heapSize
  · exact ⟨_, sbrk_granted hb⟩
  · exact ⟨_, sbrk_refused (BitVec.not_le.mp hb)⟩

theorem sbrk_cases {s t : State} {incr p : Word} (h : sbrk s incr = some (p, t)) :
    (s.heapEnd + incr > heap + heapSize ∧ p = -1 ∧
      t = ⟨s.uxSchedulerSuspended + 1, s.heapEnd, enomem⟩) ∨
    (s.heapEnd + incr ≤ heap + heapSize ∧ p = s.heapEnd ∧
      t = { s with heapEnd := s.heapEnd + incr }) := by
  by_cases hb : s.heapEnd + incr ≤ heap + heapSize
  · rw [sbrk_granted hb, Option.some.injEq, Prod.mk.injEq] at h
    exact .inr ⟨hb, h.1.symm, h.2.symm⟩
  · have hb' := BitVec.not_le.mp hb
    rw [sbrk_refused hb', Option.some.injEq, Prod.mk.injEq] at h
    exact .inl ⟨hb', h.1.symm, h.2.symm⟩

theorem step_cases {s t : State} {incr : Word} (h : step s incr = some t) :
    (s.heapEnd + incr > heap + heapSize ∧ t.heapEnd = s.heapEnd) ∨
    (s.heapEnd + incr ≤ heap + heapSize ∧ t.heapEnd = s.heapEnd + incr) := by
  obtain ⟨⟨p, u⟩, hu, rfl⟩ := Option.map_eq_some_iff.mp h
  rcases sbrk_cases hu with ⟨hb, -, rfl⟩ | ⟨hb, -, rfl⟩
  · exact .inl ⟨hb, rfl⟩
  · exact .inr ⟨hb, rfl⟩

def BelowTop (s : State) : Prop := s.heapEnd ≤ heap + heapSize

theorem start_belowTop (depth : ℕ) (errno : ℤ) : BelowTop (start depth errno) := by
  simp only [BelowTop, start]
  decide

theorem step_belowTop {s t : State} {incr : Word} (hs : BelowTop s)
    (h : step s incr = some t) : BelowTop t := by
  rcases step_cases h with ⟨-, he⟩ | ⟨hb, he⟩
  · simpa only [BelowTop, he] using hs
  · simpa only [BelowTop, he] using hb

/-- The call returns with the scheduler suspended as deeply as before, and a
call that returns `(uint8_t *)-1` leaves the break alone. -/
def Balanced (s : State) (incr : Word) : Prop :=
  ∃ p t, sbrk s incr = some (p, t) ∧ t.uxSchedulerSuspended = s.uxSchedulerSuspended ∧
    (p = -1 → t.errno = enomem ∧ t.heapEnd = s.heapEnd)

/-- The request passes the bound check of `_sbrk`. -/
def WithinBound (s : State) (incr : Word) : Prop := s.heapEnd + incr ≤ heap + heapSize

theorem balanced_iff_withinBound {s : State} (hs : BelowTop s) (incr : Word) :
    Balanced s incr ↔ WithinBound s incr := by
  constructor
  · rintro ⟨p, t, h, hdepth, -⟩
    rcases sbrk_cases h with ⟨-, -, rfl⟩ | ⟨hb, -, -⟩
    · exact absurd hdepth (Nat.succ_ne_self _)
    · exact hb
  · intro hb
    refine ⟨_, _, sbrk_granted hb, rfl, fun hp ↦ ?_⟩
    have htop : s.heapEnd ≤ heap + heapSize := hs
    rw [hp] at htop
    exact absurd htop (by decide)

/-- A sequence of calls keeps the scheduler balanced exactly when the bound
check refuses none of them: the refusing path returns without `xTaskResumeAll`. -/
theorem sbrk_balanced_iff_never_refused (depth : ℕ) (errno : ℤ) (calls : List Word) :
    Along step Balanced (start depth errno) calls ↔
      Along step WithinBound (start depth errno) calls :=
  along_iff (I := BelowTop) (fun _ incr hs ↦ balanced_iff_withinBound hs incr)
    (fun _ _ _ hs _ h ↦ step_belowTop hs h) (start_belowTop depth errno) calls

/-- One request for 65537 bytes on an idle scheduler leaves it suspended for good. -/
theorem sbrk_unbalanced_after_refusal :
    sbrk (start 0 0) 65537 = some (-1, ⟨1, heap, enomem⟩) ∧
      ¬ Along step Balanced (start 0 0) [65537] := by
  have hcall : sbrk (start 0 0) 65537 = some (-1, ⟨1, heap, enomem⟩) := by decide
  refine ⟨hcall, fun ⟨⟨p, t, h, hdepth, _⟩, _⟩ ↦ ?_⟩
  rw [hcall, Option.some.injEq, Prod.mk.injEq] at h
  rw [← h.2] at hdepth
  exact absurd hdepth (by decide)

end Tanenbaum.Newlib.Sbrk
