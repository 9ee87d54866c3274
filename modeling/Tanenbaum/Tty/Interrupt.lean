import Tanenbaum.Lib.Runs
import Tanenbaum.Tty.Driver
import Mathlib.Logic.Function.Iterate

namespace Tanenbaum.Tty.Interrupt

open Lib.Bytes Lib.Runs Driver

/-- The next register access of `USART1_IRQHandler`; `idle` when it does not run. -/
inductive Access
  | idle
  | testTxe
  | testTxeie
  | transmit
  | disableTxe
  | testRxne
  | testRxneie
  | receive
  deriving DecidableEq

/-- The USART with the overrun flag, and the handler between two accesses.
`oreSeen` says that SR has been read since ORE was set. The bytes that the
handler has written to and read from the data register are counted. -/
structure Usart where
  txe : Bool
  txeie : Bool
  rxne : Bool
  rxneie : Bool
  ore : Bool
  oreSeen : Bool
  rdr : UInt8
  txInd : Word
  txNum : Word
  pc : Access
  sent : ℕ
  received : ℕ

/-- After `tty_driver_init`. -/
def start : Usart := ⟨true, false, false, false, false, false, 0, 0, 0, .idle, 0, 0⟩

def Usart.txRequest (u : Usart) : Bool := u.txe && u.txeie

def Usart.rxRequest (u : Usart) : Bool := u.rxneie && (u.rxne || u.ore)

def Usart.requested (u : Usart) : Bool := u.txRequest || u.rxRequest

def Usart.readSR (u : Usart) : Usart := { u with oreSeen := u.oreSeen || u.ore }

def Usart.readDR (u : Usart) : Usart :=
  { u with rxne := false, ore := u.ore && !u.oreSeen, oreSeen := false }

def Usart.arrive (u : Usart) (byte : UInt8) : Usart :=
  if u.rxne then { u with ore := true } else { u with rxne := true, rdr := byte }

/-- One register access of the handler, with what it does until the next. -/
def access (u : Usart) : Usart :=
  match u.pc with
  | .idle => u
  | .testTxe => { u.readSR with pc := if u.txe then .testTxeie else .testRxne }
  | .testTxeie => { u with pc := if u.txeie then .transmit else .testRxne }
  | .transmit =>
    let u := { u with txe := false, txInd := u.txInd + 1, sent := u.sent + 1 }
    if u.txInd = u.txNum then { u with txInd := 0, pc := .disableTxe } else { u with pc := .idle }
  | .disableTxe => { u with txeie := false, pc := .idle }
  | .testRxne => { u.readSR with pc := if u.rxne then .testRxneie else .idle }
  | .testRxneie => { u with pc := if u.rxneie then .receive else .idle }
  | .receive => { u.readDR with received := u.received + 1, pc := .idle }

/-- A run of the handler from its entry to its return, with no arrival in it. -/
def complete (u : Usart) : Usart := access^[5] { u with pc := .testTxe }

/-- Arrivals and the transmitter getting empty can come between any two
accesses; tasks only run while the handler does not. -/
inductive Action
  | arrive (byte : UInt8)
  | txEmpty
  | irq
  | access
  | enableRxne
  | transmit (num : Word)

def step (u : Usart) : Action → Option Usart
  | .arrive byte => some (u.arrive byte)
  | .txEmpty => some { u with txe := true }
  | .irq => if u.pc = .idle ∧ u.requested then some { u with pc := .testTxe } else none
  | .access => if u.pc = .idle then none else some (access u)
  | .enableRxne => if u.pc = .idle then some { u with rxneie := true } else none
  | .transmit num => if u.pc = .idle then some { u with txNum := num, txeie := true } else none

/-- The interrupt is requested, and a run of the handler would neither send nor
read a byte nor withdraw a request. -/
def Stuck (u : Usart) : Prop :=
  u.pc = .idle ∧ u.requested = true ∧ (complete u).sent = u.sent ∧
    (complete u).received = u.received ∧
    ¬ (u.txRequest = true ∧ (complete u).txRequest = false) ∧
    ¬ (u.rxRequest = true ∧ (complete u).rxRequest = false)

/-- The handler has seen RXNE and has not yet read the byte. -/
def Access.late : Access → Bool
  | .testRxneie | .receive => true
  | _ => false

/-- No first overrun comes between the handler's look at RXNE and its read of the byte. -/
def Timely (u : Usart) : Action → Prop
  | .arrive _ => u.pc.late = true → u.ore = true
  | _ => True

section Handler

variable {u : Usart}

theorem complete_eq (u : Usart) :
    complete u = access (access (access (access (access { u with pc := .testTxe })))) := rfl

theorem complete_transmit (htxe : u.txe = true) (hie : u.txeie = true) :
    complete u = { u.readSR with
      txe := false, sent := u.sent + 1, pc := .idle,
      txInd := if u.txInd + 1 = u.txNum then 0 else u.txInd + 1,
      txeie := decide (u.txInd + 1 ≠ u.txNum) } := by
  by_cases hlast : u.txInd + 1 = u.txNum
  · simp only [complete_eq, access, Usart.readSR, htxe, hie, hlast, if_true, ne_eq,
      not_true_eq_false, decide_false]
  · simp only [complete_eq, access, Usart.readSR, htxe, hie, hlast, if_true, if_false, ne_eq,
      not_false_eq_true, decide_true]

theorem complete_receive (htx : u.txRequest = false) (hrxne : u.rxne = true)
    (hie : u.rxneie = true) :
    complete u = { u.readSR.readDR with received := u.received + 1, pc := .idle } := by
  simp only [Usart.txRequest, Bool.and_eq_false_iff] at htx
  cases htxe : u.txe
  · simp [complete_eq, access, Usart.readSR, Usart.readDR, htxe, hrxne, hie]
  · have hoff : u.txeie = false := htx.resolve_left (by simp [htxe])
    simp [complete_eq, access, Usart.readSR, Usart.readDR, htxe, hoff, hrxne, hie]

theorem complete_nothing (htx : u.txRequest = false) (hrx : (u.rxne && u.rxneie) = false) :
    complete u = { u.readSR with pc := .idle } := by
  simp only [Usart.txRequest, Bool.and_eq_false_iff] at htx hrx
  cases htxe : u.txe <;> cases htxeie : u.txeie <;> cases hrxne : u.rxne <;>
    cases hrxneie : u.rxneie <;>
    simp_all [complete_eq, access, Usart.readSR]

/-- What it takes to be stuck: an overrun whose byte has already been read. -/
theorem stuck_iff (u : Usart) : Stuck u ↔ u.pc = .idle ∧ u.txRequest = false ∧
    u.rxneie = true ∧ u.ore = true ∧ u.rxne = false := by
  by_cases htx : u.txRequest = true
  · have hon : u.txe = true ∧ u.txeie = true := by simpa [Usart.txRequest] using htx
    refine iff_of_false (fun hstuck ↦ ?_) (by simp [htx])
    have hsent := hstuck.2.2.1
    rw [complete_transmit hon.1 hon.2] at hsent
    exact absurd hsent (Nat.succ_ne_self _)
  have htx : u.txRequest = false := by simpa using htx
  by_cases hrx : u.rxne = true ∧ u.rxneie = true
  · refine iff_of_false (fun hstuck ↦ ?_) (by simp [hrx.1])
    have hreceived := hstuck.2.2.2.1
    rw [complete_receive htx hrx.1 hrx.2] at hreceived
    exact absurd hreceived (Nat.succ_ne_self _)
  have hrx : (u.rxne && u.rxneie) = false := by simpa using hrx
  rw [Stuck, complete_nothing htx hrx]
  cases hrxne : u.rxne <;> cases hrxneie : u.rxneie <;> cases hore : u.ore <;>
    simp_all [Usart.requested, Usart.txRequest, Usart.rxRequest, Usart.readSR]

/-- The registers of the driver's state. -/
structure Shows {τ : Type} (s : State τ) (u : Usart) : Prop where
  txe : u.txe = s.txe
  txeie : u.txeie = s.txeie
  rxne : u.rxne = s.rxne
  rxneie : u.rxneie = s.rxneie
  rdr : u.rdr = s.rdr
  txInd : u.txInd = s.txInd
  txNum : u.txNum = s.txNum
  pc : u.pc = .idle

/-- A run without an arrival does to the registers what the handler does in one step. -/
theorem Shows.complete {τ : Type} {s : State τ} (h : Shows s u) :
    Shows (usart1IRQHandler s) (complete u) := by
  cases htx : u.txRequest
  · have htx' : (s.txe && s.txeie) = false := by
      rw [← h.txe, ← h.txeie]
      exact htx
    cases hrx : u.rxne && u.rxneie
    · have hrx' : (s.rxne && s.rxneie) = false := by
        rw [← h.rxne, ← h.rxneie]
        exact hrx
      have heq : usart1IRQHandler s = s := by
        simp only [usart1IRQHandler, htx', hrx', Bool.false_eq_true, if_false]
      rw [heq, complete_nothing htx hrx]
      exact ⟨h.txe, h.txeie, h.rxne, h.rxneie, h.rdr, h.txInd, h.txNum, rfl⟩
    · have hrx' : (s.rxne && s.rxneie) = true := by
        rw [← h.rxne, ← h.rxneie]
        exact hrx
      have heq : usart1IRQHandler s =
          { s with rxne := false, qRx := xQueueSendFromISR s.qRx s.rdr } := by
        simp only [usart1IRQHandler, htx', hrx', Bool.false_eq_true, if_false, if_true]
      simp only [Bool.and_eq_true] at hrx
      rw [heq, complete_receive htx hrx.1 hrx.2]
      exact ⟨h.txe, h.txeie, rfl, h.rxneie, h.rdr, h.txInd, h.txNum, rfl⟩
  · have hon : u.txe = true ∧ u.txeie = true := by simpa [Usart.txRequest] using htx
    have hon' : (s.txe && s.txeie) = true := by
      rw [← h.txe, ← h.txeie]
      exact htx
    rw [complete_transmit hon.1 hon.2, h.txInd, h.txNum]
    by_cases hlast : s.txInd + 1 = s.txNum
    · simp only [usart1IRQHandler, hon', hlast, if_true, ne_eq, not_true_eq_false, decide_false]
      exact ⟨rfl, rfl, h.rxne, h.rxneie, h.rdr, rfl, h.txNum, rfl⟩
    · simp only [usart1IRQHandler, hon', hlast, if_true, if_false, ne_eq, not_false_eq_true,
        decide_true]
      refine ⟨rfl, ?_, h.rxne, h.rxneie, h.rdr, rfl, h.txNum, rfl⟩
      exact (h.txeie.symm.trans hon.2).symm

end Handler

section Moves

/-- The flags of the receiver are the same. -/
structure SameFlags (u u' : Usart) : Prop where
  rxne : u'.rxne = u.rxne
  ore : u'.ore = u.ore
  oreSeen : u'.oreSeen = u.oreSeen

variable {u u' : Usart}

/-- An access of the handler leaves the flags of the receiver alone, reads SR,
or reads DR, the last only when it is late. -/
theorem access_cases (u : Usart) :
    (SameFlags u (access u) ∧ ((access u).pc.late = true → u.pc.late = true)) ∨
    (SameFlags u.readSR (access u) ∧ ((access u).pc.late = true → u.rxne = true)) ∨
    (SameFlags u.readDR (access u) ∧ u.pc.late = true ∧ (access u).pc.late = false) := by
  cases hpc : u.pc <;> simp only [access, hpc]
  case idle => exact .inl ⟨⟨rfl, rfl, rfl⟩, id⟩
  case testTxe =>
    refine .inr (.inl ⟨⟨rfl, rfl, rfl⟩, fun hlate ↦ ?_⟩)
    split at hlate <;> cases hlate
  case testTxeie =>
    refine .inl ⟨⟨rfl, rfl, rfl⟩, fun hlate ↦ ?_⟩
    split at hlate <;> cases hlate
  case transmit =>
    left
    split
    · exact ⟨⟨rfl, rfl, rfl⟩, id⟩
    · exact ⟨⟨rfl, rfl, rfl⟩, id⟩
  case disableTxe => exact .inl ⟨⟨rfl, rfl, rfl⟩, id⟩
  case testRxne =>
    refine .inr (.inl ⟨⟨rfl, rfl, rfl⟩, fun hlate ↦ ?_⟩)
    split at hlate
    · next hrxne => exact hrxne
    · cases hlate
  case testRxneie => exact .inl ⟨⟨rfl, rfl, rfl⟩, fun _ ↦ rfl⟩
  case receive => exact .inr (.inr ⟨⟨rfl, rfl, rfl⟩, rfl, rfl⟩)

theorem step_cases {a : Action} (hstep : step u a = some u') :
    (∃ byte, a = .arrive byte ∧ u' = u.arrive byte) ∨ u' = access u ∨
      (SameFlags u u' ∧ (u'.pc.late = true → u.pc.late = true)) := by
  cases a with
  | arrive byte =>
    cases hstep
    exact .inl ⟨byte, rfl, rfl⟩
  | txEmpty =>
    cases hstep
    exact .inr (.inr ⟨⟨rfl, rfl, rfl⟩, id⟩)
  | irq =>
    simp only [step] at hstep
    split at hstep <;> cases hstep
    exact .inr (.inr ⟨⟨rfl, rfl, rfl⟩, fun hlate ↦ by cases hlate⟩)
  | access =>
    simp only [step] at hstep
    split at hstep <;> cases hstep
    exact .inr (.inl rfl)
  | enableRxne =>
    simp only [step] at hstep
    split at hstep <;> cases hstep
    exact .inr (.inr ⟨⟨rfl, rfl, rfl⟩, id⟩)
  | transmit num =>
    simp only [step] at hstep
    split at hstep <;> cases hstep
    exact .inr (.inr ⟨⟨rfl, rfl, rfl⟩, id⟩)

end Moves

section Invariant

/-- An overrun is there only with a byte to read, and the handler knows of it
before it reads the byte. -/
structure Recoverable (u : Usart) : Prop where
  rxne : u.ore = true → u.rxne = true
  seen : u.pc.late = true → u.rxne = true ∧ (u.ore = true → u.oreSeen = true)

variable {u u' : Usart}

theorem Recoverable.not_stuck (h : Recoverable u) : ¬ Stuck u := by
  intro hstuck
  obtain ⟨-, -, -, hore, hrxne⟩ := (stuck_iff u).mp hstuck
  exact absurd ((h.rxne hore).symm.trans hrxne) (by decide)

theorem Recoverable.same (h : Recoverable u) (hsame : SameFlags u u')
    (hlate : u'.pc.late = true → u.pc.late = true) : Recoverable u' := by
  constructor
  · rw [hsame.ore, hsame.rxne]
    exact h.rxne
  · rw [hsame.rxne, hsame.ore, hsame.oreSeen]
    exact fun hlate' ↦ h.seen (hlate hlate')

theorem Recoverable.access (h : Recoverable u) : Recoverable (access u) := by
  rcases access_cases u with ⟨hsame, hlate⟩ | ⟨hsame, hlate⟩ | ⟨hsame, hlate, hdone⟩
  · exact h.same hsame hlate
  · constructor
    · rw [hsame.ore, hsame.rxne]
      exact h.rxne
    · rw [hsame.rxne, hsame.ore, hsame.oreSeen]
      intro hlate'
      refine ⟨hlate hlate', fun hore ↦ ?_⟩
      have hore : u.ore = true := hore
      simp only [Usart.readSR, hore, Bool.or_true]
  · have hseen := (h.seen hlate).2
    constructor
    · rw [hsame.ore]
      intro hore
      simp only [Usart.readDR, Bool.and_eq_true, Bool.not_eq_true'] at hore
      exact absurd ((hseen hore.1).symm.trans hore.2) (by decide)
    · rw [hdone]
      exact fun habs ↦ by cases habs

theorem Recoverable.arrive (h : Recoverable u) {byte : UInt8} (htimely : Timely u (.arrive byte)) :
    Recoverable (u.arrive byte) := by
  unfold Usart.arrive
  split
  · next hrxne =>
    refine ⟨fun _ ↦ hrxne, fun hlate ↦ ⟨hrxne, fun _ ↦ ?_⟩⟩
    exact (h.seen hlate).2 (htimely hlate)
  · next hrxne =>
    refine ⟨fun _ ↦ rfl, fun hlate ↦ ?_⟩
    exact absurd (h.seen hlate).1 hrxne

theorem Recoverable.step {a : Action} (h : Recoverable u) (htimely : Timely u a)
    (hstep : step u a = some u') : Recoverable u' := by
  rcases step_cases hstep with ⟨byte, rfl, rfl⟩ | rfl | ⟨hsame, hlate⟩
  · exact h.arrive htimely
  · exact h.access
  · exact h.same hsame hlate

/-- What holds of the flags in every run. -/
structure Flags (u : Usart) : Prop where
  seen : u.oreSeen = true → u.ore = true
  late : u.pc.late = true → u.rxne = true

theorem Flags.same (h : Flags u) (hsame : SameFlags u u')
    (hlate : u'.pc.late = true → u.pc.late = true) : Flags u' := by
  constructor
  · rw [hsame.oreSeen, hsame.ore]
    exact h.seen
  · rw [hsame.rxne]
    exact fun hlate' ↦ h.late (hlate hlate')

theorem Flags.access (h : Flags u) : Flags (access u) := by
  rcases access_cases u with ⟨hsame, hlate⟩ | ⟨hsame, hlate⟩ | ⟨hsame, -, hdone⟩
  · exact h.same hsame hlate
  · constructor
    · rw [hsame.oreSeen, hsame.ore]
      intro hseen
      simp only [Usart.readSR, Bool.or_eq_true] at hseen
      exact hseen.elim h.seen id
    · rw [hsame.rxne]
      exact hlate
  · constructor
    · rw [hsame.oreSeen]
      exact fun habs ↦ by cases habs
    · rw [hdone]
      exact fun habs ↦ by cases habs

theorem Flags.arrive (h : Flags u) (byte : UInt8) : Flags (u.arrive byte) := by
  unfold Usart.arrive
  split
  · exact ⟨fun _ ↦ rfl, h.late⟩
  · exact ⟨h.seen, fun _ ↦ rfl⟩

theorem Flags.step {a : Action} (h : Flags u) (hstep : step u a = some u') : Flags u' := by
  rcases step_cases hstep with ⟨byte, -, rfl⟩ | rfl | ⟨hsame, hlate⟩
  · exact h.arrive byte
  · exact h.access
  · exact h.same hsame hlate

theorem Flags.stuck_of_late (h : Flags u) (hlate : u.pc.late = true) (hore : u.ore = false)
    (hie : u.rxneie = true) (htx : u.txRequest = false) (byte : UInt8) :
    Stuck (Interrupt.access (Interrupt.access (u.arrive byte))) := by
  have hseen : u.oreSeen = false := by
    rw [Bool.eq_false_iff]
    intro hseen
    exact absurd ((h.seen hseen).symm.trans hore) (by decide)
  simp only [Usart.txRequest] at htx
  rw [stuck_iff, Usart.arrive, if_pos (h.late hlate)]
  cases hpc : u.pc <;> simp only [hpc, Access.late, Bool.false_eq_true] at hlate
  · simp [Interrupt.access, hie, Usart.readDR, hseen, Usart.txRequest, htx]
  · simp [Interrupt.access, hie, Usart.readDR, hseen, Usart.txRequest, htx]

end Invariant

section Runs

/-- In a run where no first overrun comes between the handler's look at RXNE
and its read of the byte, the handler always clears its cause. An overrun that
does come there leaves a request that the handler cannot clear. -/
theorem handler_clears_cause (as : List Action) :
    (Along step Timely start as → ∀ u, run step start as = some u → ¬ Stuck u) ∧
    ∀ u, run step start as = some u → u.pc.late = true → u.ore = false → u.rxneie = true →
      u.txRequest = false → ∀ byte, Stuck (access (access (u.arrive byte))) := by
  constructor
  · intro htimely u hrun
    have hstart : Recoverable start := ⟨by decide, by decide⟩
    have h := run_invariant_along (fun s a t h ht hstep ↦ h.step ht hstep) hstart htimely hrun
    exact h.not_stuck
  · intro u hrun hlate hore hie htx byte
    have hstart : Flags start := ⟨by decide, by decide⟩
    have h := run_invariant (fun s a t h hstep ↦ h.step hstep) hstart hrun
    exact h.stuck_of_late hlate hore hie htx byte

/-- A second byte arrives before the handler runs: it is lost, and the handler recovers. -/
def overrunBefore : List Action :=
  [.enableRxne, .arrive 97, .arrive 98, .irq, .access, .access, .access, .access, .access]

theorem overrunBefore_recovers : ∃ u, run step start overrunBefore = some u ∧ u.received = 1 ∧
    ¬ Stuck u := by
  have htimely : Along step Timely start overrunBefore := by
    simp [Along, overrunBefore, step, Timely, start, Usart.arrive, Access.late]
  have hrun : (run step start overrunBefore).map Usart.received = some 1 := by decide
  obtain ⟨u, hu, hreceived⟩ := Option.map_eq_some_iff.mp hrun
  exact ⟨u, hu, hreceived, (handler_clears_cause overrunBefore).1 htimely u hu⟩

/-- The second byte arrives just before the handler reads the first. -/
theorem late_overrun_stuck : ∃ u, run step start [.enableRxne, .arrive 97, .irq, .access, .access,
    .access, .access, .arrive 98, .access] = some u ∧ Stuck u := by
  have hrun : ((run step start [.enableRxne, .arrive 97, .irq, .access, .access, .access, .access,
      .arrive 98, .access]).map fun u ↦ (u.pc, u.txRequest, u.rxneie, u.ore, u.rxne)) =
      some (.idle, false, true, true, false) := by decide
  obtain ⟨u, hu, heq⟩ := Option.map_eq_some_iff.mp hrun
  simp only [Prod.mk.injEq] at heq
  exact ⟨u, hu, (stuck_iff u).mpr heq⟩

end Runs

end Tanenbaum.Tty.Interrupt
