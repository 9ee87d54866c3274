import Tanenbaum.Lib.Runs
import Tanenbaum.Tty.Transmit
import Tanenbaum.Tty.Receive

namespace Tanenbaum.Tty.Wakeup

open Lib.Bytes Lib.Runs Lib.Handshake Driver Calls Transmit Receive

variable {τ : Type}

/-- The handler is about to give `sem_tx`. -/
def GivesTx (s : State τ) (a : Action τ) : Prop :=
  a = .irq ∧ s.txe = true ∧ s.txeie = true ∧ s.txInd + 1 = s.txNum

/-- `TTY_Task` is about to give `sem_rx`. -/
def GivesRx (s : State τ) (a : Action τ) : Prop :=
  a = .tty ∧ s.frame .ttyTask = .idle ∧ s.pc = .giveSem

/-- No semaphore is given while it holds a token. -/
def GivesOnce (s : State τ) (a : Action τ) : Prop :=
  (GivesTx s a → s.semTx = false) ∧ (GivesRx s a → s.semRx = false)

/-- Whoever waits has a waker, and a token is there only for a call that waits for it. -/
structure Awaited (s : State τ) : Prop where
  tx : ∀ t c, s.frame t = .tx c → c.pc = .takeSem →
    ((s.txeie = true ∧ s.txInd.toNat < s.txNum.toNat) ∨ s.semTx = true) ∧
    ¬ ((s.txeie = true ∧ s.txInd.toNat < s.txNum.toNat) ∧ s.semTx = true)
  rx : ∀ t c, s.frame t = .rx c → c.pc = .takeSem →
    s.rxEnable = true ∨ waking s.pc = true ∨ s.semRx = true
  semTx : s.semTx = true → ∃ t c, s.lockTx = some t ∧ s.frame t = .tx c ∧ c.pc = .takeSem ∧
    s.txeie = false
  semRx : s.semRx = true → ∃ t c, s.lockRx = some t ∧ s.frame t = .rx c ∧ c.pc = .takeSem ∧
    s.rxEnable = false

variable {s : State τ}

theorem tx_awaited (h : TxControl s) {t : Thread τ} {c : TxCall} (hc : s.frame t = .tx c)
    (hpc : c.pc = .takeSem) :
    ((s.txeie = true ∧ s.txInd.toNat < s.txNum.toNat) ∨ s.semTx = true) ∧
    ¬ ((s.txeie = true ∧ s.txInd.toNat < s.txNum.toNat) ∧ s.semTx = true) := by
  have hphase : (txView s).phase t = txPhase c.pc := phases_of_call (txPart_eq_some.mpr hc)
  rw [hpc] at hphase
  have hone := h.shake.signal_of_waiting hphase
  simp only [txView, Bool.toNat_false] at hone
  cases hie : s.txeie <;> cases hsem : s.semTx <;> simp only [hie, hsem] at hone
  · cases hone
  · simp
  · simp [h.index hie]
  · cases hone

theorem rx_awaited (h : RxControl s) {t : Thread τ} {c : RxCall} (hc : s.frame t = .rx c)
    (hpc : c.pc = .takeSem) : s.rxEnable = true ∨ waking s.pc = true ∨ s.semRx = true := by
  have hphase : (rxView s).phase t = rxPhase c.pc := phases_of_call (rxPart_eq_some.mpr hc)
  rw [hpc] at hphase
  have hone := h.shake.signal_of_waiting hphase
  simp only [rxView] at hone
  cases hen : s.rxEnable <;> cases hw : waking s.pc <;> cases hsem : s.semRx <;>
    simp [hen, hw, hsem] at hone ⊢

theorem tx_token (h : TxControl s) (hsem : s.semTx = true) :
    ∃ t c, s.lockTx = some t ∧ s.frame t = .tx c ∧ c.pc = .takeSem ∧ s.txeie = false := by
  obtain ⟨t, hlock, hwaits, -⟩ := h.shake.waiting_of_signal (.inr (.inr hsem))
  obtain ⟨c, hc, -⟩ := h.holder hlock
  have hphase : txPhase c.pc = .waiting :=
    (phases_of_call (K := txKind) (txPart_eq_some.mpr hc)).symm.trans hwaits
  refine ⟨t, c, hlock, hc, ?_, (h.shake.only_token hsem).1⟩
  cases hpc : c.pc <;> simp_all [txPhase]

theorem rx_token (h : RxControl s) (hsem : s.semRx = true) :
    ∃ t c, s.lockRx = some t ∧ s.frame t = .rx c ∧ c.pc = .takeSem ∧ s.rxEnable = false := by
  obtain ⟨t, hlock, hwaits, -⟩ := h.shake.waiting_of_signal (.inr (.inr hsem))
  obtain ⟨c, hc⟩ : ∃ c, rxKind.part (s.frame t) = some c :=
    call_of_phase (hwaits.trans_ne (by decide))
  have hphase : rxPhase c.pc = .waiting := (phases_of_call hc).symm.trans hwaits
  refine ⟨t, c, hlock, rxPart_eq_some.mp hc, ?_, (h.shake.only_token hsem).1⟩
  cases hpc : c.pc <;> simp_all [rxPhase]

theorem awaited (htx : TxControl s) (hrx : RxControl s) : Awaited s where
  tx _ _ hc hpc := tx_awaited htx hc hpc
  rx _ _ hc hpc := rx_awaited hrx hc hpc
  semTx := tx_token htx
  semRx := rx_token hrx

theorem givesOnce (htx : TxControl s) (hrx : RxControl s) (a : Action τ) : GivesOnce s a := by
  constructor
  · rintro ⟨-, -, hie, -⟩
    exact (htx.shake.only_armed hie).2
  · rintro ⟨-, -, hpc⟩
    have hwaking : (rxView s).waking = true := by rw [rxView, hpc]; rfl
    exact (hrx.shake.only_waking hwaking).2

variable [DecidableEq τ]

/-- No wake-up is lost or given twice, for every interleaving of the callers,
`TTY_Task` and the handler. -/
theorem no_lost_wakeup (byteAddr : Word) (mem : Word → UInt8) (as : List (Action τ)) :
    Along step GivesOnce (boot byteAddr mem) as ∧
    ∀ s, run step (boot byteAddr mem) as = some s → Awaited s := by
  have hboot : TxControl (boot byteAddr mem : State τ) ∧ RxControl (boot byteAddr mem : State τ) :=
    ⟨boot_txControl byteAddr mem, boot_rxControl byteAddr mem⟩
  constructor
  · apply along_of_invariant (A := fun _ ↦ True) (I := fun s ↦ TxControl s ∧ RxControl s)
    · exact fun s a t _ h hstep ↦ ⟨h.1.step hstep, h.2.step hstep⟩
    · exact fun s a _ h ↦ givesOnce h.1 h.2 a
    · exact hboot
    · exact fun _ _ ↦ trivial
  · intro s hrun
    have h := run_invariant (I := fun s ↦ TxControl s ∧ RxControl s)
      (fun s a t h hstep ↦ ⟨h.1.step hstep, h.2.step hstep⟩) hboot hrun
    exact awaited h.1 h.2

end Tanenbaum.Tty.Wakeup
