import Tanenbaum.Tty.Wire
import Tanenbaum.Tty.Ownership

namespace Tanenbaum.Tty.Echo

open Lib.Bytes Lib.Runs Lib.Handshake Driver Calls Transmit Wire Ownership

variable {τ : Type}

/-- What happens to a received byte: the handler reads it from the data
register, and `full` says that the queue held 16 bytes then; `TTY_Task` takes it
from the queue; the handler sends it for the echo of `TTY_Task`. -/
inductive Event
  | read (byte : UInt8) (full : Bool)
  | took (byte : UInt8)
  | echo (byte : UInt8)

/-- What `TTY_Task` sends next is an echo. -/
def echoes (s : State τ) : Bool :=
  match s.lockTx, s.pc with
  | some .ttyTask, .test => true
  | _, _ => false

def happens (s : State τ) : Action τ → List Event
  | .irq =>
    if s.txe && s.txeie then if echoes s then [.echo (s.mem (s.txBuf + s.txInd))] else []
    else if s.rxne && s.rxneie then [.read s.rdr (decide (16 ≤ s.qRx.length))]
    else []
  | .tty => if s.pc = .receive then s.qRx.head?.toList.map .took else []
  | _ => []

/-- The bytes the handler read while the queue had room. -/
def kept (log : List Event) : List UInt8 :=
  log.filterMap fun e ↦ match e with
    | .read byte false => some byte
    | _ => none

def taken (log : List Event) : List UInt8 :=
  log.filterMap fun e ↦ match e with
    | .took byte => some byte
    | _ => none

def echoed (log : List Event) : List UInt8 :=
  log.filterMap fun e ↦ match e with
    | .echo byte => some byte
    | _ => none

/-- The echo of the last byte taken is not on the wire yet. -/
def Echoing (s : State τ) : Prop :=
  s.pc = .test ∧ ∃ c, s.frame .ttyTask = .tx c ∧ (c.pc = .takeLock ∨ Sending s c)

/-- `TTY_Task` holds the last byte taken in its variable `byte`. -/
def holdsByte : TtyPc → Bool
  | .test | .storeNewline | .erase | .storeByte => true
  | _ => false

structure EchoInv (s : State τ) (log : List Event) : Prop where
  queue : taken log ++ s.qRx = kept log
  room : s.qRx.length ≤ 16
  call : s.pc = .test → ∀ c, s.frame .ttyTask = .tx c → c.ptr = s.byteAddr ∧ c.num = 1
  last : holdsByte s.pc = true → (taken log).getLast? = some (s.mem s.byteAddr)
  pending : Echoing s → taken log = echoed log ++ [s.mem s.byteAddr]
  done : ¬ Echoing s → taken log = echoed log
  wire : (echoed log).Sublist s.wire

section Steps

variable {s s' : State τ} {a : Action τ} {log : List Event}

theorem echoing_congr (hpc : s'.pc = s.pc)
    (hframe : s.pc = .test → s'.frame .ttyTask = s.frame .ttyTask)
    (hie : s.pc = .test → ∀ c, s.frame .ttyTask = .tx c → c.pc = .takeSem → s'.txeie = s.txeie) :
    Echoing s' ↔ Echoing s := by
  rw [Echoing, Echoing, hpc]
  refine and_congr_right fun htest ↦ exists_congr fun c ↦ ?_
  rw [hframe htest]
  refine and_congr_right fun hc ↦ or_congr_right ?_
  rw [Sending, Sending]
  refine or_congr_right (and_congr_right fun hsem ↦ ?_)
  rw [hie htest c hc hsem]

/-- A step that leaves the byte and its queue alone and does not send its echo. -/
theorem EchoInv.same_echo (h : EchoInv s log) (hpc : s'.pc = s.pc) (hq : s'.qRx = s.qRx)
    (haddr : s'.byteAddr = s.byteAddr) (hmem : s'.mem s.byteAddr = s.mem s.byteAddr)
    (hwire : s.wire.Sublist s'.wire)
    (hcall : s.pc = .test → ∀ c, s'.frame .ttyTask = .tx c → c.ptr = s.byteAddr ∧ c.num = 1)
    (hecho : Echoing s' ↔ Echoing s) : EchoInv s' log := by
  refine ⟨?_, ?_, ?_, ?_, ?_, ?_, h.wire.trans hwire⟩
  · rw [hq]
    exact h.queue
  · rw [hq]
    exact h.room
  · rw [hpc, haddr]
    exact hcall
  · rw [hpc, haddr, hmem]
    exact h.last
  · rw [hecho, haddr, hmem]
    exact h.pending
  · rw [hecho]
    exact h.done

theorem EchoInv.stays (h : EchoInv s log) (hpc : s'.pc = s.pc) (hq : s'.qRx = s.qRx)
    (haddr : s'.byteAddr = s.byteAddr) (hmem : s'.mem s.byteAddr = s.mem s.byteAddr)
    (hwire : s.wire.Sublist s'.wire)
    (hframe : s.pc = .test → s'.frame .ttyTask = s.frame .ttyTask)
    (hie : s.pc = .test → ∀ c, s.frame .ttyTask = .tx c → c.pc = .takeSem → s'.txeie = s.txeie) :
    EchoInv s' log := by
  refine h.same_echo hpc hq haddr hmem hwire (fun htest ↦ ?_) (echoing_congr hpc hframe hie)
  rw [hframe htest]
  exact h.call htest

theorem echoes_eq_true (hlock : s.lockTx = some .ttyTask) (hpc : s.pc = .test) :
    echoes s = true := by
  simp only [echoes, hlock, hpc]

theorem echoes_eq_false (h : ¬ (s.lockTx = some .ttyTask ∧ s.pc = .test)) : echoes s = false := by
  unfold echoes
  split
  · next hlock hpc => exact absurd ⟨hlock, hpc⟩ h
  · rfl

theorem happens_of_quiet (hirq : a ≠ .irq) (htty : a ≠ .tty) : happens s a = [] := by
  cases a with
  | irq => exact absurd rfl hirq
  | tty => exact absurd rfl htty
  | _ => rfl

/-- The handler sends the byte of the echo and with it completes the call. -/
theorem EchoInv.irq_echo (h : EchoInv s log) (hctl : TxControl s) (htxe : s.txe = true)
    (hie : s.txeie = true) (hlock : s.lockTx = some .ttyTask) (hpc : s.pc = .test) :
    EchoInv (usart1IRQHandler s) (log ++ happens s (.irq : Action τ)) := by
  obtain ⟨t, c, hlock', hc, hcpc, hnum, hbuf, hind, -⟩ := hctl.armed hie
  obtain rfl : t = .ttyTask := Option.some.inj (hlock'.symm.trans hlock)
  obtain ⟨hptr, hone⟩ := h.call hpc c hc
  have hzero : s.txInd = 0 := by
    apply BitVec.eq_of_toNat_eq
    rw [hone] at hind
    exact Nat.lt_one_iff.mp hind
  have hbyte : s.mem (s.txBuf + s.txInd) = s.mem s.byteAddr := by
    rw [hbuf, hptr, hzero]
    exact congrArg s.mem (BitVec.add_zero _)
  have hlog : happens s (.irq : Action τ) = [.echo (s.mem s.byteAddr)] := by
    simp only [happens, htxe, hie, echoes_eq_true hlock hpc, hbyte, Bool.and_self, if_true]
  have hlast : s.txInd + 1 = s.txNum := by
    rw [hzero, hnum, hone]
    rfl
  have hechoing : Echoing s := ⟨hpc, c, hc, .inr (.inr ⟨hcpc, hie⟩)⟩
  have htaken := h.pending hechoing
  rcases handler_tx_cases htxe hie with ⟨-, heq⟩ | ⟨hne, -⟩
  · rw [heq, hlog]
    have hecho : echoed (log ++ [.echo (s.mem s.byteAddr)]) = taken log := by
      rw [htaken]
      simp [echoed]
    have hsame : taken (log ++ [.echo (s.mem s.byteAddr)]) = taken log := by simp [taken]
    refine ⟨?_, h.room, h.call, ?_, fun ⟨_, d, hd, hd'⟩ ↦ ?_, fun _ ↦ ?_, ?_⟩
    · rw [hsame]
      simpa [kept] using h.queue
    · rw [hsame]
      exact h.last
    · cases hc.symm.trans hd
      simp [Sending, hcpc, txPhase] at hd'
    · rw [hsame, hecho]
    · rw [hecho, htaken]
      simp only [hbyte]
      exact h.wire.append (List.Sublist.refl _)
  · exact absurd hlast hne

/-- The handler sends a byte of another call. -/
theorem EchoInv.irq_other (h : EchoInv s log) (hctl : TxControl s) (htxe : s.txe = true)
    (hie : s.txeie = true) (hne : ¬ (s.lockTx = some .ttyTask ∧ s.pc = .test)) :
    EchoInv (usart1IRQHandler s) (log ++ happens s (.irq : Action τ)) := by
  have hlog : happens s (.irq : Action τ) = [] := by
    simp only [happens, htxe, hie, echoes_eq_false hne, Bool.and_self, if_true]
    rfl
  rw [hlog, List.append_nil]
  have hwire : s.wire.Sublist (s.wire ++ [s.mem (s.txBuf + s.txInd)]) :=
    List.sublist_append_left ..
  -- at `test` the call of `TTY_Task` cannot be the one that waits
  have hwaits (htest : s.pc = .test) (c : TxCall) (hc : s.frame .ttyTask = .tx c) :
      c.pc ≠ .takeSem := by
    intro hcpc
    exact hne ⟨hctl.lock_eq hc (by rw [hcpc]; decide), htest⟩
  have hie' (b : Bool) (htest : s.pc = .test) (c : TxCall) (hc : s.frame .ttyTask = .tx c)
      (hcpc : c.pc = .takeSem) : b = s.txeie := absurd hcpc (hwaits htest c hc)
  rcases handler_tx_cases htxe hie with ⟨-, heq⟩ | ⟨-, heq⟩ <;> rw [heq]
  · exact h.stays rfl rfl rfl rfl hwire (fun _ ↦ rfl) (hie' false)
  · exact h.stays rfl rfl rfl rfl hwire (fun _ ↦ rfl) fun _ _ _ _ ↦ rfl

theorem EchoInv.irq_read (h : EchoInv s log) (hno : ¬ (s.txe = true ∧ s.txeie = true)) :
    EchoInv (usart1IRQHandler s) (log ++ happens s (.irq : Action τ)) := by
  have htx : (s.txe && s.txeie) = false := by simpa using hno
  by_cases hrx : (s.rxne && s.rxneie) = true
  · have hlog : happens s (.irq : Action τ) = [.read s.rdr (decide (16 ≤ s.qRx.length))] := by
      simp only [happens, htx, hrx, Bool.false_eq_true, if_false, if_true]
    have heq : usart1IRQHandler s =
        { s with rxne := false, qRx := xQueueSendFromISR s.qRx s.rdr } := by
      simp only [usart1IRQHandler, htx, hrx, Bool.false_eq_true, if_false, if_true]
    rw [heq, hlog]
    have htaken (e : Bool) : taken (log ++ [.read s.rdr e]) = taken log := by simp [taken]
    have hechoed (e : Bool) : echoed (log ++ [.read s.rdr e]) = echoed log := by simp [echoed]
    refine ⟨?_, ?_, h.call, ?_, ?_, ?_, ?_⟩
    · rw [htaken, xQueueSendFromISR]
      by_cases hroom : s.qRx.length < 16
      · have hfull : decide (16 ≤ s.qRx.length) = false := decide_eq_false (by omega)
        rw [if_pos hroom, hfull, ← List.append_assoc, h.queue]
        simp [kept]
      · have hfull : decide (16 ≤ s.qRx.length) = true := decide_eq_true (by omega)
        rw [if_neg hroom, hfull, h.queue]
        simp [kept]
    · have hle := h.room
      simp only [xQueueSendFromISR]
      split
      · rw [List.length_append, List.length_singleton]
        omega
      · exact hle
    · rw [htaken]
      exact h.last
    · rw [htaken, hechoed]
      exact h.pending
    · rw [htaken, hechoed]
      exact h.done
    · rw [hechoed]
      exact h.wire
  · have hrx : (s.rxne && s.rxneie) = false := by simpa using hrx
    have hlog : happens s (.irq : Action τ) = [] := by
      simp only [happens, htx, hrx, Bool.false_eq_true, if_false]
    have heq : usart1IRQHandler s = s := by
      simp only [usart1IRQHandler, htx, hrx, Bool.false_eq_true, if_false]
    rw [heq, hlog, List.append_nil]
    exact h

variable [DecidableEq τ]

theorem EchoInv.tx_other {t : Thread τ} {c : TxCall} (h : EchoInv s log) (hctl : TxControl s)
    (hc : s.frame t = .tx c) (ht : t ≠ .ttyTask ∨ s.pc ≠ .test)
    (hstep : txStep t c s = some s') : EchoInv s' log := by
  have hmoves := txStep_moves hstep
  have hother (htest : s.pc = .test) : t ≠ .ttyTask := ht.resolve_right fun hne ↦ hne htest
  refine h.stays hmoves.pc hmoves.qRx hmoves.byteAddr (by rw [hmoves.mem]) (by rw [hmoves.wire])
    (fun htest ↦ ?_) fun htest d hd hdpc ↦ hmoves.txeie fun hcpc ↦ ?_
  · exact hmoves.frame_of_ne (hother htest).symm
  · -- two calls would be inside the lock
    have hout := hctl.alone hc (by rw [hcpc]; decide) .ttyTask d (hother htest).symm
      (txPart_eq_some.mpr hd)
    rw [hdpc] at hout
    cases hout

theorem EchoInv.tx_echo {c : TxCall} (h : EchoInv s log) (hctl : TxControl s)
    (hc : s.frame .ttyTask = .tx c) (htest : s.pc = .test)
    (hstep : txStep .ttyTask c s = some s') : EchoInv s' log := by
  have hmoves := txStep_moves hstep
  have hcall := h.call htest c hc
  have hnext (pc : TxPc) (hframe : s'.frame .ttyTask = .tx { c with pc := pc })
      (hecho : (pc = .takeLock ∨ Sending s' { c with pc := pc }) ↔
        (c.pc = .takeLock ∨ Sending s c)) : EchoInv s' log := by
    refine h.same_echo hmoves.pc hmoves.qRx hmoves.byteAddr (by rw [hmoves.mem])
      (by rw [hmoves.wire]) (fun _ d hd ↦ ?_) ?_
    · cases hframe.symm.trans hd
      exact hcall
    · rw [Echoing, Echoing, hmoves.pc, hframe, hc]
      simpa using fun _ ↦ hecho
  cases hcpc : c.pc <;> simp only [txStep, hcpc] at hstep
  case takeLock =>
    split at hstep <;> cases hstep
    exact hnext .storeNum (by simp [State.setFrame]) (by simp [Sending, txPhase, hcpc])
  case takeSem =>
    split at hstep <;> cases hstep
    next hsem =>
    have hoff : s.txeie = false := (hctl.shake.only_token hsem).1
    exact hnext .giveLock (by simp [State.setFrame]) (by simp [Sending, txPhase, hcpc, hoff])
  case ret =>
    cases hstep
    refine h.same_echo rfl rfl rfl rfl (List.Sublist.refl _) (fun _ d hd ↦ ?_) ?_
    · simp [State.setFrame] at hd
    · simp [Echoing, State.setFrame, hc, Sending, txPhase, hcpc]
  case storeNum =>
    cases hstep
    exact hnext .storeBuf (by simp [State.setFrame]) (by simp [Sending, txPhase, hcpc])
  case storeBuf =>
    cases hstep
    exact hnext .enableTxe (by simp [State.setFrame]) (by simp [Sending, txPhase, hcpc])
  case enableTxe =>
    cases hstep
    exact hnext .takeSem (by simp [State.setFrame]) (by simp [Sending, txPhase, hcpc])
  case giveLock =>
    cases hstep
    exact hnext .ret (by simp [State.setFrame]) (by simp [Sending, txPhase, hcpc])

theorem ttyStep_keeps (hpc : s.pc ≠ .receive) (h : ttyStep s = some s') :
    s'.qRx = s.qRx ∧ s'.byteAddr = s.byteAddr ∧ s'.wire = s.wire ∧ s'.frame = s.frame ∧
      (holdsByte s'.pc = true → s.pc = .test ∧ s'.mem = s.mem) := by
  cases htty : s.pc <;> simp only [ttyStep, htty] at h
  case receive => exact absurd htty hpc
  case test =>
    cases h
    exact ⟨rfl, rfl, rfl, rfl, fun _ ↦ ⟨rfl, rfl⟩⟩
  case compare =>
    cases h
    refine ⟨rfl, rfl, rfl, rfl, fun hholds ↦ ?_⟩
    simp only at hholds
    split at hholds <;> cases hholds
  all_goals
    cases h
    exact ⟨rfl, rfl, rfl, rfl, fun hholds ↦ by cases hholds⟩

theorem EchoInv.receive (h : EchoInv s log) (hpc : s.pc = .receive) (hstep : ttyStep s = some s') :
    EchoInv s' (log ++ happens s (.tty : Action τ)) := by
  simp only [ttyStep, hpc] at hstep
  split at hstep <;> cases hstep
  next byte q hq =>
  have hlog : happens s (.tty : Action τ) = [.took byte] := by simp [happens, hpc, hq]
  have htaken : taken (log ++ [.took byte]) = taken log ++ [byte] := by simp [taken]
  have hechoed : echoed (log ++ [.took byte]) = taken log := by
    rw [h.done fun hecho ↦ absurd (hecho.1.symm.trans hpc) (by decide)]
    simp [echoed]
  have hroom := h.room
  rw [hlog]
  refine ⟨?_, ?_, fun _ c hc ↦ ?_, fun _ ↦ ?_, fun _ ↦ ?_, fun hno ↦ ?_, ?_⟩
  · have hqueue := h.queue
    rw [hq] at hqueue
    rw [htaken, List.append_assoc]
    simpa [kept] using hqueue
  · rw [hq, List.length_cons] at hroom
    exact Nat.le_of_succ_le hroom
  · simp only [State.setFrame, Function.update_self] at hc
    cases hc
    exact ⟨rfl, rfl⟩
  · rw [htaken]
    simp
  · rw [htaken, hechoed]
    simp
  · refine absurd ⟨rfl, ⟨.takeLock, s.byteAddr, 1, by decide⟩, ?_, .inl rfl⟩ hno
    simp [State.setFrame]
  · have hwire := h.wire
    rw [← h.done fun hecho ↦ absurd (hecho.1.symm.trans hpc) (by decide)] at hwire
    rw [hechoed]
    exact hwire

theorem EchoInv.ttyStep (h : EchoInv s log) (hidle : s.frame .ttyTask = .idle)
    (hstep : ttyStep s = some s') : EchoInv s' (log ++ happens s (.tty : Action τ)) := by
  by_cases hpc : s.pc = .receive
  · exact h.receive hpc hstep
  have hlog : happens s (.tty : Action τ) = [] := if_neg hpc
  rw [hlog, List.append_nil]
  obtain ⟨hq, haddr, hwire, hframe, hholds⟩ := ttyStep_keeps hpc hstep
  have hquiet {s : State τ} (hidle : s.frame .ttyTask = .idle) : ¬ Echoing s := by
    rintro ⟨-, c, hc, -⟩
    rw [hidle] at hc
    cases hc
  have hidle' : s'.frame .ttyTask = .idle := by rw [hframe, hidle]
  refine ⟨?_, ?_, fun _ c hc ↦ ?_, fun hh ↦ ?_, fun hecho ↦ ?_, fun _ ↦ h.done (hquiet hidle), ?_⟩
  · rw [hq]
    exact h.queue
  · rw [hq]
    exact h.room
  · rw [hidle'] at hc
    cases hc
  · obtain ⟨htest, hmem⟩ := hholds hh
    rw [haddr, hmem]
    exact h.last (by rw [htest]; rfl)
  · exact absurd hecho (hquiet hidle')
  · rw [hwire]
    exact h.wire

/-- No code outside the driver writes to the variable `byte` of `TTY_Task`. -/
def ByteKept (s : State τ) : Action τ → Prop
  | .poke x _ => x ≠ s.byteAddr
  | _ => True

theorem EchoInv.step (h : EchoInv s log) (hctl : TxControl s) (hkept : ByteKept s a)
    (hstep : step s a = some s') : EchoInv s' (log ++ happens s a) := by
  cases a with
  | irq =>
    cases hstep
    by_cases htx : s.txe = true ∧ s.txeie = true
    · by_cases hecho : s.lockTx = some .ttyTask ∧ s.pc = .test
      · exact h.irq_echo hctl htx.1 htx.2 hecho.1 hecho.2
      · exact h.irq_other hctl htx.1 htx.2 hecho
    · exact h.irq_read htx
  | tty =>
    simp only [Driver.step] at hstep
    split at hstep
    · next hidle => exact h.ttyStep hidle hstep
    · cases hstep
  | tx t =>
    rw [happens_of_quiet (by simp) (by simp), List.append_nil]
    simp only [Driver.step] at hstep
    split at hstep
    · next c hc =>
      by_cases hecho : t = .ttyTask ∧ s.pc = .test
      · obtain ⟨rfl, htest⟩ := hecho
        exact h.tx_echo hctl hc htest hstep
      · exact h.tx_other hctl hc (not_and_or.mp hecho) hstep
    · cases hstep
  | callTx t ptr num =>
    rw [happens_of_quiet (by simp) (by simp), List.append_nil]
    simp only [Driver.step] at hstep
    split at hstep
    · cases hstep
    · next hprints =>
      rcases enter_cases hstep with rfl | ⟨-, hnum, rfl⟩
      · exact h
      · refine h.stays rfl rfl rfl rfl (List.Sublist.refl _) (fun htest ↦ ?_) fun _ _ _ _ ↦ rfl
        refine setFrame_of_ne s _ fun ht ↦ hprints ⟨ht.symm, ?_⟩
        rw [htest]
        rfl
  | callRx t buf num =>
    rw [happens_of_quiet (by simp) (by simp), List.append_nil]
    simp only [Driver.step] at hstep
    rcases enter_cases hstep with rfl | ⟨-, hnum, rfl⟩
    · exact h
    · exact h.stays rfl rfl rfl rfl (List.Sublist.refl _) (fun _ ↦ setFrame_of_ne s _ (by simp))
        fun _ _ _ _ ↦ rfl
  | rx t =>
    rw [happens_of_quiet (by simp) (by simp), List.append_nil]
    simp only [Driver.step] at hstep
    split at hstep
    · have hmoves := rxStep_moves hstep
      exact h.stays hmoves.pc hmoves.qRx hmoves.byteAddr (by rw [hmoves.mem]) (by rw [hmoves.wire])
        (fun _ ↦ hmoves.frame_of_ne (by simp)) fun _ _ _ _ ↦ hmoves.txeie
    · cases hstep
  | txEmpty =>
    rw [happens_of_quiet (by simp) (by simp), List.append_nil]
    cases hstep
    exact h.stays rfl rfl rfl rfl (List.Sublist.refl _) (fun _ ↦ rfl) fun _ _ _ _ ↦ rfl
  | arrive byte =>
    rw [happens_of_quiet (by simp) (by simp), List.append_nil]
    cases hstep
    split
    · exact h
    · exact h.stays rfl rfl rfl rfl (List.Sublist.refl _) (fun _ ↦ rfl) fun _ _ _ _ ↦ rfl
  | poke x v =>
    rw [happens_of_quiet (by simp) (by simp), List.append_nil]
    cases hstep
    exact h.stays rfl rfl rfl (Function.update_of_ne (Ne.symm hkept) v s.mem)
      (List.Sublist.refl _) (fun _ ↦ rfl) fun _ _ _ _ ↦ rfl

end Steps

section Runs

/-- A byte changes the line buffer after its echo, which is then on the wire. -/
def ChangesAfterEcho (p : State τ × List Event) (a : Action τ) : Prop :=
  a = .tty → p.1.frame .ttyTask = .idle → stores p.1.pc = true →
    (taken p.2).getLast? = some (p.1.mem p.1.byteAddr) ∧ taken p.2 = echoed p.2 ∧
      (echoed p.2).Sublist p.1.wire

/-- The echoes sent are those of the bytes taken, except for the one in progress. -/
def EchoesTaken (s : State τ) (log : List Event) : Prop :=
  (¬ Echoing s ∧ taken log = echoed log) ∨
    Echoing s ∧ taken log = echoed log ++ [s.mem s.byteAddr]

variable {s : State τ} {log : List Event}

theorem EchoInv.changesAfterEcho (h : EchoInv s log) (a : Action τ) :
    ChangesAfterEcho (s, log) a := by
  intro _ hidle hstores
  have hholds : holdsByte s.pc = true := by
    cases hpc : s.pc <;> simp_all [stores, holdsByte]
  have hquiet : ¬ Echoing s := by
    rintro ⟨-, c, hc, -⟩
    rw [hidle] at hc
    cases hc
  exact ⟨h.last hholds, h.done hquiet, h.wire⟩

theorem EchoInv.echoesTaken (h : EchoInv s log) : EchoesTaken s log := by
  by_cases hecho : Echoing s
  · exact .inr ⟨hecho, h.pending hecho⟩
  · exact .inl ⟨hecho, h.done hecho⟩

theorem boot_echoInv (byteAddr : Word) (mem : Word → UInt8) :
    EchoInv (boot byteAddr mem : State τ) [] := by
  refine ⟨rfl, Nat.zero_le _, fun hpc ↦ ?_, fun hpc ↦ ?_, fun hecho ↦ ?_, fun _ ↦ rfl, ?_⟩
  · cases hpc
  · cases hpc
  · cases hecho.1
  · exact List.Sublist.refl _

variable [DecidableEq τ]

/-- Received bytes get to the echo and to the line in the order in which the
handler read them, each once, whatever else is going on. -/
theorem received_bytes_in_order (byteAddr : Word) (mem : Word → UInt8) (as : List (Action τ))
    (hkept : Along step ByteKept (boot byteAddr mem) as) :
    Along (recording step happens) ChangesAfterEcho (boot byteAddr mem, []) as ∧
    ∀ s log, run (recording step happens) (boot byteAddr mem, []) as = some (s, log) →
      taken log ++ s.qRx = kept log ∧ EchoesTaken s log ∧ (echoed log).Sublist s.wire := by
  have hkept := along_recording happens hkept []
  have hboot : TxControl (boot byteAddr mem : State τ) ∧
      EchoInv (boot byteAddr mem : State τ) [] :=
    ⟨boot_txControl byteAddr mem, boot_echoInv byteAddr mem⟩
  have hstep (p : State τ × List Event) (a : Action τ) (q : State τ × List Event)
      (hp : TxControl p.1 ∧ EchoInv p.1 p.2) (hk : ByteKept p.1 a)
      (hq : recording step happens p a = some q) : TxControl q.1 ∧ EchoInv q.1 q.2 := by
    obtain ⟨hstep, hlog⟩ := recording_eq_some.mp hq
    exact ⟨hp.1.step hstep, hlog ▸ hp.2.step hp.1 hk hstep⟩
  constructor
  · exact along_of_along (I := fun p ↦ TxControl p.1 ∧ EchoInv p.1 p.2) hstep
      (fun p a hp _ ↦ hp.2.changesAfterEcho a) hboot hkept
  · intro s log hrun
    have hinv := (run_invariant_along (I := fun p ↦ TxControl p.1 ∧ EchoInv p.1 p.2) hstep hboot
      hkept hrun).2
    exact ⟨hinv.queue, hinv.echoesTaken, hinv.wire⟩

/-- A byte is received and echoed while another task transmits. -/
def busyEcho : List (Action Unit) :=
  [.tty, .tty, .callTx (.task ()) 0x20000141 1, .tx (.task ()), .arrive 97, .irq, .tty,
    .tx (.task ()), .tx (.task ()), .tx (.task ()), .irq, .txEmpty, .tx (.task ()),
    .tx (.task ()), .tx .ttyTask, .tx .ttyTask, .tx .ttyTask, .tx .ttyTask, .irq]

theorem busyEcho_in_order : ∃ s log,
    run (recording step happens) (boot 0x20000000 fun _ ↦ 65, []) busyEcho = some (s, log) ∧
      s.wire = [65, 97] ∧ echoed log = [97] ∧ taken log ++ s.qRx = kept log ∧
      EchoesTaken s log := by
  have hkept : Along step ByteKept (boot 0x20000000 fun _ ↦ 65) busyEcho := by
    apply along_of_invariant (A := fun a ↦ ∀ x v, a ≠ .poke x v) (I := fun _ ↦ True)
    · exact fun _ _ _ _ _ _ ↦ trivial
    · intro s a ha _
      cases a with
      | poke x v => exact absurd rfl (ha x v)
      | _ => trivial
    · trivial
    · simp [busyEcho]
  have hrun : ((run (recording step happens) (boot 0x20000000 fun _ ↦ 65, [])
      busyEcho).map fun p ↦ (p.1.wire, echoed p.2)) = some ([65, 97], [97]) := by decide
  obtain ⟨p, hp, heq⟩ := Option.map_eq_some_iff.mp hrun
  simp only [Prod.mk.injEq] at heq
  obtain ⟨hqueue, hechoes, -⟩ := (received_bytes_in_order 0x20000000 _ busyEcho hkept).2 p.1 p.2 hp
  exact ⟨p.1, p.2, hp, heq.1, heq.2, hqueue, hechoes⟩

end Runs

end Tanenbaum.Tty.Echo
