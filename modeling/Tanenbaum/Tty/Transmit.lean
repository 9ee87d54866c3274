import Tanenbaum.Tty.Calls

namespace Tanenbaum.Tty.Transmit

open Lib.Bytes Lib.Handshake Driver Calls

variable {τ : Type}

def txPart : Frame → Option TxCall
  | .tx c => some c
  | _ => none

def txPhase : TxPc → Phase
  | .takeLock | .ret => .outside
  | .storeNum | .storeBuf | .enableTxe => .preparing
  | .takeSem => .waiting
  | .giveLock => .leaving

def txKind : Kind TxCall where
  part := txPart
  phase c := txPhase c.pc
  entered c := c.pc = .takeLock
  part_idle := rfl
  outside_of_entered c h := by rw [h]; rfl

/-- The transmitter's handshake: the handler is the waker, armed by TXEIE. -/
def txView (s : State τ) : View (Thread τ) :=
  ⟨s.lockTx, txKind.phases s.frame, s.txeie, false, s.semTx⟩

theorem txPart_eq_some {f : Frame} {c : TxCall} : txKind.part f = some c ↔ f = .tx c := by
  cases f <;> simp [txKind, txPart]

section Quiet

/-- A step that leaves the transmitter alone; calls may only be entered. -/
structure TxQuiet (s s' : State τ) : Prop where
  lock : s'.lockTx = s.lockTx
  sem : s'.semTx = s.semTx
  buf : s'.txBuf = s.txBuf
  num : s'.txNum = s.txNum
  ind : s'.txInd = s.txInd
  ie : s'.txeie = s.txeie
  wire : s'.wire = s.wire
  same : txKind.Same s.frame s'.frame

def txCore (s : State τ) :=
  (s.lockTx, s.semTx, s.txBuf, s.txNum, s.txInd, s.txeie, s.wire)

variable {s s' : State τ} {a : Action τ}

theorem TxQuiet.of_core (hcore : txCore s' = txCore s) (hsame : txKind.Same s.frame s'.frame) :
    TxQuiet s s' := by
  simp only [txCore, Prod.mk.injEq] at hcore
  obtain ⟨hlock, hsem, hbuf, hnum, hind, hie, hwire⟩ := hcore
  exact ⟨hlock, hsem, hbuf, hnum, hind, hie, hwire, hsame⟩

variable [DecidableEq τ]

theorem enter_txQuiet {t : Thread τ} {num : Word} {g : num ≠ 0 → Frame}
    (hg : ∀ hnum c, txKind.part (g hnum) = some c → c.pc = .takeLock)
    (h : enter s t num g = some s') : TxQuiet s s' := by
  have hsame : txKind.Same s.frame s'.frame := enter_same hg h
  rcases enter_cases h with rfl | ⟨-, hnum, rfl⟩ <;>
    exact .of_core rfl hsame

theorem rxStep_txQuiet {t : Thread τ} {c : RxCall} (hc : s.frame t = .rx c)
    (h : rxStep t c s = some s') : TxQuiet s s' := by
  have hmoves := rxStep_moves h
  have hold : txKind.part (s.frame t) = none := by rw [hc]; rfl
  refine ⟨hmoves.lockTx, hmoves.semTx, hmoves.txBuf, hmoves.txNum, hmoves.txInd, hmoves.txeie,
    hmoves.wire, ?_⟩
  obtain ⟨f, hf, hidle | ⟨d, hd⟩⟩ := hmoves.frame
  · rw [hf, hidle]
    exact same_update hold fun _ habs ↦ by cases habs
  · rw [hf, hd]
    exact same_update hold fun _ habs ↦ by cases habs

theorem ttyStep_txQuiet (hidle : s.frame .ttyTask = .idle) (h : ttyStep s = some s') :
    TxQuiet s s' := by
  cases hpc : s.pc <;> simp only [ttyStep, hpc] at h
  case receive =>
    split at h <;> cases h
    refine .of_core rfl (same_update (by rw [hidle]; rfl) fun c hc ↦ ?_)
    cases hc
    rfl
  all_goals
    cases h
    exact .of_core rfl (.refl s.frame)

/-- What a step can do to the transmitter. -/
theorem step_tx_cases (h : step s a = some s') :
    (∃ t c, a = .tx t ∧ s.frame t = .tx c ∧ txStep t c s = some s') ∨
    (a = .irq ∧ s.txe = true ∧ s.txeie = true ∧ s' = usart1IRQHandler s) ∨
    ((∀ t, a ≠ .tx t) ∧ TxQuiet s s') := by
  cases a with
  | callTx t ptr num =>
    simp only [step] at h
    split at h
    · cases h
    · refine .inr (.inr ⟨by simp, enter_txQuiet (fun hn c hc ↦ ?_) h⟩)
      cases hc
      rfl
  | tx t =>
    simp only [step] at h
    split at h
    · next c hc => exact .inl ⟨t, c, rfl, hc, h⟩
    · cases h
  | callRx t buf num =>
    simp only [step] at h
    refine .inr (.inr ⟨by simp, enter_txQuiet (fun hn c hc ↦ ?_) h⟩)
    cases hc
  | rx t =>
    simp only [step] at h
    split at h
    · next c hc => exact .inr (.inr ⟨by simp, rxStep_txQuiet hc h⟩)
    · cases h
  | tty =>
    simp only [step] at h
    split at h
    · next hidle => exact .inr (.inr ⟨by simp, ttyStep_txQuiet hidle h⟩)
    · cases h
  | irq =>
    cases h
    by_cases htx : s.txe = true ∧ s.txeie = true
    · exact .inr (.inl ⟨rfl, htx.1, htx.2, rfl⟩)
    · have hno : (s.txe && s.txeie) = false := by simpa using htx
      refine .inr (.inr ⟨by simp, ?_⟩)
      simp only [usart1IRQHandler, hno, Bool.false_eq_true, if_false]
      split <;> exact .of_core rfl (.refl s.frame)
  | txEmpty =>
    cases h
    exact .inr (.inr ⟨by simp, .of_core rfl (.refl s.frame)⟩)
  | arrive byte =>
    cases h
    refine .inr (.inr ⟨by simp, ?_⟩)
    split <;> exact .of_core rfl (.refl s.frame)
  | poke x v =>
    cases h
    exact .inr (.inr ⟨by simp, .of_core rfl (.refl s.frame)⟩)

end Quiet

section Control

/-- What a call inside the lock has published. -/
def Published (s : State τ) (c : TxCall) : Prop :=
  match c.pc with
  | .storeBuf | .giveLock => s.txNum = c.num
  | .enableTxe | .takeSem => s.txNum = c.num ∧ s.txBuf = c.ptr
  | _ => True

/-- The transmitter under control of the call that holds `lock_tx`. -/
structure TxControl (s : State τ) : Prop where
  shake : Inv (txView s)
  published : ∀ t c, txKind.part (s.frame t) = some c → Published s c
  rest : s.txeie = false → s.txInd = 0
  index : s.txeie = true → s.txInd.toNat < s.txNum.toNat

variable {s s' : State τ} {t : Thread τ} {c : TxCall}

theorem TxControl.outside (h : TxControl s) (hlock : s.lockTx = none ∨ s.lockTx = some t)
    (u : Thread τ) (d : TxCall) (hu : u ≠ t) (hd : txKind.part (s.frame u) = some d) :
    txPhase d.pc = .outside := outside_of_lock h.shake rfl hlock u d hu hd

theorem TxControl.lock_eq (h : TxControl s) (hc : s.frame t = .tx c)
    (hpc : txPhase c.pc ≠ .outside) : s.lockTx = some t := by
  have hphase : txKind.phases s.frame t = txPhase c.pc := phases_of_call (txPart_eq_some.mpr hc)
  rw [← hphase] at hpc
  exact (h.shake.owner t).mp hpc

theorem TxControl.alone (h : TxControl s) (hc : s.frame t = .tx c)
    (hpc : txPhase c.pc ≠ .outside) (u : Thread τ) (d : TxCall) (hu : u ≠ t)
    (hd : txKind.part (s.frame u) = some d) : txPhase d.pc = .outside :=
  h.outside (.inr (h.lock_eq hc hpc)) u d hu hd

theorem TxControl.holder (h : TxControl s) (hlock : s.lockTx = some t) :
    ∃ c, s.frame t = .tx c ∧ txPhase c.pc ≠ .outside := by
  have hin := (h.shake.owner t).mpr hlock
  obtain ⟨c, hc⟩ := call_of_phase hin
  have hphase : (txView s).phase t = txPhase c.pc := phases_of_call hc
  exact ⟨c, txPart_eq_some.mp hc, hphase ▸ hin⟩

theorem published_of_outside {d : TxCall} (h : txPhase d.pc = .outside) (s : State τ) :
    Published s d := by
  cases hpc : d.pc <;> simp_all [Published, txPhase]

theorem published_congr (hnum : s'.txNum = s.txNum) (hbuf : s'.txBuf = s.txBuf) :
    Published s' c ↔ Published s c := by
  simp only [Published, hnum, hbuf]

theorem TxControl.armed (h : TxControl s) (hie : s.txeie = true) :
    ∃ t c, s.lockTx = some t ∧ s.frame t = .tx c ∧ c.pc = .takeSem ∧ s.txNum = c.num ∧
      s.txBuf = c.ptr ∧ s.txInd.toNat < c.num.toNat ∧ s.semTx = false := by
  obtain ⟨t, hlock, hwaits, hone⟩ := h.shake.waiting_of_signal (.inl hie)
  obtain ⟨c, hc⟩ : ∃ c, txKind.part (s.frame t) = some c :=
    call_of_phase (hwaits.trans_ne (by decide))
  have hpc : c.pc = .takeSem := by
    have hphase : txPhase c.pc = .waiting := (phases_of_call hc).symm.trans hwaits
    cases hcpc : c.pc <;> simp_all [txPhase]
  have hpub := h.published t c hc
  rw [Published, hpc] at hpub
  refine ⟨t, c, hlock, txPart_eq_some.mp hc, hpc, hpub.1, hpub.2, hpub.1 ▸ h.index hie, ?_⟩
  simp only [txView, hie, Bool.toNat_true, Bool.toNat_false] at hone
  cases hsem : s.semTx
  · rfl
  · rw [hsem, Bool.toNat_true] at hone
    omega

theorem TxControl.quiet (h : TxControl s) (hq : TxQuiet s s') : TxControl s' := by
  have hview : txView s' = txView s := by
    rw [txView, txView, hq.same.phases_eq, hq.lock, hq.ie, hq.sem]
  refine ⟨hview ▸ h.shake, fun t c hc ↦ ?_, ?_, ?_⟩
  · rw [published_congr hq.num hq.buf]
    rcases hq.same.old hc with hold | hnew
    · exact h.published t c hold
    · exact published_of_outside (txKind.outside_of_entered c hnew) s
  · rw [hq.ie, hq.ind]
    exact h.rest
  · rw [hq.ie, hq.ind, hq.num]
    exact h.index

variable [DecidableEq τ]

theorem txStep_view (hc : s.frame t = .tx c) (hstep : txStep t c s = some s') :
    txView s' = txView s ∨ Step (txView s) (txView s') := by
  have hpart := txPart_eq_some.mpr hc
  have hphase : (txView s).phase t = txPhase c.pc := phases_of_call hpart
  have hmove (pc : TxPc) : txKind.phases (s.setFrame t (.tx { c with pc := pc })).frame =
      Function.update (txView s).phase t (txPhase pc) := phases_update _ _ _
  have hstay {f : Frame} (hf : txKind.framePhase f = txKind.phase c) :
      txView (s.setFrame t f) = txView s :=
    congrArg (fun p ↦ { txView s with phase := p }) (phases_update_same hpart hf)
  cases hpc : c.pc <;> simp only [txStep, hpc] at hstep <;> rw [hpc] at hphase
  case takeLock =>
    split at hstep <;> cases hstep
    next hlock =>
    refine .inr ((Step.acquire t (Option.isNone_iff_eq_none.mp hlock) hphase).of_eq ?_)
    exact congrArg (fun p ↦ { txView s with lock := some t, phase := p }) (hmove _)
  case enableTxe =>
    cases hstep
    refine .inr ((Step.arm t hphase).of_eq ?_)
    exact congrArg (fun p ↦ { txView s with armed := true, phase := p }) (hmove _)
  case takeSem =>
    split at hstep <;> cases hstep
    next hsem =>
    refine .inr ((Step.consume t hphase hsem).of_eq ?_)
    exact congrArg (fun p ↦ { txView s with token := false, phase := p }) (hmove _)
  case giveLock =>
    cases hstep
    refine .inr ((Step.release t hphase).of_eq ?_)
    exact congrArg (fun p ↦ { txView s with lock := none, phase := p }) (hmove _)
  all_goals
    cases hstep
    exact .inl (hstay (by simp only [txKind, hpc]; rfl))

theorem TxControl.txStep (h : TxControl s) (hc : s.frame t = .tx c)
    (hstep : txStep t c s = some s') : TxControl s' := by
  have hshake : Inv (txView s') := by
    rcases txStep_view hc hstep with heq | hs
    · rw [heq]
      exact h.shake
    · exact h.shake.step hs
  have hpub := h.published t c (txPart_eq_some.mpr hc)
  have hphase : (txView s).phase t = txPhase c.pc := phases_of_call (txPart_eq_some.mpr hc)
  -- only the call that moves has something published
  have hpublished {s' : State τ} {c' : TxCall}
      (hout : ∀ u d, u ≠ t → txKind.part (s.frame u) = some d → txPhase d.pc = .outside)
      (hown : Published s' c') (u : Thread τ) (d : TxCall)
      (hd : txKind.part (Function.update s.frame t (.tx c') u) = some d) : Published s' d :=
    forall_update (K := txKind) (fun e he ↦ by cases he; exact hown)
      (fun v e hv he ↦ published_of_outside (hout v e hv he) s') u d hd
  cases hpc : c.pc <;> simp only [Driver.txStep, hpc] at hstep <;> rw [hpc] at hphase <;>
    simp only [Published, hpc] at hpub
  case takeLock =>
    split at hstep <;> cases hstep
    next hlock =>
    have hout := h.outside (t := t) (.inl (Option.isNone_iff_eq_none.mp hlock))
    exact ⟨hshake, hpublished hout trivial, h.rest, h.index⟩
  case storeNum =>
    cases hstep
    have hquiet := h.shake.quiet_of_phase (t := t) (by rw [hphase]; decide) (by rw [hphase]; decide)
    have hout := h.alone hc (by rw [hpc]; decide)
    exact ⟨hshake, hpublished hout rfl, h.rest,
      fun hie ↦ absurd (hquiet.1.symm.trans hie) (by decide)⟩
  case storeBuf =>
    cases hstep
    have hout := h.alone hc (by rw [hpc]; decide)
    exact ⟨hshake, hpublished hout ⟨hpub, rfl⟩, h.rest, h.index⟩
  case enableTxe =>
    cases hstep
    have hquiet := h.shake.quiet_of_phase (t := t) (by rw [hphase]; decide) (by rw [hphase]; decide)
    have hout := h.alone hc (by rw [hpc]; decide)
    refine ⟨hshake, hpublished hout hpub, by simp, fun _ ↦ ?_⟩
    -- the handler left the index at 0, and the request is not empty
    have hzero : s.txInd = 0 := h.rest hquiet.1
    have hpos := toNat_pos c.num_ne
    show s.txInd.toNat < s.txNum.toNat
    rw [hzero, hpub.1]
    exact hpos
  case takeSem =>
    split at hstep <;> cases hstep
    have hout := h.alone hc (by rw [hpc]; decide)
    exact ⟨hshake, hpublished hout hpub.1, h.rest, h.index⟩
  case giveLock =>
    cases hstep
    have hout := h.alone hc (by rw [hpc]; decide)
    exact ⟨hshake, hpublished hout trivial, h.rest, h.index⟩
  case ret =>
    cases hstep
    refine ⟨hshake, forall_update (K := txKind) (fun d hd ↦ ?_) fun u d _ hd ↦ ?_, h.rest, h.index⟩
    · cases hd
    · exact (published_congr rfl rfl).mpr (h.published u d hd)

omit [DecidableEq τ] in
theorem handler_tx_cases (htxe : s.txe = true) (hie : s.txeie = true) :
    (s.txInd + 1 = s.txNum ∧ usart1IRQHandler s = { s with
      wire := s.wire ++ [s.mem (s.txBuf + s.txInd)], txe := false, txInd := 0, txeie := false,
      semTx := true }) ∨
    (s.txInd + 1 ≠ s.txNum ∧ usart1IRQHandler s = { s with
      wire := s.wire ++ [s.mem (s.txBuf + s.txInd)], txe := false, txInd := s.txInd + 1 }) := by
  by_cases hlast : s.txInd + 1 = s.txNum
  · refine .inl ⟨hlast, ?_⟩
    simp only [usart1IRQHandler, htxe, hie, hlast, Bool.and_self, if_true]
  · refine .inr ⟨hlast, ?_⟩
    simp only [usart1IRQHandler, htxe, hie, hlast, Bool.and_self, if_true, if_false]

theorem TxControl.irq (h : TxControl s) (htxe : s.txe = true) (hie : s.txeie = true) :
    TxControl (usart1IRQHandler s) := by
  have hindex := h.index hie
  rcases handler_tx_cases htxe hie with ⟨-, heq⟩ | ⟨hne, heq⟩ <;> rw [heq]
  · exact ⟨h.shake.step (Step.signal hie), fun t c hc ↦ h.published t c hc, fun _ ↦ rfl, fun hon ↦ by cases hon⟩
  · refine ⟨h.shake, fun t c hc ↦ h.published t c hc, fun hno ↦ ?_, fun _ ↦ ?_⟩
    · exact absurd (hie.symm.trans hno) (by decide)
    · have hlt := s.txNum.isLt
      have hne' : (s.txInd + 1).toNat ≠ s.txNum.toNat := fun he ↦ hne (BitVec.eq_of_toNat_eq he)
      have hone : (1 : Word).toNat = 1 := rfl
      rw [BitVec.toNat_add, hone] at hne'
      show (s.txInd + 1).toNat < s.txNum.toNat
      rw [BitVec.toNat_add, hone]
      omega

theorem TxControl.step {a : Action τ} (h : TxControl s) (hstep : step s a = some s') :
    TxControl s' := by
  rcases step_tx_cases hstep with ⟨t, c, -, hc, htx⟩ | ⟨-, htxe, hie, rfl⟩ | ⟨-, hq⟩
  · exact h.txStep hc htx
  · exact h.irq htxe hie
  · exact h.quiet hq

omit [DecidableEq τ] in
theorem boot_txControl (byteAddr : Word) (mem : Word → UInt8) :
    TxControl (boot byteAddr mem : State τ) := by
  refine ⟨⟨fun t ↦ ?_, rfl⟩, fun t c hc ↦ ?_, fun _ ↦ rfl, fun hon ↦ ?_⟩
  · simp [txView, boot, Kind.phases, Kind.framePhase, txKind, txPart]
  · cases hc
  · cases hon

end Control

end Tanenbaum.Tty.Transmit
