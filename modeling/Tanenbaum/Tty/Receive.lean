import Tanenbaum.Tty.Calls

namespace Tanenbaum.Tty.Receive

open Lib.Bytes Lib.Handshake Driver Calls

variable {τ : Type}

def rxPart : Frame → Option RxCall
  | .rx c => some c
  | _ => none

def rxPhase : RxPc → Phase
  | .takeLock | .ret => .outside
  | .storeBuf | .storeNum | .setEnable => .preparing
  | .takeSem => .waiting
  | .giveLock => .leaving

def rxKind : Kind RxCall where
  part := rxPart
  phase c := rxPhase c.pc
  entered c := c.pc = .takeLock
  part_idle := rfl
  outside_of_entered c h := by rw [h]; rfl

/-- `TTY_Task` has cleared `rx_enable` and not yet given `sem_rx`. -/
def waking : TtyPc → Bool
  | .clearCnt | .giveSem => true
  | _ => false

/-- `TTY_Task` works on a byte for a request. -/
def busy : TtyPc → Bool
  | .storeNewline | .printNewline | .erase | .printLine | .storeByte | .compare | .printUnknown
  | .setNum | .clearEnable => true
  | _ => false

/-- The receiver's handshake: `TTY_Task` is the waker, armed by `rx_enable`. -/
def rxView (s : State τ) : View (Thread τ) :=
  ⟨s.lockRx, rxKind.phases s.frame, s.rxEnable, waking s.pc, s.semRx⟩

theorem rxPart_eq_some {f : Frame} {c : RxCall} : rxKind.part f = some c ↔ f = .rx c := by
  cases f <;> simp [rxKind, rxPart]

section Quiet

/-- A step that leaves the receiver alone; calls may only be entered. -/
structure RxQuiet (s s' : State τ) : Prop where
  lock : s'.lockRx = s.lockRx
  sem : s'.semRx = s.semRx
  buf : s'.rxBuf = s.rxBuf
  num : s'.rxNum = s.rxNum
  enable : s'.rxEnable = s.rxEnable
  pc : s'.pc = s.pc
  cnt : s'.cnt = s.cnt
  same : rxKind.Same s.frame s'.frame

def rxCore (s : State τ) :=
  (s.lockRx, s.semRx, s.rxBuf, s.rxNum, s.rxEnable, s.pc, s.cnt)

variable {s s' : State τ} {a : Action τ}

theorem RxQuiet.of_core (hcore : rxCore s' = rxCore s) (hsame : rxKind.Same s.frame s'.frame) :
    RxQuiet s s' := by
  simp only [rxCore, Prod.mk.injEq] at hcore
  obtain ⟨hlock, hsem, hbuf, hnum, henable, hpc, hcnt⟩ := hcore
  exact ⟨hlock, hsem, hbuf, hnum, henable, hpc, hcnt, hsame⟩

variable [DecidableEq τ]

theorem enter_rxQuiet {t : Thread τ} {num : Word} {g : num ≠ 0 → Frame}
    (hg : ∀ hnum c, rxKind.part (g hnum) = some c → c.pc = .takeLock)
    (h : enter s t num g = some s') : RxQuiet s s' := by
  have hsame : rxKind.Same s.frame s'.frame := enter_same hg h
  rcases enter_cases h with rfl | ⟨-, hnum, rfl⟩ <;>
    exact .of_core rfl hsame

theorem txStep_rxQuiet {t : Thread τ} {c : TxCall} (hc : s.frame t = .tx c)
    (h : txStep t c s = some s') : RxQuiet s s' := by
  have hmoves := txStep_moves h
  have hold : rxKind.part (s.frame t) = none := by rw [hc]; rfl
  refine ⟨hmoves.lockRx, hmoves.semRx, hmoves.rxBuf, hmoves.rxNum, hmoves.rxEnable, hmoves.pc,
    hmoves.cnt, ?_⟩
  obtain ⟨f, hf, hidle | ⟨d, hd⟩⟩ := hmoves.frame
  · rw [hf, hidle]
    exact same_update hold fun _ habs ↦ by cases habs
  · rw [hf, hd]
    exact same_update hold fun _ habs ↦ by cases habs

theorem step_rx_cases (h : step s a = some s') :
    (∃ t c, a = .rx t ∧ s.frame (.task t) = .rx c ∧ rxStep (.task t) c s = some s') ∨
    (a = .tty ∧ s.frame .ttyTask = .idle ∧ ttyStep s = some s') ∨
    ((∀ t, a ≠ .rx t) ∧ a ≠ .tty ∧ RxQuiet s s') := by
  cases a with
  | callTx t ptr num =>
    simp only [step] at h
    split at h
    · cases h
    · refine .inr (.inr ⟨by simp, by simp, enter_rxQuiet (fun hn c hc ↦ ?_) h⟩)
      cases hc
  | tx t =>
    simp only [step] at h
    split at h
    · next c hc => exact .inr (.inr ⟨by simp, by simp, txStep_rxQuiet hc h⟩)
    · cases h
  | callRx t buf num =>
    simp only [step] at h
    refine .inr (.inr ⟨by simp, by simp, enter_rxQuiet (fun hn c hc ↦ ?_) h⟩)
    cases hc
    rfl
  | rx t =>
    simp only [step] at h
    split at h
    · next c hc => exact .inl ⟨t, c, rfl, hc, h⟩
    · cases h
  | tty =>
    simp only [step] at h
    split at h
    · next hidle => exact .inr (.inl ⟨rfl, hidle, h⟩)
    · cases h
  | irq =>
    cases h
    refine .inr (.inr ⟨by simp, by simp, ?_⟩)
    simp only [usart1IRQHandler]
    split
    · split <;> exact .of_core rfl (.refl s.frame)
    · split <;> exact .of_core rfl (.refl s.frame)
  | txEmpty =>
    cases h
    exact .inr (.inr ⟨by simp, by simp, .of_core rfl (.refl s.frame)⟩)
  | arrive byte =>
    cases h
    refine .inr (.inr ⟨by simp, by simp, ?_⟩)
    split <;> exact .of_core rfl (.refl s.frame)
  | poke x v =>
    cases h
    exact .inr (.inr ⟨by simp, by simp, .of_core rfl (.refl s.frame)⟩)

end Quiet

section Control

/-- How the count of `TTY_Task` stands to a request of `num` bytes. -/
def CountOk (pc : TtyPc) (cnt : BitVec 8) (rxNum num : Word) : Prop :=
  match pc with
  | .printNewline | .setNum | .clearEnable => True
  | .compare => rxNum = num ∧ cnt.toNat ≤ num.toNat
  | .erase => rxNum = num ∧ 0 < cnt.toNat ∧ cnt.toNat < num.toNat
  | _ => rxNum = num ∧ cnt.toNat < num.toNat

def Published (s : State τ) (c : RxCall) : Prop :=
  match c.pc with
  | .storeNum => s.rxBuf = c.buf
  | .setEnable => s.rxBuf = c.buf ∧ s.rxNum = c.num
  | .takeSem => s.rxEnable = true → s.rxBuf = c.buf ∧ CountOk s.pc s.cnt s.rxNum c.num
  | _ => True

/-- The receiver between the call that holds `lock_rx` and `TTY_Task`. -/
structure RxControl (s : State τ) : Prop where
  shake : Inv (rxView s)
  published : ∀ t c, rxKind.part (s.frame t) = some c → Published s c
  busy_enabled : busy s.pc = true → s.rxEnable = true
  cnt_zero : s.rxEnable = false → s.pc ≠ .clearCnt → s.cnt = 0

variable {s s' : State τ} {t : Thread τ} {c : RxCall}

theorem RxControl.outside (h : RxControl s) (hlock : s.lockRx = none ∨ s.lockRx = some t)
    (u : Thread τ) (d : RxCall) (hu : u ≠ t) (hd : rxKind.part (s.frame u) = some d) :
    rxPhase d.pc = .outside := outside_of_lock h.shake rfl hlock u d hu hd

theorem RxControl.lock_eq (h : RxControl s) (hc : s.frame t = .rx c)
    (hpc : rxPhase c.pc ≠ .outside) : s.lockRx = some t := by
  have hphase : rxKind.phases s.frame t = rxPhase c.pc := phases_of_call (rxPart_eq_some.mpr hc)
  rw [← hphase] at hpc
  exact (h.shake.owner t).mp hpc

theorem RxControl.alone (h : RxControl s) (hc : s.frame t = .rx c)
    (hpc : rxPhase c.pc ≠ .outside) (u : Thread τ) (d : RxCall) (hu : u ≠ t)
    (hd : rxKind.part (s.frame u) = some d) : rxPhase d.pc = .outside :=
  h.outside (.inr (h.lock_eq hc hpc)) u d hu hd

theorem RxControl.not_busy (h : RxControl s) (hen : s.rxEnable = false) : busy s.pc = false := by
  rw [Bool.eq_false_iff]
  intro hbusy
  exact absurd ((h.busy_enabled hbusy).symm.trans hen) (by decide)

theorem published_of_outside {d : RxCall} (h : rxPhase d.pc = .outside) (s : State τ) :
    Published s d := by
  cases hpc : d.pc <;> simp_all [Published, rxPhase]

/-- While `rx_enable` is set, the call that holds the lock waits, and
`TTY_Task` counts for it. -/
theorem RxControl.enabled (h : RxControl s) (hen : s.rxEnable = true) :
    ∃ t c, s.lockRx = some t ∧ s.frame t = .rx c ∧ c.pc = .takeSem ∧ s.rxBuf = c.buf ∧
      CountOk s.pc s.cnt s.rxNum c.num := by
  obtain ⟨t, hlock, hwaits, -⟩ := h.shake.waiting_of_signal (.inl hen)
  obtain ⟨c, hc⟩ : ∃ c, rxKind.part (s.frame t) = some c :=
    call_of_phase (hwaits.trans_ne (by decide))
  have hpc : c.pc = .takeSem := by
    have hphase : rxPhase c.pc = .waiting := (phases_of_call hc).symm.trans hwaits
    cases hcpc : c.pc <;> simp_all [rxPhase]
  have hpub := h.published t c hc
  simp only [Published, hpc] at hpub
  exact ⟨t, c, hlock, rxPart_eq_some.mp hc, hpc, hpub hen⟩

theorem RxControl.quiet (h : RxControl s) (hq : RxQuiet s s') : RxControl s' := by
  have hview : rxView s' = rxView s := by
    rw [rxView, rxView, hq.same.phases_eq, hq.lock, hq.enable, hq.pc, hq.sem]
  refine ⟨hview ▸ h.shake, fun t c hc ↦ ?_, ?_, ?_⟩
  · rcases hq.same.old hc with hold | hnew
    · have hpub := h.published t c hold
      simpa only [Published, hq.buf, hq.num, hq.enable, hq.pc, hq.cnt] using hpub
    · exact published_of_outside (rxKind.outside_of_entered c hnew) s'
  · rw [hq.pc, hq.enable]
    exact h.busy_enabled
  · rw [hq.pc, hq.enable, hq.cnt]
    exact h.cnt_zero

variable [DecidableEq τ]

theorem rxStep_view (hc : s.frame t = .rx c) (hstep : rxStep t c s = some s') :
    rxView s' = rxView s ∨ Step (rxView s) (rxView s') := by
  have hpart := rxPart_eq_some.mpr hc
  have hphase : (rxView s).phase t = rxPhase c.pc := phases_of_call hpart
  have hmove (pc : RxPc) : rxKind.phases (s.setFrame t (.rx { c with pc := pc })).frame =
      Function.update (rxView s).phase t (rxPhase pc) := phases_update _ _ _
  have hstay {f : Frame} (hf : rxKind.framePhase f = rxKind.phase c) :
      rxView (s.setFrame t f) = rxView s :=
    congrArg (fun p ↦ { rxView s with phase := p }) (phases_update_same hpart hf)
  cases hpc : c.pc <;> simp only [rxStep, hpc] at hstep <;> rw [hpc] at hphase
  case takeLock =>
    split at hstep <;> cases hstep
    next hlock =>
    refine .inr ((Step.acquire t (Option.isNone_iff_eq_none.mp hlock) hphase).of_eq ?_)
    exact congrArg (fun p ↦ { rxView s with lock := some t, phase := p }) (hmove _)
  case setEnable =>
    cases hstep
    refine .inr ((Step.arm t hphase).of_eq ?_)
    exact congrArg (fun p ↦ { rxView s with armed := true, phase := p }) (hmove _)
  case takeSem =>
    split at hstep <;> cases hstep
    next hsem =>
    refine .inr ((Step.consume t hphase hsem).of_eq ?_)
    exact congrArg (fun p ↦ { rxView s with token := false, phase := p }) (hmove _)
  case giveLock =>
    cases hstep
    refine .inr ((Step.release t hphase).of_eq ?_)
    exact congrArg (fun p ↦ { rxView s with lock := none, phase := p }) (hmove _)
  all_goals
    cases hstep
    exact .inl (hstay (by simp only [rxKind, hpc]; rfl))

omit [DecidableEq τ] in
theorem RxControl.at_rest (h : RxControl s) (hen : s.rxEnable = false)
    (hwaking : waking s.pc = false) : busy s.pc = false ∧ s.cnt = 0 :=
  ⟨h.not_busy hen, h.cnt_zero hen fun hpc ↦ by simp [hpc, waking] at hwaking⟩

omit [DecidableEq τ] in
theorem RxControl.fresh_count (h : RxControl s) (hen : s.rxEnable = false)
    (hwaking : waking s.pc = false) (hc : s.rxNum = c.num) : CountOk s.pc s.cnt s.rxNum c.num := by
  have hpos := toNat_pos c.num_ne
  obtain ⟨hbusy, hzero⟩ := h.at_rest hen hwaking
  rw [hzero]
  cases hpc : s.pc <;> simp_all [CountOk, busy]

theorem RxControl.rxStep (h : RxControl s) (hc : s.frame t = .rx c)
    (hstep : rxStep t c s = some s') : RxControl s' := by
  have hshake : Inv (rxView s') := by
    rcases rxStep_view hc hstep with heq | hs
    · rw [heq]
      exact h.shake
    · exact h.shake.step hs
  have hpub := h.published t c (rxPart_eq_some.mpr hc)
  have hphase : (rxView s).phase t = rxPhase c.pc := phases_of_call (rxPart_eq_some.mpr hc)
  -- only the call that moves has something published
  have hpublished {s' : State τ} {c' : RxCall}
      (hout : ∀ u d, u ≠ t → rxKind.part (s.frame u) = some d → rxPhase d.pc = .outside)
      (hown : Published s' c') (u : Thread τ) (d : RxCall)
      (hd : rxKind.part (Function.update s.frame t (.rx c') u) = some d) : Published s' d :=
    forall_update (K := rxKind) (fun e he ↦ by cases he; exact hown)
      (fun v e hv he ↦ published_of_outside (hout v e hv he) s') u d hd
  cases hpc : c.pc <;> simp only [Driver.rxStep, hpc] at hstep <;> rw [hpc] at hphase <;>
    simp only [Published, hpc] at hpub
  case takeLock =>
    split at hstep <;> cases hstep
    next hlock =>
    have hout := h.outside (t := t) (.inl (Option.isNone_iff_eq_none.mp hlock))
    exact ⟨hshake, hpublished hout trivial, h.busy_enabled, h.cnt_zero⟩
  case storeBuf =>
    cases hstep
    have hout := h.alone hc (by rw [hpc]; decide)
    exact ⟨hshake, hpublished hout rfl, h.busy_enabled, h.cnt_zero⟩
  case storeNum =>
    cases hstep
    have hout := h.alone hc (by rw [hpc]; decide)
    exact ⟨hshake, hpublished hout ⟨hpub, rfl⟩, h.busy_enabled, h.cnt_zero⟩
  case setEnable =>
    cases hstep
    have hquiet := h.shake.quiet_of_phase (t := t) (by rw [hphase]; decide) (by rw [hphase]; decide)
    have hout := h.alone hc (by rw [hpc]; decide)
    have hcount := h.fresh_count hquiet.1 hquiet.2.1 hpub.2
    exact ⟨hshake, hpublished hout fun _ ↦ ⟨hpub.1, hcount⟩, fun _ ↦ rfl, fun hno ↦ by cases hno⟩
  case takeSem =>
    split at hstep <;> cases hstep
    have hout := h.alone hc (by rw [hpc]; decide)
    exact ⟨hshake, hpublished hout trivial, h.busy_enabled, h.cnt_zero⟩
  case giveLock =>
    cases hstep
    have hout := h.alone hc (by rw [hpc]; decide)
    exact ⟨hshake, hpublished hout trivial, h.busy_enabled, h.cnt_zero⟩
  case ret =>
    cases hstep
    refine ⟨hshake, forall_update (K := rxKind) (fun d hd ↦ ?_) fun u d _ hd ↦ ?_, h.busy_enabled,
      h.cnt_zero⟩
    · cases hd
    · exact h.published u d hd

end Control

section Task

variable {s s' : State τ}

structure Counts (s s' : State τ) : Prop where
  lock : s'.lockRx = s.lockRx
  sem : s'.semRx = s.semRx
  buf : s'.rxBuf = s.rxBuf
  num : s'.rxNum = s.rxNum
  enable : s'.rxEnable = s.rxEnable
  waking_eq : waking s'.pc = waking s.pc
  same : rxKind.Same s.frame s'.frame

def requestCore (s : State τ) := (s.lockRx, s.semRx, s.rxBuf, s.rxNum, s.rxEnable)

theorem Counts.of_core (hcore : requestCore s' = requestCore s)
    (hwaking : waking s'.pc = waking s.pc) (hsame : rxKind.Same s.frame s'.frame) :
    Counts s s' := by
  simp only [requestCore, Prod.mk.injEq] at hcore
  obtain ⟨hlock, hsem, hbuf, hnum, henable⟩ := hcore
  exact ⟨hlock, hsem, hbuf, hnum, henable, hwaking, hsame⟩

theorem RxControl.counts (h : RxControl s) (hs : Counts s s')
    (hbusy : busy s'.pc = true → s.rxEnable = true)
    (hzero : s.rxEnable = false → s.cnt = 0 → s'.cnt = 0)
    (hclear : s.pc = .clearCnt → s'.cnt = 0)
    (hcount : ∀ num, s.rxEnable = true → CountOk s.pc s.cnt s.rxNum num →
      CountOk s'.pc s'.cnt s.rxNum num) : RxControl s' := by
  have hview : rxView s' = rxView s := by
    rw [rxView, rxView, hs.same.phases_eq, hs.lock, hs.enable, hs.waking_eq, hs.sem]
  refine ⟨hview ▸ h.shake, fun t c hc ↦ ?_, ?_, fun hen _ ↦ ?_⟩
  · rcases hs.same.old hc with hold | hnew
    · have hpub := h.published t c hold
      cases hpc : c.pc <;> simp only [Published, hpc, hs.buf, hs.num, hs.enable] at hpub ⊢
      case takeSem => exact fun hen ↦ ⟨(hpub hen).1, hcount c.num hen (hpub hen).2⟩
      all_goals exact hpub
    · exact published_of_outside (rxKind.outside_of_entered c hnew) s'
  · rw [hs.enable]
    exact hbusy
  · rw [hs.enable] at hen
    by_cases hpc : s.pc = .clearCnt
    · exact hclear hpc
    · exact hzero hen (h.cnt_zero hen hpc)

theorem countOk_dispatch {cnt : BitVec 8} {rxNum num : Word} (byte : UInt8)
    (h : rxNum = num ∧ cnt.toNat < num.toNat) : CountOk (dispatch cnt byte) cnt rxNum num := by
  rcases dispatch_cases cnt byte with hd | ⟨hd, hpos⟩ | hd | hd | hd <;> rw [hd]
  case inr.inl => exact ⟨h.1, hpos, h.2⟩
  all_goals exact h

theorem countOk_erased {cnt : BitVec 8} {rxNum num : Word} (h : CountOk .erase cnt rxNum num) :
    CountOk .receive (cnt - 1) rxNum num := by
  obtain ⟨hnum, hpos, hlt⟩ := h
  refine ⟨hnum, ?_⟩
  rw [BitVec.toNat_sub_of_le (show (1 : BitVec 8) ≤ cnt from hpos)]
  omega

/-- The count may wrap to 0 here, when the request is larger than 255. -/
theorem countOk_stored {cnt : BitVec 8} {rxNum num : Word} (h : CountOk .storeByte cnt rxNum num) :
    CountOk .compare (cnt + 1) rxNum num := by
  have hlt := h.2
  have hone : (1 : BitVec 8).toNat = 1 := rfl
  refine ⟨h.1, ?_⟩
  rw [BitVec.toNat_add, hone]
  omega

theorem countOk_compared {cnt : BitVec 8} {rxNum num : Word} (h : CountOk .compare cnt rxNum num) :
    CountOk (if cnt.setWidth 32 = rxNum then .setNum else .receive) cnt rxNum num := by
  obtain ⟨rfl, hle⟩ := h
  split
  · trivial
  · next hne =>
    have hcnt := cnt.isLt
    refine ⟨rfl, Nat.lt_of_le_of_ne hle fun heq ↦ hne (BitVec.eq_of_toNat_eq ?_)⟩
    rw [BitVec.toNat_setWidth, ← heq, Nat.mod_eq_of_lt (by omega)]

/-- While a request is served, no call is about to set `rx_enable`. -/
theorem RxControl.not_setEnable (h : RxControl s) (hen : s.rxEnable = true) {t : Thread τ}
    {c : RxCall} (hc : rxPart (s.frame t) = some c) : c.pc ≠ .setEnable := by
  intro hcpc
  obtain ⟨u, d, hlock, hd, hdpc, -⟩ := h.enabled hen
  have hown := h.lock_eq (rxPart_eq_some.mp hc) (by rw [hcpc]; decide)
  obtain rfl : t = u := Option.some.inj (hown.symm.trans hlock)
  cases (rxPart_eq_some.mp hc).symm.trans hd
  exact absurd (hcpc.symm.trans hdpc) (by decide)

theorem waking_dispatch (cnt : BitVec 8) (byte : UInt8) : waking (dispatch cnt byte) = false := by
  rcases dispatch_cases cnt byte with hd | ⟨hd, -⟩ | hd | hd | hd <;> rw [hd] <;> rfl

variable [DecidableEq τ]

theorem RxControl.ttyStep (h : RxControl s) (hidle : s.frame .ttyTask = .idle)
    (hstep : ttyStep s = some s') : RxControl s' := by
  have hen (hb : busy s.pc = true) := h.busy_enabled hb
  have hoff (hb : busy s.pc = true) {p : Prop} (hno : s.rxEnable = false) : p :=
    absurd ((h.busy_enabled hb).symm.trans hno) (by decide)
  cases hpc : s.pc <;> simp only [Driver.ttyStep, hpc] at hstep <;> rw [hpc] at hen hoff
  case receive =>
    split at hstep <;> cases hstep
    have hsame : rxKind.Same s.frame (Function.update s.frame .ttyTask
        (.tx ⟨.takeLock, s.byteAddr, 1, by decide⟩)) := same_update (by rw [hidle]; rfl)
        fun _ hd ↦ by cases hd
    refine h.counts (.of_core rfl (by rw [hpc]; rfl) hsame) (fun hb ↦ by cases hb) (fun _ hz ↦ hz)
      (by simp [hpc]) fun num _ hok ↦ ?_
    rwa [hpc] at hok
  case test =>
    cases hstep
    cases hrx : s.rxEnable
    · refine h.counts ⟨rfl, rfl, rfl, rfl, hrx.symm, by rw [hpc]; rfl, .refl s.frame⟩
        (fun hb ↦ by cases hb) (fun _ hz ↦ hz) (by simp [hpc]) fun num hno ↦ ?_
      exact absurd (hrx.symm.trans hno) (by decide)
    · refine h.counts ⟨rfl, rfl, rfl, rfl, hrx.symm, ?_, .refl s.frame⟩ (fun _ ↦ hrx)
        (fun _ hz ↦ hz) (by simp [hpc]) fun num _ hok ↦ ?_
      · rw [hpc]
        exact waking_dispatch _ _
      · rw [hpc] at hok
        exact countOk_dispatch _ hok
  case storeNewline | printNewline =>
    cases hstep
    exact h.counts (.of_core rfl (by rw [hpc]; rfl) (.refl s.frame)) (fun _ ↦ hen rfl)
      (fun hno _ ↦ hoff rfl hno) (by simp [hpc]) fun num _ _ ↦ trivial
  case erase =>
    cases hstep
    refine h.counts (.of_core rfl (by rw [hpc]; rfl) (.refl s.frame)) (fun _ ↦ hen rfl)
      (fun hno _ ↦ hoff rfl hno) (by simp [hpc]) fun num _ hok ↦ ?_
    rw [hpc] at hok
    exact countOk_erased hok
  case storeByte =>
    cases hstep
    refine h.counts (.of_core rfl (by rw [hpc]; rfl) (.refl s.frame)) (fun _ ↦ hen rfl)
      (fun hno _ ↦ hoff rfl hno) (by simp [hpc]) fun num _ hok ↦ ?_
    rw [hpc] at hok
    exact countOk_stored hok
  case compare =>
    cases hstep
    refine h.counts (.of_core rfl ?_ (.refl s.frame)) (fun _ ↦ hen rfl)
      (fun hno _ ↦ hoff rfl hno) (by simp [hpc]) fun num _ hok ↦ ?_
    · rw [hpc]
      show waking (if _ then _ else _) = _
      split <;> rfl
    · rw [hpc] at hok
      exact countOk_compared hok
  case clearCnt =>
    cases hstep
    refine h.counts (.of_core rfl (by rw [hpc]; rfl) (.refl s.frame)) (fun hb ↦ by cases hb)
      (fun _ _ ↦ rfl) (fun _ ↦ rfl) fun num _ hok ↦ ?_
    rw [hpc] at hok
    exact ⟨hok.1, Nat.lt_of_le_of_lt (Nat.zero_le _) hok.2⟩
  case setNum =>
    cases hstep
    refine ⟨?_, fun t c hc ↦ ?_, fun _ ↦ hen rfl, fun hno ↦ hoff rfl hno⟩
    · have hview : rxView { s with rxNum := s.cnt.setWidth 32, pc := .clearEnable } = rxView s := by
        simp only [rxView, hpc]
        rfl
      exact hview ▸ h.shake
    · have hpub := h.published t c hc
      cases hcpc : c.pc <;> simp only [Published, hcpc] at hpub ⊢
      case storeNum => exact hpub
      case setEnable => exact absurd hcpc (h.not_setEnable (hen rfl) hc)
      case takeSem => exact fun hon ↦ ⟨(hpub hon).1, trivial⟩
  case clearEnable =>
    cases hstep
    refine ⟨?_, fun t c hc ↦ ?_, by simp [busy], fun _ hne ↦ absurd rfl hne⟩
    · refine h.shake.step ((Step.disarm (hen rfl)).of_eq ?_)
      simp only [rxView]
      rfl
    · have hpub := h.published t c hc
      cases hcpc : c.pc <;> simp only [Published, hcpc] at hpub ⊢
      case storeNum | setEnable => exact hpub
      case takeSem => exact fun hon ↦ by cases hon
  case giveSem =>
    cases hstep
    have hwaking : waking s.pc = true := by rw [hpc]; rfl
    refine ⟨?_, fun t c hc ↦ ?_, by simp [busy], fun hno _ ↦ h.cnt_zero hno (by rw [hpc]; decide)⟩
    · refine h.shake.step ((Step.wake hwaking).of_eq ?_)
      simp only [rxView]
      rfl
    · have hpub := h.published t c hc
      cases hcpc : c.pc <;> simp only [Published, hcpc] at hpub ⊢
      case storeNum | setEnable => exact hpub
      case takeSem =>
        intro hon
        have hok := hpub hon
        rw [hpc] at hok
        exact hok
  all_goals
    cases hstep
    refine h.counts (.of_core rfl (by rw [hpc]; rfl) (.refl s.frame)) (fun hb ↦ by cases hb)
      (fun _ hz ↦ hz) (by simp [hpc]) fun num _ hok ↦ ?_
    rwa [hpc] at hok

theorem ttyStep_rx_frame {t : Thread τ} {c : RxCall} (hstep : ttyStep s = some s') (hc : s'.frame t = .rx c) :
    s.frame t = .rx c := by
  cases hpc : s.pc <;> simp only [Driver.ttyStep, hpc] at hstep
  case receive =>
    split at hstep <;> cases hstep
    have ht : t ≠ .ttyTask := by
      rintro rfl
      simp [State.setFrame] at hc
    simpa only [State.setFrame, Function.update_of_ne ht] using hc
  all_goals
    cases hstep
    exact hc

theorem rx_of_update {frame : Thread τ → Frame} {t u : Thread τ} {f : Frame} {c : RxCall}
    (hf : f ≠ .rx c) (hc : Function.update frame t f u = .rx c) : frame u = .rx c := by
  by_cases hu : u = t
  · subst hu
    rw [Function.update_self] at hc
    exact absurd hc hf
  · rwa [Function.update_of_ne hu] at hc

/-- A call is found where it was before, unless it moves itself or is entered. -/
theorem step_rx_entered {a : Action τ} {u : Thread τ} {c : RxCall} (h : step s a = some s')
    (hrx : ∀ t, a ≠ .rx t) (hc : s'.frame u = .rx c) :
    s.frame u = .rx c ∨ ∃ t buf, u = .task t ∧ a = .callRx t buf c.num := by
  cases a with
  | callTx t ptr num =>
    simp only [step] at h
    split at h
    · cases h
    · rcases enter_cases h with rfl | ⟨-, hnum, rfl⟩
      · exact .inl hc
      · exact .inl (rx_of_update (by simp) hc)
  | tx t =>
    simp only [step] at h
    split at h
    · obtain ⟨f, hf, hidle | ⟨d, hd⟩⟩ := (txStep_moves h).frame
      · rw [hf, hidle] at hc
        exact .inl (rx_of_update (by simp) hc)
      · rw [hf, hd] at hc
        exact .inl (rx_of_update (by simp) hc)
    · cases h
  | callRx t buf num =>
    simp only [step] at h
    rcases enter_cases h with rfl | ⟨-, hnum, rfl⟩
    · exact .inl hc
    · by_cases hu : u = .task t
      · subst hu
        simp only [State.setFrame, Function.update_self] at hc
        cases hc
        exact .inr ⟨t, buf, rfl, rfl⟩
      · simp only [State.setFrame, Function.update_of_ne hu] at hc
        exact .inl hc
  | rx t => exact absurd rfl (hrx t)
  | tty =>
    simp only [step] at h
    split at h
    · exact .inl (ttyStep_rx_frame h hc)
    · cases h
  | irq =>
    cases h
    simp only [usart1IRQHandler] at hc
    split at hc
    · split at hc <;> exact .inl hc
    · split at hc <;> exact .inl hc
  | txEmpty =>
    cases h
    exact .inl hc
  | arrive byte =>
    cases h
    split at hc <;> exact .inl hc
  | poke x v =>
    cases h
    exact .inl hc

theorem RxControl.step {a : Action τ} (h : RxControl s) (hstep : step s a = some s') :
    RxControl s' := by
  rcases step_rx_cases hstep with ⟨t, c, -, hc, hrx⟩ | ⟨-, hidle, htty⟩ | ⟨-, -, hq⟩
  · exact h.rxStep hc hrx
  · exact h.ttyStep hidle htty
  · exact h.quiet hq

omit [DecidableEq τ] in
theorem boot_rxControl (byteAddr : Word) (mem : Word → UInt8) :
    RxControl (boot byteAddr mem : State τ) := by
  refine ⟨⟨fun t ↦ ?_, rfl⟩, fun t c hc ↦ ?_, fun hb ↦ ?_, fun _ _ ↦ rfl⟩
  · simp [rxView, boot, Kind.phases, Kind.framePhase, rxKind, rxPart]
  · cases hc
  · cases hb

end Task

end Tanenbaum.Tty.Receive
