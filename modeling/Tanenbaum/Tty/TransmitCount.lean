import Tanenbaum.Lib.Runs
import Tanenbaum.Tty.Transmit
import Mathlib.Data.Int.Notation

namespace Tanenbaum.Tty.TransmitCount

open Lib.Bytes Lib.Runs Driver Calls Transmit

variable {τ : Type}

/-- `_write` returns the count of `tty_driver_tx` as an `int`. -/
def writeResult (value : Word) : ℤ := value.toInt

def txReturns (s : State τ) : Action τ → List (Word × Word)
  | .tx t =>
    match s.frame t with
    | .tx c => if c.pc = .ret then [(c.num, txResult s)] else []
    | _ => []
  | _ => []

/-- A call does not store another size in `tx_num` while some call is between
giving `lock_tx` and reading `tx_num` back. -/
def KeepsCount (s : State τ) (a : Action τ) : Prop :=
  ∀ t c, a = .tx t → s.frame t = .tx c → c.pc = .storeNum →
    ∀ u d, s.frame u = .tx d → d.pc = .ret → d.num = c.num

def ReturnsOwn (s : State τ) : Prop := ∀ t c, s.frame t = .tx c → c.pc = .ret → s.txNum = c.num

variable [DecidableEq τ] {s s' : State τ} {a : Action τ} {t : Thread τ} {c : TxCall}

omit [DecidableEq τ] in
theorem ReturnsOwn.quiet (h : ReturnsOwn s) (hq : TxQuiet s s') : ReturnsOwn s' := by
  intro t c hc hpc
  rw [hq.num]
  rcases hq.same.old (txPart_eq_some.mpr hc) with hold | hnew
  · exact h t c (txPart_eq_some.mp hold) hpc
  · exact absurd (Eq.trans (Eq.symm hnew) hpc) (by decide)

theorem returnsOwn_update {f : Frame} (hframe : s'.frame = Function.update s.frame t f)
    (hown : ∀ c, f = .tx c → c.pc = .ret → s'.txNum = c.num)
    (hothers : ∀ u d, s.frame u = .tx d → d.pc = .ret → s'.txNum = d.num) : ReturnsOwn s' := by
  intro u d hd
  rw [hframe] at hd
  refine forall_update (K := txKind) (fun e he ↦ hown e (txPart_eq_some.mp he))
    (fun v e _ he ↦ hothers v e (txPart_eq_some.mp he)) u d (txPart_eq_some.mpr hd)

theorem ReturnsOwn.txStep (h : ReturnsOwn s) (hctl : TxControl s) (hkeeps : KeepsCount s (.tx t))
    (hc : s.frame t = .tx c) (hstep : txStep t c s = some s') : ReturnsOwn s' := by
  have hpub := hctl.published t c (txPart_eq_some.mpr hc)
  cases hpc : c.pc <;> simp only [Driver.txStep, hpc] at hstep
  case takeLock | takeSem =>
    split at hstep <;> cases hstep
    refine returnsOwn_update rfl (fun d hd hret ↦ ?_) h
    cases hd
    cases hret
  case storeNum =>
    cases hstep
    refine returnsOwn_update rfl (fun d hd hret ↦ ?_) fun u d hd hret ↦ ?_
    · cases hd
      cases hret
    · exact (hkeeps t c rfl hc hpc u d hd hret).symm
  case storeBuf | enableTxe =>
    cases hstep
    refine returnsOwn_update rfl (fun d hd hret ↦ ?_) h
    cases hd
    cases hret
  case giveLock =>
    cases hstep
    refine returnsOwn_update rfl (fun d hd _ ↦ ?_) h
    cases hd
    simp only [Published, hpc] at hpub
    exact hpub
  case ret =>
    cases hstep
    refine returnsOwn_update rfl (fun d hd _ ↦ ?_) h
    cases hd

theorem ReturnsOwn.step (h : ReturnsOwn s) (hctl : TxControl s) (hkeeps : KeepsCount s a)
    (hstep : step s a = some s') : ReturnsOwn s' := by
  rcases step_tx_cases hstep with ⟨t, c, rfl, hc, htx⟩ | ⟨-, htxe, hie, rfl⟩ | ⟨-, hq⟩
  · exact h.txStep hctl hkeeps hc htx
  · rcases handler_tx_cases htxe hie with ⟨-, heq⟩ | ⟨-, heq⟩ <;> rw [heq] <;> exact h
  · exact h.quiet hq

omit [DecidableEq τ] in
theorem ReturnsOwn.returns (h : ReturnsOwn s) (a : Action τ) :
    ∀ r ∈ txReturns s a, r.2 = r.1 := by
  intro r hr
  cases a with
  | tx t =>
    simp only [txReturns] at hr
    split at hr
    · next c hc =>
      split at hr
      · next hpc =>
        rw [List.mem_singleton] at hr
        subst hr
        exact h t c hc hpc
      · cases hr
    · cases hr
  | _ => cases hr

omit [DecidableEq τ] in
theorem boot_returnsOwn (byteAddr : Word) (mem : Word → UInt8) :
    ReturnsOwn (boot byteAddr mem : State τ) := by
  intro t c hc
  cases hc

/-- As long as no call stores another size while some call has given `lock_tx`
but not returned, every call returns its own size. A call that does so makes
the other return its size, if that one comes next. -/
theorem tx_returns_own_size (byteAddr : Word) (mem : Word → UInt8) (as : List (Action τ)) :
    (Along step KeepsCount (boot byteAddr mem) as → ∀ s log,
      run (recording step txReturns) (boot byteAddr mem, []) as = some (s, log) →
      ∀ r ∈ log, r.2 = r.1 ∧ writeResult r.2 = r.1.toInt ∧
        (r.1.toNat < 0x80000000 → writeResult r.2 = r.1.toNat)) ∧
    ∀ (s : State τ) t c u d, s.frame t = .tx c → c.pc = .storeNum → s.frame u = .tx d →
      d.pc = .ret → d.num ≠ c.num → ∃ s',
      run (recording step txReturns) (s, []) [.tx t, .tx u] = some (s', [(d.num, c.num)]) := by
  constructor
  · intro hkeeps s log hrun
    have hinv := run_invariant_along
      (I := fun p ↦ TxControl p.1 ∧ ReturnsOwn p.1 ∧ ∀ r ∈ p.2, r.2 = r.1)
      (fun p a q hp hk hq ↦ ?_)
      ⟨boot_txControl byteAddr mem, boot_returnsOwn byteAddr mem, by simp⟩
      (along_recording _ hkeeps []) hrun
    · intro r hr
      have hown := hinv.2.2 r hr
      refine ⟨hown, congrArg BitVec.toInt hown, fun hlt ↦ ?_⟩
      rw [hown]
      exact BitVec.toInt_eq_toNat_of_lt (by omega)
    · obtain ⟨hstep, hlog⟩ := recording_eq_some.mp hq
      refine ⟨hp.1.step hstep, hp.2.1.step hp.1 hk hstep, fun r hr ↦ ?_⟩
      rw [hlog, List.mem_append] at hr
      exact hr.elim (hp.2.2 r) (hp.2.1.returns a r)
  · intro s t c u d hc hpc hd hret hne
    have hut : u ≠ t := by
      rintro rfl
      cases hc.symm.trans hd
      exact absurd (hpc.symm.trans hret) (by decide)
    simp [run, recording, step, txReturns, txStep, txResult, State.setFrame, hc, hpc, hd, hret, hut]

/-- The first task has given `lock_tx` when the second, with two bytes, stores its size. -/
def overtaken : List (Action Bool) :=
  [.callTx (.task false) 0x20000141 1, .tx (.task false), .tx (.task false), .tx (.task false),
    .tx (.task false), .irq, .tx (.task false), .tx (.task false),
    .callTx (.task true) 0x20000242 2, .tx (.task true), .tx (.task true), .tx (.task false)]

theorem overtaken_returns_two : ∃ s log, run (recording step txReturns)
    (boot 0x20000000 fun _ ↦ 65, []) overtaken = some (s, log) ∧ (1, 2) ∈ log := by
  have hlog : ((run (recording step txReturns) (boot 0x20000000 fun _ ↦ 65, [])
      overtaken).map fun p ↦ p.2) = some [(1, 2)] := by decide
  obtain ⟨p, hp, hlog⟩ := Option.map_eq_some_iff.mp hlog
  exact ⟨p.1, p.2, hp, by simp [hlog]⟩

/-- A test of `KeepsCount` for two tasks and `TTY_Task`. -/
def storesInTurn (s : State Bool) : Action Bool → Bool
  | .tx t =>
    match s.frame t with
    | .tx c => c.pc != .storeNum || [.task false, .task true, .ttyTask].all fun u ↦
        match s.frame u with
        | .tx d => d.pc != .ret || d.num == c.num
        | _ => true
    | _ => true
  | _ => true

theorem keepsCount_of_check (s : State Bool) (a : Action Bool) (h : storesInTurn s a = true) :
    KeepsCount s a := by
  rintro t c rfl hc hpc u d hd hret
  simp only [storesInTurn, hc, hpc, bne_self_eq_false, Bool.false_or, List.all_eq_true] at h
  simpa [hd, hret] using h u (mem_threads u)

/-- The second task, with two bytes, calls while the first one transmits its byte. -/
def inTurn : List (Action Bool) :=
  [.callTx (.task false) 0x20000141 1, .tx (.task false), .callTx (.task true) 0x20000242 2,
    .tx (.task false), .tx (.task false), .tx (.task false), .irq, .tx (.task false),
    .tx (.task false), .tx (.task true), .tx (.task false), .tx (.task true), .tx (.task true),
    .tx (.task true), .txEmpty, .irq, .txEmpty, .irq, .tx (.task true), .tx (.task true),
    .tx (.task true)]

theorem inTurn_returns_own_size : ∃ s log, run (recording step txReturns)
    (boot 0x20000000 fun _ ↦ 65, []) inTurn = some (s, log) ∧ log = [(1, 1), (2, 2)] ∧
    ∀ r ∈ log, writeResult r.2 = r.1.toNat := by
  have hlog : ((run (recording step txReturns) (boot 0x20000000 fun _ ↦ 65, [])
      inTurn).map fun p ↦ p.2) = some [(1, 1), (2, 2)] := by decide
  have hkeeps : Along step KeepsCount (boot 0x20000000 fun _ ↦ 65) inTurn :=
    along_of_check keepsCount_of_check (by decide)
  have hsmall : ∀ r ∈ ([(1, 1), (2, 2)] : List (Word × Word)), r.1.toNat < 0x80000000 := by simp
  obtain ⟨p, hp, hlog⟩ := Option.map_eq_some_iff.mp hlog
  have hown := (tx_returns_own_size 0x20000000 (fun _ ↦ 65) inTurn).1 hkeeps p.1 p.2 hp
  exact ⟨p.1, p.2, hp, hlog, fun r hr ↦ (hown r hr).2.2 (hsmall r (hlog ▸ hr))⟩

end Tanenbaum.Tty.TransmitCount
