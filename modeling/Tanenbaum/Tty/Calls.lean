import Tanenbaum.Lib.Handshake
import Tanenbaum.Tty.Driver

namespace Tanenbaum.Tty.Calls

open Lib.Bytes Lib.Handshake Driver

/-- The calls of one function of the driver: how they are found in the frame of
a thread, their phase in its handshake, and which have only just been entered. -/
structure Kind (κ : Type) where
  part : Frame → Option κ
  phase : κ → Phase
  entered : κ → Prop
  part_idle : part .idle = none
  outside_of_entered : ∀ c, entered c → phase c = .outside

variable {τ κ : Type} (K : Kind κ)

def Kind.framePhase (f : Frame) : Phase := (K.part f).elim .outside K.phase

def Kind.phases (frame : Thread τ → Frame) : Thread τ → Phase := K.framePhase ∘ frame

/-- The calls stay where they are, except that new ones may be entered. -/
def Kind.Same (frame frame' : Thread τ → Frame) : Prop :=
  ∀ t, K.part (frame' t) = K.part (frame t) ∨
    K.part (frame t) = none ∧ ∀ c, K.part (frame' t) = some c → K.entered c

variable {K} {frame frame' : Thread τ → Frame} {t : Thread τ} {f : Frame} {c : κ}

theorem Kind.Same.refl (frame : Thread τ → Frame) : K.Same frame frame := fun _ ↦ .inl rfl

theorem Kind.Same.old (h : K.Same frame frame') (hc : K.part (frame' t) = some c) :
    K.part (frame t) = some c ∨ K.entered c := by
  rcases h t with heq | ⟨-, hnew⟩
  · exact .inl (heq ▸ hc)
  · exact .inr (hnew c hc)

theorem phases_of_call (hc : K.part (frame t) = some c) : K.phases frame t = K.phase c := by
  simp only [Kind.phases, Function.comp_apply, Kind.framePhase, hc, Option.elim_some]

theorem call_of_phase (h : K.phases frame t ≠ .outside) : ∃ c, K.part (frame t) = some c := by
  cases hf : K.part (frame t) with
  | none => simp [Kind.phases, Kind.framePhase, hf] at h
  | some c => exact ⟨c, rfl⟩

theorem Kind.Same.phases_eq (h : K.Same frame frame') : K.phases frame' = K.phases frame := by
  funext t
  simp only [Kind.phases, Function.comp_apply, Kind.framePhase]
  rcases h t with heq | ⟨hnone, hnew⟩
  · rw [heq]
  · rw [hnone]
    cases hpart : K.part (frame' t) with
    | none => rfl
    | some c => exact K.outside_of_entered c (hnew c hpart)

theorem outside_of_lock {v : View (Thread τ)} (h : Inv v) (hv : v.phase = K.phases frame)
    (hlock : v.lock = none ∨ v.lock = some t) (u : Thread τ) (d : κ) (hu : u ≠ t)
    (hd : K.part (frame u) = some d) : K.phase d = .outside := by
  rw [← phases_of_call hd, ← hv]
  by_contra hne
  have hown := (h.owner u).mp hne
  rcases hlock with hnone | hsome
  · exact absurd (hown.symm.trans hnone) (by simp)
  · exact hu (Option.some.inj (hown.symm.trans hsome))

section Update

variable [DecidableEq τ]

theorem same_update (hold : K.part (frame t) = none)
    (hnew : ∀ c, K.part f = some c → K.entered c) :
    K.Same frame (Function.update frame t f) := by
  intro u
  by_cases hu : u = t
  · subst hu
    rw [Function.update_self]
    exact .inr ⟨hold, hnew⟩
  · rw [Function.update_of_ne hu]
    exact .inl rfl

theorem phases_update (frame : Thread τ → Frame) (t : Thread τ) (f : Frame) :
    K.phases (Function.update frame t f) =
      Function.update (K.phases frame) t (K.framePhase f) :=
  Function.comp_update K.framePhase frame t f

theorem phases_update_same (hc : K.part (frame t) = some c) (hf : K.framePhase f = K.phase c) :
    K.phases (Function.update frame t f) = K.phases frame := by
  rw [phases_update, hf, ← phases_of_call hc, Function.update_eq_self]

theorem forall_update {Q : κ → Prop} (hown : ∀ c, K.part f = some c → Q c)
    (hothers : ∀ u d, u ≠ t → K.part (frame u) = some d → Q d) (u : Thread τ) (d : κ)
    (hd : K.part (Function.update frame t f u) = some d) : Q d := by
  by_cases hu : u = t
  · subst hu
    rw [Function.update_self] at hd
    exact hown d hd
  · rw [Function.update_of_ne hu] at hd
    exact hothers u d hu hd

theorem enter_cases {s s' : State τ} {num : Word} {g : num ≠ 0 → Frame}
    (h : enter s t num g = some s') :
    s' = s ∨ s.frame t = .idle ∧ ∃ hnum, s' = s.setFrame t (g hnum) := by
  cases hidle : s.frame t with
  | idle =>
    simp only [enter, hidle] at h
    split at h <;> cases h
    · exact .inl rfl
    · exact .inr ⟨rfl, _, rfl⟩
  | _ => simp [enter, hidle] at h

theorem enter_same {s s' : State τ} {num : Word} {g : num ≠ 0 → Frame}
    (hg : ∀ hnum c, K.part (g hnum) = some c → K.entered c) (h : enter s t num g = some s') :
    K.Same s.frame s'.frame := by
  rcases enter_cases h with rfl | ⟨hidle, hnum, rfl⟩
  · exact .refl s'.frame
  · exact same_update (by rw [hidle, K.part_idle]) (hg hnum)

end Update

section Frames

variable [DecidableEq τ] {s s' : State τ} {t u : Thread τ}

theorem setFrame_of_ne (s : State τ) (f : Frame) (hu : u ≠ t) :
    (s.setFrame t f).frame u = s.frame u := by
  simp only [State.setFrame, Function.update_of_ne hu]

/-- What a statement of `tty_driver_tx` leaves alone: everything but the frame
of its call and the transmit half of the driver. -/
structure TxMoves (t : Thread τ) (c : TxCall) (s s' : State τ) : Prop where
  frame : ∃ f, s'.frame = Function.update s.frame t f ∧ (f = .idle ∨ ∃ d, f = .tx d)
  lockRx : s'.lockRx = s.lockRx
  semRx : s'.semRx = s.semRx
  rxBuf : s'.rxBuf = s.rxBuf
  rxNum : s'.rxNum = s.rxNum
  rxEnable : s'.rxEnable = s.rxEnable
  pc : s'.pc = s.pc
  cnt : s'.cnt = s.cnt
  qRx : s'.qRx = s.qRx
  wire : s'.wire = s.wire
  mem : s'.mem = s.mem
  byteAddr : s'.byteAddr = s.byteAddr
  txeie : c.pc ≠ .enableTxe → s'.txeie = s.txeie

/-- The same for `tty_driver_rx` and the receive half. -/
structure RxMoves (t : Thread τ) (s s' : State τ) : Prop where
  frame : ∃ f, s'.frame = Function.update s.frame t f ∧ (f = .idle ∨ ∃ d, f = .rx d)
  lockTx : s'.lockTx = s.lockTx
  semTx : s'.semTx = s.semTx
  txBuf : s'.txBuf = s.txBuf
  txNum : s'.txNum = s.txNum
  txInd : s'.txInd = s.txInd
  txeie : s'.txeie = s.txeie
  pc : s'.pc = s.pc
  qRx : s'.qRx = s.qRx
  wire : s'.wire = s.wire
  mem : s'.mem = s.mem
  byteAddr : s'.byteAddr = s.byteAddr

theorem txStep_moves {c : TxCall} (h : txStep t c s = some s') : TxMoves t c s s' := by
  cases hpc : c.pc <;> simp only [txStep, hpc] at h
  case takeLock | takeSem =>
    split at h <;> cases h
    exact ⟨⟨_, rfl, .inr ⟨_, rfl⟩⟩, rfl, rfl, rfl, rfl, rfl, rfl, rfl, rfl, rfl, rfl, rfl,
      fun _ ↦ rfl⟩
  case enableTxe =>
    cases h
    exact ⟨⟨_, rfl, .inr ⟨_, rfl⟩⟩, rfl, rfl, rfl, rfl, rfl, rfl, rfl, rfl, rfl, rfl, rfl,
      fun hne ↦ absurd hpc hne⟩
  case ret =>
    cases h
    exact ⟨⟨_, rfl, .inl rfl⟩, rfl, rfl, rfl, rfl, rfl, rfl, rfl, rfl, rfl, rfl, rfl, fun _ ↦ rfl⟩
  all_goals
    cases h
    exact ⟨⟨_, rfl, .inr ⟨_, rfl⟩⟩, rfl, rfl, rfl, rfl, rfl, rfl, rfl, rfl, rfl, rfl, rfl,
      fun _ ↦ rfl⟩

theorem rxStep_moves {c : RxCall} (h : rxStep t c s = some s') : RxMoves t s s' := by
  cases hpc : c.pc <;> simp only [rxStep, hpc] at h
  case takeLock | takeSem =>
    split at h <;> cases h
    exact ⟨⟨_, rfl, .inr ⟨_, rfl⟩⟩, rfl, rfl, rfl, rfl, rfl, rfl, rfl, rfl, rfl, rfl, rfl⟩
  case ret =>
    cases h
    exact ⟨⟨_, rfl, .inl rfl⟩, rfl, rfl, rfl, rfl, rfl, rfl, rfl, rfl, rfl, rfl, rfl⟩
  all_goals
    cases h
    exact ⟨⟨_, rfl, .inr ⟨_, rfl⟩⟩, rfl, rfl, rfl, rfl, rfl, rfl, rfl, rfl, rfl, rfl, rfl⟩

theorem TxMoves.frame_of_ne {c : TxCall} (h : TxMoves t c s s') (hu : u ≠ t) :
    s'.frame u = s.frame u := by
  obtain ⟨f, hf, -⟩ := h.frame
  rw [hf, Function.update_of_ne hu]

theorem RxMoves.frame_of_ne (h : RxMoves t s s') (hu : u ≠ t) : s'.frame u = s.frame u := by
  obtain ⟨f, hf, -⟩ := h.frame
  rw [hf, Function.update_of_ne hu]

end Frames

section Memory

variable [DecidableEq τ] {s s' : State τ} {a : Action τ}

/-- Only `TTY_Task` and code outside the driver write to memory. -/
theorem step_memory (h : step s a = some s') (htty : a ≠ .tty) (hpoke : ∀ x v, a ≠ .poke x v) :
    s'.mem = s.mem ∧ s'.byteAddr = s.byteAddr := by
  cases a with
  | callTx t ptr num =>
    simp only [step] at h
    split at h
    · cases h
    · rcases enter_cases h with rfl | ⟨-, hnum, rfl⟩ <;> exact ⟨rfl, rfl⟩
  | callRx t buf num =>
    simp only [step] at h
    rcases enter_cases h with rfl | ⟨-, hnum, rfl⟩ <;> exact ⟨rfl, rfl⟩
  | tx t =>
    simp only [step] at h
    split at h
    · have hmoves := txStep_moves h
      exact ⟨hmoves.mem, hmoves.byteAddr⟩
    · cases h
  | rx t =>
    simp only [step] at h
    split at h
    · have hmoves := rxStep_moves h
      exact ⟨hmoves.mem, hmoves.byteAddr⟩
    · cases h
  | tty => exact absurd rfl htty
  | irq =>
    cases h
    simp only [usart1IRQHandler]
    split
    · split <;> exact ⟨rfl, rfl⟩
    · split <;> exact ⟨rfl, rfl⟩
  | txEmpty =>
    cases h
    exact ⟨rfl, rfl⟩
  | arrive byte =>
    cases h
    split <;> exact ⟨rfl, rfl⟩
  | poke x v => exact absurd rfl (hpoke x v)

end Memory

/-- With two tasks these are all threads. -/
theorem mem_threads (u : Thread Bool) : u ∈ [.task false, .task true, .ttyTask] := by
  rcases u with (_ | _) | _ <;> simp

end Tanenbaum.Tty.Calls
