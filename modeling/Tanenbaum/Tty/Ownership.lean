import Tanenbaum.Lib.Runs
import Tanenbaum.Tty.Receive

namespace Tanenbaum.Tty.Ownership

open Lib.Bytes Lib.Runs Driver Receive

variable {τ : Type}

def stores : TtyPc → Bool
  | .storeNewline | .erase | .storeByte => true
  | _ => false

theorem storeRx_mem {s : State τ} {buf : Word} (hbuf : s.rxBuf = buf) (i : BitVec 8) (v : UInt8) :
    (s.storeRx i v).mem = Function.update s.mem (buf + BitVec.ofNat 32 i.toNat) v := by
  rw [State.storeRx, hbuf, BitVec.ofNat_toNat]

/-- Different indices below 2^32 are different addresses. -/
theorem update_offset {mem : Word → UInt8} {ptr : Word} {n i : ℕ} (hi : i < 4294967296)
    (hn : n < 4294967296) (v : UInt8) :
    Function.update mem (ptr + BitVec.ofNat 32 n) v (ptr + BitVec.ofNat 32 i) =
      Function.update (fun j ↦ mem (ptr + BitVec.ofNat 32 j)) n v i := by
  by_cases hin : i = n
  · rw [hin, Function.update_self, Function.update_self]
  · rw [Function.update_of_ne hin, Function.update_of_ne]
    intro heq
    have hnat := congrArg BitVec.toNat ((BitVec.add_right_inj _).mp heq)
    rw [BitVec.toNat_ofNat, BitVec.toNat_ofNat] at hnat
    omega

theorem cnt_zero_at_top {s : State τ} (h : RxControl s) (hen : s.rxEnable = false)
    (hpc : s.pc = .receive) : s.cnt = 0 := h.cnt_zero hen (by rw [hpc]; decide)

variable [DecidableEq τ]

/-- A store of `TTY_Task` through `tty.rx_buf` goes into the buffer of the call
that holds `lock_rx`, has set `rx_enable` and waits for `sem_rx`, inside its
size. Its other statements write nothing but its own variable `byte`. -/
def StoresInOwner (s : State τ) (a : Action τ) : Prop :=
  a = .tty → ∀ s', step s a = some s' →
    if stores s.pc then
      ∃ t c i v, s.lockRx = some t ∧ s.frame t = .rx c ∧ c.pc = .takeSem ∧ s.rxEnable = true ∧
        i < c.num.toNat ∧ s'.mem = Function.update s.mem (c.buf + BitVec.ofNat 32 i) v
    else ∀ x, x ≠ s.byteAddr → s'.mem x = s.mem x

variable {s s' : State τ}

theorem storesInOwner (h : RxControl s) (a : Action τ) : StoresInOwner s a := by
  rintro rfl s' hstep
  simp only [step] at hstep
  split at hstep
  case h_2 => cases hstep
  cases hstores : stores s.pc
  · rw [if_neg (by decide)]
    intro x hx
    cases hpc : s.pc <;> simp only [hpc, stores, reduceCtorEq] at hstores <;>
      simp only [ttyStep, hpc] at hstep
    case receive =>
      split at hstep <;> cases hstep
      exact Function.update_of_ne hx _ _
    all_goals
      cases hstep
      rfl
  · rw [if_pos rfl]
    have hen : s.rxEnable = true := h.busy_enabled (by
      cases hpc : s.pc <;> simp_all [stores, busy])
    obtain ⟨t, c, hlock, hc, hcpc, hbuf, hcount⟩ := h.enabled hen
    cases hpc : s.pc <;> simp only [hpc, stores, reduceCtorEq] at hstores <;>
      simp only [ttyStep, hpc] at hstep <;> rw [hpc] at hcount
    case storeNewline =>
      cases hstep
      exact ⟨t, c, _, _, hlock, hc, hcpc, hen, hcount.2, storeRx_mem hbuf _ _⟩
    case storeByte =>
      cases hstep
      exact ⟨t, c, _, _, hlock, hc, hcpc, hen, hcount.2, storeRx_mem hbuf _ _⟩
    case erase =>
      cases hstep
      refine ⟨t, c, (s.cnt - 1).toNat, _, hlock, hc, hcpc, hen, ?_, storeRx_mem hbuf _ _⟩
      have hpos := hcount.2.1
      have hlt := hcount.2.2
      rw [BitVec.toNat_sub_of_le (show (1 : BitVec 8) ≤ s.cnt from hpos)]
      omega

/-- Receive buffer ownership, for every interleaving of callers, `TTY_Task` and
the handler: no store leaves the buffer of the waiting call, and without a
request the count at the top of the loop is 0. -/
theorem rx_stores_in_owner_buffer (byteAddr : Word) (mem : Word → UInt8) (as : List (Action τ)) :
    Along step StoresInOwner (boot byteAddr mem) as ∧
    ∀ s, run step (boot byteAddr mem) as = some s →
      s.rxEnable = false → s.pc = .receive → s.cnt = 0 := by
  constructor
  · exact along_of_invariant (A := fun _ ↦ True) (I := RxControl)
      (fun s a t _ h hstep ↦ h.step hstep) (fun s a _ h ↦ storesInOwner h a)
      (boot_rxControl byteAddr mem) fun _ _ ↦ trivial
  · intro s hrun
    exact cnt_zero_at_top (run_invariant (fun s a t h hstep ↦ h.step hstep)
      (boot_rxControl byteAddr mem) hrun)

def typedByte : List (Action Unit) :=
  [.callRx () 0x20000300 2, .rx (), .rx (), .rx (), .rx (), .tty, .tty, .arrive 97, .irq, .tty,
    .tx .ttyTask, .tx .ttyTask, .tx .ttyTask, .tx .ttyTask, .irq, .tx .ttyTask, .tx .ttyTask,
    .tx .ttyTask, .tty, .tty]

theorem typedByte_stored_in_owner_buffer :
    Along step StoresInOwner (boot 0x20000000 fun _ ↦ 0) typedByte ∧
    ∃ s, run step (boot 0x20000000 fun _ ↦ 0) typedByte = some s ∧ s.wire = [97] ∧
      s.mem 0x20000300 = 97 ∧ s.cnt = 1 := by
  have hrun : ((run step (boot 0x20000000 fun _ ↦ 0) typedByte).map fun s ↦
      (s.wire, s.mem 0x20000300, s.cnt)) = some ([97], 97, 1) := by decide
  obtain ⟨s, hs, heq⟩ := Option.map_eq_some_iff.mp hrun
  simp only [Prod.mk.injEq] at heq
  exact ⟨(rx_stores_in_owner_buffer 0x20000000 _ typedByte).1, s, hs, heq⟩

end Tanenbaum.Tty.Ownership
