import Tanenbaum.Lib.Runs
import Tanenbaum.Tty.Transmit

namespace Tanenbaum.Tty.Wire

open Lib.Bytes Lib.Runs Lib.Handshake Driver Calls Transmit

variable {τ : Type}

def text (s : State τ) (c : TxCall) : List UInt8 := slice s.mem c.ptr c.num

/-- The transmission of a call that holds `lock_tx` is in progress until the
handler has sent its last byte and disabled TXE. -/
def Sending (s : State τ) (c : TxCall) : Prop :=
  txPhase c.pc = .preparing ∨ (c.pc = .takeSem ∧ s.txeie = true)

instance (s : State τ) (c : TxCall) : Decidable (Sending s c) :=
  inferInstanceAs (Decidable (_ ∨ _))

def progress (s : State τ) (c : TxCall) : ℕ :=
  if Sending s c then s.txInd.toNat else c.num.toNat

/-- The wire carries the texts of the calls that took `lock_tx`, in that order,
the last one as far as it has come. -/
structure WireInv (s : State τ) (begun : List (List UInt8)) : Prop where
  unlocked : s.lockTx = none → s.wire = begun.flatten
  locked : ∀ t c, s.lockTx = some t → s.frame t = .tx c → ∃ done,
    begun = done ++ [text s c] ∧ s.wire = done.flatten ++ (text s c).take (progress s c)

section Slices

variable {mem : Word → UInt8} {ptr num : Word}

theorem slice_length (mem : Word → UInt8) (ptr num : Word) :
    (slice mem ptr num).length = num.toNat := by
  simp [slice]

theorem slice_take_all (mem : Word → UInt8) (ptr num : Word) :
    (slice mem ptr num).take num.toNat = slice mem ptr num := by
  rw [List.take_of_length_le (Nat.le_of_eq (slice_length mem ptr num))]

theorem slice_take_succ {i : Word} (h : i.toNat < num.toNat) :
    (slice mem ptr num).take (i.toNat + 1) =
      (slice mem ptr num).take i.toNat ++ [mem (ptr + i)] := by
  rw [List.take_add_one]
  simp [slice, h]

end Slices

section Steps

variable {s s' : State τ} {a : Action τ} {begun : List (List UInt8)} {t : Thread τ} {c : TxCall}

def begins (s : State τ) : Action τ → List (List UInt8)
  | .tx t =>
    match s.frame t with
    | .tx c => if c.pc = .takeLock then [text s c] else []
    | _ => []
  | _ => []

theorem progress_congr (hie : s'.txeie = s.txeie) (hind : s'.txInd = s.txInd) :
    progress s' c = progress s c := by
  have hsending : Sending s' c ↔ Sending s c := by rw [Sending, Sending, hie]
  rw [progress, progress, hind]
  exact if_congr hsending rfl rfl

theorem WireInv.quiet (h : WireInv s begun) (hctl : TxControl s) (hq : TxQuiet s s')
    (hkept : ∀ t c, s.frame t = .tx c → text s' c = text s c) : WireInv s' begun := by
  refine ⟨?_, fun t c hlock hc ↦ ?_⟩
  · rw [hq.lock, hq.wire]
    exact h.unlocked
  · have hsame : s.frame t = .tx c := by
      rcases hq.same.old (txPart_eq_some.mpr hc) with hold | hnew
      · exact txPart_eq_some.mp hold
      · -- a call that has only been entered is not inside the lock
        obtain ⟨d, hd, hin⟩ := (hctl.quiet hq).holder hlock
        cases hc.symm.trans hd
        exact absurd (txKind.outside_of_entered c hnew) hin
    rw [hkept t c hsame, progress_congr hq.ie hq.ind, hq.wire]
    exact h.locked t c (hq.lock ▸ hlock) hsame

theorem begins_of_ne (hc : s.frame t = .tx c) (hpc : c.pc ≠ .takeLock) : begins s (.tx t) = [] := by
  simp only [begins, hc, if_neg hpc]

theorem begins_of_not_tx (h : ∀ t, a ≠ .tx t) : begins s a = [] := by
  cases a with
  | tx t => exact absurd rfl (h t)
  | _ => rfl

theorem WireInv.irq (h : WireInv s begun) (hctl : TxControl s) (htxe : s.txe = true)
    (hie : s.txeie = true) : WireInv (usart1IRQHandler s) begun := by
  obtain ⟨t, c, hlock, hc, hpc, hnum, hbuf, hind, -⟩ := hctl.armed hie
  obtain ⟨done, hbegun, hwire⟩ := h.locked t c hlock hc
  have hsending : progress s c = s.txInd.toNat := by
    rw [progress, if_pos (.inr ⟨hpc, hie⟩)]
  have hsucc : (s.txInd + 1).toNat = s.txInd.toNat + 1 := by
    have hlt := c.num.isLt
    have hone : (1 : Word).toNat = 1 := rfl
    rw [BitVec.toNat_add, hone]
    omega
  have hsent : s.wire ++ [s.mem (s.txBuf + s.txInd)] =
      done.flatten ++ (text s c).take (s.txInd.toNat + 1) := by
    rw [hwire, hsending, hbuf, text, slice_take_succ hind, List.append_assoc]
  rcases handler_tx_cases htxe hie with ⟨hlast, heq⟩ | ⟨hne, heq⟩ <;> rw [heq] <;>
    refine ⟨fun hnone ↦ absurd (hlock.symm.trans hnone) (by simp), fun u d hu hd ↦ ⟨done, ?_, ?_⟩⟩ <;>
    obtain rfl : t = u := Option.some.inj (hlock.symm.trans hu) <;>
    obtain rfl : c = d := Frame.tx.inj (hc.symm.trans hd)
  · exact hbegun
  · rw [progress, if_neg (by simp [Sending, hpc, txPhase]), ← hnum, ← hlast, hsucc]
    exact hsent
  · exact hbegun
  · rw [progress, if_pos (.inr ⟨hpc, hie⟩)]
    show s.wire ++ [s.mem (s.txBuf + s.txInd)] = done.flatten ++ (text s c).take (s.txInd + 1).toNat
    rw [hsucc]
    exact hsent

variable [DecidableEq τ]

theorem WireInv.owner_moves {c' : TxCall} (h : WireInv s begun) (hlock : s.lockTx = some t)
    (hc : s.frame t = .tx c) (hlock' : s'.lockTx = some t)
    (hframe : s'.frame = Function.update s.frame t (.tx c')) (htext : text s' c' = text s c)
    (hwire : s'.wire = s.wire) (hprogress : progress s' c' = progress s c) : WireInv s' begun := by
  refine ⟨fun hnone ↦ absurd (hlock'.symm.trans hnone) (by simp), fun u d hu hd ↦ ?_⟩
  obtain rfl : t = u := Option.some.inj (hlock'.symm.trans hu)
  rw [hframe, Function.update_self] at hd
  cases hd
  rw [htext, hwire, hprogress]
  exact h.locked t c hlock hc

theorem WireInv.txStep (h : WireInv s begun) (hctl : TxControl s) (hc : s.frame t = .tx c)
    (hstep : txStep t c s = some s') : WireInv s' (begun ++ begins s (.tx t)) := by
  cases hpc : c.pc <;> simp only [Driver.txStep, hpc] at hstep
  case takeLock =>
    split at hstep <;> cases hstep
    next hnone =>
    have hnone := Option.isNone_iff_eq_none.mp hnone
    have hzero : s.txInd = 0 := hctl.rest (hctl.shake.quiet_of_unlocked hnone).1
    refine ⟨fun hfree ↦ ?_, fun u d hu hd ↦ ?_⟩
    · cases hfree
    · cases hu
      simp only [State.setFrame, Function.update_self] at hd
      cases hd
      have hprogress : progress { s.setFrame t (.tx { c with pc := .storeNum }) with
          lockTx := some t } { c with pc := .storeNum } = 0 := by
        rw [progress, if_pos (.inl rfl)]
        exact congrArg BitVec.toNat hzero
      refine ⟨begun, ?_, ?_⟩
      · simp only [begins, hc, hpc, if_true]
        rfl
      · rw [hprogress, List.take_zero, List.append_nil]
        exact h.unlocked hnone
  case giveLock =>
    cases hstep
    rw [begins_of_ne hc (by rw [hpc]; decide), List.append_nil]
    have hlock := hctl.lock_eq hc (by rw [hpc]; decide)
    refine ⟨fun _ ↦ ?_, fun u d hu _ ↦ ?_⟩
    · obtain ⟨done, hbegun, hwire⟩ := h.locked t c hlock hc
      have hprogress : progress s c = c.num.toNat := by
        rw [progress, if_neg (by simp [Sending, hpc, txPhase])]
      rw [hprogress, text, slice_take_all] at hwire
      rw [hbegun, List.flatten_append, List.flatten_singleton]
      exact hwire
    · cases hu
  case ret =>
    cases hstep
    rw [begins_of_ne hc (by rw [hpc]; decide), List.append_nil]
    refine ⟨h.unlocked, fun u d hu hd ↦ ?_⟩
    have hne : u ≠ t := by
      rintro rfl
      simp [State.setFrame] at hd
    simp only [State.setFrame, Function.update_of_ne hne] at hd
    exact h.locked u d hu hd
  case takeSem =>
    split at hstep <;> cases hstep
    next hsem =>
    rw [begins_of_ne hc (by rw [hpc]; decide), List.append_nil]
    have hlock := hctl.lock_eq hc (by rw [hpc]; decide)
    -- the token excludes that TXE is still enabled
    have hie : s.txeie = false := (hctl.shake.only_token hsem).1
    refine h.owner_moves hlock hc hlock rfl rfl rfl ?_
    rw [progress, progress, if_neg (by simp [Sending, txPhase]),
      if_neg (by simp [Sending, hpc, txPhase, hie])]
  all_goals
    cases hstep
    rw [begins_of_ne hc (by rw [hpc]; decide), List.append_nil]
    have hlock := hctl.lock_eq hc (by rw [hpc]; decide)
    refine h.owner_moves hlock hc hlock rfl rfl rfl ?_
    rw [progress, progress, if_pos (by simp [Sending, txPhase]),
      if_pos (by simp [Sending, hpc, txPhase])]
    rfl

/-- No step changes the buffer of a call that is under way. -/
def BuffersKept (s : State τ) (a : Action τ) : Prop :=
  ∀ s', step s a = some s' → ∀ t c, s.frame t = .tx c → text s' c = text s c

theorem WireInv.step (h : WireInv s begun) (hctl : TxControl s) (hkept : BuffersKept s a)
    (hstep : step s a = some s') : WireInv s' (begun ++ begins s a) := by
  rcases step_tx_cases hstep with ⟨t, c, rfl, hc, htx⟩ | ⟨rfl, htxe, hie, rfl⟩ | ⟨hne, hq⟩
  · exact h.txStep hctl hc htx
  · simpa only [begins, List.append_nil] using h.irq hctl htxe hie
  · rw [begins_of_not_tx hne, List.append_nil]
    exact h.quiet hctl hq (hkept s' hstep)

end Steps

section Integrity

variable [DecidableEq τ]

/-- When the handler is about to send, it reads inside the buffer of the call
that holds `lock_tx`, which waits and so has not returned. -/
def ReadsOwner (s : State τ) (a : Action τ) : Prop :=
  a = .irq → s.txe = true → s.txeie = true → ∃ t c, s.lockTx = some t ∧ s.frame t = .tx c ∧
    c.pc = .takeSem ∧ s.txBuf = c.ptr ∧ s.txInd.toNat < c.num.toNat

/-- The wire carries the whole texts of the finished transmissions in the order
in which their calls took `lock_tx`, then a prefix of the one in progress. -/
def InLockOrder (s : State τ) (begun : List (List UInt8)) : Prop :=
  ((∀ t c, s.lockTx = some t → s.frame t = .tx c → ¬ Sending s c) ∧ s.wire = begun.flatten) ∨
  ∃ t c finished sent, s.lockTx = some t ∧ s.frame t = .tx c ∧ Sending s c ∧
    begun = finished ++ [text s c] ∧ sent <+: text s c ∧ s.wire = finished.flatten ++ sent

omit [DecidableEq τ] in
theorem WireInv.inLockOrder {s : State τ} {begun : List (List UInt8)} (h : WireInv s begun)
    (hctl : TxControl s) : InLockOrder s begun := by
  cases hlock : s.lockTx with
  | none => exact .inl ⟨fun t c ht ↦ absurd (hlock.symm.trans ht) (by simp), h.unlocked hlock⟩
  | some t =>
    obtain ⟨c, hc, -⟩ := hctl.holder hlock
    obtain ⟨done, hbegun, hwire⟩ := h.locked t c hlock hc
    by_cases hs : Sending s c
    · exact .inr ⟨t, c, done, _, hlock, hc, hs, hbegun, List.take_prefix _ _, hwire⟩
    · refine .inl ⟨fun u d hu hd ↦ ?_, ?_⟩
      · obtain rfl : t = u := Option.some.inj (hlock.symm.trans hu)
        obtain rfl : c = d := Frame.tx.inj (hc.symm.trans hd)
        exact hs
      · rw [progress, if_neg hs, text, slice_take_all] at hwire
        rw [hwire, hbegun, List.flatten_append, List.flatten_singleton]
        rfl

omit [DecidableEq τ] in
theorem boot_wireInv (byteAddr : Word) (mem : Word → UInt8) :
    WireInv (boot byteAddr mem : State τ) [] := by
  refine ⟨fun _ ↦ rfl, fun t c hlock _ ↦ ?_⟩
  cases hlock

/-- Transmit integrity, for every interleaving of the calls and the handler in
which no buffer changes under a call. -/
theorem transmissions_in_lock_order (byteAddr : Word) (mem : Word → UInt8) (as : List (Action τ))
    (hkept : Along step BuffersKept (boot byteAddr mem) as) :
    Along step ReadsOwner (boot byteAddr mem) as ∧
    ∀ s begun, run (recording step begins) (boot byteAddr mem, []) as = some (s, begun) →
      InLockOrder s begun := by
  constructor
  · refine along_of_invariant (A := fun _ ↦ True) (I := TxControl)
      (fun s a t _ h hstep ↦ h.step hstep) (fun s a _ h _ _ hie ↦ ?_)
      (boot_txControl byteAddr mem) fun _ _ ↦ trivial
    obtain ⟨t, c, hlock, hc, hpc, -, hbuf, hind, -⟩ := h.armed hie
    exact ⟨t, c, hlock, hc, hpc, hbuf, hind⟩
  · intro s begun hrun
    have hinv := run_invariant_along (I := fun p ↦ TxControl p.1 ∧ WireInv p.1 p.2)
      (fun p a q hp hk hq ↦ ?_) ⟨boot_txControl byteAddr mem, boot_wireInv byteAddr mem⟩
      (along_recording _ hkept []) hrun
    · exact hinv.2.inLockOrder hinv.1
    · obtain ⟨hstep, hlog⟩ := recording_eq_some.mp hq
      exact ⟨hp.1.step hstep, hlog ▸ hp.2.step hp.1 hk hstep⟩

def WritesNothing : Action τ → Prop
  | .callTx .. | .tx .. | .irq | .txEmpty => True
  | _ => False

theorem buffersKept_of_writesNothing (s : State τ) {a : Action τ} (h : WritesNothing a) :
    BuffersKept s a := by
  intro s' hstep t c _
  have hmem := (step_memory hstep (by rintro rfl; exact h) (by rintro x v rfl; exact h)).1
  rw [text, text, hmem]

def twoCallers : List (Action Bool) :=
  [.callTx (.task false) 0x20000141 1, .tx (.task false), .callTx (.task true) 0x20000242 1,
    .tx (.task false), .tx (.task false), .tx (.task false), .irq, .txEmpty, .tx (.task false),
    .tx (.task false), .tx (.task true), .tx (.task false), .tx (.task true), .tx (.task true),
    .tx (.task true), .irq]

theorem twoCallers_in_lock_order :
    Along step ReadsOwner (boot 0x20000000 fun x ↦ UInt8.ofNat x.toNat) twoCallers ∧
    ∃ s begun, run (recording step begins) (boot 0x20000000 fun x ↦ UInt8.ofNat x.toNat, [])
      twoCallers = some (s, begun) ∧ s.wire = [0x41, 0x42] ∧ InLockOrder s begun := by
  have hkept : Along step BuffersKept (boot 0x20000000 fun x ↦ UInt8.ofNat x.toNat) twoCallers :=
    along_of_invariant (A := WritesNothing) (I := fun _ ↦ True) (fun _ _ _ _ _ _ ↦ trivial)
      (fun s a ha _ ↦ buffersKept_of_writesNothing s ha) trivial
      (by simp [twoCallers, WritesNothing])
  have hwire : ((run (recording step begins) (boot 0x20000000 fun x ↦ UInt8.ofNat x.toNat, [])
      twoCallers).map fun p ↦ p.1.wire) = some [0x41, 0x42] := by decide
  obtain ⟨hreads, horder⟩ := transmissions_in_lock_order 0x20000000 _ twoCallers hkept
  obtain ⟨p, hp, hw⟩ := Option.map_eq_some_iff.mp hwire
  exact ⟨hreads, p.1, p.2, hp, hw, horder p.1 p.2 hp⟩

end Integrity

end Tanenbaum.Tty.Wire
