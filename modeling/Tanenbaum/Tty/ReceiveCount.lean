import Tanenbaum.Tty.Service

namespace Tanenbaum.Tty.ReceiveCount

open Lib.Bytes Lib.CString Lib.Runs Lib.Handshake Driver Calls Receive Ownership
open LineDiscipline (firstBytes firstBytes_congr firstBytes_update_succ firstBytes_dropLast)
open Service (Requested RequestKept Reserved)

variable {τ : Type}

/-- What happens to the buffer of a call: its request is made, or `TTY_Task`
stores a byte in it or takes one back. -/
inductive Delivery (τ : Type)
  | request (t : Thread τ)
  | stored (t : Thread τ) (v : UInt8)
  | erased (t : Thread τ)

/-- `TTY_Task` stores for the call that holds `lock_rx`. -/
def delivers (s : State τ) : Action τ → List (Delivery τ)
  | .rx t =>
    match s.frame (.task t) with
    | .rx c => if c.pc = .setEnable then [.request (.task t)] else []
    | _ => []
  | .tty =>
    match s.pc with
    | .storeNewline => s.lockRx.toList.map (.stored · 10)
    | .storeByte => s.lockRx.toList.map (.stored · (s.mem s.byteAddr))
    | .erase => s.lockRx.toList.map .erased
    | _ => []
  | _ => []

section Tally

variable [DecidableEq τ]

def tally (t : Thread τ) (got : Str) : Delivery τ → Str
  | .request u => if u = t then [] else got
  | .stored u v => if u = t then got ++ [v] else got
  | .erased u => if u = t then got.dropLast else got

/-- The bytes that the last request of `t` has got so far. -/
def deliveredTo (t : Thread τ) (log : List (Delivery τ)) : Str := log.foldl (tally t) []

theorem deliveredTo_concat (t : Thread τ) (log : List (Delivery τ)) (e : Delivery τ) :
    deliveredTo t (log ++ [e]) = tally t (deliveredTo t log) e := by
  rw [deliveredTo, List.foldl_append]
  rfl

end Tally

/-- No statement stores another value in `rx_num` while some call is between
giving `lock_rx` and reading `rx_num` back. -/
def KeepsCount (s : State τ) (a : Action τ) : Prop :=
  ∀ u d, s.frame u = .rx d → d.pc = .ret →
    (∀ t c, a = .rx t → s.frame (.task t) = .rx c → c.pc = .storeNum → c.num = s.rxNum) ∧
    (a = .tty → s.pc = .setNum → s.cnt.setWidth 32 = s.rxNum)

def Small : Action τ → Prop
  | .callRx _ _ num => num.toNat ≤ 255
  | _ => True

def Counted (s : State τ) (c : RxCall) : Prop :=
  (c.pc = .takeSem ∧ s.rxEnable = false) ∨ c.pc = .giveLock ∨ c.pc = .ret

section Invariant

variable {s s' : State τ} {a : Action τ} {log log' : List (Delivery τ)} {t : Thread τ} {c : RxCall}

theorem delivers_of_quiet (hrx : ∀ t, a ≠ .rx t) (htty : a ≠ .tty) : delivers s a = [] := by
  cases a with
  | rx t => exact absurd rfl (hrx t)
  | tty => exact absurd rfl htty
  | _ => rfl

theorem delivers_rx_of_ne {t : τ} (hc : s.frame (.task t) = .rx c) (hpc : c.pc ≠ .setEnable) :
    delivers s (.rx t) = [] := by
  simp only [delivers, hc, hpc, if_false]

variable [DecidableEq τ]

/-- While the request is open `cnt` is what was delivered, and from its
completion on `rx_num` is. -/
structure CallInv (s : State τ) (log : List (Delivery τ)) (t : Thread τ) (c : RxCall) : Prop where
  small : c.num.toNat ≤ 255
  counting : c.pc = .takeSem → s.rxEnable = true →
    s.cnt.toNat = (deliveredTo t log).length ∧ (s.pc = .clearEnable → s.rxNum = s.cnt.setWidth 32)
  counted : Counted s c → s.rxNum.toNat = (deliveredTo t log).length

def CountInv (s : State τ) (log : List (Delivery τ)) : Prop :=
  ∀ t c, s.frame t = .rx c → CallInv s log t c

theorem CountInv.ret (h : CountInv s log) (hc : s.frame t = .rx c) (hpc : c.pc = .ret) :
    s.rxNum.toNat = (deliveredTo t log).length := (h t c hc).counted (.inr (.inr hpc))

/-- Outside the lock only a call that has not yet returned is concerned. -/
theorem callInv_of_outside (hsmall : c.num.toNat ≤ 255) (hout : rxPhase c.pc = .outside)
    (hret : c.pc = .ret → s.rxNum.toNat = (deliveredTo t log).length) : CallInv s log t c := by
  refine ⟨hsmall, fun hpc ↦ ?_, fun hcounted ↦ ?_⟩
  · rw [hpc] at hout
    cases hout
  · rcases hcounted with ⟨hpc, -⟩ | hpc | hpc
    · rw [hpc] at hout
      cases hout
    · rw [hpc] at hout
      cases hout
    · exact hret hpc

theorem CallInv.quiet (h : CallInv s log t c) (hq : RxQuiet s s') : CallInv s' log t c := by
  refine ⟨h.small, ?_, ?_⟩
  · rw [hq.enable, hq.cnt, hq.num, hq.pc]
    exact h.counting
  · rw [Counted, hq.enable, hq.num]
    exact h.counted

theorem CountInv.quiet (h : CountInv s log) (hq : RxQuiet s s')
    (hsmall : ∀ t c, s'.frame t = .rx c → c.num.toNat ≤ 255) : CountInv s' log := by
  intro t c hc
  rcases hq.same.old (rxPart_eq_some.mpr hc) with hold | hnew
  · exact (h t c (rxPart_eq_some.mp hold)).quiet hq
  · refine callInv_of_outside (hsmall t c hc) (rxKind.outside_of_entered c hnew) fun hpc ↦ ?_
    exact absurd (hpc.symm.trans hnew) (by decide)

/-- When a call inside the lock moves, the others can at most be about to return. -/
theorem CountInv.of_alone {c' : RxCall} (h : CountInv s log) (hctl : RxControl s)
    (hlock : s.lockRx = none ∨ s.lockRx = some t)
    (hframe : s'.frame = Function.update s.frame t (.rx c'))
    (hret : ∀ u d, u ≠ t → s.frame u = .rx d → d.pc = .ret →
      s'.rxNum.toNat = (deliveredTo u log').length)
    (hown : CallInv s' log' t c') : CountInv s' log' := by
  intro u d hd
  rw [hframe] at hd
  by_cases hu : u = t
  · subst hu
    rw [Function.update_self] at hd
    cases hd
    exact hown
  · rw [Function.update_of_ne hu] at hd
    have hout := hctl.outside hlock u d hu (rxPart_eq_some.mpr hd)
    exact callInv_of_outside (h u d hd).small hout (hret u d hu hd)

theorem CountInv.rxStep {t : τ} (h : CountInv s log) (hctl : RxControl s)
    (hkeeps : KeepsCount s (.rx t)) (hc : s.frame (.task t) = .rx c)
    (hstep : rxStep (.task t) c s = some s') : CountInv s' (log ++ delivers s (.rx t)) := by
  have hlock := hctl.lock_eq hc
  have hown := h _ c hc
  by_cases hset : c.pc = .setEnable
  · simp only [Driver.rxStep, hset] at hstep
    cases hstep
    have hlog : delivers s (.rx t) = [.request (.task t)] := by
      simp only [delivers, hc, hset, if_true]
    rw [hlog]
    refine h.of_alone hctl (.inr (hlock (by rw [hset]; decide))) rfl (fun u d hu hd hpc ↦ ?_) ?_
    · rw [deliveredTo_concat, tally, if_neg (Ne.symm hu)]
      exact h.ret hd hpc
    · have hphase : (rxView s).phase (.task t) = rxPhase c.pc :=
        phases_of_call (rxPart_eq_some.mpr hc)
      rw [hset] at hphase
      have hquiet := hctl.shake.quiet_of_phase (t := .task t) (by rw [hphase]; decide)
        (by rw [hphase]; decide)
      obtain ⟨hbusy, hzero⟩ := hctl.at_rest hquiet.1 hquiet.2.1
      refine ⟨hown.small, fun _ _ ↦ ⟨?_, fun hclear ↦ ?_⟩, fun hcounted ↦ ?_⟩
      · rw [deliveredTo_concat, tally, if_pos rfl]
        exact congrArg BitVec.toNat hzero
      · have hpc : s.pc = .clearEnable := hclear
        rw [hpc] at hbusy
        cases hbusy
      · simp [Counted] at hcounted
  rw [delivers_rx_of_ne hc hset, List.append_nil]
  cases hpc : c.pc <;> simp only [Driver.rxStep, hpc] at hstep
  case takeLock =>
    split at hstep <;> cases hstep
    next hfree =>
    refine h.of_alone hctl (.inl (Option.isNone_iff_eq_none.mp hfree)) rfl
      (fun u d _ hd hpc ↦ h.ret hd hpc) ⟨hown.small, by simp, by simp [Counted]⟩
  case storeBuf =>
    cases hstep
    exact h.of_alone hctl (.inr (hlock (by rw [hpc]; decide))) rfl
      (fun u d _ hd hpc ↦ h.ret hd hpc) ⟨hown.small, by simp, by simp [Counted]⟩
  case storeNum =>
    cases hstep
    refine h.of_alone hctl (.inr (hlock (by rw [hpc]; decide))) rfl (fun u d _ hd hdpc ↦ ?_)
      ⟨hown.small, by simp, by simp [Counted]⟩
    show c.num.toNat = _
    rw [(hkeeps u d hd hdpc).1 t c rfl hc hpc]
    exact h.ret hd hdpc
  case setEnable => exact absurd hpc hset
  case takeSem =>
    split at hstep <;> cases hstep
    next hsem =>
    have hoff : s.rxEnable = false := (hctl.shake.only_token hsem).1
    exact h.of_alone hctl (.inr (hlock (by rw [hpc]; decide))) rfl
      (fun u d _ hd hpc ↦ h.ret hd hpc)
      ⟨hown.small, by simp, fun _ ↦ hown.counted (.inl ⟨hpc, hoff⟩)⟩
  case giveLock =>
    cases hstep
    exact h.of_alone hctl (.inr (hlock (by rw [hpc]; decide))) rfl
      (fun u d _ hd hpc ↦ h.ret hd hpc)
      ⟨hown.small, by simp, fun _ ↦ hown.counted (.inr (.inl hpc))⟩
  case ret =>
    cases hstep
    intro u d hd
    have hu : u ≠ .task t := by
      rintro rfl
      simp [State.setFrame] at hd
    simp only [State.setFrame, Function.update_of_ne hu] at hd
    exact ⟨(h u d hd).small, (h u d hd).counting, (h u d hd).counted⟩

end Invariant

section Task

variable {s s' : State τ} {a : Action τ} {log log' : List (Delivery τ)} {t : Thread τ} {c : RxCall}

theorem delivers_tty_of_ne (hnl : s.pc ≠ .storeNewline) (hbyte : s.pc ≠ .storeByte)
    (herase : s.pc ≠ .erase) : delivers s (.tty : Action τ) = [] := by
  cases hpc : s.pc <;> simp_all [delivers]

theorem delivers_store (hpc : s.pc = .storeNewline ∨ s.pc = .storeByte)
    (hlock : s.lockRx = some t) : ∃ v, delivers s (.tty : Action τ) = [.stored t v] := by
  rcases hpc with hpc | hpc <;> simp [delivers, hpc, hlock]

theorem dispatch_ne_clearEnable (cnt : BitVec 8) (byte : UInt8) :
    dispatch cnt byte ≠ .clearEnable := by
  rcases dispatch_cases cnt byte with hd | ⟨hd, -⟩ | hd | hd | hd <;> rw [hd] <;> decide

variable [DecidableEq τ]

theorem CountInv.of_task (h : CountInv s log) (hctl : RxControl s) (hc : s.frame t = .rx c)
    (hpc : c.pc = .takeSem) (hframe : ∀ u d, s'.frame u = .rx d → s.frame u = .rx d)
    (hret : ∀ u d, u ≠ t → s.frame u = .rx d → d.pc = .ret →
      s'.rxNum.toNat = (deliveredTo u log').length)
    (hown : CallInv s' log' t c) : CountInv s' log' := by
  intro u d hd
  have hd := hframe u d hd
  by_cases hu : u = t
  · subst hu
    cases hc.symm.trans hd
    exact hown
  · have hout := hctl.alone hc (by rw [hpc]; decide) u d hu (rxPart_eq_some.mpr hd)
    exact callInv_of_outside (h u d hd).small hout (hret u d hu hd)

/-- Without a request `TTY_Task` leaves every count alone. -/
theorem CountInv.ttyStep_off (h : CountInv s log) (hoff : s.rxEnable = false)
    (hbusy : busy s.pc = false) (hstep : ttyStep s = some s') :
    CountInv s' (log ++ delivers s .tty) := by
  have hlog : delivers s (.tty : Action τ) = [] := by
    apply delivers_tty_of_ne <;> intro hpc <;> rw [hpc] at hbusy <;> cases hbusy
  have hkept : s'.rxNum = s.rxNum ∧ s'.rxEnable = s.rxEnable := by
    cases hpc : s.pc <;> simp only [Driver.ttyStep, hpc] at hstep <;> rw [hpc] at hbusy
    case receive =>
      split at hstep <;> cases hstep
      exact ⟨rfl, rfl⟩
    case start | printBanner | test | clearCnt | giveSem =>
      cases hstep
      exact ⟨rfl, rfl⟩
    all_goals cases hbusy
  rw [hlog, List.append_nil]
  intro t c hc
  have hold := h t c (ttyStep_rx_frame hstep hc)
  refine ⟨hold.small, fun _ hen ↦ ?_, ?_⟩
  · rw [hkept.2, hoff] at hen
    cases hen
  · rw [Counted, hkept.2, hkept.1]
    exact hold.counted

theorem CountInv.ttyStep_on (h : CountInv s log) (hctl : RxControl s) (hen : s.rxEnable = true)
    (hkeeps : KeepsCount s .tty) (hstep : ttyStep s = some s') :
    CountInv s' (log ++ delivers s .tty) := by
  obtain ⟨t, c, hlock, hc, hcpc, -, hcount⟩ := hctl.enabled hen
  have hown := h t c hc
  have hcnt := (hown.counting hcpc hen).1
  have hsmall := hown.small
  have hframe (u : Thread τ) (d : RxCall) (hd : s'.frame u = .rx d) : s.frame u = .rx d :=
    ttyStep_rx_frame hstep hd
  have hone : (1 : BitVec 8).toNat = 1 := rfl
  -- a step of the service that leaves `rx_num` and `rx_enable` alone
  have hserve {log' : List (Delivery τ)} (hnum : s'.rxNum = s.rxNum)
      (hen' : s'.rxEnable = s.rxEnable) (hpc' : s'.pc ≠ .clearEnable)
      (hother : ∀ u ≠ t, deliveredTo u log' = deliveredTo u log)
      (hcnt' : s'.cnt.toNat = (deliveredTo t log').length) : CountInv s' log' := by
    refine h.of_task hctl hc hcpc hframe (fun u d hu hd hdpc ↦ ?_)
      ⟨hsmall, fun _ _ ↦ ⟨hcnt', fun hclear ↦ absurd hclear hpc'⟩, fun hcounted ↦ ?_⟩
    · rw [hnum, hother u hu]
      exact h.ret hd hdpc
    · simp [Counted, hen', hcpc, hen] at hcounted
  have hstay (hnum : s'.rxNum = s.rxNum) (hen' : s'.rxEnable = s.rxEnable) (hcnt' : s'.cnt = s.cnt)
      (hpc' : s'.pc ≠ .clearEnable) : CountInv s' log :=
    hserve hnum hen' hpc' (fun _ _ ↦ rfl) (by rw [hcnt']; exact hcnt)
  cases hpc : s.pc
  case storeNewline | storeByte =>
    simp only [Driver.ttyStep, hpc] at hstep
    cases hstep
    obtain ⟨v, hlog⟩ := delivers_store (by simp [hpc]) hlock
    rw [hpc] at hcount
    rw [hlog]
    refine hserve rfl rfl (by simp) (fun u hu ↦ ?_) ?_
    · rw [deliveredTo_concat, tally, if_neg (Ne.symm hu)]
    · have hlt := hcount.2
      rw [deliveredTo_concat, tally, if_pos rfl, List.length_append, ← hcnt]
      show (s.cnt + 1).toNat = _
      rw [BitVec.toNat_add, hone, List.length_singleton]
      omega
  case erase =>
    simp only [Driver.ttyStep, hpc] at hstep
    cases hstep
    have hlog : delivers s (.tty : Action τ) = [.erased t] := by simp [delivers, hpc, hlock]
    rw [hpc] at hcount
    rw [hlog]
    refine hserve rfl rfl (by simp) (fun u hu ↦ ?_) ?_
    · rw [deliveredTo_concat, tally, if_neg (Ne.symm hu)]
    · have hpos := hcount.2.1
      rw [deliveredTo_concat, tally, if_pos rfl, List.length_dropLast, ← hcnt]
      show (s.cnt - 1).toNat = _
      rw [BitVec.toNat_sub_of_le (show (1 : BitVec 8) ≤ s.cnt from hpos), hone]
  all_goals
    rw [delivers_tty_of_ne (by rw [hpc]; decide) (by rw [hpc]; decide) (by rw [hpc]; decide),
      List.append_nil]
  case setNum =>
    simp only [Driver.ttyStep, hpc] at hstep
    cases hstep
    refine h.of_task hctl hc hcpc hframe (fun u d _ hd hdpc ↦ ?_)
      ⟨hsmall, fun _ _ ↦ ⟨hcnt, fun _ ↦ rfl⟩, fun hcounted ↦ ?_⟩
    · show (s.cnt.setWidth 32).toNat = _
      rw [(hkeeps u d hd hdpc).2 rfl hpc]
      exact h.ret hd hdpc
    · simp [Counted, hcpc, hen] at hcounted
  case clearEnable =>
    simp only [Driver.ttyStep, hpc] at hstep
    cases hstep
    refine h.of_task hctl hc hcpc hframe (fun u d _ hd hdpc ↦ h.ret hd hdpc)
      ⟨hsmall, by simp, fun _ ↦ ?_⟩
    have hnum : s.rxNum = s.cnt.setWidth 32 := (hown.counting hcpc hen).2 hpc
    show s.rxNum.toNat = _
    have hlt := s.cnt.isLt
    rw [hnum, BitVec.toNat_setWidth, ← hcnt]
    omega
  case clearCnt | giveSem =>
    have hwaking : waking s.pc = false := (hctl.shake.only_armed hen).1
    rw [hpc] at hwaking
    cases hwaking
  case receive =>
    simp only [Driver.ttyStep, hpc] at hstep
    split at hstep <;> cases hstep
    exact hstay rfl rfl rfl (by simp)
  case test =>
    simp only [Driver.ttyStep, hpc] at hstep
    cases hstep
    refine hstay rfl rfl rfl ?_
    simp only [hen, if_true]
    exact dispatch_ne_clearEnable _ _
  case compare =>
    simp only [Driver.ttyStep, hpc] at hstep
    cases hstep
    refine hstay rfl rfl rfl ?_
    show (if _ then _ else _) ≠ _
    split <;> decide
  all_goals
    simp only [Driver.ttyStep, hpc] at hstep
    cases hstep
    exact hstay rfl rfl rfl (by simp)

theorem CountInv.step (h : CountInv s log) (hctl : RxControl s) (hkeeps : KeepsCount s a)
    (hsmall : Small a) (hstep : step s a = some s') : CountInv s' (log ++ delivers s a) := by
  rcases step_rx_cases hstep with ⟨t, c, rfl, hc, hrx⟩ | ⟨rfl, -, htty⟩ | ⟨hrx, htty, hq⟩
  · exact h.rxStep hctl hkeeps hc hrx
  · cases hen : s.rxEnable
    · exact h.ttyStep_off hen (hctl.not_busy hen) htty
    · exact h.ttyStep_on hctl hen hkeeps htty
  · rw [delivers_of_quiet hrx htty, List.append_nil]
    refine h.quiet hq fun t c hc ↦ ?_
    rcases step_rx_entered hstep hrx hc with hold | ⟨u, buf, -, rfl⟩
    · exact (h t c hold).small
    · exact hsmall

end Task

section Stores

variable [DecidableEq τ]

/-- The delivery is a store into the buffer of the call, after the bytes it has got. -/
def IsStore (s s' : State τ) (log : List (Delivery τ)) : Delivery τ → Prop
  | .request _ => s'.mem = s.mem
  | .stored t v => ∃ c, s.frame t = .rx c ∧ (deliveredTo t log).length < c.num.toNat ∧
      s'.mem = Function.update s.mem (c.buf + BitVec.ofNat 32 (deliveredTo t log).length) v
  | .erased t => ∃ c, s.frame t = .rx c ∧ 0 < (deliveredTo t log).length ∧
      s'.mem = Function.update s.mem (c.buf + BitVec.ofNat 32 ((deliveredTo t log).length - 1)) 0

/-- Every delivery is such a store, and nothing else is written, but by code
outside the driver and to the variable `byte` of `TTY_Task`. -/
def StoresDelivered (p : State τ × List (Delivery τ)) (a : Action τ) : Prop :=
  ∀ s', step p.1 a = some s' →
    (∀ e ∈ delivers p.1 a, IsStore p.1 s' p.2 e) ∧
    (delivers p.1 a = [] → ∀ x, s'.mem x ≠ p.1.mem x →
      (∃ v, a = .poke x v) ∨ a = .tty ∧ p.1.pc = .receive ∧ x = p.1.byteAddr)

variable {s s' : State τ} {a : Action τ} {log : List (Delivery τ)} {t : Thread τ} {c : RxCall}

theorem ttyStep_delivers (h : CountInv s log) (hctl : RxControl s)
    (hstep : ttyStep s = some s') : (∀ e ∈ delivers s .tty, IsStore s s' log e) ∧
      (delivers s .tty = [] → ∀ x, s'.mem x ≠ s.mem x → s.pc = .receive ∧ x = s.byteAddr) := by
  by_cases hstores : stores s.pc = true
  · have hen : s.rxEnable = true := hctl.busy_enabled (by
      cases hpc : s.pc <;> simp_all [stores, busy])
    obtain ⟨t, c, hlock, hc, hcpc, hbuf, hcount⟩ := hctl.enabled hen
    have hcnt := ((h t c hc).counting hcpc hen).1
    cases hpc : s.pc <;> simp only [hpc, stores, reduceCtorEq] at hstores <;>
      simp only [ttyStep, hpc] at hstep <;> rw [hpc] at hcount <;>
      simp only [delivers, hpc, hlock, Option.toList_some, List.map_singleton, List.mem_singleton,
        forall_eq, List.cons_ne_nil, false_implies, and_true]
    case storeNewline | storeByte =>
      cases hstep
      refine ⟨c, hc, hcnt ▸ hcount.2, ?_⟩
      rw [← hcnt]
      exact storeRx_mem hbuf _ _
    case erase =>
      cases hstep
      have hpos := hcount.2.1
      refine ⟨c, hc, hcnt ▸ hpos, ?_⟩
      rw [← hcnt]
      have hsub : (s.cnt - 1).toNat = s.cnt.toNat - 1 :=
        BitVec.toNat_sub_of_le (show (1 : BitVec 8) ≤ s.cnt from hpos)
      rw [← hsub]
      exact storeRx_mem hbuf _ _
  · have hnone : delivers s (.tty : Action τ) = [] := by
      apply delivers_tty_of_ne <;> intro hpc <;> simp [hpc, stores] at hstores
    rw [hnone]
    refine ⟨by simp, fun _ x hx ↦ ?_⟩
    cases hpc : s.pc <;> simp only [ttyStep, hpc] at hstep
    case receive =>
      split at hstep <;> cases hstep
      refine ⟨rfl, ?_⟩
      by_contra hne
      exact hx (Function.update_of_ne hne _ _)
    case storeNewline | storeByte | erase => simp [hpc, stores] at hstores
    all_goals
      cases hstep
      exact absurd rfl hx

theorem CountInv.storesDelivered (h : CountInv s log) (hctl : RxControl s) (a : Action τ) :
    StoresDelivered (s, log) a := by
  intro s' (hstep : Driver.step s a = some s')
  rcases step_rx_cases hstep with ⟨t, c, rfl, hc, -⟩ | ⟨rfl, -, htty⟩ | ⟨hrx, htty, -⟩
  · have hmem := (step_memory hstep (by simp) (by simp)).1
    refine ⟨fun e he ↦ ?_, fun _ x hx ↦ absurd (congrFun hmem x) hx⟩
    simp only [delivers, hc] at he
    split at he
    · rw [List.mem_singleton.mp he]
      exact hmem
    · cases he
  · obtain ⟨hstores, hother⟩ := ttyStep_delivers h hctl htty
    exact ⟨hstores, fun hnone x hx ↦ .inr ⟨rfl, hother hnone x hx⟩⟩
  · refine ⟨?_, fun _ x hx ↦ ?_⟩
    · rw [delivers_of_quiet hrx htty]
      simp
    by_cases hpoke : ∃ y v, a = .poke y v
    · obtain ⟨y, v, rfl⟩ := hpoke
      cases hstep
      by_cases hxy : x = y
      · exact .inl ⟨v, by rw [hxy]⟩
      · exact absurd (Function.update_of_ne hxy _ _) hx
    · have hmem := (step_memory hstep htty fun y v heq ↦ hpoke ⟨y, v, heq⟩).1
      exact absurd (congrFun hmem x) hx

end Stores

section Buffers

variable {s s' : State τ} {a : Action τ} {log : List (Delivery τ)} {t : Thread τ} {c : RxCall}

theorem firstBytes_store {mem : Word → UInt8} {ptr : Word} {n : ℕ} (hn : n < 4294967296)
    (v : UInt8) :
    firstBytes (fun i ↦ Function.update mem (ptr + BitVec.ofNat 32 n) v (ptr + BitVec.ofNat 32 i))
      (n + 1) = firstBytes (fun i ↦ mem (ptr + BitVec.ofNat 32 i)) n ++ [v] := by
  rw [← firstBytes_update_succ]
  exact firstBytes_congr fun i hi ↦ update_offset (by omega) hn v

theorem firstBytes_erase {mem : Word → UInt8} {ptr : Word} {n : ℕ} (hn : n < 4294967296)
    (v : UInt8) :
    firstBytes (fun i ↦ Function.update mem (ptr + BitVec.ofNat 32 (n - 1)) v
      (ptr + BitVec.ofNat 32 i)) (n - 1) =
        (firstBytes (fun i ↦ mem (ptr + BitVec.ofNat 32 i)) n).dropLast := by
  rw [firstBytes_dropLast]
  apply firstBytes_congr
  intro i hi
  rw [update_offset (by omega) (by omega), Function.update_of_ne (Nat.ne_of_lt hi)]

theorem delivers_cases (s : State τ) (a : Action τ) :
    delivers s a = [] ∨ ∃ e, delivers s a = [e] := by
  cases a with
  | rx t =>
    simp only [delivers]
    split
    · split <;> simp
    · simp
  | tty => cases hpc : s.pc <;> cases hlock : s.lockRx <;> simp [delivers, hpc, hlock]
  | _ => exact .inl rfl

theorem lock_of_delivers {v : UInt8}
    (h : delivers s a = [.stored t v] ∨ delivers s a = [.erased t]) : s.lockRx = some t := by
  cases a with
  | rx u =>
    simp only [delivers] at h
    split at h
    · split at h <;> simp at h
    · simp at h
  | tty => cases hpc : s.pc <;> cases hlock : s.lockRx <;> simp_all [delivers]
  | _ => simp [delivers] at h

theorem request_not_mem_tty : Delivery.request t ∉ delivers s (.tty : Action τ) := by
  cases hpc : s.pc <;> simp [delivers, hpc]

variable [DecidableEq τ]

/-- A call with an open request had it before the step, or has just made it. -/
theorem step_requested (hstep : step s a = some s') (hc : s'.frame t = .rx c)
    (hreq : Requested c) : (∃ d, s.frame t = .rx d ∧ Requested d ∧ c.buf = d.buf ∧ c.num = d.num ∧
      .request t ∉ delivers s a) ∨ delivers s a = [.request t] := by
  rcases step_rx_cases hstep with ⟨u, d, rfl, hd, hrx⟩ | ⟨rfl, -, htty⟩ | ⟨hrx, htty, hq⟩
  · by_cases ht : t = .task u
    · subst ht
      cases hpc : d.pc <;> simp only [rxStep, hpc] at hrx
      case takeLock =>
        split at hrx <;> cases hrx
        simp only [State.setFrame, Function.update_self, Frame.rx.injEq] at hc
        subst hc
        exact absurd hreq (by simp [Requested])
      case takeSem =>
        split at hrx <;> cases hrx
        simp only [State.setFrame, Function.update_self, Frame.rx.injEq] at hc
        subst hc
        refine .inl ⟨d, hd, .inl hpc, rfl, rfl, ?_⟩
        rw [delivers_rx_of_ne hd (by rw [hpc]; decide)]
        exact List.not_mem_nil
      case setEnable => exact .inr (by simp only [delivers, hd, hpc, if_true])
      all_goals
        cases hrx
        simp only [State.setFrame, Function.update_self, Frame.rx.injEq, reduceCtorEq] at hc
        try
          subst hc
          exact absurd hreq (by simp [Requested])
    · rw [(rxStep_moves hrx).frame_of_ne ht] at hc
      refine .inl ⟨c, hc, hreq, rfl, rfl, ?_⟩
      simp only [delivers, hd]
      split <;> simp [ht]
  · exact .inl ⟨c, ttyStep_rx_frame htty hc, hreq, rfl, rfl, request_not_mem_tty⟩
  · rw [delivers_of_quiet hrx htty]
    rcases hq.same.old (rxPart_eq_some.mpr hc) with hold | hnew
    · exact .inl ⟨c, rxPart_eq_some.mp hold, hreq, rfl, rfl, by simp⟩
    · exact absurd (rxKind.outside_of_entered c hnew) hreq.inside

/-- The buffer of an open request starts with the bytes that it has got. -/
def Holds (s : State τ) (log : List (Delivery τ)) : Prop :=
  ∀ t c, s.frame t = .rx c → Requested c → (deliveredTo t log).length ≤ c.num.toNat ∧
    firstBytes (fun i ↦ s.mem (c.buf + BitVec.ofNat 32 i)) (deliveredTo t log).length =
      deliveredTo t log

theorem Holds.step (h : Holds s log) (hctl : RxControl s) (hstores : StoresDelivered (s, log) a)
    (hkept : RequestKept s a) (hstep : step s a = some s') : Holds s' (log ++ delivers s a) := by
  intro t c hc hreq
  obtain ⟨hstores, hother⟩ : (∀ e ∈ delivers s a, IsStore s s' log e) ∧ _ := hstores s' hstep
  rcases step_requested hstep hc hreq with ⟨d, hd, hreq, hbuf, hnum, hnot⟩ | hnew
  · obtain ⟨hle, hbytes⟩ := h t d hd hreq
    have hsize := d.num.isLt
    have hlock := hctl.lock_eq hd hreq.inside
    rw [hbuf, hnum]
    rcases delivers_cases s a with hnone | ⟨e, he⟩
    · rw [hnone, List.append_nil]
      refine ⟨hle, (firstBytes_congr fun i hi ↦ ?_).trans hbytes⟩
      -- nothing is written to the places of the request
      by_contra hne
      have hres : Reserved s (d.buf + BitVec.ofNat 32 i) :=
        ⟨t, d, i, hd, hreq, Nat.lt_of_lt_of_le hi hle, rfl⟩
      rcases hother hnone _ hne with ⟨v, rfl⟩ | ⟨rfl, hpc, hbyte⟩
      · exact hkept.2 hres
      · exact hkept hpc (hbyte ▸ hres)
    · have hstore := hstores e (by simp [he])
      rw [he, deliveredTo_concat]
      cases e with
      | request u =>
        have hu : u ≠ t := by
          rintro rfl
          exact hnot (by simp [he])
        rw [tally, if_neg hu, hstore]
        exact ⟨hle, hbytes⟩
      | stored u v =>
        obtain rfl : u = t := Option.some.inj ((lock_of_delivers (.inl he)).symm.trans hlock)
        obtain ⟨d', hd', hlt, hmem⟩ := hstore
        cases hd.symm.trans hd'
        rw [tally, if_pos rfl, hmem, List.length_append, List.length_singleton]
        refine ⟨hlt, ?_⟩
        rw [firstBytes_store (by omega), hbytes]
      | erased u =>
        obtain rfl : u = t :=
          Option.some.inj ((lock_of_delivers (v := 0) (.inr he)).symm.trans hlock)
        obtain ⟨d', hd', hpos, hmem⟩ := hstore
        cases hd.symm.trans hd'
        rw [tally, if_pos rfl, hmem, List.length_dropLast]
        refine ⟨by omega, ?_⟩
        rw [firstBytes_erase (by omega), hbytes]
  · rw [hnew, deliveredTo_concat, tally, if_pos rfl]
    exact ⟨Nat.zero_le _, rfl⟩

end Buffers

section Runs

variable [DecidableEq τ]

/-- A call that returns reports how many bytes its own request was delivered. -/
def ReturnsDelivered (p : State τ × List (Delivery τ)) (a : Action τ) : Prop :=
  ∀ t c, a = .rx t → p.1.frame (.task t) = .rx c → c.pc = .ret →
    (rxResult p.1).toNat = (deliveredTo (.task t) p.2).length

/-- A call that gives `lock_rx` back has these bytes in its buffer. -/
def LeavesDelivered (p : State τ × List (Delivery τ)) (a : Action τ) : Prop :=
  ∀ t c, a = .rx t → p.1.frame (.task t) = .rx c → c.pc = .giveLock →
    slice p.1.mem c.buf (rxResult p.1) = deliveredTo (.task t) p.2

theorem CountInv.returnsDelivered {s : State τ} {log : List (Delivery τ)} (h : CountInv s log)
    (a : Action τ) : ReturnsDelivered (s, log) a := by
  intro t c _ hc hpc
  exact h.ret hc hpc

theorem Holds.leavesDelivered {s : State τ} {log : List (Delivery τ)} (h : Holds s log)
    (hcount : CountInv s log) (a : Action τ) : LeavesDelivered (s, log) a := by
  intro t c _ hc hpc
  have hnum := (hcount (.task t) c hc).counted (.inr (.inl hpc))
  rw [slice, rxResult, hnum]
  exact (h (.task t) c hc (.inr hpc)).2

theorem rxNum_changed {s s' : State τ} {a : Action τ} (hstep : step s a = some s')
    (hne : s'.rxNum ≠ s.rxNum) :
    (∃ t c, a = .rx t ∧ s.frame (.task t) = .rx c ∧ c.pc = .storeNum) ∨
      a = .tty ∧ s.pc = .setNum := by
  rcases step_rx_cases hstep with ⟨t, c, rfl, hc, hrx⟩ | ⟨rfl, -, htty⟩ | ⟨-, -, hq⟩
  · cases hpc : c.pc <;> simp only [rxStep, hpc] at hrx
    case storeNum => exact .inl ⟨t, c, rfl, hc, hpc⟩
    case takeLock | takeSem =>
      split at hrx <;> cases hrx
      exact absurd rfl hne
    all_goals
      cases hrx
      exact absurd rfl hne
  · cases hpc : s.pc <;> simp only [ttyStep, hpc] at htty
    case setNum => exact .inr ⟨rfl, rfl⟩
    case receive =>
      split at htty <;> cases htty
      exact absurd rfl hne
    all_goals
      cases htty
      exact absurd rfl hne
  · exact absurd hq.num hne

/-- As long as nothing else is stored in `rx_num` while a call has given
`lock_rx` but not returned, every call returns the number of bytes that
`TTY_Task` has stored in its buffer for its request, and leaves with them. A
store that changes `rx_num` makes that call wrong, if it returns next. -/
theorem rx_returns_delivered (byteAddr : Word) (mem : Word → UInt8) (as : List (Action τ))
    (hsmall : ∀ a ∈ as, Small a) :
    (Along step KeepsCount (boot byteAddr mem) as →
      Along (recording step delivers) (fun p a ↦ ReturnsDelivered p a ∧ StoresDelivered p a)
        (boot byteAddr mem, []) as ∧
      (Along step RequestKept (boot byteAddr mem) as →
        Along (recording step delivers) LeavesDelivered (boot byteAddr mem, []) as)) ∧
    ∀ (s s' : State τ) (log : List (Delivery τ)) a u d, step s a = some s' →
      s.frame (.task u) = .rx d → d.pc = .ret →
      s.rxNum.toNat = (deliveredTo (.task u) log).length → s'.rxNum ≠ s.rxNum →
      ¬ Along (recording step delivers) ReturnsDelivered (s, log) [a, .rx u] := by
  have hboot : RxControl (boot byteAddr mem : State τ) ∧
      CountInv (boot byteAddr mem : State τ) [] :=
    ⟨boot_rxControl byteAddr mem, fun t c hc ↦ by cases hc⟩
  constructor
  · intro hkeeps
    constructor
    · apply along_of_along (I := fun p ↦ RxControl p.1 ∧ CountInv p.1 p.2)
        (Q := fun p a ↦ KeepsCount p.1 a ∧ Small a)
      · intro p a q hp hk hq
        obtain ⟨hstep, hlog⟩ := recording_eq_some.mp hq
        exact ⟨hp.1.step hstep, hlog ▸ hp.2.step hp.1 hk.1 hk.2 hstep⟩
      · exact fun p a hp _ ↦ ⟨hp.2.returnsDelivered a, hp.2.storesDelivered hp.1 a⟩
      · exact hboot
      · exact along_recording _ (along_and_labels hkeeps hsmall) []
    · intro hkept
      apply along_of_along
        (I := fun p ↦ (RxControl p.1 ∧ CountInv p.1 p.2) ∧ Holds p.1 p.2)
        (Q := fun p a ↦ (KeepsCount p.1 a ∧ RequestKept p.1 a) ∧ Small a)
      · intro p a q hp hk hq
        obtain ⟨hstep, hlog⟩ := recording_eq_some.mp hq
        refine ⟨⟨hp.1.1.step hstep, hlog ▸ hp.1.2.step hp.1.1 hk.1.1 hk.2 hstep⟩, ?_⟩
        exact hlog ▸ hp.2.step hp.1.1 (hp.1.2.storesDelivered hp.1.1 a) hk.1.2 hstep
      · exact fun p a hp _ ↦ hp.2.leavesDelivered hp.1.2 a
      · exact ⟨hboot, fun t c hc ↦ by cases hc⟩
      · exact along_recording _ (along_and_labels (along_and hkeeps hkept) hsmall) []
  · intro s s' log a u d hstep hd hpc hdelivered hne halong
    have hafter := (halong.2 (s', log ++ delivers s a) (recording_eq_some.mpr ⟨hstep, rfl⟩)).1
    have hkept : s'.frame (.task u) = .rx d ∧ delivers s a = [] := by
      rcases rxNum_changed hstep hne with ⟨t, c, rfl, hc, hcpc⟩ | ⟨rfl, hset⟩
      · have hut : Thread.task u ≠ .task t := by
          intro heq
          rw [heq, hc] at hd
          cases hd
          exact absurd (hpc.symm.trans hcpc) (by decide)
        refine ⟨?_, delivers_rx_of_ne hc (by rw [hcpc]; decide)⟩
        simp only [step, hc, rxStep, hcpc] at hstep
        cases hstep
        simpa only [State.setFrame, Function.update_of_ne hut] using hd
      · refine ⟨?_, delivers_tty_of_ne (by rw [hset]; decide) (by rw [hset]; decide)
          (by rw [hset]; decide)⟩
        simp only [step, ttyStep, hset] at hstep
        split at hstep <;> cases hstep
        exact hd
    have hwrong := hafter u d rfl hkept.1 hpc
    rw [hkept.2, List.append_nil, ← hdelivered] at hwrong
    exact hne (BitVec.eq_of_toNat_eq hwrong)

/-- The call of one task gets the byte it asks for and gives `lock_rx` back. -/
def oneByte (t : τ) : List (Action τ) :=
  [.callRx t 0x20000300 1, .rx t, .rx t, .rx t, .rx t, .tty, .tty, .arrive 97, .irq, .tty,
    .tx .ttyTask, .tx .ttyTask, .tx .ttyTask, .tx .ttyTask, .irq, .tx .ttyTask, .tx .ttyTask,
    .tx .ttyTask, .tty, .tty, .tty, .tty, .tty, .tty, .tty, .rx t, .rx t]

/-- A test of `KeepsCount` for two tasks. -/
def countsInTurn (s : State Bool) (a : Action Bool) : Bool :=
  [Thread.task false, .task true, .ttyTask].all fun u ↦
    match s.frame u with
    | .rx d => d.pc != .ret ||
      match a with
      | .rx t =>
        match s.frame (.task t) with
        | .rx c => c.pc != .storeNum || c.num == s.rxNum
        | _ => true
      | .tty => s.pc != .setNum || s.cnt.setWidth 32 == s.rxNum
      | _ => true
    | _ => true

theorem keepsCount_of_countsInTurn (s : State Bool) (a : Action Bool)
    (h : countsInTurn s a = true) : KeepsCount s a := by
  intro u d hd hret
  have hu := List.all_eq_true.mp h u (mem_threads u)
  simp only [hd, hret, bne_self_eq_false, Bool.false_or] at hu
  refine ⟨fun t c ha hc hpc ↦ ?_, fun ha hpc ↦ ?_⟩
  · subst ha
    simpa [hc, hpc] using hu
  · subst ha
    simpa [hpc] using hu

/-- All buffers lie above `byte`. -/
def buffersAbove (s : State Bool) : Action Bool → Bool
  | .poke _ _ => false
  | .tty => [Thread.task false, .task true, .ttyTask].all fun u ↦
      match s.frame u with
      | .rx c => s.byteAddr.toNat < c.buf.toNat && c.buf.toNat + c.num.toNat ≤ 4294967296
      | _ => true
  | _ => true

theorem requestKept_of_buffersAbove (s : State Bool) (a : Action Bool)
    (h : buffersAbove s a = true) : RequestKept s a := by
  cases a with
  | poke x v => cases h
  | tty =>
    rintro - ⟨u, c, i, hc, -, hi, heq⟩
    have hu := List.all_eq_true.mp h u (mem_threads u)
    simp only [hc, Bool.and_eq_true, decide_eq_true_eq] at hu
    have hnat := congrArg BitVec.toNat heq
    rw [BitVec.toNat_add, BitVec.toNat_ofNat] at hnat
    omega
  | _ => trivial

/-- `TTY_Task` receives a byte and echoes it. -/
def echoed (byte : UInt8) : List (Action Bool) :=
  [.arrive byte, .irq, .tty, .tx .ttyTask, .tx .ttyTask, .tx .ttyTask, .tx .ttyTask, .txEmpty, .irq,
    .tx .ttyTask, .tx .ttyTask, .tx .ttyTask, .tty]

/-- The second task asks for five bytes while the first waits for one; then it
gets `x`, erased again, `y` and a carriage return. -/
def readersInTurn : List (Action Bool) :=
  [.callRx false 0x20000300 1, .rx false, .rx false, .rx false, .rx false, .tty, .tty,
    .callRx true 0x20000400 5] ++ echoed 97 ++
  [.tty, .tty, .tty, .tty, .tty, .tty, .rx false, .rx false, .rx true, .rx true, .rx false,
    .rx true, .rx true] ++ echoed 120 ++ [.tty, .tty] ++ echoed 8 ++ [.tty, .tty] ++ echoed 121 ++
  [.tty, .tty] ++ echoed 13 ++ [.tty, .tty, .tty, .tty, .tty, .tty, .rx true, .rx true]

theorem readersInTurn_return_delivered :
    Along (recording step delivers) (fun p a ↦ ReturnsDelivered p a ∧ StoresDelivered p a)
      (boot 0x20000000 fun _ ↦ 0, []) (readersInTurn ++ [.rx true]) ∧
    Along (recording step delivers) LeavesDelivered (boot 0x20000000 fun _ ↦ 0, [])
      (readersInTurn ++ [.rx true]) ∧
    ((run (recording step delivers) (boot 0x20000000 fun _ ↦ 0, []) readersInTurn).map fun p ↦
      ((rxKind.part (p.1.frame (.task true))).map (·.pc), rxResult p.1)) = some (some .ret, 2) ∧
    ((run (recording step delivers) (boot 0x20000000 fun _ ↦ 0, []) readersInTurn).map fun p ↦
      (deliveredTo (.task false) p.2, slice p.1.mem 0x20000300 1, deliveredTo (.task true) p.2,
        slice p.1.mem 0x20000400 2)) = some ([97], [97], [121, 10], [121, 10]) := by
  have hkeeps : Along step KeepsCount (boot 0x20000000 fun _ ↦ 0) (readersInTurn ++ [.rx true]) :=
    along_of_check keepsCount_of_countsInTurn (by decide +kernel)
  have hkept : Along step RequestKept (boot 0x20000000 fun _ ↦ 0) (readersInTurn ++ [.rx true]) :=
    along_of_check requestKept_of_buffersAbove (by decide +kernel)
  have hsmall : ∀ a ∈ readersInTurn ++ [.rx true], Small a := by
    simp [readersInTurn, echoed, Small]
  obtain ⟨hreturns, hleaves⟩ :=
    (rx_returns_delivered 0x20000000 _ (readersInTurn ++ [.rx true]) hsmall).1 hkeeps
  exact ⟨hreturns, hleaves hkept, by decide +kernel, by decide +kernel⟩

def overtakenReader : List (Action Bool) :=
  oneByte false ++ [.callRx true 0x20000400 5, .rx true, .rx true, .rx true]

/-- The first task was delivered one byte and would return 5, the size of the
request that the second has stored in the meantime. -/
theorem overtaken_reader_returns_five : (∀ a ∈ overtakenReader, Small a) ∧
    ¬ Along (recording step delivers) ReturnsDelivered (boot 0x20000000 fun _ ↦ 0, [])
      (overtakenReader ++ [.rx false]) := by
  refine ⟨by simp [overtakenReader, oneByte, Small], fun halong ↦ ?_⟩
  have hrun : ((run (recording step delivers) (boot 0x20000000 fun _ ↦ 0, [])
      overtakenReader).map fun p ↦ ((rxKind.part (p.1.frame (.task false))).map (·.pc),
        rxResult p.1, deliveredTo (.task false) p.2)) = some (some .ret, 5, [97]) := by decide
  obtain ⟨p, hp, heq⟩ := Option.map_eq_some_iff.mp hrun
  simp only [Prod.mk.injEq, Option.map_eq_some_iff] at heq
  obtain ⟨⟨c, hc, hpc⟩, hresult, hdelivered⟩ := heq
  have hwrong := (along_concat.mp halong).2 p hp false c rfl (rxPart_eq_some.mp hc) hpc
  rw [hresult, hdelivered] at hwrong
  exact absurd hwrong (by decide)

end Runs

end Tanenbaum.Tty.ReceiveCount
