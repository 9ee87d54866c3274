import Tanenbaum.Tty.LineDiscipline
import Tanenbaum.Tty.Ownership

namespace Tanenbaum.Tty.Service

open Lib.Bytes Lib.CString Lib.Feed Lib.Runs Driver Calls Receive Ownership LineDiscipline

variable {τ : Type}

/-- What `TTY_Task` gets to know: a request of some size, and the bytes it
takes up while `rx_enable` is set. -/
inductive Event
  | request (num : Word)
  | heard (byte : UInt8)

def hears (s : State τ) : Action τ → List Event
  | .rx t =>
    match s.frame (.task t) with
    | .rx c => if c.pc = .setEnable then [.request c.num] else []
    | _ => []
  | .tty => if s.pc = .test ∧ s.rxEnable = true then [.heard (s.mem s.byteAddr)] else []
  | _ => []

def note : Option (Word × Str) → Event → Option (Word × Str)
  | _, .request num => some (num, [])
  | r, .heard byte => r.map fun q ↦ (q.1, q.2 ++ [byte])

/-- The last request and the bytes heard since. -/
def current (log : List Event) : Option (Word × Str) := log.foldl note none

def start (buf : ℕ → UInt8) : Pending := ⟨0, buf, []⟩

def BufferIs (s : State τ) (c : RxCall) (buf : ℕ → UInt8) : Prop :=
  ∀ i < c.num.toNat, s.mem (c.buf + BitVec.ofNat 32 i) = buf i

def Shows (s : State τ) (c : RxCall) (p : Pending) : Prop := s.cnt = p.cnt ∧ BufferIs s c p.rxBuf

/-- The request has been completed as the line discipline completes it. -/
def Served (s : State τ) (c : RxCall) (buf : ℕ → UInt8) (bs : Str) : Prop :=
  ∃ d, feed (ttyByte c.num) (start buf) bs = .inr (d, []) ∧ s.rxNum = d.rxNum ∧
    BufferIs s c d.rxBuf

/-- `TTY_Task` is as far with the bytes as the line discipline, or in the middle of the last one. -/
def InService (s : State τ) (c : RxCall) (buf : ℕ → UInt8) (bs : Str) : Prop :=
  match s.pc with
  | .storeNewline | .erase | .storeByte => ∃ bs' p, bs = bs' ++ [s.mem s.byteAddr] ∧
      feed (ttyByte c.num) (start buf) bs' = .inl p ∧ Shows s c p ∧
      dispatch p.cnt (s.mem s.byteAddr) = s.pc
  | .compare => ∃ bs' b p, bs = bs' ++ [b] ∧ feed (ttyByte c.num) (start buf) bs' = .inl p ∧
      Shows s c ((p.print [b]).push b) ∧ dispatch p.cnt b = .storeByte
  | .printNewline | .setNum => ∃ q : Pending,
      feed (ttyByte c.num) (start buf) bs = .inr (q.complete, []) ∧ Shows s c q
  | .clearEnable => Served s c buf bs
  | _ => ∃ p, feed (ttyByte c.num) (start buf) bs = .inl p ∧ Shows s c p

def Serves (s : State τ) (c : RxCall) (buf : ℕ → UInt8) (bs : Str) : Prop :=
  if c.pc = .takeSem ∧ s.rxEnable = true then InService s c buf bs else Served s c buf bs

/-- The call has set `rx_enable` and still holds `lock_rx`. -/
def Requested (c : RxCall) : Prop := c.pc = .takeSem ∨ c.pc = .giveLock

/-- The last request is the one of the call inside, and the line discipline serves it. -/
def ServeInv (s : State τ) (log : List Event) : Prop :=
  ∀ t c, s.frame t = .rx c → Requested c →
    ∃ buf bs, current log = some (c.num, bs) ∧ Serves s c buf bs

def Reserved (s : State τ) (x : Word) : Prop :=
  ∃ t c i, s.frame t = .rx c ∧ Requested c ∧ i < c.num.toNat ∧ x = c.buf + BitVec.ofNat 32 i

/-- Code outside the driver writes neither to `byte` nor to the buffer of a
request, and `byte` is not part of such a buffer. -/
def RequestKept (s : State τ) : Action τ → Prop
  | .poke x _ => x ≠ s.byteAddr ∧ ¬ Reserved s x
  | .tty => s.pc = .receive → ¬ Reserved s s.byteAddr
  | _ => True

section Bytes

theorem ttyByte_eq_dispatch (num : Word) (p : Pending) (b : UInt8) :
    ttyByte num p b = match dispatch p.cnt b with
      | .storeNewline => .inr (((p.print [b]).push 10).print [13, 10]).complete
      | .erase => .inl (p.print [b]).pop.redraw
      | .receive => .inl (p.print [b])
      | .storeByte => if ((p.print [b]).push b).cnt.setWidth 32 = num then
          .inr ((p.print [b]).push b).complete else .inl ((p.print [b]).push b)
      | _ => .inl ((p.print [b]).unknown b) := by
  have hcnt : (p.print [b]).cnt = p.cnt := rfl
  by_cases hcr : b = 13
  · simp only [ttyByte, dispatch, hcr, if_true]
  by_cases hbs : b = 8 ∨ b = 0x7f
  · by_cases hpos : 0 < p.cnt
    · simp only [ttyByte, dispatch, hcr, hbs, hcnt, hpos, if_true, if_false]
    · simp only [ttyByte, dispatch, hcr, hbs, hcnt, hpos, if_true, if_false]
  by_cases hascii : b ≤ 0x7f
  · simp only [ttyByte, dispatch, hcr, hbs, isascii, hascii, decide_true, if_true, if_false]
  · simp only [ttyByte, dispatch, hcr, hbs, isascii, hascii, decide_false, if_false,
      Bool.false_eq_true]

variable {s s' : State τ} {c : RxCall} {buf : ℕ → UInt8}

theorem BufferIs.kept (h : BufferIs s c buf) (hmem : ∀ i < c.num.toNat,
      s'.mem (c.buf + BitVec.ofNat 32 i) = s.mem (c.buf + BitVec.ofNat 32 i)) :
    BufferIs s' c buf := by
  intro i hi
  rw [hmem i hi]
  exact h i hi

theorem BufferIs.store (h : BufferIs s c buf) (hbuf : s.rxBuf = c.buf) (i : BitVec 8) (v : UInt8) :
    BufferIs (s.storeRx i v) c (Function.update buf i.toNat v) := by
  intro j hj
  have hlt := i.isLt
  have hnum := c.num.isLt
  rw [storeRx_mem hbuf, update_offset (by omega) (by omega)]
  by_cases hij : j = i.toNat
  · rw [hij, Function.update_self, Function.update_self]
  · rw [Function.update_of_ne hij, Function.update_of_ne hij]
    exact h j hj

end Bytes

section Log

variable {log : List Event} {num : Word} {bs : Str}

theorem current_request (log : List Event) (num : Word) :
    current (log ++ [.request num]) = some (num, []) := by
  rw [current, List.foldl_append]
  rfl

theorem current_heard (h : current log = some (num, bs)) (b : UInt8) :
    current (log ++ [.heard b]) = some (num, bs ++ [b]) := by
  rw [current, List.foldl_append, ← current, h]
  rfl

variable {s : State τ} {a : Action τ}

theorem hears_of_quiet (hrx : ∀ t, a ≠ .rx t) (htty : a ≠ .tty) : hears s a = [] := by
  cases a with
  | rx t => exact absurd rfl (hrx t)
  | tty => exact absurd rfl htty
  | _ => rfl

theorem hears_rx_of_ne {t : τ} {c : RxCall} (hc : s.frame (.task t) = .rx c)
    (hpc : c.pc ≠ .setEnable) : hears s (.rx t) = [] := by
  simp only [hears, hc, hpc, if_false]

theorem hears_tty_of_ne (h : s.pc ≠ .test ∨ s.rxEnable = false) :
    hears s (.tty : Action τ) = [] := by
  rw [hears, if_neg]
  rintro ⟨hpc, hen⟩
  rcases h with hne | hno
  · exact hne hpc
  · exact absurd (hen.symm.trans hno) (by decide)

end Log

section Kept

variable {s s' : State τ} {c : RxCall} {buf : ℕ → UInt8} {bs : Str}

/-- What the service of the call depends on. -/
structure Unmoved (s s' : State τ) (c : RxCall) : Prop where
  pc : s'.pc = s.pc
  cnt : s'.cnt = s.cnt
  num : s'.rxNum = s.rxNum
  enable : s'.rxEnable = s.rxEnable
  byte : s'.mem s'.byteAddr = s.mem s.byteAddr
  bytes : ∀ i < c.num.toNat,
    s'.mem (c.buf + BitVec.ofNat 32 i) = s.mem (c.buf + BitVec.ofNat 32 i)

theorem Served.kept (h : Served s c buf bs) (hnum : s'.rxNum = s.rxNum)
    (hmem : ∀ i < c.num.toNat,
      s'.mem (c.buf + BitVec.ofNat 32 i) = s.mem (c.buf + BitVec.ofNat 32 i)) :
    Served s' c buf bs := by
  obtain ⟨d, hfeed, hd, hbuf⟩ := h
  exact ⟨d, hfeed, hnum.trans hd, hbuf.kept hmem⟩

theorem Shows.kept {p : Pending} (h : Shows s c p) (hs : Unmoved s s' c) : Shows s' c p :=
  ⟨hs.cnt.trans h.1, h.2.kept hs.bytes⟩

theorem InService.kept (h : InService s c buf bs) (hs : Unmoved s s' c) :
    InService s' c buf bs := by
  cases hpc : s.pc <;> simp only [InService, hs.pc, hpc, hs.byte] at h ⊢
  case storeNewline | erase | storeByte =>
    obtain ⟨bs', p, hbs, hfeed, hshows, hdispatch⟩ := h
    exact ⟨bs', p, hbs, hfeed, hshows.kept hs, hdispatch⟩
  case compare =>
    obtain ⟨bs', b, p, hbs, hfeed, hshows, hdispatch⟩ := h
    exact ⟨bs', b, p, hbs, hfeed, hshows.kept hs, hdispatch⟩
  case printNewline | setNum =>
    obtain ⟨q, hfeed, hshows⟩ := h
    exact ⟨q, hfeed, hshows.kept hs⟩
  case clearEnable => exact h.kept hs.num hs.bytes
  all_goals
    obtain ⟨p, hfeed, hshows⟩ := h
    exact ⟨p, hfeed, hshows.kept hs⟩

theorem Serves.kept (h : Serves s c buf bs) (hs : Unmoved s s' c) : Serves s' c buf bs := by
  simp only [Serves, hs.enable] at h ⊢
  split at h
  · next hin => exact (if_pos hin).mpr (h.kept hs)
  · next hout => exact (if_neg hout).mpr (h.kept hs.num hs.bytes)

end Kept

section Callers

variable {s s' : State τ} {a : Action τ} {log : List Event} {t : Thread τ} {c : RxCall}

theorem Requested.inside (h : Requested c) : rxPhase c.pc ≠ .outside := by
  rcases h with hpc | hpc <;> rw [hpc] <;> decide

/-- While `rx_enable` is set, the request is the one of the call that waits. -/
theorem Requested.waits (h : Requested c) (hctl : RxControl s) (hc : s.frame t = .rx c)
    (hen : s.rxEnable = true) :
    c.pc = .takeSem ∧ s.rxBuf = c.buf ∧ CountOk s.pc s.cnt s.rxNum c.num := by
  obtain ⟨u, d, hlock, hd, hdpc, hbuf, hcount⟩ := hctl.enabled hen
  have hown := hctl.lock_eq hc h.inside
  obtain rfl : t = u := Option.some.inj (hown.symm.trans hlock)
  cases hc.symm.trans hd
  exact ⟨hdpc, hbuf, hcount⟩

theorem RequestKept.unmoved [DecidableEq τ] (h : RequestKept s a) (hstep : step s a = some s')
    (htty : a ≠ .tty) (hq : RxQuiet s s') (hc : s.frame t = .rx c) (hreq : Requested c) :
    Unmoved s s' c := by
  by_cases hpoke : ∃ x v, a = .poke x v
  · obtain ⟨x, v, rfl⟩ := hpoke
    cases hstep
    refine ⟨hq.pc, hq.cnt, hq.num, hq.enable, Function.update_of_ne h.1.symm v s.mem,
      fun i hi ↦ Function.update_of_ne (fun heq ↦ ?_) v s.mem⟩
    exact h.2 ⟨t, c, i, hc, hreq, hi, heq.symm⟩
  · have hmem := step_memory hstep htty fun x v heq ↦ hpoke ⟨x, v, heq⟩
    refine ⟨hq.pc, hq.cnt, hq.num, hq.enable, ?_, fun i _ ↦ by rw [hmem.1]⟩
    rw [hmem.1, hmem.2]

theorem ServeInv.quiet [DecidableEq τ] (h : ServeInv s log) (hkept : RequestKept s a)
    (hstep : step s a = some s') (htty : a ≠ .tty) (hq : RxQuiet s s') : ServeInv s' log := by
  intro t c hc hreq
  rcases hq.same.old (rxPart_eq_some.mpr hc) with hold | hnew
  · have hc := rxPart_eq_some.mp hold
    obtain ⟨buf, bs, hlog, hserves⟩ := h t c hc hreq
    exact ⟨buf, bs, hlog, hserves.kept (hkept.unmoved hstep htty hq hc hreq)⟩
  · exact absurd (rxKind.outside_of_entered c hnew) hreq.inside

/-- A call that holds the lock, or takes it, is the only one inside. -/
theorem serveInv_of_alone [DecidableEq τ] {c' : RxCall} (hctl : RxControl s)
    (hlock : s.lockRx = none ∨ s.lockRx = some t)
    (hframe : s'.frame = Function.update s.frame t (.rx c'))
    (hown : Requested c' → ∃ buf bs, current log = some (c'.num, bs) ∧ Serves s' c' buf bs) :
    ServeInv s' log := by
  intro u d hd hreq
  rw [hframe] at hd
  by_cases hu : u = t
  · subst hu
    rw [Function.update_self] at hd
    cases hd
    exact hown hreq
  · rw [Function.update_of_ne hu] at hd
    exact absurd (hctl.outside hlock u d hu (rxPart_eq_some.mpr hd)) hreq.inside

theorem serves_fresh (hctl : RxControl s) (hc : s.frame t = .rx c) (hpc : c.pc = .setEnable)
    (hen : s'.rxEnable = true) (hpc' : s'.pc = s.pc) (hcnt : s'.cnt = s.cnt) :
    Serves s' { c with pc := .takeSem } (fun i ↦ s'.mem (c.buf + BitVec.ofNat 32 i)) [] := by
  have hphase : (rxView s).phase t = rxPhase c.pc := phases_of_call (rxPart_eq_some.mpr hc)
  rw [hpc] at hphase
  have hquiet := hctl.shake.quiet_of_phase (t := t) (by rw [hphase]; decide) (by rw [hphase]; decide)
  obtain ⟨hbusy, hzero⟩ := hctl.at_rest hquiet.1 hquiet.2.1
  have hstart : ∃ p, feed (ttyByte c.num) (start fun i ↦ s'.mem (c.buf + BitVec.ofNat 32 i)) [] =
      .inl p ∧ Shows s' { c with pc := .takeSem } p :=
    ⟨_, rfl, hcnt.trans hzero, fun _ _ ↦ rfl⟩
  rw [Serves, if_pos ⟨rfl, hen⟩, InService, hpc']
  cases hs : s.pc <;> first | exact hstart | simp [hs, busy] at hbusy

theorem ServeInv.rxStep [DecidableEq τ] {t : τ} (h : ServeInv s log) (hctl : RxControl s)
    (hc : s.frame (.task t) = .rx c) (hstep : rxStep (.task t) c s = some s') :
    ServeInv s' (log ++ hears s (.rx t)) := by
  have hlock := hctl.lock_eq hc
  cases hpc : c.pc <;> simp only [Driver.rxStep, hpc] at hstep
  case takeLock =>
    split at hstep <;> cases hstep
    next hfree =>
    refine serveInv_of_alone hctl (.inl (Option.isNone_iff_eq_none.mp hfree)) rfl fun hreq ↦ ?_
    exact absurd hreq (by simp [Requested])
  case setEnable =>
    cases hstep
    refine serveInv_of_alone hctl (.inr (hlock (by rw [hpc]; decide))) rfl fun _ ↦ ?_
    have hlog : hears s (.rx t) = [.request c.num] := by simp only [hears, hc, hpc, if_true]
    rw [hlog]
    exact ⟨_, [], current_request log c.num, serves_fresh hctl hc hpc rfl rfl rfl⟩
  case takeSem =>
    split at hstep <;> cases hstep
    next hsem =>
    refine serveInv_of_alone hctl (.inr (hlock (by rw [hpc]; decide))) rfl fun _ ↦ ?_
    rw [hears_rx_of_ne hc (by rw [hpc]; decide), List.append_nil]
    -- the token excludes that the request is still open
    have hoff : s.rxEnable = false := (hctl.shake.only_token hsem).1
    obtain ⟨buf, bs, hlog, hserves⟩ := h _ c hc (.inl hpc)
    rw [Serves, if_neg (by simp [hoff])] at hserves
    refine ⟨buf, bs, hlog, ?_⟩
    rw [Serves, if_neg (by simp)]
    exact hserves
  case ret =>
    cases hstep
    rw [hears_rx_of_ne hc (by rw [hpc]; decide), List.append_nil]
    intro u d hd hreq
    have hu : u ≠ .task t := by
      rintro rfl
      simp [State.setFrame] at hd
    simp only [State.setFrame, Function.update_of_ne hu] at hd
    exact h u d hd hreq
  all_goals
    cases hstep
    refine serveInv_of_alone hctl (.inr (hlock (by rw [hpc]; decide))) rfl fun hreq ↦ ?_
    exact absurd hreq (by simp [Requested])

end Callers

section Task

variable {s s' : State τ} {log : List Event} {c : RxCall} {buf : ℕ → UInt8} {bs : Str}

theorem Shows.push {p : Pending} (h : Shows s c p) (hbuf : s.rxBuf = c.buf) (b v : UInt8)
    (pc : TtyPc) :
    Shows { s.storeRx s.cnt v with cnt := s.cnt + 1, pc := pc } c ((p.print [b]).push v) := by
  refine ⟨congrArg (· + 1) h.1, ?_⟩
  have hstore := h.2.store hbuf s.cnt v
  rw [h.1] at hstore ⊢
  exact hstore

theorem Shows.pop {p : Pending} (h : Shows s c p) (hbuf : s.rxBuf = c.buf) (b : UInt8)
    (pc : TtyPc) :
    Shows { s.storeRx (s.cnt - 1) 0 with cnt := s.cnt - 1, pc := pc } c
      (p.print [b]).pop.redraw := by
  refine ⟨congrArg (· - 1) h.1, ?_⟩
  have hstore := h.2.store hbuf (s.cnt - 1) 0
  rw [h.1] at hstore ⊢
  exact hstore

theorem inService_dispatch {p : Pending} (hfeed : feed (ttyByte c.num) (start buf) bs = .inl p)
    (hshows : Shows s c p) : InService { s with pc := dispatch p.cnt (s.mem s.byteAddr) } c buf
      (bs ++ [s.mem s.byteAddr]) := by
  have hbyte := ttyByte_eq_dispatch c.num p (s.mem s.byteAddr)
  rcases dispatch_cases p.cnt (s.mem s.byteAddr) with hd | ⟨hd, -⟩ | hd | hd | hd <;>
    simp only [hd] at hbyte ⊢
  · exact ⟨bs, p, rfl, hfeed, hshows, hd⟩
  · exact ⟨bs, p, rfl, hfeed, hshows, hd⟩
  · exact ⟨_, feed_concat_inl hfeed hbyte, hshows⟩
  · exact ⟨bs, p, rfl, hfeed, hshows, hd⟩
  · exact ⟨_, feed_concat_inl hfeed hbyte, hshows⟩

theorem InService.ttyStep [DecidableEq τ] (h : InService s c buf bs)
    (hlog : current log = some (c.num, bs)) (hen : s.rxEnable = true) (hcpc : c.pc = .takeSem)
    (hbuf : s.rxBuf = c.buf) (hcount : CountOk s.pc s.cnt s.rxNum c.num)
    (hwaking : waking s.pc = false) (hkept : s.pc = .receive → ∀ i < c.num.toNat,
      c.buf + BitVec.ofNat 32 i ≠ s.byteAddr) (hstep : ttyStep s = some s') :
    ∃ bs', current (log ++ hears s .tty) = some (c.num, bs') ∧ Serves s' c buf bs' := by
  cases hpc : s.pc <;> simp only [Driver.ttyStep, hpc] at hstep <;>
    simp only [InService, hpc] at h <;> rw [hpc] at hcount hwaking hkept
  case test =>
    cases hstep
    obtain ⟨p, hfeed, hshows⟩ := h
    have hhears : hears s (.tty : Action τ) = [.heard (s.mem s.byteAddr)] := if_pos ⟨hpc, hen⟩
    rw [hhears]
    refine ⟨_, current_heard hlog _, ?_⟩
    rw [Serves, if_pos ⟨hcpc, hen⟩]
    have hpc' : (if s.rxEnable then dispatch s.cnt (s.mem s.byteAddr) else .receive) =
        dispatch p.cnt (s.mem s.byteAddr) := by rw [if_pos hen, hshows.1]
    rw [hpc']
    exact inService_dispatch hfeed hshows
  case clearCnt | giveSem => cases hwaking
  all_goals
    rw [hears_tty_of_ne (.inl (by rw [hpc]; decide)), List.append_nil]
    refine ⟨bs, hlog, ?_⟩
  case clearEnable =>
    cases hstep
    rw [Serves, if_neg (by simp)]
    exact h
  case receive =>
    split at hstep <;> cases hstep
    obtain ⟨p, hfeed, hshows⟩ := h
    rw [Serves, if_pos ⟨hcpc, hen⟩]
    refine ⟨p, hfeed, hshows.1, hshows.2.kept fun i hi ↦ ?_⟩
    exact Function.update_of_ne (hkept rfl i hi) _ _
  case storeNewline =>
    cases hstep
    obtain ⟨bs', p, rfl, hfeed, hshows, hd⟩ := h
    have hbyte := ttyByte_eq_dispatch c.num p (s.mem s.byteAddr)
    rw [hd] at hbyte
    rw [Serves, if_pos ⟨hcpc, hen⟩]
    exact ⟨_, feed_concat_inr hfeed hbyte, hshows.push hbuf _ _ _⟩
  case erase =>
    cases hstep
    obtain ⟨bs', p, rfl, hfeed, hshows, hd⟩ := h
    have hbyte := ttyByte_eq_dispatch c.num p (s.mem s.byteAddr)
    rw [hd] at hbyte
    rw [Serves, if_pos ⟨hcpc, hen⟩]
    exact ⟨_, feed_concat_inl hfeed hbyte, hshows.pop hbuf _ _⟩
  case storeByte =>
    cases hstep
    obtain ⟨bs', p, rfl, hfeed, hshows, hd⟩ := h
    rw [Serves, if_pos ⟨hcpc, hen⟩]
    exact ⟨bs', _, p, rfl, hfeed, hshows.push hbuf _ _ _, hd⟩
  case compare =>
    cases hstep
    obtain ⟨bs', b, p, rfl, hfeed, hshows, hd⟩ := h
    have hbyte := ttyByte_eq_dispatch c.num p b
    simp only [hd, ← hshows.1] at hbyte
    rw [Serves, if_pos ⟨hcpc, hen⟩]
    by_cases hfull : s.cnt.setWidth 32 = c.num
    · rw [if_pos hfull] at hbyte
      rw [if_pos (hfull.trans hcount.1.symm)]
      exact ⟨_, feed_concat_inr hfeed hbyte, hshows⟩
    · rw [if_neg hfull] at hbyte
      rw [if_neg fun heq ↦ hfull (heq.trans hcount.1)]
      exact ⟨_, feed_concat_inl hfeed hbyte, hshows⟩
  case setNum =>
    cases hstep
    obtain ⟨q, hfeed, hshows⟩ := h
    rw [Serves, if_pos ⟨hcpc, hen⟩]
    exact ⟨q.complete, hfeed, congrArg (BitVec.setWidth 32) hshows.1, hshows.2⟩
  all_goals
    cases hstep
    rw [Serves, if_pos ⟨hcpc, hen⟩]
    exact h

variable [DecidableEq τ]

/-- Without a request `TTY_Task` changes nothing that a served call depends on. -/
theorem Served.ttyStep (h : Served s c buf bs) (hoff : s.rxEnable = false)
    (hbusy : busy s.pc = false) (hkept : s.pc = .receive → ∀ i < c.num.toNat,
      c.buf + BitVec.ofNat 32 i ≠ s.byteAddr) (hstep : ttyStep s = some s') :
    Served s' c buf bs ∧ s'.rxEnable = false := by
  cases hpc : s.pc <;> simp only [Driver.ttyStep, hpc] at hstep <;> rw [hpc] at hbusy hkept
  case receive =>
    split at hstep <;> cases hstep
    refine ⟨h.kept rfl fun i hi ↦ ?_, hoff⟩
    exact Function.update_of_ne (hkept rfl i hi) _ _
  case start | printBanner | test | clearCnt | giveSem =>
    cases hstep
    exact ⟨h, hoff⟩
  all_goals cases hbusy

theorem ServeInv.ttyStep (h : ServeInv s log) (hctl : RxControl s) (hkept : RequestKept s .tty)
    (hstep : ttyStep s = some s') :
    ServeInv s' (log ++ hears s .tty) := by
  intro t c hc hreq
  have hc := ttyStep_rx_frame hstep hc
  obtain ⟨buf, bs, hlog, hserves⟩ := h t c hc hreq
  have hbyte (hpc : s.pc = .receive) (i : ℕ) (hi : i < c.num.toNat) :
      c.buf + BitVec.ofNat 32 i ≠ s.byteAddr :=
    fun heq ↦ hkept hpc ⟨t, c, i, hc, hreq, hi, heq.symm⟩
  cases hen : s.rxEnable
  · rw [Serves, if_neg (by simp [hen])] at hserves
    obtain ⟨hserved, hoff⟩ := hserves.ttyStep hen (hctl.not_busy hen) hbyte hstep
    rw [hears_tty_of_ne (.inr hen), List.append_nil]
    refine ⟨buf, bs, hlog, ?_⟩
    rwa [Serves, if_neg (by simp [hoff])]
  · obtain ⟨hcpc, hbuf, hcount⟩ := hreq.waits hctl hc hen
    have hwaking : waking s.pc = false := (hctl.shake.only_armed hen).1
    rw [Serves, if_pos ⟨hcpc, hen⟩] at hserves
    obtain ⟨bs', hlog', hserves'⟩ :=
      hserves.ttyStep hlog hen hcpc hbuf hcount hwaking hbyte hstep
    exact ⟨buf, bs', hlog', hserves'⟩

theorem ServeInv.step {a : Action τ} (h : ServeInv s log) (hctl : RxControl s)
    (hkept : RequestKept s a) (hstep : step s a = some s') : ServeInv s' (log ++ hears s a) := by
  rcases step_rx_cases hstep with ⟨t, c, rfl, hc, hrx⟩ | ⟨rfl, -, htty⟩ | ⟨hrx, htty, hq⟩
  · exact h.rxStep hctl hc hrx
  · exact h.ttyStep hctl hkept htty
  · rw [hears_of_quiet hrx htty, List.append_nil]
    exact h.quiet hkept hstep htty hq

end Task

section Runs

variable [DecidableEq τ]

theorem run_serveInv (byteAddr : Word) (mem : Word → UInt8) {as : List (Action τ)}
    (hkept : Along step RequestKept (boot byteAddr mem) as) {s : State τ} {log : List Event}
    (hrun : run (recording step hears) (boot byteAddr mem, []) as = some (s, log)) :
    RxControl s ∧ ServeInv s log := by
  refine run_invariant_along (I := fun p : State τ × List Event ↦ RxControl p.1 ∧ ServeInv p.1 p.2)
    (fun p a q hp hk hq ↦ ?_) ⟨boot_rxControl byteAddr mem, fun t c hc ↦ ?_⟩
    (along_recording _ hkept []) hrun
  · obtain ⟨hstep, hlog⟩ := recording_eq_some.mp hq
    exact ⟨hp.1.step hstep, hlog ▸ hp.2.step hp.1 hk hstep⟩
  · cases hc

/-- However the threads and the handler are interleaved, a call of
`tty_driver_rx` leaves with what the line discipline makes of the bytes that
`TTY_Task` took up for it. -/
theorem rx_served_by_line_discipline (byteAddr : Word) (mem : Word → UInt8)
    {as : List (Action τ)} (hkept : Along step RequestKept (boot byteAddr mem) as) {s : State τ}
    {log : List Event} (hrun : run (recording step hears) (boot byteAddr mem, []) as = some (s, log))
    {t : Thread τ} {c : RxCall} (hc : s.frame t = .rx c) (hpc : c.pc = .giveLock) :
    ∃ buf bs, current log = some (c.num, bs) ∧ Served s c buf bs := by
  obtain ⟨buf, bs, hlog, hserves⟩ := (run_serveInv byteAddr mem hkept hrun).2 t c hc (.inr hpc)
  rw [Serves, if_neg (by simp [hpc])] at hserves
  exact ⟨buf, bs, hlog, hserves⟩

/-- With lines that stay below 256 bytes it leaves with the line of the editor. -/
theorem rx_leaves_with_line (byteAddr : Word) (mem : Word → UInt8) {as : List (Action τ)}
    (hkept : Along step RequestKept (boot byteAddr mem) as) {s : State τ} {log : List Event}
    (hrun : run (recording step hears) (boot byteAddr mem, []) as = some (s, log))
    {t : Thread τ} {c : RxCall} (hc : s.frame t = .rx c) (hpc : c.pc = .giveLock)
    {bs : Str} (hlog : current log = some (c.num, bs))
    (hshort : ∀ m rest, feed (peakStep c.num.toNat) ([], 0) bs = .inr (m, rest) → m ≤ 255) :
    ∃ L, feed (editStep c.num.toNat) [] bs = .inr (L, []) ∧ (rxResult s).toNat = L.length ∧
      slice s.mem c.buf (rxResult s) = L := by
  obtain ⟨buf, bs', hlog', d, hfeed, hnum, hbuf⟩ :=
    rx_served_by_line_discipline byteAddr mem hkept hrun hc hpc
  cases hlog.symm.trans hlog'
  have hagree := ((Tracks.of_empty (toNat_pos c.num_ne) rfl).agree_iff (p := start buf) bs).mpr hshort
  rw [hfeed] at hagree
  rcases hedit : feed (editStep c.num.toNat) [] bs with L | ⟨L, rest⟩ <;> rw [hedit] at hagree
  · exact hagree.elim
  obtain ⟨rfl, hdelivers⟩ := hagree
  have hlen : (rxResult s).toNat = L.length := by rw [rxResult, hnum, hdelivers.count]
  refine ⟨L, rfl, hlen, ?_⟩
  calc slice s.mem c.buf (rxResult s) = firstBytes d.rxBuf L.length := by
        rw [slice, hlen, firstBytes]
        refine List.map_congr_left fun i hi ↦ hbuf i ?_
        have hle := hdelivers.le
        rw [← hnum] at hle
        exact Nat.lt_of_lt_of_le (hlen ▸ List.mem_range.mp hi) hle
    _ = L := hdelivers.bytes

/-- The call of `tty_driver_tx` by which `TTY_Task` echoes a byte. -/
def echoes : List (Action Unit) :=
  [.tx .ttyTask, .tx .ttyTask, .tx .ttyTask, .tx .ttyTask, .irq, .txEmpty, .tx .ttyTask,
    .tx .ttyTask, .tx .ttyTask]

example : (run step (boot 0x20000000 fun _ ↦ 0)
    ([.callRx () 0x20000300 9, .rx (), .rx (), .rx (), .rx (), .tty, .tty, .arrive 97, .irq, .tty] ++
      echoes ++ [.tty, .tty, .tty, .arrive 13, .irq, .tty] ++ echoes ++
      [.tty, .tty, .tty, .tty, .tty, .tty, .tty, .rx ()])).map
    (fun s ↦ (rxResult s, slice s.mem 0x20000300 (rxResult s), s.wire)) =
      some (2, [97, 10], [97, 13]) := by
  decide

end Runs

end Tanenbaum.Tty.Service
