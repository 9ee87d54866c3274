import Tanenbaum.Lib.Bytes
import Mathlib.Logic.Function.Basic

namespace Tanenbaum.Tty.Driver

open Lib.Bytes

/-- The tasks that use the driver, and `TTY_Task`. -/
inductive Thread (τ : Type)
  | task (t : τ)
  | ttyTask
  deriving DecidableEq

/-- The next statement of a call of `tty_driver_tx`. -/
inductive TxPc
  | takeLock
  | storeNum
  | storeBuf
  | enableTxe
  | takeSem
  | giveLock
  | ret
  deriving DecidableEq

/-- A call of `tty_driver_tx` past its test of `num`. -/
structure TxCall where
  pc : TxPc
  ptr : Word
  num : Word
  num_ne : num ≠ 0

inductive RxPc
  | takeLock
  | storeBuf
  | storeNum
  | setEnable
  | takeSem
  | giveLock
  | ret
  deriving DecidableEq

structure RxCall where
  pc : RxPc
  buf : Word
  num : Word
  num_ne : num ≠ 0

inductive Frame
  | idle
  | tx (c : TxCall)
  | rx (c : RxCall)

/-- The next statement of `TTY_Task`. In `test` the echo comes first, and in the
`print` states a `printf`, each as calls of `tty_driver_tx`. -/
inductive TtyPc
  | start
  | printBanner
  | receive
  | test
  | storeNewline
  | printNewline
  | erase
  | printLine
  | storeByte
  | compare
  | printUnknown
  | setNum
  | clearEnable
  | clearCnt
  | giveSem
  deriving DecidableEq

/-- The driver with its callers. First `struct tty_driver`, a mutex as its
holder and a binary semaphore as its token; then the handler's `tx_ind`, the
USART with the bytes it was given to send, the memory, and the threads. -/
structure State (τ : Type) where
  lockTx : Option (Thread τ)
  semTx : Bool
  lockRx : Option (Thread τ)
  semRx : Bool
  qRx : List UInt8
  txBuf : Word
  txNum : Word
  rxBuf : Word
  rxNum : Word
  rxEnable : Bool
  txInd : Word
  txe : Bool
  txeie : Bool
  rxne : Bool
  rxneie : Bool
  rdr : UInt8
  wire : List UInt8
  mem : Word → UInt8
  frame : Thread τ → Frame
  pc : TtyPc
  cnt : BitVec 8
  /-- where `TTY_Task` keeps its variable `byte` -/
  byteAddr : Word

/-- After `tty_driver_init`. -/
def boot {τ : Type} (byteAddr : Word) (mem : Word → UInt8) : State τ where
  lockTx := none
  semTx := false
  lockRx := none
  semRx := false
  qRx := []
  txBuf := 0
  txNum := 0
  rxBuf := 0
  rxNum := 0
  rxEnable := false
  txInd := 0
  txe := true
  txeie := false
  rxne := false
  rxneie := false
  rdr := 0
  wire := []
  mem := mem
  frame := fun _ ↦ .idle
  pc := .start
  cnt := 0
  byteAddr := byteAddr

def slice (mem : Word → UInt8) (ptr num : Word) : List UInt8 :=
  (List.range num.toNat).map fun i ↦ mem (ptr + BitVec.ofNat 32 i)

def xQueueSendFromISR (q : List UInt8) (byte : UInt8) : List UInt8 :=
  if q.length < 16 then q ++ [byte] else q

variable {τ : Type}

def usart1IRQHandler (s : State τ) : State τ :=
  if s.txe && s.txeie then
    let s := { s with
      wire := s.wire ++ [s.mem (s.txBuf + s.txInd)], txe := false, txInd := s.txInd + 1 }
    if s.txInd = s.txNum then { s with txInd := 0, txeie := false, semTx := true } else s
  else if s.rxne && s.rxneie then
    { s with rxne := false, qRx := xQueueSendFromISR s.qRx s.rdr }
  else s

/-- The branch that `TTY_Task` takes for a byte once `rx_enable` is set. -/
def dispatch (cnt : BitVec 8) (byte : UInt8) : TtyPc :=
  if byte = 13 then .storeNewline
  else if byte = 8 ∨ byte = 0x7f then if 0 < cnt then .erase else .receive
  else if byte ≤ 0x7f then .storeByte
  else .printUnknown

theorem dispatch_cases (cnt : BitVec 8) (byte : UInt8) :
    dispatch cnt byte = .storeNewline ∨ (dispatch cnt byte = .erase ∧ 0 < cnt) ∨
      dispatch cnt byte = .receive ∨ dispatch cnt byte = .storeByte ∨
      dispatch cnt byte = .printUnknown := by
  by_cases hcr : byte = 13
  · exact .inl (if_pos hcr)
  by_cases herase : byte = 8 ∨ byte = 0x7f
  · by_cases hpos : 0 < cnt
    · exact .inr (.inl ⟨by rw [dispatch, if_neg hcr, if_pos herase, if_pos hpos], hpos⟩)
    · exact .inr (.inr (.inl (by rw [dispatch, if_neg hcr, if_pos herase, if_neg hpos])))
  by_cases hascii : byte ≤ 0x7f
  · exact .inr (.inr (.inr (.inl (by rw [dispatch, if_neg hcr, if_neg herase, if_pos hascii]))))
  · exact .inr (.inr (.inr (.inr (by rw [dispatch, if_neg hcr, if_neg herase, if_neg hascii]))))

/-- `tty.rx_buf[i] = c` -/
def State.storeRx (s : State τ) (i : BitVec 8) (c : UInt8) : State τ :=
  { s with mem := Function.update s.mem (s.rxBuf + i.setWidth 32) c }

section Steps

variable [DecidableEq τ]

def State.setFrame (s : State τ) (t : Thread τ) (f : Frame) : State τ :=
  { s with frame := Function.update s.frame t f }

/-- The next statement of `tty_driver_tx`, `none` while it has to wait. -/
def txStep (t : Thread τ) (c : TxCall) (s : State τ) : Option (State τ) :=
  match c.pc with
  | .takeLock =>
    if s.lockTx.isNone then some { s.setFrame t (.tx { c with pc := .storeNum }) with lockTx := some t }
    else none
  | .storeNum => some { s.setFrame t (.tx { c with pc := .storeBuf }) with txNum := c.num }
  | .storeBuf => some { s.setFrame t (.tx { c with pc := .enableTxe }) with txBuf := c.ptr }
  | .enableTxe => some { s.setFrame t (.tx { c with pc := .takeSem }) with txeie := true }
  | .takeSem =>
    if s.semTx then some { s.setFrame t (.tx { c with pc := .giveLock }) with semTx := false }
    else none
  | .giveLock => some { s.setFrame t (.tx { c with pc := .ret }) with lockTx := none }
  | .ret => some (s.setFrame t .idle)

/-- The value that `tty_driver_tx` returns from its last statement. -/
def txResult (s : State τ) : Word := s.txNum

def rxStep (t : Thread τ) (c : RxCall) (s : State τ) : Option (State τ) :=
  match c.pc with
  | .takeLock =>
    if s.lockRx.isNone then some { s.setFrame t (.rx { c with pc := .storeBuf }) with lockRx := some t }
    else none
  | .storeBuf => some { s.setFrame t (.rx { c with pc := .storeNum }) with rxBuf := c.buf }
  | .storeNum => some { s.setFrame t (.rx { c with pc := .setEnable }) with rxNum := c.num }
  | .setEnable => some { s.setFrame t (.rx { c with pc := .takeSem }) with rxEnable := true }
  | .takeSem =>
    if s.semRx then some { s.setFrame t (.rx { c with pc := .giveLock }) with semRx := false }
    else none
  | .giveLock => some { s.setFrame t (.rx { c with pc := .ret }) with lockRx := none }
  | .ret => some (s.setFrame t .idle)

def rxResult (s : State τ) : Word := s.rxNum

/-- The next statement of `TTY_Task` outside its calls of the driver. -/
def ttyStep (s : State τ) : Option (State τ) :=
  match s.pc with
  | .start => some { s with rxneie := true, pc := .printBanner }
  | .printBanner => some { s with pc := .receive }
  | .receive =>
    match s.qRx with
    | [] => none
    | byte :: q =>
      let s := s.setFrame .ttyTask (.tx ⟨.takeLock, s.byteAddr, 1, by decide⟩)
      some { s with qRx := q, mem := Function.update s.mem s.byteAddr byte, pc := .test }
  | .test =>
    some { s with pc := if s.rxEnable then dispatch s.cnt (s.mem s.byteAddr) else .receive }
  | .storeNewline => some { s.storeRx s.cnt 10 with cnt := s.cnt + 1, pc := .printNewline }
  | .printNewline => some { s with pc := .setNum }
  | .erase => some { s.storeRx (s.cnt - 1) 0 with cnt := s.cnt - 1, pc := .printLine }
  | .printLine => some { s with pc := .receive }
  | .storeByte =>
    some { s.storeRx s.cnt (s.mem s.byteAddr) with cnt := s.cnt + 1, pc := .compare }
  | .compare => some { s with pc := if s.cnt.setWidth 32 = s.rxNum then .setNum else .receive }
  | .printUnknown => some { s with pc := .receive }
  | .setNum => some { s with rxNum := s.cnt.setWidth 32, pc := .clearEnable }
  | .clearEnable => some { s with rxEnable := false, pc := .clearCnt }
  | .clearCnt => some { s with cnt := 0, pc := .giveSem }
  | .giveSem => some { s with semRx := true, pc := .receive }

def TtyPc.prints : TtyPc → Bool
  | .printBanner | .printNewline | .printLine | .printUnknown => true
  | _ => false

def enter (s : State τ) (t : Thread τ) (num : Word) (f : num ≠ 0 → Frame) : Option (State τ) :=
  match s.frame t with
  | .idle => if h : num = 0 then some s else some (s.setFrame t (f h))
  | _ => none

/-- What can happen next. Besides the steps of the threads and the handler: the
transmitter gets empty, a byte arrives (and is lost when the last one has not
been read), and code outside the driver writes to memory. -/
inductive Action (τ : Type)
  | callTx (t : Thread τ) (ptr num : Word)
  | tx (t : Thread τ)
  | callRx (t : τ) (buf num : Word)
  | rx (t : τ)
  | tty
  | irq
  | txEmpty
  | arrive (byte : UInt8)
  | poke (a : Word) (v : UInt8)

def step (s : State τ) : Action τ → Option (State τ)
  | .callTx t ptr num =>
    if t = .ttyTask ∧ s.pc.prints = false then none
    else enter s t num fun h ↦ .tx ⟨.takeLock, ptr, num, h⟩
  | .tx t =>
    match s.frame t with
    | .tx c => txStep t c s
    | _ => none
  | .callRx t buf num => enter s (.task t) num fun h ↦ .rx ⟨.takeLock, buf, num, h⟩
  | .rx t =>
    match s.frame (.task t) with
    | .rx c => rxStep (.task t) c s
    | _ => none
  | .tty =>
    match s.frame .ttyTask with
    | .idle => ttyStep s
    | _ => none
  | .irq => some (usart1IRQHandler s)
  | .txEmpty => some { s with txe := true }
  | .arrive byte => some (if s.rxne then s else { s with rxne := true, rdr := byte })
  | .poke a v => some { s with mem := Function.update s.mem a v }

end Steps

end Tanenbaum.Tty.Driver
