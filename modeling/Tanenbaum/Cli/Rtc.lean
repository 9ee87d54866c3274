import Tanenbaum.Lib.Bytes

namespace Tanenbaum.Cli.Rtc

open Lib.Bytes

inductive ErrorStatus
  | success
  | error
  deriving DecidableEq

/-- The registers of the RTC as the driver reaches them. A read may change the
state of the peripheral. `initf` is the flag INITF of the register ISR,
`writeInit` a write to its bit INIT, and `settleInitf` what the hardware has
made of the flag by the end of a wait. -/
class RtcPort (ρ : Type) where
  readTR : ρ → Word × ρ
  readDR : ρ → Word × ρ
  writeTR : Word → ρ → ρ
  writeDR : Word → ρ → ρ
  initf : ρ → Bool
  writeInit : Bool → ρ → ρ
  settleInitf : Bool → ρ → ρ

/-- What one round of the wait for INITF reads: the SysTick count flag, then INITF. -/
structure Poll where
  countflag : Bool
  initf : Bool

def rtcInitmodeTimeout : ℕ := 1000

/-- The loop of `LL_RTC_EnterInitMode` over the readings it makes; `none` while
it would read on. -/
def initLoop (timeout : ℕ) (status : ErrorStatus) (tmp : Bool) :
    List Poll → Option (ErrorStatus × Bool)
  | [] => if timeout ≠ 0 ∧ tmp = false then none else some (status, tmp)
  | p :: polls =>
    if timeout ≠ 0 ∧ tmp = false then
      let timeout := if p.countflag then timeout - 1 else timeout
      initLoop timeout (if timeout = 0 then .error else status) p.initf polls
    else some (status, tmp)

/-- The readings of one wait, from the first after the request to the end of the loop. -/
structure InitWait where
  first : Bool
  polls : List Poll
  ends : (initLoop rtcInitmodeTimeout .success first polls).isSome

def InitWait.outcome (w : InitWait) : ErrorStatus × Bool :=
  (initLoop rtcInitmodeTimeout .success w.first w.polls).get w.ends

section Driver

variable {ρ : Type} [RtcPort ρ]

def llRtcEnterInitMode (w : InitWait) (r : ρ) : ErrorStatus × ρ :=
  if RtcPort.initf r = false then
    (w.outcome.1, RtcPort.settleInitf w.outcome.2 (RtcPort.writeInit true r))
  else (.success, r)

def llRtcExitInitMode (r : ρ) : ErrorStatus × ρ := (.success, RtcPort.writeInit false r)

def rtcTrHT : Word := 0x00300000#32
def rtcTrHU : Word := 0x000F0000#32
def rtcTrMNT : Word := 0x00007000#32
def rtcTrMNU : Word := 0x00000F00#32
def rtcTrST : Word := 0x00000070#32
def rtcTrSU : Word := 0x0000000F#32

def rtcDrYT : Word := 0x00F00000#32
def rtcDrYU : Word := 0x000F0000#32
def rtcDrWDU : Word := 0x0000E000#32
def rtcDrMT : Word := 0x00001000#32
def rtcDrMU : Word := 0x00000F00#32
def rtcDrDT : Word := 0x00000030#32
def rtcDrDU : Word := 0x0000000F#32

def llRtcTimeGet (r : ρ) : Word × ρ :=
  let (tr, r) := RtcPort.readTR r
  (tr &&& (rtcTrHT ||| rtcTrHU ||| rtcTrMNT ||| rtcTrMNU ||| rtcTrST ||| rtcTrSU), r)

def repackDate (dr : Word) : Word :=
  let temp := dr &&& (rtcDrWDU ||| rtcDrMT ||| rtcDrMU ||| rtcDrDT ||| rtcDrDU |||
    rtcDrYT ||| rtcDrYU)
  (((temp &&& rtcDrWDU) >>> 13) <<< 24) ||| (((temp &&& (rtcDrDT ||| rtcDrDU)) >>> 0) <<< 16) |||
    (((temp &&& (rtcDrMT ||| rtcDrMU)) >>> 8) <<< 8) ||| ((temp &&& (rtcDrYT ||| rtcDrYU)) >>> 16)

def llRtcDateGet (r : ρ) : Word × ρ :=
  let (dr, r) := RtcPort.readDR r
  (repackDate dr, r)

end Driver

def llRtcConvertBin2Bcd (value : Word) : BitVec 8 :=
  (((value / 10#32) <<< 4) ||| (value % 10#32)).setWidth 8

def llRtcConvertBcd2Bin (value : Word) : BitVec 8 :=
  (((((value &&& 0xF0#32).setWidth 8 : BitVec 8) >>> 4).setWidth 32) * 10#32 + (value &&& 0x0F#32)).setWidth 8

def llRtcGetHour (time : Word) : Word := (time >>> 16) &&& 0xFF#32
def llRtcGetMinute (time : Word) : Word := (time >>> 8) &&& 0xFF#32
def llRtcGetSecond (time : Word) : Word := time &&& 0xFF#32
def llRtcGetYear (date : Word) : Word := date &&& 0xFF#32
def llRtcGetMonth (date : Word) : Word := (date >>> 8) &&& 0xFF#32
def llRtcGetDay (date : Word) : Word := (date >>> 16) &&& 0xFF#32

inductive Store
  | tr (value : Word)
  | dr (value : Word)
  deriving DecidableEq

/-- The RTC as plain registers: a read gives the value last stored. `stores`
records every store to the calendar registers, the latest first. -/
structure Regs where
  tr : Word
  dr : Word
  init : Bool
  initf : Bool
  stores : List Store

instance : RtcPort Regs where
  readTR r := (r.tr, r)
  readDR r := (r.dr, r)
  writeTR v r := { r with tr := v, stores := .tr v :: r.stores }
  writeDR v r := { r with dr := v, stores := .dr v :: r.stores }
  initf r := r.initf
  writeInit b r := { r with init := b, initf := b && r.initf }
  settleInitf b r := { r with initf := b }

end Tanenbaum.Cli.Rtc
