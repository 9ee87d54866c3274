import Tanenbaum.Lib.CString
import Tanenbaum.Cli.Rtc

namespace Tanenbaum.Cli.Commands

open Lib.Bytes Lib.CString Rtc

def str (text : String) : Str := text.toList.map fun c ↦ UInt8.ofNat c.toNat

def isblank (c : UInt8) : Bool := c == 32 || c == 9

def isdigit (c : UInt8) : Bool := 48 ≤ c && c ≤ 57

/-- What the commands act on: the RTC, the output data register of port E, and
the texts printed so far. -/
structure Board (ρ : Type) where
  rtc : ρ
  odr : Word
  out : List String

variable {ρ : Type}

def Board.printf (b : Board ρ) (text : String) : Board ρ := { b with out := b.out ++ [text] }

def pad2 (n : ℕ) : String := if n < 10 then "0" ++ toString n else toString n

/-- The low half of BSRR sets pins, the high half resets them, and setting wins. -/
def writeBSRR (value odr : Word) : Word := (odr &&& ~~~(value >>> 16)) ||| (value &&& 0xFFFF#32)

def llGpioPin13 : Word := 0x00002000#32

def llGpioSetOutputPin (pinMask odr : Word) : Word := writeBSRR pinMask odr

def llGpioResetOutputPin (pinMask odr : Word) : Word := writeBSRR (pinMask <<< 16) odr

/-- A matcher returns whether it accepts, with what it did to the board. It is
`none` when it reads past the memory it is given. -/
abbrev Matcher (ρ : Type) := Str → Board ρ → Option (Bool × Board ρ)

def matchPinCmd : Matcher ρ := fun buf b ↦ do
  let p ← skipWhile isblank buf
  if ← strncmpEq p (str "pin") then
    let p ← skipWhile isblank (p.drop 3)
    if ← strncmpEq p (str "set") then
      let p ← skipWhile isblank (p.drop 3)
      let c ← p.head?
      -- the LED is pulled up, so 0 drives the pin high
      if c = 48 then return (true, { b with odr := llGpioSetOutputPin llGpioPin13 b.odr })
      else if c = 49 then return (true, { b with odr := llGpioResetOutputPin llGpioPin13 b.odr })
      else return (false, b)
    else return (false, b)
  else return (false, b)

def getNumFromStr (buf : Str) : Option ℤ := do
  let c ← buf[0]?
  if !isdigit c then return -1
  else
    let d ← buf[1]?
    if !isdigit d then return -1
    else return ((c.toNat : ℤ) - 48) * 10 + d.toNat - 48

/-- The three numbers separated by colons that `set_time_from_str` and
`set_date_from_str` read, each rejected by a test of its own. -/
def scanFields (bad₁ bad₂ bad₃ : ℤ → Bool) (buf : Str) : Option (Option (ℤ × ℤ × ℤ)) := do
  let n₁ ← getNumFromStr buf
  if bad₁ n₁ then return none
  else if (← buf[2]?) ≠ 58 then return none
  else
    let n₂ ← getNumFromStr (buf.drop 3)
    if bad₂ n₂ then return none
    else if (← buf[5]?) ≠ 58 then return none
    else
      let n₃ ← getNumFromStr (buf.drop 6)
      if bad₃ n₃ then return none
      else return some (n₁, n₂, n₃)

/-- `__LL_RTC_CONVERT_BIN2BCD` of an `int`, back as an `int`. -/
def bcdInt (n : ℤ) : Word := (llRtcConvertBin2Bcd (BitVec.ofInt 32 n)).setWidth 32

def timeWord (hours minutes seconds : ℤ) : Word :=
  ((bcdInt hours <<< 16) &&& 0x003f0000#32) ||| ((bcdInt minutes <<< 8) &&& 0x00007f00#32) |||
    (bcdInt seconds &&& 0x0000007f#32)

def dateWord (year month day : ℤ) : Word :=
  ((bcdInt year <<< 16) &&& 0x00ff0000#32) ||| (((bcdInt month + 0x20#32) <<< 8) &&& 0x00001f00#32) |||
    (bcdInt day &&& 0x0000003f#32)

section Calendar

variable [RtcPort ρ] (w : InitWait)

def storeTime (hours minutes seconds : ℤ) (b : Board ρ) : Bool × Board ρ :=
  let b := b.printf ("Time is succesfully set " ++ toString hours ++ ":" ++ toString minutes ++
    ":" ++ toString seconds ++ "!\r\n")
  match llRtcEnterInitMode w b.rtc with
  | (.error, rtc) => (false, { b with rtc := rtc })
  | (.success, rtc) =>
    let rtc := RtcPort.writeTR (timeWord hours minutes seconds) rtc
    (true, { b with rtc := (llRtcExitInitMode rtc).2 })

def setTimeFromStr : Matcher ρ := fun buf b ↦ do
  match ← scanFields (fun hours ↦ hours < 0 || hours > 23) (fun minutes ↦ minutes < 0 || minutes > 59)
    (fun seconds ↦ seconds < 0 || seconds > 59) buf with
  | none => return (false, b)
  | some (hours, minutes, seconds) => return storeTime w hours minutes seconds b

def storeDate (year month day : ℤ) (b : Board ρ) : Bool × Board ρ :=
  match llRtcEnterInitMode w b.rtc with
  | (.error, rtc) => (false, { b with rtc := rtc })
  | (.success, rtc) =>
    let rtc := RtcPort.writeDR (dateWord year month day) rtc
    (true, { b with rtc := (llRtcExitInitMode rtc).2 }.printf "Date is succesfully set!\r\n")

def setDateFromStr : Matcher ρ := fun buf b ↦ do
  match ← scanFields (fun year ↦ year < 0) (fun month ↦ month < 1 || month > 12)
    (fun day ↦ day < 1 || day > 31) buf with
  | none => return (false, b)
  | some (year, month, day) => return storeDate w year month day b

def printTime (b : Board ρ) : Board ρ :=
  let (time, rtc) := llRtcTimeGet b.rtc
  let hours := llRtcConvertBcd2Bin (llRtcGetHour time)
  let minutes := llRtcConvertBcd2Bin (llRtcGetMinute time)
  let seconds := llRtcConvertBcd2Bin (llRtcGetSecond time)
  { b with rtc := rtc }.printf
    ("time is " ++ pad2 hours.toNat ++ ":" ++ pad2 minutes.toNat ++ ":" ++ pad2 seconds.toNat ++ "\r\n")

def printDate (b : Board ρ) : Board ρ :=
  let (date, rtc) := llRtcDateGet b.rtc
  let year := llRtcConvertBcd2Bin (llRtcGetYear date)
  let month := llRtcConvertBcd2Bin (llRtcGetMonth date)
  let day := llRtcConvertBcd2Bin (llRtcGetDay date)
  { b with rtc := rtc }.printf
    ("date is 20" ++ pad2 year.toNat ++ ":" ++ pad2 month.toNat ++ ":" ++ pad2 day.toNat ++ "\r\n")

/-- The common body of `match_time_cmd` and `match_date_cmd`. -/
def matchCalendarCmd (word : Str) (set : Matcher ρ) (get : Board ρ → Board ρ) : Matcher ρ :=
  fun buf b ↦ do
    let p ← skipWhile isblank buf
    if ← strncmpEq p word then
      let p ← skipWhile isblank (p.drop 4)
      if ← strncmpEq p (str "set") then
        let p ← skipWhile isblank (p.drop 3)
        set p b
      else if ← strncmpEq p (str "get") then return (true, get b)
      else return (false, b)
    else return (false, b)

def matchTimeCmd : Matcher ρ := matchCalendarCmd (str "time") (setTimeFromStr w) printTime

def matchDateCmd : Matcher ρ := matchCalendarCmd (str "date") (setDateFromStr w) printDate

def matchI2cCmd : Matcher ρ := fun _ b ↦ some (false, b)

def tryMatchers : List (Matcher ρ) → Matcher ρ
  | [], _, b => some (false, b)
  | m :: ms, buf, b => do
    let (accepted, b) ← m buf b
    if accepted then return (true, b) else tryMatchers ms buf b

def matchers : List (Matcher ρ) := [matchPinCmd, matchI2cCmd, matchTimeCmd w, matchDateCmd w]

def parseString : Matcher ρ := tryMatchers (matchers w)

end Calendar

end Tanenbaum.Cli.Commands
