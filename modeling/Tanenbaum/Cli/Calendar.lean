import Tanenbaum.Cli.Grammar

namespace Tanenbaum.Cli.Calendar

open Lib.Bytes Rtc Commands Grammar

def bcd (n : ℕ) : BitVec 8 := BitVec.ofNat 8 (16 * (n / 10) + n % 10)

/-- A value of TR that holds a time and sets no bit besides. -/
structure EncodesTime (t : Time) (v : Word) : Prop where
  spare : byteAt 3 v = 0#8
  hours : byteAt 2 v = bcd t.hours
  minutes : byteAt 1 v = bcd t.minutes
  seconds : byteAt 0 v = bcd t.seconds

/-- A value of DR that holds a date and a weekday (bits 15 to 13) and sets no bit besides. -/
structure EncodesDate (weekday : BitVec 8) (d : Date) (v : Word) : Prop where
  spare : byteAt 3 v = 0#8
  year : byteAt 2 v = bcd d.year
  month : byteAt 1 v = bcd d.month ||| (weekday <<< 5)
  day : byteAt 0 v = bcd d.day

section Encoding

def bytesOf (v : Word) : List (BitVec 8) := [byteAt 3 v, byteAt 2 v, byteAt 1 v, byteAt 0 v]

theorem hours_bytes : ∀ n : ℕ, n < 24 →
    bytesOf ((bcdInt n <<< 16) &&& 0x003f0000#32) = [0#8, bcd n, 0#8, 0#8] := by decide

theorem minutes_bytes : ∀ n : ℕ, n < 60 →
    bytesOf ((bcdInt n <<< 8) &&& 0x00007f00#32) = [0#8, 0#8, bcd n, 0#8] := by decide

theorem seconds_bytes : ∀ n : ℕ, n < 60 →
    bytesOf (bcdInt n &&& 0x0000007f#32) = [0#8, 0#8, 0#8, bcd n] := by decide

theorem year_bytes : ∀ n : ℕ, n < 100 →
    bytesOf ((bcdInt n <<< 16) &&& 0x00ff0000#32) = [0#8, bcd n, 0#8, 0#8] := by decide

/-- The mask `0x1f00` cuts off the `0x20` that was to set the weekday. -/
theorem month_bytes : ∀ n : ℕ, n < 13 →
    bytesOf (((bcdInt n + 0x20#32) <<< 8) &&& 0x00001f00#32) = [0#8, 0#8, bcd n, 0#8] := by decide

theorem day_bytes : ∀ n : ℕ, n < 32 →
    bytesOf (bcdInt n &&& 0x0000003f#32) = [0#8, 0#8, 0#8, bcd n] := by decide

theorem timeWord_encodes (t : Time) :
    EncodesTime t (timeWord t.hours t.minutes t.seconds) := by
  have hh := hours_bytes t.hours (by have := t.hours_le; omega)
  have hm := minutes_bytes t.minutes (by have := t.minutes_le; omega)
  have hs := seconds_bytes t.seconds (by have := t.seconds_le; omega)
  simp only [bytesOf, List.cons.injEq, and_true] at hh hm hs
  constructor <;> simp only [timeWord, byteAt_or, hh, hm, hs, BitVec.or_zero, BitVec.zero_or]

/-- `set_date_from_str` stores weekday 0. -/
theorem dateWord_encodes (d : Date) :
    EncodesDate 0#8 d (dateWord d.year d.month d.day) := by
  have hy := year_bytes d.year (by have := d.year_le; omega)
  have hm := month_bytes d.month (by have := d.month_le; omega)
  have hd := day_bytes d.day (by have := d.day_le; omega)
  simp only [bytesOf, List.cons.injEq, and_true] at hy hm hd
  constructor <;> simp only [dateWord, byteAt_or, hy, hm, hd, BitVec.or_zero, BitVec.zero_or,
    BitVec.zero_shiftLeft]

end Encoding

section Decoding

variable {ρ : Type} [RtcPort ρ]

theorem bcd2Bin_bcd : ∀ n : ℕ, n < 100 →
    (llRtcConvertBcd2Bin ((bcd n).setWidth 32)).toNat = n := by decide

theorem hours_mask : ∀ n : ℕ, n < 24 → bcd n &&& 0x3f#8 = bcd n := by decide

theorem minutes_mask : ∀ n : ℕ, n < 60 → bcd n &&& 0x7f#8 = bcd n := by decide

theorem month_mask : ∀ n : ℕ, n < 13 → bcd n &&& 0x1f#8 = bcd n := by decide

theorem day_mask : ∀ n : ℕ, n < 32 → bcd n &&& 0x3f#8 = bcd n := by decide

theorem time_fields (v : Word) :
    let time := v &&& (rtcTrHT ||| rtcTrHU ||| rtcTrMNT ||| rtcTrMNU ||| rtcTrST ||| rtcTrSU)
    llRtcGetHour time = (byteAt 2 v &&& 0x3f#8).setWidth 32 ∧
    llRtcGetMinute time = (byteAt 1 v &&& 0x7f#8).setWidth 32 ∧
    llRtcGetSecond time = (byteAt 0 v &&& 0x7f#8).setWidth 32 := by
  have hmask : bytesOf (rtcTrHT ||| rtcTrHU ||| rtcTrMNT ||| rtcTrMNU ||| rtcTrST ||| rtcTrSU) =
      [0#8, 0x3f#8, 0x7f#8, 0x7f#8] := by decide
  simp only [bytesOf, List.cons.injEq, and_true] at hmask
  refine ⟨(ushiftRight_and_ff 2 _).trans ?_, (ushiftRight_and_ff 1 _).trans ?_,
    (and_ff _).trans ?_⟩
  · rw [byteAt_and, hmask.2.1]
  · rw [byteAt_and, hmask.2.2.1]
  · rw [byteAt_and, hmask.2.2.2]

theorem repackDate_bytes (v : Word) :
    byteAt 0 (repackDate v) = byteAt 2 v ∧ byteAt 1 (repackDate v) = byteAt 1 v &&& 0x1f#8 ∧
      byteAt 2 (repackDate v) = byteAt 0 v &&& 0x3f#8 := by
  have hmask : bytesOf (rtcDrWDU ||| rtcDrMT ||| rtcDrMU ||| rtcDrDT ||| rtcDrDU ||| rtcDrYT |||
      rtcDrYU) = [0#8, 0xff#8, 0xff#8, 0x3f#8] := by decide
  have hday : bytesOf (rtcDrDT ||| rtcDrDU) = [0#8, 0#8, 0#8, 0x3f#8] := by decide
  have hmonth : bytesOf (rtcDrMT ||| rtcDrMU) = [0#8, 0#8, 0x1f#8, 0#8] := by decide
  have hyear : bytesOf (rtcDrYT ||| rtcDrYU) = [0#8, 0xff#8, 0#8, 0#8] := by decide
  simp only [bytesOf, List.cons.injEq, and_true] at hmask hday hmonth hyear
  -- each field is moved by whole bytes, so each byte of the result comes from one term
  have hff (x : BitVec 8) : x &&& 0xff#8 = x := BitVec.and_allOnes
  simp (disch := decide) [repackDate, byteAt_shiftLeft, byteAt_ushiftRight, byteAt_of_le,
    hmask, hday, hmonth, hyear, hff, BitVec.and_assoc]

theorem date_fields (v : Word) :
    llRtcGetYear (repackDate v) = (byteAt 2 v).setWidth 32 ∧
    llRtcGetMonth (repackDate v) = (byteAt 1 v &&& 0x1f#8).setWidth 32 ∧
    llRtcGetDay (repackDate v) = (byteAt 0 v &&& 0x3f#8).setWidth 32 := by
  obtain ⟨hyear, hmonth, hday⟩ := repackDate_bytes v
  refine ⟨(and_ff _).trans ?_, (ushiftRight_and_ff 1 _).trans ?_, (ushiftRight_and_ff 2 _).trans ?_⟩
  · rw [hyear]
  · rw [hmonth]
  · rw [hday]

/-- The year, month and day fields of a value of DR, weekday left out. -/
def dateFields (v : Word) : BitVec 8 × BitVec 8 × BitVec 8 :=
  (byteAt 2 v, byteAt 1 v &&& 0x1f#8, byteAt 0 v &&& 0x3f#8)

def bcdDate (d : Date) : BitVec 8 × BitVec 8 × BitVec 8 := (bcd d.year, bcd d.month, bcd d.day)

theorem dateFields_dateWord (d : Date) :
    dateFields (dateWord d.year d.month d.day) = bcdDate d := by
  have henc := dateWord_encodes d
  have hm := month_mask d.month (by have := d.month_le; omega)
  have hd := day_mask d.day (by have := d.day_le; omega)
  simp only [dateFields, bcdDate, henc.year, henc.month, henc.day, BitVec.zero_shiftLeft,
    BitVec.or_zero, hm, hd]

def timeLine (t : Time) : String :=
  "time is " ++ pad2 t.hours ++ ":" ++ pad2 t.minutes ++ ":" ++ pad2 t.seconds ++ "\r\n"

def dateLine (d : Date) : String :=
  "date is 20" ++ pad2 d.year ++ ":" ++ pad2 d.month ++ ":" ++ pad2 d.day ++ "\r\n"

theorem length_pad2 : ∀ n : ℕ, n < 100 → (pad2 n).toList.length = 2 := by decide

theorem ofDigitChars_pad2 : ∀ n : ℕ, n < 100 → Nat.ofDigitChars 10 (pad2 n).toList 0 = n := by
  decide

theorem pad2_inj {m n : ℕ} (hm : m < 100) (hn : n < 100) (h : (pad2 m).toList = (pad2 n).toList) :
    m = n := by
  rw [← ofDigitChars_pad2 m hm, h, ofDigitChars_pad2 n hn]

theorem line_parts {text colon last x y z x' y' z' : String}
    (h : text ++ x ++ colon ++ y ++ colon ++ z ++ last =
      text ++ x' ++ colon ++ y' ++ colon ++ z' ++ last)
    (hx : x.toList.length = x'.toList.length) (hy : y.toList.length = y'.toList.length)
    (hz : z.toList.length = z'.toList.length) :
    x.toList = x'.toList ∧ y.toList = y'.toList ∧ z.toList = z'.toList := by
  have hlist := congrArg String.toList h
  simp only [String.toList_append, List.append_assoc] at hlist
  obtain ⟨h₁, hlist⟩ := List.append_inj (List.append_cancel_left hlist) hx
  obtain ⟨h₂, hlist⟩ := List.append_inj (List.append_cancel_left hlist) hy
  obtain ⟨h₃, -⟩ := List.append_inj (List.append_cancel_left hlist) hz
  exact ⟨h₁, h₂, h₃⟩

/-- Different dates print as different lines. -/
theorem dateLine_injective {d d' : Date} (h : dateLine d = dateLine d') : d = d' := by
  have hy := d.year_le
  have hy' := d'.year_le
  have hm := d.month_le
  have hm' := d'.month_le
  have hd := d.day_le
  have hd' := d'.day_le
  have hlen {m n : ℕ} (hm : m < 100) (hn : n < 100) :
      (pad2 m).toList.length = (pad2 n).toList.length := by
    rw [length_pad2 m hm, length_pad2 n hn]
  obtain ⟨hyear, hmonth, hday⟩ := line_parts h (hlen (by omega) (by omega))
    (hlen (by omega) (by omega)) (hlen (by omega) (by omega))
  have hyear := pad2_inj (by omega) (by omega) hyear
  have hmonth := pad2_inj (by omega) (by omega) hmonth
  have hday := pad2_inj (by omega) (by omega) hday
  cases d
  cases d'
  simp_all

theorem dateFields_of_encodes {weekday : BitVec 8} {d : Date} {v : Word}
    (h : EncodesDate weekday d v) : dateFields v = bcdDate d := by
  have hweekday : ∀ x : BitVec 8, (x <<< 5) &&& 0x1f#8 = 0#8 := by decide
  have hm := month_mask d.month (by have := d.month_le; omega)
  have hd := day_mask d.day (by have := d.day_le; omega)
  rw [dateFields, bcdDate, h.year, h.month, h.day, BitVec.and_or_distrib_right, hweekday, hm, hd,
    BitVec.or_zero]

variable {b : Board ρ}

theorem printTime_encodes {t : Time} (h : EncodesTime t (RtcPort.readTR b.rtc).1) :
    printTime b = { b with rtc := (RtcPort.readTR b.rtc).2 }.printf (timeLine t) := by
  have hh := t.hours_le
  have hm := t.minutes_le
  have hs := t.seconds_le
  obtain ⟨fh, fm, fs⟩ := time_fields (RtcPort.readTR b.rtc).1
  rw [h.hours, hours_mask _ (by omega)] at fh
  rw [h.minutes, minutes_mask _ (by omega)] at fm
  rw [h.seconds, minutes_mask _ (by omega)] at fs
  simp only [printTime, llRtcTimeGet, fh, fm, fs]
  rw [bcd2Bin_bcd _ (by omega), bcd2Bin_bcd _ (by omega), bcd2Bin_bcd _ (by omega)]
  rfl

/-- What `date get` prints of a value of DR, whatever its fields hold. -/
def dateText (dr : Word) : String :=
  let date := repackDate dr
  "date is 20" ++ pad2 (llRtcConvertBcd2Bin (llRtcGetYear date)).toNat ++ ":" ++
    pad2 (llRtcConvertBcd2Bin (llRtcGetMonth date)).toNat ++ ":" ++
    pad2 (llRtcConvertBcd2Bin (llRtcGetDay date)).toNat ++ "\r\n"

theorem dateText_fields {d : Date} {v : Word} (h : dateFields v = bcdDate d) :
    dateText v = dateLine d := by
  have hy := d.year_le
  have hm := d.month_le
  have hd := d.day_le
  simp only [dateFields, bcdDate, Prod.mk.injEq] at h
  obtain ⟨fy, fm, fd⟩ := date_fields v
  rw [h.1] at fy
  rw [h.2.1] at fm
  rw [h.2.2] at fd
  simp only [dateText, fy, fm, fd]
  rw [bcd2Bin_bcd _ (by omega), bcd2Bin_bcd _ (by omega), bcd2Bin_bcd _ (by omega)]
  rfl

end Decoding

end Tanenbaum.Cli.Calendar
