import Tanenbaum.Lib.Latch
import Tanenbaum.Cli.Session

namespace Tanenbaum.Cli.Shadow

open Lib.Runs Lib.Bytes Lib.CString Lib.Latch Rtc Commands Grammar Parse Calendar
open Session (Line promptWait parse parse_eq)

/-- The RTC with its shadow registers in use: the calendar, and the value at
which a read of TR has frozen the shadow of DR. -/
structure ShadowRegs where
  tr : Word
  dr : Word
  frozen : Option Word
  init : Bool
  initf : Bool

/-- What a read of DR gives. -/
def ShadowRegs.shadowDR (r : ShadowRegs) : Word := r.frozen.getD r.dr

instance : RtcPort ShadowRegs where
  readTR r := (r.tr, { r with frozen := some r.shadowDR })
  readDR r := (r.shadowDR, { r with frozen := none })
  writeTR v r := { r with tr := v }
  writeDR v r := { r with dr := v }
  initf r := r.initf
  writeInit b r := { r with init := b, initf := b && r.initf }
  settleInitf b r := { r with initf := b }

/-- A time and a date as the calendar counts them. -/
structure Moment where
  tr : Word
  dr : Word
  time : Time
  weekday : BitVec 8
  date : Date
  tr_encodes : EncodesTime time tr
  dr_encodes : EncodesDate weekday date dr

/-- A command line, or the calendar counting on to some moment. -/
inductive Event
  | line (l : Line)
  | advance (m : Moment)

def step (b : Board ShadowRegs) : Event → Option (Board ShadowRegs)
  | .line l => Session.step b l
  | .advance m => some { b with rtc := { b.rtc with tr := m.tr, dr := m.dr } }

/-- The line is accepted and prints one text. -/
def Prints (b : Board ShadowRegs) (l : Line) (text : String) : Prop :=
  ∃ b', parse b l = some (true, b') ∧ b'.out = b.out ++ [text]

/-- What a line asks for is printed as the calendar has it at that moment. -/
def PrintsNow (b : Board ShadowRegs) : Event → Prop
  | .line l =>
    (l.text ∈ Command.timeGet.form → ∃ t, EncodesTime t b.rtc.tr ∧ Prints b l (timeLine t)) ∧
    (l.text ∈ Command.dateGet.form →
      ∃ d, dateFields b.rtc.dr = bcdDate d ∧ Prints b l (dateLine d))
  | .advance _ => True

def AsksTime : Event → Prop
  | .line l => l.text ∈ Command.timeGet.form
  | .advance _ => False

def AsksDate : Event → Prop
  | .line l => l.text ∈ Command.dateGet.form
  | .advance _ => False

/-- When a `date get` comes, the calendar has the date that it had at the first
`time get` since the last `date get`, if there was one: no `date set` and no
midnight has changed it since. -/
def DateKept (b₀ : Board ShadowRegs) (events : List Event) : Prop :=
  ∀ before e between e' after, events = before ++ e :: (between ++ e' :: after) →
    ClosedBy AsksTime AsksDate before e between → AsksDate e' →
    ∀ b b', run step b₀ before = some b → run step b₀ (before ++ e :: between) = some b' →
      dateFields b'.rtc.dr = dateFields b.rtc.dr

/-- A `date get` finds the date that was frozen, if one was, still current. -/
def FrozenCurrent (b : Board ShadowRegs) : Event → Prop
  | .line l => l.text ∈ Command.dateGet.form →
    ∀ v, b.rtc.frozen = some v → dateFields v = dateFields b.rtc.dr
  | .advance _ => True

/-- The calendar and the frozen shadow hold a time and dates. -/
structure Valid (r : ShadowRegs) : Prop where
  tr : ∃ t, EncodesTime t r.tr
  dr : ∃ d, dateFields r.dr = bcdDate d
  frozen : ∀ v, r.frozen = some v → ∃ d, dateFields v = bcdDate d

section Registers

variable {r : ShadowRegs} {w : InitWait}

theorem Valid.shadowDR (h : Valid r) : ∃ d, dateFields r.shadowDR = bcdDate d := by
  rcases hf : r.frozen with _ | v
  · rw [ShadowRegs.shadowDR, hf]
    exact h.dr
  · rw [ShadowRegs.shadowDR, hf]
    exact h.frozen v hf

theorem shadowDR_current_iff : dateFields r.shadowDR = dateFields r.dr ↔
    ∀ v, r.frozen = some v → dateFields v = dateFields r.dr := by
  rcases hf : r.frozen with _ | v <;> simp [ShadowRegs.shadowDR, hf]

theorem Valid.readTR (h : Valid r) : Valid (RtcPort.readTR r).2 := by
  refine ⟨h.tr, h.dr, fun v hv ↦ ?_⟩
  cases hv
  exact h.shadowDR

theorem Valid.readDR (h : Valid r) : Valid (RtcPort.readDR r).2 :=
  ⟨h.tr, h.dr, fun v hv ↦ by cases hv⟩

theorem Valid.writeTR (h : Valid r) (t : Time) :
    Valid (RtcPort.writeTR (timeWord t.hours t.minutes t.seconds) r) :=
  ⟨⟨t, timeWord_encodes t⟩, h.dr, h.frozen⟩

theorem Valid.writeDR (h : Valid r) (d : Date) :
    Valid (RtcPort.writeDR (dateWord d.year d.month d.day) r) :=
  ⟨h.tr, ⟨d, dateFields_dateWord d⟩, h.frozen⟩

theorem enterInit_shadow (w : InitWait) (r : ShadowRegs) : (llRtcEnterInitMode w r).2.tr = r.tr ∧
    (llRtcEnterInitMode w r).2.dr = r.dr ∧ (llRtcEnterInitMode w r).2.frozen = r.frozen := by
  rw [llRtcEnterInitMode]
  split <;> exact ⟨rfl, rfl, rfl⟩

theorem Valid.exitInit (h : Valid r) : Valid (llRtcExitInitMode r).2 :=
  ⟨h.tr, h.dr, h.frozen⟩

theorem Valid.enterInit (h : Valid r) (w : InitWait) : Valid (llRtcEnterInitMode w r).2 := by
  rw [llRtcEnterInitMode]
  split
  · exact ⟨h.tr, h.dr, h.frozen⟩
  · exact h

end Registers

section Steps

variable {b b' : Board ShadowRegs}

theorem Valid.storeTime (h : Valid b.rtc) (w : InitWait) (t : Time) :
    Valid (storeTime w t.hours t.minutes t.seconds b).2.rtc := by
  have henter := h.enterInit w
  simp only [Commands.storeTime, Board.printf]
  rcases hinit : llRtcEnterInitMode w b.rtc with ⟨_ | _, r⟩ <;> rw [hinit] at henter
  · exact (henter.writeTR t).exitInit
  · exact henter

theorem Valid.storeDate (h : Valid b.rtc) (w : InitWait) (d : Date) :
    Valid (storeDate w d.year d.month d.day b).2.rtc := by
  have henter := h.enterInit w
  simp only [Commands.storeDate, Board.printf]
  rcases hinit : llRtcEnterInitMode w b.rtc with ⟨_ | _, r⟩ <;> rw [hinit] at henter
  · exact (henter.writeDR d).exitInit
  · exact henter

theorem Valid.perform (h : Valid b.rtc) (w : InitWait) (c : Command) :
    Valid (perform w b c).2.rtc := by
  cases c with
  | pinSet on => exact h
  | timeGet => exact h.readTR
  | timeSet t => exact h.storeTime w t
  | dateGet => exact h.readDR
  | dateSet d => exact h.storeDate w d

theorem Valid.step (h : Valid b.rtc) {e : Event} (hstep : step b e = some b') : Valid b'.rtc := by
  cases e with
  | line l =>
    rw [Shadow.step, Session.step_eq, Option.some.injEq] at hstep
    subst hstep
    cases command l.text with
    | none => exact h
    | some c => exact h.perform l.wait c
  | advance m =>
    cases hstep
    exact ⟨⟨m.time, m.tr_encodes⟩, ⟨m.date, dateFields_of_encodes m.dr_encodes⟩, h.frozen⟩

theorem prints_timeGet {l : Line} {t : Time} (hget : l.text ∈ Command.timeGet.form)
    (h : EncodesTime t b.rtc.tr) : Prints b l (timeLine t) := by
  refine ⟨(printTime b), ?_, ?_⟩
  · rw [parse_eq, command_eq_some.mpr hget]
    rfl
  · rw [printTime_encodes (b := b) h]
    rfl

theorem parse_dateGet {l : Line} (hget : l.text ∈ Command.dateGet.form) :
    ∃ b', parse b l = some (true, b') ∧ b'.out = b.out ++ [dateText b.rtc.shadowDR] := by
  refine ⟨printDate b, ?_, rfl⟩
  rw [parse_eq, command_eq_some.mpr hget]
  rfl

/-- A `date get` prints the current date exactly when what a read of DR gives is current. -/
theorem prints_dateGet_iff {l : Line} (hvalid : Valid b.rtc)
    (hget : l.text ∈ Command.dateGet.form) :
    (∃ d, dateFields b.rtc.dr = bcdDate d ∧ Prints b l (dateLine d)) ↔
      dateFields b.rtc.shadowDR = dateFields b.rtc.dr := by
  obtain ⟨d', hd'⟩ := hvalid.shadowDR
  obtain ⟨b', hb', hout⟩ := parse_dateGet (b := b) hget
  rw [dateText_fields hd'] at hout
  constructor
  · rintro ⟨d, hd, b'', hb'', hout'⟩
    rw [hb', Option.some.injEq, Prod.mk.injEq] at hb''
    rw [← hb''.2, hout, List.append_cancel_left_eq, List.cons.injEq] at hout'
    rw [hd, hd', dateLine_injective hout'.1]
  · intro hcurrent
    exact ⟨d', hcurrent ▸ hd', b', hb', hout⟩

theorem printsNow_iff (hvalid : Valid b.rtc) (e : Event) :
    PrintsNow b e ↔ FrozenCurrent b e := by
  cases e with
  | line l =>
    have htime : l.text ∈ Command.timeGet.form →
        ∃ t, EncodesTime t b.rtc.tr ∧ Prints b l (timeLine t) := by
      intro hget
      obtain ⟨t, ht⟩ := hvalid.tr
      exact ⟨t, ht, prints_timeGet hget ht⟩
    rw [PrintsNow, FrozenCurrent, and_iff_right htime]
    apply forall_congr'
    intro hget
    rw [prints_dateGet_iff hvalid hget, shadowDR_current_iff]
  | advance m => exact Iff.rfl

theorem answer_frozen (w : InitWait) (b : Board ShadowRegs) (c : Option Command) :
    (answer w b c).2.rtc.frozen = match c with
      | some .timeGet => some b.rtc.shadowDR
      | some .dateGet => none
      | _ => b.rtc.frozen := by
  obtain ⟨-, -, hkept⟩ := enterInit_shadow w b.rtc
  cases c with
  | none => rfl
  | some c =>
    cases c with
    | timeSet t =>
      simp only [answer, perform, storeTime, Board.printf]
      rcases hinit : llRtcEnterInitMode w b.rtc with ⟨_ | _, r⟩ <;> rw [hinit] at hkept <;>
        exact hkept
    | dateSet d =>
      simp only [answer, perform, storeDate, Board.printf]
      rcases hinit : llRtcEnterInitMode w b.rtc with ⟨_ | _, r⟩ <;> rw [hinit] at hkept <;>
        exact hkept
    | _ => rfl

/-- The shadow of DR is a latch that `time get` closes and `date get` opens. -/
theorem line_isLatch : IsLatch (Session.step (ρ := ShadowRegs))
    (fun l ↦ l.text ∈ Command.timeGet.form) (fun l ↦ l.text ∈ Command.dateGet.form)
    (fun b ↦ b.rtc.dr) (fun b ↦ b.rtc.frozen) := by
  constructor
  all_goals
    intro b l b' hstep
    rw [Session.step_eq, Option.some.injEq] at hstep
    subst hstep
    rw [answer_frozen]
    simp only [← command_eq_some]
  · intro hget
    rw [hget]
    rfl
  · intro hget
    rw [hget]
  · intro htime hdate
    split
    · exact absurd ‹_› htime
    · exact absurd ‹_› hdate
    · rfl

theorem event_isLatch : IsLatch step AsksTime AsksDate (fun b ↦ b.rtc.dr)
    (fun b ↦ b.rtc.frozen) := by
  constructor
  · rintro b (l | m) b' hstep hget
    · exact line_isLatch.close b l b' hstep hget
    · exact hget.elim
  · rintro b (l | m) b' hstep hget
    · exact line_isLatch.release b l b' hstep hget
    · exact hget.elim
  · rintro b (l | m) b' hstep htime hdate
    · exact line_isLatch.keep b l b' hstep htime hdate
    · cases hstep
      rfl

theorem frozenCurrent_iff_dateKept {b₀ : Board ShadowRegs} (hopen : b₀.rtc.frozen = none)
    (events : List Event) : Along step FrozenCurrent b₀ events ↔ DateKept b₀ events := by
  rw [along_iff_split]
  constructor
  · intro h before e between e' after heq hclosed hdate b b' hb hb'
    cases e' with
    | advance m => exact hdate.elim
    | line l =>
      have hfrozen := (event_isLatch.held_iff hopen hb').mpr
        ⟨before, e, between, b, rfl, hclosed, hb, rfl⟩
      exact (h (before ++ e :: between) (.line l) after (by simp [heq]) b' hb' hdate _ hfrozen).symm
  · intro h past e after heq b' hb'
    cases e with
    | advance m => trivial
    | line l =>
      intro hdate v hv
      obtain ⟨before, e, between, b, rfl, hclosed, hb, rfl⟩ :=
        (event_isLatch.held_iff hopen hb').mp hv
      exact (h before e between (.line l) after (by simp [heq]) hclosed hdate b b' hb hb').symm

/-- The board at some moment, before anything has read the RTC. -/
def start (m : Moment) (init initf : Bool) (odr : Word) (out : List String) : Board ShadowRegs :=
  ⟨⟨m.tr, m.dr, none, init, initf⟩, odr, out⟩

theorem start_valid (m : Moment) (init initf : Bool) (odr : Word) (out : List String) :
    Valid (start m init initf odr out).rtc :=
  ⟨⟨m.time, m.tr_encodes⟩, ⟨m.date, dateFields_of_encodes m.dr_encodes⟩, fun v hv ↦ by cases hv⟩

/-- Throughout a session every `time get` and `date get` prints what the calendar
has at that moment exactly when the date does not change between a `time get`
and the next `date get`. -/
theorem prints_now_iff (m : Moment) (init initf : Bool) (odr : Word) (out : List String)
    (events : List Event) :
    Along step PrintsNow (start m init initf odr out) events ↔
      DateKept (start m init initf odr out) events := by
  rw [← frozenCurrent_iff_dateKept (show (start m init initf odr out).rtc.frozen = none from rfl)]
  apply along_iff (I := fun b ↦ Valid b.rtc)
  · intro b e hvalid
    exact printsNow_iff hvalid e
  · intro b e b' hvalid _ hstep
    exact hvalid.step hstep
  · exact start_valid m init initf odr out

end Steps

section Midnight

/-- Monday 2024-01-15, 23:59:50 -/
def beforeMidnight : Moment where
  tr := 0x00235950#32
  dr := 0x00242115#32
  time := ⟨23, 59, 50, by decide, by decide, by decide⟩
  weekday := 1
  date := ⟨24, 1, 15, by decide, by decide, by decide, by decide, by decide⟩
  tr_encodes := ⟨by decide, by decide, by decide, by decide⟩
  dr_encodes := ⟨by decide, by decide, by decide, by decide⟩

/-- Tuesday 2024-01-16, 00:00:10 -/
def afterMidnight : Moment where
  tr := 0x00000010#32
  dr := 0x00244116#32
  time := ⟨0, 0, 10, by decide, by decide, by decide⟩
  weekday := 2
  date := ⟨24, 1, 16, by decide, by decide, by decide, by decide, by decide⟩
  tr_encodes := ⟨by decide, by decide, by decide, by decide⟩
  dr_encodes := ⟨by decide, by decide, by decide, by decide⟩

def timeGetLine : Line := ⟨str "time get\n", by decide, [], promptWait⟩

def dateGetLine : Line := ⟨str "date get\n", by decide, [], promptWait⟩

/-- `time get` before midnight, `date get` after it: yesterday's date. -/
theorem date_get_prints_yesterday :
    (∃ b, run step (start beforeMidnight false false 0 [])
        [.line timeGetLine, .advance afterMidnight, .line dateGetLine] = some b ∧
      b.rtc.dr = afterMidnight.dr ∧
      b.out = ["time is 23:59:50\r\n", "date is 2024:01:15\r\n"]) ∧
    ¬ Along step PrintsNow (start beforeMidnight false false 0 [])
      [.line timeGetLine, .advance afterMidnight, .line dateGetLine] := by
  refine ⟨⟨_, rfl, rfl, by decide⟩, fun h ↦ ?_⟩
  have hprints := ((h.2 _ rfl).2 _ rfl).1
  have hvalid := ((start_valid beforeMidnight false false 0 []).step
    (e := .line timeGetLine) rfl).step (e := .advance afterMidnight) rfl
  have hget : dateGetLine.text ∈ Command.dateGet.form := command_eq_some.mp rfl
  have hcurrent := (printsNow_iff hvalid _).mp hprints hget _ rfl
  exact absurd hcurrent (by decide)

end Midnight

end Tanenbaum.Cli.Shadow
