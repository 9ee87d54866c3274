import Tanenbaum.Cli.Session

namespace Tanenbaum.Cli.Atomicity

open Lib.Bytes Lib.CString Rtc Commands Grammar Parse Calendar Session

def ReportsSuccess (text : String) : Prop := "succesfully set".toList <:+: text.toList

instance (text : String) : Decidable (ReportsSuccess text) :=
  List.decidableInfix _ _

/-- How often success is reported in some printed texts. -/
def reports (texts : List String) : ℕ := texts.countP (ReportsSuccess ·)

/-- A refused line leaves everything as it was and reports nothing. -/
structure Refused (b b' : Board Regs) : Prop where
  tr : b'.rtc.tr = b.rtc.tr
  dr : b'.rtc.dr = b.rtc.dr
  odr : b'.odr = b.odr
  init : b'.rtc.init = false
  out : ∃ texts, b'.out = b.out ++ texts ∧ reports texts = 0

/-- A `set` that is accepted stores once, leaves initialization mode and reports once. -/
structure Stored (b b' : Board Regs) (store : Store) : Prop where
  stores : b'.rtc.stores = store :: b.rtc.stores
  init : b'.rtc.init = false
  out : ∃ texts, b'.out = b.out ++ texts ∧ reports texts = 1

structure AllOrNothing (l : Line) (b : Board Regs) (accepted : Bool) (b' : Board Regs) : Prop where
  refused : accepted = false → Refused b b'
  time : accepted = true → ∀ t, l.text ∈ (Command.timeSet t).form →
    EncodesTime t b'.rtc.tr ∧ Stored b b' (.tr b'.rtc.tr)
  date : accepted = true → ∀ d, l.text ∈ (Command.dateSet d).form →
    dateFields b'.rtc.dr = bcdDate d ∧ Stored b b' (.dr b'.rtc.dr)

/-- The line spells a `time set` or a `date set`. -/
def SetsCalendar (l : Line) : Prop :=
  (∃ t, l.text ∈ (Command.timeSet t).form) ∨ ∃ d, l.text ∈ (Command.dateSet d).form

section Reports

theorem reports_time (hours minutes seconds : ℤ) :
    reports ["Time is succesfully set " ++ toString hours ++ ":" ++ toString minutes ++ ":" ++
      toString seconds ++ "!\r\n"] = 1 := by
  have hhead : "Time is succesfully set ".toList =
      "Time is ".toList ++ "succesfully set".toList ++ " ".toList := by decide
  have hreports : ReportsSuccess ("Time is succesfully set " ++ toString hours ++ ":" ++
      toString minutes ++ ":" ++ toString seconds ++ "!\r\n") := by
    simp only [ReportsSuccess, String.toList_append, hhead, List.append_assoc]
    exact ⟨_, _, List.append_assoc _ _ _⟩
  rw [reports, List.countP_singleton, if_pos (decide_eq_true hreports)]

theorem reports_date : reports ["Date is succesfully set!\r\n"] = 1 := by decide

end Reports

section Sets

variable {w : InitWait} {b : Board Regs}

theorem enterInit_eq (h : b.rtc.initf = false) : llRtcEnterInitMode w b.rtc =
    (w.outcome.1, { b.rtc with init := true, initf := w.outcome.2 }) :=
  if_pos h

theorem enterInit_success (h : b.rtc.initf = false) (hw : w.outcome.1 = .success) :
    (llRtcEnterInitMode w b.rtc).1 = .success := by
  rw [enterInit_eq h, hw]

theorem timeSet_stored (t : Time) (h : b.rtc.initf = false) (hw : w.outcome.1 = .success) :
    EncodesTime t (perform w b (.timeSet t)).2.rtc.tr ∧
      Stored b (perform w b (.timeSet t)).2 (.tr (perform w b (.timeSet t)).2.rtc.tr) := by
  have hl := leaves_timeSet t (enterInit_success h hw)
  refine ⟨hl.tr_eq ▸ timeWord_encodes t, hl.tr_eq ▸ hl.stores_eq, ?_, ?_⟩
  · simp only [perform, storeTime, Board.printf, enterInit_eq h, hw]
    rfl
  · refine ⟨_, ?_, reports_time t.hours t.minutes t.seconds⟩
    simp only [perform, storeTime, Board.printf, enterInit_eq h, hw]

theorem dateSet_stored (d : Date) (h : b.rtc.initf = false) (hw : w.outcome.1 = .success) :
    dateFields (perform w b (.dateSet d)).2.rtc.dr = bcdDate d ∧
      Stored b (perform w b (.dateSet d)).2 (.dr (perform w b (.dateSet d)).2.rtc.dr) := by
  have hl := leaves_dateSet d (enterInit_success h hw)
  refine ⟨hl.dr_eq ▸ dateFields_dateWord d, hl.dr_eq ▸ hl.stores_eq, ?_, ?_⟩
  · simp only [perform, storeDate, Board.printf, enterInit_eq h, hw]
    rfl
  · refine ⟨_, ?_, reports_date⟩
    simp only [perform, storeDate, Board.printf, enterInit_eq h, hw]

/-- A timed out `time set` has reported its success already. -/
theorem timeSet_not_refused (t : Time) (h : b.rtc.initf = false) (hw : w.outcome.1 = .error) :
    (perform w b (.timeSet t)).1 = false ∧ ¬ Refused b (perform w b (.timeSet t)).2 := by
  constructor
  · simp only [perform, storeTime, Board.printf, enterInit_eq h, hw]
  · intro hrefused
    obtain ⟨texts, hout, hnone⟩ := hrefused.out
    simp only [perform, storeTime, Board.printf, enterInit_eq h, hw] at hout
    rw [← List.append_cancel_left hout, reports_time] at hnone
    cases hnone

/-- A timed out `date set` leaves initialization mode requested. -/
theorem dateSet_not_refused (d : Date) (h : b.rtc.initf = false) (hw : w.outcome.1 = .error) :
    (perform w b (.dateSet d)).1 = false ∧ ¬ Refused b (perform w b (.dateSet d)).2 := by
  constructor
  · simp only [perform, storeDate, enterInit_eq h, hw]
  · intro hrefused
    have hinit := hrefused.init
    simp only [perform, storeDate, enterInit_eq h, hw] at hinit
    cases hinit

end Sets

section Lines

variable {b : Board Regs} {l : Line} {c : Command}

theorem setsCalendar_iff (hc : command l.text = some c) :
    SetsCalendar l ↔ (∃ t, c = .timeSet t) ∨ ∃ d, c = .dateSet d := by
  simp only [SetsCalendar, ← command_eq_some, hc, Option.some.injEq]

theorem not_setsCalendar (hc : command l.text = none) : ¬ SetsCalendar l := by
  simp only [SetsCalendar, ← command_eq_some, hc, reduceCtorEq, exists_false, or_self,
    not_false_eq_true]

theorem allOrNothing_rejected (l : Line) (hinit : b.rtc.init = false) :
    AllOrNothing l b false b where
  refused _ := ⟨rfl, rfl, rfl, hinit, [], (List.append_nil b.out).symm, rfl⟩
  time h := by cases h
  date h := by cases h

/-- Nothing is asked of an accepted line that does not set the calendar. -/
theorem allOrNothing_other (hset : ¬ SetsCalendar l) (b' : Board Regs) :
    AllOrNothing l b true b' where
  refused h := by cases h
  time _ t h := absurd (.inl ⟨t, h⟩) hset
  date _ d h := absurd (.inr ⟨d, h⟩) hset

theorem allOrNothing_timeSet_iff {t : Time} (hc : command l.text = some (.timeSet t))
    (hinitf : b.rtc.initf = false) :
    AllOrNothing l b (perform l.wait b (.timeSet t)).1 (perform l.wait b (.timeSet t)).2 ↔
      ¬ l.wait.outcome.1 = .error := by
  rcases hw : l.wait.outcome.1 with _ | _
  · refine iff_of_true ⟨fun h ↦ ?_, fun _ t' ht' ↦ ?_, fun _ d hd ↦ ?_⟩ (by simp)
    · rw [(storeTime_accepts l.wait b t).mpr (enterInit_success hinitf hw)] at h
      cases h
    · cases hc.symm.trans (command_eq_some.mpr ht')
      exact timeSet_stored t hinitf hw
    · cases hc.symm.trans (command_eq_some.mpr hd)
  · obtain ⟨hfalse, hnot⟩ := timeSet_not_refused t hinitf hw
    exact iff_of_false (fun h ↦ hnot (h.refused hfalse)) fun h ↦ h rfl

theorem allOrNothing_dateSet_iff {d : Date} (hc : command l.text = some (.dateSet d))
    (hinitf : b.rtc.initf = false) :
    AllOrNothing l b (perform l.wait b (.dateSet d)).1 (perform l.wait b (.dateSet d)).2 ↔
      ¬ l.wait.outcome.1 = .error := by
  rcases hw : l.wait.outcome.1 with _ | _
  · refine iff_of_true ⟨fun h ↦ ?_, fun _ t ht ↦ ?_, fun _ d' hd' ↦ ?_⟩ (by simp)
    · rw [(storeDate_accepts l.wait b d).mpr (enterInit_success hinitf hw)] at h
      cases h
    · cases hc.symm.trans (command_eq_some.mpr ht)
    · cases hc.symm.trans (command_eq_some.mpr hd')
      exact dateSet_stored d hinitf hw
  · obtain ⟨hfalse, hnot⟩ := dateSet_not_refused d hinitf hw
    exact iff_of_false (fun h ↦ hnot (h.refused hfalse)) fun h ↦ h rfl

/-- A line is executed as a whole or not at all, and its success is reported
exactly when it happened, unless it sets the calendar and the wait for
initialization mode times out. -/
theorem all_or_nothing_iff (b : Board Regs) (l : Line) (hinit : b.rtc.init = false)
    (hinitf : b.rtc.initf = false) :
    (∃ accepted b', parse b l = some (accepted, b') ∧ AllOrNothing l b accepted b') ↔
      ¬ (SetsCalendar l ∧ l.wait.outcome.1 = .error) := by
  have hparse : (∃ accepted b', parse b l = some (accepted, b') ∧ AllOrNothing l b accepted b') ↔
      AllOrNothing l b (answer l.wait b (command l.text)).1
        (answer l.wait b (command l.text)).2 := by
    rw [parse_eq]
    constructor
    · rintro ⟨accepted, b', heq, h⟩
      rwa [Option.some.inj heq]
    · exact fun h ↦ ⟨_, _, rfl, h⟩
  rw [hparse]
  cases hc : command l.text with
  | none => exact iff_of_true (allOrNothing_rejected l hinit) fun h ↦ not_setsCalendar hc h.1
  | some c =>
    rw [setsCalendar_iff hc]
    cases c with
    | timeSet t =>
      rw [answer, allOrNothing_timeSet_iff hc hinitf]
      simp
    | dateSet d =>
      rw [answer, allOrNothing_dateSet_iff hc hinitf]
      simp
    | _ =>
      have hset : ¬ SetsCalendar l := by simp [setsCalendar_iff hc]
      exact iff_of_true (allOrNothing_other hset _) (by simp)

theorem sampleTime_all_or_nothing :
    ∃ accepted b', parse freshBoard ⟨str "time set 01:02:03\n", by decide, [], promptWait⟩ =
      some (accepted, b') ∧
      AllOrNothing ⟨str "time set 01:02:03\n", by decide, [], promptWait⟩ freshBoard accepted b' := by
  refine (all_or_nothing_iff freshBoard _ rfl rfl).mpr ?_
  rintro ⟨-, herror⟩
  cases herror

end Lines

section Timeout

/-- Every round sees the SysTick count flag and none sees INITF. -/
theorem initLoop_replicate (n : ℕ) (status : ErrorStatus) :
    initLoop (n + 1) status false (List.replicate (n + 1) ⟨true, false⟩) =
      some (.error, false) := by
  induction n generalizing status with
  | zero => rfl
  | succ n ih =>
    rw [List.replicate_succ, initLoop, if_pos ⟨Nat.succ_ne_zero _, rfl⟩]
    exact ih status

def timedOut : InitWait where
  first := false
  polls := List.replicate rtcInitmodeTimeout ⟨true, false⟩
  ends := by rw [rtcInitmodeTimeout, initLoop_replicate 999]; rfl

theorem timedOut_outcome : timedOut.outcome = (.error, false) := by
  have hloop := initLoop_replicate 999 .success
  simp only [InitWait.outcome, timedOut, rtcInitmodeTimeout, hloop, Option.get_some]

def oneTwoThree : Time := ⟨1, 2, 3, by decide, by decide, by decide⟩

/-- `time set 01:02:03` when INITF does not appear: the line is refused, after
its success was reported and with initialization mode still requested. -/
theorem timed_out_set_reports_success :
    ∃ b', parse freshBoard ⟨str "time set 01:02:03\n", by decide, [], timedOut⟩ =
        some (false, b') ∧ b'.rtc.init = true ∧
      b'.out = ["Time is succesfully set 1:2:3!\r\n"] ∧
      ¬ AllOrNothing ⟨str "time set 01:02:03\n", by decide, [], timedOut⟩ freshBoard false b' := by
  have hcmd : command (str "time set 01:02:03\n") = some (.timeSet oneTwoThree) := rfl
  have hwait : timedOut.outcome.1 = .error := by rw [timedOut_outcome]
  have heq : perform timedOut freshBoard (.timeSet oneTwoThree) =
      (false, { freshBoard with
        rtc := { freshBoard.rtc with init := true, initf := timedOut.outcome.2 },
        out := ["Time is succesfully set 1:2:3!\r\n"] }) := by
    simp only [perform, storeTime, Board.printf, enterInit_eq (b := freshBoard) rfl, hwait]
    rfl
  have hnot := (timeSet_not_refused (b := freshBoard) oneTwoThree rfl hwait).2
  rw [heq] at hnot
  refine ⟨_, ?_, rfl, rfl, fun h ↦ hnot (h.refused rfl)⟩
  rw [parse_eq, hcmd, answer, heq]

end Timeout

end Tanenbaum.Cli.Atomicity
