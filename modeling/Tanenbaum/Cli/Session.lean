import Tanenbaum.Lib.Runs
import Tanenbaum.Cli.Parse
import Tanenbaum.Cli.Calendar

namespace Tanenbaum.Cli.Session

open Lib.Runs Lib.Bytes Lib.CString Rtc Commands Grammar Parse Calendar

/-- A command line as it stands in the buffer, with what `LL_RTC_EnterInitMode`
would read of the hardware while the line is executed. -/
structure Line where
  text : Str
  no_nul : 0 ∉ text
  junk : Str
  wait : InitWait

section Lines

variable {ρ : Type} [RtcPort ρ]

def parse (b : Board ρ) (l : Line) : Option (Bool × Board ρ) :=
  parseString l.wait (terminated l.text l.junk) b

def step (b : Board ρ) (l : Line) : Option (Board ρ) := (parse b l).map Prod.snd

def EntersInit (b : Board ρ) (l : Line) : Prop :=
  (llRtcEnterInitMode l.wait b.rtc).1 = .success

theorem parse_eq (b : Board ρ) (l : Line) :
    parse b l = some (answer l.wait b (command l.text)) :=
  parseString_terminated l.wait b l.junk l.no_nul

theorem step_eq (b : Board ρ) (l : Line) :
    step b l = some (answer l.wait b (command l.text)).2 := by
  rw [step, parse_eq, Option.map_some]

theorem enterInit_of_wait {w : InitWait} (h : w.outcome.1 = .success) (r : ρ) :
    (llRtcEnterInitMode w r).1 = .success := by
  simp only [llRtcEnterInitMode]
  split
  · exact h
  · rfl

theorem along_entersInit {lines : List Line} (h : ∀ l ∈ lines, l.wait.outcome.1 = .success)
    (b : Board ρ) : Along step EntersInit b lines := by
  induction lines generalizing b with
  | nil => trivial
  | cons l lines ih =>
    refine ⟨enterInit_of_wait (h l (List.mem_cons_self ..)) b.rtc, fun t _ ↦ ih ?_ t⟩
    exact fun m hm ↦ h m (List.mem_cons_of_mem l hm)

end Lines

section Effects

variable {w : InitWait} {b : Board Regs}

theorem enterInit_calendar (w : InitWait) (r : Regs) : (llRtcEnterInitMode w r).2.tr = r.tr ∧
    (llRtcEnterInitMode w r).2.dr = r.dr ∧ (llRtcEnterInitMode w r).2.stores = r.stores := by
  simp only [llRtcEnterInitMode]
  split <;> exact ⟨rfl, rfl, rfl⟩

structure Leaves (b' : Board Regs) (tr dr : Word) (stores : List Store) (odr : Word) : Prop where
  tr_eq : b'.rtc.tr = tr
  dr_eq : b'.rtc.dr = dr
  stores_eq : b'.rtc.stores = stores
  odr_eq : b'.odr = odr

theorem leaves_timeSet (t : Time) (h : (llRtcEnterInitMode w b.rtc).1 = .success) :
    Leaves (perform w b (.timeSet t)).2 (timeWord t.hours t.minutes t.seconds) b.rtc.dr
      (.tr (timeWord t.hours t.minutes t.seconds) :: b.rtc.stores) b.odr := by
  obtain ⟨-, hdr, hst⟩ := enterInit_calendar w b.rtc
  simp only [perform, storeTime, Board.printf]
  rcases hinit : llRtcEnterInitMode w b.rtc with ⟨_ | _, r⟩
  · rw [hinit] at hdr hst
    exact ⟨rfl, hdr, congrArg _ hst, rfl⟩
  · simp [hinit] at h

theorem leaves_dateSet (d : Date) (h : (llRtcEnterInitMode w b.rtc).1 = .success) :
    Leaves (perform w b (.dateSet d)).2 b.rtc.tr (dateWord d.year d.month d.day)
      (.dr (dateWord d.year d.month d.day) :: b.rtc.stores) b.odr := by
  obtain ⟨htr, -, hst⟩ := enterInit_calendar w b.rtc
  simp only [perform, storeDate, Board.printf]
  rcases hinit : llRtcEnterInitMode w b.rtc with ⟨_ | _, r⟩
  · rw [hinit] at htr hst
    exact ⟨htr, rfl, congrArg _ hst, rfl⟩
  · simp [hinit] at h

theorem leaves_refused {c : Command} (hc : (∃ t, c = .timeSet t) ∨ ∃ d, c = .dateSet d)
    (h : (llRtcEnterInitMode w b.rtc).1 = .error) :
    Leaves (perform w b c).2 b.rtc.tr b.rtc.dr b.rtc.stores b.odr := by
  obtain ⟨htr, hdr, hst⟩ := enterInit_calendar w b.rtc
  rcases hinit : llRtcEnterInitMode w b.rtc with ⟨_ | _, r⟩
  · simp [hinit] at h
  · rw [hinit] at htr hdr hst
    rcases hc with ⟨t, rfl⟩ | ⟨d, rfl⟩
    · simp only [perform, storeTime, Board.printf, hinit]
      exact ⟨htr, hdr, hst, rfl⟩
    · simp only [perform, storeDate, hinit]
      exact ⟨htr, hdr, hst, rfl⟩

end Effects

def promptWait : InitWait := ⟨true, [], rfl⟩

def freshBoard : Board Regs := ⟨⟨0, 0x00002101#32, false, false, []⟩, 0x00002000#32, []⟩

end Tanenbaum.Cli.Session
