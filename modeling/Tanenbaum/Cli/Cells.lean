import Tanenbaum.Cli.Shadow

namespace Tanenbaum.Cli.Cells

open Lib.Runs Lib.Bytes Lib.CString Lib.Latch Rtc Commands Grammar Parse Calendar Session
open Shadow (ShadowRegs enterInit_shadow line_isLatch parse_dateGet)

section Sets

def timeSetBy (l : Line) : Option Time :=
  match command l.text with
  | some (.timeSet t) => some t
  | _ => none

def dateSetBy (l : Line) : Option Date :=
  match command l.text with
  | some (.dateSet d) => some d
  | _ => none

def pinSetBy (l : Line) : Option Bool :=
  match command l.text with
  | some (.pinSet on) => some on
  | _ => none

variable {α : Type}

def lastSet (setBy : Line → Option α) (lines : List Line) : Option α :=
  (lines.filterMap setBy).getLast?

theorem lastSet_concat (setBy : Line → Option α) (lines : List Line) (l : Line) :
    lastSet setBy (lines ++ [l]) = (setBy l).or (lastSet setBy lines) := by
  simp only [lastSet, List.filterMap_append, List.getLast?_append]
  cases h : setBy l <;> simp [h]

theorem lastSet_append_of_none {setBy : Line → Option α} {lines : List Line}
    (h : ∀ l ∈ lines, setBy l = none) (before : List Line) :
    lastSet setBy (before ++ lines) = lastSet setBy before := by
  rw [lastSet, List.filterMap_append, List.filterMap_eq_nil_iff.mpr h, List.append_nil, lastSet]

end Sets

/-- The three cells hold what was last set, or what they held in `b₀`. -/
structure Holds (b₀ : Board ShadowRegs) (lines : List Line) (b : Board ShadowRegs) : Prop where
  tr : (lastSet timeSetBy lines).elim (b.rtc.tr = b₀.rtc.tr) fun t ↦ EncodesTime t b.rtc.tr
  dr : (lastSet dateSetBy lines).elim (b.rtc.dr = b₀.rtc.dr) fun d ↦
    dateFields b.rtc.dr = bcdDate d
  pin : b.odr.getLsbD 13 = (lastSet pinSetBy lines).elim (b₀.odr.getLsbD 13) not

/-- A line changes no cell but the one it sets, and no other pin of the port. -/
structure Frame (l : Line) (b b' : Board ShadowRegs) : Prop where
  tr : timeSetBy l = none → b'.rtc.tr = b.rtc.tr
  dr : dateSetBy l = none → b'.rtc.dr = b.rtc.dr
  odr : pinSetBy l = none → b'.odr = b.odr
  pins : ∀ i ≠ 13, b'.odr.getLsbD i = b.odr.getLsbD i

/-- The line `l` after the lines `before`: it is accepted exactly when it spells a
command, leaves the cells it does not set alone, and prints what was last set
when it asks for it. -/
def Answers (b₀ : Board ShadowRegs) (before : List Line) (l : Line) : Prop :=
  ∃ b r b', run step b₀ before = some b ∧ Holds b₀ before b ∧ parse b l = some (r, b') ∧
    (r = true ↔ ∃ c, l.text ∈ Command.form c) ∧ Frame l b b' ∧
    (l.text ∈ Command.timeGet.form → ∀ t, lastSet timeSetBy before = some t →
      b'.out = b.out ++ [timeLine t]) ∧
    (l.text ∈ Command.dateGet.form → ∀ d, lastSet dateSetBy before = some d →
      b'.out = b.out ++ [dateLine d])

/-- The CLI as a store of three cells where the last writer wins. -/
def LastWriterWins (b₀ : Board ShadowRegs) (lines : List Line) : Prop :=
  (∃ b, run step b₀ lines = some b ∧ Holds b₀ lines b) ∧
  ∀ before l after, lines = before ++ l :: after → Answers b₀ before l

/-- When a `date get` comes, the date last set is the one last set before the
first `time get` since the last `date get`, if there was one; where none was set
by then, the first value of DR prints as that date. -/
def SetDateKept (dr : Word) (lines : List Line) : Prop :=
  ∀ before l between l' after d, lines = before ++ l :: (between ++ l' :: after) →
    ClosedBy (fun l ↦ l.text ∈ Command.timeGet.form) (fun l ↦ l.text ∈ Command.dateGet.form)
      before l between →
    l'.text ∈ Command.dateGet.form → lastSet dateSetBy (before ++ l :: between) = some d →
    lastSet dateSetBy before = some d ∨
      lastSet dateSetBy before = none ∧ dateText dr = dateLine d

section Effects

variable {w : InitWait} {b₀ b b' : Board ShadowRegs} {l : Line} {lines : List Line}

theorem perform_timeSet (t : Time) (h : (llRtcEnterInitMode w b.rtc).1 = .success) :
    (perform w b (.timeSet t)).2.rtc.tr = timeWord t.hours t.minutes t.seconds ∧
      (perform w b (.timeSet t)).2.rtc.dr = b.rtc.dr ∧
      (perform w b (.timeSet t)).2.odr = b.odr := by
  obtain ⟨-, hdr, -⟩ := enterInit_shadow w b.rtc
  simp only [perform, storeTime, Board.printf]
  rcases hinit : llRtcEnterInitMode w b.rtc with ⟨_ | _, r⟩
  · rw [hinit] at hdr
    exact ⟨rfl, hdr, rfl⟩
  · simp [hinit] at h

theorem perform_dateSet (d : Date) (h : (llRtcEnterInitMode w b.rtc).1 = .success) :
    (perform w b (.dateSet d)).2.rtc.tr = b.rtc.tr ∧
      (perform w b (.dateSet d)).2.rtc.dr = dateWord d.year d.month d.day ∧
      (perform w b (.dateSet d)).2.odr = b.odr := by
  obtain ⟨htr, -, -⟩ := enterInit_shadow w b.rtc
  simp only [perform, storeDate, Board.printf]
  rcases hinit : llRtcEnterInitMode w b.rtc with ⟨_ | _, r⟩
  · rw [hinit] at htr
    exact ⟨htr, rfl, rfl⟩
  · simp [hinit] at h

/-- Only bit 13 of the port changes, and the LED is on when it is low. -/
theorem perform_pinSet (w : InitWait) (on : Bool) (i : ℕ) :
    (perform w b (.pinSet on)).2.odr.getLsbD i = if i = 13 then !on else b.odr.getLsbD i := by
  have hmask : ∀ j < 32, llGpioPin13.getLsbD j = decide (j = 13) := by decide
  by_cases hi : i < 32
  · have hbit := hmask i hi
    cases on with
    | false =>
      have hall : b.odr &&& 0xffffffff#32 = b.odr := BitVec.and_allOnes
      have hset : llGpioSetOutputPin llGpioPin13 b.odr = b.odr ||| llGpioPin13 := by
        simp [llGpioSetOutputPin, writeBSRR, llGpioPin13, hall]
      simp only [perform, Bool.false_eq_true, if_false, hset, BitVec.getLsbD_or, hbit]
      split <;> simp_all
    | true =>
      have hreset : llGpioResetOutputPin llGpioPin13 b.odr = b.odr &&& ~~~llGpioPin13 := by
        simp [llGpioResetOutputPin, writeBSRR, llGpioPin13]
      simp only [perform, if_true, hreset, BitVec.getLsbD_and, BitVec.getLsbD_not, hi, hbit]
      split <;> simp_all
  · rw [if_neg (by omega), BitVec.getLsbD_of_ge _ i (by omega), BitVec.getLsbD_of_ge _ i (by omega)]

theorem answer_sets (h : EntersInit b l) (hb' : b' = (answer l.wait b (command l.text)).2) :
    ((timeSetBy l).elim (b'.rtc.tr = b.rtc.tr) fun t ↦ EncodesTime t b'.rtc.tr) ∧
    ((dateSetBy l).elim (b'.rtc.dr = b.rtc.dr) fun d ↦ dateFields b'.rtc.dr = bcdDate d) ∧
    ((pinSetBy l).elim (b'.odr = b.odr) fun on ↦
      ∀ i, b'.odr.getLsbD i = if i = 13 then !on else b.odr.getLsbD i) := by
  subst hb'
  simp only [timeSetBy, dateSetBy, pinSetBy]
  cases command l.text with
  | none => exact ⟨rfl, rfl, rfl⟩
  | some c =>
    cases c with
    | pinSet on => exact ⟨rfl, rfl, fun i ↦ perform_pinSet l.wait on i⟩
    | timeGet => exact ⟨rfl, rfl, rfl⟩
    | timeSet t =>
      obtain ⟨htr, hdr, hodr⟩ := perform_timeSet t h
      exact ⟨htr ▸ timeWord_encodes t, hdr, hodr⟩
    | dateGet => exact ⟨rfl, rfl, rfl⟩
    | dateSet d =>
      obtain ⟨htr, hdr, hodr⟩ := perform_dateSet d h
      exact ⟨htr, hdr ▸ dateFields_dateWord d, hodr⟩

theorem answer_frame (h : EntersInit b l) (hb' : b' = (answer l.wait b (command l.text)).2) :
    Frame l b b' := by
  obtain ⟨htr, hdr, hodr⟩ := answer_sets h hb'
  refine ⟨fun ht ↦ by simpa only [ht, Option.elim_none] using htr,
    fun hd ↦ by simpa only [hd, Option.elim_none] using hdr,
    fun hp ↦ by simpa only [hp, Option.elim_none] using hodr, fun i hi ↦ ?_⟩
  cases hp : pinSetBy l with
  | none =>
    rw [hp, Option.elim_none] at hodr
    rw [hodr]
  | some on =>
    rw [hp, Option.elim_some] at hodr
    rw [hodr i, if_neg hi]

theorem Holds.answer (hb : Holds b₀ lines b) (h : EntersInit b l)
    (hb' : b' = (answer l.wait b (command l.text)).2) : Holds b₀ (lines ++ [l]) b' := by
  obtain ⟨htr, hdr, hodr⟩ := answer_sets h hb'
  constructor <;> rw [lastSet_concat]
  · cases ht : timeSetBy l with
    | none =>
      rw [ht, Option.elim_none] at htr
      rw [Option.none_or, htr]
      exact hb.tr
    | some t => simpa only [ht, Option.some_or, Option.elim_some] using htr
  · cases hd : dateSetBy l with
    | none =>
      rw [hd, Option.elim_none] at hdr
      rw [Option.none_or, hdr]
      exact hb.dr
    | some d => simpa only [hd, Option.some_or, Option.elim_some] using hdr
  · cases hp : pinSetBy l with
    | none =>
      rw [hp, Option.elim_none] at hodr
      rw [Option.none_or, hodr]
      exact hb.pin
    | some on =>
      rw [hp, Option.elim_some] at hodr
      exact hodr 13

theorem run_holds (b₀ : Board ShadowRegs) (lines : List Line)
    (h : Along step EntersInit b₀ lines) :
    ∃ b, run step b₀ lines = some b ∧ Holds b₀ lines b := by
  induction lines using List.reverseRecOn with
  | nil => exact ⟨b₀, rfl, rfl, rfl, rfl⟩
  | append_singleton lines l ih =>
    obtain ⟨hlines, hl⟩ := along_concat.mp h
    obtain ⟨b, hrun, hb⟩ := ih hlines
    refine ⟨(Parse.answer l.wait b (command l.text)).2, ?_, hb.answer (hl b hrun) rfl⟩
    rw [run_append, hrun, Option.bind_some, run, step_eq]
    rfl

theorem answer_accepted (h : EntersInit b l) :
    (answer l.wait b (command l.text)).1 = (command l.text).isSome := by
  cases hc : command l.text with
  | none => rfl
  | some c =>
    cases c with
    | timeSet t => exact (storeTime_accepts l.wait b t).mpr h
    | dateSet d => exact (storeDate_accepts l.wait b d).mpr h
    | _ => rfl

end Effects

section Sessions

variable {b₀ b : Board ShadowRegs} {lines past : List Line} {l : Line} {d : Date}

theorem Holds.dateText_iff (h : Holds b₀ lines b) : dateText b.rtc.dr = dateLine d ↔
    lastSet dateSetBy lines = some d ∨
      lastSet dateSetBy lines = none ∧ dateText b₀.rtc.dr = dateLine d := by
  have hdr := h.dr
  cases hlast : lastSet dateSetBy lines with
  | none =>
    rw [hlast, Option.elim_none] at hdr
    simp [hdr]
  | some e =>
    rw [hlast, Option.elim_some] at hdr
    rw [dateText_fields hdr]
    constructor
    · intro heq
      exact .inl (congrArg some (dateLine_injective heq))
    · rintro (heq | ⟨heq, -⟩)
      · rw [Option.some.inj heq]
      · cases heq

/-- What a `date get` prints, by what came since the last one. -/
theorem shadow_shows_iff (hopen : b₀.rtc.frozen = none) (h : Along step EntersInit b₀ past)
    (hrun : run step b₀ past = some b) (hlast : lastSet dateSetBy past = some d) :
    dateText b.rtc.shadowDR = dateLine d ↔
      ∀ before l between, past = before ++ l :: between →
        ClosedBy (fun l ↦ l.text ∈ Command.timeGet.form) (fun l ↦ l.text ∈ Command.dateGet.form)
          before l between →
        lastSet dateSetBy before = some d ∨
          lastSet dateSetBy before = none ∧ dateText b₀.rtc.dr = dateLine d := by
  -- the text of the locked value, by the lines before the one that locked it
  have hlocked {before : List Line} {l : Line} {between : List Line}
      (hpast : past = before ++ l :: between)
      (hclosed : ClosedBy (fun l ↦ l.text ∈ Command.timeGet.form)
        (fun l ↦ l.text ∈ Command.dateGet.form) before l between) :
      dateText b.rtc.shadowDR = dateLine d ↔ lastSet dateSetBy before = some d ∨
        lastSet dateSetBy before = none ∧ dateText b₀.rtc.dr = dateLine d := by
    subst hpast
    obtain ⟨u, hu, hholds⟩ := run_holds b₀ before (along_left h)
    have hfrozen := (line_isLatch.held_iff hopen hrun).mpr
      ⟨before, l, between, u, rfl, hclosed, hu, rfl⟩
    rw [ShadowRegs.shadowDR, hfrozen]
    exact hholds.dateText_iff
  constructor
  · intro htext before l between hpast hclosed
    exact (hlocked hpast hclosed).mp htext
  · intro hall
    cases hfrozen : b.rtc.frozen with
    | none =>
      obtain ⟨b', hrun', hholds⟩ := run_holds b₀ past h
      cases hrun.symm.trans hrun'
      rw [ShadowRegs.shadowDR, hfrozen]
      exact hholds.dateText_iff.mpr (.inl hlast)
    | some v =>
      obtain ⟨before, l, between, -, hpast, hclosed, -⟩ :=
        (line_isLatch.held_iff hopen hrun).mp hfrozen
      exact (hlocked hpast hclosed).mpr (hall before l between hpast hclosed)

theorem setDateKept_of_sets_first {dr : Word} {first rest : List Line}
    (hfirst : ∀ l ∈ first, command l.text ≠ some .timeGet)
    (hrest : ∀ l ∈ rest, dateSetBy l = none) : SetDateKept dr (first ++ rest) := by
  intro before l between l' after d heq hclosed _ hlast
  -- the line that locks the shadow is none of `first`
  have hsub : ∃ mid, rest = mid ++ l :: (between ++ l' :: after) := by
    rcases List.append_eq_append_iff.mp heq with ⟨mid, -, hmid⟩ | ⟨mid, hbefore, hmid⟩
    · exact ⟨mid, hmid⟩
    · cases mid with
      | nil => exact ⟨[], hmid.symm⟩
      | cons m mid =>
        obtain ⟨rfl, -⟩ := List.cons.inj hmid
        exact absurd (command_eq_some.mpr hclosed.closes) (hfirst l (by simp [hbefore]))
  obtain ⟨mid, rfl⟩ := hsub
  rw [lastSet_append_of_none fun m hm ↦ hrest m (by grind)] at hlast
  exact .inl hlast

/-- From any registers whose shadow is not locked (only a `time get` locks it),
with the calendar at rest: the last writer wins throughout a session exactly when
no `date set` comes to another date between a `time get` and the next `date get`. -/
theorem last_writer_wins_iff (b₀ : Board ShadowRegs) (hopen : b₀.rtc.frozen = none)
    (lines : List Line) (h : Along step EntersInit b₀ lines) :
    LastWriterWins b₀ lines ↔ SetDateKept b₀.rtc.dr lines := by
  constructor
  · rintro ⟨-, hall⟩ before l between l' after d heq hclosed hget hlast
    have hsplit : lines = (before ++ l :: between) ++ l' :: after := by simp [heq]
    obtain ⟨b, r, b', hrun, -, hparse, -, -, -, hdate⟩ := hall _ l' after hsplit
    obtain ⟨b'', hparse', hout⟩ := parse_dateGet (b := b) hget
    cases hparse.symm.trans hparse'
    have hline := hdate hget d hlast
    rw [hout, List.append_cancel_left_eq, List.cons.injEq] at hline
    exact (shadow_shows_iff hopen (along_left (hsplit ▸ h)) hrun hlast).mp hline.1 before l between
      rfl hclosed
  · intro hkept
    refine ⟨run_holds b₀ lines h, fun past l after heq ↦ ?_⟩
    have hpast : Along step EntersInit b₀ past := along_left (heq ▸ h)
    obtain ⟨b, hrun, hb⟩ := run_holds b₀ past hpast
    have hl : EntersInit b l := along_iff_split.mp h past l after heq b hrun
    refine ⟨b, (answer l.wait b (command l.text)).1, (answer l.wait b (command l.text)).2, hrun, hb,
      parse_eq b l, ?_, answer_frame hl rfl, fun hget t ht ↦ ?_, fun hget d hd ↦ ?_⟩
    · rw [answer_accepted hl, Option.isSome_iff_exists]
      exact exists_congr fun c ↦ command_eq_some
    · have htr := hb.tr
      rw [ht] at htr
      rw [command_eq_some.mpr hget, answer, perform, printTime_encodes (b := b) htr]
      rfl
    · have htext : dateText b.rtc.shadowDR = dateLine d := by
        rw [shadow_shows_iff hopen hpast hrun hd]
        intro before l' between hsplit hclosed
        exact hkept before l' between l after d (by simp [heq, hsplit]) hclosed hget (hsplit ▸ hd)
      rw [command_eq_some.mpr hget, ← htext]
      rfl

end Sessions

section Samples

open Shadow (timeGetLine dateGetLine)

def timeSetLine : Line := ⟨str "time set 23:59:58\n", by decide, [], promptWait⟩

def dateSetLine : Line := ⟨str "date set 30:06:07\n", by decide, [], promptWait⟩

def pinSetLine : Line := ⟨str "pin set 1\n", by decide, [], promptWait⟩

/-- 2024-01-15, with the LED off -/
def sampleBoard : Board ShadowRegs := ⟨⟨0, 0x00242115#32, none, false, false⟩, 0x00002000#32, []⟩

def setsFirst : List Line :=
  [dateSetLine, timeSetLine, timeGetLine, dateGetLine, pinSetLine, dateGetLine, timeGetLine]

theorem setsFirst_last_writer_wins :
    (∃ b, run step sampleBoard setsFirst = some b ∧
      b.out.drop 2 = ["time is 23:59:58\r\n", "date is 2030:06:07\r\n", "date is 2030:06:07\r\n",
        "time is 23:59:58\r\n"]) ∧
    LastWriterWins sampleBoard setsFirst := by
  refine ⟨⟨_, rfl, by decide⟩, (last_writer_wins_iff sampleBoard rfl setsFirst ?_).mpr ?_⟩
  · exact along_entersInit (by decide) sampleBoard
  · rw [← List.take_append_drop 2 setsFirst]
    exact setDateKept_of_sets_first (by decide) (by decide)

/-- `time get`, `date set 30:06:07`, `date get`: the date before is printed. -/
theorem date_get_prints_date_before :
    (∃ b, run step sampleBoard [timeGetLine, dateSetLine, dateGetLine] = some b ∧
      (b.rtc.dr &&& 0x00ffffff#32) = 0x00300607#32 ∧
      b.out.getLast? = some "date is 2024:01:15\r\n") ∧
    ¬ LastWriterWins sampleBoard [timeGetLine, dateSetLine, dateGetLine] := by
  refine ⟨⟨_, rfl, by decide, by decide⟩, fun h ↦ ?_⟩
  obtain ⟨b, r, b', hrun, -, hparse, -, -, -, hdate⟩ :=
    h.2 [timeGetLine, dateSetLine] dateGetLine [] rfl
  cases hrun
  cases hparse
  have hout := hdate (command_eq_some.mp rfl) _ rfl
  exact absurd hout (by decide)

end Samples

end Tanenbaum.Cli.Cells
