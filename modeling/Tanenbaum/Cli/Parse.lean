import Tanenbaum.Cli.Grammar

namespace Tanenbaum.Cli.Parse

open Lib.CString Rtc Commands Grammar

variable {ρ : Type}

section Order

variable {buf : Str}

/-- A matcher that leaves a buffer alone, whatever the board. -/
def Inert (m : Matcher ρ) (buf : Str) : Prop := ∀ b, m buf b = some (false, b)

theorem tryMatchers_cons {m : Matcher ρ} {b : Board ρ} {r : Bool × Board ρ}
    (h : m buf b = some r) (ms : List (Matcher ρ)) :
    tryMatchers (m :: ms) buf b = if r.1 then some (true, r.2) else tryMatchers ms buf r.2 := by
  simp only [tryMatchers, h, Option.bind_eq_bind, Option.bind_some]
  rfl

theorem tryMatchers_last {m : Matcher ρ} {b : Board ρ} {r : Bool × Board ρ}
    (h : m buf b = some r) : tryMatchers [m] buf b = some r := by
  obtain ⟨accepted, b'⟩ := r
  rw [tryMatchers_cons h]
  cases accepted <;> rfl

theorem tryMatchers_inert {m : Matcher ρ} (h : Inert m buf) (ms : List (Matcher ρ)) (b : Board ρ) :
    tryMatchers (m :: ms) buf b = tryMatchers ms buf b := by
  simp [tryMatchers, h b]

/-- When at most one matcher is not inert, the order in which they are tried
changes neither the result nor the effects. -/
theorem tryMatchers_perm {ms ms' : List (Matcher ρ)} (hp : ms.Perm ms')
    (h : ms.Pairwise fun m m' ↦ Inert m buf ∨ Inert m' buf) (b : Board ρ) :
    tryMatchers ms buf b = tryMatchers ms' buf b := by
  induction hp generalizing b with
  | nil => rfl
  | cons m _ ih =>
    have hrest := ih (List.pairwise_cons.mp h).2
    simp only [tryMatchers, hrest]
  | swap m m' ms =>
    rcases (List.pairwise_cons.mp h).1 m (List.mem_cons_self ..) with hi | hi
    · rw [tryMatchers_inert hi]
      simp only [tryMatchers, hi _]
      rfl
    · rw [tryMatchers_inert hi]
      simp only [tryMatchers, hi _]
      rfl
  | trans hp₁ _ ih₁ ih₂ =>
    have hmid := (hp₁.pairwise_iff fun {_ _} hor ↦ hor.symm).mp h
    exact (ih₁ h b).trans (ih₂ hmid b)

end Order

variable [RtcPort ρ]

def perform (w : InitWait) (b : Board ρ) : Command → Bool × Board ρ
  | .pinSet on => (true, { b with odr :=
      if on then llGpioResetOutputPin llGpioPin13 b.odr else llGpioSetOutputPin llGpioPin13 b.odr })
  | .timeGet => (true, printTime b)
  | .timeSet t => storeTime w t.hours t.minutes t.seconds b
  | .dateGet => (true, printDate b)
  | .dateSet d => storeDate w d.year d.month d.day b

/-- The answer to a line: nothing happens when it spells no command. -/
def answer (w : InitWait) (b : Board ρ) : Option Command → Bool × Board ρ
  | none => (false, b)
  | some c => perform w b c

section Matchers

variable {s : Str} (w : InitWait) (b : Board ρ) (junk : Str)

theorem matchPinCmd_terminated (hs : 0 ∉ s) :
    matchPinCmd (terminated s junk) b = some (answer w b (pinCommand s)) := by
  simp only [matchPinCmd, skip_terminated, Option.bind_eq_bind, Option.bind_some,
    strncmpEq_afterWord (str "pin") (by decide) hs]
  cases hpin : afterWord (str "pin") s with
  | none => simp [pinCommand, hpin, answer]
  | some t =>
    have ht := afterWord_no_nul hs hpin
    have hdrop : List.drop 3 (terminated (s.dropWhile isblank) junk) = terminated t junk :=
      afterWord_drop hpin
    simp only [hdrop, skip_terminated, Option.bind_some, Option.isSome_some, if_true,
      strncmpEq_afterWord (str "set") (by decide) ht]
    cases hset : afterWord (str "set") t with
    | none => simp [pinCommand, hpin, hset, answer]
    | some u =>
      have hdrop : List.drop 3 (terminated (t.dropWhile isblank) junk) = terminated u junk :=
        afterWord_drop hset
      simp only [hdrop, skip_terminated, Option.bind_some, Option.isSome_some, if_true,
        pinCommand, hpin, hset]
      cases hu : u.dropWhile isblank with
      | nil => simp [terminated, pinArg, answer]
      | cons c v =>
        by_cases h0 : c = 48
        · simp [terminated, pinArg, h0, answer, perform]
        by_cases h1 : c = 49
        · simp [terminated, pinArg, h1, answer, perform]
        simp [terminated, pinArg, h0, h1, answer]

theorem setTimeFromStr_terminated (s : Str) : setTimeFromStr w (terminated s junk) b =
    some (answer w b ((timeArg s).map .timeSet)) := by
  simp only [setTimeFromStr]
  rw [scanFields_terminated (by decide) (by decide) (by decide)]
  cases hr : readFields s with
  | none => simp [timeArg, hr, answer]
  | some r =>
    simp only [Option.bind_some, Option.bind_eq_bind]
    by_cases hok : r.1 ≤ 23 ∧ r.2.1 ≤ 59 ∧ r.2.2 ≤ 59
    · have harg : timeArg s = some ⟨r.1, r.2.1, r.2.2, hok.1, hok.2.1, hok.2.2⟩ :=
        timeArg_eq_some.mpr hr
      rw [if_neg (by simp only [Bool.or_eq_true, decide_eq_true_eq]; omega), harg]
      rfl
    · rw [if_pos (by simp only [Bool.or_eq_true, decide_eq_true_eq]; omega), timeArg, hr,
        Option.bind_some, dif_neg hok]
      rfl

theorem setDateFromStr_terminated (s : Str) : setDateFromStr w (terminated s junk) b =
    some (answer w b ((dateArg s).map .dateSet)) := by
  simp only [setDateFromStr]
  rw [scanFields_terminated (by decide) (by decide) (by decide)]
  cases hr : readFields s with
  | none => simp [dateArg, hr, answer]
  | some r =>
    have hyear : r.1 < 100 := (readFields_eq_some.mp hr).1.1
    simp only [Option.bind_some, Option.bind_eq_bind]
    by_cases hok : r.1 ≤ 99 ∧ (1 ≤ r.2.1 ∧ r.2.1 ≤ 12) ∧ (1 ≤ r.2.2 ∧ r.2.2 ≤ 31)
    · have harg : dateArg s = some ⟨r.1, r.2.1, r.2.2, hok.1, hok.2.1.1, hok.2.1.2, hok.2.2.1,
          hok.2.2.2⟩ := dateArg_eq_some.mpr hr
      rw [if_neg (by simp only [Bool.or_eq_true, decide_eq_true_eq]; omega), harg]
      rfl
    · rw [if_pos (by simp only [Bool.or_eq_true, decide_eq_true_eq]; omega), dateArg, hr,
        Option.bind_some, dif_neg hok]
      rfl

theorem matchCalendarCmd_terminated {word : Str} (hlen : word.length = 4) (hw : 0 ∉ word)
    {set : Matcher ρ} {arg : Str → Option Command}
    (hset : ∀ u, set (terminated u junk) b = some (answer w b (arg u)))
    {print : Board ρ → Board ρ} {get : Command} (hget : perform w b get = (true, print b))
    (hs : 0 ∉ s) :
    matchCalendarCmd word set print (terminated s junk) b =
      some (answer w b (calendarCommand word arg get s)) := by
  simp only [matchCalendarCmd, skip_terminated, Option.bind_eq_bind, Option.bind_some,
    strncmpEq_afterWord word hw hs]
  cases hword : afterWord word s with
  | none => simp [calendarCommand, hword, answer]
  | some t =>
    have ht := afterWord_no_nul hs hword
    have hdrop : List.drop 4 (terminated (s.dropWhile isblank) junk) = terminated t junk :=
      hlen ▸ afterWord_drop hword
    simp only [hdrop, skip_terminated, Option.bind_some, Option.isSome_some, if_true,
      strncmpEq_afterWord (str "set") (by decide) ht,
      strncmpEq_afterWord (str "get") (by decide) ht]
    cases harg : afterWord (str "set") t with
    | none => cases hshow : afterWord (str "get") t <;>
        simp [calendarCommand, hword, harg, hshow, answer, hget]
    | some u =>
      have hdrop : List.drop 3 (terminated (t.dropWhile isblank) junk) = terminated u junk :=
        afterWord_drop harg
      simp [hdrop, skip_terminated, calendarCommand, hword, harg, hset]

theorem matchTimeCmd_terminated (hs : 0 ∉ s) :
    matchTimeCmd w (terminated s junk) b = some (answer w b (timeCommand s)) :=
  matchCalendarCmd_terminated w b junk rfl (by decide)
    (fun u ↦ setTimeFromStr_terminated w b junk u) rfl hs

theorem matchDateCmd_terminated (hs : 0 ∉ s) :
    matchDateCmd w (terminated s junk) b = some (answer w b (dateCommand s)) :=
  matchCalendarCmd_terminated w b junk rfl (by decide)
    (fun u ↦ setDateFromStr_terminated w b junk u) rfl hs

end Matchers

section Exclusion

variable {s : Str} (w : InitWait) (junk : Str)

theorem pinCommand_none (h : afterWord (str "pin") s = none) : pinCommand s = none := by
  simp only [pinCommand, h, Option.bind_none]

theorem calendarCommand_none {word : Str} {arg : Str → Option Command} {get : Command}
    (h : afterWord word s = none) : calendarCommand word arg get s = none := by
  simp only [calendarCommand, h, Option.bind_none]

theorem afterWord_none_or (word word' s : Str) (hne : ¬ (word <+: word' ∨ word' <+: word)) :
    afterWord word s = none ∨ afterWord word' s = none := by
  cases h : afterWord word s with
  | none => exact .inl rfl
  | some t => exact .inr (afterWord_none_of_some h hne)

include w in
theorem matchPinCmd_inert (hs : 0 ∉ s) (h : afterWord (str "pin") s = none) :
    Inert (matchPinCmd (ρ := ρ)) (terminated s junk) := fun b ↦ by
  rw [matchPinCmd_terminated w b junk hs, pinCommand_none h, answer]

theorem matchTimeCmd_inert (hs : 0 ∉ s) (h : afterWord (str "time") s = none) :
    Inert (matchTimeCmd (ρ := ρ) w) (terminated s junk) := fun b ↦ by
  rw [matchTimeCmd_terminated w b junk hs, timeCommand, calendarCommand_none h, answer]

theorem matchDateCmd_inert (hs : 0 ∉ s) (h : afterWord (str "date") s = none) :
    Inert (matchDateCmd (ρ := ρ) w) (terminated s junk) := fun b ↦ by
  rw [matchDateCmd_terminated w b junk hs, dateCommand, calendarCommand_none h, answer]

theorem matchers_exclusive (hs : 0 ∉ s) : (matchers (ρ := ρ) w).Pairwise fun m m' ↦
    Inert m (terminated s junk) ∨ Inert m' (terminated s junk) := by
  have hi2c : Inert (matchI2cCmd (ρ := ρ)) (terminated s junk) := fun b ↦ rfl
  have hpin := matchPinCmd_inert (ρ := ρ) w junk hs
  have htime := matchTimeCmd_inert (ρ := ρ) w junk hs
  have hdate := matchDateCmd_inert (ρ := ρ) w junk hs
  have hpt := afterWord_none_or (str "pin") (str "time") s (by decide)
  have hpd := afterWord_none_or (str "pin") (str "date") s (by decide)
  have htd := afterWord_none_or (str "time") (str "date") s (by decide)
  simp only [matchers, List.pairwise_cons, List.mem_cons, List.not_mem_nil, or_false,
    forall_eq_or_imp, forall_eq, IsEmpty.forall_iff, implies_true, List.Pairwise.nil, and_true]
  exact ⟨⟨.inr hi2c, hpt.imp hpin htime, hpd.imp hpin hdate⟩, ⟨.inl hi2c, .inl hi2c⟩,
    htd.imp htime hdate⟩

end Exclusion

section Acceptance

variable {s : Str} (w : InitWait) (b : Board ρ) (junk : Str)

/-- On a terminated line `parse_string` does what the command that the line
spells does, and nothing when it spells none. -/
theorem parseString_terminated (hs : 0 ∉ s) :
    parseString w (terminated s junk) b = some (answer w b (command s)) := by
  rw [parseString, matchers, tryMatchers_cons (matchPinCmd_terminated w b junk hs), command]
  cases hpin : pinCommand s with
  | some c =>
    obtain ⟨on, rfl, -⟩ := pinCommand_eq_some.mp hpin
    rfl
  | none =>
    rw [answer, if_neg Bool.false_ne_true, tryMatchers_inert fun _ ↦ rfl, Option.none_or]
    cases htime : timeCommand s with
    | none =>
      rw [tryMatchers_cons (matchTimeCmd_terminated w b junk hs), htime, answer,
        if_neg Bool.false_ne_true, tryMatchers_last (matchDateCmd_terminated w b junk hs),
        Option.none_or]
    | some c =>
      -- `match_date_cmd` also runs after a `time set` that failed to enter initialization mode
      obtain ⟨t, ht, -⟩ := calendarCommand_eq_some.mp htime
      have hdate := matchDateCmd_inert (ρ := ρ) w junk hs (afterWord_none_of_some ht (by decide))
      have hlast := tryMatchers_last (matchTimeCmd_terminated w b junk hs)
      rw [tryMatchers_cons (matchTimeCmd_terminated w b junk hs), tryMatchers_inert hdate,
        ← tryMatchers_cons (matchTimeCmd_terminated w b junk hs), hlast, htime, Option.some_or]

theorem command_of_time {c : Command} (h : timeCommand s = some c) : command s = some c := by
  obtain ⟨t, ht, -⟩ := calendarCommand_eq_some.mp h
  rw [command, pinCommand_none (afterWord_none_of_some ht (by decide)), h]
  rfl

theorem command_of_date {c : Command} (h : dateCommand s = some c) : command s = some c := by
  obtain ⟨t, ht, -⟩ := calendarCommand_eq_some.mp h
  rw [command, pinCommand_none (afterWord_none_of_some ht (by decide)), timeCommand,
    calendarCommand_none (afterWord_none_of_some ht (by decide)), h]
  rfl

theorem command_eq_some {c : Command} : command s = some c ↔ s ∈ c.form := by
  constructor
  · intro h
    simp only [command, Option.or_eq_some_iff] at h
    rcases h with h | ⟨-, h | ⟨-, h⟩⟩
    · obtain ⟨on, rfl, hmem⟩ := pinCommand_eq_some.mp h
      exact hmem
    · rcases timeCommand_eq_some.mp h with ⟨rfl, hmem⟩ | ⟨time, rfl, hmem⟩ <;> exact hmem
    · rcases dateCommand_eq_some.mp h with ⟨rfl, hmem⟩ | ⟨date, rfl, hmem⟩ <;> exact hmem
  · intro hmem
    cases c with
    | pinSet on => rw [command, pinCommand_eq_some.mpr ⟨on, rfl, hmem⟩, Option.some_or]
    | timeGet => exact command_of_time (timeCommand_eq_some.mpr (.inl ⟨rfl, hmem⟩))
    | timeSet time => exact command_of_time (timeCommand_eq_some.mpr (.inr ⟨time, rfl, hmem⟩))
    | dateGet => exact command_of_date (dateCommand_eq_some.mpr (.inl ⟨rfl, hmem⟩))
    | dateSet date => exact command_of_date (dateCommand_eq_some.mpr (.inr ⟨date, rfl, hmem⟩))

theorem storeTime_accepts (t : Time) :
    (perform w b (.timeSet t)).1 = true ↔ (llRtcEnterInitMode w b.rtc).1 = .success := by
  simp only [perform, storeTime, Board.printf]
  rcases llRtcEnterInitMode w b.rtc with ⟨_ | _, rtc⟩ <;> simp

theorem storeDate_accepts (d : Date) :
    (perform w b (.dateSet d)).1 = true ↔ (llRtcEnterInitMode w b.rtc).1 = .success := by
  simp only [perform, storeDate]
  rcases llRtcEnterInitMode w b.rtc with ⟨_ | _, rtc⟩ <;> simp

/-- The lines the CLI accepts; a `set` on the RTC must also enter initialization mode. -/
def Accepted (entersInit : Prop) (s : Str) : Prop :=
  (∃ on, s ∈ (Command.pinSet on).form) ∨
  s ∈ Command.timeGet.form ∨ (∃ t, s ∈ (Command.timeSet t).form ∧ entersInit) ∨
  s ∈ Command.dateGet.form ∨ (∃ d, s ∈ (Command.dateSet d).form ∧ entersInit)

theorem answer_accepts :
    (answer w b (command s)).1 = true ↔ Accepted ((llRtcEnterInitMode w b.rtc).1 = .success) s := by
  constructor
  · intro h
    cases hc : command s with
    | none => simp [hc, answer] at h
    | some c =>
      rw [hc, answer] at h
      have hmem := command_eq_some.mp hc
      cases c with
      | pinSet on => exact .inl ⟨on, hmem⟩
      | timeGet => exact .inr (.inl hmem)
      | timeSet t => exact .inr (.inr (.inl ⟨t, hmem, (storeTime_accepts w b t).mp h⟩))
      | dateGet => exact .inr (.inr (.inr (.inl hmem)))
      | dateSet d => exact .inr (.inr (.inr (.inr ⟨d, hmem, (storeDate_accepts w b d).mp h⟩)))
  · rintro (⟨on, hmem⟩ | hmem | ⟨t, hmem, hinit⟩ | hmem | ⟨d, hmem, hinit⟩) <;>
      rw [command_eq_some.mpr hmem, answer]
    · rfl
    · rfl
    · exact (storeTime_accepts w b t).mpr hinit
    · rfl
    · exact (storeDate_accepts w b d).mpr hinit

/-- `parse_string` returns 1 exactly on the lines of the command language, at
most one of its matchers accepts a line, and any other order of the matchers
gives the same result and the same effects. -/
theorem parseString_accepts_language (hs : 0 ∉ s) :
    (∃ r b', parseString w (terminated s junk) b = some (r, b') ∧
      (r = true ↔ Accepted ((llRtcEnterInitMode w b.rtc).1 = .success) s)) ∧
    (matchers (ρ := ρ) w).Pairwise (fun m m' ↦ ∀ b₁ b₁' b₂ b₂',
      ¬ (m (terminated s junk) b₁ = some (true, b₁') ∧
        m' (terminated s junk) b₂ = some (true, b₂'))) ∧
    ∀ ms, ms.Perm (matchers w) →
      tryMatchers ms (terminated s junk) b = parseString w (terminated s junk) b := by
  have hexcl := matchers_exclusive (ρ := ρ) w junk hs
  refine ⟨⟨_, _, parseString_terminated w b junk hs, answer_accepts w b⟩, ?_, fun ms hp ↦ ?_⟩
  · refine hexcl.imp fun hinert b₁ b₁' b₂ b₂' ⟨h, h'⟩ ↦ ?_
    rcases hinert with hi | hi
    · simp [hi b₁] at h
    · simp [hi b₂] at h'
  · exact (tryMatchers_perm hp.symm hexcl b).symm

theorem parseString_accepts_time_set_line :
    (∃ r b', parseString (ρ := Regs) ⟨true, [], rfl⟩ (terminated (str " time set 12:30:45") [7])
        ⟨⟨0, 0, false, false, []⟩, 0, []⟩ = some (r, b') ∧
      (r = true ↔ Accepted (ErrorStatus.success = .success) (str " time set 12:30:45"))) :=
  (parseString_accepts_language (ρ := Regs) ⟨true, [], rfl⟩ ⟨⟨0, 0, false, false, []⟩, 0, []⟩ [7]
    (by decide)).1

end Acceptance

end Tanenbaum.Cli.Parse
