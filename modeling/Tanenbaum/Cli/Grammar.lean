import Tanenbaum.Cli.Commands

namespace Tanenbaum.Cli.Grammar

open Lib.CString Rtc Commands

/-- A time of day that `set_time_from_str` lets through. -/
structure Time where
  hours : ℕ
  minutes : ℕ
  seconds : ℕ
  hours_le : hours ≤ 23
  minutes_le : minutes ≤ 59
  seconds_le : seconds ≤ 59
  deriving DecidableEq

structure Date where
  year : ℕ
  month : ℕ
  day : ℕ
  year_le : year ≤ 99
  month_pos : 1 ≤ month
  month_le : month ≤ 12
  day_pos : 1 ≤ day
  day_le : day ≤ 31
  deriving DecidableEq

/-- The commands of the CLI. `pinSet on` lights the LED when `on` is true. -/
inductive Command
  | pinSet (on : Bool)
  | timeGet
  | timeSet (time : Time)
  | dateGet
  | dateSet (date : Date)
  deriving DecidableEq

def blanks : Language UInt8 := wordsOf isblank

def anything : Language UInt8 := ⊤

def digits2 (n : ℕ) : Str := [UInt8.ofNat (48 + n / 10), UInt8.ofNat (48 + n % 10)]

def fields (a b c : ℕ) : Str := digits2 a ++ 58 :: (digits2 b ++ 58 :: digits2 c)

/-- The lines that spell a command. -/
def Command.form : Command → Language UInt8
  | .pinSet on => blanks * ({str "pin"} * (blanks * ({str "set"} *
      (blanks * ({[if on then 49 else 48]} * anything)))))
  | .timeGet => blanks * ({str "time"} * (blanks * ({str "get"} * anything)))
  | .timeSet t => blanks * ({str "time"} * (blanks * ({str "set"} *
      (blanks * ({fields t.hours t.minutes t.seconds} * anything)))))
  | .dateGet => blanks * ({str "date"} * (blanks * ({str "get"} * anything)))
  | .dateSet d => blanks * ({str "date"} * (blanks * ({str "set"} *
      (blanks * ({fields d.year d.month d.day} * anything)))))

section Scanning

variable {s t junk word : Str}

def afterWord (word s : Str) : Option Str :=
  if word <+: s.dropWhile isblank then some ((s.dropWhile isblank).drop word.length) else none

theorem afterWord_eq_some : afterWord word s = some t ↔ s.dropWhile isblank = word ++ t := by
  unfold afterWord
  constructor
  · intro h
    split at h
    · next hp =>
      obtain ⟨u, hu⟩ := hp
      rw [← hu, List.drop_left, Option.some.injEq] at h
      rw [← hu, h]
    · cases h
  · intro h
    rw [h, if_pos (List.prefix_append word t), List.drop_left]

theorem mem_blanks_word_mul {c : UInt8} (hc : isblank c = false) {L : Language UInt8} :
    s ∈ blanks * ({c :: word} * L) ↔ ∃ t, afterWord (c :: word) s = some t ∧ t ∈ L := by
  rw [blanks, mem_wordsOf_mul, mem_singleton_mul]
  · simp only [afterWord_eq_some]
  · intro u hu
    obtain ⟨v, rfl, -⟩ := mem_singleton_mul.mp hu
    exact ⟨c, word ++ v, rfl, hc⟩

theorem skip_terminated (s junk : Str) :
    skipWhile isblank (terminated s junk) = some (terminated (s.dropWhile isblank) junk) :=
  skipWhile_terminated (by decide) s junk

theorem dropWhile_no_nul (hs : 0 ∉ s) : 0 ∉ s.dropWhile isblank :=
  fun h ↦ hs ((List.dropWhile_suffix isblank).subset h)

theorem afterWord_no_nul (hs : 0 ∉ s) (h : afterWord word s = some t) : 0 ∉ t := by
  have hd := dropWhile_no_nul hs
  rw [afterWord_eq_some.mp h, List.mem_append, not_or] at hd
  exact hd.2

theorem afterWord_drop (h : afterWord word s = some t) :
    (terminated (s.dropWhile isblank) junk).drop word.length = terminated t junk := by
  rw [afterWord_eq_some.mp h, terminated_drop (by simp), List.drop_left]

theorem strncmpEq_afterWord (word : Str) (hw : 0 ∉ word) (hs : 0 ∉ s) :
    strncmpEq (terminated (s.dropWhile isblank) junk) word = some (afterWord word s).isSome := by
  rw [strncmpEq_terminated hw (dropWhile_no_nul hs)]
  unfold afterWord
  split <;> simp [*]

theorem afterWord_exclusive {word' t' : Str} (h : afterWord word s = some t)
    (h' : afterWord word' s = some t') : word <+: word' ∨ word' <+: word := by
  have he := (afterWord_eq_some.mp h).symm.trans (afterWord_eq_some.mp h')
  rcases List.append_eq_append_iff.mp he with ⟨u, hu, -⟩ | ⟨u, hu, -⟩
  · exact .inl ⟨u, hu.symm⟩
  · exact .inr ⟨u, hu.symm⟩

end Scanning

section Numbers

variable {s t junk : Str} {n : ℕ}

theorem toNat_digit (h : n < 10) : (UInt8.ofNat (48 + n)).toNat = 48 + n := by
  rw [UInt8.toNat_ofNat']
  omega

theorem isdigit_iff {c : UInt8} : isdigit c = true ↔ 48 ≤ c.toNat ∧ c.toNat ≤ 57 := by
  simp [isdigit, UInt8.le_iff_toNat_le]

def readNum : Str → Option (ℕ × Str)
  | c :: d :: t =>
    if isdigit c && isdigit d then some ((c.toNat - 48) * 10 + (d.toNat - 48), t) else none
  | _ => none

theorem readNum_eq_some : readNum s = some (n, t) ↔ n < 100 ∧ s = digits2 n ++ t := by
  constructor
  · intro h
    match s, h with
    | c :: d :: u, h =>
      simp only [readNum, Option.ite_none_right_eq_some, Bool.and_eq_true, isdigit_iff,
        Option.some.injEq, Prod.mk.injEq] at h
      obtain ⟨⟨hc, hd⟩, hn, rfl⟩ := h
      have hten : 48 + n / 10 = c.toNat := by omega
      have hone : 48 + n % 10 = d.toNat := by omega
      refine ⟨by omega, ?_⟩
      simp [digits2, hten, hone]
  · rintro ⟨hn, rfl⟩
    have hten := toNat_digit (n := n / 10) (by omega)
    have hone := toNat_digit (n := n % 10) (by omega)
    simp only [digits2, List.cons_append, List.nil_append, readNum,
      Option.ite_none_right_eq_some, Bool.and_eq_true, isdigit_iff, hten, hone,
      Option.some.injEq, Prod.mk.injEq, and_true]
    omega

theorem getNumFromStr_terminated (s junk : Str) : getNumFromStr (terminated s junk) =
    some ((readNum s).elim (-1) fun r ↦ (r.1 : ℤ)) := by
  match s with
  | [] => simp [terminated, getNumFromStr, readNum, isdigit]
  | [c] => simp [terminated, getNumFromStr, readNum, isdigit]
  | c :: d :: t =>
    cases hc : isdigit c
    · simp [terminated, getNumFromStr, readNum, hc]
    cases hd : isdigit d
    · simp [terminated, getNumFromStr, readNum, hc, hd]
    have hc' := isdigit_iff.mp hc
    have hd' := isdigit_iff.mp hd
    simp only [terminated, getNumFromStr, readNum, hc, hd, List.cons_append,
      List.getElem?_cons_zero, List.getElem?_cons_succ, Option.bind_eq_bind, Option.bind_some,
      Bool.not_true, Bool.false_eq_true, if_false, Bool.and_self, if_true, Option.elim_some,
      Option.pure_def, Option.some.injEq]
    omega

def readColon : Str → Option Str
  | c :: t => if c = 58 then some t else none
  | [] => none

theorem readColon_eq_some : readColon s = some t ↔ s = 58 :: t := by
  match s with
  | [] => simp [readColon]
  | c :: u => simp [readColon]

def readFields (s : Str) : Option (ℕ × ℕ × ℕ) :=
  (readNum s).bind fun r₁ ↦ (readColon r₁.2).bind fun t₁ ↦
  (readNum t₁).bind fun r₂ ↦ (readColon r₂.2).bind fun t₂ ↦
  (readNum t₂).map fun r₃ ↦ (r₁.1, r₂.1, r₃.1)

theorem readFields_eq_some {a b c : ℕ} : readFields s = some (a, b, c) ↔
    (a < 100 ∧ b < 100 ∧ c < 100) ∧ ∃ t, s = fields a b c ++ t := by
  simp only [readFields, Option.bind_eq_some_iff, Option.map_eq_some_iff, Prod.exists,
    readNum_eq_some, readColon_eq_some, Prod.mk.injEq]
  constructor
  · rintro ⟨_, _, ⟨ha, rfl⟩, _, rfl, _, _, ⟨hb, rfl⟩, _, rfl, _, t, ⟨hc, rfl⟩, rfl, rfl, rfl⟩
    exact ⟨⟨ha, hb, hc⟩, t, by simp [fields]⟩
  · rintro ⟨⟨ha, hb, hc⟩, t, rfl⟩
    exact ⟨a, _, ⟨ha, by simp [fields]⟩, _, rfl, b, _, ⟨hb, rfl⟩, _, rfl, c, t, ⟨hc, rfl⟩,
      rfl, rfl, rfl⟩

theorem colon_missing (h : readNum s = some (n, t)) (hc : readColon t = none) (junk : Str) :
    ∃ c, (terminated s junk)[2]? = some c ∧ c ≠ 58 := by
  obtain ⟨-, rfl⟩ := readNum_eq_some.mp h
  match t, hc with
  | [], _ => exact ⟨0, rfl, by decide⟩
  | c :: u, hc =>
    refine ⟨c, rfl, fun h58 ↦ ?_⟩
    simp [readColon, h58] at hc

theorem colon_found {u : Str} (h : readNum s = some (n, t)) (hc : readColon t = some u)
    (junk : Str) : (terminated s junk)[2]? = some 58 ∧
      (terminated s junk).drop 3 = terminated u junk := by
  obtain ⟨-, rfl⟩ := readNum_eq_some.mp h
  obtain rfl := readColon_eq_some.mp hc
  exact ⟨rfl, rfl⟩

/-- With tests that reject `-1`, the scan of three fields never reads past the
terminator and finds the numbers the line spells. -/
theorem scanFields_terminated {bad₁ bad₂ bad₃ : ℤ → Bool} (h₁ : bad₁ (-1) = true)
    (h₂ : bad₂ (-1) = true) (h₃ : bad₃ (-1) = true) (s junk : Str) :
    scanFields bad₁ bad₂ bad₃ (terminated s junk) = some ((readFields s).bind fun r ↦
      if bad₁ r.1 || bad₂ r.2.1 || bad₃ r.2.2 then none else some (↑r.1, ↑r.2.1, ↑r.2.2)) := by
  rw [scanFields, getNumFromStr_terminated]
  cases hn₁ : readNum s with
  | none => simp [readFields, hn₁, h₁]
  | some r₁ =>
    by_cases hb₁ : bad₁ r₁.1
    · simp [readFields, hn₁, hb₁, Option.bind_assoc, Option.bind_map]
    cases hc₁ : readColon r₁.2 with
    | none =>
      obtain ⟨c, hc, hne⟩ := colon_missing hn₁ hc₁ junk
      simp [readFields, hn₁, hc₁, hc, hne]
    | some t₁ =>
      obtain ⟨hc, hd⟩ := colon_found hn₁ hc₁ junk
      have h5 : (terminated s junk)[5]? = (terminated t₁ junk)[2]? := by
        rw [← hd, List.getElem?_drop]
      have h6 : (terminated s junk).drop 6 = (terminated t₁ junk).drop 3 := by
        rw [← hd, List.drop_drop]
      simp only [readFields, hn₁, hb₁, hc₁, hc, hd, h5, h6, getNumFromStr_terminated,
        Option.elim_some, Option.bind_eq_bind, Option.bind_some, Bool.false_eq_true, if_false,
        ne_eq, not_true_eq_false]
      cases hn₂ : readNum t₁ with
      | none => simp [h₂]
      | some r₂ =>
        by_cases hb₂ : bad₂ r₂.1
        · simp [hb₂, Option.bind_assoc, Option.bind_map]
        cases hc₂ : readColon r₂.2 with
        | none =>
          obtain ⟨c, hc, hne⟩ := colon_missing hn₂ hc₂ junk
          simp [hb₂, hc₂, hc, hne]
        | some t₂ =>
          obtain ⟨hc, hd⟩ := colon_found hn₂ hc₂ junk
          cases hn₃ : readNum t₂ with
          | none => simp [hb₂, hc₂, hc, hd, getNumFromStr_terminated, hn₃, h₃]
          | some r₃ =>
            by_cases hb₃ : bad₃ r₃.1 <;>
              simp [hb₁, hb₂, hb₃, hc₂, hc, hd, getNumFromStr_terminated, hn₃]

end Numbers

section Recognition

variable {s t : Str}

def timeArg (s : Str) : Option Time := (readFields s).bind fun r ↦
  if h : r.1 ≤ 23 ∧ r.2.1 ≤ 59 ∧ r.2.2 ≤ 59 then
    some ⟨r.1, r.2.1, r.2.2, h.1, h.2.1, h.2.2⟩ else none

def dateArg (s : Str) : Option Date := (readFields s).bind fun r ↦
  if h : r.1 ≤ 99 ∧ (1 ≤ r.2.1 ∧ r.2.1 ≤ 12) ∧ (1 ≤ r.2.2 ∧ r.2.2 ≤ 31) then
    some ⟨r.1, r.2.1, r.2.2, h.1, h.2.1.1, h.2.1.2, h.2.2.1, h.2.2.2⟩ else none

def pinArg : Str → Option Bool
  | c :: _ => if c = 48 then some false else if c = 49 then some true else none
  | [] => none

def pinCommand (s : Str) : Option Command :=
  (afterWord (str "pin") s).bind fun t ↦ (afterWord (str "set") t).bind fun u ↦
    (pinArg (u.dropWhile isblank)).map .pinSet

def calendarCommand (word : Str) (arg : Str → Option Command) (get : Command) (s : Str) :
    Option Command :=
  (afterWord word s).bind fun t ↦
    match afterWord (str "set") t with
    | some u => arg (u.dropWhile isblank)
    | none => (afterWord (str "get") t).map fun _ ↦ get

def timeCommand : Str → Option Command :=
  calendarCommand (str "time") (fun u ↦ (timeArg u).map .timeSet) .timeGet

def dateCommand : Str → Option Command :=
  calendarCommand (str "date") (fun u ↦ (dateArg u).map .dateSet) .dateGet

/-- The command a line spells, if it spells one. -/
def command (s : Str) : Option Command :=
  (pinCommand s).or ((timeCommand s).or (dateCommand s))

theorem mem_blanks_fields_mul {a b c : ℕ} (ha : a < 100) (hb : b < 100) (hc : c < 100) :
    s ∈ blanks * ({fields a b c} * anything) ↔
      readFields (s.dropWhile isblank) = some (a, b, c) := by
  have hblank : isblank (UInt8.ofNat (48 + a / 10)) = false := by
    have hd := toNat_digit (n := a / 10) (by omega)
    rw [Bool.eq_false_iff]
    intro h
    simp only [isblank, Bool.or_eq_true, beq_iff_eq] at h
    rcases h with h | h <;> rw [h] at hd <;> simp at hd <;> omega
  rw [readFields_eq_some]
  have hform : s ∈ blanks * ({fields a b c} * anything) ↔
      ∃ t, afterWord (fields a b c) s = some t ∧ t ∈ anything := mem_blanks_word_mul hblank
  refine hform.trans ⟨fun ⟨t, ht, _⟩ ↦ ⟨⟨ha, hb, hc⟩, t, afterWord_eq_some.mp ht⟩, ?_⟩
  rintro ⟨-, t, ht⟩
  exact ⟨t, afterWord_eq_some.mpr ht, trivial⟩

theorem mem_blanks_char_mul {c : UInt8} (hc : isblank c = false) :
    s ∈ blanks * ({[c]} * anything) ↔ ∃ t, s.dropWhile isblank = c :: t := by
  rw [mem_blanks_word_mul hc]
  simp only [afterWord_eq_some, List.cons_append, List.nil_append]
  exact ⟨fun ⟨t, ht, _⟩ ↦ ⟨t, ht⟩, fun ⟨t, ht⟩ ↦ ⟨t, ht, trivial⟩⟩

theorem afterWord_none_of_some {word word' : Str} (h : afterWord word s = some t)
    (hne : ¬ (word <+: word' ∨ word' <+: word)) : afterWord word' s = none :=
  Option.eq_none_iff_forall_ne_some.mpr fun _ h' ↦ hne (afterWord_exclusive h h')

theorem pinArg_eq_some {on : Bool} :
    pinArg s = some on ↔ ∃ t, s = (if on then 49 else 48) :: t := by
  match s with
  | [] => simp [pinArg]
  | c :: u =>
    by_cases h0 : c = 48
    · subst h0
      cases on <;> simp [pinArg]
    · by_cases h1 : c = 49
      · subst h1
        cases on <;> simp [pinArg]
      · cases on <;> simp [pinArg, h0, h1]

theorem pinCommand_eq_some {c : Command} :
    pinCommand s = some c ↔ ∃ on, c = .pinSet on ∧ s ∈ (Command.pinSet on).form := by
  have hform (on : Bool) : s ∈ (Command.pinSet on).form ↔ ∃ t, afterWord (str "pin") s = some t ∧
      ∃ u, afterWord (str "set") t = some u ∧ pinArg (u.dropWhile isblank) = some on := by
    refine (mem_blanks_word_mul (by decide)).trans (exists_congr fun t ↦ and_congr_right' ?_)
    refine (mem_blanks_word_mul (by decide)).trans (exists_congr fun u ↦ and_congr_right' ?_)
    rw [mem_blanks_char_mul (by cases on <;> decide), pinArg_eq_some]
  simp only [pinCommand, Option.bind_eq_some_iff, Option.map_eq_some_iff, hform]
  constructor
  · rintro ⟨t, ht, u, hu, on, hon, rfl⟩
    exact ⟨on, rfl, t, ht, u, hu, hon⟩
  · rintro ⟨on, rfl, t, ht, u, hu, hon⟩
    exact ⟨t, ht, u, hu, on, hon, rfl⟩

theorem calendarCommand_eq_some {word : Str} {arg : Str → Option Command} {get c : Command} :
    calendarCommand word arg get s = some c ↔ ∃ t, afterWord word s = some t ∧
      ((∃ u, afterWord (str "set") t = some u ∧ arg (u.dropWhile isblank) = some c) ∨
       ((∃ u, afterWord (str "get") t = some u) ∧ get = c)) := by
  simp only [calendarCommand, Option.bind_eq_some_iff]
  refine exists_congr fun t ↦ and_congr_right' ?_
  cases hset : afterWord (str "set") t with
  | none =>
    simp only [Option.map_eq_some_iff, reduceCtorEq, false_and, exists_false, false_or]
    exact ⟨fun ⟨u, hu, hc⟩ ↦ ⟨⟨u, hu⟩, hc⟩, fun ⟨⟨u, hu⟩, hc⟩ ↦ ⟨u, hu, hc⟩⟩
  | some u =>
    have hget : afterWord (str "get") t = none := afterWord_none_of_some hset (by decide)
    simp only [hget, Option.some.injEq, exists_eq_left', reduceCtorEq, exists_false, false_and,
      or_false]

theorem timeArg_eq_some {time : Time} : timeArg s = some time ↔
    readFields s = some (time.hours, time.minutes, time.seconds) := by
  simp only [timeArg, Option.bind_eq_some_iff, Prod.exists]
  constructor
  · rintro ⟨a, b, c, hr, h⟩
    split at h
    · obtain rfl := Option.some.inj h
      exact hr
    · cases h
  · intro hr
    exact ⟨_, _, _, hr, dif_pos ⟨time.hours_le, time.minutes_le, time.seconds_le⟩⟩

theorem dateArg_eq_some {date : Date} : dateArg s = some date ↔
    readFields s = some (date.year, date.month, date.day) := by
  simp only [dateArg, Option.bind_eq_some_iff, Prod.exists]
  constructor
  · rintro ⟨a, b, c, hr, h⟩
    split at h
    · obtain rfl := Option.some.inj h
      exact hr
    · cases h
  · intro hr
    exact ⟨_, _, _, hr, dif_pos ⟨date.year_le, ⟨date.month_pos, date.month_le⟩,
      date.day_pos, date.day_le⟩⟩

theorem mem_get_form {word : Str} {c : UInt8} (hc : isblank c = false) :
    s ∈ blanks * ({c :: word} * (blanks * ({str "get"} * anything))) ↔
      ∃ t, afterWord (c :: word) s = some t ∧ ∃ u, afterWord (str "get") t = some u := by
  refine (mem_blanks_word_mul hc).trans (exists_congr fun t ↦ and_congr_right' ?_)
  exact (mem_blanks_word_mul (by decide)).trans
    ⟨fun ⟨u, hu, _⟩ ↦ ⟨u, hu⟩, fun ⟨u, hu⟩ ↦ ⟨u, hu, trivial⟩⟩

theorem mem_set_form {word : Str} {c : UInt8} (hc : isblank c = false) {n₁ n₂ n₃ : ℕ}
    (h₁ : n₁ < 100) (h₂ : n₂ < 100) (h₃ : n₃ < 100) :
    s ∈ blanks * ({c :: word} * (blanks * ({str "set"} *
        (blanks * ({fields n₁ n₂ n₃} * anything))))) ↔
      ∃ t, afterWord (c :: word) s = some t ∧ ∃ u, afterWord (str "set") t = some u ∧
        readFields (u.dropWhile isblank) = some (n₁, n₂, n₃) := by
  refine (mem_blanks_word_mul hc).trans (exists_congr fun t ↦ and_congr_right' ?_)
  refine (mem_blanks_word_mul (by decide)).trans (exists_congr fun u ↦ and_congr_right' ?_)
  exact mem_blanks_fields_mul h₁ h₂ h₃

theorem mem_timeSet_form {time : Time} : s ∈ (Command.timeSet time).form ↔
    ∃ t, afterWord (str "time") s = some t ∧ ∃ u, afterWord (str "set") t = some u ∧
      timeArg (u.dropWhile isblank) = some time := by
  simp only [timeArg_eq_some]
  exact mem_set_form (by decide) (by have := time.hours_le; omega)
    (by have := time.minutes_le; omega) (by have := time.seconds_le; omega)

theorem mem_dateSet_form {date : Date} : s ∈ (Command.dateSet date).form ↔
    ∃ t, afterWord (str "date") s = some t ∧ ∃ u, afterWord (str "set") t = some u ∧
      dateArg (u.dropWhile isblank) = some date := by
  simp only [dateArg_eq_some]
  exact mem_set_form (by decide) (by have := date.year_le; omega)
    (by have := date.month_le; omega) (by have := date.day_le; omega)

theorem timeCommand_eq_some {c : Command} : timeCommand s = some c ↔
    (c = .timeGet ∧ s ∈ Command.timeGet.form) ∨
      ∃ time, c = .timeSet time ∧ s ∈ (Command.timeSet time).form := by
  have hget : s ∈ Command.timeGet.form ↔ _ := mem_get_form (by decide)
  simp only [timeCommand, calendarCommand_eq_some, Option.map_eq_some_iff, hget, mem_timeSet_form]
  constructor
  · rintro ⟨t, ht, ⟨u, hu, time, htime, rfl⟩ | ⟨⟨u, hu⟩, rfl⟩⟩
    · exact .inr ⟨time, rfl, t, ht, u, hu, htime⟩
    · exact .inl ⟨rfl, t, ht, u, hu⟩
  · rintro (⟨rfl, t, ht, u, hu⟩ | ⟨time, rfl, t, ht, u, hu, htime⟩)
    · exact ⟨t, ht, .inr ⟨⟨u, hu⟩, rfl⟩⟩
    · exact ⟨t, ht, .inl ⟨u, hu, time, htime, rfl⟩⟩

theorem dateCommand_eq_some {c : Command} : dateCommand s = some c ↔
    (c = .dateGet ∧ s ∈ Command.dateGet.form) ∨
      ∃ date, c = .dateSet date ∧ s ∈ (Command.dateSet date).form := by
  have hget : s ∈ Command.dateGet.form ↔ _ := mem_get_form (by decide)
  simp only [dateCommand, calendarCommand_eq_some, Option.map_eq_some_iff, hget, mem_dateSet_form]
  constructor
  · rintro ⟨t, ht, ⟨u, hu, date, hdate, rfl⟩ | ⟨⟨u, hu⟩, rfl⟩⟩
    · exact .inr ⟨date, rfl, t, ht, u, hu, hdate⟩
    · exact .inl ⟨rfl, t, ht, u, hu⟩
  · rintro (⟨rfl, t, ht, u, hu⟩ | ⟨date, rfl, t, ht, u, hu, hdate⟩)
    · exact ⟨t, ht, .inr ⟨⟨u, hu⟩, rfl⟩⟩
    · exact ⟨t, ht, .inl ⟨u, hu, date, hdate, rfl⟩⟩

end Recognition

end Tanenbaum.Cli.Grammar
