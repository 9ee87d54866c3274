import Tanenbaum.Lib.Scanner
import Tanenbaum.Cli.Session

namespace Tanenbaum.Cli.Reads

open Lib.CString Lib.Scanner Lib.Scanner.Scan Rtc Commands Grammar Parse Session

variable {ρ : Type}

/-- A matcher over the memory of the line, given the position of its argument
`buf` there: every element it indexes is a read of its own. -/
abbrev Scanner (ρ : Type) := ℕ → Board ρ → Scan (Bool × Board ρ)

def matchPinCmd : Scanner ρ := fun buf b ↦ do
  let i ← skip isblank buf
  if ← strncmp i (str "pin") then
    let i ← skip isblank (i + 3)
    if ← strncmp i (str "set") then
      let i ← skip isblank (i + 3)
      if (← readAt i) = 48 then
        return (true, { b with odr := llGpioSetOutputPin llGpioPin13 b.odr })
      else if (← readAt i) = 49 then
        return (true, { b with odr := llGpioResetOutputPin llGpioPin13 b.odr })
      else return (false, b)
    else return (false, b)
  else return (false, b)

/-- The second digit is read only behind a first one; both are read again for their value. -/
def getNumFromStr (buf : ℕ) : Scan ℤ := do
  if !isdigit (← readAt buf) then return -1
  else if !isdigit (← readAt (buf + 1)) then return -1
  else
    let c ← readAt buf
    let d ← readAt (buf + 1)
    return ((c.toNat : ℤ) - 48) * 10 + d.toNat - 48

def scanFields (bad₁ bad₂ bad₃ : ℤ → Bool) (buf : ℕ) : Scan (Option (ℤ × ℤ × ℤ)) := do
  let n₁ ← getNumFromStr buf
  if bad₁ n₁ then return none
  else if (← readAt (buf + 2)) ≠ 58 then return none
  else
    let n₂ ← getNumFromStr (buf + 3)
    if bad₂ n₂ then return none
    else if (← readAt (buf + 5)) ≠ 58 then return none
    else
      let n₃ ← getNumFromStr (buf + 6)
      if bad₃ n₃ then return none
      else return some (n₁, n₂, n₃)

/-- The common body of `match_time_cmd` and `match_date_cmd`. -/
def matchCalendarCmd (word : Str) (set : Scanner ρ) (get : Board ρ → Board ρ) : Scanner ρ :=
  fun buf b ↦ do
    let i ← skip isblank buf
    if ← strncmp i word then
      let i ← skip isblank (i + 4)
      if ← strncmp i (str "set") then
        let i ← skip isblank (i + 3)
        set i b
      else if ← strncmp i (str "get") then return (true, get b)
      else return (false, b)
    else return (false, b)

def matchI2cCmd : Scanner ρ := fun _ b ↦ return (false, b)

def tryMatchers : List (Scanner ρ) → Scanner ρ
  | [], _, b => return (false, b)
  | m :: ms, buf, b => do
    let (accepted, b) ← m buf b
    if accepted then return (true, b) else tryMatchers ms buf b

section Calendar

variable [RtcPort ρ] (w : InitWait)

def setTimeFromStr : Scanner ρ := fun buf b ↦ do
  match ← scanFields (fun hours ↦ hours < 0 || hours > 23) (fun minutes ↦ minutes < 0 || minutes > 59)
    (fun seconds ↦ seconds < 0 || seconds > 59) buf with
  | none => return (false, b)
  | some (hours, minutes, seconds) => return storeTime w hours minutes seconds b

def setDateFromStr : Scanner ρ := fun buf b ↦ do
  match ← scanFields (fun year ↦ year < 0) (fun month ↦ month < 1 || month > 12)
    (fun day ↦ day < 1 || day > 31) buf with
  | none => return (false, b)
  | some (year, month, day) => return storeDate w year month day b

def matchTimeCmd : Scanner ρ := matchCalendarCmd (str "time") (setTimeFromStr w) printTime

def matchDateCmd : Scanner ρ := matchCalendarCmd (str "date") (setDateFromStr w) printDate

def matchers : List (Scanner ρ) := [matchPinCmd, matchI2cCmd, matchTimeCmd w, matchDateCmd w]

def parseString : Scanner ρ := tryMatchers (matchers w)

end Calendar

section Erasure

/-- Without its reads, the scanner is the matcher on the memory from `buf` on. -/
def Erases (x : Scanner ρ) (m : Matcher ρ) : Prop :=
  ∀ mem buf b, (x buf b).result mem = m (mem.drop buf) b

theorem matchPinCmd_erases : Erases (ρ := ρ) matchPinCmd Commands.matchPinCmd := by
  intro mem buf b
  apply result_skip_bind
  intro i
  apply result_strncmp_ite _ rfl
  rw [List.drop_drop]
  apply result_skip_bind
  intro i
  apply result_strncmp_ite _ rfl
  rw [List.drop_drop]
  apply result_skip_bind
  intro i
  rw [List.head?_drop]
  cases hc : mem[i]? with
  | none => simp [hc]
  | some c => simp [hc]

theorem result_getNumFromStr (mem : Str) (buf : ℕ) :
    (getNumFromStr buf).result mem = Commands.getNumFromStr (mem.drop buf) := by
  simp only [getNumFromStr, Commands.getNumFromStr, result_bind, result_ite, result_readAt,
    result_pure, List.getElem?_drop, Nat.add_zero, Option.bind_eq_bind]
  cases hc : mem[buf]? with
  | none => rfl
  | some c => cases hd : mem[buf + 1]? <;> simp

theorem result_scanFields (bad₁ bad₂ bad₃ : ℤ → Bool) (mem : Str) (buf : ℕ) :
    (scanFields bad₁ bad₂ bad₃ buf).result mem =
      Commands.scanFields bad₁ bad₂ bad₃ (mem.drop buf) := by
  simp only [scanFields, Commands.scanFields, result_bind, result_ite, result_readAt, result_pure,
    result_getNumFromStr, List.getElem?_drop, List.drop_drop, Option.bind_eq_bind]
  rfl

theorem result_scanFields_bind {bad₁ bad₂ bad₃ : ℤ → Bool} {mem : Str} {buf : ℕ} {α : Type}
    {f : Option (ℤ × ℤ × ℤ) → Scan α} {g : Option (ℤ × ℤ × ℤ) → Option α}
    (h : ∀ r, (f r).result mem = g r) :
    (scanFields bad₁ bad₂ bad₃ buf >>= f).result mem =
      Commands.scanFields bad₁ bad₂ bad₃ (mem.drop buf) >>= g := by
  rw [result_bind, result_scanFields]
  exact congrArg _ (funext h)

theorem matchCalendarCmd_erases {set : Scanner ρ} {set' : Matcher ρ} (hset : Erases set set')
    (word : Str) (get : Board ρ → Board ρ) :
    Erases (matchCalendarCmd word set get) (Commands.matchCalendarCmd word set' get) := by
  intro mem buf b
  apply result_skip_bind
  intro i
  apply result_strncmp_ite _ rfl
  rw [List.drop_drop]
  apply result_skip_bind
  intro i
  apply result_strncmp_ite
  · rw [List.drop_drop]
    apply result_skip_bind
    intro i
    exact hset mem i b
  · exact result_strncmp_ite rfl rfl

theorem tryMatchers_erases {xs : List (Scanner ρ)} {ms : List (Matcher ρ)}
    (h : List.Forall₂ Erases xs ms) : Erases (tryMatchers xs) (Commands.tryMatchers ms) := by
  intro mem buf b
  induction h generalizing b with
  | nil => rfl
  | cons hx _ ih =>
    simp only [tryMatchers, Commands.tryMatchers, result_bind, result_ite, result_pure, hx mem, ih,
      Option.bind_eq_bind]
    rfl

variable [RtcPort ρ] (w : InitWait)

theorem setTimeFromStr_erases :
    Erases (ρ := ρ) (setTimeFromStr w) (Commands.setTimeFromStr w) := by
  intro mem buf b
  apply result_scanFields_bind
  intro r
  cases r <;> rfl

theorem setDateFromStr_erases :
    Erases (ρ := ρ) (setDateFromStr w) (Commands.setDateFromStr w) := by
  intro mem buf b
  apply result_scanFields_bind
  intro r
  cases r <;> rfl

theorem parseString_erases : Erases (ρ := ρ) (parseString w) (Commands.parseString w) := by
  apply tryMatchers_erases
  refine .cons matchPinCmd_erases (.cons (fun _ _ _ ↦ rfl) (.cons ?_ (.cons ?_ .nil)))
  · exact matchCalendarCmd_erases (setTimeFromStr_erases w) (str "time") printTime
  · exact matchCalendarCmd_erases (setDateFromStr_erases w) (str "date") printDate

end Erasure

section Terminator

variable [RtcPort ρ] (w : InitWait) (b : Board ρ)

theorem parseString_run_terminated {s : Str} (hs : 0 ∉ s) (junk : Str) :
    (parseString w 0 b).result (terminated s junk) = some (answer w b (command s)) ∧
    (∀ i ∈ (parseString w 0 b).reads (terminated s junk), i ≤ s.length) ∧
    (parseString w 0 b).run (terminated s junk) = (parseString w 0 b).run (terminated s []) := by
  have hresult (rest : Str) :
      (parseString w 0 b).result (terminated s rest) = some (answer w b (command s)) := by
    rw [parseString_erases w (terminated s rest) 0 b, List.drop_zero,
      parseString_terminated w b rest hs]
  obtain ⟨hrun, hreads⟩ := run_terminated (parseString w 0 b) (hresult []) junk
  exact ⟨hresult junk, hreads, hrun⟩

/-- On memory that holds a NUL, with anything before and after it, `parse_string`
returns; everything it reads lies at or before the first NUL, where every loop
over blanks ends too; and its reads, its result and its effects are the same
over any memory with the same characters before the first NUL. -/
theorem parseString_reads_to_terminator (mem : Str) (hnul : 0 ∈ mem) :
    (∃ r, (parseString w 0 b).result mem = some r ∧ Commands.parseString w mem b = some r) ∧
    (∀ i ∈ (parseString w 0 b).reads mem, i ≤ mem.idxOf 0) ∧
    (∀ i ≤ mem.idxOf 0, ∃ j, (skip isblank i).result mem = some j ∧ i ≤ j ∧ j ≤ mem.idxOf 0) ∧
    ∀ mem', 0 ∈ mem' → mem'.takeWhile (· ≠ 0) = mem.takeWhile (· ≠ 0) →
      (parseString w 0 b).run mem' = (parseString w 0 b).run mem := by
  obtain ⟨s, junk, hs, rfl⟩ := exists_terminated hnul
  obtain ⟨hresult, hreads, hrun⟩ := parseString_run_terminated w b hs junk
  rw [idxOf_terminated hs]
  refine ⟨⟨_, hresult, parseString_terminated w b junk hs⟩, hreads, ?_, ?_⟩
  · intro i hi
    exact skip_terminated rfl hi
  · intro mem' hnul' hsame
    obtain ⟨s', junk', hs', rfl⟩ := exists_terminated hnul'
    rw [takeWhile_terminated hs', takeWhile_terminated hs] at hsame
    subst hsame
    exact (parseString_run_terminated w b hs junk').2.2.trans hrun.symm

/-- A time cut off after its first digit, over the rest of an earlier line. -/
def cutLine : Str := terminated (str "time set 1") (str "2:30:45\n")

theorem parseString_reads_cut_line :
    10 ∈ (parseString promptWait 0 freshBoard).reads cutLine ∧
      ∀ i ∈ (parseString promptWait 0 freshBoard).reads cutLine, i ≤ 10 := by
  have hread : 10 ∈ (parseString promptWait 0 freshBoard).reads cutLine := by decide
  exact ⟨hread, (parseString_reads_to_terminator promptWait freshBoard cutLine (by decide)).2.1⟩

end Terminator

end Tanenbaum.Cli.Reads
