import Tanenbaum.Lib.Runs
import Tanenbaum.Lib.Lines
import Tanenbaum.Cli.Session
import Tanenbaum.Newlib.Stdin

namespace Tanenbaum.Cli.Task

open Lib.Runs Lib.Bytes Lib.CString Lib.Lines Rtc Commands Newlib.Stdin

def bufLen : ℕ := 256

/-- `cli_task` between two iterations: its buffer, what stdio has buffered of
`stdin`, the board, and the strings that `parse_string` was called on. -/
structure CliTask (ρ : Type) where
  buf : Str
  avail : Str
  board : Board ρ
  parsed : List Str

/-- One iteration with what happens during it: the calls of `_read`, what
`LL_RTC_EnterInitMode` would read of the hardware, and whether `fflush(stdin)`
keeps what stdio has buffered. -/
structure Iteration where
  reads : List Read
  wait : InitWait
  keeps : Bool

variable {ρ : Type}

def printHelp (b : Board ρ) : Board ρ :=
  b.printf ("supported commands:\r\n" ++ "pin set [0|1] -- sets/resets LED1 on the board\r\n" ++
    "time [set HH:MM:SS|get]\r\n" ++ "date [set YY::MM:DD |get]\r\n" ++
    "i2c [read|write str] -- access to i2c flash\r\n" ++ "TBD\r\n" ++ "\n")

/-- The buffer after `fgets`, which leaves it alone when it returns NULL. -/
def filled (buf : Str) : Option Str → Str
  | some l => terminated l (buf.drop (l.length + 1))
  | none => buf

/-- What `cli_task` does with the answer of `parse_string`. -/
def report (answer : Bool × Board ρ) : Board ρ :=
  if answer.1 then answer.2 else printHelp (answer.2.printf "syntax error!\r\n")

/-- The string in a buffer. -/
def text (buf : Str) : Str := buf.takeWhile (· ≠ 0)

section Task

variable [RtcPort ρ]

def step (nbytes : Word) (t : CliTask ρ) (it : Iteration) : Option (CliTask ρ) := do
  let b := t.board.printf "misha>>> "
  let (line, avail) ← fgets nbytes bufLen t.avail it.reads
  let buf := filled t.buf line
  let answer ← parseString it.wait buf b
  return ⟨buf, if it.keeps then avail else [], report answer, t.parsed ++ [text buf]⟩

def start (buf : Str) (b : Board ρ) : CliTask ρ := ⟨buf, [], b, []⟩

variable {nbytes : Word} {t t' : CliTask ρ} {it : Iteration}

theorem step_eq_some (h : step nbytes t it = some t') :
    ∃ line avail, fgets nbytes bufLen t.avail it.reads = some (line, avail) ∧
      t'.buf = filled t.buf line ∧
      (parseString it.wait t'.buf (t.board.printf "misha>>> ")).map report = some t'.board ∧
      t'.parsed = t.parsed ++ [text (filled t.buf line)] ∧
      t'.avail = if it.keeps then avail else [] := by
  simp only [step, Option.bind_eq_bind, Option.bind_eq_some_iff] at h
  obtain ⟨⟨line, avail⟩, hfgets, answer, hparse, heq⟩ := h
  cases heq
  exact ⟨line, avail, hfgets, rfl, by rw [hparse, Option.map_some], rfl, rfl⟩

theorem text_filled (buf l : Str) : text (filled buf (some l)) = text l := by
  rw [text, text, filled, terminated, List.takeWhile_append]
  split
  · next hall =>
    rw [(List.takeWhile_prefix _).eq_of_length hall]
    simp
  · rfl

end Task

section Typed

/-- What was typed while no request was pending, before the first one of the iteration. -/
def Iteration.ahead (it : Iteration) : Str := (it.reads.head?.elim [] Read.ignored).map typedChar

/-- The characters of the requests of an iteration. -/
def Iteration.requested (nbytes : Word) (it : Iteration) : Str := it.reads.flatMap (edited nbytes)

def Iteration.typed (nbytes : Word) (it : Iteration) : Str :=
  it.reads.flatMap fun rd ↦ rd.ignored.map typedChar ++ edited nbytes rd

/-- A line of at most 255 characters is typed in one piece: what comes while no
request is pending, and what `fflush(stdin)` drops, are whole lines. -/
@[mk_iff]
structure LineTyped (nbytes : Word) (t : CliTask ρ) (it : Iteration) : Prop where
  short : ∀ rd ∈ it.reads, peak nbytes rd ≤ 255
  fits : 10 ∈ (t.avail ++ it.requested nbytes).take (bufLen - 1)
  ahead : it.ahead = [] ∨ t.avail = [] ∧ restFrom 10 [] it.ahead = []
  within : ∀ rd ∈ it.reads.tail, rd.ignored = []
  flushed : it.keeps = true ∨ restFrom 10 [] (t.avail ++ it.requested nbytes) = []

instance (nbytes : Word) (t : CliTask ρ) (it : Iteration) : Decidable (LineTyped nbytes t it) :=
  decidable_of_iff _ (lineTyped_iff nbytes t it).symm

variable {nbytes : Word} {t t' : CliTask ρ} {it : Iteration}

theorem typed_eq (h : ∀ rd ∈ it.reads.tail, rd.ignored = []) :
    it.typed nbytes = it.ahead ++ it.requested nbytes := by
  simp only [Iteration.typed, Iteration.ahead, Iteration.requested]
  cases hreads : it.reads with
  | nil => rfl
  | cons rd reads =>
    rw [hreads] at h
    rw [List.flatMap_cons, List.flatMap_cons, List.append_assoc]
    congr 2
    apply List.flatMap_congr
    intro rd hrd
    rw [h rd hrd, List.map_nil, List.nil_append]

theorem LineTyped.fgets (hnbytes : 1 ≤ nbytes.toNat) (h : LineTyped nbytes t it)
    {line : Option Str} {left : Str}
    (hfgets : fgets nbytes bufLen t.avail it.reads = some (line, left)) :
    ∃ u, 10 ∉ u ∧ line = some (u ++ [10]) ∧ t.avail ++ it.requested nbytes = u ++ 10 :: left :=
  fgetsLoop_line hnbytes h.short h.fits hfgets

/-- The texts executed are those of lines typed before. -/
theorem LineTyped.follows [RtcPort ρ] (hnbytes : 1 ≤ nbytes.toNat) (h : LineTyped nbytes t it)
    {typed : Str} (hfollows : Follows 10 text t.parsed t.avail typed)
    (hstep : step nbytes t it = some t') :
    Follows 10 text t'.parsed t'.avail (typed ++ it.typed nbytes) := by
  have hahead : Follows 10 text t.parsed t.avail (typed ++ it.ahead) := by
    rcases h.ahead with hnil | ⟨hnil, hrest⟩
    · rw [hnil, List.append_nil]
      exact hfollows
    · rw [hnil] at hfollows ⊢
      exact hfollows.skip hrest
  obtain ⟨line, left, hfgets, -, -, hparsed, havail⟩ := step_eq_some hstep
  obtain ⟨u, hu, rfl, hline⟩ := h.fgets hnbytes hfgets
  have htaken := hahead.append (it.requested nbytes)
  rw [hline, List.append_assoc, ← typed_eq h.within] at htaken
  rw [hparsed, havail, text_filled]
  split
  · exact htaken.take hu
  · next hkeeps =>
    have hrest := h.flushed.resolve_left hkeeps
    rw [hline, restFrom_line] at hrest
    exact (htaken.take hu).drop hrest

end Typed

section Repeated

open Session (freshBoard promptWait)

def request (s : Str) : Read := ⟨[], s, fun _ ↦ 0⟩

end Repeated

end Tanenbaum.Cli.Task
