import Tanenbaum.Lib.Terminal
import Tanenbaum.Tty.LineDiscipline

namespace Tanenbaum.Tty.Screen

open Lib.Bytes Lib.CString Lib.Feed Lib.Terminal LineDiscipline

/-- Everything transmitted so far makes the row read the prompt and the line,
with the cursor behind them. -/
def ShowsLine (prompt : Str) (p : Pending) : Prop :=
  putAll blank p.out = ⟨rowOf (prompt ++ line p), prompt.length + p.cnt.toNat⟩

/-- The screen is right and the line holds nothing that `%s` would stop at. -/
structure Showing (prompt : Str) (p : Pending) : Prop where
  shows : ShowsLine prompt p
  printable : ∀ c ∈ line p, Printable c

section Line

variable {p : Pending} {c : UInt8}

theorem ordinary_of_printable (h : Printable c) : Ordinary c := by
  refine ⟨?_, ?_, UInt8.lt_trans h.2 (by decide)⟩
  · rintro rfl
    exact absurd h.1 (by decide)
  · rintro (rfl | rfl)
    · exact absurd h.1 (by decide)
    · exact absurd h.2 (by decide)

theorem not_printable_of_erase (h : c = 8 ∨ c = 0x7f) : ¬ Printable c := by
  intro hprint
  exact (ordinary_of_printable hprint).ne_erase h

theorem line_print (p : Pending) (text : Str) : line (p.print text) = line p := rfl

theorem exists_line_eq_concat (hcnt : 0 < p.cnt) : ∃ c, line p = (line p).dropLast ++ [c] := by
  have hne : line p ≠ [] := by
    intro hnil
    have hlen := length_line p
    rw [hnil, List.length_nil] at hlen
    exact absurd hcnt (Nat.not_lt.mpr (Nat.le_of_eq hlen.symm))
  exact ⟨_, (List.dropLast_concat_getLast hne).symm⟩

theorem takeWhile_line {L : Str} (h : ∀ c ∈ L, Printable c) : L.takeWhile (· ≠ 0) = L := by
  apply List.takeWhile_eq_self_iff.mpr
  intro c hc
  apply decide_eq_true
  rintro rfl
  exact absurd (h 0 hc).1 (by decide)

end Line

section Step

variable {prompt : Str} {num : Word} {p q : Pending} {byte : UInt8}

theorem putAll_print (p : Pending) (text : Str) :
    putAll blank (p.print text).out = putAll (putAll blank p.out) text :=
  putAll_append blank p.out text

theorem Showing.push (h : Showing prompt p) (hlt : p.cnt.toNat < 255) (hb : Printable byte) :
    Showing prompt ((p.print [byte]).push byte) := by
  have hline : line ((p.print [byte]).push byte) = line p ++ [byte] :=
    line_push (p := p.print [byte]) hlt byte
  have hcnt : ((p.print [byte]).push byte).cnt.toNat = p.cnt.toNat + 1 := by
    rw [push_cnt]
    exact Nat.mod_eq_of_lt (Nat.succ_lt_succ hlt)
  have hlen : (prompt ++ line p).length = prompt.length + p.cnt.toNat := by
    rw [List.length_append, length_line]
  constructor
  · have hout : putAll blank ((p.print [byte]).push byte).out = put (putAll blank p.out) byte :=
      putAll_print p [byte]
    rw [ShowsLine, hout, h.shows, hline, hcnt, put_printable hb, ← List.append_assoc,
      rowOf_concat, hlen, Nat.add_assoc]
  · rw [hline]
    intro c hc
    rcases List.mem_append.mp hc with hc | hc
    · exact h.printable c hc
    · rw [List.mem_singleton.mp hc]
      exact hb

theorem put_erase (h : byte = 8 ∨ byte = 0x7f) (t : Screen) : (put t byte).row = t.row := by
  rcases h with rfl | rfl
  · rw [put_backspace]
  · rw [put_delete]

theorem Showing.pop_printable (h : Showing prompt p) (hcnt : 0 < p.cnt) :
    ∀ c ∈ line p.pop, Printable c := by
  rw [line_pop hcnt]
  intro c hc
  exact h.printable c (List.mem_of_mem_dropLast hc)

/-- The redraw starts in the first column, where the prompt is. -/
theorem Showing.redraw_iff (h : Showing prompt p) (hcnt : 0 < p.cnt)
    (hb : byte = 8 ∨ byte = 0x7f) :
    ShowsLine prompt (p.print [byte]).pop.redraw ↔ prompt = [] := by
  have hprint := h.pop_printable hcnt
  have hlen : (line p.pop).length = p.pop.cnt.toNat := length_line p.pop
  have hout : putAll blank (p.print [byte]).pop.redraw.out =
      putAll (put (putAll blank p.out) byte) (13 :: line p.pop ++ [32, 8]) := by
    have htext : (p.print [byte]).pop.redraw =
        (p.print [byte]).pop.print (13 :: line p.pop ++ [32, 8]) := by
      rw [Pending.redraw]
      exact congrArg (fun L ↦ (p.print [byte]).pop.print (13 :: L ++ [32, 8]))
        (takeWhile_line hprint)
    rw [htext, putAll_print]
    exact congrArg (putAll · _) (putAll_print p [byte])
  change _ = (⟨rowOf (prompt ++ line p.pop), prompt.length + p.pop.cnt.toNat⟩ : Screen) ↔ _
  rw [hout]
  constructor
  · intro hshows
    have hcol := congrArg Screen.col hshows
    rw [putAll_redraw hprint, hlen] at hcol
    exact List.length_eq_zero_iff.mp (Nat.right_eq_add.mp hcol)
  · rintro rfl
    obtain ⟨c, hc⟩ := exists_line_eq_concat hcnt
    have hrow : (put (putAll blank p.out) byte).row = rowOf (line p.pop ++ [c]) := by
      rw [line_pop hcnt, ← hc, put_erase hb, h.shows, List.nil_append]
    rw [putAll_redraw_concat hprint hrow, hlen, List.nil_append, List.length_nil, Nat.zero_add]

/-- On an empty line a backspace still moves the cursor. -/
theorem Showing.echo_iff (h : Showing prompt p) (hcnt : ¬ 0 < p.cnt)
    (hb : byte = 8 ∨ byte = 0x7f) :
    ShowsLine prompt (p.print [byte]) ↔ prompt = [] ∨ byte = 0x7f := by
  have hzero : p.cnt.toNat = 0 := Nat.eq_zero_of_not_pos hcnt
  have hout : putAll blank (p.print [byte]).out = put (putAll blank p.out) byte :=
    putAll_print p [byte]
  have hcnt' : (p.print [byte]).cnt.toNat = 0 := hzero
  rw [ShowsLine, hout, h.shows, line_print, hcnt', hzero]
  rcases hb with rfl | rfl
  · rw [put_backspace]
    constructor
    · intro hshows
      have hcol : prompt.length - 1 = prompt.length := congrArg Screen.col hshows
      exact .inl (List.length_eq_zero_iff.mp (by omega))
    · rintro (rfl | habs)
      · rfl
      · exact absurd habs (by decide)
  · rw [put_delete]
    exact iff_of_true rfl (.inr rfl)

/-- What the next byte does to a screen that is right. -/
theorem Showing.step_iff (h : Showing prompt p) (hlt : p.cnt.toNat < 255)
    (hb : Printable byte ∨ byte = 8 ∨ byte = 0x7f) (hq : ttyByte num p byte = .inl q) :
    (ShowsLine prompt q ↔ Printable byte ∨ prompt = [] ∨ (byte = 0x7f ∧ ¬ 0 < p.cnt)) ∧
      (ShowsLine prompt q → Showing prompt q) := by
  rcases hb with hprint | herase
  · obtain ⟨rfl, -⟩ := eq_push_of_inl (ordinary_of_printable hprint) hq
    have hpush := h.push hlt hprint
    exact ⟨iff_of_true hpush.shows (.inl hprint), fun _ ↦ hpush⟩
  · have hnot := not_printable_of_erase herase
    by_cases hcnt : 0 < p.cnt
    · rw [ttyByte_erase herase hcnt] at hq
      cases hq
      refine ⟨?_, fun hshows ↦ ⟨hshows, h.pop_printable hcnt⟩⟩
      rw [h.redraw_iff hcnt herase]
      tauto
    · rw [ttyByte_erase_empty herase hcnt] at hq
      cases hq
      refine ⟨?_, fun hshows ↦ ⟨hshows, h.printable⟩⟩
      rw [h.echo_iff hcnt herase]
      tauto

end Step

section Session

variable {prompt : Str} {num : Word} {p q : Pending} {byte : UInt8}

/-- The bytes that a screen with a prompt does not survive unless they are
printable: deletes on an empty line are harmless. -/
def afterDeletes (p : Pending) (bs : Str) : Str :=
  if 0 < p.cnt then bs else bs.dropWhile (· = 0x7f)

theorem afterDeletes_printable (h : Printable byte) (p : Pending) (bs : Str) :
    afterDeletes p (byte :: bs) = byte :: bs := by
  have hne : ¬ byte = 0x7f := fun heq ↦ (ordinary_of_printable h).ne_erase (.inr heq)
  rw [afterDeletes, List.dropWhile_cons_of_neg (by simpa using hne), ite_self]

theorem clean_cons (hlt : p.cnt.toNat < 255) (hb : Printable byte ∨ byte = 8 ∨ byte = 0x7f)
    (hq : ttyByte num p byte = .inl q) (bs : Str) :
    (prompt = [] ∨ ∀ c ∈ afterDeletes p (byte :: bs), Printable c) ↔
      (Printable byte ∨ prompt = [] ∨ (byte = 0x7f ∧ ¬ 0 < p.cnt)) ∧
        (prompt = [] ∨ ∀ c ∈ afterDeletes q bs, Printable c) := by
  rcases hb with hprint | herase
  · obtain ⟨rfl, -⟩ := eq_push_of_inl (ordinary_of_printable hprint) hq
    have hpos : 0 < ((p.print [byte]).push byte).cnt := by
      have hcnt := push_cnt (p.print [byte]) byte
      have hecho : (p.print [byte]).cnt.toNat = p.cnt.toNat := rfl
      have hnat : 0 < ((p.print [byte]).push byte).cnt.toNat := by omega
      exact hnat
    rw [afterDeletes_printable hprint, afterDeletes, if_pos hpos, List.forall_mem_cons]
    tauto
  · have hnot := not_printable_of_erase herase
    by_cases hcnt : 0 < p.cnt
    · have hleft : ¬ ∀ c ∈ afterDeletes p (byte :: bs), Printable c := by
        rw [afterDeletes, if_pos hcnt, List.forall_mem_cons]
        exact fun hall ↦ hnot hall.1
      tauto
    · rw [ttyByte_erase_empty herase hcnt] at hq
      cases hq
      by_cases hdel : byte = 0x7f
      · have hdrop : afterDeletes p (byte :: bs) = afterDeletes (p.print [byte]) bs := by
          have hcnt' : ¬ 0 < (p.print [byte]).cnt := hcnt
          rw [afterDeletes, if_neg hcnt, afterDeletes, if_neg hcnt',
            List.dropWhile_cons_of_pos (by simpa using hdel)]
        rw [hdrop]
        tauto
      · have hleft : ¬ ∀ c ∈ afterDeletes p (byte :: bs), Printable c := by
          rw [afterDeletes, if_neg hcnt, List.dropWhile_cons_of_neg (by simpa using hdel),
            List.forall_mem_cons]
          exact fun hall ↦ hnot hall.1
        tauto

theorem Showing.session_iff (h : Showing prompt p) {bs : Str}
    (hbs : ∀ c ∈ bs, Printable c ∨ c = 8 ∨ c = 0x7f)
    (hpending : ∀ v, v <+: bs → ∃ q, feed (ttyByte num) p v = .inl q ∧ q.cnt.toNat < 255) :
    (∀ v, v <+: bs → ∀ q, feed (ttyByte num) p v = .inl q → ShowsLine prompt q) ↔
      prompt = [] ∨ ∀ c ∈ afterDeletes p bs, Printable c := by
  induction bs generalizing p with
  | nil =>
    refine iff_of_true ?_ (.inr ?_)
    · intro v hv q hq
      rw [List.prefix_nil.mp hv] at hq
      cases hq
      exact h.shows
    · rw [afterDeletes, List.dropWhile_nil, ite_self]
      exact fun c hc ↦ absurd hc List.not_mem_nil
  | cons byte bs ih =>
    have hb := hbs byte List.mem_cons_self
    obtain ⟨_, hp, hlt⟩ := hpending [] List.nil_prefix
    cases hp
    rcases hstep : ttyByte num p byte with q | r
    · obtain ⟨hiff, hshowing⟩ := h.step_iff hlt hb hstep
      rw [forall_prefix_cons hstep, clean_cons hlt hb hstep, ← hiff, and_iff_right h.shows]
      by_cases hshows : ShowsLine prompt q
      · rw [and_iff_right hshows]
        apply ih (hshowing hshows) fun c hc ↦ hbs c (List.mem_cons_of_mem byte hc)
        intro v hv
        have hcons := hpending (byte :: v) (List.cons_prefix_cons.mpr ⟨rfl, hv⟩)
        rwa [feed_cons_inl hstep] at hcons
      · exact iff_of_false (fun hall ↦ hshows (hall [] List.nil_prefix q rfl))
          fun hboth ↦ hshows hboth.1
    · obtain ⟨q, hq, -⟩ := hpending [byte] (List.cons_prefix_cons.mpr ⟨rfl, List.nil_prefix⟩)
      rw [feed_cons_inr hstep] at hq
      cases hq

theorem showing_prompt (h : ∀ c ∈ prompt, Printable c) (buf : ℕ → UInt8) :
    Showing prompt ⟨0, buf, prompt⟩ := by
  have hnil : line ⟨0, buf, prompt⟩ = [] := rfl
  constructor
  · have hput := putAll_rowOf h []
    rw [List.nil_append] at hput
    rw [ShowsLine, hnil, List.append_nil]
    exact hput
  · rw [hnil]
    exact fun c hc ↦ absurd hc List.not_mem_nil

/-- The screen shows the line after every byte exactly when there is no prompt,
or nothing but printable characters follows the deletes typed on the empty line:
the redraw on a backspace overwrites the prompt, and the echo of a backspace on
an empty line moves the cursor into it. -/
theorem screen_shows_line_iff (num : Word) (buf : ℕ → UInt8) {prompt bs : Str}
    (hprompt : ∀ c ∈ prompt, Printable c) (hbs : ∀ c ∈ bs, Printable c ∨ c = 8 ∨ c = 0x7f)
    (hpending : ∀ v, v <+: bs →
      ∃ p, feed (ttyByte num) ⟨0, buf, prompt⟩ v = .inl p ∧ p.cnt.toNat < 255) :
    (∀ v, v <+: bs → ∀ p, feed (ttyByte num) ⟨0, buf, prompt⟩ v = .inl p →
        ShowsLine prompt p) ↔
      prompt = [] ∨ ∀ c ∈ bs.dropWhile (· = 0x7f), Printable c :=
  (showing_prompt hprompt buf).session_iff hbs hpending

end Session

/-- `printf("misha>>> ")` -/
def cliPrompt : Str := [109, 105, 115, 104, 97, 62, 62, 62, 32]

theorem typed_letters_shown :
    ∃ p, feed (ttyByte 4#32) ⟨0, fun _ ↦ 0, cliPrompt⟩ [0x7f, 97, 98] = .inl p ∧
      ShowsLine cliPrompt p := by
  have hpending : ∀ v ∈ List.inits [0x7f, 97, 98],
      ((feed (ttyByte 4#32) ⟨0, fun _ ↦ 0, cliPrompt⟩ v).elim (fun p ↦ p.cnt.toNat)
        fun _ ↦ 255) < 255 := by
    decide
  have hprompt : ∀ c ∈ cliPrompt, Printable c := by decide +kernel
  have hbs : ∀ c ∈ [0x7f, 97, 98], Printable c ∨ c = 8 ∨ c = 0x7f := by decide +kernel
  have hletters : ∀ c ∈ List.dropWhile (· = 0x7f) [0x7f, 97, 98], Printable c := by
    decide +kernel
  refine ⟨_, rfl, (screen_shows_line_iff 4#32 (fun _ ↦ 0) hprompt hbs ?_).mpr (.inr hletters)
    [0x7f, 97, 98] (List.prefix_refl _) _ rfl⟩
  intro v hv
  have hlt := hpending v ((List.mem_inits v _).mpr hv)
  rcases hfeed : feed (ttyByte 4#32) ⟨0, fun _ ↦ 0, cliPrompt⟩ v with p | r <;> rw [hfeed] at hlt
  · exact ⟨p, rfl, hlt⟩
  · exact absurd hlt (by simp)

/-- One letter and a backspace: the line is empty, and the cursor is in column 0. -/
theorem backspace_overwrites_prompt :
    ∃ p, feed (ttyByte 4#32) ⟨0, fun _ ↦ 0, cliPrompt⟩ [97, 8] = .inl p ∧ p.cnt = 0 ∧
      ¬ ShowsLine cliPrompt p := by
  refine ⟨_, rfl, rfl, fun hshows ↦ ?_⟩
  have hcol := congrArg Screen.col hshows
  exact absurd hcol (by decide)

end Tanenbaum.Tty.Screen
