import Tanenbaum.Cli.Session

namespace Tanenbaum.Cli.Legality

open Lib.Runs Lib.Bytes Lib.CString Rtc Commands Grammar Parse Calendar Session

/-- A legal value of a calendar register: only field bits, legal fields, and in
DR the weekday Monday. -/
def Legal : Store → Prop
  | .tr v => ∃ t, EncodesTime t v
  | .dr v => ∃ d, EncodesDate 1#8 d v

/-- Whatever has been stored to the calendar registers up to the end of this line is legal. -/
def StoresLegal (b : Board Regs) (l : Line) : Prop :=
  ∀ b', step b l = some b' → ∀ v ∈ b'.rtc.stores, Legal v

/-- The line is no `date set` that gets as far as its store. -/
def StoresNoDate (b : Board Regs) (l : Line) : Prop :=
  ∀ d, l.text ∈ (Command.dateSet d).form → ¬ EntersInit b l

theorem month_without_weekday : ∀ m < 13, ∀ n < 13,
    bcd m ||| (0#8 <<< 5) ≠ bcd n ||| (1#8 <<< 5) := by decide

/-- The mask `0x1f00` loses the weekday, so no date that is stored is legal. -/
theorem not_legal_dateWord (d : Date) : ¬ Legal (.dr (dateWord d.year d.month d.day)) := by
  rintro ⟨e, he⟩
  have hd := d.month_le
  have he' := e.month_le
  exact month_without_weekday d.month (by omega) e.month (by omega)
    ((dateWord_encodes d).month.symm.trans he.month)

theorem stores_cases (b : Board Regs) (l : Line) :
    (StoresNoDate b l ∧ (answer l.wait b (command l.text)).2.rtc.stores = b.rtc.stores) ∨
    (StoresNoDate b l ∧ ∃ t : Time, (answer l.wait b (command l.text)).2.rtc.stores =
      .tr (timeWord t.hours t.minutes t.seconds) :: b.rtc.stores) ∨
    (¬ StoresNoDate b l ∧ ∃ d : Date, (answer l.wait b (command l.text)).2.rtc.stores =
      .dr (dateWord d.year d.month d.day) :: b.rtc.stores) := by
  have hnone (hc : ∀ d, command l.text ≠ some (.dateSet d)) : StoresNoDate b l :=
    fun d hd ↦ absurd (command_eq_some.mpr hd) (hc d)
  cases hinit : (llRtcEnterInitMode l.wait b.rtc).1 with
  | success =>
    cases hc : command l.text with
    | none => exact .inl ⟨hnone fun d ↦ by simp [hc], rfl⟩
    | some c =>
      cases c with
      | timeSet t => exact .inr (.inl ⟨hnone fun d ↦ by simp [hc], t, (leaves_timeSet t hinit).stores_eq⟩)
      | dateSet d =>
        exact .inr (.inr ⟨fun h ↦ h d (command_eq_some.mp hc) hinit, d,
          (leaves_dateSet d hinit).stores_eq⟩)
      | _ => exact .inl ⟨hnone fun d ↦ by simp [hc], rfl⟩
  | error =>
    have hrefused : StoresNoDate b l := fun d _ h ↦ by
      rw [EntersInit, hinit] at h
      cases h
    cases hc : command l.text with
    | none => exact .inl ⟨hrefused, rfl⟩
    | some c =>
      cases c with
      | timeSet t => exact .inl ⟨hrefused, (leaves_refused (.inl ⟨t, rfl⟩) hinit).stores_eq⟩
      | dateSet d => exact .inl ⟨hrefused, (leaves_refused (.inr ⟨d, rfl⟩) hinit).stores_eq⟩
      | _ => exact .inl ⟨hrefused, rfl⟩

variable {b b' : Board Regs} {l : Line}

theorem step_keeps_legal (hb : ∀ v ∈ b.rtc.stores, Legal v) (h : StoresNoDate b l)
    (hstep : step b l = some b') : ∀ v ∈ b'.rtc.stores, Legal v := by
  rw [step_eq, Option.some.injEq] at hstep
  subst hstep
  rcases stores_cases b l with ⟨-, heq⟩ | ⟨-, t, heq⟩ | ⟨hn, -⟩
  · rwa [heq]
  · rw [heq]
    exact List.forall_mem_cons.mpr ⟨⟨t, timeWord_encodes t⟩, hb⟩
  · exact absurd h hn

theorem storesLegal_iff (hb : ∀ v ∈ b.rtc.stores, Legal v) :
    StoresLegal b l ↔ StoresNoDate b l := by
  constructor
  · intro h
    rcases stores_cases b l with ⟨hn, -⟩ | ⟨hn, -⟩ | ⟨-, d, heq⟩
    · exact hn
    · exact hn
    · refine absurd (h _ (step_eq b l) _ ?_) (not_legal_dateWord d)
      rw [heq]
      exact List.mem_cons_self ..
  · exact fun h b' hstep ↦ step_keeps_legal hb h hstep

/-- In a session from any registers, everything stored stays legal exactly as
long as no `date set` gets as far as its store. -/
theorem stores_legal_iff_no_date_stored (tr dr : Word) (init initf : Bool) (odr : Word)
    (out : List String) (lines : List Line) :
    Along step StoresLegal ⟨⟨tr, dr, init, initf, []⟩, odr, out⟩ lines ↔
      Along step StoresNoDate ⟨⟨tr, dr, init, initf, []⟩, odr, out⟩ lines :=
  along_iff (I := fun b ↦ ∀ v ∈ b.rtc.stores, Legal v) (fun _ _ hb ↦ storesLegal_iff hb)
    (fun _ _ _ hb h hstep ↦ step_keeps_legal hb h hstep)
    (fun _ hv ↦ absurd hv List.not_mem_nil) lines

/-- `date set 24:01:15` stores `0x00240115`, where the weekday field is 0. -/
theorem date_set_stores_no_weekday :
    (∃ b', step freshBoard ⟨str "date set 24:01:15\n", by decide, [], promptWait⟩ = some b' ∧
      b'.rtc.stores = [.dr 0x00240115#32]) ∧
    ¬ Along step StoresLegal freshBoard
      [⟨str "date set 24:01:15\n", by decide, [], promptWait⟩] := by
  have hstep : (step freshBoard ⟨str "date set 24:01:15\n", by decide, [], promptWait⟩).map
      (fun b ↦ b.rtc.stores) = some [.dr 0x00240115#32] := by decide
  obtain ⟨b', hb', hst⟩ := Option.map_eq_some_iff.mp hstep
  refine ⟨⟨b', hb', hst⟩, fun h ↦ ?_⟩
  have hlegal := h.1 b' hb' (.dr 0x00240115#32) (by rw [hst]; exact List.mem_cons_self ..)
  have hword : dateWord 24 1 15 = 0x00240115#32 := by decide
  rw [← hword] at hlegal
  exact not_legal_dateWord ⟨24, 1, 15, by decide, by decide, by decide, by decide, by decide⟩ hlegal

end Tanenbaum.Cli.Legality
