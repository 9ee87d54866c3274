import Mathlib.Data.List.GetD
import Mathlib.Logic.Function.Basic

namespace Tanenbaum.Lib.Terminal

def Printable (c : UInt8) : Prop := 0x20 ≤ c ∧ c < 0x7f

instance (c : UInt8) : Decidable (Printable c) := inferInstanceAs (Decidable (_ ∧ _))

/-- The cursor's row of a terminal, wider than any text on it. -/
structure Screen where
  row : ℕ → UInt8
  col : ℕ

def blank : Screen := ⟨fun _ ↦ 32, 0⟩

/-- Printable characters are written at the cursor, a backspace and a carriage
return only move it, and every other byte is ignored. -/
def put (t : Screen) (c : UInt8) : Screen :=
  if c = 8 then { t with col := t.col - 1 }
  else if c = 13 then { t with col := 0 }
  else if Printable c then ⟨Function.update t.row t.col c, t.col + 1⟩
  else t

def putAll (t : Screen) (text : List UInt8) : Screen := text.foldl put t

/-- The row that reads `L`, followed by blanks. -/
def rowOf (L : List UInt8) (i : ℕ) : UInt8 := L.getD i 32

variable {t : Screen} {c : UInt8} {L M : List UInt8}

theorem putAll_append (t : Screen) (L M : List UInt8) :
    putAll t (L ++ M) = putAll (putAll t L) M :=
  List.foldl_append

theorem putAll_cons (t : Screen) (c : UInt8) (L : List UInt8) :
    putAll t (c :: L) = putAll (put t c) L :=
  List.foldl_cons ..

theorem put_backspace (t : Screen) : put t 8 = { t with col := t.col - 1 } :=
  if_pos rfl

theorem put_return (t : Screen) : put t 13 = { t with col := 0 } := by
  rw [put, if_neg (by decide), if_pos rfl]

theorem put_delete (t : Screen) : put t 0x7f = t := by
  rw [put, if_neg (by decide), if_neg (by decide), if_neg (by decide)]

theorem put_printable (h : Printable c) :
    put t c = ⟨Function.update t.row t.col c, t.col + 1⟩ := by
  have hbs : c ≠ 8 := by
    rintro rfl
    exact absurd h.1 (by decide)
  have hcr : c ≠ 13 := by
    rintro rfl
    exact absurd h.1 (by decide)
  rw [put, if_neg hbs, if_neg hcr, if_pos h]

theorem rowOf_concat (L : List UInt8) (c : UInt8) :
    rowOf (L ++ [c]) = Function.update (rowOf L) L.length c := by
  funext i
  rw [Function.update_apply, rowOf, rowOf]
  rcases Nat.lt_trichotomy i L.length with hlt | heq | hgt
  · rw [if_neg (Nat.ne_of_lt hlt), List.getD_append _ _ _ _ hlt]
  · rw [if_pos heq, heq, List.getD_append_right _ _ _ _ (Nat.le_refl _), Nat.sub_self]
    rfl
  · rw [if_neg (Nat.ne_of_gt hgt), List.getD_eq_default _ _ (Nat.le_of_lt hgt),
      List.getD_eq_default]
    rw [List.length_append, List.length_singleton]
    exact hgt

/-- A blank at the end of the row cannot be told from an empty cell. -/
theorem rowOf_concat_blank (L : List UInt8) : rowOf (L ++ [32]) = rowOf L := by
  rw [rowOf_concat]
  apply Function.update_eq_self_iff.mpr
  exact (List.getD_eq_default _ _ (Nat.le_refl _)).symm

theorem putAll_rowOf (h : ∀ c ∈ L, Printable c) (M : List UInt8) :
    putAll ⟨rowOf M, M.length⟩ L = ⟨rowOf (M ++ L), (M ++ L).length⟩ := by
  induction L generalizing M with
  | nil => rw [List.append_nil]; rfl
  | cons c L ih =>
    have hput : put ⟨rowOf M, M.length⟩ c = ⟨rowOf (M ++ [c]), (M ++ [c]).length⟩ := by
      rw [put_printable (h c List.mem_cons_self), rowOf_concat, List.length_append]
      rfl
    rw [putAll_cons, hput, ih fun d hd ↦ h d (List.mem_cons_of_mem c hd), List.append_assoc,
      List.singleton_append]

theorem putAll_col (h : ∀ c ∈ L, Printable c) (t : Screen) :
    (putAll t L).col = t.col + L.length := by
  induction L generalizing t with
  | nil => rfl
  | cons c L ih =>
    rw [putAll_cons, ih (fun d hd ↦ h d (List.mem_cons_of_mem c hd)),
      put_printable (h c List.mem_cons_self), List.length_cons]
    exact Nat.add_right_comm t.col 1 L.length

/-- Writing what the row already holds moves the cursor only. -/
theorem putAll_over (h : ∀ c ∈ L, Printable c) {row : ℕ → UInt8} {k : ℕ}
    (hrow : ∀ i (hi : i < L.length), row (k + i) = L[i]) :
    putAll ⟨row, k⟩ L = ⟨row, k + L.length⟩ := by
  induction L generalizing k with
  | nil => rfl
  | cons c L ih =>
    have hput : put ⟨row, k⟩ c = ⟨row, k + 1⟩ := by
      have hc := hrow 0 (Nat.succ_pos _)
      rw [Nat.add_zero, List.getElem_cons_zero] at hc
      have hsame : Function.update row k c = row := Function.update_eq_self_iff.mpr hc.symm
      rw [put_printable (h c List.mem_cons_self), hsame]
    rw [putAll_cons, hput, ih fun d hd ↦ h d (List.mem_cons_of_mem c hd)]
    · rw [List.length_cons]
      congr 1
      omega
    · intro i hi
      have hnext := hrow (i + 1) (Nat.succ_lt_succ hi)
      rw [List.getElem_cons_succ] at hnext
      rw [← hnext]
      congr 1
      omega

/-- `\r`, the text, a blank and `\b`, whatever the row reads and wherever the
cursor is. -/
theorem putAll_redraw (h : ∀ c ∈ L, Printable c) (t : Screen) :
    putAll t (13 :: L ++ [32, 8]) =
      ⟨Function.update (putAll ⟨t.row, 0⟩ L).row L.length 32, L.length⟩ := by
  have hcol : (putAll ⟨t.row, 0⟩ L).col = L.length := by
    rw [putAll_col h, Nat.zero_add]
  rw [List.cons_append, putAll_cons, put_return, putAll_append, putAll_cons, putAll_cons,
    put_backspace, put_printable (by decide), hcol]
  rfl

/-- On a row that reads the text and one more character, the redraw erases that
character. -/
theorem putAll_redraw_concat (h : ∀ c ∈ L, Printable c) (hrow : t.row = rowOf (L ++ [c])) :
    putAll t (13 :: L ++ [32, 8]) = ⟨rowOf L, L.length⟩ := by
  have hover : putAll ⟨rowOf (L ++ [c]), 0⟩ L = ⟨rowOf (L ++ [c]), 0 + L.length⟩ := by
    apply putAll_over h
    intro i hi
    rw [Nat.zero_add, rowOf, List.getD_append _ _ _ _ hi]
    exact List.getD_eq_getElem _ _ hi
  rw [putAll_redraw h, hrow, hover, rowOf_concat]
  simp only [Function.update_idem]
  rw [← rowOf_concat, rowOf_concat_blank]

end Tanenbaum.Lib.Terminal
