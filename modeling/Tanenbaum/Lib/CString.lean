import Mathlib.Computability.Language
import Mathlib.Data.List.TakeWhile

namespace Tanenbaum.Lib.CString

open scoped Computability

/-- The bytes that can be read from a pointer on. Reading past the last of them is a fault. -/
abbrev Str := List UInt8

/-- Memory that holds the characters `s`, a NUL, and anything after it. -/
def terminated (s junk : Str) : Str := s ++ 0 :: junk

/-- `while (P(*p)) ++p;` -/
def skipWhile (P : UInt8 → Bool) : Str → Option Str
  | [] => none
  | c :: p => if P c then skipWhile P p else some (c :: p)

/-- `!strncmp(p, w, n)` with `n` the length of `w`: the comparison reads no
further than the first difference or NUL. -/
def strncmpEq : Str → Str → Option Bool
  | _, [] => some true
  | [], _ :: _ => none
  | c :: p, d :: w =>
    if c ≠ d then some false else if c = 0 then some true else strncmpEq p w

section Terminated

variable {s junk : Str}

theorem terminated_cons (c : UInt8) (s junk : Str) :
    terminated (c :: s) junk = c :: terminated s junk := rfl

theorem terminated_drop {n : ℕ} (h : n ≤ s.length) :
    (terminated s junk).drop n = terminated (s.drop n) junk := by
  simp only [terminated, List.drop_append_of_le_length h]

/-- Memory that holds a NUL is terminated by the first one. -/
theorem exists_terminated {buf : Str} (h : 0 ∈ buf) : ∃ s junk, 0 ∉ s ∧ buf = terminated s junk := by
  obtain ⟨s, junk, hbuf, hs⟩ := List.eq_append_cons_of_mem h
  exact ⟨s, junk, hs, hbuf⟩

theorem idxOf_terminated (hs : 0 ∉ s) : (terminated s junk).idxOf 0 = s.length := by
  rw [terminated, List.idxOf_append_of_notMem hs, List.idxOf_cons_self, Nat.add_zero]

theorem takeWhile_terminated (hs : 0 ∉ s) : (terminated s junk).takeWhile (· ≠ 0) = s := by
  rw [terminated, List.takeWhile_append_of_pos]
  · simp
  · intro c hc
    exact decide_eq_true fun h ↦ hs (h ▸ hc)

theorem skipWhile_terminated {P : UInt8 → Bool} (hP : P 0 = false) (s junk : Str) :
    skipWhile P (terminated s junk) = some (terminated (s.dropWhile P) junk) := by
  induction s with
  | nil => simp [terminated, skipWhile, hP]
  | cons c s ih =>
    cases hc : P c with
    | false => simp [terminated_cons, skipWhile, hc]
    | true => simpa only [terminated_cons, skipWhile, hc, if_true, List.dropWhile_cons_of_pos] using ih

theorem strncmpEq_terminated {w : Str} (hw : 0 ∉ w) (hs : 0 ∉ s) :
    strncmpEq (terminated s junk) w = some (decide (w <+: s)) := by
  induction w generalizing s with
  | nil => cases s <;> simp [terminated, strncmpEq]
  | cons d w ih =>
    rw [List.mem_cons, not_or] at hw
    cases s with
    | nil => simp [terminated, strncmpEq, hw.1]
    | cons c s =>
      rw [List.mem_cons, not_or] at hs
      by_cases hcd : c = d
      · subst c
        simp [terminated_cons, strncmpEq, Ne.symm hw.1, ih hw.2 hs.2]
      · simp [terminated_cons, strncmpEq, hcd, Ne.symm hcd]

end Terminated

section Languages

variable {α : Type*}

theorem mem_singleton_mul {w s : List α} {L : Language α} :
    s ∈ {w} * L ↔ ∃ t, s = w ++ t ∧ t ∈ L := by
  constructor
  · intro h
    obtain ⟨a, ha, t, ht, rfl⟩ := Language.mem_mul.mp h
    exact ⟨t, by rw [Set.mem_singleton_iff.mp ha], ht⟩
  · rintro ⟨t, rfl, ht⟩
    exact Language.mem_mul.mpr ⟨w, Set.mem_singleton w, t, ht, rfl⟩

def wordsOf (P : α → Bool) : Language α := {w | ∀ c ∈ w, P c = true}

/-- A language none of whose words starts with a letter of the class, nor is empty. -/
def StartsOutside (P : α → Bool) (L : Language α) : Prop :=
  ∀ s ∈ L, ∃ c t, s = c :: t ∧ P c = false

theorem dropWhile_append_outside {P : α → Bool} {w t : List α} {c : α}
    (hw : ∀ d ∈ w, P d = true) (hc : P c = false) :
    (w ++ c :: t).dropWhile P = c :: t := by
  induction w with
  | nil => simp [hc]
  | cons d w ih =>
    rw [List.cons_append, List.dropWhile_cons_of_pos (hw d (List.mem_cons_self ..))]
    exact ih fun e he ↦ hw e (List.mem_cons_of_mem d he)

/-- Skipping the letters of a class is the only way to split them off. -/
theorem mem_wordsOf_mul {P : α → Bool} {L : Language α} (hL : StartsOutside P L) {s : List α} :
    s ∈ wordsOf P * L ↔ s.dropWhile P ∈ L := by
  constructor
  · intro h
    obtain ⟨w, hw, t, ht, rfl⟩ := Language.mem_mul.mp h
    obtain ⟨c, u, rfl, hc⟩ := hL t ht
    rwa [dropWhile_append_outside hw hc]
  · intro h
    refine Language.mem_mul.mpr ⟨s.takeWhile P, fun c hc ↦ ?_, s.dropWhile P, h, ?_⟩
    · exact List.mem_takeWhile_imp hc
    · exact List.takeWhile_append_dropWhile

end Languages

end Tanenbaum.Lib.CString
