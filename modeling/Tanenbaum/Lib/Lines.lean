import Mathlib.Data.List.Basic

namespace Tanenbaum.Lib.Lines

variable {α β : Type*} [DecidableEq α] {sep : α} {s u : List α}

/-- The finished lines of a stream, each with its separator, when the line `cur`
was begun before it. -/
def linesFrom (sep : α) (cur : List α) : List α → List (List α)
  | [] => []
  | c :: s =>
    if c = sep then (cur ++ [c]) :: linesFrom sep [] s else linesFrom sep (cur ++ [c]) s

/-- The line that a stream leaves unfinished. -/
def restFrom (sep : α) (cur : List α) : List α → List α
  | [] => cur
  | c :: s => if c = sep then restFrom sep [] s else restFrom sep (cur ++ [c]) s

theorem linesFrom_append (cur s u : List α) : linesFrom sep cur (s ++ u) =
    linesFrom sep cur s ++ linesFrom sep (restFrom sep cur s) u := by
  induction s generalizing cur with
  | nil => rfl
  | cons c s ih =>
    simp only [List.cons_append, linesFrom, restFrom]
    split
    · rw [ih, List.cons_append]
    · exact ih _

theorem restFrom_append (cur s u : List α) :
    restFrom sep cur (s ++ u) = restFrom sep (restFrom sep cur s) u := by
  induction s generalizing cur with
  | nil => rfl
  | cons c s ih =>
    simp only [List.cons_append, restFrom]
    split <;> exact ih _

theorem linesFrom_line (h : sep ∉ s) (cur u : List α) :
    linesFrom sep cur (s ++ sep :: u) = (cur ++ (s ++ [sep])) :: linesFrom sep [] u := by
  induction s generalizing cur with
  | nil => simp [linesFrom]
  | cons c s ih =>
    have hc : c ≠ sep := (List.ne_of_not_mem_cons h).symm
    rw [List.cons_append, linesFrom, if_neg hc, ih (List.not_mem_of_not_mem_cons h)]
    simp

theorem restFrom_line (cur s u : List α) :
    restFrom sep cur (s ++ sep :: u) = restFrom sep [] u := by
  rw [restFrom_append, restFrom, if_pos rfl]

/-- A reader of a stream: what it has done by lines, and then the lines in its
buffer, are lines of the stream, each of them once and in this order, and the
buffer ends in the line that the stream has not finished. -/
structure Follows (sep : α) (f : List α → β) (done : List β) (buffer stream : List α) : Prop where
  lines : (done ++ (linesFrom sep [] buffer).map f).Sublist ((linesFrom sep [] stream).map f)
  rest : restFrom sep [] buffer = restFrom sep [] stream

variable {f : List α → β} {done : List β} {buffer stream : List α}

theorem Follows.nil (sep : α) (f : List α → β) : Follows sep f [] [] [] :=
  ⟨.slnil, rfl⟩

theorem Follows.append (h : Follows sep f done buffer stream) (s : List α) :
    Follows sep f done (buffer ++ s) (stream ++ s) := by
  constructor
  · rw [linesFrom_append, linesFrom_append, h.rest, List.map_append, List.map_append,
      ← List.append_assoc]
    exact h.lines.append_right _
  · rw [restFrom_append, restFrom_append, h.rest]

/-- Whole lines may pass a reader whose buffer is empty. -/
theorem Follows.skip (h : Follows sep f done [] stream) (hs : restFrom sep [] s = []) :
    Follows sep f done [] (stream ++ s) := by
  constructor
  · rw [linesFrom_append, List.map_append]
    exact h.lines.trans (List.sublist_append_left _ _)
  · rw [restFrom_append, ← h.rest]
    exact hs.symm

theorem Follows.take (h : Follows sep f done (s ++ sep :: u) stream) (hs : sep ∉ s) :
    Follows sep f (done ++ [f (s ++ [sep])]) u stream := by
  constructor
  · have hlines := h.lines
    rw [linesFrom_line hs, List.nil_append, List.map_cons, List.append_cons] at hlines
    exact hlines
  · rw [← h.rest, restFrom_line]

theorem Follows.drop (h : Follows sep f done buffer stream) (hrest : restFrom sep [] buffer = []) :
    Follows sep f done [] stream := by
  constructor
  · rw [linesFrom, List.map_nil, List.append_nil]
    exact (List.sublist_append_left _ _).trans h.lines
  · rw [← h.rest, hrest]
    rfl

end Tanenbaum.Lib.Lines
