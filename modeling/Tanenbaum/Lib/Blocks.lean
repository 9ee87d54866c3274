import Mathlib

namespace Tanenbaum.Lib.Blocks

variable {α : Type*} [LinearOrder α]

abbrev Block (α : Type*) := α × α

def span (b : Block α) : Set α := Set.Ico b.1 b.2

/-- Blocks that lie above one another between two bounds, the newest on top. -/
inductive Stacked (lo : α) : α → List (Block α) → Prop
  | nil {hi : α} : lo ≤ hi → Stacked lo hi []
  | cons {hi : α} {b : Block α} {bs : List (Block α)} :
      Stacked lo b.1 bs → b.1 ≤ b.2 → b.2 ≤ hi → Stacked lo hi (b :: bs)

/-- What is left of the blocks after everything from `brk` on has been given back. -/
def giveBack (brk : α) (bs : List (Block α)) : List (Block α) :=
  bs.map fun b ↦ (min b.1 brk, min b.2 brk)

theorem Stacked.le {lo hi : α} {bs : List (Block α)} (h : Stacked lo hi bs) : lo ≤ hi := by
  induction h with
  | nil h => exact h
  | cons _ hb hhi ih => exact ih.trans (hb.trans hhi)

theorem Stacked.mono {lo hi hi' : α} {bs : List (Block α)} (h : Stacked lo hi bs)
    (hle : hi ≤ hi') : Stacked lo hi' bs := by
  cases h with
  | nil h => exact .nil (h.trans hle)
  | cons hs hb hhi => exact .cons hs hb (hhi.trans hle)

theorem Stacked.push {lo hi hi' : α} {bs : List (Block α)} (h : Stacked lo hi bs)
    (hle : hi ≤ hi') : Stacked lo hi' ((hi, hi') :: bs) := .cons h hle le_rfl

theorem Stacked.giveBack {lo hi brk : α} {bs : List (Block α)} (h : Stacked lo hi bs)
    (hlo : lo ≤ brk) : Stacked lo brk (giveBack brk bs) := by
  have hmin : Stacked lo (min hi brk) (Blocks.giveBack brk bs) := by
    induction h with
    | nil h => exact .nil (le_min h hlo)
    | cons _ hb hle ih =>
      exact .cons ih (min_le_min_right brk hb) (min_le_min_right brk hle)
  exact hmin.mono (min_le_right hi brk)

theorem Stacked.subset {lo hi : α} {bs : List (Block α)} (h : Stacked lo hi bs) :
    ∀ b ∈ bs, span b ⊆ Set.Ico lo hi := by
  induction h with
  | nil _ => simp
  | @cons hi b bs hs hb hle ih =>
    intro c hc
    rcases List.mem_cons.mp hc with rfl | hc
    · exact Set.Ico_subset_Ico hs.le hle
    · exact (ih c hc).trans (Set.Ico_subset_Ico_right (hb.trans hle))

theorem Stacked.pairwise_disjoint {lo hi : α} {bs : List (Block α)} (h : Stacked lo hi bs) :
    bs.Pairwise fun b c ↦ Disjoint (span b) (span c) := by
  induction h with
  | nil _ => exact List.Pairwise.nil
  | @cons hi b bs hs hb hle ih =>
    refine List.Pairwise.cons (fun c hc ↦ ?_) ih
    have hbelow : Disjoint (Set.Ico b.1 b.2) (Set.Ico lo b.1) :=
      Set.disjoint_left.mpr fun a ha ha' ↦ absurd ha.1 (not_le.mpr ha'.2)
    exact hbelow.mono_right (hs.subset c hc)

end Tanenbaum.Lib.Blocks
