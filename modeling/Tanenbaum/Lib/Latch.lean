import Tanenbaum.Lib.Runs
import Mathlib.Data.List.Induction

namespace Tanenbaum.Lib.Latch

open Runs

variable {σ α β : Type*}

/-- Every label that closes the latch is followed by one that opens it. -/
def Opened (closes opens : α → Prop) (as : List α) : Prop :=
  ∀ before a after, as = before ++ a :: after → closes a → ∃ b ∈ after, opens b

/-- The latch is open after `before`, then `a` closes it, and it stays closed. -/
structure ClosedBy (closes opens : α → Prop) (before : List α) (a : α) (after : List α) :
    Prop where
  opened : Opened closes opens before
  closes : closes a
  shut : ∀ b ∈ after, ¬ opens b

/-- A latch takes its input when it is closed, and keeps it until it is opened. -/
structure IsLatch (step : σ → α → Option σ) (closes opens : α → Prop) (input : σ → β)
    (held : σ → Option β) : Prop where
  close : ∀ s a t, step s a = some t → closes a → held t = some ((held s).getD (input s))
  release : ∀ s a t, step s a = some t → opens a → held t = none
  keep : ∀ s a t, step s a = some t → ¬ closes a → ¬ opens a → held t = held s

variable {step : σ → α → Option σ} {closes opens : α → Prop} {input : σ → β} {held : σ → Option β}
  {s t : σ} {as before after : List α} {a : α} {v : β}

theorem concat_eq_append_cons {b : α} (h : as ++ [a] = before ++ b :: after) :
    (before = as ∧ b = a ∧ after = []) ∨
      ∃ rest, as = before ++ b :: rest ∧ after = rest ++ [a] := by
  rcases List.eq_nil_or_concat after with rfl | ⟨rest, c, rfl⟩
  · obtain ⟨hfront, hlast⟩ := List.append_inj' h rfl
    exact .inl ⟨hfront.symm, (List.cons.inj hlast).1.symm, rfl⟩
  · rw [List.concat_eq_append, ← List.cons_append, ← List.append_assoc] at h
    obtain ⟨hfront, hlast⟩ := List.append_inj' h rfl
    exact .inr ⟨rest, hfront, by rw [List.concat_eq_append, (List.cons.inj hlast).1]⟩

theorem Opened.concat (hopen : opens a ∨ Opened closes opens as) (ha : ¬ closes a) :
    Opened closes opens (as ++ [a]) := by
  intro before b after heq hb
  rcases concat_eq_append_cons heq with ⟨-, rfl, -⟩ | ⟨rest, hrest, rfl⟩
  · exact absurd hb ha
  · rcases hopen with hopen | hopen
    · exact ⟨a, List.mem_append_right rest (List.mem_singleton_self a), hopen⟩
    · obtain ⟨c, hc, hopens⟩ := hopen before b rest hrest hb
      exact ⟨c, List.mem_append_left [a] hc, hopens⟩

theorem Opened.not_closedBy (h : Opened closes opens (before ++ a :: after)) :
    ¬ ClosedBy closes opens before a after := by
  intro hclosed
  obtain ⟨b, hb, hopens⟩ := h before a after rfl hclosed.closes
  exact hclosed.shut b hb hopens

theorem ClosedBy.concat {b : α} (h : ClosedBy closes opens before a after) (hb : ¬ opens b) :
    ClosedBy closes opens before a (after ++ [b]) := by
  refine ⟨h.opened, h.closes, fun c hc ↦ ?_⟩
  rcases List.mem_append.mp hc with hc | hc
  · exact h.shut c hc
  · rw [List.mem_singleton.mp hc]
    exact hb

theorem IsLatch.not_opens (h : IsLatch step closes opens input held) (hstep : step s a = some t)
    (ha : closes a) : ¬ opens a := by
  intro hopens
  cases (h.close s a t hstep ha).symm.trans (h.release s a t hstep hopens)

/-- After a run the latch is open, or holds its input from when it was closed. -/
theorem IsLatch.held_cases (h : IsLatch step closes opens input held) (hs : held s = none)
    (hrun : run step s as = some t) : (held t = none ∧ Opened closes opens as) ∨
      ∃ before a after u, as = before ++ a :: after ∧ ClosedBy closes opens before a after ∧
        run step s before = some u ∧ held t = some (input u) := by
  induction as using List.reverseRecOn generalizing t with
  | nil =>
    cases hrun
    exact .inl ⟨hs, fun before a after heq ↦ absurd heq (by simp)⟩
  | append_singleton as a ih =>
    rw [run_append, Option.bind_eq_some_iff] at hrun
    obtain ⟨u, hu, hlast⟩ := hrun
    obtain ⟨t', hstep, hnil⟩ := run_cons.mp hlast
    cases hnil
    by_cases hcloses : closes a
    · have hnot := h.not_opens hstep hcloses
      have hheld := h.close u a t hstep hcloses
      rcases ih hu with ⟨hnone, hopened⟩ | ⟨before, b, after, w, rfl, hclosed, hw, hsome⟩
      · rw [hnone] at hheld
        exact .inr ⟨as, a, [], u, rfl, ⟨hopened, hcloses, by simp⟩, hu, hheld⟩
      · rw [hsome] at hheld
        exact .inr ⟨before, b, after ++ [a], w, by simp, hclosed.concat hnot, hw, hheld⟩
    · by_cases hopens : opens a
      · exact .inl ⟨h.release u a t hstep hopens, .concat (.inl hopens) hcloses⟩
      · have hheld := h.keep u a t hstep hcloses hopens
        rcases ih hu with ⟨hnone, hopened⟩ | ⟨before, b, after, w, rfl, hclosed, hw, hsome⟩
        · exact .inl ⟨hheld.trans hnone, .concat (.inr hopened) hcloses⟩
        · exact .inr ⟨before, b, after ++ [a], w, by simp, hclosed.concat hopens, hw,
            hheld.trans hsome⟩

theorem IsLatch.run_kept (h : IsLatch step closes opens input held) (hs : held s = some v)
    (has : ∀ a ∈ as, ¬ opens a) (hrun : run step s as = some t) : held t = some v := by
  induction as generalizing s with
  | nil =>
    cases hrun
    exact hs
  | cons a as ih =>
    obtain ⟨ha, has⟩ := List.forall_mem_cons.mp has
    obtain ⟨u, hu, hrun⟩ := run_cons.mp hrun
    refine ih ?_ has hrun
    by_cases hcloses : closes a
    · rw [h.close s a u hu hcloses, hs]
      rfl
    · rw [h.keep s a u hu hcloses ha, hs]

/-- A latch that was open at first holds the input of the label that closed it. -/
theorem IsLatch.held_iff (h : IsLatch step closes opens input held) (hs : held s = none)
    (hrun : run step s as = some t) : held t = some v ↔
      ∃ before a after u, as = before ++ a :: after ∧ ClosedBy closes opens before a after ∧
        run step s before = some u ∧ input u = v := by
  constructor
  · intro hv
    rcases h.held_cases hs hrun with ⟨hnone, -⟩ | ⟨before, a, after, u, has, hclosed, hu, hsome⟩
    · cases hnone.symm.trans hv
    · exact ⟨before, a, after, u, has, hclosed, hu, Option.some.inj (hsome.symm.trans hv)⟩
  · rintro ⟨before, a, after, u, rfl, hclosed, hu, rfl⟩
    have hopen : held u = none := by
      rcases h.held_cases hs hu with ⟨hnone, -⟩ | ⟨b₁, a₁, after₁, u₁, heq, hclosed₁, -, -⟩
      · exact hnone
      · exact absurd hclosed₁ (heq ▸ hclosed.opened).not_closedBy
    rw [run_append, hu, Option.bind_some] at hrun
    obtain ⟨w, hw, hrun⟩ := run_cons.mp hrun
    have hheld := h.close u a w hw hclosed.closes
    rw [hopen] at hheld
    exact h.run_kept hheld hclosed.shut hrun

end Tanenbaum.Lib.Latch
