import Mathlib.Data.List.Basic

namespace Tanenbaum.Lib.Feed

variable {σ σ' α ρ ρ' : Type*}

/-- Feed symbols to a machine that answers each with a new state or with a
result. The result comes with the symbols that are left. -/
def feed (step : σ → α → σ ⊕ ρ) : σ → List α → σ ⊕ (ρ × List α)
  | s, [] => .inl s
  | s, a :: as =>
    match step s a with
    | .inl t => feed step t as
    | .inr r => .inr (r, as)

/-- Two machines finish at the same symbol with related results, or neither finishes. -/
def Agree (ok : ρ → ρ' → Prop) : σ ⊕ (ρ × List α) → σ' ⊕ (ρ' × List α) → Prop
  | .inl _, .inl _ => True
  | .inr (r, as), .inr (r', as') => as = as' ∧ ok r r'
  | _, _ => False

variable {step : σ → α → σ ⊕ ρ} {step' : σ' → α → σ' ⊕ ρ'} {ok : ρ → ρ' → Prop}
  {s : σ} {s' : σ'} {a : α} {as rest : List α}

theorem feed_cons_inl {t : σ} (h : step s a = .inl t) :
    feed step s (a :: as) = feed step t as := by
  rw [feed, h]

theorem feed_cons_inr {r : ρ} (h : step s a = .inr r) :
    feed step s (a :: as) = .inr (r, as) := by
  rw [feed, h]

theorem feed_append {t : σ} (h : feed step s as = .inl t) (bs : List α) :
    feed step s (as ++ bs) = feed step t bs := by
  induction as generalizing s with
  | nil =>
    cases h
    rfl
  | cons b as ih =>
    cases hstep : step s b with
    | inl u =>
      rw [feed_cons_inl hstep] at h
      rw [List.cons_append, feed_cons_inl hstep]
      exact ih h
    | inr r =>
      rw [feed_cons_inr hstep] at h
      cases h

/-- What holds after every prefix of the input: the first state and what holds
after every prefix of the rest. -/
theorem forall_prefix_cons {t : σ} {P : σ → Prop} (h : step s a = .inl t) :
    (∀ v, v <+: a :: as → ∀ u, feed step s v = .inl u → P u) ↔
      P s ∧ ∀ v, v <+: as → ∀ u, feed step t v = .inl u → P u := by
  constructor
  · intro hall
    refine ⟨hall [] List.nil_prefix s rfl, fun v hv u hu ↦ ?_⟩
    apply hall (a :: v) (List.cons_prefix_cons.mpr ⟨rfl, hv⟩)
    rw [feed_cons_inl h, hu]
  · intro ⟨hs, hrest⟩ v hv u hu
    rcases List.prefix_cons_iff.mp hv with rfl | ⟨w, rfl, hw⟩
    · cases hu
      exact hs
    · rw [feed_cons_inl h] at hu
      exact hrest w hw u hu

theorem feed_concat_inl {t u : σ} (h : feed step s as = .inl t) (ha : step t a = .inl u) :
    feed step s (as ++ [a]) = .inl u := by
  rw [feed_append h, feed_cons_inl ha]
  rfl

theorem feed_concat_inr {t : σ} {r : ρ} (h : feed step s as = .inl t) (ha : step t a = .inr r) :
    feed step s (as ++ [a]) = .inr (r, []) := by
  rw [feed_append h, feed_cons_inr ha]

/-- The machine finishes on the last symbol. -/
theorem feed_eq_inr_nil {r : ρ} : feed step s as = .inr (r, []) ↔
    ∃ bs a t, as = bs ++ [a] ∧ feed step s bs = .inl t ∧ step t a = .inr r := by
  constructor
  · intro h
    induction as generalizing s with
    | nil => cases h
    | cons b as ih =>
      cases hstep : step s b with
      | inl u =>
        rw [feed_cons_inl hstep] at h
        obtain ⟨bs, a, t, rfl, hbs, ha⟩ := ih h
        exact ⟨b :: bs, a, t, rfl, by rw [feed_cons_inl hstep, hbs], ha⟩
      | inr q =>
        rw [feed_cons_inr hstep] at h
        cases h
        exact ⟨[], b, s, rfl, rfl, hstep⟩
  · rintro ⟨bs, a, t, rfl, hbs, ha⟩
    exact feed_concat_inr hbs ha

theorem rest_lt_of_feed {r : ρ} (h : feed step s as = .inr (r, rest)) :
    rest.length < as.length := by
  induction as generalizing s with
  | nil => cases h
  | cons a as ih =>
    cases hstep : step s a with
    | inl t =>
      rw [feed_cons_inl hstep] at h
      exact Nat.lt_succ_of_lt (ih h)
    | inr q =>
      rw [feed_cons_inr hstep] at h
      cases h
      exact Nat.lt_succ_self _

theorem agree_inl_inl {t : σ} {t' : σ'} (h : step s a = .inl t) (h' : step' s' a = .inl t') :
    Agree ok (feed step s (a :: as)) (feed step' s' (a :: as)) ↔
      Agree ok (feed step t as) (feed step' t' as) := by
  rw [feed_cons_inl h, feed_cons_inl h']

theorem agree_inr_inr {r : ρ} {r' : ρ'} (h : step s a = .inr r) (h' : step' s' a = .inr r') :
    Agree ok (feed step s (a :: as)) (feed step' s' (a :: as)) ↔ ok r r' := by
  rw [feed_cons_inr h, feed_cons_inr h', Agree]
  exact and_iff_right rfl

/-- Machines whose related states answer each symbol alike agree on every input. -/
theorem agree_of_related {R : σ → σ' → Prop}
    (hstep : ∀ s s' a, R s s' → (∃ t t', step s a = .inl t ∧ step' s' a = .inl t' ∧ R t t') ∨
      ∃ r r', step s a = .inr r ∧ step' s' a = .inr r' ∧ ok r r')
    (h : R s s') (as : List α) : Agree ok (feed step s as) (feed step' s' as) := by
  induction as generalizing s s' with
  | nil => trivial
  | cons a as ih =>
    rcases hstep s s' a h with ⟨t, t', ht, ht', hR⟩ | ⟨r, r', hr, hr', hok⟩
    · exact (agree_inl_inl ht ht').mpr (ih hR)
    · exact (agree_inr_inr hr hr').mpr hok

/-- A machine that misses the symbol at which the other finishes can only finish later. -/
theorem not_agree_inr_inl {r : ρ} {t' : σ'} (h : step s a = .inr r) (h' : step' s' a = .inl t') :
    ¬ Agree ok (feed step s (a :: as)) (feed step' s' (a :: as)) := by
  rw [feed_cons_inr h, feed_cons_inl h']
  rcases hfeed : feed step' t' as with u | ⟨q, rest⟩
  · exact id
  · rintro ⟨rfl, -⟩
    exact absurd (rest_lt_of_feed hfeed) (Nat.lt_irrefl _)

end Tanenbaum.Lib.Feed
