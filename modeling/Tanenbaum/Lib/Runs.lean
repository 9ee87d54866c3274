import Mathlib.Data.Option.Basic
import Mathlib.Data.List.Basic

namespace Tanenbaum.Lib.Runs

variable {σ α ε : Type*}

/-- Run a list of labels; a label that is not enabled stops the run with `none`. -/
def run (step : σ → α → Option σ) : σ → List α → Option σ
  | s, [] => some s
  | s, a :: as => (step s a).bind fun t ↦ run step t as

/-- Every label of the list meets `P` in the state in which it is taken. -/
def Along (step : σ → α → Option σ) (P : σ → α → Prop) : σ → List α → Prop
  | _, [] => True
  | s, a :: as => P s a ∧ ∀ t, step s a = some t → Along step P t as

variable {step : σ → α → Option σ} {I : σ → Prop} {P Q : σ → α → Prop}

theorem run_cons {s t : σ} {a : α} {as : List α} :
    run step s (a :: as) = some t ↔ ∃ u, step s a = some u ∧ run step u as = some t := by
  simp only [run, Option.bind_eq_some_iff]

theorem run_append (s : σ) (as bs : List α) :
    run step s (as ++ bs) = (run step s as).bind fun t ↦ run step t bs := by
  induction as generalizing s with
  | nil => rfl
  | cons a as ih => simp only [List.cons_append, run, ih, Option.bind_assoc]

theorem along_cons {s t : σ} {a : α} {as : List α} (ha : P s a) (hstep : step s a = some t)
    (h : Along step P t as) : Along step P s (a :: as) := by
  refine ⟨ha, fun u hu ↦ ?_⟩
  obtain rfl : t = u := Option.some.inj (hstep.symm.trans hu)
  exact h

theorem along_concat {s : σ} {a : α} {as : List α} : Along step P s (as ++ [a]) ↔
    Along step P s as ∧ ∀ t, run step s as = some t → P t a := by
  induction as generalizing s with
  | nil => simp [Along, run]
  | cons b as ih =>
    simp only [List.cons_append, Along, ih, run_cons]
    constructor
    · rintro ⟨hb, h⟩
      exact ⟨⟨hb, fun t ht ↦ (h t ht).1⟩, fun u ⟨t, ht, hu⟩ ↦ (h t ht).2 u hu⟩
    · rintro ⟨⟨hb, h⟩, hlast⟩
      exact ⟨hb, fun t ht ↦ ⟨h t ht, fun u hu ↦ hlast u ⟨t, ht, hu⟩⟩⟩

theorem along_left {s : σ} {as bs : List α} (h : Along step P s (as ++ bs)) :
    Along step P s as := by
  induction as generalizing s with
  | nil => trivial
  | cons a as ih => exact ⟨h.1, fun t ht ↦ ih (h.2 t ht)⟩

/-- The same by the places of the list. -/
theorem along_iff_split {s : σ} {as : List α} : Along step P s as ↔
    ∀ before a after, as = before ++ a :: after → ∀ t, run step s before = some t → P t a := by
  induction as generalizing s with
  | nil => simp [Along]
  | cons b as ih =>
    simp only [Along, ih]
    constructor
    · rintro ⟨hb, hrest⟩ before a after heq t ht
      rcases List.cons_eq_append_iff.mp heq with ⟨rfl, hcons⟩ | ⟨before, rfl, htail⟩
      · cases hcons
        cases ht
        exact hb
      · obtain ⟨u, hu, hrun⟩ := run_cons.mp ht
        exact hrest u hu before a after htail t hrun
    · intro h
      refine ⟨h [] b as rfl s rfl, fun u hu before a after heq t ht ↦ ?_⟩
      exact h (b :: before) a after (by rw [heq, List.cons_append]) t (run_cons.mpr ⟨u, hu, ht⟩)

/-- A test of each label of a run where it is taken. -/
def checkAlong (step : σ → α → Option σ) (p : σ → α → Bool) : σ → List α → Bool
  | _, [] => true
  | s, a :: as => p s a && (step s a).all fun t ↦ checkAlong step p t as

theorem along_of_check {p : σ → α → Bool} (hp : ∀ s a, p s a = true → P s a) {s : σ}
    {as : List α} (h : checkAlong step p s as = true) : Along step P s as := by
  induction as generalizing s with
  | nil => trivial
  | cons a as ih =>
    simp only [checkAlong, Bool.and_eq_true] at h
    refine ⟨hp s a h.1, fun t ht ↦ ih ?_⟩
    rw [ht] at h
    exact h.2

theorem run_invariant_along (hstep : ∀ s a t, I s → P s a → step s a = some t → I t)
    {s t : σ} {as : List α} (hs : I s) (hP : Along step P s as)
    (h : run step s as = some t) : I t := by
  induction as generalizing s with
  | nil => simpa only [run, Option.some.injEq] using Option.some.inj h ▸ hs
  | cons a as ih =>
    obtain ⟨u, hu, hrun⟩ := run_cons.mp h
    exact ih (hstep s a u hs hP.1 hu) (hP.2 u hu) hrun

/-- Labels that meet `P` are enabled in the states of an invariant, so that whole runs are. -/
theorem run_enabled_along (hstep : ∀ s a, I s → P s a → ∃ t, step s a = some t ∧ I t)
    {s : σ} {as : List α} (hs : I s) (hP : Along step P s as) :
    ∃ t, run step s as = some t ∧ I t := by
  induction as generalizing s with
  | nil => exact ⟨s, rfl, hs⟩
  | cons a as ih =>
    obtain ⟨u, hu, hI⟩ := hstep s a hs hP.1
    obtain ⟨t, hrun, ht⟩ := ih hI (hP.2 u hu)
    exact ⟨t, run_cons.mpr ⟨u, hu, hrun⟩, ht⟩

theorem run_invariant (hstep : ∀ s a t, I s → step s a = some t → I t)
    {s t : σ} {as : List α} (hs : I s) (h : run step s as = some t) : I t := by
  induction as generalizing s with
  | nil => simpa only [run, Option.some.injEq] using Option.some.inj h ▸ hs
  | cons a as ih =>
    obtain ⟨u, hu, hrun⟩ := run_cons.mp h
    exact ih (hstep s a u hs hu) hrun

/-- A run of the abstract steps is matched by a run of the concrete ones. -/
theorem run_simulates {ρ : Type*} {astep : ρ → α → Option ρ} {R : σ → ρ → Prop}
    (hstep : ∀ s c a c', R s c → astep c a = some c' → ∃ s', step s a = some s' ∧ R s' c')
    {s : σ} {c c' : ρ} {as : List α} (hs : R s c) (h : run astep c as = some c') :
    ∃ s', run step s as = some s' ∧ R s' c' := by
  induction as generalizing s c with
  | nil =>
    obtain rfl : c = c' := Option.some.inj h
    exact ⟨s, rfl, hs⟩
  | cons a as ih =>
    obtain ⟨c₁, hc, hrun⟩ := run_cons.mp h
    obtain ⟨s₁, hs₁, hr₁⟩ := hstep s c a c₁ hs hc
    obtain ⟨s', hs', hr'⟩ := ih hr₁ hrun
    exact ⟨s', run_cons.mpr ⟨s₁, hs₁, hs'⟩, hr'⟩

/-- What holds of every label of a kind in the states of an invariant holds
along runs of such labels. -/
theorem along_of_invariant {A : α → Prop} (hstep : ∀ s a t, A a → I s → step s a = some t → I t)
    (hP : ∀ s a, A a → I s → P s a) {s : σ} (hs : I s) {as : List α} (has : ∀ a ∈ as, A a) :
    Along step P s as := by
  induction as generalizing s with
  | nil => trivial
  | cons a as ih =>
    have ha := has a (List.mem_cons_self ..)
    refine ⟨hP s a ha hs, fun t ht ↦ ih (hstep s a t ha hs ht) fun b hb ↦ ?_⟩
    exact has b (List.mem_cons_of_mem a hb)

/-- What an invariant gives for the labels that meet `Q`, where only those have to keep it. -/
theorem along_of_along (hstep : ∀ s a t, I s → Q s a → step s a = some t → I t)
    (hP : ∀ s a, I s → Q s a → P s a) {s : σ} (hs : I s) {as : List α} (h : Along step Q s as) :
    Along step P s as := by
  induction as generalizing s with
  | nil => trivial
  | cons a as ih => exact ⟨hP s a hs h.1, fun t ht ↦ ih (hstep s a t hs h.1 ht) (h.2 t ht)⟩

theorem along_and {s : σ} {as : List α} (h : Along step P s as) (h' : Along step Q s as) :
    Along step (fun s a ↦ P s a ∧ Q s a) s as := by
  induction as generalizing s with
  | nil => trivial
  | cons a as ih => exact ⟨⟨h.1, h'.1⟩, fun t ht ↦ ih (h.2 t ht) (h'.2 t ht)⟩

theorem along_and_labels {A : α → Prop} {s : σ} {as : List α} (h : Along step P s as)
    (has : ∀ a ∈ as, A a) : Along step (fun s a ↦ P s a ∧ A a) s as := by
  induction as generalizing s with
  | nil => trivial
  | cons a as ih =>
    obtain ⟨ha, has⟩ := List.forall_mem_cons.mp has
    exact ⟨⟨h.1, ha⟩, fun t ht ↦ ih (h.2 t ht) has⟩

/-- Two conditions that agree on the states of an invariant agree along whole
runs, where the invariant only has to survive the steps that meet them. -/
theorem along_iff (hPQ : ∀ s a, I s → (P s a ↔ Q s a))
    (hstep : ∀ s a t, I s → Q s a → step s a = some t → I t)
    {s : σ} (hs : I s) (as : List α) : Along step P s as ↔ Along step Q s as := by
  induction as generalizing s with
  | nil => exact Iff.rfl
  | cons a as ih =>
    constructor
    · rintro ⟨hp, hrest⟩
      have hq := (hPQ s a hs).mp hp
      exact ⟨hq, fun t ht ↦ (ih (hstep s a t hs hq ht)).mp (hrest t ht)⟩
    · rintro ⟨hq, hrest⟩
      exact ⟨(hPQ s a hs).mpr hq, fun t ht ↦ (ih (hstep s a t hs hq ht)).mpr (hrest t ht)⟩

/-- The step that also keeps a record of what its labels show. -/
def recording (step : σ → α → Option σ) (shows : σ → α → List ε) (p : σ × List ε) (a : α) :
    Option (σ × List ε) :=
  (step p.1 a).map fun t ↦ (t, p.2 ++ shows p.1 a)

theorem recording_eq_some {shows : σ → α → List ε} {p q : σ × List ε} {a : α} :
    recording step shows p a = some q ↔ step p.1 a = some q.1 ∧ q.2 = p.2 ++ shows p.1 a := by
  simp only [recording, Option.map_eq_some_iff]
  constructor
  · rintro ⟨t, ht, rfl⟩
    exact ⟨ht, rfl⟩
  · rintro ⟨ht, hq⟩
    exact ⟨q.1, ht, by rw [← hq]⟩

theorem along_recording (shows : σ → α → List ε) {s : σ} {as : List α} (h : Along step P s as)
    (log : List ε) : Along (recording step shows) (fun p a ↦ P p.1 a) (s, log) as := by
  induction as generalizing s log with
  | nil => trivial
  | cons a as ih =>
    refine ⟨h.1, fun q hq ↦ ?_⟩
    exact ih (h.2 q.1 (recording_eq_some.mp hq).1) q.2

end Tanenbaum.Lib.Runs
