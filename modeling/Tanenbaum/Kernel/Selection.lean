import Tanenbaum.Kernel.ListUse

namespace Tanenbaum.Kernel.Selection

open Lists ListUse

/-- `pxReadyTasksLists`, a list with its index for each priority, and `uxTopReadyPriority`. -/
structure Ready (τ : Type) where
  items : ℕ → List τ
  index : ℕ → Option τ
  uxTopReadyPriority : ℕ

section Functions

variable {τ : Type} [DecidableEq τ]

/-- `prvAddTaskToReadyList`, for a task of priority `p`. -/
def Ready.add (r : Ready τ) (p : ℕ) (t : τ) : Ready τ :=
  { r with
    uxTopReadyPriority := if p > r.uxTopReadyPriority then p else r.uxTopReadyPriority
    items := Function.update r.items p (insertBefore (r.index p) t (r.items p)) }

/-- `uxListRemove` of a task that is on the list of priority `p`. -/
def Ready.remove (r : Ready τ) (p : ℕ) (t : τ) : Ready τ :=
  { r with
    items := Function.update r.items p ((r.items p).erase t)
    index := Function.update r.index p
      (if r.index p = some t then before t (r.items p) else r.index p) }

/-- The loop of `taskSELECT_HIGHEST_PRIORITY_TASK`; `none` when its assertion fails. -/
def Ready.highest (r : Ready τ) : ℕ → Option ℕ
  | 0 => if r.items 0 = [] then none else some 0
  | p + 1 => if r.items (p + 1) = [] then r.highest p else some (p + 1)

/-- `taskSELECT_HIGHEST_PRIORITY_TASK`: the new `pxCurrentTCB`. -/
def Ready.select (r : Ready τ) : Option (τ × Ready τ) := do
  let uxTopPriority ← r.highest r.uxTopReadyPriority
  let t ← following (r.index uxTopPriority) (r.items uxTopPriority)
  return (t, { r with
    index := Function.update r.index uxTopPriority (some t)
    uxTopReadyPriority := uxTopPriority })

end Functions

section Holds

variable {τ : Type} {r : Ready τ} {prio : τ → ℕ} {R : τ → Prop} {t u : τ} {p : ℕ}

/-- The tasks that are ready are each on the list of their priority. -/
structure Holds (r : Ready τ) (prio : τ → ℕ) (R : τ → Prop) : Prop where
  mem : ∀ p t, t ∈ r.items p ↔ R t ∧ prio t = p
  nodup : ∀ p, (r.items p).Nodup
  index : ∀ p t, r.index p = some t → t ∈ r.items p
  top : ∀ t, R t → prio t ≤ r.uxTopReadyPriority

theorem Holds.congr {R' : τ → Prop} (h : Holds r prio R) (hR : ∀ t, R' t ↔ R t) :
    Holds r prio R' := by
  have heq : R' = R := funext fun t ↦ propext (hR t)
  rwa [heq]

variable [DecidableEq τ]

theorem insertBefore_perm (index : Option τ) (t : τ) (ts : List τ) :
    (insertBefore index t ts).Perm (t :: ts) := by
  have hperm : (insertBefore index t ts).Perm (t :: (ts.takeWhile (some · ≠ index) ++
      ts.dropWhile (some · ≠ index))) := List.perm_middle
  rwa [List.takeWhile_append_dropWhile] at hperm

theorem mem_of_before {ts : List τ} (hu : before t ts = some u) : u ∈ ts ∧ u ≠ t := by
  have hmem := List.mem_of_getLast? hu
  exact ⟨(List.takeWhile_sublist _).subset hmem, by simpa using List.mem_takeWhile_imp hmem⟩

/-- A task that becomes ready. -/
theorem Holds.add (h : Holds r prio R) (ht : ¬ R t) :
    Holds (r.add (prio t) t) prio fun u ↦ u = t ∨ R u := by
  have hout : t ∉ r.items (prio t) := fun hmem ↦ ht ((h.mem _ t).mp hmem).1
  refine ⟨fun p u ↦ ?_, fun p ↦ ?_, fun p u hu ↦ ?_, fun u hu ↦ ?_⟩
  · by_cases hp : p = prio t
    · subst hp
      simp only [Ready.add, Function.update_self]
      rw [(insertBefore_perm _ t _).mem_iff, List.mem_cons, h.mem]
      constructor
      · rintro (rfl | ⟨hu, heq⟩)
        · exact ⟨.inl rfl, rfl⟩
        · exact ⟨.inr hu, heq⟩
      · rintro ⟨rfl | hu, heq⟩
        · exact .inl rfl
        · exact .inr ⟨hu, heq⟩
    · simp only [Ready.add, Function.update_of_ne hp]
      rw [h.mem]
      constructor
      · exact fun ⟨hu, heq⟩ ↦ ⟨.inr hu, heq⟩
      · rintro ⟨rfl | hu, heq⟩
        · exact absurd heq.symm hp
        · exact ⟨hu, heq⟩
  · by_cases hp : p = prio t
    · subst hp
      simp only [Ready.add, Function.update_self]
      rw [(insertBefore_perm _ t _).nodup_iff]
      exact List.nodup_cons.mpr ⟨hout, h.nodup _⟩
    · simp only [Ready.add, Function.update_of_ne hp]
      exact h.nodup p
  · have hmem := h.index p u hu
    by_cases hp : p = prio t
    · subst hp
      simp only [Ready.add, Function.update_self]
      rw [(insertBefore_perm _ t _).mem_iff]
      exact List.mem_cons_of_mem t hmem
    · simp only [Ready.add, Function.update_of_ne hp]
      exact hmem
  · simp only [Ready.add]
    rcases hu with rfl | hu
    · split <;> omega
    · have htop := h.top u hu
      split <;> omega

theorem Holds.addAll (h : Holds r prio R) {ts : List τ} (hts : ts.Nodup) (hout : ∀ t ∈ ts, ¬ R t) :
    Holds (ts.foldl (fun r t ↦ r.add (prio t) t) r) prio fun u ↦ u ∈ ts ∨ R u := by
  induction ts generalizing r R with
  | nil => exact h.congr fun u ↦ by simp
  | cons t ts ih =>
    obtain ⟨ht, hts⟩ := List.nodup_cons.mp hts
    have hadded := h.add (hout t (List.mem_cons_self ..))
    refine (ih hadded hts fun u hu ↦ ?_).congr fun u ↦ ?_
    · rintro (rfl | hR)
      · exact ht hu
      · exact hout u (List.mem_cons_of_mem t hu) hR
    · rw [List.mem_cons]
      tauto

/-- A task that is no longer ready. -/
theorem Holds.remove (h : Holds r prio R) (ht : R t) :
    Holds (r.remove (prio t) t) prio fun u ↦ R u ∧ u ≠ t := by
  refine ⟨fun p u ↦ ?_, fun p ↦ ?_, fun p u hu ↦ ?_, fun u hu ↦ h.top u hu.1⟩
  · by_cases hp : p = prio t
    · subst hp
      simp only [Ready.remove, Function.update_self]
      rw [(h.nodup _).mem_erase_iff, h.mem]
      tauto
    · simp only [Ready.remove, Function.update_of_ne hp]
      rw [h.mem]
      constructor
      · rintro ⟨hu, rfl⟩
        exact ⟨⟨hu, fun heq ↦ hp (heq ▸ rfl)⟩, rfl⟩
      · exact fun ⟨hu, heq⟩ ↦ ⟨hu.1, heq⟩
  · by_cases hp : p = prio t
    · subst hp
      simp only [Ready.remove, Function.update_self]
      exact (h.nodup _).erase t
    · simp only [Ready.remove, Function.update_of_ne hp]
      exact h.nodup p
  · by_cases hp : p = prio t
    · subst hp
      simp only [Ready.remove, Function.update_self] at hu ⊢
      rw [(h.nodup _).mem_erase_iff]
      split at hu
      · exact (mem_of_before hu).symm
      · next hindex =>
        refine ⟨?_, h.index _ u hu⟩
        rintro rfl
        exact hindex hu
    · simp only [Ready.remove, Function.update_of_ne hp] at hu ⊢
      exact h.index p u hu

/-- The priority of a task that is not ready does not matter. -/
theorem Holds.reprioritise (h : Holds r prio R) (ht : ¬ R t) (p : ℕ) :
    Holds r (Function.update prio t p) R := by
  have hother {u : τ} (hu : R u) : Function.update prio t p u = prio u :=
    Function.update_of_ne (fun heq : u = t ↦ ht (heq ▸ hu)) ..
  refine ⟨fun q u ↦ ?_, h.nodup, h.index, fun u hu ↦ ?_⟩
  · rw [h.mem]
    exact and_congr_right fun hu ↦ by rw [hother hu]
  · rw [hother hu]
    exact h.top u hu

omit [DecidableEq τ] in
theorem highest_spec (n : ℕ) (hp : r.items p ≠ []) (hn : p ≤ n) :
    ∃ q ≤ n, r.highest n = some q ∧ r.items q ≠ [] ∧ ∀ q', q < q' → q' ≤ n → r.items q' = [] := by
  induction n with
  | zero =>
    obtain rfl : p = 0 := Nat.le_zero.mp hn
    exact ⟨0, Nat.le_refl 0, if_neg hp, hp, fun q' hlt hle ↦ absurd hlt (Nat.not_lt_of_le hle)⟩
  | succ n ih =>
    by_cases hempty : r.items (n + 1) = []
    · have hle : p ≤ n := by
        rcases Nat.lt_or_ge n p with hlt | hle
        · obtain rfl : p = n + 1 := by omega
          exact absurd hempty hp
        · exact hle
      obtain ⟨q, hq, hfound, hne, hall⟩ := ih hle
      refine ⟨q, Nat.le_succ_of_le hq, (if_pos hempty).trans hfound, hne, fun q' hlt hle' ↦ ?_⟩
      rcases Nat.lt_or_ge n q' with hlast | hle
      · obtain rfl : q' = n + 1 := by omega
        exact hempty
      · exact hall q' hlt hle
    · exact ⟨n + 1, Nat.le_refl _, if_neg hempty, hempty, fun q' hlt hle ↦ by omega⟩

/-- The task that is selected is ready, and none that is ready has a higher priority. -/
theorem Holds.select (h : Holds r prio R) (ht : R t) :
    ∃ u r', r.select = some (u, r') ∧ R u ∧ (∀ v, R v → prio v ≤ prio u) ∧ Holds r' prio R := by
  have hne {v : τ} (hv : R v) : r.items (prio v) ≠ [] :=
    List.ne_nil_of_mem ((h.mem _ v).mpr ⟨hv, rfl⟩)
  obtain ⟨p, hp, hfound, hitems, hall⟩ := highest_spec r.uxTopReadyPriority (hne ht) (h.top t ht)
  have hperm := turns_perm (h.index p)
  obtain ⟨u, hu⟩ : ∃ u, following (r.index p) (r.items p) = some u := by
    rw [head_turns (h.index p), ← Option.isSome_iff_exists, List.isSome_head?]
    have hturns : turns (r.items p) (r.index p) ≠ [] := by
      intro heq
      rw [heq] at hperm
      exact hitems hperm.symm.eq_nil
    simpa using hturns
  have hmem : u ∈ r.items p := by
    rw [head_turns (h.index p)] at hu
    exact hperm.mem_iff.mp (List.mem_of_mem_head? hu)
  obtain ⟨hR, hprio⟩ := (h.mem p u).mp hmem
  have hmax (v : τ) (hv : R v) : prio v ≤ p := by
    by_contra hlt
    exact hne hv (hall _ (Nat.lt_of_not_le hlt) (h.top v hv))
  have hselect : r.select = some (u, { r with
      index := Function.update r.index p (some u)
      uxTopReadyPriority := p }) := by
    rw [Ready.select, hfound, Option.bind_eq_bind, Option.bind_some, hu]
    rfl
  refine ⟨u, _, hselect, hR, fun v hv ↦ ?_, ?_⟩
  · rw [hprio]
    exact hmax v hv
  · refine ⟨h.mem, h.nodup, fun q v hv ↦ ?_, hmax⟩
    by_cases hq : q = p
    · subst hq
      simp only [Function.update_self] at hv
      cases hv
      exact hmem
    · simp only [Function.update_of_ne hq] at hv
      exact h.index q v hv

/-- The lists as the list functions see them. -/
def Ready.contents (r : Ready τ) : Contents τ ℕ := ⟨fun p ↦ some (r.items p), r.index, fun _ ↦ 0⟩

omit [DecidableEq τ] in
theorem contents_put (r : Ready τ) (p top : ℕ) (ts : List τ) (index : Option τ) :
    r.contents.put p ts index = Ready.contents
      ⟨Function.update r.items p ts, Function.update r.index p index, top⟩ := by
  simp only [Ready.contents, Contents.put, Contents.mk.injEq, and_true]
  funext q
  by_cases hq : q = p
  · subst hq
    simp only [Function.update_self]
  · simp only [Function.update_of_ne hq]

theorem Holds.add_spec (h : Holds r prio R) (ht : ¬ R t) :
    Spec r.contents (.insertEnd (prio t) t) .done (r.add (prio t) t).contents := by
  have hfree : r.contents.Free t := by
    intro p ts hts hmem
    cases hts
    exact ht ((h.mem p t).mp hmem).1
  have hspec := Spec.insertEnd (c := r.contents) (l := prio t) rfl hfree
  rw [contents_put r _ (r.add (prio t) t).uxTopReadyPriority] at hspec
  have hindex : Function.update r.index (prio t) (r.contents.index (prio t)) = r.index :=
    Function.update_eq_self ..
  rw [hindex] at hspec
  exact hspec

theorem Holds.remove_spec (h : Holds r prio R) (ht : R t) :
    ∃ n, Spec r.contents (.remove t) (.left n) (r.remove (prio t) t).contents := by
  have hspec := Spec.remove (c := r.contents) (l := prio t) rfl ((h.mem _ t).mpr ⟨ht, rfl⟩)
  rw [contents_put r _ r.uxTopReadyPriority] at hspec
  exact ⟨_, hspec⟩

/-- A selection is a turn on the list of the highest priority. -/
theorem select_spec {r' : Ready τ} (hselect : r.select = some (t, r')) :
    Spec r.contents (.nextEntry r'.uxTopReadyPriority) (.owner t) r'.contents := by
  obtain ⟨p, -, hselect⟩ := Option.bind_eq_some_iff.mp hselect
  obtain ⟨u, hu, hselect⟩ := Option.bind_eq_some_iff.mp hselect
  cases hselect
  have hspec := Spec.nextEntry (c := r.contents) (l := p) rfl hu
  rw [contents_put r p p] at hspec
  have hitems : Function.update r.items p (r.items p) = r.items := Function.update_eq_self ..
  rw [hitems] at hspec
  exact hspec

end Holds

end Tanenbaum.Kernel.Selection
