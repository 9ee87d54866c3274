import Mathlib.Data.Finset.Card
import Mathlib.Data.Finset.Dedup

namespace Tanenbaum.Lib.Waiting

/-- Something that sleepers wait for: how much of it there is, who sleeps, how many
wake-ups are owed to the sleepers, and who is awake and about to take some. -/
structure Resource (τ : Type*) where
  avail : ℕ
  waiting : List τ
  owed : ℕ
  awake : Finset τ

variable {τ : Type*} {d d' : Resource τ} {t : τ} {ws : List τ}

/-- Nobody sleeps next to something to take, unless those who are awake or will
be woken are enough for all of it. -/
def Resource.Balanced (d : Resource τ) : Prop :=
  d.waiting ≠ [] → d.avail ≤ d.awake.card + d.owed ∨ d.waiting.length ≤ d.owed

namespace Resource.Balanced

theorem of_avail (h : d.avail = 0) : d.Balanced := fun _ ↦ .inl (by omega)

/-- Less to take, fewer asleep, more awake. -/
theorem mono (h : d.Balanced) (havail : d'.avail ≤ d.avail)
    (hwaiting : d'.waiting.length ≤ d.waiting.length) (howed : d'.owed = d.owed)
    (hawake : d.awake ⊆ d'.awake) : d'.Balanced := by
  intro hne
  have hcard := Finset.card_le_card hawake
  have hpos := List.length_pos_iff.mpr hne
  have := h (List.ne_nil_of_length_pos (hpos.trans_le hwaiting))
  omega

/-- One more to take, and one more wake-up owed, or enough for everyone. -/
theorem post {n : ℕ} (h : d.Balanced) (havail : d'.avail ≤ d.avail + 1)
    (hwaiting : d'.waiting = d.waiting) (hawake : d.awake ⊆ d'.awake)
    (howed : d'.owed = d.owed + 1 ∨ d'.owed = d.owed ∧ n ≤ d.owed) (hn : d.waiting.length ≤ n) :
    d'.Balanced := by
  intro hne
  have hcard := Finset.card_le_card hawake
  rw [hwaiting] at hne ⊢
  have := h hne
  omega

/-- One goes to sleep, with a wake-up owed for whatever came since it last looked. -/
theorem block {n : ℕ} (havail : d.avail ≤ d.owed ∨ n ≤ d.owed) (hn : d.waiting.length ≤ n) :
    d.Balanced := by
  intro _
  omega

variable [DecidableEq τ]

/-- One who is awake takes one and goes. -/
theorem take (h : d.Balanced) (havail : d'.avail + 1 ≤ d.avail) (hwaiting : d'.waiting = d.waiting)
    (howed : d'.owed = d.owed) (hawake : d.awake ⊆ insert t d'.awake) : d'.Balanced := by
  intro hne
  have hcard := (Finset.card_le_card hawake).trans (Finset.card_insert_le t d'.awake)
  rw [hwaiting] at hne ⊢
  have := h hne
  omega

theorem card_add_length_le (hws : ws.Nodup) (hawake : d.awake ⊆ d'.awake)
    (hnew : ∀ t ∈ ws, t ∈ d'.awake ∧ t ∉ d.awake) :
    d.awake.card + ws.length ≤ d'.awake.card := by
  have hdisjoint : Disjoint d.awake ws.toFinset := by
    rw [Finset.disjoint_right]
    intro t ht
    exact (hnew t (List.mem_toFinset.mp ht)).2
  rw [← List.toFinset_card_of_nodup hws, ← Finset.card_union_of_disjoint hdisjoint]
  refine Finset.card_le_card (Finset.union_subset hawake fun t ht ↦ ?_)
  exact (hnew t (List.mem_toFinset.mp ht)).1

/-- The first sleepers are woken, as many as there is more to take and as are no longer owed. -/
theorem wake (ws : List τ) (h : d.Balanced) (hwaiting : d.waiting = ws ++ d'.waiting) (hws : ws.Nodup)
    (hawake : d.awake ⊆ d'.awake) (hnew : ∀ t ∈ ws, t ∈ d'.awake ∧ t ∉ d.awake)
    (howed : d'.owed = 0) (hlen : d'.waiting ≠ [] →
      d'.avail + d.owed ≤ d.avail + ws.length ∧ d.owed ≤ ws.length) : d'.Balanced := by
  intro hne
  have hcard := card_add_length_le hws hawake hnew
  have hlength : d.waiting.length = ws.length + d'.waiting.length := by
    rw [hwaiting, List.length_append]
  have hpos := List.length_pos_iff.mpr hne
  have hold := h (by simp [hwaiting, hne])
  have := hlen hne
  omega

/-- One who is awake goes and wakes another. -/
theorem relay {w : τ} (h : d.Balanced) (havail : d'.avail = d.avail)
    (hwaiting : d.waiting = w :: d'.waiting) (howed : d'.owed = d.owed)
    (hawake : d.awake ⊆ insert t d'.awake) (hw : w ∈ d'.awake) (hnew : w ∉ d.awake) :
    d'.Balanced := by
  intro hne
  have hsub : insert w d.awake ⊆ insert t d'.awake :=
    Finset.insert_subset (Finset.mem_insert_of_mem hw) hawake
  have hcard := (Finset.card_le_card hsub).trans (Finset.card_insert_le t d'.awake)
  rw [Finset.card_insert_of_notMem hnew] at hcard
  have hlength : d.waiting.length = d'.waiting.length + 1 := by
    rw [hwaiting, List.length_cons]
  have := h (by simp [hwaiting])
  omega

end Resource.Balanced

end Tanenbaum.Lib.Waiting
