import Mathlib.Data.Nat.ModEq
import Mathlib.Data.List.Range
import Mathlib.Tactic.Ring

namespace Tanenbaum.Lib.Circular

variable {β : Type*} {n r m k : ℕ} {slots slots' : ℕ → β} {x : β}

/-- The `m` slots of a ring of `n` that follow the slot `r`. -/
def contents (n : ℕ) (slots : ℕ → β) (r m : ℕ) : List β :=
  (List.range m).map fun k ↦ slots ((r + 1 + k) % n)

@[simp] theorem length_contents : (contents n slots r m).length = m := by simp [contents]

/-- Less than one turn of the ring apart, different steps lead to different slots. -/
theorem add_mod_injOn (hk : k < n) (hm : m < n) (h : (r + k) % n = (r + m) % n) : k = m := by
  have hmod : k ≡ m [MOD n] := Nat.ModEq.add_left_cancel' r h
  rwa [Nat.ModEq, Nat.mod_eq_of_lt hk, Nat.mod_eq_of_lt hm] at hmod

theorem contents_pushBack (hm : m < n) (hx : slots' ((r + 1 + m) % n) = x)
    (hslots : ∀ i < n, i ≠ (r + 1 + m) % n → slots' i = slots i) :
    contents n slots' r (m + 1) = contents n slots r m ++ [x] := by
  rw [contents, List.range_succ, List.map_append, List.map_singleton, hx, contents]
  congr 1
  refine List.map_congr_left fun k hk ↦ ?_
  have hkm : k < m := List.mem_range.mp hk
  refine hslots _ (Nat.mod_lt _ (Nat.zero_lt_of_lt hm)) fun heq ↦ ?_
  exact hkm.ne (add_mod_injOn (hkm.trans hm) hm heq)

theorem contents_popFront : contents n slots r (m + 1) =
    slots ((r + 1) % n) :: contents n slots ((r + 1) % n) m := by
  rw [contents, List.range_succ_eq_map, List.map_cons, List.map_map, contents, Nat.add_zero]
  congr 1
  refine List.map_congr_left fun k _ ↦ ?_
  have hmod : (r + 1 + (k + 1)) % n = ((r + 1) % n + 1 + k) % n := by
    rw [Nat.add_assoc, Nat.add_assoc ((r + 1) % n), Nat.mod_add_mod]
    congr 1
    ring
  exact congrArg slots hmod

theorem contents_pushFront (hr : r < n) (hm : m < n) (hx : slots' r = x)
    (hslots : ∀ i < n, i ≠ r → slots' i = slots i) :
    contents n slots' ((r + (n - 1)) % n) (m + 1) = x :: contents n slots r m := by
  have hback : ((r + (n - 1)) % n + 1) % n = r := by
    rw [Nat.mod_add_mod, Nat.add_assoc, Nat.sub_add_cancel (Nat.zero_lt_of_lt hm),
      Nat.add_mod_right, Nat.mod_eq_of_lt hr]
  rw [contents_popFront, hback, hx, contents, contents]
  congr 1
  refine List.map_congr_left fun k hk ↦ ?_
  have hkm : k < m := List.mem_range.mp hk
  refine hslots _ (Nat.mod_lt _ (Nat.zero_lt_of_lt hm)) fun heq ↦ ?_
  -- The slot in front of the first is a whole turn behind the last.
  have hturn : (r + (1 + k)) % n = (r + 0) % n := by
    rw [Nat.add_zero, Nat.mod_eq_of_lt hr, ← Nat.add_assoc]
    exact heq
  have hzero := add_mod_injOn (by omega) (Nat.zero_lt_of_lt hm) hturn
  omega

end Tanenbaum.Lib.Circular
