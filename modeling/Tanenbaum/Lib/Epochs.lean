import Mathlib.Data.Nat.Notation
import Mathlib.Tactic.Ring

namespace Tanenbaum.Lib.Epochs

variable {w n d : ℕ}

/-- A time as a counter of `w` bits shows it. -/
def stamp (w n : ℕ) : BitVec w := BitVec.ofNat w n

/-- How often the counter has overflowed by then. -/
def epoch (w n : ℕ) : ℕ := n / 2 ^ w

theorem toNat_stamp (w n : ℕ) : (stamp w n).toNat = n % 2 ^ w := BitVec.toNat_ofNat ..

theorem epoch_stamp (w n : ℕ) : 2 ^ w * epoch w n + (stamp w n).toNat = n := by
  rw [toNat_stamp]
  exact Nat.div_add_mod n (2 ^ w)

theorem stamp_add (n : ℕ) (k : BitVec w) : stamp w n + k = stamp w (n + k.toNat) := by
  apply BitVec.eq_of_toNat_eq
  rw [BitVec.toNat_add, toNat_stamp, toNat_stamp, Nat.mod_add_mod]

/-- Within one epoch the counter shows the order of times. -/
theorem stamp_le_iff (h : epoch w d = epoch w n) : stamp w d ≤ stamp w n ↔ d ≤ n := by
  have hd := epoch_stamp w d
  have hn := epoch_stamp w n
  rw [h] at hd
  rw [BitVec.le_def]
  omega

theorem stamp_lt_iff (h : epoch w d = epoch w n) : stamp w d < stamp w n ↔ d < n := by
  have hle := stamp_le_iff h.symm
  rw [← BitVec.not_le, hle, Nat.not_le]

theorem epoch_eq {e r : ℕ} (hr : r < 2 ^ w) : epoch w (2 ^ w * e + r) = e := by
  rw [epoch, Nat.mul_add_div (Nat.two_pow_pos w), Nat.div_eq_of_lt hr, Nat.add_zero]

/-- Less than a whole epoch later, the counter has overflowed if and only if it shows less. -/
theorem epoch_add (n : ℕ) (k : BitVec w) : epoch w (n + k.toNat) =
    if stamp w (n + k.toNat) < stamp w n then epoch w n + 1 else epoch w n := by
  have hn := epoch_stamp w n
  have hr := (stamp w n).isLt
  have hk := k.isLt
  have hadd := congrArg BitVec.toNat (stamp_add n k)
  rw [BitVec.toNat_add] at hadd
  by_cases hcarry : (stamp w n).toNat + k.toNat < 2 ^ w
  · rw [Nat.mod_eq_of_lt hcarry] at hadd
    rw [if_neg (by rw [BitVec.lt_def]; omega)]
    have hsplit : n + k.toNat = 2 ^ w * epoch w n + ((stamp w n).toNat + k.toNat) := by omega
    rw [hsplit, epoch_eq hcarry]
  · have hmod : ((stamp w n).toNat + k.toNat) % 2 ^ w = (stamp w n).toNat + k.toNat - 2 ^ w := by
      rw [Nat.mod_eq_sub_mod (by omega), Nat.mod_eq_of_lt (by omega)]
    rw [hmod] at hadd
    rw [if_pos (by rw [BitVec.lt_def]; omega)]
    have hsplit : n + k.toNat =
        2 ^ w * (epoch w n + 1) + ((stamp w n).toNat + k.toNat - 2 ^ w) := by
      rw [Nat.mul_succ]
      omega
    rw [hsplit, epoch_eq (by omega)]

/-- The counter overflows when the next time is shown as zero. -/
theorem epoch_succ (n : ℕ) :
    epoch w (n + 1) = if stamp w (n + 1) = 0 then epoch w n + 1 else epoch w n := by
  have hn := epoch_stamp w n
  have hr := (stamp w n).isLt
  have hstamp : (stamp w (n + 1)).toNat = ((stamp w n).toNat + 1) % 2 ^ w := by
    rw [toNat_stamp, toNat_stamp, Nat.mod_add_mod]
  have hzero : stamp w (n + 1) = 0 ↔ (stamp w (n + 1)).toNat = 0 :=
    ⟨fun h ↦ by rw [h]; exact BitVec.toNat_zero, fun h ↦ BitVec.eq_of_toNat_eq h⟩
  by_cases hcarry : (stamp w n).toNat + 1 < 2 ^ w
  · rw [Nat.mod_eq_of_lt hcarry] at hstamp
    rw [if_neg (by rw [hzero]; omega)]
    have hsplit : n + 1 = 2 ^ w * epoch w n + ((stamp w n).toNat + 1) := by omega
    rw [hsplit, epoch_eq hcarry]
  · have hlast : (stamp w n).toNat + 1 = 2 ^ w := by omega
    rw [hlast, Nat.mod_self] at hstamp
    rw [if_pos (hzero.mpr hstamp)]
    have hsplit : n + 1 = 2 ^ w * (epoch w n + 1) + 0 := by
      rw [Nat.mul_succ]
      omega
    rw [hsplit, epoch_eq (Nat.two_pow_pos w)]

theorem epoch_mono (h : d ≤ n) : epoch w d ≤ epoch w n := Nat.div_le_div_right h

/-- The difference of two stamps is the time between, when that is less than an epoch. -/
theorem toNat_stamp_sub (h : d ≤ n) (hlt : n - d < 2 ^ w) :
    (stamp w n - stamp w d).toNat = n - d := by
  have hadd := stamp_add d (BitVec.ofNat w (n - d))
  rw [BitVec.toNat_ofNat, Nat.mod_eq_of_lt hlt, Nat.add_sub_cancel' h] at hadd
  rw [← hadd, BitVec.add_comm, BitVec.add_sub_cancel, BitVec.toNat_ofNat, Nat.mod_eq_of_lt hlt]

/-- With at most one overflow between, less than an epoch has passed if there was none or the
counter shows less than before. -/
theorem sub_lt_iff (h : d ≤ n) (hnear : epoch w n ≤ epoch w d + 1) :
    n - d < 2 ^ w ↔ epoch w n = epoch w d ∨ stamp w n < stamp w d := by
  have hn := epoch_stamp w n
  have hd := epoch_stamp w d
  have hrn := (stamp w n).isLt
  have hrd := (stamp w d).isLt
  have hmono := epoch_mono (w := w) h
  rw [BitVec.lt_def]
  rcases Nat.lt_or_ge (epoch w d) (epoch w n) with hover | hsame
  · have hone : epoch w n = epoch w d + 1 := by omega
    rw [hone, Nat.mul_succ] at hn
    omega
  · have hsame : epoch w n = epoch w d := by omega
    rw [hsame] at hn
    omega

/-- Two successive epochs are told apart by their stamps. -/
theorem stamp_epoch_eq_iff (hw : w ≠ 0) (h : d ≤ n) (hnear : epoch w n ≤ epoch w d + 1) :
    stamp w (epoch w n) = stamp w (epoch w d) ↔ epoch w n = epoch w d := by
  refine ⟨fun heq ↦ ?_, congrArg (stamp w)⟩
  have hmono := epoch_mono (w := w) h
  have hpow : 2 ≤ 2 ^ w := Nat.le_self_pow hw 2
  have hsub := toNat_stamp_sub hmono (w := w) (by omega)
  rw [heq, BitVec.sub_self, BitVec.toNat_zero] at hsub
  omega

end Tanenbaum.Lib.Epochs
