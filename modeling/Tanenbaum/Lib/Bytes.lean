import Mathlib.Data.Nat.Notation

namespace Tanenbaum.Lib.Bytes

/-- A 32-bit machine word: a register, a pointer, or an `int` in two's complement. -/
abbrev Word := BitVec 32

variable {w : ℕ}

theorem toNat_pos {x : BitVec w} (h : x ≠ 0) : 0 < x.toNat :=
  Nat.pos_of_ne_zero fun hz ↦ h (BitVec.eq_of_toNat_eq hz)

/-- Byte number `k` of a word, from the least significant. -/
def byteAt (k : ℕ) (x : BitVec w) : BitVec 8 := x.extractLsb' (8 * k) 8

@[simp] theorem byteAt_or (k : ℕ) (x y : BitVec w) :
    byteAt k (x ||| y) = byteAt k x ||| byteAt k y := BitVec.extractLsb'_or

@[simp] theorem byteAt_and (k : ℕ) (x y : BitVec w) :
    byteAt k (x &&& y) = byteAt k x &&& byteAt k y := BitVec.extractLsb'_and

theorem byteAt_shiftLeft {j n : ℕ} (hn : 8 ∣ n) (hj : 8 * j + 8 ≤ w) (x : BitVec w) :
    byteAt j (x <<< n) = if j < n / 8 then 0#8 else byteAt (j - n / 8) x := by
  obtain ⟨k, rfl⟩ := hn
  rw [Nat.mul_div_cancel_left k (by decide)]
  apply BitVec.eq_of_getLsbD_eq
  intro i hi
  by_cases hjk : j < k
  · have hlt : 8 * j + i < 8 * k := by omega
    simp [byteAt, hjk, hlt]
  · have hge : ¬ 8 * j + i < 8 * k := by omega
    have hw : 8 * j + i < w := by omega
    have hsub : 8 * j + i - 8 * k = 8 * (j - k) + i := by omega
    simp only [byteAt, BitVec.getLsbD_extractLsb', BitVec.getLsbD_shiftLeft, if_neg hjk, hge, hw,
      hsub, decide_true, decide_false, Bool.not_false, Bool.true_and]

theorem byteAt_ushiftRight {n : ℕ} (hn : 8 ∣ n) (j : ℕ) (x : BitVec w) :
    byteAt j (x >>> n) = byteAt (j + n / 8) x := by
  obtain ⟨k, rfl⟩ := hn
  rw [Nat.mul_div_cancel_left k (by decide)]
  apply BitVec.eq_of_getLsbD_eq
  intro i hi
  have hadd : 8 * (j + k) + i = 8 * k + (8 * j + i) := by omega
  simp [byteAt, hadd]

theorem byteAt_of_le {j : ℕ} (h : w ≤ 8 * j) (x : BitVec w) : byteAt j x = 0#8 := by
  apply BitVec.eq_of_getLsbD_eq
  intro i hi
  simp [byteAt, BitVec.getLsbD_of_ge x (8 * j + i) (by omega)]

theorem ushiftRight_and_ff (k : ℕ) (x : Word) :
    (x >>> (8 * k)) &&& 0xFF#32 = (byteAt k x).setWidth 32 := by
  apply BitVec.eq_of_getLsbD_eq
  intro i hi
  have hmask : (0xFF#32).getLsbD i = decide (i < 8) := by
    revert i
    decide
  simp only [BitVec.getLsbD_and, BitVec.getLsbD_ushiftRight, BitVec.getLsbD_setWidth, byteAt,
    BitVec.getLsbD_extractLsb', hmask, hi, decide_true, Bool.true_and, Bool.and_comm]

theorem and_ff (x : Word) : x &&& 0xFF#32 = (byteAt 0 x).setWidth 32 := by
  simpa only [Nat.mul_zero, BitVec.ushiftRight_zero] using ushiftRight_and_ff 0 x

end Tanenbaum.Lib.Bytes
