import Tanenbaum.Tty.LineDiscipline

namespace Tanenbaum.Tty.Corrections

open Lib.Bytes Lib.CString Lib.Feed LineDiscipline

/-- Words in which every stored byte is erased again; bytes from 0x80 on may
stand anywhere. -/
inductive Balanced : Str → Prop
  | nil : Balanced []
  | other {byte : UInt8} : ¬ byte < 0x80 → Balanced [byte]
  | wrap {o c : UInt8} {w : Str} : Ordinary o → c = 8 ∨ c = 0x7f → Balanced w →
      Balanced (o :: (w ++ [c]))
  | append {u v : Str} : Balanced u → Balanced v → Balanced (u ++ v)

/-- The count of stored bytes after one more byte, without the width of `cnt`. -/
def storedStep (n : ℕ) (byte : UInt8) : ℕ :=
  if byte = 8 ∨ byte = 0x7f then n - 1 else if Ordinary byte then n + 1 else n

def storedCount (n : ℕ) (w : Str) : ℕ := w.foldl storedStep n

/-- Two completed requests that their callers cannot tell apart. -/
structure Same (r r' : Completed) : Prop where
  count : r.rxNum = r'.rxNum
  bytes : firstBytes r.rxBuf r.rxNum.toNat = firstBytes r'.rxBuf r.rxNum.toNat

/-- Pending requests with the same line. Beyond the count the buffers may
differ: an erased byte leaves a NUL there. -/
structure Alike (p q : Pending) : Prop where
  cnt : p.cnt = q.cnt
  bytes : firstBytes p.rxBuf p.cnt.toNat = firstBytes q.rxBuf p.cnt.toNat

section Counting

variable {n : ℕ} {u v w : Str} {byte : UInt8}

theorem storedStep_erase (h : byte = 8 ∨ byte = 0x7f) : storedStep n byte = n - 1 :=
  if_pos h

theorem storedStep_ordinary (h : Ordinary byte) : storedStep n byte = n + 1 := by
  rw [storedStep, if_neg h.ne_erase, if_pos h]

theorem storedStep_other (h : ¬ byte < 0x80) : storedStep n byte = n := by
  rw [storedStep, if_neg (not_erase_of_not_lt h), if_neg fun hord ↦ h hord.lt]

theorem storedCount_append (n : ℕ) (u v : Str) :
    storedCount n (u ++ v) = storedCount (storedCount n u) v :=
  List.foldl_append

theorem Balanced.storedCount_eq (h : Balanced w) (n : ℕ) : storedCount n w = n := by
  induction h generalizing n with
  | nil => rfl
  | other hb => exact storedStep_other hb
  | wrap ho hc _ ih =>
    rw [storedCount, List.foldl_cons, storedStep_ordinary ho]
    change storedCount (n + 1) (_ ++ _) = n
    rw [storedCount_append, ih]
    exact storedStep_erase hc
  | append _ _ ihu ihv => rw [storedCount_append, ihu, ihv]

theorem Balanced.le_storedCount (h : Balanced w) (hv : v <+: w) : n ≤ storedCount n v := by
  induction h generalizing n v with
  | nil =>
    rw [List.prefix_nil.mp hv]
    exact Nat.le_refl n
  | other hb =>
    rcases List.prefix_cons_iff.mp hv with rfl | ⟨t, rfl, ht⟩
    · exact Nat.le_refl n
    · rw [List.prefix_nil.mp ht]
      exact Nat.le_of_eq (storedStep_other hb).symm
  | wrap ho hc hw ih =>
    rcases List.prefix_cons_iff.mp hv with rfl | ⟨t, rfl, ht⟩
    · exact Nat.le_refl n
    rw [storedCount, List.foldl_cons, storedStep_ordinary ho]
    rcases List.prefix_concat_iff.mp ht with rfl | ht
    · change n ≤ storedCount (n + 1) (_ ++ _)
      rw [storedCount_append, hw.storedCount_eq]
      exact Nat.le_of_eq (storedStep_erase (n := n + 1) hc).symm
    · exact Nat.le_of_succ_le (ih ht)
  | @append a b ha _ iha ihb =>
    rcases List.prefix_or_prefix_of_prefix hv (List.prefix_append a b) with hva | ⟨t, rfl⟩
    · exact iha hva
    · rw [storedCount_append, ha.storedCount_eq]
      exact ihb ((List.prefix_append_right_inj a).mp hv)

theorem Balanced.cr_not_mem (h : Balanced w) : (13 : UInt8) ∉ w := by
  induction h with
  | nil => exact List.not_mem_nil
  | other hb =>
    rw [List.mem_singleton]
    exact (ne_cr_of_not_lt hb).symm
  | wrap ho hc _ ih =>
    rw [List.mem_cons, List.mem_append, List.mem_singleton]
    rintro (heq | hmem | heq)
    · exact ho.ne_cr heq.symm
    · exact ih hmem
    · exact ne_cr_of_erase hc heq.symm
  | append _ _ ihu ihv =>
    rw [List.mem_append]
    exact fun hmem ↦ hmem.elim ihu ihv

end Counting

section Processing

variable {num : Word} {p q : Pending} {byte : UInt8} {k : ℕ}

/-- One byte that neither ends the line nor fills the request. The first `k`
bytes stay when the count does not fall below `k`. -/
theorem ttyByte_pending (hcr : byte ≠ 13) (hk : k ≤ p.cnt.toNat)
    (hle : k ≤ storedStep p.cnt.toNat byte)
    (hlt : storedStep p.cnt.toNat byte < min num.toNat 256) :
    ∃ q, ttyByte num p byte = .inl q ∧ q.cnt.toNat = storedStep p.cnt.toNat byte ∧
      firstBytes q.rxBuf k = firstBytes p.rxBuf k := by
  rcases byte_kinds byte with heq | herase | hord | hother
  · exact absurd heq hcr
  · rw [storedStep_erase herase] at hle ⊢
    by_cases hcnt : 0 < p.cnt
    · have hpop : (p.print [byte]).pop.cnt.toNat = p.cnt.toNat - 1 := pop_cnt hcnt
      refine ⟨_, ttyByte_erase herase hcnt, hpop, firstBytes_update_of_le ?_ 0⟩
      exact Nat.le_trans hle (Nat.le_of_eq hpop.symm)
    · have hzero : p.cnt.toNat = 0 := Nat.eq_zero_of_not_pos hcnt
      refine ⟨_, ttyByte_erase_empty herase hcnt, ?_, rfl⟩
      rw [hzero]
      exact hzero
  · rw [storedStep_ordinary hord] at hlt ⊢
    have hpush : ((p.print [byte]).push byte).cnt.toNat = p.cnt.toNat + 1 := by
      rw [push_cnt]
      exact Nat.mod_eq_of_lt (lt_min_iff.mp hlt).2
    refine ⟨_, ttyByte_push hord fun heq ↦ ?_, hpush, firstBytes_update_of_le hk byte⟩
    rw [← heq, toNat_setWidth, hpush] at hlt
    exact absurd (lt_min_iff.mp hlt).1 (Nat.lt_irrefl _)
  · rw [storedStep_other hother]
    exact ⟨_, ttyByte_unknown hother, rfl, rfl⟩

theorem feed_pending {w : Str} (hcr : (13 : UInt8) ∉ w)
    (hcount : ∀ v, v <+: w → k ≤ storedCount p.cnt.toNat v ∧
      storedCount p.cnt.toNat v < min num.toNat 256) :
    ∃ q, feed (ttyByte num) p w = .inl q ∧ q.cnt.toNat = storedCount p.cnt.toNat w ∧
      firstBytes q.rxBuf k = firstBytes p.rxBuf k := by
  induction w generalizing p with
  | nil => exact ⟨p, rfl, rfl, rfl⟩
  | cons byte w ih =>
    have hzero := hcount [] List.nil_prefix
    have hone := hcount [byte] (List.cons_prefix_cons.mpr ⟨rfl, List.nil_prefix⟩)
    obtain ⟨q, hstep, hcnt, hbytes⟩ :=
      ttyByte_pending (List.ne_of_not_mem_cons hcr).symm hzero.1 hone.1 hone.2
    obtain ⟨r, hfeed, hcnt', hbytes'⟩ := ih (List.not_mem_of_not_mem_cons hcr)
      (p := q) fun v hv ↦ by
        rw [hcnt]
        exact hcount (byte :: v) (List.cons_prefix_cons.mpr ⟨rfl, hv⟩)
    refine ⟨r, ?_, ?_, hbytes'.trans hbytes⟩
    · rw [feed_cons_inl hstep, hfeed]
    · rw [hcnt', hcnt]
      rfl

/-- A corrected stretch of typing leaves the line as it was. -/
theorem Balanced.feed_alike {w : Str} (h : Balanced w)
    (hlt : ∀ v, v <+: w → storedCount p.cnt.toNat v < min num.toNat 256) :
    ∃ q, feed (ttyByte num) p w = .inl q ∧ Alike q p := by
  obtain ⟨q, hfeed, hcnt, hbytes⟩ := feed_pending (p := p) (k := p.cnt.toNat)
    h.cr_not_mem fun v hv ↦ ⟨h.le_storedCount hv, hlt v hv⟩
  rw [h.storedCount_eq] at hcnt
  refine ⟨q, hfeed, BitVec.toNat_inj.mp hcnt, ?_⟩
  rw [hcnt]
  exact hbytes

theorem Alike.print (h : Alike p q) (text text' : Str) :
    Alike (p.print text) (q.print text') :=
  ⟨h.cnt, h.bytes⟩

theorem Alike.push (h : Alike p q) (c : UInt8) : Alike (p.push c) (q.push c) := by
  refine ⟨congrArg (· + 1) h.cnt, ?_⟩
  rw [push_cnt]
  by_cases hwrap : p.cnt.toNat + 1 < 256
  · rw [Nat.mod_eq_of_lt hwrap]
    simp only [Pending.push, ← h.cnt, firstBytes_update_succ, h.bytes]
  · -- the count wraps to zero, and no byte of the line is left to compare
    have hlt := p.cnt.isLt
    have hzero : (p.cnt.toNat + 1) % 256 = 0 := by omega
    rw [hzero]
    rfl

theorem Alike.pop (h : Alike p q) (hcnt : 0 < p.cnt) : Alike p.pop q.pop := by
  have hpop := pop_cnt hcnt
  refine ⟨congrArg (· - 1) h.cnt, ?_⟩
  have hp : firstBytes p.pop.rxBuf p.pop.cnt.toNat = firstBytes p.rxBuf p.pop.cnt.toNat :=
    firstBytes_update_of_le (Nat.le_refl _) 0
  have hq : firstBytes q.pop.rxBuf p.pop.cnt.toNat = firstBytes q.rxBuf p.pop.cnt.toNat := by
    refine firstBytes_update_of_le (Nat.le_of_eq ?_) 0
    rw [← h.cnt]
    rfl
  rw [hp, hq, hpop, ← firstBytes_dropLast, ← firstBytes_dropLast, h.bytes]

theorem Alike.complete (h : Alike p q) : Same p.complete q.complete := by
  refine ⟨congrArg (BitVec.setWidth 32) h.cnt, ?_⟩
  have hcount : p.complete.rxNum.toNat = p.cnt.toNat := toNat_setWidth p.cnt
  rw [hcount]
  exact h.bytes

theorem Alike.ttyByte (h : Alike p q) (num : Word) (byte : UInt8) :
    (∃ p' q', ttyByte num p byte = .inl p' ∧ ttyByte num q byte = .inl q' ∧ Alike p' q') ∨
    ∃ r r', ttyByte num p byte = .inr r ∧ ttyByte num q byte = .inr r' ∧ Same r r' := by
  have hecho := h.print [byte] [byte]
  rcases byte_kinds byte with rfl | herase | hord | hother
  · exact .inr ⟨_, _, ttyByte_cr num p, ttyByte_cr num q, ((hecho.push 10).print _ _).complete⟩
  · left
    by_cases hcnt : 0 < p.cnt
    · exact ⟨_, _, ttyByte_erase herase hcnt, ttyByte_erase herase (h.cnt ▸ hcnt),
        (hecho.pop hcnt).print _ _⟩
    · exact ⟨_, _, ttyByte_erase_empty herase hcnt, ttyByte_erase_empty herase (h.cnt ▸ hcnt),
        hecho⟩
  · have hpush := hecho.push byte
    by_cases hnum : ((p.print [byte]).push byte).cnt.setWidth 32 = num
    · exact .inr ⟨_, _, ttyByte_full hord hnum, ttyByte_full hord (hpush.cnt ▸ hnum),
        hpush.complete⟩
    · exact .inl ⟨_, _, ttyByte_push hord hnum, ttyByte_push hord (hpush.cnt ▸ hnum), hpush⟩
  · exact .inl ⟨_, _, ttyByte_unknown hother, ttyByte_unknown hother, hecho.print _ _⟩

end Processing

/-- Typing that is corrected at once is invisible to the caller of
`tty_driver_rx`, whatever was typed before it and after it. -/
theorem corrected_typing_invisible (num : Word) (buf : ℕ → UInt8) (out xs ys : Str) (p : Pending)
    (hxs : feed (ttyByte num) ⟨0, buf, out⟩ xs = .inl p) {w : Str} (hw : Balanced w)
    (hlt : ∀ v, v <+: w → storedCount p.cnt.toNat v < min num.toNat 256) :
    Agree Same (feed (ttyByte num) ⟨0, buf, out⟩ (xs ++ w ++ ys))
      (feed (ttyByte num) ⟨0, buf, out⟩ (xs ++ ys)) := by
  obtain ⟨q, hq, halike⟩ := hw.feed_alike hlt
  have hxsw : feed (ttyByte num) ⟨0, buf, out⟩ (xs ++ w) = .inl q := by
    rw [feed_append hxs, hq]
  rw [feed_append hxsw, feed_append hxs]
  apply agree_of_related (R := Alike)
  · intro s s' byte h
    exact h.ttyByte num byte
  · exact halike

/-- Both requests end with the three bytes of the line `ac`. -/
theorem mistyped_letter_invisible :
    Agree Same (feed (ttyByte 4#32) ⟨0, fun _ ↦ 0, []⟩ ([97] ++ [98, 200, 8] ++ [99, 13]))
      (feed (ttyByte 4#32) ⟨0, fun _ ↦ 0, []⟩ ([97] ++ [99, 13])) ∧
    ∀ w ∈ [[98, 200, 8], []], ((feed (ttyByte 4#32) ⟨0, fun _ ↦ 0, []⟩
      ([97] ++ w ++ [99, 13])).getRight?.map fun r ↦ (r.1.rxNum, firstBytes r.1.rxBuf 3, r.2)) =
        some (3, [97, 99, 10], []) := by
  have hw : Balanced (98 :: ([200] ++ [8])) :=
    .wrap ⟨by decide, by decide, by decide⟩ (.inl rfl) (.other (by decide))
  refine ⟨corrected_typing_invisible 4#32 (fun _ ↦ 0) [] [97] [99, 13] _ rfl hw ?_, by decide⟩
  intro v hv
  have hall : ∀ v ∈ List.inits [98, 200, 8], storedCount 1 v < min 4 256 := by decide
  exact hall v ((List.mem_inits v _).mpr hv)

end Tanenbaum.Tty.Corrections
