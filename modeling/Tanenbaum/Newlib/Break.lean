import Tanenbaum.Lib.Blocks
import Tanenbaum.Newlib.Sbrk

namespace Tanenbaum.Newlib.Break

open Lib.Runs Lib.Blocks Lib.Bytes Sbrk

def addr (w : Word) : ℤ := w.toNat

theorem addr_heap : addr heap = 0x10000000 := by decide

theorem addr_top : addr (heap + heapSize) = addr heap + 65536 := by decide

theorem addr_estack : addr estack = addr heap + 65536 := by decide

theorem addr_le {v w : Word} : v ≤ w ↔ addr v ≤ addr w := by
  simp only [BitVec.le_def, addr, Nat.cast_le]

theorem belowTop_iff {s : State} : BelowTop s ↔ addr s.heapEnd ≤ addr heap + 65536 := by
  rw [BelowTop, addr_le, addr_top]

/-- With the break below the top, the wrapped sum passes the bound check
exactly when the true sum is an address up to the top. -/
theorem withinBound_iff {s : State} (hs : BelowTop s) (incr : Word) :
    WithinBound s incr ↔ 0 ≤ addr s.heapEnd + incr.toInt ∧
      addr s.heapEnd + incr.toInt ≤ addr heap + 65536 := by
  rw [WithinBound, addr_le, addr_top]
  rw [belowTop_iff] at hs
  simp only [addr_heap] at hs ⊢
  simp only [addr, BitVec.toNat_add, BitVec.toInt_eq_toNat_cond] at hs ⊢
  have hb := s.heapEnd.isLt
  have hi := incr.isLt
  split <;> omega

theorem addr_add {s : State} (hs : BelowTop s) {incr : Word} (h : WithinBound s incr) :
    addr (s.heapEnd + incr) = addr s.heapEnd + incr.toInt := by
  obtain ⟨h0, htop⟩ := (withinBound_iff hs incr).mp h
  rw [addr_heap] at htop
  simp only [addr, BitVec.toNat_add, BitVec.toInt_eq_toNat_cond] at h0 htop ⊢
  have hi := incr.isLt
  split at h0 <;> simp_all only [if_true, if_false] <;> omega

theorem sbrk_addr {s t : State} (hs : BelowTop s) {incr p : Word}
    (h : sbrk s incr = some (p, t)) :
    (¬ WithinBound s incr ∧ p = -1 ∧ t.heapEnd = s.heapEnd) ∨
    (WithinBound s incr ∧ p = s.heapEnd ∧ p ≠ -1 ∧
      addr t.heapEnd = addr s.heapEnd + incr.toInt) := by
  rcases sbrk_cases h with ⟨hb, hp, rfl⟩ | ⟨hb, hp, rfl⟩
  · exact .inl ⟨BitVec.not_le.mpr hb, hp, rfl⟩
  · refine .inr ⟨hb, hp, fun hneg ↦ ?_, addr_add hs hb⟩
    have htop : s.heapEnd ≤ heap + heapSize := hs
    rw [← hp, hneg] at htop
    exact absurd htop (by decide)

/-- The variables of `_sbrk` with the blocks its callers own: granted by
positive increments and not given back by negative ones. -/
structure Tracked where
  st : State
  granted : List (Block ℤ)

def Tracked.record (x : Tracked) (incr p : Word) (t : State) : Tracked where
  st := t
  granted :=
    if p = -1 then x.granted
    else if 0 < incr.toInt then (addr p, addr p + incr.toInt) :: x.granted
    else giveBack (addr p + incr.toInt) x.granted

def trackedStep (x : Tracked) (incr : Word) : Option Tracked :=
  (sbrk x.st incr).map fun r ↦ x.record incr r.1 r.2

def trackedStart (depth : ℕ) (errno : ℤ) : Tracked := ⟨start depth errno, []⟩

structure Tracked.Ok (x : Tracked) : Prop where
  top : addr x.st.heapEnd ≤ addr heap + 65536
  stacked : Stacked (addr heap) (addr x.st.heapEnd) x.granted

/-- What a call must leave behind: a break inside the array, the previous break
returned and moved by the increment, and disjoint blocks inside the array. -/
def Sound (x : Tracked) (incr : Word) : Prop :=
  ∃ p t, sbrk x.st incr = some (p, t) ∧
    (addr heap ≤ addr t.heapEnd ∧ addr t.heapEnd ≤ addr heap + 65536) ∧
    (p ≠ -1 → p = x.st.heapEnd ∧ addr t.heapEnd = addr x.st.heapEnd + incr.toInt) ∧
    (x.record incr p t).granted.Pairwise (fun b c ↦ Disjoint (span b) (span c)) ∧
    ∀ b ∈ (x.record incr p t).granted, span b ⊆ Set.Ico (addr heap) (addr heap + 65536)

/-- The request does not take the break below the array. Decrements beyond
address zero wrap to the top of the address space and are refused. -/
def KeepsBase (x : Tracked) (incr : Word) : Prop :=
  ¬ (0 ≤ addr x.st.heapEnd + incr.toInt ∧ addr x.st.heapEnd + incr.toInt < addr heap)

theorem record_ok {x : Tracked} (hx : x.Ok) {incr p : Word} {t : State}
    (hk : KeepsBase x incr) (h : sbrk x.st incr = some (p, t)) : (x.record incr p t).Ok := by
  have hs : BelowTop x.st := belowTop_iff.mpr hx.top
  rcases sbrk_addr hs h with ⟨-, rfl, he⟩ | ⟨hw, rfl, hp, he⟩
  · refine ⟨?_, ?_⟩
    · simpa only [Tracked.record, he] using hx.top
    · simpa only [Tracked.record, he, if_true] using hx.stacked
  · obtain ⟨h0, htop⟩ := (withinBound_iff hs incr).mp hw
    have hbase : addr heap ≤ addr t.heapEnd := by
      by_contra hlt
      exact hk ⟨h0, by omega⟩
    refine ⟨by simp only [Tracked.record]; omega, ?_⟩
    simp only [Tracked.record, if_neg hp, ← he]
    by_cases hpos : 0 < incr.toInt
    · simpa only [if_pos hpos] using hx.stacked.push (by omega)
    · simpa only [if_neg hpos] using hx.stacked.giveBack hbase

theorem sound_of_ok {x : Tracked} {incr : Word} (hx : x.Ok) (hk : KeepsBase x incr) :
    Sound x incr := by
  obtain ⟨⟨p, t⟩, h⟩ := sbrk_returns x.st incr
  have hok := record_ok hx hk h
  refine ⟨p, t, h, ⟨hok.stacked.le, hok.top⟩, fun hp ↦ ?_, hok.stacked.pairwise_disjoint,
    fun b hb ↦ ?_⟩
  · rcases sbrk_addr (belowTop_iff.mpr hx.top) h with ⟨-, hn, -⟩ | ⟨-, hp', -, he⟩
    · exact absurd hn hp
    · exact ⟨hp', he⟩
  · exact (hok.stacked.subset b hb).trans (Set.Ico_subset_Ico_right hok.top)

theorem sound_iff_keepsBase {x : Tracked} (hx : x.Ok) (incr : Word) :
    Sound x incr ↔ KeepsBase x incr := by
  refine ⟨fun ⟨p, t, h, hsound⟩ hbad ↦ ?_, sound_of_ok hx⟩
  have hs : BelowTop x.st := belowTop_iff.mpr hx.top
  have hw : WithinBound x.st incr := (withinBound_iff hs incr).mpr ⟨hbad.1, by omega⟩
  have hbase := hsound.1.1
  cases (sbrk_granted hw).symm.trans h
  rw [addr_add hs hw] at hbase
  omega

theorem trackedStep_ok {x y : Tracked} {incr : Word} (hx : x.Ok) (hk : KeepsBase x incr)
    (h : trackedStep x incr = some y) : y.Ok := by
  obtain ⟨⟨p, t⟩, hcall, rfl⟩ := Option.map_eq_some_iff.mp h
  exact record_ok hx hk hcall

theorem trackedStart_ok (depth : ℕ) (errno : ℤ) : (trackedStart depth errno).Ok :=
  ⟨by simp [trackedStart, start], .nil le_rfl⟩

/-- The break stays in the array, and the blocks stay disjoint in it, exactly
in the sequences of calls that never lower the break below the array. -/
theorem break_sound_iff_keeps_base (depth : ℕ) (errno : ℤ) (calls : List Word) :
    Along trackedStep Sound (trackedStart depth errno) calls ↔
      Along trackedStep KeepsBase (trackedStart depth errno) calls :=
  along_iff (I := Tracked.Ok) (fun _ incr hx ↦ sound_iff_keepsBase hx incr)
    (fun _ _ _ hx hk h ↦ trackedStep_ok hx hk h) (trackedStart_ok depth errno) calls

/-- The first call `_sbrk(-1)` is granted and leaves the break one byte below the array. -/
theorem break_below_heap :
    sbrk (start 0 0) (-1) = some (heap, ⟨0, heap - 1, 0⟩) ∧
      ¬ Along trackedStep Sound (trackedStart 0 0) [-1] := by
  have hcall : sbrk (start 0 0) (-1) = some (heap, ⟨0, heap - 1, 0⟩) := by decide
  refine ⟨hcall, fun ⟨⟨p, t, h, hsound⟩, _⟩ ↦ ?_⟩
  cases hcall.symm.trans h
  exact absurd hsound.1.1 (by decide)

/-- The main stack when `d` bytes of it are in use: it grows down from `_estack`. -/
def mainStack (d : ℕ) : Set ℤ := Set.Ico (addr estack - d) (addr estack)

def stepAt (s : State) (call : Word × ℕ) : Option State := step s call.1

/-- The block the call grants, if it grants one, avoids the main stack. -/
def AvoidsStack (s : State) (call : Word × ℕ) : Prop :=
  ∀ p t, sbrk s call.1 = some (p, t) → p ≠ -1 → 0 < call.1.toInt →
    Disjoint (span (addr p, addr p + call.1.toInt)) (mainStack call.2)

/-- A positive request that passes the bound check ends below the main stack. -/
def EndsBelowStack (s : State) (call : Word × ℕ) : Prop :=
  0 < call.1.toInt → WithinBound s call.1 →
    addr s.heapEnd + call.1.toInt ≤ addr estack - call.2

theorem avoidsStack_iff_endsBelowStack {s : State} (hs : BelowTop s) (call : Word × ℕ) :
    AvoidsStack s call ↔ EndsBelowStack s call := by
  obtain ⟨incr, d⟩ := call
  constructor
  · intro havoid hpos hw
    dsimp only at hpos hw ⊢
    obtain ⟨-, htop⟩ := (withinBound_iff hs incr).mp hw
    have hne : s.heapEnd ≠ -1 := by
      intro hneg
      rw [BelowTop, hneg] at hs
      exact absurd hs (by decide)
    have hdisj := havoid _ _ (sbrk_granted hw) hne hpos
    by_contra hlt
    simp only [mainStack, span, addr_estack] at hdisj hlt
    -- the last byte of the block is the witness of the overlap
    have hblock : addr s.heapEnd + incr.toInt - 1 ∈
        Set.Ico (addr s.heapEnd) (addr s.heapEnd + incr.toInt) := ⟨by omega, by omega⟩
    exact Set.disjoint_left.mp hdisj hblock ⟨by omega, by omega⟩
  · intro hends p t h hp hpos
    rcases sbrk_addr hs h with ⟨-, hn, -⟩ | ⟨hw, rfl, -, -⟩
    · exact absurd hn hp
    · have hle := hends hpos hw
      refine Set.disjoint_left.mpr fun a ha ha' ↦ ?_
      have h1 := ha.2
      have h2 := ha'.1
      simp only at h1 hle
      omega

/-- No granted block meets the main stack in use exactly in the sequences whose
accepted requests all end below it: the bound check itself goes up to `_estack`. -/
theorem grants_avoid_stack_iff_end_below (depth : ℕ) (errno : ℤ) (calls : List (Word × ℕ)) :
    Along stepAt AvoidsStack (start depth errno) calls ↔
      Along stepAt EndsBelowStack (start depth errno) calls :=
  along_iff (I := BelowTop) (fun _ call hs ↦ avoidsStack_iff_endsBelowStack hs call)
    (fun _ _ _ hs _ h ↦ step_belowTop hs h) (start_belowTop depth errno) calls

/-- A first request for the whole array is granted and covers the 8 stack bytes in use. -/
theorem grant_overlaps_stack :
    sbrk (start 0 0) 65536 = some (heap, ⟨0, estack, 0⟩) ∧
      ¬ Along stepAt AvoidsStack (start 0 0) [(65536, 8)] := by
  have hcall : sbrk (start 0 0) 65536 = some (heap, ⟨0, estack, 0⟩) := by decide
  refine ⟨hcall, fun h ↦ ?_⟩
  have hdisj := h.1 _ _ hcall (by decide) (by decide)
  have hblock : addr estack - 1 ∈ span (addr heap, addr heap + (65536 : Word).toInt) :=
    ⟨by decide, by decide⟩
  exact Set.disjoint_left.mp hdisj hblock ⟨by decide, by decide⟩

end Tanenbaum.Newlib.Break
