import Tanenbaum.Lib.CString

namespace Tanenbaum.Lib.Scanner

open CString

variable {α β : Type}

/-- A computation over memory that is recorded read by read: the positions it
reads, in order, and what it returns, which is `none` as soon as a read falls
outside the memory. It learns about the memory only by reading it, so a
computation that returns has read inside the memory it was given, and runs the
same when more memory follows. -/
structure Scan (α : Type) where
  run : Str → List ℕ × Option α
  inside : ∀ {buf : Str} {a : α}, (run buf).2 = some a →
    (∀ i ∈ (run buf).1, i < buf.length) ∧ ∀ rest, run (buf ++ rest) = run buf

namespace Scan

def reads (x : Scan α) (buf : Str) : List ℕ := (x.run buf).1

def result (x : Scan α) (buf : Str) : Option α := (x.run buf).2

def bindRun (x : Scan α) (f : α → Scan β) (buf : Str) : List ℕ × Option β :=
  match x.result buf with
  | none => (x.reads buf, none)
  | some a => (x.reads buf ++ (f a).reads buf, (f a).result buf)

theorem bindRun_inside (x : Scan α) (f : α → Scan β) {buf : Str} {b : β}
    (h : (bindRun x f buf).2 = some b) :
    (∀ i ∈ (bindRun x f buf).1, i < buf.length) ∧
      ∀ rest, bindRun x f (buf ++ rest) = bindRun x f buf := by
  cases hx : x.result buf with
  | none => simp [bindRun, hx] at h
  | some a =>
    have hf : (f a).result buf = some b := by simpa only [bindRun, hx] using h
    obtain ⟨hxlt, hxrun⟩ := x.inside hx
    obtain ⟨hflt, hfrun⟩ := (f a).inside hf
    constructor
    · intro i hi
      simp only [bindRun, hx, List.mem_append] at hi
      exact hi.elim (hxlt i) (hflt i)
    · intro rest
      have hxrest : x.result (buf ++ rest) = some a := by rw [result, hxrun rest]; exact hx
      simp only [bindRun, hx, hxrest]
      simp only [reads, result, hxrun rest, hfrun rest]

instance : Monad Scan where
  pure a := ⟨fun _ ↦ ([], some a), fun _ ↦ ⟨fun _ hi ↦ absurd hi List.not_mem_nil, fun _ ↦ rfl⟩⟩
  bind x f := ⟨bindRun x f, bindRun_inside x f⟩

/-- `buf[i]` -/
def readAt (i : ℕ) : Scan UInt8 where
  run buf := ([i], buf[i]?)
  inside := by
    intro buf c h
    have hi : i < buf.length := (List.getElem?_eq_some_iff.mp h).1
    refine ⟨fun j hj ↦ List.mem_singleton.mp hj ▸ hi, fun rest ↦ ?_⟩
    rw [List.getElem?_append_left hi]

section Results

variable {buf : Str}

@[simp] theorem result_pure (a : α) : (pure a : Scan α).result buf = some a := rfl

@[simp] theorem result_bind (x : Scan α) (f : α → Scan β) :
    (x >>= f).result buf = (x.result buf).bind fun a ↦ (f a).result buf := by
  change (bindRun x f buf).2 = _
  cases hx : x.result buf <;> simp [bindRun, hx]

@[simp] theorem result_ite (P : Prop) [Decidable P] (x y : Scan α) :
    (if P then x else y).result buf = if P then x.result buf else y.result buf :=
  apply_ite (fun z ↦ z.result buf) P x y

@[simp] theorem result_readAt (i : ℕ) : (readAt i).result buf = buf[i]? := rfl

end Results

section Skip

/-- The reads and the end of `while (P(*p)) ++p;`, from the memory at `p` on and the
position of `p`. Without an end in the memory the loop runs out of it. -/
def skipRun (P : UInt8 → Bool) : Str → ℕ → List ℕ × Option ℕ
  | [], i => ([i], none)
  | c :: p, i =>
    if P c then (i :: (skipRun P p (i + 1)).1, (skipRun P p (i + 1)).2) else ([i], some i)

theorem skipRun_inside (P : UInt8 → Bool) {p : Str} {i j : ℕ} (h : (skipRun P p i).2 = some j) :
    (∀ k ∈ (skipRun P p i).1, k < i + p.length) ∧
      ∀ rest, skipRun P (p ++ rest) i = skipRun P p i := by
  induction p generalizing i with
  | nil => simp [skipRun] at h
  | cons c p ih =>
    cases hc : P c with
    | false => simp [skipRun, hc]
    | true =>
      obtain ⟨hlt, hrun⟩ := ih (by simpa [skipRun, hc] using h)
      constructor
      · intro k hk
        simp only [skipRun, hc, if_true, List.mem_cons] at hk
        rw [List.length_cons]
        rcases hk with rfl | hk
        · omega
        · have hlast := hlt k hk
          omega
      · intro rest
        simp only [List.cons_append, skipRun, hc, if_true, hrun rest]

/-- `while (P(buf[i])) ++i;` -/
def skip (P : UInt8 → Bool) (i : ℕ) : Scan ℕ where
  run buf := skipRun P (buf.drop i) i
  inside := by
    intro buf j h
    have hi : i < buf.length := by
      by_contra hge
      rw [List.drop_eq_nil_of_le (Nat.le_of_not_lt hge)] at h
      simp [skipRun] at h
    obtain ⟨hlt, hrun⟩ := skipRun_inside P h
    constructor
    · intro k hk
      have hlast := hlt k hk
      rw [List.length_drop] at hlast
      omega
    · intro rest
      rw [List.drop_append_of_le_length hi.le, hrun rest]

theorem skipRun_result (P : UInt8 → Bool) (buf : Str) (i : ℕ) :
    skipWhile P (buf.drop i) = (skipRun P (buf.drop i) i).2.map buf.drop := by
  induction hp : buf.drop i generalizing i with
  | nil => rfl
  | cons c p ih =>
    cases hc : P c with
    | false => simp [skipWhile, skipRun, hc, hp]
    | true =>
      have hnext : buf.drop (i + 1) = p := by rw [← List.drop_drop, hp]; rfl
      simpa only [skipWhile, skipRun, hc, if_true] using ih (i + 1) hnext

/-- A computation that goes on at the end of the loop, by position and by pointer. -/
theorem result_skip_bind (P : UInt8 → Bool) {buf : Str} {i : ℕ} {f : ℕ → Scan α}
    {g : Str → Option α} (h : ∀ j, (f j).result buf = g (buf.drop j)) :
    (skip P i >>= f).result buf = skipWhile P (buf.drop i) >>= g := by
  have hend : skipWhile P (buf.drop i) = ((skip P i).result buf).map buf.drop :=
    skipRun_result P buf i
  rw [result_bind, hend, Option.bind_eq_bind, Option.bind_map]
  exact congrArg _ (funext h)

theorem skipRun_terminated {P : UInt8 → Bool} (hP : P 0 = false) (s junk : Str) (i : ℕ) :
    (skipRun P (terminated s junk) i).2 = some (i + (s.takeWhile P).length) := by
  induction s generalizing i with
  | nil => simp [terminated, skipRun, hP]
  | cons c s ih =>
    cases hc : P c with
    | false => simp [terminated_cons, skipRun, hc]
    | true =>
      simp only [terminated_cons, skipRun, hc, if_true, ih, List.takeWhile_cons, List.length_cons]
      rw [Nat.add_assoc, Nat.add_comm 1]

/-- A loop that does not pass a NUL ends at the terminator or before it. -/
theorem skip_terminated {P : UInt8 → Bool} (hP : P 0 = false) {s junk : Str} {i : ℕ}
    (hi : i ≤ s.length) :
    ∃ j, (skip P i).result (terminated s junk) = some j ∧ i ≤ j ∧ j ≤ s.length := by
  have hend : (skip P i).result (terminated s junk) = some (i + ((s.drop i).takeWhile P).length) := by
    change (skipRun P ((terminated s junk).drop i) i).2 = _
    rw [terminated_drop hi, skipRun_terminated hP]
  have hlen := (List.takeWhile_prefix P (l := s.drop i)).length_le
  rw [List.length_drop] at hlen
  exact ⟨_, hend, by omega, by omega⟩

end Skip

/-- `!strncmp(buf + i, w, n)` with `n` the length of `w`. -/
def strncmp : ℕ → Str → Scan Bool
  | _, [] => pure true
  | i, d :: w => do
    let c ← readAt i
    if c ≠ d then return false else if c = 0 then return true else strncmp (i + 1) w

@[simp] theorem result_strncmp (i : ℕ) (w buf : Str) :
    (strncmp i w).result buf = strncmpEq (buf.drop i) w := by
  induction w generalizing i with
  | nil => cases hp : buf.drop i <;> rfl
  | cons d w ih =>
    cases hp : buf.drop i with
    | nil =>
      have hnone : buf[i]? = none := List.getElem?_eq_none (List.drop_eq_nil_iff.mp hp)
      simp [strncmp, strncmpEq, hnone]
    | cons c p =>
      have hc : buf[i]? = some c := by rw [← List.head?_drop, hp]; rfl
      have hnext : buf.drop (i + 1) = p := by rw [← List.drop_drop, hp]; rfl
      simp [strncmp, strncmpEq, hc, ih, hnext]

theorem result_strncmp_ite {buf w : Str} {i : ℕ} {x y : Scan α} {x' y' : Option α}
    (hx : x.result buf = x') (hy : y.result buf = y') :
    (do if ← strncmp i w then x else y).result buf =
      (do if ← strncmpEq (buf.drop i) w then x' else y') := by
  simp only [result_bind, result_ite, result_strncmp, hx, hy, Option.bind_eq_bind]

/-- A computation that returns on memory cut off after the terminator reads no
further and does the same whatever follows there. -/
theorem run_terminated (x : Scan α) {s : Str} {a : α} (h : x.result (terminated s []) = some a)
    (junk : Str) :
    x.run (terminated s junk) = x.run (terminated s []) ∧
      ∀ i ∈ x.reads (terminated s junk), i ≤ s.length := by
  obtain ⟨hlt, hrun⟩ := x.inside h
  have hjoin : terminated s junk = terminated s [] ++ junk := by simp [terminated]
  have hsame : x.run (terminated s junk) = x.run (terminated s []) := by rw [hjoin, hrun junk]
  refine ⟨hsame, fun i hi ↦ ?_⟩
  rw [reads, hsame] at hi
  have hlast := hlt i hi
  rw [terminated, List.length_append, List.length_singleton] at hlast
  omega

end Scan

end Tanenbaum.Lib.Scanner
