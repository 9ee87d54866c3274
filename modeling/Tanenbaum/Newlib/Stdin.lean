import Tanenbaum.Tty.Corrections

namespace Tanenbaum.Newlib.Stdin

open Lib.Bytes Lib.CString Lib.Feed Tty.LineDiscipline Tty.Corrections

/-- What arrives for one call of `_read`: bytes that `TTY_Task` ignores because
no request is pending yet, and the bytes of the request, up to the one that
completes it. -/
structure Read where
  ignored : Str
  request : Str
  mem : ℕ → UInt8

/-- The characters a completed request leaves in the buffer; their number is
what `_read` returns. -/
def chars (c : Completed) : Str := firstBytes c.rxBuf c.rxNum.toNat

/-- `_read(fd, buf, nbytes)` with what arrives for it; `none` when the request
is not completed by exactly these bytes. -/
def read (nbytes : Word) (rd : Read) : Option Str :=
  match feed (ttyByte nbytes) ⟨0, rd.mem, []⟩ rd.request with
  | .inr (c, []) => some (chars c)
  | _ => none

/-- The next characters of a stream up to a newline, at most `n` of them, and
what is left of it. -/
def lineChunk : ℕ → Str → Str × Str
  | 0, s => ([], s)
  | _ + 1, [] => ([], [])
  | n + 1, c :: s =>
    if c = 10 then ([c], s) else (c :: (lineChunk n s).1, (lineChunk n s).2)

/-- A line is at its end. -/
def Ends (n : ℕ) (chunk : Str) : Prop := chunk.length = n ∨ 10 ∈ chunk

instance (n : ℕ) (chunk : Str) : Decidable (Ends n chunk) := inferInstanceAs (Decidable (_ ∨ _))

/-- The loop of `fgets` with `n` places left, the characters it has got, those
in the buffer of the stream, and the calls of `_read` it makes. It returns NULL
at the end of the file if it has got none. -/
def fgetsLoop (nbytes : Word) : List Read → ℕ → Str → Str → Option (Option Str × Str)
  | [], n, got, avail =>
    if Ends n (lineChunk n avail).1 then
      some (some (got ++ (lineChunk n avail).1), (lineChunk n avail).2)
    else none
  | rd :: reads, n, got, avail =>
    if Ends n (lineChunk n avail).1 then none
    else
      let got := got ++ (lineChunk n avail).1
      match read nbytes rd with
      | none => none
      | some [] =>
        if reads = [] then some (if got = [] then none else some got, []) else none
      | some (c :: cs) => fgetsLoop nbytes reads (n - (lineChunk n avail).1.length) got (c :: cs)

/-- `fgets(buf, size, stdin)`: the line, or NULL, and what stays in the buffer of the stream. -/
def fgets (nbytes : Word) (size : ℕ) (avail : Str) (reads : List Read) :
    Option (Option Str × Str) :=
  fgetsLoop nbytes reads (size - 1) [] avail

/-- The character that a typed byte stands for. -/
def typedChar (byte : UInt8) : UInt8 := if byte = 13 then 10 else byte

/-- The line that the bytes of a request make, however long it is. -/
def edited (nbytes : Word) (rd : Read) : Str :=
  match feed (editStep nbytes.toNat) [] rd.request with
  | .inl L => L
  | .inr (L, _) => L

/-- The greatest length of that line since it was last empty. -/
def peak (nbytes : Word) (rd : Read) : ℕ :=
  match feed (peakStep nbytes.toNat) ([], 0) rd.request with
  | .inl s => s.2
  | .inr (m, _) => m

section Requests

variable {num : Word} {p q : Pending} {c : Completed} {byte : UInt8}

end Requests

section Reads

variable {num : Word} {p q : Pending} {w : Str} {byte : UInt8} {rd : Read} {cs : Str}

theorem read_eq_some : read num rd = some cs ↔
    ∃ w byte p c, rd.request = w ++ [byte] ∧ feed (ttyByte num) ⟨0, rd.mem, []⟩ w = .inl p ∧
      ttyByte num p byte = .inr c ∧ chars c = cs := by
  have hfeed : read num rd = some cs ↔
      ∃ c, feed (ttyByte num) ⟨0, rd.mem, []⟩ rd.request = .inr (c, []) ∧ chars c = cs := by
    rw [read]
    split
    · next c heq =>
      rw [heq]
      constructor
      · intro hcs
        exact ⟨c, rfl, Option.some.inj hcs⟩
      · rintro ⟨c', hc', hcs⟩
        cases hc'
        rw [hcs]
    · next hne =>
      refine iff_of_false (by simp) ?_
      rintro ⟨c, hc, -⟩
      exact hne c hc
  rw [hfeed]
  constructor
  · rintro ⟨c, hc, hcs⟩
    obtain ⟨w, byte, p, hrd, hw, hbyte⟩ := feed_eq_inr_nil.mp hc
    exact ⟨w, byte, p, c, hrd, hw, hbyte, hcs⟩
  · rintro ⟨w, byte, p, c, hrd, hw, hbyte, hcs⟩
    exact ⟨c, feed_eq_inr_nil.mpr ⟨w, byte, p, hrd, hw, hbyte⟩, hcs⟩

theorem chars_eq_nil_iff {c : Completed} : chars c = [] ↔ c.rxNum.toNat = 0 := by
  rw [chars, firstBytes, List.map_eq_nil_iff, List.range_eq_nil]

/-- As long as its line does not pass 255 characters, a request gets the line
as it was edited. -/
theorem read_edited (hnum : 1 ≤ num.toNat) (hpeak : peak num rd ≤ 255)
    (h : read num rd = some cs) : cs = edited num rd ∧ cs ≠ [] := by
  have hagree := (Tracks.of_empty (p := ⟨0, rd.mem, []⟩) hnum rfl).agree_iff rd.request
  obtain ⟨w, byte, p, c, hrd, hw, hbyte, rfl⟩ := read_eq_some.mp h
  rw [hrd, feed_concat_inr hw hbyte, ← hrd] at hagree
  have hshort : ∀ m rest, feed (peakStep num.toNat) ([], 0) rd.request = .inr (m, rest) →
      m ≤ 255 := by
    intro m rest hm
    rw [peak, hm] at hpeak
    exact hpeak
  have hline := hagree.mpr hshort
  rcases hedit : feed (editStep num.toNat) [] rd.request with L | ⟨L, rest⟩ <;>
    rw [hedit] at hline
  · exact hline.elim
  · obtain ⟨-, hdelivers⟩ := hline
    refine ⟨?_, fun hnil ↦ ?_⟩
    · rw [edited, hedit, chars, hdelivers.count]
      exact hdelivers.bytes
    · have hpos := hdelivers.pos
      rw [chars_eq_nil_iff.mp hnil] at hpos
      exact absurd hpos (by decide)

end Reads

section Fgets

variable {nbytes : Word} {n : ℕ} {got avail l left : Str} {reads : List Read}

/-- The characters up to a newline that is among the next `n`. -/
theorem lineChunk_of_mem {s : Str} (h : 10 ∈ s.take n) :
    ∃ u v, 10 ∉ u ∧ s = u ++ 10 :: v ∧ lineChunk n s = (u ++ [10], v) := by
  induction s generalizing n with
  | nil => simp at h
  | cons c s ih =>
    cases n with
    | zero => simp at h
    | succ n =>
      by_cases hc : c = 10
      · subst hc
        exact ⟨[], s, List.not_mem_nil, rfl, rfl⟩
      · rw [List.take_succ_cons] at h
        obtain ⟨u, v, hu, rfl, hchunk⟩ := ih ((List.mem_cons.mp h).resolve_left (Ne.symm hc))
        refine ⟨c :: u, v, List.not_mem_cons_of_ne_of_not_mem (Ne.symm hc) hu, rfl, ?_⟩
        rw [lineChunk, if_neg hc, hchunk]
        rfl

/-- A line that is not at its end has used up the stream. -/
theorem lineChunk_of_not_ends {s : Str} (h : ¬ Ends n (lineChunk n s).1) :
    (lineChunk n s).1 = s := by
  induction s generalizing n with
  | nil => cases n <;> rfl
  | cons c s ih =>
    cases n with
    | zero => exact absurd (.inl rfl) h
    | succ n =>
      rw [lineChunk] at h ⊢
      split at h
      · next hc => exact absurd (.inr (by simp [hc])) h
      · next hc =>
        rw [if_neg hc]
        refine congrArg (c :: ·) (ih fun hends ↦ h ?_)
        exact hends.imp (congrArg Nat.succ) (List.mem_cons_of_mem c)

/-- A line that is among the next `n` characters is delivered whole, and what
comes after it stays in the stream. -/
theorem fgetsLoop_line (hnbytes : 1 ≤ nbytes.toNat) {line : Option Str}
    (hshort : ∀ rd ∈ reads, peak nbytes rd ≤ 255)
    (hfits : 10 ∈ (avail ++ reads.flatMap (edited nbytes)).take n)
    (h : fgetsLoop nbytes reads n got avail = some (line, left)) :
    ∃ u, 10 ∉ u ∧ line = some (got ++ (u ++ [10])) ∧
      avail ++ reads.flatMap (edited nbytes) = u ++ 10 :: left := by
  induction reads generalizing n got avail with
  | nil =>
    rw [List.flatMap_nil, List.append_nil] at hfits ⊢
    obtain ⟨u, v, hu, rfl, hchunk⟩ := lineChunk_of_mem hfits
    rw [fgetsLoop, hchunk] at h
    split at h
    · cases h
      exact ⟨u, hu, rfl, rfl⟩
    · cases h
  | cons rd reads ih =>
    obtain ⟨hpeak, hshort⟩ := List.forall_mem_cons.mp hshort
    rw [fgetsLoop] at h
    split at h
    · cases h
    next hends =>
    have hchunk := lineChunk_of_not_ends hends
    have hnone : 10 ∉ avail := fun hmem ↦ hends (.inr (by rwa [hchunk]))
    rw [hchunk] at h
    rcases hread : read nbytes rd with _ | cs
    · rw [hread] at h
      cases h
    obtain ⟨hcs, hne⟩ := read_edited hnbytes hpeak hread
    rw [List.flatMap_cons, ← hcs] at hfits ⊢
    rw [List.take_append] at hfits
    have hfits := (List.mem_append.mp hfits).resolve_left
      fun hmem ↦ hnone (List.mem_of_mem_take hmem)
    obtain ⟨c, cs, rfl⟩ := List.exists_cons_of_ne_nil hne
    rw [hread] at h
    obtain ⟨u, hu, hline, heq⟩ := ih hshort hfits h
    refine ⟨avail ++ u, by simp [hnone, hu], by simp [hline], ?_⟩
    rw [heq, List.append_assoc]

end Fgets

end Tanenbaum.Newlib.Stdin
