import Tanenbaum.Lib.Bytes
import Tanenbaum.Lib.CString
import Tanenbaum.Lib.Feed

namespace Tanenbaum.Tty.LineDiscipline

open Lib.Bytes Lib.CString Lib.Feed

/-- A pending request as `TTY_Task` sees it: its count, the caller's buffer by
index, and what has been transmitted so far. -/
structure Pending where
  cnt : BitVec 8
  rxBuf : ℕ → UInt8
  out : Str

/-- A request that `TTY_Task` has completed; `tty_driver_rx` returns `rxNum`. -/
structure Completed where
  rxNum : Word
  rxBuf : ℕ → UInt8
  out : Str

def firstBytes (buf : ℕ → UInt8) (n : ℕ) : Str := (List.range n).map buf

def isascii (c : UInt8) : Bool := c ≤ 0x7f

def Pending.print (p : Pending) (text : Str) : Pending := { p with out := p.out ++ text }

/-- `tty.rx_buf[cnt++] = c` -/
def Pending.push (p : Pending) (c : UInt8) : Pending :=
  { p with cnt := p.cnt + 1, rxBuf := Function.update p.rxBuf p.cnt.toNat c }

/-- `tty.rx_buf[--cnt] = '\0'` -/
def Pending.pop (p : Pending) : Pending :=
  { p with cnt := p.cnt - 1, rxBuf := Function.update p.rxBuf (p.cnt - 1).toNat 0 }

/-- `printf("\r%s \b", tty.rx_buf)` when the byte at `cnt` is the first that is surely NUL. -/
def Pending.redraw (p : Pending) : Pending :=
  p.print (13 :: (firstBytes p.rxBuf p.cnt.toNat).takeWhile (· ≠ 0) ++ [32, 8])

/-- The line being edited. -/
def line (p : Pending) : Str := firstBytes p.rxBuf p.cnt.toNat

def Pending.complete (p : Pending) : Completed := ⟨p.cnt.setWidth 32, p.rxBuf, p.out⟩

def hexDigit (n : UInt8) : UInt8 := if n < 10 then 48 + n else 87 + n

/-- `printf(" Unknown Symbol %x\r\n", byte)` for a byte of two hexadecimal digits. -/
def Pending.unknown (p : Pending) (byte : UInt8) : Pending :=
  p.print ([32, 85, 110, 107, 110, 111, 119, 110, 32, 83, 121, 109, 98, 111, 108, 32,
    hexDigit (byte / 16), hexDigit (byte % 16), 13, 10])

/-- What `TTY_Task` does with a byte while a request for `rxNum` bytes is pending. -/
def ttyByte (rxNum : Word) (p : Pending) (byte : UInt8) : Pending ⊕ Completed :=
  -- echoing back
  let p := p.print [byte]
  if byte = 13 then
    .inr ((p.push 10).print [13, 10]).complete
  else if byte = 8 ∨ byte = 0x7f then
    if 0 < p.cnt then .inl p.pop.redraw else .inl p
  else if isascii byte then
    let p := p.push byte
    if p.cnt.setWidth 32 = rxNum then .inr p.complete else .inl p
  else .inl (p.unknown byte)

/-- The line editor without a bound on its line. -/
def editStep (num : ℕ) (L : Str) (byte : UInt8) : Str ⊕ Str :=
  if byte = 13 then .inr (L ++ [10])
  else if byte = 8 ∨ byte = 0x7f then .inl L.dropLast
  else if byte < 0x80 then
    if L.length + 1 = num then .inr (L ++ [byte]) else .inl (L ++ [byte])
  else .inl L

/-- The editor with the greatest length of its line since it was last empty. -/
def peakStep (num : ℕ) (s : Str × ℕ) (byte : UInt8) : (Str × ℕ) ⊕ ℕ :=
  match editStep num s.1 byte with
  | .inl L => .inl (L, if L = [] then 0 else max s.2 L.length)
  | .inr L => .inr (max s.2 L.length)

/-- The caller gets the line: its length as the value returned, between 1 and
the size of the request, and its bytes at the start of the buffer. -/
structure Delivers (num : Word) (L : Str) (c : Completed) : Prop where
  count : c.rxNum.toNat = L.length
  bytes : firstBytes c.rxBuf L.length = L
  pos : 1 ≤ c.rxNum.toNat
  le : c.rxNum.toNat ≤ num.toNat

section Buffer

variable {buf : ℕ → UInt8} {n : ℕ}

theorem firstBytes_congr {f g : ℕ → UInt8} (h : ∀ i < n, f i = g i) :
    firstBytes f n = firstBytes g n :=
  List.map_congr_left fun i hi ↦ h i (List.mem_range.mp hi)

theorem firstBytes_update_of_le {i : ℕ} (h : n ≤ i) (c : UInt8) :
    firstBytes (Function.update buf i c) n = firstBytes buf n := by
  apply firstBytes_congr
  intro j hj
  have hji : j ≠ i := Nat.ne_of_lt (Nat.lt_of_lt_of_le hj h)
  exact Function.update_of_ne hji c buf

theorem firstBytes_update_succ (buf : ℕ → UInt8) (n : ℕ) (c : UInt8) :
    firstBytes (Function.update buf n c) (n + 1) = firstBytes buf n ++ [c] := by
  have hinit : firstBytes (Function.update buf n c) n = firstBytes buf n :=
    firstBytes_update_of_le (Nat.le_refl n) c
  simp only [firstBytes, List.range_succ, List.map_append, List.map_cons, List.map_nil,
    Function.update_self] at hinit ⊢
  rw [hinit]

theorem firstBytes_dropLast (buf : ℕ → UInt8) (n : ℕ) :
    (firstBytes buf n).dropLast = firstBytes buf (n - 1) := by
  cases n with
  | zero => rfl
  | succ n => simp [firstBytes, List.range_succ]

end Buffer

/-- A byte that the task stores in the line. -/
structure Ordinary (byte : UInt8) : Prop where
  ne_cr : byte ≠ 13
  ne_erase : ¬ (byte = 8 ∨ byte = 0x7f)
  lt : byte < 0x80

instance (byte : UInt8) : Decidable (Ordinary byte) :=
  decidable_of_iff (byte ≠ 13 ∧ ¬ (byte = 8 ∨ byte = 0x7f) ∧ byte < 0x80)
    ⟨fun h ↦ ⟨h.1, h.2.1, h.2.2⟩, fun h ↦ ⟨h.ne_cr, h.ne_erase, h.lt⟩⟩

section Answers

variable {num : Word} {p : Pending} {byte : UInt8}

theorem isascii_of_lt (h : byte < 0x80) : isascii byte = true := by
  have hlt : byte.toNat < 128 := h
  simp only [isascii, decide_eq_true_eq, UInt8.le_iff_toNat_le, UInt8.reduceToNat]
  omega

theorem not_isascii_of_le (h : ¬ byte < 0x80) : isascii byte = false := by
  have hle : ¬ byte.toNat < 128 := h
  simp only [isascii, decide_eq_false_iff_not, UInt8.le_iff_toNat_le, UInt8.reduceToNat]
  omega

theorem ttyByte_cr (num : Word) (p : Pending) :
    ttyByte num p 13 = .inr (((p.print [13]).push 10).print [13, 10]).complete := by
  simp only [ttyByte, if_true]

theorem ne_cr_of_erase (h : byte = 8 ∨ byte = 0x7f) : byte ≠ 13 := by
  rcases h with rfl | rfl <;> decide

theorem ttyByte_erase (h : byte = 8 ∨ byte = 0x7f) (hcnt : 0 < p.cnt) :
    ttyByte num p byte = .inl (p.print [byte]).pop.redraw := by
  have hcnt' : 0 < (p.print [byte]).cnt := hcnt
  simp only [ttyByte, ne_cr_of_erase h, h, hcnt', if_true, if_false]

theorem ttyByte_erase_empty (h : byte = 8 ∨ byte = 0x7f) (hcnt : ¬ 0 < p.cnt) :
    ttyByte num p byte = .inl (p.print [byte]) := by
  have hcnt' : ¬ 0 < (p.print [byte]).cnt := hcnt
  simp only [ttyByte, ne_cr_of_erase h, h, hcnt', if_true, if_false]

theorem ttyByte_full (h : Ordinary byte)
    (hnum : ((p.print [byte]).push byte).cnt.setWidth 32 = num) :
    ttyByte num p byte = .inr ((p.print [byte]).push byte).complete := by
  simp only [ttyByte, h.ne_cr, h.ne_erase, isascii_of_lt h.lt, hnum, if_true, if_false]

theorem ttyByte_push (h : Ordinary byte)
    (hnum : ¬ ((p.print [byte]).push byte).cnt.setWidth 32 = num) :
    ttyByte num p byte = .inl ((p.print [byte]).push byte) := by
  simp only [ttyByte, h.ne_cr, h.ne_erase, isascii_of_lt h.lt, hnum, if_true, if_false]

theorem eq_push_of_inl {q : Pending} (h : Ordinary byte) (hq : ttyByte num p byte = .inl q) :
    q = (p.print [byte]).push byte ∧ ¬ q.cnt.setWidth 32 = num := by
  by_cases hnum : ((p.print [byte]).push byte).cnt.setWidth 32 = num
  · rw [ttyByte_full h hnum] at hq
    cases hq
  · rw [ttyByte_push h hnum] at hq
    cases hq
    exact ⟨rfl, hnum⟩

theorem ne_cr_of_not_lt (h : ¬ byte < 0x80) : byte ≠ 13 := by
  intro heq
  exact h (heq ▸ by decide)

theorem not_erase_of_not_lt (h : ¬ byte < 0x80) : ¬ (byte = 8 ∨ byte = 0x7f) := by
  rintro (rfl | rfl) <;> exact h (by decide)

theorem ttyByte_unknown (h : ¬ byte < 0x80) :
    ttyByte num p byte = .inl ((p.print [byte]).unknown byte) := by
  simp only [ttyByte, ne_cr_of_not_lt h, not_erase_of_not_lt h, not_isascii_of_le h, if_false,
    Bool.false_eq_true]

/-- The four kinds of byte. -/
theorem byte_kinds (byte : UInt8) :
    byte = 13 ∨ (byte = 8 ∨ byte = 0x7f) ∨ Ordinary byte ∨ ¬ byte < 0x80 := by
  by_cases hcr : byte = 13
  · exact .inl hcr
  by_cases herase : byte = 8 ∨ byte = 0x7f
  · exact .inr (.inl herase)
  by_cases hlt : byte < 0x80
  · exact .inr (.inr (.inl ⟨hcr, herase, hlt⟩))
  · exact .inr (.inr (.inr hlt))

end Answers

section Tracking

/-- How the task follows the editor. It is in step while the line has stayed
below 256 bytes since it was last empty; after that its count is too small
until the line is empty again. -/
structure Tracks (num : Word) (L : Str) (peak : ℕ) (p : Pending) : Prop where
  length_le : L.length ≤ peak
  peak_lt : peak < num.toNat
  synced : peak ≤ 255 → p.cnt.toNat = L.length ∧ firstBytes p.rxBuf L.length = L
  behind : 255 < peak → p.cnt.toNat < L.length

variable {num : Word} {L : Str} {peak : ℕ} {p : Pending}

theorem Tracks.print (h : Tracks num L peak p) (text : Str) : Tracks num L peak (p.print text) :=
  ⟨h.length_le, h.peak_lt, h.synced, h.behind⟩

theorem print_nil (p : Pending) : p.print [] = p := by
  rw [Pending.print, List.append_nil]

theorem push_cnt (p : Pending) (c : UInt8) : (p.push c).cnt.toNat = (p.cnt.toNat + 1) % 256 := by
  simp [Pending.push, BitVec.toNat_add]

theorem pop_cnt (h : 0 < p.cnt) : p.pop.cnt.toNat = p.cnt.toNat - 1 := by
  have hlt := p.cnt.isLt
  have hpos : 0 < p.cnt.toNat := h
  simp only [Pending.pop, BitVec.toNat_sub, BitVec.reduceToNat]
  omega

theorem length_line (p : Pending) : (line p).length = p.cnt.toNat := by
  rw [line, firstBytes, List.length_map, List.length_range]

theorem line_push (hlt : p.cnt.toNat < 255) (c : UInt8) : line (p.push c) = line p ++ [c] := by
  rw [line, push_cnt, Nat.mod_eq_of_lt (by omega)]
  exact firstBytes_update_succ p.rxBuf p.cnt.toNat c

theorem line_pop (hcnt : 0 < p.cnt) : line p.pop = (line p).dropLast := by
  have hpop := pop_cnt hcnt
  rw [line, line, firstBytes_dropLast, ← hpop]
  exact firstBytes_update_of_le (Nat.le_refl _) 0

theorem toNat_setWidth (c : BitVec 8) : (c.setWidth 32 : Word).toNat = c.toNat := by
  have hlt := c.isLt
  rw [BitVec.toNat_setWidth]
  omega

theorem Tracks.push (h : Tracks num L peak p) (c : UInt8) :
    (max peak (L.length + 1) ≤ 255 → (p.push c).cnt.toNat = L.length + 1 ∧
      firstBytes (p.push c).rxBuf (L.length + 1) = L ++ [c]) ∧
    (255 < max peak (L.length + 1) → (p.push c).cnt.toNat < L.length + 1) := by
  have hcnt := push_cnt p c
  constructor
  · intro hle
    obtain ⟨hlen, hbytes⟩ := h.synced (by omega)
    refine ⟨by omega, ?_⟩
    rw [Pending.push, hlen, firstBytes_update_succ, hbytes]
  · intro hgt
    by_cases hpeak : peak ≤ 255
    · have hlen := (h.synced hpeak).1
      omega
    · have hlt := h.behind (by omega)
      omega

theorem Tracks.push_eq_num (h : Tracks num L peak p) (c : UInt8) :
    (p.push c).cnt.setWidth 32 = num ↔ L.length + 1 = num.toNat ∧ num.toNat ≤ 255 := by
  have hcnt := push_cnt p c
  have hpush := h.push c
  have hlen := h.length_le
  have hpeak := h.peak_lt
  rw [← BitVec.toNat_inj, toNat_setWidth]
  by_cases hle : max peak (L.length + 1) ≤ 255
  · have hsync := (hpush.1 hle).1
    omega
  · have hbehind := hpush.2 (by omega)
    omega

theorem Tracks.of_push (h : Tracks num L peak p) (c : UInt8) (hne : L.length + 1 ≠ num.toNat) :
    Tracks num (L ++ [c]) (max peak (L.length + 1)) (p.push c) := by
  have hpush := h.push c
  have hlen := h.length_le
  have hpeak := h.peak_lt
  refine ⟨?_, by omega, ?_, ?_⟩ <;> rw [List.length_append, List.length_singleton]
  · omega
  · exact hpush.1
  · exact hpush.2

theorem Tracks.of_empty (hnum : 0 < num.toNat) (hcnt : p.cnt.toNat = 0) : Tracks num [] 0 p :=
  ⟨Nat.le_refl 0, hnum, fun _ ↦ ⟨hcnt, rfl⟩, fun h ↦ absurd h (by decide)⟩

theorem Tracks.of_pop (h : Tracks num L peak p) (hcnt : 0 < p.cnt) :
    Tracks num L.dropLast (if L.dropLast = [] then 0 else max peak L.dropLast.length) p.pop := by
  have hpop := pop_cnt hcnt
  have hpos : 0 < p.cnt.toNat := hcnt
  have hlen := h.length_le
  have hpeak := h.peak_lt
  have hdrop : L.dropLast.length = L.length - 1 := List.length_dropLast
  split
  · next hnil =>
    rw [hnil]
    refine Tracks.of_empty (by omega) ?_
    rw [hnil, List.length_nil] at hdrop
    by_cases hle : peak ≤ 255
    · have hsync := (h.synced hle).1
      omega
    · have hbehind := h.behind (by omega)
      omega
  · refine ⟨by omega, by omega, fun hle ↦ ?_, fun hgt ↦ ?_⟩
    · obtain ⟨hsync, hbytes⟩ := h.synced (by omega)
      refine ⟨by omega, ?_⟩
      have hkeep : L.dropLast.length ≤ (p.cnt - 1).toNat := by
        have := hpop
        simp only [Pending.pop] at this
        omega
      rw [Pending.pop, firstBytes_update_of_le hkeep, hdrop, ← firstBytes_dropLast, hbytes]
    · have hbehind := h.behind (by omega)
      omega

theorem Tracks.of_pop_zero (h : Tracks num L peak p) (hcnt : ¬ 0 < p.cnt) :
    Tracks num L.dropLast (if L.dropLast = [] then 0 else max peak L.dropLast.length) p := by
  have hzero : p.cnt.toNat = 0 := Nat.eq_zero_of_not_pos hcnt
  have hlen := h.length_le
  have hpeak := h.peak_lt
  have hdrop : L.dropLast.length = L.length - 1 := List.length_dropLast
  split
  · next hnil =>
    rw [hnil]
    exact Tracks.of_empty (by omega) hzero
  · next hne =>
    have hpos := List.length_pos_of_ne_nil hne
    refine ⟨by omega, by omega, fun hle ↦ ?_, fun hgt ↦ by omega⟩
    have hsync := (h.synced (by omega)).1
    omega

theorem Tracks.of_ignored (h : Tracks num L peak p) :
    Tracks num L (if L = [] then 0 else max peak L.length) p := by
  have hlen := h.length_le
  have hpeak := h.peak_lt
  split
  · next hnil =>
    subst hnil
    refine Tracks.of_empty (by omega) ?_
    by_cases hle : peak ≤ 255
    · exact (h.synced hle).1
    · exact absurd (h.behind (by omega)) (Nat.not_lt_zero _)
  · rwa [Nat.max_eq_left hlen]

theorem Tracks.delivers_iff (h : Tracks num L peak p) (c : UInt8) (text : Str) :
    Delivers num (L ++ [c]) ((p.push c).print text).complete ↔
      max peak (L ++ [c]).length ≤ 255 := by
  have hpush := h.push c
  have hlen := h.length_le
  have hpeak := h.peak_lt
  have hcount : ((p.push c).print text).complete.rxNum.toNat = (p.push c).cnt.toNat :=
    toNat_setWidth _
  have hsucc : (L ++ [c]).length = L.length + 1 := by simp
  rw [hsucc]
  constructor
  · intro hd
    have heq := hd.count
    by_contra hgt
    have hbehind := hpush.2 (by omega)
    omega
  · intro hle
    obtain ⟨hsync, hbytes⟩ := hpush.1 hle
    refine ⟨by omega, ?_, by omega, by omega⟩
    rw [hsucc]
    exact hbytes

/-- One byte: both go on, both finish, or only the editor finishes, which needs
a line of 256 bytes. -/
theorem Tracks.byte_cases (h : Tracks num L peak p) (byte : UInt8) :
    (∃ L' p', editStep num.toNat L byte = .inl L' ∧ ttyByte num p byte = .inl p' ∧
      Tracks num L' (if L' = [] then 0 else max peak L'.length) p') ∨
    (∃ L' c, editStep num.toNat L byte = .inr L' ∧ ttyByte num p byte = .inr c ∧
      (Delivers num L' c ↔ max peak L'.length ≤ 255)) ∨
    (∃ L' p', editStep num.toNat L byte = .inr L' ∧ ttyByte num p byte = .inl p' ∧
      255 < max peak L'.length) := by
  have hecho := h.print [byte]
  rcases byte_kinds byte with rfl | herase | hord | hother
  · refine .inr (.inl ⟨L ++ [10], _, ?_, ttyByte_cr num p, hecho.delivers_iff 10 [13, 10]⟩)
    simp only [editStep, if_true]
  · left
    have hedit : editStep num.toNat L byte = .inl L.dropLast := by
      simp only [editStep, ne_cr_of_erase herase, herase, if_true, if_false]
    by_cases hcnt : 0 < p.cnt
    · exact ⟨L.dropLast, _, hedit, ttyByte_erase herase hcnt, (hecho.of_pop hcnt).print _⟩
    · exact ⟨L.dropLast, _, hedit, ttyByte_erase_empty herase hcnt, hecho.of_pop_zero hcnt⟩
  · have hnum := hecho.push_eq_num byte
    have hsucc : (L ++ [byte]).length = L.length + 1 := by simp
    by_cases hfull : L.length + 1 = num.toNat
    · have hedit : editStep num.toNat L byte = .inr (L ++ [byte]) := by
        simp only [editStep, hord.ne_cr, hord.ne_erase, hord.lt, hfull, if_true, if_false]
      by_cases hbig : num.toNat ≤ 255
      · have hdelivers := hecho.delivers_iff byte []
        rw [print_nil] at hdelivers
        exact .inr (.inl ⟨_, _, hedit, ttyByte_full hord (hnum.mpr ⟨hfull, hbig⟩), hdelivers⟩)
      · have hpush := ttyByte_push hord fun heq ↦ hbig (hnum.mp heq).2
        exact .inr (.inr ⟨_, _, hedit, hpush, by omega⟩)
    · have hpush := ttyByte_push hord fun heq ↦ hfull (hnum.mp heq).1
      refine .inl ⟨L ++ [byte], _, ?_, hpush, ?_⟩
      · simp only [editStep, hord.ne_cr, hord.ne_erase, hord.lt, hfull, if_true, if_false]
      · rw [if_neg (by simp), hsucc]
        exact hecho.of_push byte hfull
  · refine .inl ⟨L, _, ?_, ttyByte_unknown hother, hecho.of_ignored.print _⟩
    simp only [editStep, ne_cr_of_not_lt hother, not_erase_of_not_lt hother, hother, if_false]

end Tracking

section Refinement

variable {num : Word} {L : Str} {peak : ℕ} {p : Pending}

theorem peakStep_inl {byte : UInt8} {L' : Str} (h : editStep num.toNat L byte = .inl L') :
    peakStep num.toNat (L, peak) byte = .inl (L', if L' = [] then 0 else max peak L'.length) := by
  simp only [peakStep, h]

theorem peakStep_inr {byte : UInt8} {L' : Str} (h : editStep num.toNat L byte = .inr L') :
    peakStep num.toNat (L, peak) byte = .inr (max peak L'.length) := by
  simp only [peakStep, h]

theorem Tracks.agree_iff (h : Tracks num L peak p) (bs : Str) :
    Agree (Delivers num) (feed (editStep num.toNat) L bs) (feed (ttyByte num) p bs) ↔
      ∀ m rest, feed (peakStep num.toNat) (L, peak) bs = .inr (m, rest) → m ≤ 255 := by
  induction bs generalizing L peak p with
  | nil => simp [feed, Agree]
  | cons byte bs ih =>
    rcases h.byte_cases byte with ⟨L', p', hedit, htty, htracks⟩ | ⟨L', c, hedit, htty, hiff⟩ |
      ⟨L', p', hedit, htty, hgt⟩
    · rw [agree_inl_inl hedit htty, feed_cons_inl (peakStep_inl hedit)]
      exact ih htracks
    · rw [agree_inr_inr hedit htty, feed_cons_inr (peakStep_inr hedit), hiff]
      simp
    · refine iff_of_false (not_agree_inr_inl hedit htty) fun hle ↦ ?_
      rw [feed_cons_inr (peakStep_inr hedit)] at hle
      exact absurd (hle _ _ rfl) (by omega)

/-- `TTY_Task` serves a request as the unbounded editor would exactly when the
editor does not finish, or finishes a line that stayed below 256 bytes since it
was last empty. -/
theorem ttyTask_refines_editor_iff (num : Word) (hnum : 1 ≤ num.toNat) (buf : ℕ → UInt8)
    (out bs : Str) :
    Agree (Delivers num) (feed (editStep num.toNat) [] bs) (feed (ttyByte num) ⟨0, buf, out⟩ bs) ↔
      ∀ m rest, feed (peakStep num.toNat) ([], 0) bs = .inr (m, rest) → m ≤ 255 :=
  (Tracks.of_empty hnum rfl).agree_iff bs

theorem ttyTask_refines_editor_short_line :
    Agree (Delivers 4#32) (feed (editStep 4) [] [97, 98, 8, 13])
      (feed (ttyByte 4#32) ⟨0, fun _ ↦ 0, []⟩ [97, 98, 8, 13]) := by
  have hiff := ttyTask_refines_editor_iff 4#32 (by decide) (fun _ ↦ 0) [] [97, 98, 8, 13]
  refine hiff.mpr fun m rest h ↦ ?_
  have heval : feed (peakStep 4) ([], 0) [97, 98, 8, 13] = .inr (2, []) := by decide
  cases heval.symm.trans h
  decide

/-- A request of 1024 bytes and a line of 255 characters: the editor delivers
256 bytes, `tty_driver_rx` returns 0. -/
theorem long_line_returns_zero :
    ¬ Agree (Delivers 1024#32) (feed (editStep 1024) [] (List.replicate 255 97 ++ [13]))
      (feed (ttyByte 1024#32) ⟨0, fun _ ↦ 0, []⟩ (List.replicate 255 97 ++ [13])) := by
  have hzero : ((feed (ttyByte 1024#32) ⟨0, fun _ ↦ 0, []⟩ (List.replicate 255 97 ++ [13])).elim
      (fun _ ↦ 0) fun r ↦ r.1.rxNum) = 0 := by decide +kernel
  have hends : (feed (editStep 1024) [] (List.replicate 255 97 ++ [13])).isRight = true := by
    decide +kernel
  intro hagree
  rcases hedit : feed (editStep 1024) [] (List.replicate 255 97 ++ [13]) with L | ⟨L, rest⟩ <;>
    rcases htty : feed (ttyByte 1024#32) ⟨0, fun _ ↦ 0, []⟩ (List.replicate 255 97 ++ [13])
      with q | ⟨c, rest'⟩ <;> rw [hedit, htty] at hagree
  · rw [hedit] at hends
    cases hends
  · exact hagree
  · exact hagree
  · have hpos := hagree.2.pos
    rw [htty] at hzero
    simp only [Sum.elim_inr] at hzero
    rw [hzero] at hpos
    exact absurd hpos (by decide)

end Refinement

end Tanenbaum.Tty.LineDiscipline
