import Tanenbaum.Lib.Bytes
import Tanenbaum.Lib.CString
import Mathlib.Data.List.GetD
import Mathlib.Logic.Function.Basic

namespace Tanenbaum.Usb.Strings

open Lib.Bytes Lib.CString

/-- `string_desc_arr`: the two bytes of the language id, and the entries from
index 1 on, where an absent one is NULL. -/
structure Table where
  langId : UInt8 × UInt8
  entries : List (Option Str)

inductive Fault
  | nullString
  | outOfBounds

/-- `_desc_str` by index -/
abbrev Buffer := ℕ → BitVec 16

/-- The words of `_desc_str`. -/
def capacity : ℕ := 32 + 1

def store (buf : Buffer) (i : ℕ) (v : BitVec 16) : Except Fault Buffer :=
  if i < capacity then .ok (Function.update buf i v) else .error .outOfBounds

def strlen : Option Str → Except Fault ℕ
  | none => .error .nullString
  | some s => .ok (s.takeWhile (· ≠ 0)).length

/-- A character as `_desc_str` holds it: `char` is unsigned on the target. -/
def widen (c : UInt8) : BitVec 16 := c.toBitVec.setWidth 16

/-- `_desc_str[1 + i] = str[i]` for the first `i` up to the count. -/
def copyChars (str : Str) (buf : Buffer) : ℕ → Except Fault Buffer
  | 0 => .ok buf
  | i + 1 => do store (← copyChars str buf i) (1 + i) (widen (str.getD i 0))

def tusbDescString : BitVec 16 := 0x03

def header (chrCount : ℕ) : BitVec 16 :=
  tusbDescString <<< 8 ||| BitVec.ofNat 16 (2 * chrCount + 2)

inductive Pointer
  | null
  | descStr

/-- The end of `tud_descriptor_string_cb`, after its switch. -/
def finish (buf : Buffer) (chrCount : ℕ) : Except Fault (Pointer × Buffer) := do
  .ok (.descStr, ← store buf 0 (header chrCount))

/-- The word that `memcpy` makes of the two bytes of the language id. -/
def langWord (t : Table) : BitVec 16 := widen t.langId.2 <<< 8 ||| widen t.langId.1

def tudDescriptorStringCb (t : Table) (index : BitVec 8) (buf : Buffer) :
    Except Fault (Pointer × Buffer) :=
  if index = 0 then do
    finish (← store buf 1 (langWord t)) 1
  else if ¬ index.toNat < t.entries.length + 1 then .ok (.null, buf)
  else do
    let str := (t.entries[index.toNat - 1]?).join
    let chrCount ← strlen str
    let maxCount := capacity - 1
    let chrCount := if chrCount > maxCount then maxCount else chrCount
    finish (← copyChars (str.getD []) buf chrCount) chrCount

/-- What is in `_desc_str` after a sequence of calls. -/
def calls (t : Table) (buf : Buffer) : List (BitVec 8) → Except Fault Buffer
  | [] => .ok buf
  | index :: rest => do calls t (← tudDescriptorStringCb t index buf).2 rest

/-- What `process_get_descriptor` sends of `_desc_str`: as many bytes as its
first byte says. -/
def transferred (buf : Buffer) : List (BitVec 8) :=
  (List.range (byteAt 0 (buf 0)).toNat).map fun k ↦ byteAt (k % 2) (buf (k / 2))

/-- A string descriptor with the given code units. -/
def stringDescriptor (units : List (BitVec 16)) : List (BitVec 8) :=
  BitVec.ofNat 8 (2 + 2 * units.length) :: 3#8 :: units.flatMap fun u ↦ [byteAt 0 u, byteAt 1 u]

/-- The entry is in the table, and it is NULL. -/
def Absent (t : Table) (index : BitVec 8) : Prop :=
  index ≠ 0 ∧ t.entries[index.toNat - 1]? = some none

/-- The code units that the host should get for an index. -/
def unitsOf (t : Table) (index : BitVec 8) : Option (List (BitVec 16)) :=
  if index = 0 then some [langWord t]
  else ((t.entries[index.toNat - 1]?).join).map fun s ↦
    ((s.takeWhile (· ≠ 0)).take 32).map widen

/-- NULL for an index without a string, and a well-formed descriptor of that
string otherwise. -/
def Answers (t : Table) (index : BitVec 8) : Except Fault (Pointer × Buffer) → Prop
  | .error _ => False
  | .ok (.null, _) => unitsOf t index = none
  | .ok (.descStr, buf) => ∃ units, unitsOf t index = some units ∧
      transferred buf = stringDescriptor units

section Transfer

variable {buf : Buffer} {n : ℕ}

theorem range_two_mul_map (buf : Buffer) (m : ℕ) :
    (List.range (2 * m)).map (fun k ↦ byteAt (k % 2) (buf (k / 2))) =
      (List.range m).flatMap fun i ↦ [byteAt 0 (buf i), byteAt 1 (buf i)] := by
  induction m with
  | zero => rfl
  | succ m ih =>
    have heven : 2 * m % 2 = 0 ∧ 2 * m / 2 = m := by omega
    have hodd : (2 * m + 1) % 2 = 1 ∧ (2 * m + 1) / 2 = m := by omega
    rw [Nat.mul_succ, List.range_succ, List.range_succ, List.range_succ, List.map_append,
      List.map_append, ih, List.flatMap_append]
    simp only [List.map_cons, List.map_nil, heven, hodd, List.flatMap_cons, List.flatMap_nil,
      List.append_nil, List.append_assoc, List.singleton_append]

theorem byteAt_header (hn : n ≤ 32) :
    byteAt 0 (header n) = BitVec.ofNat 8 (2 + 2 * n) ∧ byteAt 1 (header n) = 3#8 ∧
      (byteAt 0 (header n)).toNat = 2 * (n + 1) := by
  have hall : ∀ k : Fin 33, byteAt 0 (header k) = BitVec.ofNat 8 (2 + 2 * k) ∧
      byteAt 1 (header k) = 3#8 ∧ (byteAt 0 (header k)).toNat = 2 * (k + 1) := by
    decide
  exact hall ⟨n, Nat.lt_succ_of_le hn⟩

theorem transferred_finish (hn : n ≤ 32) :
    transferred (Function.update buf 0 (header n)) =
      stringDescriptor ((List.range n).map fun i ↦ buf (1 + i)) := by
  obtain ⟨hlow, hhigh, hlen⟩ := byteAt_header hn
  rw [transferred, Function.update_self, hlen, range_two_mul_map, List.range_succ_eq_map,
    List.flatMap_cons, Function.update_self, hlow, hhigh, stringDescriptor, List.length_map,
    List.length_range, List.flatMap_map, List.flatMap_map]
  change _ :: _ :: List.flatMap _ _ = _
  congr 4
  funext i
  rw [Function.update_of_ne (Nat.succ_ne_zero i), Nat.succ_eq_one_add]

end Transfer

section Callback

variable {t : Table} {index : BitVec 8} {buf : Buffer} {str : Str} {n : ℕ}

theorem store_eq {i : ℕ} (hi : i < capacity) (v : BitVec 16) :
    store buf i v = .ok (Function.update buf i v) :=
  if_pos hi

theorem copyChars_ok (buf : Buffer) (hlen : n ≤ str.length) (hn : n ≤ 32) :
    ∃ b, copyChars str buf n = .ok b ∧
      (List.range n).map (fun i ↦ b (1 + i)) = (str.take n).map widen := by
  induction n with
  | zero => exact ⟨buf, rfl, rfl⟩
  | succ n ih =>
    obtain ⟨b, hb, hwords⟩ := ih (Nat.le_of_succ_le hlen) (Nat.le_of_succ_le hn)
    refine ⟨Function.update b (1 + n) (widen (str.getD n 0)), ?_, ?_⟩
    · rw [copyChars, hb]
      exact store_eq (by rw [capacity]; omega) _
    · -- the words written before stay, and the new one is the next character
      have hkeep : (List.range n).map
          (fun i ↦ Function.update b (1 + n) (widen (str.getD n 0)) (1 + i)) =
          (List.range n).map fun i ↦ b (1 + i) := by
        apply List.map_congr_left
        intro i hi
        have hlt := List.mem_range.mp hi
        exact Function.update_of_ne (by omega) _ _
      rw [List.range_succ, List.map_append, hkeep, hwords, List.map_singleton,
        Function.update_self, List.take_succ_eq_append_getElem hlen, List.map_append,
        List.getD_eq_getElem _ _ hlen, List.map_singleton]

theorem unitsOf_string (hindex : index ≠ 0)
    (hstr : t.entries[index.toNat - 1]? = some (some str)) :
    unitsOf t index = some (((str.takeWhile (· ≠ 0)).take 32).map widen) := by
  rw [unitsOf, if_neg hindex, hstr]
  rfl

theorem take_strlen (str : Str) :
    str.take (min (str.takeWhile (· ≠ 0)).length 32) = (str.takeWhile (· ≠ 0)).take 32 := by
  rw [Nat.min_comm, ← List.take_take]
  congr 1
  exact (List.prefix_iff_eq_take.mp (List.takeWhile_prefix _)).symm

/-- The call for a string of the table, whatever `_desc_str` held before. -/
theorem tudDescriptorStringCb_string (buf : Buffer) (hindex : index ≠ 0)
    (hstr : t.entries[index.toNat - 1]? = some (some str)) :
    ∃ b, tudDescriptorStringCb t index buf = .ok (.descStr, b) ∧
      transferred b = stringDescriptor (((str.takeWhile (· ≠ 0)).take 32).map widen) := by
  have hpos : 0 < index.toNat := toNat_pos hindex
  have hlt : index.toNat < t.entries.length + 1 := by
    obtain ⟨hget, -⟩ := List.getElem?_eq_some_iff.mp hstr
    omega
  have hmin : (if (str.takeWhile (· ≠ 0)).length > capacity - 1 then capacity - 1
      else (str.takeWhile (· ≠ 0)).length) = min (str.takeWhile (· ≠ 0)).length 32 := by
    rw [capacity]
    split <;> omega
  have hle : (str.takeWhile (· ≠ 0)).length ≤ str.length := (List.takeWhile_prefix _).length_le
  obtain ⟨b, hb, hwords⟩ := copyChars_ok buf (Nat.le_trans (Nat.min_le_left _ 32) hle)
    (Nat.min_le_right _ _)
  refine ⟨Function.update b 0 (header (min (str.takeWhile (· ≠ 0)).length 32)), ?_, ?_⟩
  · rw [tudDescriptorStringCb, if_neg hindex, if_neg (not_not_intro hlt), hstr]
    change (copyChars str buf (ite _ _ _) >>= fun buf ↦ finish buf (ite _ _ _)) = _
    rw [hmin, hb]
    rfl
  · rw [transferred_finish (Nat.min_le_right _ _), hwords, take_strlen]

theorem tudDescriptorStringCb_langId (t : Table) (buf : Buffer) :
    ∃ b, tudDescriptorStringCb t 0 buf = .ok (.descStr, b) ∧
      transferred b = stringDescriptor [langWord t] := by
  refine ⟨Function.update (Function.update buf 1 (langWord t)) 0 (header 1), rfl, ?_⟩
  rw [transferred_finish (by decide)]
  simp

theorem tudDescriptorStringCb_outside (buf : Buffer) (hindex : index ≠ 0)
    (hout : t.entries.length < index.toNat) : tudDescriptorStringCb t index buf = .ok (.null, buf) := by
  rw [tudDescriptorStringCb, if_neg hindex, if_pos (by omega)]

theorem tudDescriptorStringCb_absent (buf : Buffer) (h : Absent t index) :
    tudDescriptorStringCb t index buf = .error .nullString := by
  obtain ⟨hindex, hnull⟩ := h
  have hpos : 0 < index.toNat := toNat_pos hindex
  have hlt : index.toNat < t.entries.length + 1 := by
    obtain ⟨hget, -⟩ := List.getElem?_eq_some_iff.mp hnull
    omega
  rw [tudDescriptorStringCb, if_neg hindex, if_neg (not_not_intro hlt), hnull]
  rfl

theorem unitsOf_outside (hindex : index ≠ 0) (hout : t.entries.length < index.toNat) :
    unitsOf t index = none := by
  rw [unitsOf, if_neg hindex, List.getElem?_eq_none (by omega)]
  rfl

theorem index_cases (t : Table) (index : BitVec 8) :
    index = 0 ∨ Absent t index ∨
      (index ≠ 0 ∧ ∃ str, t.entries[index.toNat - 1]? = some (some str)) ∨
      (index ≠ 0 ∧ t.entries.length < index.toNat) := by
  by_cases hindex : index = 0
  · exact .inl hindex
  have hpos : 0 < index.toNat := toNat_pos hindex
  rcases hget : t.entries[index.toNat - 1]? with _ | _ | str
  · rw [List.getElem?_eq_none_iff] at hget
    exact .inr (.inr (.inr ⟨hindex, by omega⟩))
  · exact .inr (.inl ⟨hindex, hget⟩)
  · exact .inr (.inr (.inl ⟨hindex, str, rfl⟩))

theorem answers_iff (t : Table) (index : BitVec 8) (buf : Buffer) :
    Answers t index (tudDescriptorStringCb t index buf) ↔ ¬ Absent t index := by
  rcases index_cases t index with rfl | habsent | ⟨hindex, str, hstr⟩ | ⟨hindex, hout⟩
  · obtain ⟨b, hb, hsent⟩ := tudDescriptorStringCb_langId t buf
    rw [hb]
    exact iff_of_true ⟨_, rfl, hsent⟩ fun habsent ↦ habsent.1 rfl
  · rw [tudDescriptorStringCb_absent buf habsent]
    exact iff_of_false id fun hnot ↦ hnot habsent
  · obtain ⟨b, hb, hsent⟩ := tudDescriptorStringCb_string buf hindex hstr
    rw [hb]
    refine iff_of_true ⟨_, unitsOf_string hindex hstr, hsent⟩ fun habsent ↦ ?_
    cases hstr.symm.trans habsent.2
  · rw [tudDescriptorStringCb_outside buf hindex hout]
    refine iff_of_true (unitsOf_outside hindex hout) fun habsent ↦ ?_
    obtain ⟨hget, -⟩ := List.getElem?_eq_some_iff.mp habsent.2
    omega

theorem exists_ok_of_answers {r : Except Fault (Pointer × Buffer)} (h : Answers t index r) :
    ∃ a, r = .ok a := by
  cases r with
  | error e => exact h.elim
  | ok a => exact ⟨a, rfl⟩

theorem calls_ok_iff (t : Table) (buf : Buffer) (earlier : List (BitVec 8)) :
    (∃ b, calls t buf earlier = .ok b) ↔ ∀ i ∈ earlier, ¬ Absent t i := by
  induction earlier generalizing buf with
  | nil => exact iff_of_true ⟨buf, rfl⟩ fun i hi ↦ absurd hi List.not_mem_nil
  | cons index rest ih =>
    rw [List.forall_mem_cons]
    by_cases habsent : Absent t index
    · rw [calls, tudDescriptorStringCb_absent buf habsent]
      refine iff_of_false ?_ fun hall ↦ hall.1 habsent
      rintro ⟨b, hb⟩
      cases hb
    · obtain ⟨a, ha⟩ := exists_ok_of_answers ((answers_iff t index buf).mpr habsent)
      rw [calls, ha, and_iff_right habsent]
      exact ih a.2

end Callback

section Device

/-- The string indices of a device descriptor. -/
structure DeviceStrings where
  iManufacturer : BitVec 8
  iProduct : BitVec 8
  iSerialNumber : BitVec 8

def DeviceStrings.indices (d : DeviceStrings) : List (BitVec 8) :=
  [d.iManufacturer, d.iProduct, d.iSerialNumber]

def descDevice : DeviceStrings where
  iManufacturer := 0x01
  iProduct := 0x02
  iSerialNumber := 0x03

/-- `"Misha molodets!"` and `"STM32F407VET6 of Misha"`; the serial number is NULL. -/
def stringDescArr : Table where
  langId := (0x09, 0x04)
  entries :=
    [some [77, 105, 115, 104, 97, 32, 109, 111, 108, 111, 100, 101, 116, 115, 33],
      some [83, 84, 77, 51, 50, 70, 52, 48, 55, 86, 69, 84, 54, 32, 111, 102, 32, 77, 105, 115,
        104, 97],
      none]

/-- The index yields a descriptor. -/
def Yields (t : Table) (index : BitVec 8) (buf : Buffer) : Prop :=
  ∃ b, tudDescriptorStringCb t index buf = .ok (.descStr, b)

theorem yields_iff_of_mem (buf : Buffer) {index : BitVec 8} (h : index ∈ descDevice.indices) :
    Yields stringDescArr index buf ↔ index ≠ 3 := by
  simp only [DeviceStrings.indices, descDevice, List.mem_cons, List.not_mem_nil, or_false] at h
  rcases h with rfl | rfl | rfl
  · obtain ⟨b, hb, -⟩ := @tudDescriptorStringCb_string stringDescArr 1 _ buf (by decide) rfl
    exact iff_of_true ⟨b, hb⟩ (by decide)
  · obtain ⟨b, hb, -⟩ := @tudDescriptorStringCb_string stringDescArr 2 _ buf (by decide) rfl
    exact iff_of_true ⟨b, hb⟩ (by decide)
  · refine iff_of_false ?_ fun hne ↦ hne rfl
    rintro ⟨b, hb⟩
    rw [tudDescriptorStringCb_absent buf ⟨by decide, rfl⟩] at hb
    cases hb

/-- After any calls, a call answers as it should exactly when neither it nor an
earlier one is for an absent entry, of which it would take the length. Of the
indices in `desc_device` all but that of the serial number yield a descriptor. -/
theorem string_descriptors_iff (t : Table) (buf : Buffer) (earlier : List (BitVec 8))
    (index : BitVec 8) :
    ((∃ b, calls t buf earlier = .ok b ∧ Answers t index (tudDescriptorStringCb t index b)) ↔
      ∀ i ∈ earlier ++ [index], ¬ Absent t i) ∧
    ∀ i ∈ descDevice.indices, Yields stringDescArr i buf ↔ i ≠ descDevice.iSerialNumber := by
  refine ⟨?_, fun i hi ↦ yields_iff_of_mem buf hi⟩
  simp only [answers_iff, exists_and_right, calls_ok_iff, List.forall_mem_append,
    List.forall_mem_singleton]

/-- The host asks for the serial number that the device descriptor announces:
`strlen(NULL)`. -/
theorem serial_number_faults :
    descDevice.iSerialNumber ∈ descDevice.indices ∧ descDevice.iSerialNumber ≠ 0 ∧
      tudDescriptorStringCb stringDescArr descDevice.iSerialNumber (fun _ ↦ 0) =
        .error .nullString :=
  ⟨by decide, by decide, tudDescriptorStringCb_absent _ ⟨by decide, rfl⟩⟩

end Device

end Tanenbaum.Usb.Strings
