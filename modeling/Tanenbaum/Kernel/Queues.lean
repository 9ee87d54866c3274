import Tanenbaum.Lib.Circular
import Tanenbaum.Tty.Driver
import Mathlib.Tactic.Linarith

namespace Tanenbaum.Kernel.Queues

open Lib.Circular

/-- The part of `xQUEUE` that holds the items, with the memory its pointers lead to. -/
structure Queue where
  mem : ℤ → UInt8
  pcHead : ℤ
  pcWriteTo : ℤ
  pcTail : ℤ
  pcReadFrom : ℤ
  uxMessagesWaiting : ℕ
  uxLength : ℕ
  uxItemSize : ℕ

inductive Position
  | sendToBack
  | sendToFront
  | overwrite
  deriving DecidableEq

section Functions

/-- `memcpy` of the item at a pointer into the queue. -/
def copyIn (mem : ℤ → UInt8) (dst : ℤ) (item : ℕ → UInt8) (size : ℕ) : ℤ → UInt8 :=
  fun a ↦ if dst ≤ a ∧ a < dst + size then item (a - dst).toNat else mem a

def copyOut (mem : ℤ → UInt8) (src : ℤ) (size : ℕ) : List UInt8 :=
  (List.range size).map fun (j : ℕ) ↦ mem (src + j)

/-- `SIZE_MAX` of the target. -/
def sizeMax : ℕ := 2 ^ 32 - 1

/-- The queue after a reset, or `none` for `pdFAIL`. -/
def xQueueGenericReset (q : Queue) : Option Queue :=
  if 1 ≤ q.uxLength ∧ sizeMax / q.uxLength ≥ q.uxItemSize then
    some { q with
      pcTail := q.pcHead + q.uxLength * q.uxItemSize
      uxMessagesWaiting := 0
      pcWriteTo := q.pcHead
      pcReadFrom := q.pcHead + (q.uxLength - 1) * q.uxItemSize }
  else none

/-- `self` is the address of the structure, in place of the storage a semaphore does not have. -/
def prvInitialiseNewQueue (uxQueueLength uxItemSize : ℕ) (pucQueueStorage self : ℤ) (q : Queue) :
    Option Queue :=
  let q := if uxItemSize = 0 then { q with pcHead := self } else
    { q with pcHead := pucQueueStorage }
  let q := { q with uxLength := uxQueueLength, uxItemSize := uxItemSize }
  xQueueGenericReset q

/-- For queues and semaphores that are no mutex. -/
def prvCopyDataToQueue (q : Queue) (item : ℕ → UInt8) (xPosition : Position) : Queue :=
  let uxMessagesWaiting := q.uxMessagesWaiting
  if q.uxItemSize = 0 then { q with uxMessagesWaiting := uxMessagesWaiting + 1 }
  else if xPosition = .sendToBack then
    let q := { q with mem := copyIn q.mem q.pcWriteTo item q.uxItemSize }
    let q := { q with pcWriteTo := q.pcWriteTo + q.uxItemSize }
    let q := if q.pcWriteTo ≥ q.pcTail then { q with pcWriteTo := q.pcHead } else q
    { q with uxMessagesWaiting := uxMessagesWaiting + 1 }
  else
    let q := { q with mem := copyIn q.mem q.pcReadFrom item q.uxItemSize }
    let q := { q with pcReadFrom := q.pcReadFrom - q.uxItemSize }
    let q := if q.pcReadFrom < q.pcHead then { q with pcReadFrom := q.pcTail - q.uxItemSize } else q
    let uxMessagesWaiting :=
      if xPosition = .overwrite ∧ 0 < uxMessagesWaiting then uxMessagesWaiting - 1
      else uxMessagesWaiting
    { q with uxMessagesWaiting := uxMessagesWaiting + 1 }

/-- What arrives in the buffer of the caller, and the queue. -/
def prvCopyDataFromQueue (q : Queue) : List UInt8 × Queue :=
  if q.uxItemSize ≠ 0 then
    let q := { q with pcReadFrom := q.pcReadFrom + q.uxItemSize }
    let q := if q.pcReadFrom ≥ q.pcTail then { q with pcReadFrom := q.pcHead } else q
    (copyOut q.mem q.pcReadFrom q.uxItemSize, q)
  else ([], q)

/-- `pdPASS` or `errQUEUE_FULL`; also what a task does before it would block. -/
def xQueueGenericSendFromISR (q : Queue) (item : ℕ → UInt8) (xCopyPosition : Position) :
    Bool × Queue :=
  if q.uxMessagesWaiting < q.uxLength ∨ xCopyPosition = .overwrite then
    (true, prvCopyDataToQueue q item xCopyPosition)
  else (false, q)

def xQueueGiveFromISR (q : Queue) : Bool × Queue :=
  if q.uxMessagesWaiting < q.uxLength then
    (true, { q with uxMessagesWaiting := q.uxMessagesWaiting + 1 })
  else (false, q)

def xQueueReceiveFromISR (q : Queue) : Option (List UInt8) × Queue :=
  let uxMessagesWaiting := q.uxMessagesWaiting
  if 0 < uxMessagesWaiting then
    let (buffer, q) := prvCopyDataFromQueue q
    (some buffer, { q with uxMessagesWaiting := uxMessagesWaiting - 1 })
  else (none, q)

/-- What a task takes from a semaphore before it would block. -/
def xQueueSemaphoreTake (q : Queue) : Bool × Queue :=
  let uxSemaphoreCount := q.uxMessagesWaiting
  if 0 < uxSemaphoreCount then (true, { q with uxMessagesWaiting := uxSemaphoreCount - 1 })
  else (false, q)

def xQueuePeekFromISR (q : Queue) : Option (List UInt8) × Queue :=
  if 0 < q.uxMessagesWaiting then
    let pcOriginalReadPosition := q.pcReadFrom
    let (buffer, q) := prvCopyDataFromQueue q
    (some buffer, { q with pcReadFrom := pcOriginalReadPosition })
  else (none, q)

end Functions

section Memory

variable {mem : ℤ → UInt8} {dst src a : ℤ} {item : ℕ → UInt8} {size : ℕ}

theorem copyIn_of_outside (ha : a < dst ∨ dst + size ≤ a) : copyIn mem dst item size a = mem a :=
  if_neg fun h ↦ by omega

theorem copyOut_copyIn_self : copyOut (copyIn mem dst item size) dst size =
    (List.range size).map item := by
  refine List.map_congr_left fun j hj ↦ ?_
  have hj := List.mem_range.mp hj
  rw [copyIn, if_pos (by omega)]
  congr 1
  omega

theorem copyOut_copyIn_of_apart (h : src + size ≤ dst ∨ dst + size ≤ src) :
    copyOut (copyIn mem dst item size) src size = copyOut mem src size := by
  refine List.map_congr_left fun j hj ↦ copyIn_of_outside ?_
  have hj := List.mem_range.mp hj
  omega

end Memory

section Slots

variable {q : Queue} {n s w r : ℕ} {head : ℤ}

/-- Item number `k` of the storage area. -/
def slot (q : Queue) (k : ℕ) : List UInt8 :=
  copyOut q.mem (q.pcHead + k * q.uxItemSize) q.uxItemSize

/-- Different items of the storage area do not overlap. -/
theorem apart_of_ne {i j : ℕ} (hij : i ≠ j) :
    head + i * s + s ≤ head + j * s ∨ head + j * s + s ≤ head + i * s := by
  rcases Nat.lt_or_gt_of_ne hij with hlt | hlt
  · left
    nlinarith [Int.mul_le_mul_of_nonneg_right (show (i : ℤ) + 1 ≤ j by omega) (Int.natCast_nonneg s)]
  · right
    nlinarith [Int.mul_le_mul_of_nonneg_right (show (j : ℤ) + 1 ≤ i by omega) (Int.natCast_nonneg s)]

/-- An item lies within the storage area. -/
theorem slot_within (hw : w < n) : head + w * s + s ≤ head + n * s := by
  nlinarith [Int.mul_le_mul_of_nonneg_right (show (w : ℤ) + 1 ≤ n by omega) (Int.natCast_nonneg s)]

theorem advance_eq (head : ℤ) (hs : 0 < s) (hw : w < n) :
    (if head + w * s + s ≥ head + n * s then head else head + w * s + s) =
      head + ((w + 1) % n : ℕ) * s := by
  by_cases hlast : w + 1 < n
  · have hwithin : head + (w + 1 : ℕ) * s + s ≤ head + n * s := slot_within hlast
    push_cast at hwithin
    rw [if_neg (by nlinarith), Nat.mod_eq_of_lt hlast]
    push_cast
    ring
  · obtain rfl : n = w + 1 := by omega
    rw [if_pos (by push_cast; nlinarith), Nat.mod_self]
    simp

theorem retreat_eq (head : ℤ) (hs : 0 < s) (hr : r < n) :
    (if head + r * s - s < head then head + n * s - s else head + r * s - s) =
      head + ((r + (n - 1)) % n : ℕ) * s := by
  cases r with
  | zero =>
    rw [if_pos (by push_cast; linarith), Nat.zero_add, Nat.mod_eq_of_lt (by omega)]
    push_cast [Nat.cast_sub (show 1 ≤ n by omega)]
    ring
  | succ r =>
    have hmod : (r + 1 + (n - 1)) % n = r := by
      rw [show r + 1 + (n - 1) = r + n by omega, Nat.add_mod_right, Nat.mod_eq_of_lt (by omega)]
    rw [if_neg (by push_cast; nlinarith), hmod]
    push_cast
    ring

end Slots

section Layout

variable {q q' : Queue} {r : ℕ} {item : ℕ → UInt8} {xs : List (List UInt8)}

/-- The pointers of a queue: the last item read was number `r`, and the free place is
behind the items that wait. -/
structure Layout (q : Queue) (r : ℕ) : Prop where
  bound : r < q.uxLength
  tail : q.pcTail = q.pcHead + q.uxLength * q.uxItemSize
  readFrom : q.pcReadFrom = q.pcHead + r * q.uxItemSize
  writeTo : q.pcWriteTo =
    q.pcHead + ((r + 1 + q.uxMessagesWaiting) % q.uxLength : ℕ) * q.uxItemSize
  full : q.uxMessagesWaiting ≤ q.uxLength

/-- The items that wait, the next one first. -/
def Holds (q : Queue) (xs : List (List UInt8)) : Prop :=
  ∃ r, Layout q r ∧ contents q.uxLength (slot q) r q.uxMessagesWaiting = xs

/-- Nothing but the items and the pointers to them has changed. -/
structure Within (q q' : Queue) : Prop where
  head : q'.pcHead = q.pcHead
  length : q'.uxLength = q.uxLength
  size : q'.uxItemSize = q.uxItemSize
  mem : ∀ a, a < q.pcHead ∨ q.pcHead + q.uxLength * q.uxItemSize ≤ a → q'.mem a = q.mem a

theorem Within.refl (q : Queue) : Within q q := ⟨rfl, rfl, rfl, fun _ _ ↦ rfl⟩

theorem Within.trans {q'' : Queue} (h : Within q q') (h' : Within q' q'') : Within q q'' := by
  refine ⟨h'.head.trans h.head, h'.length.trans h.length, h'.size.trans h.size, fun a ha ↦ ?_⟩
  refine (h'.mem a ?_).trans (h.mem a ha)
  rwa [h.head, h.length, h.size]

theorem Holds.length_eq (h : Holds q xs) : q.uxMessagesWaiting = xs.length := by
  obtain ⟨r, -, rfl⟩ := h
  rw [length_contents]

/-- The slots of a queue into one of which an item is copied. -/
theorem slot_copyIn {k : ℕ} (hmem : q'.mem =
      copyIn q.mem (q.pcHead + k * q.uxItemSize) item q.uxItemSize)
    (hhead : q'.pcHead = q.pcHead) (hsize : q'.uxItemSize = q.uxItemSize) :
    slot q' k = (List.range q.uxItemSize).map item ∧ ∀ i, i ≠ k → slot q' i = slot q i := by
  refine ⟨?_, fun i hi ↦ ?_⟩
  · rw [slot, hmem, hhead, hsize]
    exact copyOut_copyIn_self
  · rw [slot, hmem, hhead, hsize]
    exact copyOut_copyIn_of_apart (apart_of_ne hi)

theorem within_copyIn {k : ℕ} (hk : k < q.uxLength) (hmem : q'.mem =
      copyIn q.mem (q.pcHead + k * q.uxItemSize) item q.uxItemSize)
    (hhead : q'.pcHead = q.pcHead) (hlength : q'.uxLength = q.uxLength)
    (hsize : q'.uxItemSize = q.uxItemSize) : Within q q' := by
  refine ⟨hhead, hlength, hsize, fun a ha ↦ ?_⟩
  rw [hmem]
  have hend : q.pcHead + k * q.uxItemSize + q.uxItemSize ≤
    q.pcHead + q.uxLength * q.uxItemSize := slot_within hk
  have hstart : q.pcHead ≤ q.pcHead + k * q.uxItemSize := by
    have := Int.natCast_nonneg (k * q.uxItemSize)
    push_cast at this
    linarith
  apply copyIn_of_outside
  rcases ha with ha | ha
  · exact .inl (by linarith)
  · exact .inr (by linarith)

theorem Layout.sendToBack (h : Layout q r) (item : ℕ → UInt8) (hs : 0 < q.uxItemSize)
    (hroom : q.uxMessagesWaiting < q.uxLength) :
    Layout (prvCopyDataToQueue q item .sendToBack) r ∧
      contents q.uxLength (slot (prvCopyDataToQueue q item .sendToBack)) r
          (q.uxMessagesWaiting + 1) =
        contents q.uxLength (slot q) r q.uxMessagesWaiting ++ [(List.range q.uxItemSize).map item] ∧
      Within q (prvCopyDataToQueue q item .sendToBack) := by
  have hw := Nat.mod_lt (r + 1 + q.uxMessagesWaiting) (Nat.zero_lt_of_lt hroom)
  have hq : prvCopyDataToQueue q item .sendToBack = { q with
      mem := copyIn q.mem q.pcWriteTo item q.uxItemSize
      pcWriteTo := if q.pcWriteTo + q.uxItemSize ≥ q.pcTail then q.pcHead
        else q.pcWriteTo + q.uxItemSize
      uxMessagesWaiting := q.uxMessagesWaiting + 1 } := by
    rw [prvCopyDataToQueue, if_neg hs.ne', if_pos rfl]
    dsimp only
    split <;> rfl
  have hmem : (prvCopyDataToQueue q item .sendToBack).mem = copyIn q.mem (q.pcHead +
      ((r + 1 + q.uxMessagesWaiting) % q.uxLength : ℕ) * q.uxItemSize) item q.uxItemSize := by
    rw [hq, ← h.writeTo]
  have hslot := slot_copyIn hmem (by rw [hq]) (by rw [hq])
  refine ⟨?_, ?_, ?_⟩
  · rw [hq]
    refine ⟨h.bound, h.tail, h.readFrom, ?_, hroom⟩
    change (if q.pcWriteTo + q.uxItemSize ≥ q.pcTail then _ else _) = _
    rw [h.tail, h.writeTo, advance_eq _ hs hw, Nat.mod_add_mod]
    rfl
  · exact contents_pushBack hroom hslot.1 fun i _ ↦ hslot.2 i
  · exact within_copyIn hw hmem (by rw [hq]) (by rw [hq]) (by rw [hq])

theorem prvCopyDataToQueue_front (q : Queue) (item : ℕ → UInt8) {position : Position}
    (hs : 0 < q.uxItemSize) (hposition : position ≠ .sendToBack) :
    prvCopyDataToQueue q item position = { q with
      mem := copyIn q.mem q.pcReadFrom item q.uxItemSize
      pcReadFrom := if q.pcReadFrom - q.uxItemSize < q.pcHead then q.pcTail - q.uxItemSize
        else q.pcReadFrom - q.uxItemSize
      uxMessagesWaiting := (if position = .overwrite ∧ 0 < q.uxMessagesWaiting then
        q.uxMessagesWaiting - 1 else q.uxMessagesWaiting) + 1 } := by
  rw [prvCopyDataToQueue, if_neg hs.ne', if_neg hposition]
  dsimp only
  split <;> rfl

/-- The place an item is put in front of the others. -/
theorem Layout.copyToFront (h : Layout q r) (item : ℕ → UInt8) {position : Position} (hs : 0 < q.uxItemSize)
    (hposition : position ≠ .sendToBack) :
    (prvCopyDataToQueue q item position).pcReadFrom =
        q.pcHead + ((r + (q.uxLength - 1)) % q.uxLength : ℕ) * q.uxItemSize ∧
      slot (prvCopyDataToQueue q item position) r = (List.range q.uxItemSize).map item ∧
      (∀ i, i ≠ r → slot (prvCopyDataToQueue q item position) i = slot q i) ∧
      Within q (prvCopyDataToQueue q item position) := by
  have hq := prvCopyDataToQueue_front q item hs hposition
  have hmem : (prvCopyDataToQueue q item position).mem =
      copyIn q.mem (q.pcHead + r * q.uxItemSize) item q.uxItemSize := by
    rw [hq, ← h.readFrom]
  have hslot := slot_copyIn hmem (by rw [hq]) (by rw [hq])
  refine ⟨?_, hslot.1, hslot.2, ?_⟩
  · rw [hq]
    change (if q.pcReadFrom - q.uxItemSize < q.pcHead then _ else _) = _
    rw [h.tail, h.readFrom, retreat_eq _ hs h.bound]
  · exact within_copyIn h.bound hmem (by rw [hq]) (by rw [hq]) (by rw [hq])

theorem Layout.sendToFront (h : Layout q r) (hs : 0 < q.uxItemSize)
    (hroom : q.uxMessagesWaiting < q.uxLength) :
    Holds (prvCopyDataToQueue q item .sendToFront) ((List.range q.uxItemSize).map item ::
      contents q.uxLength (slot q) r q.uxMessagesWaiting) := by
  have hn := Nat.zero_lt_of_lt hroom
  obtain ⟨hread, hslot, hslots, hwithin⟩ := h.copyToFront item hs
    (show Position.sendToFront ≠ .sendToBack by decide)
  have hq := prvCopyDataToQueue_front q item hs (show Position.sendToFront ≠ .sendToBack by decide)
  have hwaiting : (prvCopyDataToQueue q item .sendToFront).uxMessagesWaiting =
      q.uxMessagesWaiting + 1 := by
    rw [hq]
    simp
  refine ⟨(r + (q.uxLength - 1)) % q.uxLength, ⟨?_, ?_, ?_, ?_, ?_⟩, ?_⟩
  · rw [hwithin.length]
    exact Nat.mod_lt _ hn
  · rw [hwithin.head, hwithin.length, hwithin.size, hq]
    exact h.tail
  · rw [hwithin.head, hwithin.size, hread]
  · have hmod : ((r + (q.uxLength - 1)) % q.uxLength + 1 + (q.uxMessagesWaiting + 1)) % q.uxLength =
        (r + 1 + q.uxMessagesWaiting) % q.uxLength := by
      rw [Nat.add_assoc, Nat.mod_add_mod]
      have hturn : r + (q.uxLength - 1) + (1 + (q.uxMessagesWaiting + 1)) =
        r + 1 + q.uxMessagesWaiting + q.uxLength := by omega
      rw [hturn, Nat.add_mod_right]
    rw [hwithin.head, hwithin.length, hwithin.size, hwaiting, hmod, hq]
    exact h.writeTo
  · rw [hwithin.length, hwaiting]
    exact hroom
  · rw [hwithin.length, hwaiting]
    exact contents_pushFront h.bound hroom hslot fun i _ ↦ hslots i

/-- In a queue of one place it takes the place of what was there. -/
theorem Layout.overwrite (h : Layout q r) (hs : 0 < q.uxItemSize) (hone : q.uxLength = 1) :
    Holds (prvCopyDataToQueue q item .overwrite) [(List.range q.uxItemSize).map item] := by
  obtain ⟨hread, hslot, hslots, hwithin⟩ := h.copyToFront item hs
    (show Position.overwrite ≠ .sendToBack by decide)
  have hq := prvCopyDataToQueue_front q item hs (show Position.overwrite ≠ .sendToBack by decide)
  obtain rfl : r = 0 := by
    have := h.bound
    omega
  have hwaiting : (prvCopyDataToQueue q item .overwrite).uxMessagesWaiting = 1 := by
    have hfull := h.full
    rw [hq]
    simp only [true_and]
    split <;> omega
  refine ⟨0, ⟨?_, ?_, ?_, ?_, ?_⟩, ?_⟩
  · rw [hwithin.length, hone]
    exact Nat.one_pos
  · rw [hwithin.head, hwithin.length, hwithin.size, hq]
    exact h.tail
  · rw [hwithin.head, hwithin.size, hread, hone, Nat.mod_one]
  · have hwrite := h.writeTo
    rw [hone, Nat.mod_one] at hwrite
    rw [hwithin.head, hwithin.length, hwithin.size, hone, Nat.mod_one, hq]
    exact hwrite
  · rw [hwithin.length, hwaiting, hone]
  · rw [hwithin.length, hwaiting, hone, contents_popFront, Nat.mod_one, hslot]
    rfl

/-- Reading moves to the next item and changes nothing else. -/
theorem Layout.copyFrom (h : Layout q r) :
    prvCopyDataFromQueue q = (slot q ((r + 1) % q.uxLength),
      { q with pcReadFrom := q.pcHead + ((r + 1) % q.uxLength : ℕ) * q.uxItemSize }) := by
  rw [prvCopyDataFromQueue]
  by_cases hs : q.uxItemSize = 0
  · have hread : q.pcReadFrom = q.pcHead + ((r + 1) % q.uxLength : ℕ) * q.uxItemSize := by
      rw [h.readFrom, hs]
      simp
    have hslot : slot q ((r + 1) % q.uxLength) = [] := by
      rw [slot, hs]
      rfl
    rw [if_neg (by simpa using hs), hslot, ← hread]
  · have hadvance := advance_eq q.pcHead (Nat.pos_of_ne_zero hs) h.bound
    rw [← h.tail, ← h.readFrom] at hadvance
    rw [if_pos hs, slot, ← hadvance]
    dsimp only
    split <;> rfl

theorem Layout.receive (h : Layout q r) {m : ℕ} (hm : q.uxMessagesWaiting = m + 1) :
    Layout { q with
      pcReadFrom := q.pcHead + ((r + 1) % q.uxLength : ℕ) * q.uxItemSize
      uxMessagesWaiting := m } ((r + 1) % q.uxLength) := by
  have hfull := h.full
  refine ⟨Nat.mod_lt _ (Nat.zero_lt_of_lt h.bound), h.tail, rfl, ?_, by dsimp only; omega⟩
  have hmod : ((r + 1) % q.uxLength + 1 + m) % q.uxLength =
      (r + 1 + q.uxMessagesWaiting) % q.uxLength := by
    rw [hm, Nat.add_assoc, Nat.mod_add_mod, Nat.add_comm 1 m]
  dsimp only
  rw [hmod]
  exact h.writeTo

end Layout

section Runs

/-- A use of a queue or semaphore that does not wait. -/
inductive Op
  | send (item : ℕ → UInt8) (position : Position)
  | receive
  | peek
  | give
  | take
  | reset

inductive Result
  | pass
  | fail
  | item (bytes : List UInt8)
  deriving DecidableEq

def Result.ofBool (b : Bool) : Result := if b then .pass else .fail

def Result.ofOption : Option (List UInt8) → Result
  | some bytes => .item bytes
  | none => .fail

def step (q : Queue) : Op → Result × Queue
  | .send item position => (xQueueGenericSendFromISR q item position).map .ofBool id
  | .receive => (xQueueReceiveFromISR q).map .ofOption id
  | .peek => (xQueuePeekFromISR q).map .ofOption id
  | .give => (xQueueGiveFromISR q).map .ofBool id
  | .take => (xQueueSemaphoreTake q).map .ofBool id
  | .reset => match xQueueGenericReset q with
    | some q' => (.pass, q')
    | none => (.fail, q)

def run (q : Queue) : List Op → List Result × Queue
  | [] => ([], q)
  | op :: ops =>
    let (r, q) := step q op
    let (rs, q) := run q ops
    (r :: rs, q)

/-- What the assertions of the functions ask of their callers; `xQueueOverwrite` is
for queues with items. -/
def Legal (n s : ℕ) : Op → Prop
  | .send _ .overwrite => n = 1 ∧ 0 < s
  | .give | .take => s = 0
  | _ => True

/-- A double-ended queue of at most `n` items of `s` bytes. -/
def specStep (n s : ℕ) (xs : List (List UInt8)) : Op → Result × List (List UInt8)
  | .send item position =>
    let x := (List.range s).map item
    match position with
    | .sendToBack => if xs.length < n then (.pass, xs ++ [x]) else (.fail, xs)
    | .sendToFront => if xs.length < n then (.pass, x :: xs) else (.fail, xs)
    | .overwrite => (.pass, [x])
  | .receive => match xs with
    | [] => (.fail, [])
    | x :: xs => (.item x, xs)
  | .peek => match xs with
    | [] => (.fail, [])
    | x :: xs => (.item x, x :: xs)
  | .give => if xs.length < n then (.pass, xs ++ [[]]) else (.fail, xs)
  | .take => match xs with
    | [] => (.fail, [])
    | _ :: xs => (.pass, xs)
  | .reset => (.pass, [])

def specRun (n s : ℕ) (xs : List (List UInt8)) : List Op → List Result × List (List UInt8)
  | [] => ([], xs)
  | op :: ops =>
    let (r, xs) := specStep n s xs op
    let (rs, xs) := specRun n s xs ops
    (r :: rs, xs)

variable {q : Queue} {xs : List (List UInt8)} {item : ℕ → UInt8}

/-- The items of a semaphore hold nothing, so that their order does not matter. -/
theorem Holds.of_size_zero (h : Holds q xs) (hs : q.uxItemSize = 0) :
    xs = List.replicate q.uxMessagesWaiting [] := by
  obtain ⟨r, -, rfl⟩ := h
  rw [List.eq_replicate_iff, length_contents]
  refine ⟨rfl, fun x hx ↦ ?_⟩
  obtain ⟨k, -, rfl⟩ := List.mem_map.mp hx
  rw [slot, hs]
  rfl

theorem Holds.give (h : Holds q xs) (hs : q.uxItemSize = 0)
    (hroom : q.uxMessagesWaiting < q.uxLength) :
    Holds { q with uxMessagesWaiting := q.uxMessagesWaiting + 1 } (xs ++ [[]]) := by
  have hxs := h.of_size_zero hs
  obtain ⟨r, hlayout, -⟩ := h
  have hnew : Layout { q with uxMessagesWaiting := q.uxMessagesWaiting + 1 } r := by
    refine ⟨hlayout.bound, hlayout.tail, hlayout.readFrom, ?_, hroom⟩
    have hwrite := hlayout.writeTo
    simp only [hs, Nat.cast_zero, mul_zero] at hwrite ⊢
    exact hwrite
  have hall := Holds.of_size_zero ⟨r, hnew, rfl⟩ hs
  refine ⟨r, hnew, hall.trans ?_⟩
  rw [hxs]
  exact List.replicate_succ' ..

theorem Holds.send (h : Holds q xs) (item : ℕ → UInt8) {position : Position}
    (hroom : q.uxMessagesWaiting < q.uxLength) (hposition : position ≠ .overwrite) :
    Holds (prvCopyDataToQueue q item position)
        (if position = .sendToBack then xs ++ [(List.range q.uxItemSize).map item]
          else (List.range q.uxItemSize).map item :: xs) ∧
      Within q (prvCopyDataToQueue q item position) := by
  rcases Nat.eq_zero_or_pos q.uxItemSize with hs | hs
  · -- Without bytes to copy, front and back are the same.
    have hall := h.of_size_zero hs
    have hq : prvCopyDataToQueue q item position =
        { q with uxMessagesWaiting := q.uxMessagesWaiting + 1 } := by
      rw [prvCopyDataToQueue, if_pos hs]
    have hitem : (List.range q.uxItemSize).map item = [] := by
      rw [hs]
      rfl
    rw [hq, hitem]
    refine ⟨?_, rfl, rfl, rfl, fun _ _ ↦ rfl⟩
    have hgive := h.give hs hroom
    split
    · exact hgive
    · rwa [hall, ← List.replicate_succ', List.replicate_succ, ← hall] at hgive
  · obtain ⟨r, hlayout, rfl⟩ := h
    cases position with
    | sendToBack =>
      obtain ⟨hnew, hcontents, hwithin⟩ := hlayout.sendToBack item hs hroom
      have hwaiting : (prvCopyDataToQueue q item .sendToBack).uxMessagesWaiting =
          q.uxMessagesWaiting + 1 := by
        rw [prvCopyDataToQueue, if_neg hs.ne', if_pos rfl]
      refine ⟨⟨r, hnew, ?_⟩, hwithin⟩
      rw [hwithin.length, hwaiting, hcontents, if_pos rfl]
    | sendToFront =>
      refine ⟨hlayout.sendToFront hs hroom, ?_⟩
      exact (hlayout.copyToFront item hs (by decide)).2.2.2
    | overwrite => exact absurd rfl hposition

/-- The next item of a queue that is not empty. -/
theorem Holds.copyFrom {x : List UInt8} (h : Holds q (x :: xs)) :
    ∃ p, prvCopyDataFromQueue q = (x, { q with pcReadFrom := p }) ∧
      Holds { q with pcReadFrom := p, uxMessagesWaiting := xs.length } xs := by
  have hm := h.length_eq
  obtain ⟨r, hlayout, hcontents⟩ := h
  rw [List.length_cons] at hm
  rw [hm, contents_popFront, List.cons.injEq] at hcontents
  obtain ⟨rfl, hrest⟩ := hcontents
  exact ⟨_, hlayout.copyFrom, _, hlayout.receive hm, hrest⟩

theorem Holds.reset (h : Holds q xs) (hmax : q.uxItemSize ≤ sizeMax / q.uxLength) :
    ∃ q', xQueueGenericReset q = some q' ∧ Holds q' [] ∧ Within q q' := by
  obtain ⟨r, hlayout, -⟩ := h
  have hn : 1 ≤ q.uxLength := Nat.zero_lt_of_lt hlayout.bound
  rw [xQueueGenericReset, if_pos ⟨hn, hmax⟩]
  refine ⟨_, rfl, ⟨q.uxLength - 1, ⟨?_, rfl, ?_, ?_, Nat.zero_le _⟩, rfl⟩, rfl, rfl, rfl,
    fun _ _ ↦ rfl⟩
  · exact Nat.sub_lt hn Nat.one_pos
  · push_cast [Nat.cast_sub hn]
    rfl
  · dsimp only
    rw [Nat.add_zero, Nat.sub_add_cancel hn, Nat.mod_self]
    simp

/-- One use of a queue does what it does to the items. -/
theorem Holds.step (h : Holds q xs) (hmax : q.uxItemSize ≤ sizeMax / q.uxLength) {op : Op}
    (hlegal : Legal q.uxLength q.uxItemSize op) :
    (step q op).1 = (specStep q.uxLength q.uxItemSize xs op).1 ∧
      Holds (step q op).2 (specStep q.uxLength q.uxItemSize xs op).2 ∧
      Within q (step q op).2 := by
  have hlength := h.length_eq
  cases op with
  | send item position =>
    rw [Queues.step, xQueueGenericSendFromISR]
    by_cases hposition : position = .overwrite
    · subst hposition
      obtain ⟨r, hlayout, -⟩ := h
      rw [if_pos (.inr rfl)]
      exact ⟨rfl, hlayout.overwrite hlegal.2 hlegal.1,
        (hlayout.copyToFront item hlegal.2 (by decide)).2.2.2⟩
    · by_cases hroom : q.uxMessagesWaiting < q.uxLength
      · have hsend := h.send item hroom hposition
        rw [if_pos (.inl hroom)]
        rw [hlength] at hroom
        cases position with
        | sendToBack =>
          rw [if_pos rfl] at hsend
          simp only [specStep, if_pos hroom]
          exact ⟨rfl, hsend⟩
        | sendToFront =>
          rw [if_neg (by decide)] at hsend
          simp only [specStep, if_pos hroom]
          exact ⟨rfl, hsend⟩
        | overwrite => exact absurd rfl hposition
      · rw [if_neg (by simp [hroom, hposition])]
        rw [hlength] at hroom
        cases position with
        | sendToBack =>
          simp only [specStep, if_neg hroom]
          exact ⟨rfl, h, Within.refl q⟩
        | sendToFront =>
          simp only [specStep, if_neg hroom]
          exact ⟨rfl, h, Within.refl q⟩
        | overwrite => exact absurd rfl hposition
  | receive =>
    rw [Queues.step, xQueueReceiveFromISR]
    cases xs with
    | nil =>
      rw [if_neg (by simp [hlength])]
      exact ⟨rfl, h, Within.refl q⟩
    | cons x xs =>
      obtain ⟨p, hcopy, hrest⟩ := h.copyFrom
      rw [if_pos (by simp [hlength]), hcopy]
      rw [List.length_cons] at hlength
      simp only [hlength, Nat.add_sub_cancel]
      exact ⟨rfl, hrest, rfl, rfl, rfl, fun _ _ ↦ rfl⟩
  | peek =>
    rw [Queues.step, xQueuePeekFromISR]
    cases xs with
    | nil =>
      rw [if_neg (by simp [hlength])]
      exact ⟨rfl, h, Within.refl q⟩
    | cons x xs =>
      obtain ⟨p, hcopy, -⟩ := h.copyFrom
      rw [if_pos (by simp [hlength]), hcopy]
      exact ⟨rfl, h, Within.refl q⟩
  | give =>
    rw [Queues.step, xQueueGiveFromISR, specStep, ← hlength]
    split
    · next hroom => exact ⟨rfl, h.give hlegal hroom, rfl, rfl, rfl, fun _ _ ↦ rfl⟩
    · exact ⟨rfl, h, Within.refl q⟩
  | take =>
    rw [Queues.step, xQueueSemaphoreTake]
    cases xs with
    | nil =>
      rw [if_neg (by simp [hlength])]
      exact ⟨rfl, h, Within.refl q⟩
    | cons x xs =>
      obtain ⟨p, hcopy, hrest⟩ := h.copyFrom
      rw [if_pos (by simp [hlength])]
      rw [List.length_cons] at hlength
      simp only [hlength, Nat.add_sub_cancel]
      -- A semaphore has no bytes to read, so its read position stays.
      have hs : q.uxItemSize = 0 := hlegal
      have hread : p = q.pcReadFrom := by
        rw [prvCopyDataFromQueue, if_neg (not_not.mpr hs), Prod.mk.injEq] at hcopy
        exact (congrArg Queue.pcReadFrom hcopy.2).symm
      subst hread
      exact ⟨rfl, hrest, rfl, rfl, rfl, fun _ _ ↦ rfl⟩
  | reset =>
    obtain ⟨q', hreset, hholds, hwithin⟩ := h.reset hmax
    rw [Queues.step, hreset, specStep]
    exact ⟨rfl, hholds, hwithin⟩

theorem Holds.run {ops : List Op} (h : Holds q xs) (hmax : q.uxItemSize ≤ sizeMax / q.uxLength)
    (hlegal : ∀ op ∈ ops, Legal q.uxLength q.uxItemSize op) :
    (run q ops).1 = (specRun q.uxLength q.uxItemSize xs ops).1 ∧
      Holds (run q ops).2 (specRun q.uxLength q.uxItemSize xs ops).2 ∧
      Within q (run q ops).2 := by
  induction ops generalizing q xs with
  | nil => exact ⟨rfl, h, Within.refl q⟩
  | cons op ops ih =>
    obtain ⟨hop, hops⟩ := List.forall_mem_cons.mp hlegal
    obtain ⟨hresult, hstep, hwithin⟩ := h.step hmax hop
    have hrest := ih hstep (by rwa [hwithin.length, hwithin.size])
      (by rwa [hwithin.length, hwithin.size])
    rw [hwithin.length, hwithin.size] at hrest
    obtain ⟨hresults, hholds, hrun⟩ := hrest
    exact ⟨congrArg₂ List.cons hresult hresults, hholds, hwithin.trans hrun⟩

theorem holds_new {n s : ℕ} {storage self : ℤ} {q₀ q : Queue}
    (hnew : prvInitialiseNewQueue n s storage self q₀ = some q) :
    q.uxLength = n ∧ q.uxItemSize = s ∧ q.mem = q₀.mem ∧ s ≤ sizeMax / n ∧ Holds q [] ∧
      (0 < s → q.pcHead = storage) := by
  simp only [prvInitialiseNewQueue, xQueueGenericReset] at hnew
  split at hnew
  · next hok =>
    have hn : 1 ≤ n := hok.1
    cases hnew
    refine ⟨rfl, rfl, ?_, hok.2, ⟨n - 1, ⟨?_, rfl, ?_, ?_, Nat.zero_le _⟩, rfl⟩, fun hs ↦ ?_⟩
    · dsimp only
      split <;> rfl
    · exact Nat.sub_lt hn Nat.one_pos
    · push_cast [Nat.cast_sub hn]
      rfl
    · dsimp only
      rw [Nat.add_zero, Nat.sub_add_cancel hn, Nat.mod_self]
      simp
    · dsimp only
      rw [if_neg hs.ne']
  · cases hnew

/-- However sends, receives, peeks, gives, takes and resets follow each other, a
new queue answers as a double-ended queue of bounded length does, and its
copies never leave its storage area. -/
theorem queue_answers_as_bounded_deque {n s : ℕ} {storage self : ℤ} {q₀ q : Queue}
    (hnew : prvInitialiseNewQueue n s storage self q₀ = some q) (ops : List Op)
    (hlegal : ∀ op ∈ ops, Legal n s op) :
    (run q ops).1 = (specRun n s [] ops).1 ∧
      Holds (run q ops).2 (specRun n s [] ops).2 ∧
      ∀ a, a < storage ∨ storage + n * s ≤ a → (run q ops).2.mem a = q₀.mem a := by
  obtain ⟨hlength, hsize, hmem, hmax, hholds, hhead⟩ := holds_new hnew
  rw [← hlength, ← hsize] at hlegal hmax
  have hrun := hholds.run hmax hlegal
  rw [hlength, hsize] at hrun
  refine ⟨hrun.1, hrun.2.1, fun a ha ↦ ?_⟩
  rw [← hmem]
  apply hrun.2.2.mem
  rw [hlength, hsize]
  rcases Nat.eq_zero_or_pos s with rfl | hs
  · rw [Nat.cast_zero, mul_zero, add_zero]
    exact lt_or_ge a q.pcHead
  · rwa [hhead hs]

/-- Two items of two bytes fill this queue; the third is turned away. -/
theorem queue_answers_two_items :
    (run ⟨fun _ ↦ 0, 100, 100, 104, 102, 0, 2, 2⟩
      [.send (fun j ↦ if j = 0 then 1 else 2) .sendToBack, .send (fun _ ↦ 3) .sendToFront,
        .send (fun _ ↦ 4) .sendToBack, .receive, .peek, .reset, .receive]).1 =
      [.pass, .pass, .fail, .item [3, 3], .item [1, 2], .pass, .fail] ∧
    (run ⟨fun _ ↦ 0, 100, 100, 104, 102, 0, 2, 2⟩
      [.send (fun j ↦ if j = 0 then 1 else 2) .sendToBack, .send (fun _ ↦ 3) .sendToFront,
        .send (fun _ ↦ 4) .sendToBack, .receive, .peek, .reset, .receive]).2.mem 104 = 0 := by
  have hnew : prvInitialiseNewQueue 2 2 100 60 ⟨fun _ ↦ 0, 0, 0, 0, 0, 0, 0, 0⟩ =
      some ⟨fun _ ↦ 0, 100, 100, 104, 102, 0, 2, 2⟩ := by
    simp [prvInitialiseNewQueue, xQueueGenericReset, sizeMax]
  have hrun := queue_answers_as_bounded_deque hnew
    [.send (fun j ↦ if j = 0 then 1 else 2) .sendToBack, .send (fun _ ↦ 3) .sendToFront,
      .send (fun _ ↦ 4) .sendToBack, .receive, .peek, .reset, .receive] (by simp [Legal])
  exact ⟨hrun.1.trans (by decide), hrun.2.2 104 (by decide)⟩

/-- The queue of received bytes as the terminal driver sees it. -/
theorem Holds.sendByte {bytes : List UInt8} {byte : UInt8}
    (h : Holds q (bytes.map fun b ↦ [b])) (hlength : q.uxLength = 16) (hsize : q.uxItemSize = 1) :
    Holds (xQueueGenericSendFromISR q (fun _ ↦ byte) .sendToBack).2
      ((Tty.Driver.xQueueSendFromISR bytes byte).map fun b ↦ [b]) := by
  have hlen := h.length_eq
  rw [List.length_map] at hlen
  rw [xQueueGenericSendFromISR, Tty.Driver.xQueueSendFromISR, hlength, hlen]
  by_cases hroom : bytes.length < 16
  · have hsend := h.send (fun _ ↦ byte) (by omega)
      (show Position.sendToBack ≠ .overwrite by decide)
    rw [if_pos rfl, hsize] at hsend
    rw [if_pos (.inl hroom), if_pos hroom, List.map_append]
    exact hsend.1
  · rw [if_neg (by simp [hroom]), if_neg hroom]
    exact h

end Runs

end Tanenbaum.Kernel.Queues
