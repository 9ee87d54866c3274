import Mathlib
import Tanenbaum.Lib.Runs

namespace Tanenbaum.Kernel.Heap

open Lib.Runs

def portByteAlignment : ℕ := 8

def xHeapStructSize : ℕ := 8

def heapMinimumBlockSize : ℕ := 2 * xHeapStructSize

def configTotalHeapSize : ℕ := 15360

def heapSizeMax : ℕ := 2 ^ 32 - 1

/-- The header of a block. The top bit of `xBlockSize`, which says that the block belongs to
the application, is a field of its own. -/
structure BlockLink where
  pxNextFreeBlock : Option ℕ
  xBlockSize : ℕ
  allocated : Bool

/-- What is in memory where a header can be, and the variables of the allocator. Of `xStart`
there is only the pointer. -/
structure State where
  link : ℕ → BlockLink
  xStart : Option ℕ
  pxEnd : Option ℕ
  xFreeBytesRemaining : ℕ
  xMinimumEverFreeBytesRemaining : ℕ

/-- What the pointer of a block points to, where `none` is `xStart`. -/
def State.next (s : State) : Option ℕ → Option ℕ
  | none => s.xStart
  | some p => (s.link p).pxNextFreeBlock

def State.setNext (s : State) (p q : Option ℕ) : State :=
  match p with
  | none => { s with xStart := q }
  | some p => { s with
      link := Function.update s.link p { s.link p with pxNextFreeBlock := q } }

/-- A size has the top bit clear. -/
def State.setSize (s : State) (p n : ℕ) : State :=
  { s with
    link := Function.update s.link p { s.link p with xBlockSize := n, allocated := false } }

/-- The loop of `prvInsertBlockIntoFreeList`, which never goes round as often as the heap has
bytes. -/
def insertLoop (s : State) (pxBlockToInsert : ℕ) : ℕ → Option ℕ → Option (Option ℕ)
  | 0, _ => none
  | fuel + 1, pxIterator => do
    let q ← s.next pxIterator
    if q < pxBlockToInsert then insertLoop s pxBlockToInsert fuel (some q) else some pxIterator

/-- The block before and the one to insert, if they make one block. The address of `xStart` is
not in the heap. -/
def joinPrevious (pxIterator : Option ℕ) (b : ℕ) (s : State) : ℕ × State :=
  match pxIterator with
  | none => (b, s)
  | some p => if p + (s.link p).xBlockSize = b then
      (p, s.setSize p ((s.link p).xBlockSize + (s.link b).xBlockSize))
    else (b, s)

/-- The one to insert and the block behind, if they make one block. -/
def joinNext (pxIterator : Option ℕ) (b : ℕ) (s : State) : State :=
  match s.next pxIterator with
  | none => s.setNext (some b) none
  | some q => if b + (s.link b).xBlockSize = q then
      if some q ≠ s.pxEnd then
        let s := s.setSize b ((s.link b).xBlockSize + (s.link q).xBlockSize)
        s.setNext (some b) (s.link q).pxNextFreeBlock
      else s.setNext (some b) s.pxEnd
    else s.setNext (some b) (some q)

def prvInsertBlockIntoFreeList (pxBlockToInsert : ℕ) (s : State) : Option State := do
  let pxIterator ← insertLoop s pxBlockToInsert configTotalHeapSize none
  let (b, s) := joinPrevious pxIterator pxBlockToInsert s
  let s := joinNext pxIterator b s
  return if pxIterator ≠ some b then s.setNext pxIterator (some b) else s

/-- The size of a block for so many bytes, and zero when there is no such size. -/
def wantedSize (n : ℕ) : ℕ :=
  if n = 0 then 0
  else
    let xAdditionalRequiredSize := xHeapStructSize + portByteAlignment - n % portByteAlignment
    if n > heapSizeMax - xAdditionalRequiredSize then 0 else n + xAdditionalRequiredSize

def alignedHeap (ucHeap : ℕ) : ℕ :=
  if ucHeap % portByteAlignment ≠ 0 then
    (ucHeap + (portByteAlignment - 1)) / portByteAlignment * portByteAlignment
  else ucHeap

def heapEnd (ucHeap : ℕ) : ℕ :=
  let xTotalHeapSize := configTotalHeapSize - (alignedHeap ucHeap - ucHeap)
  (alignedHeap ucHeap + xTotalHeapSize - xHeapStructSize) / portByteAlignment * portByteAlignment

def prvHeapInit (ucHeap : ℕ) (s : State) : State :=
  let pucAlignedHeap := alignedHeap ucHeap
  let pxEnd := heapEnd ucHeap
  let xBlockSize := pxEnd - pucAlignedHeap
  { link := Function.update (Function.update s.link pxEnd ⟨none, 0, false⟩) pucAlignedHeap
      ⟨some pxEnd, xBlockSize, false⟩
    xStart := some pucAlignedHeap
    pxEnd := some pxEnd
    xFreeBytesRemaining := xBlockSize
    xMinimumEverFreeBytesRemaining := xBlockSize }

/-- The loop of `pvPortMalloc` over the free blocks. -/
def searchLoop (s : State) (xWantedSize : ℕ) : ℕ → Option ℕ → ℕ → Option (Option ℕ × ℕ)
  | 0, _, _ => none
  | fuel + 1, pxPreviousBlock, pxBlock =>
    if (s.link pxBlock).xBlockSize < xWantedSize then
      match (s.link pxBlock).pxNextFreeBlock with
      | none => some (pxPreviousBlock, pxBlock)
      | some q => searchLoop s xWantedSize fuel (some pxBlock) q
    else some (pxPreviousBlock, pxBlock)

/-- A block larger than required is split into two; `none` when the assertion fails. -/
def split (xWantedSize pxBlock : ℕ) (s : State) : Option State :=
  if (s.link pxBlock).xBlockSize - xWantedSize > heapMinimumBlockSize then
    let pxNewBlockLink := pxBlock + xWantedSize
    if pxNewBlockLink % portByteAlignment ≠ 0 then none
    else
      let s := s.setSize pxNewBlockLink ((s.link pxBlock).xBlockSize - xWantedSize)
      prvInsertBlockIntoFreeList pxNewBlockLink (s.setSize pxBlock xWantedSize)
  else some s

/-- The block that was found is taken out of the list. -/
def allocate (xWantedSize : ℕ) (pxPreviousBlock : Option ℕ) (pxBlock : ℕ) (s : State) :
    Option (ℕ × State) := do
  let pvReturn := (← s.next pxPreviousBlock) + xHeapStructSize
  let s ← split xWantedSize pxBlock (s.setNext pxPreviousBlock (s.link pxBlock).pxNextFreeBlock)
  let xFreeBytesRemaining := s.xFreeBytesRemaining - (s.link pxBlock).xBlockSize
  if pvReturn % portByteAlignment ≠ 0 then none
  else some (pvReturn, { s with
    link := Function.update s.link pxBlock ⟨none, (s.link pxBlock).xBlockSize, true⟩
    xFreeBytesRemaining := xFreeBytesRemaining
    xMinimumEverFreeBytesRemaining := min xFreeBytesRemaining s.xMinimumEverFreeBytesRemaining })

/-- The answer `none` is `NULL`. -/
def pvPortMalloc (ucHeap n : ℕ) (s : State) : Option (Option ℕ × State) :=
  let s := if s.pxEnd = none then prvHeapInit ucHeap s else s
  let xWantedSize := wantedSize n
  if xWantedSize < 2 ^ 31 ∧ 0 < xWantedSize ∧ xWantedSize ≤ s.xFreeBytesRemaining then do
    let (pxPreviousBlock, pxBlock) ← searchLoop s xWantedSize configTotalHeapSize none (← s.xStart)
    if some pxBlock ≠ s.pxEnd then
      (allocate xWantedSize pxPreviousBlock pxBlock s).map fun (p, s) ↦ (some p, s)
    else some (none, s)
  else some (none, s)

/-- `none` when an assertion fails. -/
def vPortFree (pv : Option ℕ) (s : State) : Option State :=
  match pv with
  | none => some s
  | some p =>
    let pxLink := p - xHeapStructSize
    let l := s.link pxLink
    if l.allocated = false ∨ l.pxNextFreeBlock ≠ none then none
    else prvInsertBlockIntoFreeList pxLink { s with
      link := Function.update s.link pxLink { l with allocated := false }
      xFreeBytesRemaining := s.xFreeBytesRemaining + l.xBlockSize }

/-- The calls, and what the application writes where a header could be. -/
inductive Call
  | malloc (n : ℕ)
  | free (pv : Option ℕ)
  | write (a : ℕ) (l : BlockLink)

/-- The allocator, with the pointers the application has and the bytes it asked for. -/
structure Used where
  heap : State
  live : List (ℕ × ℕ)

def step (ucHeap : ℕ) (u : Used) : Call → Option Used
  | .malloc n => (pvPortMalloc ucHeap n u.heap).map fun (p, s) ↦
      ⟨s, (p.map fun p ↦ (p, n)).toList ++ u.live⟩
  | .free pv => (vPortFree pv u.heap).map fun s ↦ ⟨s, u.live.filter fun x ↦ some x.1 ≠ pv⟩
  | .write a l => some ⟨{ u.heap with link := Function.update u.heap.link a l }, u.live⟩

/-- The application frees only what it has, once, and writes only there. -/
def Legal (u : Used) : Call → Prop
  | .malloc _ => True
  | .free pv => ∀ p ∈ pv, ∃ n, (p, n) ∈ u.live
  | .write a _ => ∃ p n, (p, n) ∈ u.live ∧ p ≤ a ∧ a + xHeapStructSize ≤ p + n

/-- Before the first call, whatever is in memory. -/
def start (link : ℕ → BlockLink) : Used := ⟨⟨link, none, none, 0, 0⟩, []⟩

end Tanenbaum.Kernel.Heap
