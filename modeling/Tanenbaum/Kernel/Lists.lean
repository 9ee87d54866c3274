import Tanenbaum.Lib.Bytes
import Tanenbaum.Lib.Rings
import Mathlib.Data.List.TakeWhile

namespace Tanenbaum.Kernel.Lists

open Lib.Bytes Lib.Rings

/-- What a `ListItem_t *` points to: an item, or the `xListEnd` of a list. -/
inductive Node (ι Λ : Type)
  | item (i : ι)
  | listEnd (l : Λ)
  deriving DecidableEq

/-- The items and lists in memory, field by field. -/
structure Heap (ι Λ : Type) where
  value : Node ι Λ → Word
  next : Node ι Λ → Node ι Λ
  prev : Node ι Λ → Node ι Λ
  container : ι → Option Λ
  number : Λ → Word
  index : Λ → Node ι Λ

def portMaxDelay : Word := 0xffffffff#32

section Functions

variable {ι Λ : Type} [DecidableEq ι] [DecidableEq Λ]

def Heap.links (h : Heap ι Λ) : Links (Node ι Λ) := ⟨h.next, h.prev⟩

def Heap.setNext (h : Heap ι Λ) (x y : Node ι Λ) : Heap ι Λ :=
  { h with next := Function.update h.next x y }

def Heap.setPrev (h : Heap ι Λ) (x y : Node ι Λ) : Heap ι Λ :=
  { h with prev := Function.update h.prev x y }

def vListInitialise (l : Λ) (h : Heap ι Λ) : Heap ι Λ :=
  let h := { h with index := Function.update h.index l (.listEnd l) }
  let h := { h with value := Function.update h.value (.listEnd l) portMaxDelay }
  let h := h.setNext (.listEnd l) (.listEnd l)
  let h := h.setPrev (.listEnd l) (.listEnd l)
  { h with number := Function.update h.number l 0 }

def vListInitialiseItem (i : ι) (h : Heap ι Λ) : Heap ι Λ :=
  { h with container := Function.update h.container i none }

/-- The last statements of both insertions. -/
def Heap.enter (h : Heap ι Λ) (l : Λ) (i : ι) : Heap ι Λ :=
  { h with
    container := Function.update h.container i (some l)
    number := Function.update h.number l (h.number l + 1) }

def vListInsertEnd (l : Λ) (i : ι) (h : Heap ι Λ) : Heap ι Λ :=
  let pxIndex := h.index l
  let h := h.setNext (.item i) pxIndex
  let h := h.setPrev (.item i) (h.prev pxIndex)
  let h := h.setNext (h.prev pxIndex) (.item i)
  let h := h.setPrev pxIndex (.item i)
  h.enter l i

/-- The loop of `vListInsert`; `none` when it does not end within the fuel. -/
def searchLoop (h : Heap ι Λ) (v : Word) : ℕ → Node ι Λ → Option (Node ι Λ)
  | 0, _ => none
  | fuel + 1, pxIterator =>
    if h.value (h.next pxIterator) ≤ v then searchLoop h v fuel (h.next pxIterator)
    else some pxIterator

/-- The item behind which `vListInsert` puts a new one. -/
def insertionPoint (fuel : ℕ) (l : Λ) (xValueOfInsertion : Word) (h : Heap ι Λ) :
    Option (Node ι Λ) :=
  if xValueOfInsertion = portMaxDelay then some (h.prev (.listEnd l))
  else searchLoop h xValueOfInsertion fuel (.listEnd l)

def Heap.insertBehind (h : Heap ι Λ) (l : Λ) (i : ι) (pxIterator : Node ι Λ) : Heap ι Λ :=
  let h := h.setNext (.item i) (h.next pxIterator)
  let h := h.setPrev (h.next (.item i)) (.item i)
  let h := h.setPrev (.item i) pxIterator
  let h := h.setNext pxIterator (.item i)
  h.enter l i

def vListInsert (fuel : ℕ) (l : Λ) (i : ι) (h : Heap ι Λ) : Option (Heap ι Λ) :=
  (insertionPoint fuel l (h.value (.item i)) h).map (h.insertBehind l i)

/-- `none` when the item is on no list, where the code follows a null pointer. -/
def uxListRemove (i : ι) (h : Heap ι Λ) : Option (Word × Heap ι Λ) := do
  let l ← h.container i
  let h := h.setPrev (h.next (.item i)) (h.prev (.item i))
  let h := h.setNext (h.prev (.item i)) (h.next (.item i))
  let h := if h.index l = .item i then
      { h with index := Function.update h.index l (h.prev (.item i)) } else h
  let h := { h with
    container := Function.update h.container i none
    number := Function.update h.number l (h.number l - 1) }
  return (h.number l, h)

/-- `listGET_OWNER_OF_NEXT_ENTRY`; the marker of an empty list has no owner. -/
def listGetOwnerOfNextEntry (l : Λ) (h : Heap ι Λ) : Option (ι × Heap ι Λ) :=
  let h := { h with index := Function.update h.index l (h.next (h.index l)) }
  let h := if h.index l = .listEnd l then
      { h with index := Function.update h.index l (h.next (h.index l)) } else h
  match h.index l with
  | .item i => some (i, h)
  | .listEnd _ => none

def listSetListItemValue (i : ι) (v : Word) (h : Heap ι Λ) : Heap ι Λ :=
  { h with value := Function.update h.value (.item i) v }

/-- A use of the lists. -/
inductive Op (ι Λ : Type)
  | initialise (l : Λ)
  | initialiseItem (i : ι)
  | setValue (i : ι) (v : Word)
  | insertEnd (l : Λ) (i : ι)
  | insert (l : Λ) (i : ι)
  | remove (i : ι)
  | nextEntry (l : Λ)

/-- What it returns. -/
inductive Result (ι : Type)
  | done
  | left (n : Word)
  | owner (i : ι)
  deriving DecidableEq

def step (fuel : ℕ) (h : Heap ι Λ) : Op ι Λ → Option (Result ι × Heap ι Λ)
  | .initialise l => some (.done, vListInitialise l h)
  | .initialiseItem i => some (.done, vListInitialiseItem i h)
  | .setValue i v => some (.done, listSetListItemValue i v h)
  | .insertEnd l i => some (.done, vListInsertEnd l i h)
  | .insert l i => (vListInsert fuel l i h).map fun h ↦ (.done, h)
  | .remove i => (uxListRemove i h).map fun (n, h) ↦ (.left n, h)
  | .nextEntry l => (listGetOwnerOfNextEntry l h).map fun (i, h) ↦ (.owner i, h)

def run (fuel : ℕ) (h : Heap ι Λ) : List (Op ι Λ) → Option (List (Result ι) × Heap ι Λ)
  | [] => some ([], h)
  | op :: ops => do
    let (r, h) ← step fuel h op
    let (rs, h) ← run fuel h ops
    return (r :: rs, h)

end Functions

section Contents

/-- What the lists hold: the items of each list that has been initialised, the
item its index is at (none for the marker), and the value of each item. -/
structure Contents (ι Λ : Type) where
  items : Λ → Option (List ι)
  index : Λ → Option ι
  value : ι → Word

variable {ι Λ : Type}

/-- An item that is on no list. -/
def Contents.Free (c : Contents ι Λ) (i : ι) : Prop := ∀ l xs, c.items l = some xs → i ∉ xs

variable [DecidableEq Λ]

def Contents.put (c : Contents ι Λ) (l : Λ) (xs : List ι) (index : Option ι) : Contents ι Λ :=
  { c with
    items := Function.update c.items l (some xs)
    index := Function.update c.index l index }

variable [DecidableEq ι]

/-- In front of the index, or at the end when the index is at the marker. -/
def insertBefore (index : Option ι) (i : ι) (xs : List ι) : List ι :=
  xs.takeWhile (some · ≠ index) ++ i :: xs.dropWhile (some · ≠ index)

/-- Behind the items whose value is not greater. -/
def insertSorted (value : ι → Word) (i : ι) (xs : List ι) : List ι :=
  xs.takeWhile (value · ≤ value i) ++ i :: xs.dropWhile (value · ≤ value i)

/-- The item in front of another. -/
def before (i : ι) (xs : List ι) : Option ι := (xs.takeWhile (· ≠ i)).getLast?

/-- The item behind another; the first one behind the marker. -/
def behind (xs : List ι) : Option ι → Option ι
  | none => xs.head?
  | some i => (xs.dropWhile (· ≠ i)).tail.head?

/-- Where the index moves to: the next item, past the marker. -/
def following (index : Option ι) (xs : List ι) : Option ι := (behind xs index).or xs.head?

/-- What each use does to the lists and returns, with what its caller has to see to. -/
inductive Spec (c : Contents ι Λ) : Op ι Λ → Result ι → Contents ι Λ → Prop
  | initialise (l : Λ) : Spec c (.initialise l) .done (c.put l [] none)
  | initialiseItem {i : ι} (hi : c.Free i) : Spec c (.initialiseItem i) .done c
  | setValue (i : ι) (v : Word) :
      Spec c (.setValue i v) .done { c with value := Function.update c.value i v }
  | insertEnd {l : Λ} {i : ι} {xs : List ι} (hl : c.items l = some xs) (hi : c.Free i) :
      Spec c (.insertEnd l i) .done (c.put l (insertBefore (c.index l) i xs) (c.index l))
  | insert {l : Λ} {i : ι} {xs : List ι} (hl : c.items l = some xs) (hi : c.Free i) :
      Spec c (.insert l i) .done (c.put l (insertSorted c.value i xs) (c.index l))
  | remove {l : Λ} {i : ι} {xs : List ι} (hl : c.items l = some xs) (hi : i ∈ xs) :
      Spec c (.remove i) (.left (BitVec.ofNat 32 (xs.erase i).length))
        (c.put l (xs.erase i) (if c.index l = some i then before i xs else c.index l))
  | nextEntry {l : Λ} {i : ι} {xs : List ι} (hl : c.items l = some xs)
      (hi : following (c.index l) xs = some i) :
      Spec c (.nextEntry l) (.owner i) (c.put l xs (some i))

/-- The uses one after the other. -/
inductive Specs : Contents ι Λ → List (Op ι Λ) → List (Result ι) → Contents ι Λ → Prop
  | nil (c : Contents ι Λ) : Specs c [] [] c
  | cons {c c' c'' : Contents ι Λ} {op : Op ι Λ} {ops : List (Op ι Λ)} {r : Result ι}
      {rs : List (Result ι)} (hop : Spec c op r c') (hops : Specs c' ops rs c'') :
      Specs c (op :: ops) (r :: rs) c''

end Contents

section Represents

variable {ι Λ : Type}

/-- The marker of a list and its items, in order. -/
def nodes (l : Λ) (xs : List ι) : List (Node ι Λ) := .listEnd l :: xs.map .item

def place (l : Λ) : Option ι → Node ι Λ
  | none => .listEnd l
  | some i => .item i

/-- The memory holds these lists. -/
structure Represents (h : Heap ι Λ) (c : Contents ι Λ) : Prop where
  ring : ∀ l xs, c.items l = some xs → Ring h.links (.listEnd l) (xs.map .item)
  number : ∀ l xs, c.items l = some xs → h.number l = BitVec.ofNat 32 xs.length
  container : ∀ l xs, c.items l = some xs → ∀ i ∈ xs, h.container i = some l
  marker : ∀ l xs, c.items l = some xs → h.value (.listEnd l) = portMaxDelay
  index : ∀ l xs, c.items l = some xs → h.index l = place l (c.index l)
  index_mem : ∀ l xs, c.items l = some xs → ∀ i, c.index l = some i → i ∈ xs
  value : ∀ i, h.value (.item i) = c.value i

variable {h h' : Heap ι Λ} {c : Contents ι Λ} {l l' : Λ} {i : ι} {xs xs' : List ι}

theorem Represents.nodup (hr : Represents h c) (hl : c.items l = some xs) : xs.Nodup :=
  (List.nodup_cons.mp (hr.ring l xs hl).nodup).2.of_map

theorem Represents.disjoint (hr : Represents h c) (hl : c.items l = some xs)
    (hl' : c.items l' = some xs') (hne : l ≠ l') {x : Node ι Λ} (hx : x ∈ nodes l xs) :
    x ∉ nodes l' xs' := by
  intro hx'
  rcases List.mem_cons.mp hx with rfl | hx
  · rcases List.mem_cons.mp hx' with heq | hx'
    · exact hne (Node.listEnd.inj heq)
    · obtain ⟨j, -, heq⟩ := List.mem_map.mp hx'
      cases heq
  · obtain ⟨j, hj, rfl⟩ := List.mem_map.mp hx
    rcases List.mem_cons.mp hx' with heq | hx'
    · cases heq
    · obtain ⟨j', hj', heq⟩ := List.mem_map.mp hx'
      cases heq
      have hcontainer := (hr.container l xs hl j hj).symm.trans (hr.container l' xs' hl' j hj')
      exact hne (Option.some.inj hcontainer)

theorem Contents.Free.not_mem_nodes (hi : c.Free i) (hl : c.items l = some xs) :
    .item i ∉ nodes l xs := by
  intro hmem
  rcases List.mem_cons.mp hmem with heq | hmem
  · cases heq
  · obtain ⟨j, hj, heq⟩ := List.mem_map.mp hmem
    cases heq
    exact hi l xs hl hj

theorem place_front (l : Λ) (a : List ι) : ∃ u, nodes l a = u ++ [place l a.getLast?] := by
  rcases List.eq_nil_or_concat a with rfl | ⟨a', j, rfl⟩
  · exact ⟨[], rfl⟩
  · refine ⟨nodes l a', ?_⟩
    simp [nodes, place]

theorem place_rest (l : Λ) (b : List ι) :
    ∃ v, b.map Node.item ++ [.listEnd l] = place l b.head? :: v := by
  cases b with
  | nil => exact ⟨[], rfl⟩
  | cons j b => exact ⟨_, rfl⟩

/-- The marker and the item pointers around a place in a list. -/
theorem Represents.next_place (hr : Represents h c) {a b : List ι}
    (hl : c.items l = some (a ++ b)) : h.next (place l a.getLast?) = place l b.head? := by
  obtain ⟨u, hu⟩ := place_front l a
  obtain ⟨v, hv⟩ := place_rest l b
  have hring := hr.ring l _ hl
  rw [List.map_append] at hring
  exact hring.next_gap hu hv

theorem Represents.prev_place (hr : Represents h c) {a b : List ι}
    (hl : c.items l = some (a ++ b)) : h.prev (place l b.head?) = place l a.getLast? := by
  obtain ⟨u, hu⟩ := place_front l a
  obtain ⟨v, hv⟩ := place_rest l b
  have hring := hr.ring l _ hl
  rw [List.map_append] at hring
  exact hring.prev_gap hu hv

theorem place_mem_nodes {index : Option ι} (hindex : ∀ j, index = some j → j ∈ xs) :
    place l index ∈ nodes l xs := by
  cases index with
  | none => exact List.mem_cons_self ..
  | some j => exact List.mem_cons_of_mem _ (List.mem_map_of_mem (hindex j rfl))

theorem Contents.Free.place_ne (hi : c.Free i) {index : Option ι}
    (hl : c.items l = some xs) (hindex : ∀ j, index = some j → j ∈ xs) :
    place l index ≠ .item i :=
  fun heq ↦ hi.not_mem_nodes hl (heq ▸ place_mem_nodes hindex)

variable [DecidableEq Λ]

theorem Contents.put_items (c : Contents ι Λ) (l : Λ) (xs : List ι) (index : Option ι) :
    (c.put l xs index).items l = some xs := Function.update_self ..

theorem Contents.put_items_of_ne (hne : l' ≠ l) (index : Option ι) :
    (c.put l xs index).items l' = c.items l' := Function.update_of_ne hne ..

theorem Contents.Free.put (hi : c.Free i) (hxs : i ∉ xs) (index : Option ι) :
    (c.put l xs index).Free i := by
  intro l' xs' hl'
  by_cases hne : l' = l
  · subst hne
    rw [Contents.put_items] at hl'
    cases hl'
    exact hxs
  · rw [Contents.put_items_of_ne hne] at hl'
    exact hi l' xs' hl'

/-- A list with new items, while the others stay as they are. -/
theorem Represents.put (hr : Represents h c) {index : Option ι}
    (hring : Ring h'.links (.listEnd l) (xs.map .item))
    (hrings : ∀ l' xs', l' ≠ l → c.items l' = some xs' →
      Ring h'.links (.listEnd l') (xs'.map .item))
    (hnumber : h'.number l = BitVec.ofNat 32 xs.length)
    (hnumbers : ∀ l', l' ≠ l → h'.number l' = h.number l')
    (hcontainer : ∀ j ∈ xs, h'.container j = some l)
    (hcontainers : ∀ l' xs', l' ≠ l → c.items l' = some xs' → ∀ j ∈ xs',
      h'.container j = h.container j)
    (hmarker : h'.value (.listEnd l) = portMaxDelay)
    (hvalues : ∀ x, x ≠ .listEnd l → h'.value x = h.value x)
    (hindex : h'.index l = place l index) (hindices : ∀ l', l' ≠ l → h'.index l' = h.index l')
    (hmem : ∀ j, index = some j → j ∈ xs) : Represents h' (c.put l xs index) := by
  have hitems {l' : Λ} {xs' : List ι} (hl' : (c.put l xs index).items l' = some xs') :
      (l' = l ∧ xs' = xs) ∨ (l' ≠ l ∧ c.items l' = some xs') := by
    by_cases hne : l' = l
    · subst hne
      rw [Contents.put_items] at hl'
      exact .inl ⟨rfl, (Option.some.inj hl').symm⟩
    · rw [Contents.put_items_of_ne hne] at hl'
      exact .inr ⟨hne, hl'⟩
  have hself : (c.put l xs index).index l = index := Function.update_self ..
  have hother {l' : Λ} (hne : l' ≠ l) : (c.put l xs index).index l' = c.index l' :=
    Function.update_of_ne hne ..
  refine ⟨?_, ?_, ?_, ?_, ?_, ?_, ?_⟩ <;> intro l' <;> try intro xs' hl'
  · rcases hitems hl' with ⟨rfl, rfl⟩ | ⟨hne, hl'⟩
    · exact hring
    · exact hrings l' xs' hne hl'
  · rcases hitems hl' with ⟨rfl, rfl⟩ | ⟨hne, hl'⟩
    · exact hnumber
    · exact (hnumbers l' hne).trans (hr.number l' xs' hl')
  · rcases hitems hl' with ⟨rfl, rfl⟩ | ⟨hne, hl'⟩
    · exact hcontainer
    · intro j hj
      exact (hcontainers l' xs' hne hl' j hj).trans (hr.container l' xs' hl' j hj)
  · rcases hitems hl' with ⟨rfl, rfl⟩ | ⟨hne, hl'⟩
    · exact hmarker
    · exact (hvalues _ fun heq ↦ hne (Node.listEnd.inj heq)).trans (hr.marker l' xs' hl')
  · rcases hitems hl' with ⟨rfl, rfl⟩ | ⟨hne, hl'⟩
    · rw [hself]
      exact hindex
    · rw [hother hne]
      exact (hindices l' hne).trans (hr.index l' xs' hl')
  · rcases hitems hl' with ⟨rfl, rfl⟩ | ⟨hne, hl'⟩
    · rw [hself]
      exact hmem
    · rw [hother hne]
      exact hr.index_mem l' xs' hl'
  · exact (hvalues _ fun heq ↦ by cases heq).trans (hr.value l')

variable [DecidableEq ι]

/-- An item between two others of a list. -/
theorem Represents.enter (hr : Represents h c) {a b : List ι} (hl : c.items l = some (a ++ b))
    (hi : c.Free i)
    (hlinks : h'.links =
      (h.links.link (place l a.getLast?) (.item i)).link (.item i) (place l b.head?))
    (hvalue : h'.value = h.value) (hindex : h'.index = h.index)
    (hcontainer : h'.container = Function.update h.container i (some l))
    (hnumber : h'.number = Function.update h.number l (h.number l + 1)) :
    Represents h' (c.put l (a ++ i :: b) (c.index l)) := by
  obtain ⟨u, hu⟩ := place_front l a
  obtain ⟨v, hv⟩ := place_rest l b
  have hring := hr.ring l _ hl
  rw [List.map_append] at hring
  have hnew := hi.not_mem_nodes hl
  have hp : place l a.getLast? ∈ nodes l (a ++ b) := by
    apply place_mem_nodes
    intro j hj
    exact List.mem_append_left b (List.mem_of_getLast? hj)
  have hq : place l b.head? ∈ nodes l (a ++ b) := by
    apply place_mem_nodes
    intro j hj
    exact List.mem_append_right a (List.mem_of_mem_head? hj)
  apply hr.put
  · rw [hlinks, List.map_append, List.map_cons]
    refine hring.insert hu hv ?_
    rwa [← List.map_append]
  · intro l' xs' hne hl'
    rw [hlinks]
    have hout := hi.not_mem_nodes hl'
    refine ((hr.ring l' xs' hl').link_outside ?_ hout).link_outside hout ?_
    · exact hr.disjoint hl hl' hne.symm hp
    · exact hr.disjoint hl hl' hne.symm hq
  · have hlen : (a ++ i :: b).length = (a ++ b).length + 1 := by simp [Nat.add_assoc]
    rw [hnumber, Function.update_self, hr.number l _ hl, hlen, BitVec.ofNat_add]
    rfl
  · intro l' hne
    rw [hnumber, Function.update_of_ne hne]
  · intro j hj
    rw [hcontainer]
    by_cases heq : j = i
    · rw [heq, Function.update_self]
    · rw [Function.update_of_ne heq]
      refine hr.container l _ hl j ?_
      simpa [heq] using hj
  · intro l' xs' hne hl' j hj
    rw [hcontainer, Function.update_of_ne]
    rintro rfl
    exact hi l' xs' hl' hj
  · rw [hvalue]
    exact hr.marker l _ hl
  · intro x _
    rw [hvalue]
  · rw [hindex]
    exact hr.index l _ hl
  · intro l' _
    rw [hindex]
  · intro j hj
    have hmem := hr.index_mem l _ hl j hj
    simp only [List.mem_append, List.mem_cons] at hmem ⊢
    tauto

theorem Represents.initialise (hr : Represents h c) :
    Represents (vListInitialise l h) (c.put l [] none) := by
  have hlinks : (vListInitialise l h).links = h.links.link (.listEnd l) (.listEnd l) := rfl
  apply hr.put
  · exact Ring.empty (Function.update_self ..) (Function.update_self ..)
  · intro l' xs' hne hl'
    rw [hlinks]
    have hout : .listEnd l ∉ nodes l' xs' := by
      simpa [nodes] using hne.symm
    exact (hr.ring l' xs' hl').link_outside hout hout
  · exact Function.update_self ..
  · intro l' hne
    exact Function.update_of_ne hne ..
  · intro j hj
    cases hj
  · intro l' xs' _ _ j _
    rfl
  · exact Function.update_self ..
  · intro x hne
    exact Function.update_of_ne hne ..
  · exact Function.update_self ..
  · intro l' hne
    exact Function.update_of_ne hne ..
  · intro j hj
    cases hj

omit [DecidableEq Λ] in
theorem Represents.initialiseItem (hr : Represents h c) (hi : c.Free i) :
    Represents (vListInitialiseItem i h) c := by
  refine ⟨hr.ring, hr.number, ?_, hr.marker, hr.index, hr.index_mem, hr.value⟩
  intro l xs hl j hj
  have hne : j ≠ i := by
    rintro rfl
    exact hi l xs hl hj
  exact (Function.update_of_ne hne ..).trans (hr.container l xs hl j hj)

theorem Represents.setValue (hr : Represents h c) (i : ι) (v : Word) :
    Represents (listSetListItemValue i v h) { c with value := Function.update c.value i v } := by
  refine ⟨hr.ring, hr.number, hr.container, ?_, hr.index, hr.index_mem, ?_⟩
  · intro l xs hl
    change Function.update h.value (.item i) v (.listEnd l) = portMaxDelay
    rw [Function.update_of_ne (by simp)]
    exact hr.marker l xs hl
  · intro j
    change Function.update h.value (.item i) v (.item j) = Function.update c.value i v j
    by_cases heq : j = i
    · rw [heq, Function.update_self, Function.update_self]
    · rw [Function.update_of_ne heq, Function.update_of_ne fun h ↦ heq (Node.item.inj h)]
      exact hr.value j

omit [DecidableEq Λ] in
/-- The marker stands behind the last item, so the index is at the first item
that is not in front of it. -/
theorem head_dropWhile_index {index : Option ι} (hindex : ∀ j, index = some j → j ∈ xs) :
    (xs.dropWhile (some · ≠ index)).head? = index := by
  induction xs with
  | nil =>
    cases index with
    | none => rfl
    | some j => cases hindex j rfl
  | cons x xs ih =>
    by_cases hx : some x = index
    · simp [hx]
    · rw [List.dropWhile_cons_of_pos (by simpa using hx)]
      refine ih fun j hj ↦ ?_
      have hmem := hindex j hj
      simp only [List.mem_cons] at hmem
      rcases hmem with rfl | hmem
      · exact absurd hj.symm hx
      · exact hmem

theorem Represents.insertEnd (hr : Represents h c) (hl : c.items l = some xs) (hi : c.Free i) :
    Represents (vListInsertEnd l i h)
      (c.put l (insertBefore (c.index l) i xs) (c.index l)) := by
  have hsplit :=
    List.takeWhile_append_dropWhile (p := fun j ↦ decide (some j ≠ c.index l)) (l := xs)
  have hindex := hr.index_mem l xs hl
  have hhead := head_dropWhile_index hindex
  have hl' := hl
  rw [← hsplit] at hl'
  have hprev := hr.prev_place hl'
  rw [hhead] at hprev
  have hq := hi.place_ne hl hindex
  have hp : place l (xs.takeWhile fun j ↦ decide (some j ≠ c.index l)).getLast? ≠ .item i := by
    apply hi.place_ne hl'
    intro j hj
    exact List.mem_append_left _ (List.mem_of_getLast? hj)
  refine hr.enter hl' hi ?_ rfl rfl rfl rfl
  have hold : h.index l = place l (c.index l) := hr.index l xs hl
  simp only [vListInsertEnd, Heap.links, Heap.enter, Heap.setNext, Heap.setPrev, Links.link, hold,
    Function.update_of_ne hq, hprev, hhead, Links.mk.injEq, and_true]
  exact Function.update_comm hp.symm ..

omit [DecidableEq Λ] [DecidableEq ι] in
/-- The loop stops behind the last item whose value is not greater. -/
theorem Represents.searchLoop (hr : Represents h c) {v : Word} (hv : v ≠ portMaxDelay)
    {a b : List ι} (hl : c.items l = some (a ++ b)) {fuel : ℕ} (hfuel : b.length < fuel) :
    searchLoop h v fuel (place l a.getLast?) =
      some (place l (a ++ b.takeWhile (c.value · ≤ v)).getLast?) := by
  induction b generalizing a fuel with
  | nil =>
    obtain ⟨fuel, rfl⟩ := Nat.exists_eq_succ_of_ne_zero (Nat.ne_zero_of_lt hfuel)
    have hend : ¬ h.value (h.next (place l a.getLast?)) ≤ v := by
      rw [hr.next_place hl]
      change ¬ h.value (.listEnd l) ≤ v
      rw [hr.marker l _ hl]
      intro hle
      refine hv (BitVec.eq_of_toNat_eq ?_)
      have hmax : v.toNat ≤ portMaxDelay.toNat := Nat.le_of_lt_succ v.isLt
      exact Nat.le_antisymm hmax hle
    rw [Lists.searchLoop, if_neg hend, List.takeWhile_nil, List.append_nil]
  | cons j b ih =>
    obtain ⟨fuel, rfl⟩ := Nat.exists_eq_succ_of_ne_zero (Nat.ne_zero_of_lt hfuel)
    have hnext : h.next (place l a.getLast?) = .item j := hr.next_place hl
    rw [Lists.searchLoop, hnext, hr.value j]
    by_cases hle : c.value j ≤ v
    · rw [List.append_cons] at hl
      have hstep := ih hl (Nat.lt_of_succ_lt_succ hfuel)
      rw [List.getLast?_concat] at hstep
      rw [if_pos hle, List.takeWhile_cons_of_pos (by simpa using hle), List.append_cons]
      exact hstep
    · rw [if_neg hle, List.takeWhile_cons_of_neg (by simpa using hle), List.append_nil]

theorem Represents.insert (hr : Represents h c) (hl : c.items l = some xs) (hi : c.Free i) :
    ∃ h', (∀ fuel > xs.length, vListInsert fuel l i h = some h') ∧
      Represents h' (c.put l (insertSorted c.value i xs) (c.index l)) := by
  have hsplit := List.takeWhile_append_dropWhile
    (p := fun j ↦ decide (c.value j ≤ c.value i)) (l := xs)
  have hl' := hl
  rw [← hsplit] at hl'
  have hiterator (fuel : ℕ) (hfuel : xs.length < fuel) : insertionPoint fuel l (c.value i) h =
      some (place l (xs.takeWhile (c.value · ≤ c.value i)).getLast?) := by
    rw [insertionPoint]
    split
    · next hmax =>
      have hall : xs.takeWhile (fun j ↦ decide (c.value j ≤ c.value i)) = xs := by
        rw [List.takeWhile_eq_self_iff]
        intro j _
        rw [hmax]
        exact decide_eq_true (Nat.le_of_lt_succ (c.value j).isLt)
      rw [hall]
      exact congrArg some (hr.prev_place (b := []) (by rw [List.append_nil]; exact hl))
    · next hmax => exact hr.searchLoop (a := []) hmax hl hfuel
  have hnext := hr.next_place hl'
  have hp : place l (xs.takeWhile fun j ↦ decide (c.value j ≤ c.value i)).getLast? ≠ .item i := by
    apply hi.place_ne hl'
    intro j hj
    exact List.mem_append_left _ (List.mem_of_getLast? hj)
  have hq : place l (xs.dropWhile fun j ↦ decide (c.value j ≤ c.value i)).head? ≠ .item i := by
    apply hi.place_ne hl'
    intro j hj
    exact List.mem_append_right _ (List.mem_of_mem_head? hj)
  refine ⟨h.insertBehind l i (place l (xs.takeWhile (c.value · ≤ c.value i)).getLast?),
    fun fuel hfuel ↦ ?_, hr.enter hl' hi ?_ rfl rfl rfl rfl⟩
  · rw [vListInsert, hr.value i, hiterator fuel hfuel, Option.map_some]
  simp only [Heap.insertBehind, Heap.links, Heap.enter, Heap.setNext, Heap.setPrev, Links.link,
    Function.update_self, hnext, Links.mk.injEq]
  exact ⟨Function.update_comm hp.symm .., Function.update_comm hq ..⟩

omit [DecidableEq ι] [DecidableEq Λ] in
theorem place_inj {index : Option ι} : place l index = .item i ↔ index = some i := by
  cases index <;> simp [place]

omit [DecidableEq Λ] in
theorem takeWhile_ne_append {a b : List ι} (ha : i ∉ a) :
    (a ++ i :: b).takeWhile (· ≠ i) = a := by
  rw [List.takeWhile_append_of_pos]
  · simp
  · intro j hj
    exact decide_eq_true fun heq ↦ ha (heq ▸ hj)

theorem Represents.remove (hr : Represents h c) (hl : c.items l = some xs) (hi : i ∈ xs) :
    ∃ h', uxListRemove i h = some (BitVec.ofNat 32 (xs.erase i).length, h') ∧
      Represents h'
        (c.put l (xs.erase i) (if c.index l = some i then before i xs else c.index l)) := by
  obtain ⟨a, b, rfl, ha⟩ := List.eq_append_cons_of_mem hi
  obtain ⟨u, hu⟩ := place_front l a
  obtain ⟨v, hv⟩ := place_rest l b
  have hnodup := hr.nodup hl
  have herase : (a ++ i :: b).erase i = a ++ b := by
    rw [List.erase_append_right _ ha, List.erase_cons_head]
  have hb : i ∉ b := (List.nodup_cons.mp (List.nodup_append.mp hnodup).2.1).1
  have hring := hr.ring l _ hl
  rw [List.map_append, List.map_cons] at hring
  have hcontainer := hr.container l _ hl i hi
  have hprev : h.prev (.item i) = place l a.getLast? := hr.prev_place hl
  have hnext : h.next (.item i) = place l b.head? := by
    have hgap := hr.next_place (a := a ++ [i]) (b := b) (l := l) (by rw [hl]; simp)
    rwa [List.getLast?_concat] at hgap
  have hp : place l a.getLast? ∈ nodes l (a ++ i :: b) := by
    apply place_mem_nodes
    intro j hj
    exact List.mem_append_left _ (List.mem_of_getLast? hj)
  have hq : place l b.head? ∈ nodes l (a ++ i :: b) := by
    apply place_mem_nodes
    intro j hj
    exact List.mem_append_right _ (List.mem_cons_of_mem i (List.mem_of_mem_head? hj))
  have hqi : Node.item i ≠ place l b.head? := by
    intro heq
    exact hb (List.mem_of_mem_head? (place_inj.mp heq.symm))
  have hnumber : h.number l - 1 = BitVec.ofNat 32 (a ++ b).length := by
    have hlen : (a ++ i :: b).length = (a ++ b).length + 1 := by simp [Nat.add_assoc]
    rw [hr.number l _ hl, hlen, BitVec.ofNat_add]
    exact BitVec.add_sub_cancel _ _
  have hindex : h.index l = place l (c.index l) := hr.index l _ hl
  have hstep : uxListRemove i h = some (h.number l - 1,
      { h with
        next := Function.update h.next (place l a.getLast?) (place l b.head?)
        prev := Function.update h.prev (place l b.head?) (place l a.getLast?)
        index := if c.index l = some i then Function.update h.index l (place l a.getLast?)
          else h.index
        container := Function.update h.container i none
        number := Function.update h.number l (h.number l - 1) }) := by
    simp only [uxListRemove, hcontainer, Option.bind_eq_bind, Option.bind_some, Heap.setPrev,
      Heap.setNext, hnext, hprev, Function.update_of_ne hqi, hindex, place_inj]
    split
    · simp only [Function.update_self]
      rfl
    · simp only [Function.update_self]
      rfl
  rw [herase, ← hnumber]
  refine ⟨_, hstep, ?_⟩
  apply hr.put
  · rw [List.map_append]
    exact hring.remove hu hv
  · intro l' xs' hne hl'
    refine (hr.ring l' xs' hl').link_outside ?_ ?_
    · exact hr.disjoint hl hl' hne.symm hp
    · exact hr.disjoint hl hl' hne.symm hq
  · exact (Function.update_self ..).trans hnumber
  · intro l' hne
    exact Function.update_of_ne hne ..
  · intro j hj
    have hne : j ≠ i := by
      rintro rfl
      exact (List.mem_append.mp hj).elim ha hb
    refine (Function.update_of_ne hne ..).trans (hr.container l _ hl j ?_)
    simpa [hne] using hj
  · intro l' xs' hne hl' j hj
    refine Function.update_of_ne ?_ ..
    rintro rfl
    have hother := hr.container l' xs' hl' j hj
    exact hne (Option.some.inj (hother.symm.trans hcontainer))
  · exact hr.marker l _ hl
  · intro x _
    rfl
  · change (if c.index l = some i then _ else h.index) l = _
    by_cases heq : c.index l = some i
    · rw [if_pos heq, if_pos heq, Function.update_self, before, takeWhile_ne_append ha]
    · rw [if_neg heq, if_neg heq, hindex]
  · intro l' hne
    change (if c.index l = some i then _ else h.index) l' = _
    split
    · exact Function.update_of_ne hne ..
    · rfl
  · intro j hj
    by_cases heq : c.index l = some i
    · rw [if_pos heq, before, takeWhile_ne_append ha] at hj
      exact List.mem_append_left _ (List.mem_of_getLast? hj)
    · rw [if_neg heq] at hj
      have hne : j ≠ i := fun h ↦ heq (h ▸ hj)
      have hmem := hr.index_mem l _ hl j hj
      simpa [hne] using hmem

omit [DecidableEq Λ] in
theorem dropWhile_ne_append {a b : List ι} (ha : i ∉ a) :
    (a ++ i :: b).dropWhile (· ≠ i) = i :: b := by
  rw [List.dropWhile_append_of_pos]
  · simp
  · intro j hj
    exact decide_eq_true fun heq ↦ ha (heq ▸ hj)

omit [DecidableEq Λ] in
theorem Represents.next_behind (hr : Represents h c) (hl : c.items l = some xs)
    {index : Option ι} (hindex : ∀ j, index = some j → j ∈ xs) :
    h.next (place l index) = place l (behind xs index) := by
  cases index with
  | none => exact hr.next_place (a := []) hl
  | some i =>
    obtain ⟨a, b, rfl, ha⟩ := List.eq_append_cons_of_mem (hindex i rfl)
    have hgap := hr.next_place (a := a ++ [i]) (b := b) (l := l) (by rw [hl]; simp)
    rw [List.getLast?_concat] at hgap
    rw [behind, dropWhile_ne_append ha]
    exact hgap

omit [DecidableEq Λ] in
theorem mem_of_following {index : Option ι} (hi : following index xs = some i) : i ∈ xs := by
  rw [following, Option.or_eq_some_iff] at hi
  rcases hi with hi | ⟨-, hi⟩
  · cases index with
    | none => exact List.mem_of_mem_head? hi
    | some j =>
      have hmem := List.mem_of_mem_tail (List.mem_of_mem_head? hi)
      exact (List.dropWhile_sublist _).subset hmem
  · exact List.mem_of_mem_head? hi

/-- The index moves to an item, at once or past the marker. -/
theorem Represents.nextEntry (hr : Represents h c) (hl : c.items l = some xs)
    (hi : following (c.index l) xs = some i) :
    ∃ h', listGetOwnerOfNextEntry l h = some (i, h') ∧ Represents h' (c.put l xs (some i)) := by
  have hstep : listGetOwnerOfNextEntry l h =
      some (i, { h with index := Function.update h.index l (.item i) }) := by
    have hnext := hr.next_behind hl (hr.index_mem l xs hl)
    rw [following] at hi
    simp only [listGetOwnerOfNextEntry, hr.index l xs hl, Function.update_self, hnext]
    cases hbehind : behind xs (c.index l) with
    | none =>
      rw [hbehind, Option.none_or] at hi
      have hfirst : h.next (.listEnd l) = .item i := by
        have hgap := hr.next_place (a := []) hl
        rw [hi] at hgap
        exact hgap
      simp [place, hfirst]
    | some j =>
      rw [hbehind, Option.some_or] at hi
      simp [place, Option.some.inj hi]
  refine ⟨_, hstep, ?_⟩
  apply hr.put
  · exact hr.ring l xs hl
  · exact fun l' xs' _ ↦ hr.ring l' xs'
  · exact hr.number l xs hl
  · exact fun l' _ ↦ rfl
  · exact hr.container l xs hl
  · exact fun l' xs' _ _ j _ ↦ rfl
  · exact hr.marker l xs hl
  · exact fun x _ ↦ rfl
  · exact Function.update_self ..
  · exact fun l' hne ↦ Function.update_of_ne hne ..
  · intro j hj
    cases hj
    exact mem_of_following hi

end Represents

section Runs

variable {ι Λ : Type} [DecidableEq ι] [DecidableEq Λ] {h : Heap ι Λ} {c c' : Contents ι Λ}

/-- One use, given fuel for the longest search. -/
theorem Represents.step {op : Op ι Λ} {r : Result ι} (hr : Represents h c)
    (hop : Spec c op r c') :
    ∃ n h', (∀ fuel ≥ n, step fuel h op = some (r, h')) ∧ Represents h' c' := by
  cases hop with
  | initialise l => exact ⟨0, _, fun _ _ ↦ rfl, hr.initialise⟩
  | initialiseItem hi => exact ⟨0, _, fun _ _ ↦ rfl, hr.initialiseItem hi⟩
  | setValue i v => exact ⟨0, _, fun _ _ ↦ rfl, hr.setValue i v⟩
  | insertEnd hl hi => exact ⟨0, _, fun _ _ ↦ rfl, hr.insertEnd hl hi⟩
  | @insert l i xs hl hi =>
    obtain ⟨h', hstep, hr'⟩ := hr.insert hl hi
    refine ⟨xs.length + 1, h', fun fuel hfuel ↦ ?_, hr'⟩
    rw [Lists.step, hstep fuel hfuel, Option.map_some]
  | remove hl hi =>
    obtain ⟨h', hstep, hr'⟩ := hr.remove hl hi
    refine ⟨0, h', fun fuel _ ↦ ?_, hr'⟩
    rw [Lists.step, hstep, Option.map_some]
  | nextEntry hl hi =>
    obtain ⟨h', hstep, hr'⟩ := hr.nextEntry hl hi
    refine ⟨0, h', fun fuel _ ↦ ?_, hr'⟩
    rw [Lists.step, hstep, Option.map_some]

theorem Represents.run {ops : List (Op ι Λ)} {rs : List (Result ι)} (hr : Represents h c)
    (hops : Specs c ops rs c') :
    ∃ n h', (∀ fuel ≥ n, run fuel h ops = some (rs, h')) ∧ Represents h' c' := by
  induction hops generalizing h with
  | nil c => exact ⟨0, h, fun _ _ ↦ rfl, hr⟩
  | cons hop hops ih =>
    obtain ⟨n, h₁, hstep, hr₁⟩ := hr.step hop
    obtain ⟨m, h₂, hrun, hr₂⟩ := ih hr₁
    refine ⟨max n m, h₂, fun fuel hfuel ↦ ?_, hr₂⟩
    have hn : n ≤ fuel := (le_max_left n m).trans hfuel
    have hm : m ≤ fuel := (le_max_right n m).trans hfuel
    simp only [Lists.run, hstep fuel hn, hrun fuel hm, Option.bind_eq_bind, Option.bind_some]
    rfl

omit [DecidableEq ι] [DecidableEq Λ] in
theorem searchLoop_mono {v : Word} {x y : Node ι Λ} {fuel fuel' : ℕ} (hle : fuel ≤ fuel')
    (hloop : searchLoop h v fuel x = some y) : searchLoop h v fuel' x = some y := by
  induction fuel generalizing fuel' x with
  | zero => cases hloop
  | succ fuel ih =>
    obtain ⟨fuel', rfl⟩ := Nat.exists_eq_add_of_le' (Nat.zero_lt_of_lt hle)
    rw [searchLoop] at hloop ⊢
    split
    · next hv =>
      rw [if_pos hv] at hloop
      exact ih (Nat.le_of_succ_le_succ hle) hloop
    · next hv => rwa [if_neg hv] at hloop

/-- More fuel changes no result. -/
theorem step_mono {op : Op ι Λ} {out : Result ι × Heap ι Λ} {fuel fuel' : ℕ}
    (hle : fuel ≤ fuel') (hstep : step fuel h op = some out) : step fuel' h op = some out := by
  cases op with
  | insert l i =>
    rw [step, vListInsert, Option.map_map, Option.map_eq_some_iff] at hstep ⊢
    obtain ⟨x, hx, hout⟩ := hstep
    refine ⟨x, ?_, hout⟩
    rw [insertionPoint] at hx ⊢
    split
    · next hv => rwa [if_pos hv] at hx
    · next hv =>
      rw [if_neg hv] at hx
      exact searchLoop_mono hle hx
  | _ => exact hstep

theorem run_mono {ops : List (Op ι Λ)} {out : List (Result ι) × Heap ι Λ} {fuel fuel' : ℕ}
    (hle : fuel ≤ fuel') (hrun : run fuel h ops = some out) : run fuel' h ops = some out := by
  induction ops generalizing h out with
  | nil => exact hrun
  | cons op ops ih =>
    simp only [run, Option.bind_eq_bind, Option.bind_eq_some_iff] at hrun ⊢
    obtain ⟨first, hstep, rest, hrest, hout⟩ := hrun
    exact ⟨first, step_mono hle hstep, rest, ih hrest, hout⟩

theorem Specs.append_inv {ops ops' : List (Op ι Λ)} {rs : List (Result ι)}
    (hops : Specs c (ops ++ ops') rs c') :
    ∃ rs₁ rs₂ c₁, rs = rs₁ ++ rs₂ ∧ Specs c ops rs₁ c₁ ∧ Specs c₁ ops' rs₂ c' := by
  induction ops generalizing c rs with
  | nil => exact ⟨[], rs, c, rfl, .nil c, hops⟩
  | cons op ops ih =>
    cases hops with
    | cons hop hops =>
      obtain ⟨rs₁, rs₂, c₁, rfl, hfront, hrest⟩ := ih hops
      exact ⟨_, rs₂, c₁, rfl, .cons hop hfront, hrest⟩

/-- A run that ends returns what the lists say. -/
theorem results_eq {ops : List (Op ι Λ)} {rs rs' : List (Result ι)} {h' : Heap ι Λ}
    {fuel : ℕ} (hr : Represents h c) (hops : Specs c ops rs c')
    (hrun : run fuel h ops = some (rs', h')) : rs' = rs := by
  obtain ⟨n, h'', hall, -⟩ := hr.run hops
  have hmax := run_mono (le_max_left fuel n) hrun
  rw [hall _ (le_max_right fuel n), Option.some.injEq] at hmax
  exact (congrArg Prod.fst hmax).symm

/-- Memory in which no list has been initialised. -/
def Contents.blank (h : Heap ι Λ) : Contents ι Λ :=
  ⟨fun _ ↦ none, fun _ ↦ none, fun i ↦ h.value (.item i)⟩

omit [DecidableEq ι] [DecidableEq Λ] in
theorem Represents.blank (h : Heap ι Λ) : Represents h (.blank h) := by
  refine ⟨?_, ?_, ?_, ?_, ?_, ?_, fun i ↦ rfl⟩ <;>
  · intro l xs hl
    cases hl

omit [DecidableEq ι] [DecidableEq Λ] in
theorem Contents.free_blank (h : Heap ι Λ) (i : ι) : (Contents.blank h).Free i := by
  intro l xs hl
  cases hl

/-- Whether an item is off its list after a use, given whether it was before. -/
def detaches (i : ι) (d : Bool) : Op ι Λ → Bool
  | .initialiseItem j | .remove j => decide (j = i) || d
  | .insertEnd _ j | .insert _ j => !decide (j = i) && d
  | _ => d

/-- An item that has been initialised or removed and not inserted since. -/
def detached (i : ι) (ops : List (Op ι Λ)) : Bool := ops.foldl (detaches i) false

theorem uxListRemove_container {i : ι} {n : Word} {h' : Heap ι Λ}
    (hremove : uxListRemove i h = some (n, h')) :
    h'.container = Function.update h.container i none := by
  simp only [uxListRemove, Option.bind_eq_bind, Option.bind_eq_some_iff] at hremove
  obtain ⟨l, -, hremove⟩ := hremove
  cases hremove
  refine congrArg (fun f : ι → Option Λ ↦ Function.update f i none) ?_
  split <;> rfl

theorem listGetOwnerOfNextEntry_container {l : Λ} {i : ι} {h' : Heap ι Λ}
    (hnext : listGetOwnerOfNextEntry l h = some (i, h')) : h'.container = h.container := by
  simp only [listGetOwnerOfNextEntry] at hnext
  split at hnext
  · cases hnext
    split <;> rfl
  · cases hnext

omit [DecidableEq Λ] in
theorem container_cleared {j i : ι} {d : Bool} {f : ι → Option Λ}
    (hd : d = true → f i = none) (hop : (decide (j = i) || d) = true) :
    Function.update f j none i = none := by
  by_cases hji : j = i
  · rw [hji, Function.update_self]
  · rw [Function.update_of_ne (Ne.symm hji)]
    exact hd (by simpa [hji] using hop)

omit [DecidableEq Λ] in
theorem container_entered {j i : ι} {l : Λ} {d : Bool} {f : ι → Option Λ}
    (hd : d = true → f i = none) (hop : (!decide (j = i) && d) = true) :
    Function.update f j (some l) i = none := by
  obtain ⟨hji, hd'⟩ : ¬ j = i ∧ d = true := by simpa using hop
  rw [Function.update_of_ne (Ne.symm hji)]
  exact hd hd'

theorem step_container {fuel : ℕ} {op : Op ι Λ} {r : Result ι} {h' : Heap ι Λ} {i : ι} {d : Bool}
    (hstep : step fuel h op = some (r, h')) (hd : d = true → h.container i = none)
    (hop : detaches i d op = true) : h'.container i = none := by
  cases op with
  | initialise l =>
    cases hstep
    exact hd hop
  | initialiseItem j =>
    cases hstep
    exact container_cleared hd hop
  | setValue j v =>
    cases hstep
    exact hd hop
  | insertEnd l j =>
    cases hstep
    exact container_entered hd hop
  | insert l j =>
    rw [step, vListInsert, Option.map_map, Option.map_eq_some_iff] at hstep
    obtain ⟨x, -, hx⟩ := hstep
    cases hx
    exact container_entered hd hop
  | remove j =>
    rw [step, Option.map_eq_some_iff] at hstep
    obtain ⟨⟨n, h₁⟩, hremove, heq⟩ := hstep
    cases heq
    rw [uxListRemove_container hremove]
    exact container_cleared hd hop
  | nextEntry l =>
    rw [step, Option.map_eq_some_iff] at hstep
    obtain ⟨⟨j, h₁⟩, hnext, heq⟩ := hstep
    cases heq
    rw [listGetOwnerOfNextEntry_container hnext]
    exact hd hop

theorem run_container {fuel : ℕ} {ops : List (Op ι Λ)} {rs : List (Result ι)} {h' : Heap ι Λ}
    {i : ι} {d : Bool} (hrun : run fuel h ops = some (rs, h'))
    (hd : d = true → h.container i = none) (hops : ops.foldl (detaches i) d = true) :
    h'.container i = none := by
  induction ops generalizing h d rs with
  | nil =>
    cases hrun
    exact hd hops
  | cons op ops ih =>
    simp only [run, Option.bind_eq_bind, Option.bind_eq_some_iff] at hrun
    obtain ⟨⟨r, h₁⟩, hstep, ⟨rs₁, h₂⟩, hrest, hout⟩ := hrun
    cases hout
    exact ih hrest (step_container hstep hd) hops

/-- Whatever the memory holds at first, every run of the list functions that
keeps to their contract ends, returns what the lists say, and leaves the
pointers, containers, counts and indices as the lists say. An item that was
initialised or removed last has no container. -/
theorem run_represents_lists (h : Heap ι Λ) {ops : List (Op ι Λ)} {rs : List (Result ι)}
    (hops : Specs (.blank h) ops rs c') :
    ∃ n h', (∀ fuel ≥ n, run fuel h ops = some (rs, h')) ∧ Represents h' c' ∧
      ∀ i, detached i ops = true → h'.container i = none := by
  obtain ⟨n, h', hrun, hr⟩ := (Represents.blank h).run hops
  exact ⟨n, h', hrun, hr, fun i hi ↦ run_container (hrun n le_rfl) (d := false) (by simp) hi⟩

/-- Memory full of pointers to one item. -/
def unset : Heap ℕ ℕ :=
  ⟨fun _ ↦ 7, fun _ ↦ .item 5, fun _ ↦ .item 5, fun _ ↦ some 3, fun _ ↦ 9, fun _ ↦ .item 5⟩

theorem run_represents_two_items : ∃ n h', (∀ fuel ≥ n, run fuel unset
      [.initialise 0, .insert 0 1, .setValue 2 4, .insert 0 2, .nextEntry 0, .remove 2] =
    some ([.done, .done, .done, .done, .owner 2, .left 1], h')) ∧
    h'.next (.listEnd 0) = .item 1 ∧ h'.prev (.listEnd 0) = .item 1 ∧ h'.number 0 = 1 ∧
    h'.container 2 = none := by
  have hops := Specs.cons (c := .blank unset) (.initialise 0) <|
    .cons (.insert (l := 0) (i := 1) (show _ = some [] from rfl) ?_) <| .cons (.setValue 2 4) <|
    .cons (.insert (l := 0) (i := 2) (show _ = some [1] from rfl) ?_) <|
    .cons (.nextEntry (l := 0) (i := 2) (show _ = some [2, 1] by decide) rfl) <|
    .cons (.remove (l := 0) (i := 2) (show _ = some [2, 1] from rfl) (by simp)) (.nil _)
  · obtain ⟨n, h', hrun, hr, hdetached⟩ := run_represents_lists _ hops
    exact ⟨n, h', hrun, hr.next_place (l := 0) (a := []) (b := [1]) (by decide),
      hr.prev_place (l := 0) (a := [1]) (b := []) (by decide), hr.number 0 [1] (by decide),
      hdetached 2 (by decide)⟩
  · exact (Contents.free_blank unset 1).put (by simp) none
  · exact ((Contents.free_blank unset 2).put List.not_mem_nil none).put (by decide) none

end Runs

end Tanenbaum.Kernel.Lists
