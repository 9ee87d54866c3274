import Mathlib

namespace Tanenbaum.Lib.Tiles

/-- A stretch of memory. -/
structure Block where
  addr : ℕ
  size : ℕ
  deriving DecidableEq

def Block.Before (b c : Block) : Prop := b.addr + b.size ≤ c.addr

/-- A block without its address, which follows from the tiles in front of it. -/
structure Tile where
  taken : Bool
  size : ℕ

def total (ts : List Tile) : ℕ := (ts.map Tile.size).sum

/-- The bytes of the tiles of one kind. -/
def amount (taken : Bool) : List Tile → ℕ
  | [] => 0
  | t :: ts => (if t.taken = taken then t.size else 0) + amount taken ts

/-- The blocks of the tiles of one kind, laid out from an address on. -/
def spans (taken : Bool) (a : ℕ) : List Tile → List Block
  | [] => []
  | t :: ts => if t.taken = taken then ⟨a, t.size⟩ :: spans taken (a + t.size) ts
    else spans taken (a + t.size) ts

/-- Two tiles that are next to each other are not both free. -/
def Apart (t u : Tile) : Prop := t.taken = true ∨ u.taken = true

section Spans

variable {k : Bool} {a : ℕ} {b c : Block} {t : Tile} {ts xs ys : List Tile}

@[simp]
theorem total_nil : total [] = 0 := rfl

@[simp]
theorem total_cons : total (t :: ts) = t.size + total ts := by
  simp [total]

@[simp]
theorem total_append : total (xs ++ ys) = total xs + total ys := by
  simp [total]

theorem amount_append (xs ys : List Tile) : amount k (xs ++ ys) = amount k xs + amount k ys := by
  induction xs with
  | nil => rw [List.nil_append, amount, Nat.zero_add]
  | cons t xs ih => rw [List.cons_append, amount, amount, ih, Nat.add_assoc]

@[simp]
theorem spans_nil : spans k a [] = [] := rfl

theorem spans_same (h : t.taken = k) :
    spans k a (t :: ts) = ⟨a, t.size⟩ :: spans k (a + t.size) ts := if_pos h

theorem spans_other (h : t.taken ≠ k) : spans k a (t :: ts) = spans k (a + t.size) ts := if_neg h

@[simp]
theorem spans_mk_same (n : ℕ) :
    spans k a (⟨k, n⟩ :: ts) = ⟨a, n⟩ :: spans k (a + n) ts := if_pos rfl

theorem spans_append (xs ys : List Tile) :
    spans k a (xs ++ ys) = spans k a xs ++ spans k (a + total xs) ys := by
  induction xs generalizing a with
  | nil => rfl
  | cons t xs ih =>
    rw [List.cons_append, total_cons, ← Nat.add_assoc]
    by_cases h : t.taken = k
    · rw [spans_same h, spans_same h, ih, List.cons_append]
    · rw [spans_other h, spans_other h, ih]

theorem spans_bounds (hb : b ∈ spans k a ts) : a ≤ b.addr ∧ b.addr + b.size ≤ a + total ts := by
  induction ts generalizing a with
  | nil => cases hb
  | cons t ts ih =>
    rw [total_cons]
    by_cases h : t.taken = k
    · rw [spans_same h] at hb
      rcases List.mem_cons.mp hb with rfl | hb
      · exact ⟨Nat.le_refl _, by simp⟩
      · have := ih hb
        omega
    · rw [spans_other h] at hb
      have := ih hb
      omega

/-- The tile that a block comes from. -/
theorem spans_split {bs cs : List Block} (h : spans k a ts = bs ++ b :: cs) :
    ∃ xs ys, ts = xs ++ ⟨k, b.size⟩ :: ys ∧ b.addr = a + total xs ∧ spans k a xs = bs ∧
      spans k (b.addr + b.size) ys = cs := by
  induction ts generalizing a bs with
  | nil => simp at h
  | cons t ts ih =>
    by_cases ht : t.taken = k
    · rw [spans_same ht] at h
      cases bs with
      | nil =>
        obtain ⟨rfl, rfl⟩ := List.cons.inj h
        subst ht
        exact ⟨[], ts, rfl, rfl, rfl, rfl⟩
      | cons c bs =>
        obtain ⟨rfl, hrest⟩ := List.cons.inj h
        obtain ⟨xs, ys, rfl, haddr, hbs, hcs⟩ := ih hrest
        refine ⟨t :: xs, ys, rfl, ?_, ?_, hcs⟩
        · rw [haddr, total_cons, Nat.add_assoc]
        · rw [spans_same ht, hbs]
    · rw [spans_other ht] at h
      obtain ⟨xs, ys, rfl, haddr, hbs, hcs⟩ := ih h
      refine ⟨t :: xs, ys, rfl, ?_, ?_, hcs⟩
      · rw [haddr, total_cons, Nat.add_assoc]
      · rw [spans_other ht, hbs]

theorem mem_spans (hb : b ∈ spans k a ts) :
    ∃ xs ys, ts = xs ++ ⟨k, b.size⟩ :: ys ∧ b.addr = a + total xs := by
  obtain ⟨bs, cs, heq⟩ := List.append_of_mem hb
  obtain ⟨xs, ys, hts, haddr, -⟩ := spans_split heq
  exact ⟨xs, ys, hts, haddr⟩

theorem spans_sorted : (spans k a ts).Pairwise Block.Before := by
  induction ts generalizing a with
  | nil => exact List.Pairwise.nil
  | cons t ts ih =>
    by_cases h : t.taken = k
    · rw [spans_same h]
      exact List.pairwise_cons.mpr ⟨fun c hc ↦ (spans_bounds hc).1, ih⟩
    · rw [spans_other h]
      exact ih

theorem before_or_before (hb : b ∈ spans k a ts) (hc : c ∈ spans k a ts) (hne : b ≠ c) :
    b.Before c ∨ c.Before b := by
  obtain ⟨bs, cs, heq⟩ := List.append_of_mem hb
  have hsorted : (spans k a ts).Pairwise Block.Before := spans_sorted
  rw [heq] at hc hsorted
  obtain ⟨-, hbehind, hbefore⟩ := List.pairwise_append.mp hsorted
  rcases List.mem_append.mp hc with hc | hc
  · exact .inr (hbefore c hc b (List.mem_cons_self ..))
  · rcases List.mem_cons.mp hc with rfl | hc
    · exact absurd rfl hne
    · exact .inl ((List.pairwise_cons.mp hbehind).1 c hc)

/-- Blocks of different kinds do not overlap. -/
theorem spans_disjoint {k' : Bool} (hk : k ≠ k') (hb : b ∈ spans k a ts)
    (hc : c ∈ spans k' a ts) : b.Before c ∨ c.Before b := by
  induction ts generalizing a with
  | nil => cases hb
  | cons t ts ih =>
    by_cases ht : t.taken = k
    · rw [spans_other (fun h ↦ hk (ht.symm.trans h))] at hc
      rw [spans_same ht] at hb
      rcases List.mem_cons.mp hb with rfl | hb
      · exact .inl (spans_bounds hc).1
      · exact ih hb hc
    · rw [spans_other ht] at hb
      by_cases ht' : t.taken = k'
      · rw [spans_same ht'] at hc
        rcases List.mem_cons.mp hc with rfl | hc
        · exact .inr (spans_bounds hb).1
        · exact ih hb hc
      · rw [spans_other ht'] at hc
        exact ih hb hc

end Spans

/-- A tile is freed in front of these, and is one with a free tile there. -/
def mergeRight (n : ℕ) : List Tile → List Tile
  | ⟨false, m⟩ :: ts => ⟨false, n + m⟩ :: ts
  | ts => ⟨false, n⟩ :: ts

/-- A tile is freed between these, and is one with the free tiles next to it. -/
def merge (xs : List Tile) (n : ℕ) (ys : List Tile) : List Tile :=
  match xs.getLast? with
  | some ⟨false, m⟩ => xs.dropLast ++ mergeRight (m + n) ys
  | _ => xs ++ mergeRight n ys

section Merge

variable {a n : ℕ} {xs ys : List Tile}

theorem mergeRight_cases (n : ℕ) (ys : List Tile) :
    (∃ m ys', ys = ⟨false, m⟩ :: ys' ∧ mergeRight n ys = ⟨false, n + m⟩ :: ys') ∨
      mergeRight n ys = ⟨false, n⟩ :: ys ∧ ∀ t ∈ ys.head?, t.taken = true := by
  match ys with
  | [] => exact .inr ⟨rfl, by simp⟩
  | ⟨false, m⟩ :: ys' => exact .inl ⟨m, ys', rfl, rfl⟩
  | ⟨true, m⟩ :: ys' => exact .inr ⟨rfl, by simp⟩

theorem merge_cases (xs : List Tile) (n : ℕ) (ys : List Tile) :
    (∃ xs' m, xs = xs' ++ [⟨false, m⟩] ∧ merge xs n ys = xs' ++ mergeRight (m + n) ys) ∨
      merge xs n ys = xs ++ mergeRight n ys ∧ ∀ t ∈ xs.getLast?, t.taken = true := by
  induction xs using List.reverseRecOn with
  | nil => exact .inr ⟨rfl, by simp⟩
  | append_singleton xs t _ =>
    obtain ⟨taken, m⟩ := t
    cases taken with
    | false => exact .inl ⟨xs, m, rfl, by simp [merge]⟩
    | true => exact .inr ⟨by simp [merge], by simp⟩

theorem mergeRight_taken (hys : ∀ t ∈ ys.head?, t.taken = true) :
    mergeRight n ys = ⟨false, n⟩ :: ys := by
  obtain ⟨m, ys', rfl, -⟩ | ⟨h, -⟩ := mergeRight_cases n ys
  · exact absurd (hys _ rfl) Bool.false_ne_true
  · exact h

/-- Between tiles that are taken a freed one stays alone. -/
theorem merge_taken (m : ℕ) (hys : ∀ t ∈ ys.head?, t.taken = true) :
    merge (xs ++ [⟨true, m⟩]) n ys = xs ++ ⟨true, m⟩ :: ⟨false, n⟩ :: ys := by
  rw [merge, List.getLast?_concat, List.append_assoc, mergeRight_taken hys]
  rfl

theorem total_mergeRight (n : ℕ) (ys : List Tile) : total (mergeRight n ys) = n + total ys := by
  obtain ⟨m, ys', rfl, h⟩ | ⟨h, -⟩ := mergeRight_cases n ys
  · rw [h, total_cons, total_cons, Nat.add_assoc]
  · rw [h, total_cons]

theorem total_merge (xs : List Tile) (n : ℕ) (ys : List Tile) :
    total (merge xs n ys) = total xs + n + total ys := by
  obtain ⟨xs', m, rfl, h⟩ | ⟨h, -⟩ := merge_cases xs n ys
  · rw [h, total_append, total_append, total_mergeRight, total_cons, total_nil]
    dsimp only
    omega
  · rw [h, total_append, total_mergeRight]
    omega

theorem amount_mergeRight (n : ℕ) (ys : List Tile) :
    amount false (mergeRight n ys) = n + amount false ys := by
  obtain ⟨m, ys', rfl, h⟩ | ⟨h, -⟩ := mergeRight_cases n ys
  · simp [h, amount, Nat.add_assoc]
  · simp [h, amount]

theorem amount_merge (xs : List Tile) (n : ℕ) (ys : List Tile) :
    amount false (merge xs n ys) = amount false xs + n + amount false ys := by
  obtain ⟨xs', m, rfl, h⟩ | ⟨h, -⟩ := merge_cases xs n ys
  · rw [h, amount_append, amount_append, amount_mergeRight]
    simp [amount]
    omega
  · rw [h, amount_append, amount_mergeRight]
    omega

theorem spans_true_mergeRight (n : ℕ) (ys : List Tile) :
    spans true a (mergeRight n ys) = spans true (a + n) ys := by
  obtain ⟨m, ys', rfl, h⟩ | ⟨h, -⟩ := mergeRight_cases n ys
  · rw [h, spans_other Bool.false_ne_true, spans_other Bool.false_ne_true, Nat.add_assoc]
  · rw [h, spans_other Bool.false_ne_true]

/-- The tiles that are taken stay where they are. -/
theorem spans_true_merge (xs : List Tile) (n : ℕ) (ys : List Tile) :
    spans true a (merge xs n ys) = spans true a xs ++ spans true (a + total xs + n) ys := by
  obtain ⟨xs', m, rfl, h⟩ | ⟨h, -⟩ := merge_cases xs n ys
  · rw [h, spans_append, spans_append, spans_true_mergeRight, spans_other Bool.false_ne_true,
      spans_nil, List.append_nil, total_append, total_cons, total_nil, Nat.add_zero,
      Nat.add_assoc, Nat.add_assoc, Nat.add_assoc]
  · rw [h, spans_append, spans_true_mergeRight]

theorem forall_mergeRight {P : ℕ → Prop} (hadd : ∀ m n, P m → P n → P (m + n)) (hn : P n)
    (hys : ∀ t ∈ ys, P t.size) : ∀ t ∈ mergeRight n ys, P t.size := by
  obtain ⟨m, ys', rfl, h⟩ | ⟨h, -⟩ := mergeRight_cases n ys
  · rw [h]
    obtain ⟨hm, hys⟩ := List.forall_mem_cons.mp hys
    exact List.forall_mem_cons.mpr ⟨hadd n m hn hm, hys⟩
  · rw [h]
    exact List.forall_mem_cons.mpr ⟨hn, hys⟩

theorem forall_merge {P : ℕ → Prop} (hadd : ∀ m n, P m → P n → P (m + n)) (hn : P n)
    (hxs : ∀ t ∈ xs, P t.size) (hys : ∀ t ∈ ys, P t.size) : ∀ t ∈ merge xs n ys, P t.size := by
  obtain ⟨xs', m, rfl, h⟩ | ⟨h, -⟩ := merge_cases xs n ys
  · rw [h]
    obtain ⟨hxs, hm⟩ := List.forall_mem_append.mp hxs
    refine List.forall_mem_append.mpr ⟨hxs, forall_mergeRight hadd (hadd m n ?_ hn) hys⟩
    exact hm _ (List.mem_singleton_self _)
  · rw [h]
    exact List.forall_mem_append.mpr ⟨hxs, forall_mergeRight hadd hn hys⟩

theorem isChain_mergeRight (n : ℕ) (hys : ys.IsChain Apart) : (mergeRight n ys).IsChain Apart := by
  obtain ⟨m, ys', rfl, h⟩ | ⟨h, hhead⟩ := mergeRight_cases n ys
  · rw [h]
    refine List.isChain_cons.mpr ⟨fun u hu ↦ ?_, (List.isChain_cons.mp hys).2⟩
    exact .inr (((List.isChain_cons.mp hys).1 u hu).resolve_left Bool.false_ne_true)
  · rw [h]
    exact List.isChain_cons.mpr ⟨fun u hu ↦ .inr (hhead u hu), hys⟩

/-- A freed tile and the free tiles next to it have become one. -/
theorem isChain_merge (n : ℕ) (hxs : xs.IsChain Apart) (hys : ys.IsChain Apart) :
    (merge xs n ys).IsChain Apart := by
  obtain ⟨xs', m, rfl, h⟩ | ⟨h, hlast⟩ := merge_cases xs n ys
  · rw [h]
    obtain ⟨hxs, -, hm⟩ := List.isChain_append.mp hxs
    refine List.isChain_append.mpr ⟨hxs, isChain_mergeRight _ hys, fun t ht u _ ↦ ?_⟩
    exact .inl ((hm t ht _ rfl).resolve_right Bool.false_ne_true)
  · rw [h]
    exact List.isChain_append.mpr ⟨hxs, isChain_mergeRight _ hys, fun t ht u _ ↦ .inl (hlast t ht)⟩

/-- With no tile taken there is a single one. -/
theorem eq_singleton {ts : List Tile} (hts : ts.IsChain Apart) (hne : ts ≠ [])
    (hfree : ∀ t ∈ ts, t.taken = false) : ts = [⟨false, total ts⟩] := by
  match ts with
  | [] => exact absurd rfl hne
  | [⟨taken, n⟩] =>
    obtain rfl : taken = false := hfree _ (List.mem_singleton_self _)
    simp
  | t :: u :: ts =>
    rcases hts.rel with ht | hu
    · rw [hfree t (by simp)] at ht
      cases ht
    · rw [hfree u (by simp)] at hu
      cases hu

end Merge

end Tanenbaum.Lib.Tiles
